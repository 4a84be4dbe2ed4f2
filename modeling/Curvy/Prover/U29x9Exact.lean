import Curvy.Prover.U29x9

/-!
# Weakly reduced limbs compute in the field

A value below `2p` in limbs below `2 ^ 29` stands for its quotient by the Montgomery radix. The
loops are exact up to the carry they end with, and no expression in them leaves its type.
-/

namespace Curvy.Prover.U29x9

set_option autoImplicit false

open Radix (Words low value Reduced value_lt value_injective value_succ value_cons)

/-! ## One round -/

theorem mask_toNat (x : BitVec 32) : (x &&& MASK).toNat = x.toNat % 2 ^ 29 := by
  rw [BitVec.toNat_and]
  exact Nat.and_two_pow_sub_one_eq_mod x.toNat 29

theorem mask_ofInt (v : Int) : ((BitVec.ofInt 32 v &&& MASK).toNat : Int) = v % 2 ^ 29 := by
  rw [mask_toNat, BitVec.toNat_ofInt]
  omega

theorem mask_ofNat (v : Nat) : (BitVec.ofNat 32 v &&& MASK).toNat = v % 2 ^ 29 := by
  rw [mask_toNat, BitVec.toNat_ofNat]
  omega

theorem mask_lt (x : BitVec 32) : (x &&& MASK).toNat < 2 ^ 29 := by
  rw [mask_toNat]
  exact Nat.mod_lt _ (by omega)

theorem toInt_of_reduced {x : BitVec 32} (h : x.toNat < 2 ^ 29) : x.toInt = x.toNat :=
  BitVec.toInt_eq_toNat_of_lt (by omega)

theorem i32_of_bounds {v : Int} (hlow : -2 ^ 31 ≤ v) (hhigh : v < 2 ^ 31) : i32 v = some v :=
  if_pos ⟨hlow, hhigh⟩

theorem u32_of_lt {v : Nat} (h : v < 2 ^ 32) : u32 v = some v := if_pos h

/-! ## The loops -/

/-- The two values of a borrow. -/
def IsBorrow (c : Int) : Prop := c = 0 ∨ c = -1

theorem subBorrow_spec {n : Nat} {a b : Words 32 n} {c : Int} (ha : Reduced 29 a)
    (hb : Reduced 29 b) (hc : IsBorrow c) :
    ∃ d c', subBorrow a b c = some (d, c') ∧ Reduced 29 d ∧ IsBorrow c' ∧
      (value 29 d : Int) + c' * 2 ^ (29 * n) = value 29 a - value 29 b + c := by
  induction n generalizing c with
  | zero => exact ⟨a, c, rfl, ha, hc, by simp [value]⟩
  | succ n ih =>
    have ha0 : (low a).toNat < 2 ^ 29 := ha 0
    have hb0 : (low b).toNat < 2 ^ 29 := hb 0
    unfold IsBorrow at hc
    obtain ⟨v, hv⟩ : ∃ v : Int, v = (low a).toNat - (low b).toNat + c := ⟨_, rfl⟩
    have hshift : v >>> W = v / 2 ^ 29 := Int.shiftRight_eq_div_pow v 29
    have hborrow : IsBorrow (v / 2 ^ 29) := by
      unfold IsBorrow
      omega
    obtain ⟨d, c', hloop, hd, hc', hvalue⟩ := ih ha.tail hb.tail hborrow
    refine ⟨Fin.cons (BitVec.ofInt 32 v &&& MASK) d, c', ?_, hd.cons (mask_lt _), hc', ?_⟩
    · rw [subBorrow, toInt_of_reduced ha0, toInt_of_reduced hb0,
        i32_of_bounds (by omega) (by omega), Option.bind_eq_bind, Option.bind_some, ← hv,
        i32_of_bounds (by omega) (by omega), Option.bind_eq_bind, Option.bind_some, hshift, hloop]
      rfl
    · have hpow : (2 : Int) ^ (29 * (n + 1)) = 2 ^ 29 * 2 ^ (29 * n) := by
        rw [Nat.mul_succ, pow_add, mul_comm]
      have hdiv := Int.emod_add_mul_ediv v (2 ^ 29)
      rw [value_cons, value_succ a, value_succ b, hpow]
      push_cast
      rw [mask_ofInt]
      linear_combination hdiv + hv + 2 ^ 29 * hvalue

theorem addCarry_spec {n : Nat} {a b : Words 32 n} {c : Nat} (ha : Reduced 29 a)
    (hb : Reduced 29 b) (hc : c ≤ 1) :
    ∃ d c', addCarry a b c = some (d, c') ∧ Reduced 29 d ∧ c' ≤ 1 ∧
      value 29 d + c' * 2 ^ (29 * n) = value 29 a + value 29 b + c := by
  induction n generalizing c with
  | zero => exact ⟨a, c, rfl, ha, hc, by simp [value]⟩
  | succ n ih =>
    have ha0 : (low a).toNat < 2 ^ 29 := ha 0
    have hb0 : (low b).toNat < 2 ^ 29 := hb 0
    obtain ⟨v, hv⟩ : ∃ v, v = (low a).toNat + (low b).toNat + c := ⟨_, rfl⟩
    have hshift : v >>> W = v / 2 ^ 29 := Nat.shiftRight_eq_div_pow v 29
    obtain ⟨d, c', hloop, hd, hc', hvalue⟩ := ih ha.tail hb.tail (c := v / 2 ^ 29) (by omega)
    refine ⟨Fin.cons (BitVec.ofNat 32 v &&& MASK) d, c', ?_, hd.cons (mask_lt _), hc', ?_⟩
    · rw [addCarry, u32_of_lt (by omega), Option.bind_eq_bind, Option.bind_some, ← hv,
        u32_of_lt (by omega), Option.bind_eq_bind, Option.bind_some, hshift, hloop]
      rfl
    · have hpow : 2 ^ (29 * (n + 1)) = 2 ^ 29 * 2 ^ (29 * n) := by
        rw [Nat.mul_succ, pow_add, mul_comm]
      have hdiv := Nat.mod_add_div v (2 ^ 29)
      rw [value_cons, value_succ a, value_succ b, hpow, mask_ofNat]
      linear_combination hdiv + hv + 2 ^ 29 * hvalue

/-! ## Selection by a borrow -/

theorem select_keep (x y : BitVec 32) :
    (x &&& BitVec.ofInt 32 (-1)) ||| (y &&& ~~~BitVec.ofInt 32 (-1)) = x := by
  have hones : BitVec.ofInt 32 (-1) = BitVec.allOnes 32 := rfl
  rw [hones, BitVec.and_allOnes, BitVec.not_allOnes, BitVec.and_zero, BitVec.or_zero]

theorem select_take (x y : BitVec 32) :
    (x &&& BitVec.ofInt 32 0) ||| (y &&& ~~~BitVec.ofInt 32 0) = y := by
  have hzero : BitVec.ofInt 32 0 = 0#32 := rfl
  rw [hzero, BitVec.and_zero, BitVec.not_zero, BitVec.and_allOnes, BitVec.zero_or]

theorem subIfGeq_spec {a b : Limbs} (ha : Reduced 29 a) (hb : Reduced 29 b) :
    ∃ r, subIfGeq a b = some r ∧ Reduced 29 r ∧
      value 29 r = if value 29 a < value 29 b then value 29 a else value 29 a - value 29 b := by
  obtain ⟨d, c, hloop, hd, hc, hvalue⟩ := subBorrow_spec ha hb (.inl rfl)
  have hlt := value_lt hd
  unfold subIfGeq
  rw [hloop, Option.bind_eq_bind, Option.bind_some]
  rcases hc with rfl | rfl
  · refine ⟨d, congrArg some (funext fun i => select_take _ _), hd, ?_⟩
    rw [if_neg (by omega)]
    omega
  · refine ⟨a, congrArg some (funext fun i => select_keep _ _), ha, ?_⟩
    rw [if_pos (by omega)]

/-! ## Weakly reduced values -/

/-- A value below `2p` in limbs below `2 ^ 29`. -/
structure WeaklyReduced (m : Modulus) where
  limbs : Limbs
  reduced : Reduced 29 limbs
  lt : value 29 limbs < 2 * m.p

variable {m : Modulus}

/-- What limbs stand for. -/
def toField (m : Modulus) (a : Limbs) : ZMod m.p := value 29 a * ((2 ^ 261 : ℕ) : ZMod m.p)⁻¹

theorem radix_cast (m : Modulus) (k : Nat) : ((2 ^ k : ℕ) : ZMod m.p) = 2 ^ k := by
  rw [Nat.cast_pow, Nat.cast_ofNat]

theorem toField_def (a : Limbs) : toField m a = value 29 a * (2 ^ 261)⁻¹ := by
  rw [toField, radix_cast]

theorem radix_ne_zero (m : Modulus) (k : Nat) : (2 ^ k : ZMod m.p) ≠ 0 := by
  apply pow_ne_zero
  intro h
  have hdvd : m.p ∣ 2 := (ZMod.natCast_eq_zero_iff 2 m.p).mp (by exact_mod_cast h)
  exact absurd (Nat.le_of_dvd (by omega) hdvd) (Nat.not_le.mpr m.two_lt)

/-- Numbers that differ by a multiple of the modulus stand for the same. -/
theorem toField_eq_iff {a b : Limbs} :
    toField m a = toField m b ↔ value 29 a ≡ value 29 b [MOD m.p] := by
  rw [toField_def, toField_def, mul_left_inj' (inv_ne_zero (radix_ne_zero m 261)),
    ZMod.natCast_eq_natCast_iff]

theorem toField_eq_zero_iff {a : Limbs} : toField m a = 0 ↔ m.p ∣ value 29 a := by
  rw [toField_def, mul_eq_zero, or_iff_left (inv_ne_zero (radix_ne_zero m 261)), ZMod.natCast_eq_zero_iff]

theorem canonical_spec (a : WeaklyReduced m) :
    ∃ r, canonical m a.limbs = some r ∧ Reduced 29 r ∧ value 29 r < m.p ∧
      toField m r = toField m a.limbs := by
  obtain ⟨r, hr, hreduced, hvalue⟩ := subIfGeq_spec a.reduced m.reduced_P
  have hlt := a.lt
  rw [m.value_P] at hvalue
  refine ⟨r, hr, hreduced, ?_, toField_eq_iff.mpr ?_⟩
  · rw [hvalue]
    split <;> omega
  · rw [hvalue]
    split
    · rfl
    · rename_i hge
      have hadd : value 29 a.limbs = value 29 a.limbs - m.p + m.p := by omega
      rw [hadd, Nat.add_sub_cancel]
      exact (Nat.add_modEq_right).symm

/-- There is one representative below the modulus. -/
theorem canonical_unique {a b : Limbs} (ha : Reduced 29 a) (hb : Reduced 29 b)
    (hpa : value 29 a < m.p) (hpb : value 29 b < m.p) (h : toField m a = toField m b) : a = b := by
  apply value_injective ha hb
  exact Nat.ModEq.eq_of_lt_of_lt (toField_eq_iff.mp h) hpa hpb

theorem add_spec (a b : WeaklyReduced m) :
    ∃ r : WeaklyReduced m, add m a.limbs b.limbs = some r.limbs ∧
      toField m r.limbs = toField m a.limbs + toField m b.limbs := by
  obtain ⟨s, c, hloop, hs, hc, hsum⟩ := addCarry_spec a.reduced b.reduced (Nat.zero_le 1)
  obtain ⟨r, hr, hreduced, hvalue⟩ := subIfGeq_spec hs m.reduced_P2
  have hlta := a.lt
  have hltb := b.lt
  have hp := m.lt_pow
  rw [m.value_P2] at hvalue
  -- four times the modulus stays below the radix, so that nothing is carried out
  obtain rfl : c = 0 := by omega
  rw [Nat.zero_mul, Nat.add_zero, Nat.add_zero] at hsum
  refine ⟨⟨r, hreduced, ?_⟩, ?_, ?_⟩
  · rw [hvalue]
    split <;> omega
  · rw [add, hloop, Option.bind_eq_bind, Option.bind_some]
    exact hr
  · have hcast : (value 29 r : ZMod m.p) = value 29 a.limbs + value 29 b.limbs := by
      rw [← Nat.cast_add, ← hsum, hvalue]
      split
      · rfl
      · rw [Nat.cast_sub (by omega), Nat.cast_mul, ZMod.natCast_self, mul_zero, sub_zero]
    rw [toField_def, toField_def, toField_def, hcast, add_mul]

theorem sub_spec (a b : WeaklyReduced m) :
    ∃ r : WeaklyReduced m, sub m a.limbs b.limbs = some r.limbs ∧
      toField m r.limbs = toField m a.limbs - toField m b.limbs := by
  obtain ⟨d, c, hloop, hd, hc, hdifference⟩ := subBorrow_spec a.reduced b.reduced (.inl rfl)
  have hlta := a.lt
  have hltb := b.lt
  have hp := m.lt_pow
  have hlt := value_lt hd
  unfold sub
  rw [hloop, Option.bind_eq_bind, Option.bind_some]
  rcases hc with rfl | rfl
  · have hmask : (fun i => m.P2 i &&& BitVec.ofInt 32 0) = fun _ => 0 :=
      funext fun i => BitVec.and_zero
    have hzero : Reduced 29 (fun _ => 0 : Limbs) := by decide
    obtain ⟨r, c, hloop, hr, hc, hsum⟩ := addCarry_spec hd hzero (Nat.zero_le 1)
    rw [Radix.value_zero] at hsum
    obtain rfl : c = 0 := by omega
    refine ⟨⟨r, hr, by omega⟩, ?_, ?_⟩
    · dsimp only
      rw [hmask, hloop]
      rfl
    · have hcast : value 29 r + value 29 b.limbs = value 29 a.limbs := by omega
      rw [toField_def, toField_def, toField_def, ← hcast, Nat.cast_add, add_mul, add_sub_cancel_right]
  · have hmask : (fun i => m.P2 i &&& BitVec.ofInt 32 (-1)) = m.P2 :=
      funext fun i => BitVec.and_allOnes
    obtain ⟨r, c, hloop, hr, hc, hsum⟩ := addCarry_spec hd m.reduced_P2 (Nat.zero_le 1)
    have hltr := value_lt hr
    rw [m.value_P2] at hsum
    -- the carry that leaves the top limb cancels the borrow
    obtain rfl : c = 1 := by omega
    refine ⟨⟨r, hr, by omega⟩, ?_, ?_⟩
    · dsimp only
      rw [hmask, hloop]
      rfl
    · have hcast : value 29 r + value 29 b.limbs = value 29 a.limbs + 2 * m.p := by omega
      have hfield := congrArg (Nat.cast : Nat → ZMod m.p) hcast
      push_cast at hfield
      rw [ZMod.natCast_self, mul_zero, add_zero] at hfield
      rw [toField_def, toField_def, toField_def, ← hfield, add_mul, add_sub_cancel_right]

/-! ## Derived operations -/

theorem value_zero : value 29 zero = 0 := Radix.value_zero

/-- `zero`, which is weakly reduced. -/
def WeaklyReduced.zero (m : Modulus) : WeaklyReduced m where
  limbs := U29x9.zero
  reduced := by decide
  lt := by
    have hp := m.two_lt
    rw [value_zero]
    omega

theorem toField_zero (m : Modulus) : toField m zero = 0 := by
  rw [toField, value_zero, Nat.cast_zero, zero_mul]

theorem double_spec (a : WeaklyReduced m) :
    ∃ r : WeaklyReduced m, double m a.limbs = some r.limbs ∧
      toField m r.limbs = 2 * toField m a.limbs := by
  obtain ⟨r, hr, hvalue⟩ := add_spec a a
  exact ⟨r, hr, by rw [hvalue, two_mul]⟩

theorem neg_spec (a : WeaklyReduced m) :
    ∃ r : WeaklyReduced m, neg m a.limbs = some r.limbs ∧
      toField m r.limbs = -toField m a.limbs := by
  obtain ⟨r, hr, hvalue⟩ := sub_spec (.zero m) a
  refine ⟨r, hr, ?_⟩
  rw [hvalue, WeaklyReduced.zero, toField_zero, zero_sub]

theorem isZero_spec (a : WeaklyReduced m) :
    isZero m a.limbs = some (decide (toField m a.limbs = 0)) := by
  obtain ⟨c, hc, hreduced, hlt, hfield⟩ := canonical_spec a
  rw [isZero, hc, Option.bind_eq_bind, Option.bind_some, ← hfield]
  refine congrArg some (decide_eq_decide.mpr ⟨?_, fun h => ?_⟩)
  · rintro rfl
    exact toField_zero m
  · have hpos : value 29 zero < m.p := by
      rw [value_zero]
      exact m.prime.pos
    apply canonical_unique hreduced (WeaklyReduced.zero m).reduced hlt hpos
    rw [h]
    exact (toField_zero m).symm

theorem equals_spec (a b : WeaklyReduced m) :
    equals m a.limbs b.limbs = some (decide (toField m a.limbs = toField m b.limbs)) := by
  obtain ⟨x, hx, hxr, hxlt, hxf⟩ := canonical_spec a
  obtain ⟨y, hy, hyr, hylt, hyf⟩ := canonical_spec b
  rw [equals, hx, Option.bind_eq_bind, Option.bind_some, hy, Option.bind_some, ← hxf, ← hyf]
  refine congrArg some (decide_eq_decide.mpr ⟨fun h => ?_, fun h => ?_⟩)
  · rw [h]
  · exact canonical_unique hxr hyr hxlt hylt h

end Curvy.Prover.U29x9
