import Curvy.Prover.U29x9Exact

/-!
# Four elements at a time

Limb `i` of four independent elements stands in the four lanes of vector `i`. The vector words
wrap where the scalar code has an overflow to fear; wherever the scalar code has a result, every
lane holds it.
-/

namespace Curvy.Prover.U29x9

set_option autoImplicit false

open Radix (Words low value Reduced)

/-! ## Vectors of four words -/

abbrev V128 : Type := Fin 4 → BitVec 32

abbrev V : Type := Fin 9 → V128

def splat (x : BitVec 32) : V128 := fun _ => x

def i32x4Add (a b : V128) : V128 := fun l => a l + b l

def i32x4Sub (a b : V128) : V128 := fun l => a l - b l

def i32x4Shr (a : V128) (n : Nat) : V128 := fun l => (a l).sshiftRight n

def u32x4Shr (a : V128) (n : Nat) : V128 := fun l => a l >>> n

def i32x4Eq (a b : V128) : V128 := fun l => if a l = b l then BitVec.allOnes 32 else 0

def v128And (a b : V128) : V128 := fun l => a l &&& b l

def v128Or (a b : V128) : V128 := fun l => a l ||| b l

def v128Bitselect (a b mask : V128) : V128 := fun l => (a l &&& mask l) ||| (b l &&& ~~~mask l)

/-- The words of one lane. -/
def lane {n : Nat} (v : Fin n → V128) (l : Fin 4) : Words 32 n := fun i => v i l

def pack (e : Fin 4 → Limbs) : V := fun i l => e l i

def unpack (v : V) : Fin 4 → Limbs := lane v

/-! ## Loops over the vectors -/

def subBorrow4 : {n : Nat} → (Fin n → V128) → (Fin n → V128) → V128 → (Fin n → V128) × V128
  | 0, a, _, borrow => (a, borrow)
  | _ + 1, a, b, borrow =>
    let v := i32x4Add (i32x4Sub (low a) (low b)) borrow
    let rest := subBorrow4 (Fin.tail a) (Fin.tail b) (i32x4Shr v W)
    (Fin.cons (v128And v (splat MASK)) rest.1, rest.2)

def addCarry4 : {n : Nat} → (Fin n → V128) → (Fin n → V128) → V128 → (Fin n → V128) × V128
  | 0, a, _, carry => (a, carry)
  | _ + 1, a, b, carry =>
    let v := i32x4Add (i32x4Add (low a) (low b)) carry
    let rest := addCarry4 (Fin.tail a) (Fin.tail b) (u32x4Shr v W)
    (Fin.cons (v128And v (splat MASK)) rest.1, rest.2)

def subIfGeq4 (a : V) (m : Limbs) : V :=
  let d := subBorrow4 a (fun i => splat (m i)) (splat 0)
  fun i => v128Bitselect (a i) (d.1 i) d.2

section Operations

variable (m : Modulus)

def add4 (a b : V) : V :=
  let s := addCarry4 a b (splat 0)
  subIfGeq4 s.1 m.P2

def sub4 (a b : V) : V :=
  let d := subBorrow4 a b (splat 0)
  (addCarry4 d.1 (fun i => v128And (splat (m.P2 i)) d.2) (splat 0)).1

/-- All ones in the lanes where `v` has the limbs `c`. -/
def equalLanes (v : V) (c : Limbs) : V128 :=
  (List.finRange 9).foldl (fun mask i => v128And mask (i32x4Eq (v i) (splat (c i))))
    (splat (BitVec.allOnes 32))

def zeroLanesBase (v : V) : V128 := v128Or (equalLanes v zero) (equalLanes v m.P)

end Operations

def selectBase (a b : V) (mask : V128) : V := fun i => v128Bitselect (a i) (b i) mask

def get (v : V) (l : Fin 4) : Limbs := unpack v l

def set (v : V) (l : Fin 4) (e : Limbs) : V := pack (Function.update (unpack v) l e)

/-! ## Wrapping words where nothing wraps -/

theorem i32_some {v w : Int} (h : i32 v = some w) : w = v ∧ -2 ^ 31 ≤ v ∧ v < 2 ^ 31 := by
  unfold i32 at h
  split at h
  · rename_i hbounds
    exact ⟨(Option.some.inj h).symm, hbounds⟩
  · cases h

theorem u32_some {v w : Nat} (h : u32 v = some w) : w = v ∧ v < 2 ^ 32 := by
  unfold u32 at h
  split at h
  · rename_i hlt
    exact ⟨(Option.some.inj h).symm, hlt⟩
  · cases h

theorem toInt_sub_of_i32 {x y : BitVec 32} {v : Int} (h : i32 (x.toInt - y.toInt) = some v) :
    (x - y).toInt = v := by
  obtain ⟨rfl, hlow, hhigh⟩ := i32_some h
  rw [BitVec.toInt_sub]
  exact Int.bmod_eq_of_le (by omega) (by omega)

theorem toInt_add_of_i32 {x y : BitVec 32} {v : Int} (h : i32 (x.toInt + y.toInt) = some v) :
    (x + y).toInt = v := by
  obtain ⟨rfl, hlow, hhigh⟩ := i32_some h
  rw [BitVec.toInt_add]
  exact Int.bmod_eq_of_le (by omega) (by omega)

theorem toNat_add_of_u32 {x y : BitVec 32} {v : Nat} (h : u32 (x.toNat + y.toNat) = some v) :
    (x + y).toNat = v := by
  obtain ⟨rfl, hlt⟩ := u32_some h
  exact BitVec.toNat_add_of_lt hlt

/-! ## The loops, lane by lane -/

theorem lane_cons {n : Nat} (x : V128) (v : Fin n → V128) (l : Fin 4) :
    lane (Fin.cons x v : Fin (n + 1) → V128) l = Fin.cons (x l) (lane v l) := by
  funext i
  refine Fin.cases ?_ (fun j => ?_) i
  · rfl
  · rfl

theorem subBorrow4_lane {n : Nat} {a b : Fin n → V128} {borrow : V128} {l : Fin 4}
    {d : Words 32 n} {c : Int}
    (h : subBorrow (lane a l) (lane b l) (borrow l).toInt = some (d, c)) :
    lane (subBorrow4 a b borrow).1 l = d ∧ ((subBorrow4 a b borrow).2 l).toInt = c := by
  induction n generalizing borrow c with
  | zero =>
    obtain ⟨rfl, rfl⟩ := Prod.mk.inj (Option.some.inj h)
    exact ⟨rfl, rfl⟩
  | succ n ih =>
    obtain ⟨difference, hdifference, h⟩ := Option.bind_eq_some_iff.mp h
    obtain ⟨v, hv, h⟩ := Option.bind_eq_some_iff.mp h
    obtain ⟨rest, hrest, h⟩ := Option.bind_eq_some_iff.mp h
    obtain ⟨rfl, rfl⟩ := Prod.mk.inj (Option.some.inj h)
    have hsub : (a 0 l - b 0 l).toInt = difference := toInt_sub_of_i32 hdifference
    rw [← hsub] at hv
    have hword : (a 0 l - b 0 l + borrow l).toInt = v := toInt_add_of_i32 hv
    have hshift : (i32x4Shr (i32x4Add (i32x4Sub (a 0) (b 0)) borrow) W l).toInt = v >>> W := by
      rw [← hword]
      exact BitVec.toInt_sshiftRight
    rw [← hshift] at hrest
    obtain ⟨hlane, hborrow⟩ := @ih (Fin.tail a) (Fin.tail b) _ rest.1 rest.2 hrest
    constructor
    · rw [subBorrow4, lane_cons, hlane, ← hword, BitVec.ofInt_toInt]
      rfl
    · exact hborrow

theorem addCarry4_lane {n : Nat} {a b : Fin n → V128} {carry : V128} {l : Fin 4}
    {s : Words 32 n} {c : Nat}
    (h : addCarry (lane a l) (lane b l) (carry l).toNat = some (s, c)) :
    lane (addCarry4 a b carry).1 l = s ∧ ((addCarry4 a b carry).2 l).toNat = c := by
  induction n generalizing carry c with
  | zero =>
    obtain ⟨rfl, rfl⟩ := Prod.mk.inj (Option.some.inj h)
    exact ⟨rfl, rfl⟩
  | succ n ih =>
    obtain ⟨sum, hsum, h⟩ := Option.bind_eq_some_iff.mp h
    obtain ⟨v, hv, h⟩ := Option.bind_eq_some_iff.mp h
    obtain ⟨rest, hrest, h⟩ := Option.bind_eq_some_iff.mp h
    obtain ⟨rfl, rfl⟩ := Prod.mk.inj (Option.some.inj h)
    have hadd : (a 0 l + b 0 l).toNat = sum := toNat_add_of_u32 hsum
    rw [← hadd] at hv
    have hword : (a 0 l + b 0 l + carry l).toNat = v := toNat_add_of_u32 hv
    have hshift : (u32x4Shr (i32x4Add (i32x4Add (a 0) (b 0)) carry) W l).toNat = v >>> W := by
      rw [← hword]
      exact BitVec.toNat_ushiftRight _ _
    rw [← hshift] at hrest
    obtain ⟨hlane, hcarry⟩ := @ih (Fin.tail a) (Fin.tail b) _ rest.1 rest.2 hrest
    constructor
    · rw [addCarry4, lane_cons, hlane, ← hword, BitVec.ofNat_toNat, BitVec.setWidth_eq]
      rfl
    · exact hcarry

/-! ## The operations, lane by lane -/

variable {m : Modulus} {a b : V} {l : Fin 4} {r : Limbs}

theorem subIfGeq4_lane {c : Limbs} (h : subIfGeq (lane a l) c = some r) :
    lane (subIfGeq4 a c) l = r := by
  obtain ⟨d, hd, h⟩ := Option.bind_eq_some_iff.mp h
  obtain ⟨hlane, hborrow⟩ := @subBorrow4_lane 9 a (fun i => splat (c i)) (splat 0) l d.1 d.2 hd
  rw [← Option.some.inj h, ← hborrow, ← hlane]
  funext i
  rw [BitVec.ofInt_toInt]
  rfl

theorem add4_lane (h : add m (lane a l) (lane b l) = some r) : lane (add4 m a b) l = r := by
  obtain ⟨s, hs, h⟩ := Option.bind_eq_some_iff.mp h
  obtain ⟨hlane, _⟩ := @addCarry4_lane 9 a b (splat 0) l s.1 s.2 hs
  rw [← hlane] at h
  exact subIfGeq4_lane h

theorem sub4_lane (h : sub m (lane a l) (lane b l) = some r) : lane (sub4 m a b) l = r := by
  obtain ⟨d, hd, h⟩ := Option.bind_eq_some_iff.mp h
  obtain ⟨s, hs, h⟩ := Option.bind_eq_some_iff.mp h
  obtain ⟨hlane, hborrow⟩ := @subBorrow4_lane 9 a b (splat 0) l d.1 d.2 hd
  rw [← hborrow, ← hlane, BitVec.ofInt_toInt] at hs
  rw [← Option.some.inj h]
  exact (@addCarry4_lane 9 _ (fun i => v128And (splat (m.P2 i)) _) (splat 0) l s.1 s.2 hs).1

/-! ## Tests and selection -/

theorem foldl_equal (v : V) (c : Limbs) (limbs : List (Fin 9)) (mask : V128) (l : Fin 4) :
    limbs.foldl (fun mask i => v128And mask (i32x4Eq (v i) (splat (c i)))) mask l =
      if ∀ i ∈ limbs, v i l = c i then mask l else 0 := by
  induction limbs generalizing mask with
  | nil => rw [if_pos (fun _ h => absurd h List.not_mem_nil), List.foldl_nil]
  | cons i limbs ih =>
    rw [List.foldl_cons, ih]
    have hequal : v128And mask (i32x4Eq (v i) (splat (c i))) l =
        mask l &&& if v i l = c i then BitVec.allOnes 32 else 0 := rfl
    rw [hequal]
    by_cases hi : v i l = c i
    · rw [if_pos hi, BitVec.and_allOnes]
      simp only [List.forall_mem_cons, hi, true_and]
    · rw [if_neg hi]
      simp only [List.forall_mem_cons, hi, false_and, if_false]
      split
      · exact BitVec.and_zero
      · rfl

theorem equalLanes_apply (v : V) (c : Limbs) (l : Fin 4) :
    equalLanes v c l = if lane v l = c then BitVec.allOnes 32 else 0 := by
  have hall : (∀ i ∈ List.finRange 9, v i l = c i) ↔ lane v l = c := by
    constructor
    · exact fun h => funext fun i => h i (List.mem_finRange i)
    · exact fun h i _ => congrFun h i
  rw [equalLanes, foldl_equal]
  simp only [hall]
  rfl

/-- The two weakly reduced representatives of zero. -/
theorem toField_eq_zero_iff_limbs (a : WeaklyReduced m) :
    toField m a.limbs = 0 ↔ a.limbs = zero ∨ a.limbs = m.P := by
  have hlt := a.lt
  rw [toField_eq_zero_iff]
  constructor
  · rintro ⟨k, hk⟩
    have hp := m.prime.pos
    have hcases : k = 0 ∨ k = 1 := by
      rw [hk, Nat.mul_comm] at hlt
      have hk2 := Nat.lt_of_mul_lt_mul_right hlt
      omega
    rcases hcases with rfl | rfl
    · apply Or.inl
      apply Radix.value_injective a.reduced (WeaklyReduced.zero m).reduced
      rw [hk, Nat.mul_zero]
      exact value_zero.symm
    · apply Or.inr
      apply Radix.value_injective a.reduced m.reduced_P
      rw [hk, Nat.mul_one, m.value_P]
  · rintro (h | h)
    · rw [h, value_zero]
      exact dvd_zero _
    · rw [h, m.value_P]

theorem zeroLanesBase_spec (v : V) (x : WeaklyReduced m) (h : lane v l = x.limbs) :
    zeroLanesBase m v l = if toField m x.limbs = 0 then BitVec.allOnes 32 else 0 := by
  have hor : zeroLanesBase m v l = equalLanes v zero l ||| equalLanes v m.P l := rfl
  rw [hor, equalLanes_apply, equalLanes_apply, h]
  simp only [toField_eq_zero_iff_limbs x]
  by_cases hzero : x.limbs = zero
  · have heither : x.limbs = zero ∨ x.limbs = m.P := Or.inl hzero
    rw [if_pos hzero, if_pos heither, BitVec.allOnes_or]
  · rw [if_neg hzero]
    simp only [hzero, false_or]
    exact BitVec.zero_or

theorem selectBase_lane {mask : V128} :
    (mask l = BitVec.allOnes 32 → lane (selectBase a b mask) l = lane a l) ∧
      (mask l = 0 → lane (selectBase a b mask) l = lane b l) := by
  constructor
  · intro hmask
    funext i
    have hword : lane (selectBase a b mask) l i = (a i l &&& mask l) ||| (b i l &&& ~~~mask l) := rfl
    rw [hword, hmask, BitVec.and_allOnes, BitVec.not_allOnes, BitVec.and_zero, BitVec.or_zero]
    rfl
  · intro hmask
    have hzero : (0 : BitVec 32) = 0#32 := rfl
    funext i
    have hword : lane (selectBase a b mask) l i = (a i l &&& mask l) ||| (b i l &&& ~~~mask l) := rfl
    rw [hword, hmask, hzero, BitVec.and_zero, BitVec.not_zero, BitVec.and_allOnes, BitVec.zero_or]
    rfl

theorem unpack_pack (e : Fin 4 → Limbs) : unpack (pack e) = e := rfl

theorem pack_unpack (v : V) : pack (unpack v) = v := rfl

end Curvy.Prover.U29x9
