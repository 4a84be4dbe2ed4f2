import Curvy.Prover.U29x9Exact

/-!
# Nine limbs and four words

Both conversions move bits only: bit `k` of the number is bit `k % 29` of a limb and bit `k % 64`
of a word.
-/

namespace Curvy.Prover.U29x9

set_option autoImplicit false

open Radix (Words value Reduced value_lt testBit_value ofNat ofNat_getLsbD ofNat_value value_ofNat)

theorem getLsbD_of_reduced {x : BitVec 32} (h : x.toNat < 2 ^ 29) {j : Nat} (hj : 29 ≤ j) :
    x.getLsbD j = false :=
  Nat.testBit_lt_two_pow (Nat.lt_of_lt_of_le h (Nat.pow_le_pow_right (by omega) hj))

/-! ## To limbs -/

theorem testBit_words (l : U64x4) (i : Fin 4) {j : Nat} (hj : j < 64) :
    (value 64 l).testBit (64 * i + j) = (l i).getLsbD j := by
  have hdiv : (64 * i.val + j) / 64 = i := by omega
  have hmod : (64 * i.val + j) % 64 = j := by omega
  rw [testBit_value (by omega) (Reduced.full l), dif_pos (by omega), hmod]
  exact congrArg (fun k => (l k).getLsbD j) (Fin.ext hdiv)

theorem testBit_words_high (l : U64x4) {k : Nat} (hk : 256 ≤ k) : (value 64 l).testBit k = false := by
  rw [testBit_value (by omega) (Reduced.full l), dif_neg (by omega)]

theorem mask64_getLsbD (x : BitVec 64) (j : Nat) :
    (x &&& MASK64).getLsbD j = (x.getLsbD j && decide (j < 29)) := by
  have hmask : MASK64.toNat = 2 ^ 29 - 1 := rfl
  rw [BitVec.getLsbD_and]
  congr 1
  rw [BitVec.getLsbD, hmask, Nat.testBit_two_pow_sub_one]

/-- A limb lies in its word and the lowest bits of the next one. -/
theorem position (i : Fin 9) : 64 * (word i).val + shift i = 29 * i ∧ shift i < 64 := by
  unfold word shift
  dsimp only
  omega

/-- The two words before the mask, where `next` are the bits of the second one. -/
theorem window_getLsbD {l : U64x4} {i : Fin 9} {j : Nat} (hj : j < 29) {next : BitVec 64}
    (hnext : 35 < shift i →
      next.getLsbD j = (decide (64 - shift i ≤ j) && (value 64 l).testBit (29 * i + j)))
    (hnone : shift i ≤ 35 → next = 0) :
    (l (word i) >>> shift i ||| next).getLsbD j = (value 64 l).testBit (29 * i + j) := by
  obtain ⟨hposition, hshift⟩ := position i
  rw [BitVec.getLsbD_or, BitVec.getLsbD_ushiftRight]
  by_cases hlow : shift i + j < 64
  · have hzero : next.getLsbD j = false := by
      by_cases hspans : 35 < shift i
      · rw [hnext hspans, decide_eq_false (by omega), Bool.false_and]
      · rw [hnone (by omega)]
        exact BitVec.getLsbD_zero
    rw [hzero, Bool.or_false, ← testBit_words l (word i) hlow, ← hposition, Nat.add_assoc]
  · rw [BitVec.getLsbD_of_ge _ _ (by omega), Bool.false_or, hnext (by omega),
      decide_eq_true (by omega), Bool.true_and]

theorem fromU64x4_eq (l : U64x4) : fromU64x4 l = ofNat 32 29 9 (value 64 l) := by
  funext i
  obtain ⟨hposition, hshift⟩ := position i
  apply BitVec.eq_of_getLsbD_eq
  intro j hj
  rw [ofNat_getLsbD (by omega), fromU64x4, BitVec.getLsbD_setWidth, decide_eq_true hj,
    Bool.true_and, mask64_getLsbD, Bool.and_comm]
  by_cases hlimb : j < 29
  · congr 1
    split
    · rename_i hspans
      apply window_getLsbD hlimb
      · intro _
        rw [BitVec.getLsbD_shiftLeft, decide_eq_true (by omega), Bool.true_and]
        by_cases hreach : 64 - shift i ≤ j
        · have hindex : 29 * i.val + j = 64 * ((word i).val + 1) + (j - (64 - shift i)) := by omega
          rw [hindex, testBit_words l ⟨(word i).val + 1, hspans.2⟩ (by omega),
            decide_eq_true hreach, decide_eq_false (by omega)]
          rfl
        · rw [decide_eq_false hreach, decide_eq_true (by omega)]
          rfl
      · intro hnone
        omega
    · rename_i hlast
      rw [← BitVec.or_zero (x := l (word i) >>> shift i)]
      apply window_getLsbD hlimb
      · intro hspans
        rw [BitVec.getLsbD_zero]
        by_cases hreach : 64 - shift i ≤ j
        · rw [testBit_words_high l (by omega), Bool.and_false]
        · rw [decide_eq_false hreach, Bool.false_and]
      · intro _
        rfl
  · rw [decide_eq_false hlimb, Bool.false_and, Bool.false_and]

/-! ## To words -/

/-- What a limb adds to a bit of a word. -/
def puts (a : Limbs) (k : Fin 4) (j : Nat) (i : Fin 9) : Bool :=
  decide (29 * i.val ≤ 64 * k + j) && (a i).getLsbD (64 * k + j - 29 * i)

theorem spread_low {a : Limbs} (ha : Reduced 29 a) (out : U64x4) (i : Fin 9) {k : Fin 4}
    (hk : k ≠ word i) {j : Nat} (hj : j < 64) (hnext : ¬ (35 < shift i ∧ k.val = (word i).val + 1)) :
    spread a out i k = out k ∧ puts a k j i = false := by
  obtain ⟨hposition, hshift⟩ := position i
  have hword : k.val ≠ (word i).val := fun h => hk (Fin.ext h)
  constructor
  · unfold spread
    dsimp only
    split
    · rename_i hspans
      have hne : k ≠ ⟨(word i).val + 1, hspans.2⟩ := by
        intro h
        exact hnext ⟨hspans.1, congrArg Fin.val h⟩
      rw [Function.update_of_ne hne, Function.update_of_ne hk]
    · rw [Function.update_of_ne hk]
  · unfold puts
    by_cases hle : 29 * i.val ≤ 64 * k + j
    · rw [getLsbD_of_reduced (ha i) (by omega), Bool.and_false]
    · rw [decide_eq_false hle, Bool.false_and]

theorem spread_getLsbD {a : Limbs} (ha : Reduced 29 a) (out : U64x4) (i : Fin 9) (k : Fin 4)
    {j : Nat} (hj : j < 64) :
    (spread a out i k).getLsbD j = ((out k).getLsbD j || puts a k j i) := by
  obtain ⟨hposition, hshift⟩ := position i
  by_cases hk : k = word i
  · subst hk
    have hword : spread a out i (word i) = out (word i) ||| (a i).setWidth 64 <<< shift i := by
      unfold spread
      dsimp only
      split
      · rename_i hspans
        have hne : word i ≠ ⟨(word i).val + 1, hspans.2⟩ := by
          intro h
          have hval := congrArg Fin.val h
          dsimp only at hval
          omega
        rw [Function.update_of_ne hne, Function.update_self]
      · rw [Function.update_self]
    rw [hword, BitVec.getLsbD_or, BitVec.getLsbD_shiftLeft, decide_eq_true hj, Bool.true_and]
    congr 1
    unfold puts
    by_cases hle : shift i ≤ j
    · have hindex : 64 * (word i).val + j - 29 * i.val = j - shift i := by omega
      rw [decide_eq_false (by omega), decide_eq_true (by omega), hindex, BitVec.getLsbD_setWidth,
        decide_eq_true (by omega)]
      rfl
    · rw [decide_eq_true (by omega), decide_eq_false (by omega)]
      rfl
  · by_cases hnext : 35 < shift i ∧ k.val = (word i).val + 1
    · obtain ⟨hspans, hval⟩ := hnext
      have hlt : (word i).val + 1 < 4 := hval ▸ k.isLt
      have hfin : k = ⟨(word i).val + 1, hlt⟩ := Fin.ext hval
      have hword : spread a out i k = out k ||| (a i).setWidth 64 >>> (64 - shift i) := by
        unfold spread
        dsimp only
        rw [dif_pos ⟨hspans, hlt⟩, ← hfin, Function.update_self, Function.update_of_ne hk]
      have hindex : 64 * k.val + j - 29 * i.val = 64 - shift i + j := by omega
      rw [hword, BitVec.getLsbD_or, BitVec.getLsbD_ushiftRight, puts, decide_eq_true (by omega),
        hindex, BitVec.getLsbD_setWidth]
      congr 1
      by_cases hreach : 64 - shift i + j < 64
      · rw [decide_eq_true hreach]
      · rw [getLsbD_of_reduced (ha i) (by omega), Bool.and_false, Bool.and_false]
    · obtain ⟨hsame, hputs⟩ := spread_low ha out i hk hj hnext
      rw [hsame, hputs, Bool.or_false]

theorem foldl_spread_getLsbD {a : Limbs} (ha : Reduced 29 a) (limbs : List (Fin 9)) (out : U64x4)
    (k : Fin 4) {j : Nat} (hj : j < 64) :
    (limbs.foldl (spread a) out k).getLsbD j = ((out k).getLsbD j || limbs.any (puts a k j)) := by
  induction limbs generalizing out with
  | nil => rw [List.foldl_nil, List.any_nil, Bool.or_false]
  | cons i limbs ih =>
    rw [List.foldl_cons, ih, spread_getLsbD ha out i k hj, List.any_cons, Bool.or_assoc]

/-- A bit of the number comes from one limb. -/
theorem any_puts {a : Limbs} (ha : Reduced 29 a) (k : Fin 4) {j : Nat} (hj : j < 64) :
    (List.finRange 9).any (puts a k j) = (value 29 a).testBit (64 * k + j) := by
  have hlimb : (64 * k.val + j) / 29 < 9 := by omega
  rw [testBit_value (by omega) ha, dif_pos hlimb]
  have hputs : puts a k j ⟨(64 * k.val + j) / 29, hlimb⟩ =
      (a ⟨(64 * k.val + j) / 29, hlimb⟩).getLsbD ((64 * k.val + j) % 29) := by
    have hindex : 64 * k.val + j - 29 * ((64 * k.val + j) / 29) = (64 * k.val + j) % 29 := by omega
    unfold puts
    dsimp only
    rw [decide_eq_true (by omega), Bool.true_and, hindex]
  rw [← hputs, Bool.eq_iff_iff, List.any_eq_true]
  constructor
  · rintro ⟨i, _, hi⟩
    have hwithin := hi
    unfold puts at hwithin
    rw [Bool.and_eq_true, decide_eq_true_iff] at hwithin
    have hlt : 64 * k.val + j - 29 * i.val < 29 := by
      by_contra hge
      rw [getLsbD_of_reduced (ha i) (Nat.not_lt.mp hge)] at hwithin
      cases hwithin.2
    have hindex : i = ⟨(64 * k.val + j) / 29, hlimb⟩ := Fin.ext (by dsimp only; omega)
    rwa [← hindex]
  · intro h
    exact ⟨_, List.mem_finRange _, h⟩

theorem toU64x4_eq {a : Limbs} (ha : Reduced 29 a) : toU64x4 a = ofNat 64 64 4 (value 29 a) := by
  funext k
  apply BitVec.eq_of_getLsbD_eq
  intro j hj
  have hzero : (0 : BitVec 64).getLsbD j = false := BitVec.getLsbD_zero
  rw [ofNat_getLsbD (Nat.le_refl 64), toU64x4, foldl_spread_getLsbD ha _ _ k hj, any_puts ha k hj,
    decide_eq_true hj, Bool.true_and, hzero, Bool.false_or]

/-! ## Inverses -/

theorem value_fromU64x4 (l : U64x4) : value 29 (fromU64x4 l) = value 64 l := by
  have hlt := value_lt (Radix.Reduced.full l)
  rw [fromU64x4_eq, value_ofNat (by omega), Nat.mod_eq_of_lt (by omega)]

theorem fromU64x4_reduced (l : U64x4) : Reduced 29 (fromU64x4 l) := by
  rw [fromU64x4_eq]
  exact Radix.ofNat_reduced (by omega) _

theorem value_toU64x4 {a : Limbs} (ha : Reduced 29 a) (hlt : value 29 a < 2 ^ 256) :
    value 64 (toU64x4 a) = value 29 a := by
  rw [toU64x4_eq ha, value_ofNat (Nat.le_refl 64), Nat.mod_eq_of_lt (by omega)]

theorem toU64x4_fromU64x4 (l : U64x4) : toU64x4 (fromU64x4 l) = l := by
  rw [toU64x4_eq (fromU64x4_reduced l), value_fromU64x4]
  exact ofNat_value (Nat.le_refl 64) (Radix.Reduced.full l)

theorem fromU64x4_toU64x4 {a : Limbs} (ha : Reduced 29 a) (hlt : value 29 a < 2 ^ 256) :
    fromU64x4 (toU64x4 a) = a := by
  rw [fromU64x4_eq, value_toU64x4 ha hlt]
  exact ofNat_value (by omega) ha

/-! ## The elements of arkworks -/

section Ark

variable {m : Modulus}

theorem value_arkMontLimbs (x : ZMod m.p) : value 64 (arkMontLimbs x) = (x * 2 ^ 256).val := by
  have hlt := ZMod.val_lt (x * 2 ^ 256)
  have hp := m.lt_pow
  unfold arkMontLimbs
  rw [radix_cast, value_ofNat (Nat.le_refl 64), Nat.mod_eq_of_lt (by omega)]

theorem arkFromMontLimbs_eq {l : U64x4} (hlt : value 64 l < m.p) :
    arkFromMontLimbs l = some ((value 64 l : ZMod m.p) * (2 ^ 256)⁻¹) := by
  rw [arkFromMontLimbs, if_pos hlt, radix_cast]

theorem rawToArk_eq (a : WeaklyReduced m) :
    rawToArk a.limbs = some ((value 29 a.limbs : ZMod m.p) * (2 ^ 256)⁻¹) := by
  obtain ⟨r, hr, hreduced, hlt, hfield⟩ := canonical_spec a
  have hp := m.lt_pow
  have hvalue : value 64 (toU64x4 r) = value 29 r := value_toU64x4 hreduced (by omega)
  have hsame : (value 29 r : ZMod m.p) = value 29 a.limbs :=
    (ZMod.natCast_eq_natCast_iff _ _ _).mpr (toField_eq_iff.mp hfield)
  unfold rawToArk
  change canonical m a.limbs >>= _ = _
  rw [hr, Option.bind_eq_bind, Option.bind_some, arkFromMontLimbs_eq (by omega), hvalue, hsame]

theorem value_rawFromArk (x : ZMod m.p) : value 29 (rawFromArk x) = (x * 2 ^ 256).val := by
  unfold rawFromArk
  rw [value_fromU64x4, value_arkMontLimbs]

/-- The limbs of an element of arkworks, which are below the modulus. -/
def WeaklyReduced.ofArk (x : ZMod m.p) : WeaklyReduced m where
  limbs := rawFromArk x
  reduced := fromU64x4_reduced _
  lt := by
    have hlt := ZMod.val_lt (x * 2 ^ 256)
    rw [value_rawFromArk]
    omega

theorem rawToArk_rawFromArk (x : ZMod m.p) : rawToArk (rawFromArk x) = some x := by
  have hark := rawToArk_eq (WeaklyReduced.ofArk x)
  have hvalue : value 29 (WeaklyReduced.ofArk x).limbs = (x * 2 ^ 256).val := value_rawFromArk x
  rw [hvalue, ZMod.natCast_zmod_val, mul_inv_cancel_right₀ (radix_ne_zero m 256)] at hark
  exact hark

end Ark

end Curvy.Prover.U29x9
