import Curvy.Core.Blake512Exact
import Curvy.Core.BaseMul
import Curvy.Core.Eddsa
import Curvy.Core.NonceReduction

/-!
# The keys behind signatures

Shifting the pruned buffer byte by byte divides its integer by eight, and the pruning made that
division exact. Every multiple of the base point is a point of the subgroup, so no assertion
about a key fails.
-/

namespace Curvy.Eddsa

set_option autoImplicit false

open Witness (Fr)
open BabyJubjub
open SecretArithmetic (baseMul baseMul_eq order order_eq validSecret)
open Blake512 (blake512 blake512_total)

/-! ## The shifted buffer -/

/-- The low bits of each byte move into the byte before. -/
def shifted : List UInt8 → List UInt8
  | [] => []
  | [b] => [b >>> 3]
  | b :: c :: rest => (b >>> 3 ||| c <<< 5) :: shifted (c :: rest)

theorem shifted_length (bytes : List UInt8) : (shifted bytes).length = bytes.length := by
  induction bytes with
  | nil => rfl
  | cons b rest ih =>
    cases rest with
    | nil => rfl
    | cons c rest => rw [shifted, List.length_cons, ih, List.length_cons (a := b)]

theorem shifted_drop (n : Nat) (bytes : List UInt8) :
    (shifted bytes).drop n = shifted (bytes.drop n) := by
  induction n generalizing bytes with
  | zero => rfl
  | succ n ih =>
    cases bytes with
    | nil => rfl
    | cons b rest =>
      cases rest with
      | nil => rw [shifted, List.drop_succ_cons, List.drop_succ_cons, List.drop_nil, shifted]
      | cons c rest => rw [shifted, List.drop_succ_cons, ih, List.drop_succ_cons]

theorem join_toNat (b c : UInt8) :
    (b >>> 3 ||| c <<< 5).toNat = b.toNat / 8 + 32 * (c.toNat % 8) := by
  have hb := b.toNat_lt
  have hlow : b.toNat / 8 < 2 ^ 5 := by omega
  have hleft : (b >>> 3).toNat = b.toNat / 8 := by
    rw [UInt8.toNat_shiftRight, Nat.shiftRight_eq_div_pow]
    rfl
  have hright : (c <<< 5).toNat = 2 ^ 5 * (c.toNat % 8) := by
    have hfive : UInt8.toNat 5 % 8 = 5 := rfl
    rw [UInt8.toNat_shiftLeft, hfive, Nat.shiftLeft_eq]
    omega
  rw [UInt8.toNat_or, hleft, hright, Nat.or_comm, ← Nat.two_pow_add_eq_or_of_lt hlow, Nat.add_comm]

theorem leNat_shifted (bytes : List UInt8) : leNat (shifted bytes) = leNat bytes / 8 := by
  induction bytes with
  | nil => rfl
  | cons b rest ih =>
    cases rest with
    | nil =>
      rw [shifted, leNat, leNat, leNat, leNat, UInt8.toNat_shiftRight, Nat.shiftRight_eq_div_pow]
      rfl
    | cons c rest =>
      rw [shifted, leNat, ih, join_toNat]
      simp only [leNat]
      omega

/-- After `n` rounds the first `n` bytes are done and the others untouched. -/
theorem foldl_shiftStep (bytes : List UInt8) {n : Nat} (hn : n < bytes.length) :
    (List.range n).foldl shiftStep bytes = (shifted bytes).take n ++ bytes.drop n := by
  induction n with
  | zero => rfl
  | succ n ih =>
    rw [List.range_succ, List.foldl_append, ih (Nat.lt_of_succ_lt hn)]
    obtain ⟨b, c, rest, hdrop⟩ : ∃ b c rest, bytes.drop n = b :: c :: rest := by
      cases hdrop : bytes.drop n with
      | nil =>
        have hlength := congrArg List.length hdrop
        rw [List.length_drop, List.length_nil] at hlength
        omega
      | cons b tail =>
        cases tail with
        | nil =>
          have hlength := congrArg List.length hdrop
          rw [List.length_drop, List.length_singleton] at hlength
          omega
        | cons c rest => exact ⟨b, c, rest, rfl⟩
    have hshifted : (shifted bytes).drop n = (b >>> 3 ||| c <<< 5) :: shifted (c :: rest) := by
      rw [shifted_drop, hdrop, shifted]
    have htail : bytes.drop (n + 1) = c :: rest := by rw [← List.tail_drop, hdrop, List.tail_cons]
    have hlength : ((shifted bytes).take n).length = n := by
      rw [List.length_take, shifted_length]
      omega
    have hnext : (shifted bytes).take (n + 1) =
        (shifted bytes).take n ++ [b >>> 3 ||| c <<< 5] := by
      rw [List.take_add, hshifted]
      rfl
    have hfirst : ((shifted bytes).take n ++ b :: c :: rest).getD n 0 = b := by
      rw [List.getD_append_right _ _ _ _ (Nat.le_of_eq hlength), hlength, Nat.sub_self]
      rfl
    have hsecond : ((shifted bytes).take n ++ b :: c :: rest).getD (n + 1) 0 = c := by
      rw [List.getD_append_right _ _ _ _ (by omega), hlength, Nat.add_sub_cancel_left]
      rfl
    rw [List.foldl_cons, List.foldl_nil, shiftStep, hdrop, hfirst, hsecond,
      List.set_append_right _ _ (Nat.le_of_eq hlength), hlength, Nat.sub_self, hnext, htail,
      List.append_assoc]
    rfl

theorem modify_last (bytes : List UInt8) (last : UInt8) (f : UInt8 → UInt8) :
    (bytes ++ [last]).modify bytes.length f = bytes ++ [f last] :=
  List.modifyTailIdx_add (List.modifyHead f) 0 bytes [last]

theorem publicScalar_eq {pruned : List UInt8} (hlength : pruned.length = 32) :
    publicScalar pruned = shifted pruned := by
  have htake : ((shifted pruned).take 31).length = 31 := by
    rw [List.length_take, shifted_length, hlength]
    rfl
  obtain ⟨b, hdrop⟩ : ∃ b, pruned.drop 31 = [b] := by
    apply List.length_eq_one_iff.mp
    rw [List.length_drop, hlength]
  have hlast : (shifted pruned).drop 31 = [b >>> 3] := by rw [shifted_drop, hdrop, shifted]
  have hmodify := modify_last ((shifted pruned).take 31) b (· >>> 3)
  rw [htake] at hmodify
  rw [publicScalar, foldl_shiftStep pruned (by omega), hdrop, hmodify, ← hlast,
    List.take_append_drop]

/-! ## Pruning -/

theorem pruneBuffer_length (b : List UInt8) : (pruneBuffer b).length = b.length := by
  simp only [pruneBuffer, List.length_modify]

theorem pruneBuffer_eq (first last : UInt8) {middle : List UInt8} (hlength : middle.length = 30) :
    pruneBuffer (first :: middle ++ [last]) =
      (first &&& 0xf8) :: middle ++ [(last &&& 0x7f) ||| 0x40] := by
  have hfront : ((first &&& 0xf8) :: middle).length = 31 := by rw [List.length_cons, hlength]
  have hhigh := modify_last ((first &&& 0xf8) :: middle) last (· &&& 0x7f)
  have hset := modify_last ((first &&& 0xf8) :: middle) (last &&& 0x7f) (· ||| 0x40)
  rw [hfront] at hhigh hset
  rw [pruneBuffer, List.cons_append, List.modify_zero_cons, ← List.cons_append, hhigh, hset]

/-- The low three bits are cleared and the last but one is the highest that is set. -/
theorem pruneBuffer_bounds {b : List UInt8} (hlength : b.length = 32) :
    8 ∣ leNat (pruneBuffer b) ∧ 2 ^ 254 ≤ leNat (pruneBuffer b) ∧
      leNat (pruneBuffer b) < 2 ^ 255 := by
  obtain ⟨first, rest, rfl⟩ := List.exists_cons_of_length_eq_add_one hlength
  rw [List.length_cons] at hlength
  have hne : rest ≠ [] := List.ne_nil_of_length_pos (by omega)
  obtain ⟨middle, last, rfl⟩ : ∃ middle last, rest = middle ++ [last] :=
    ⟨rest.dropLast, rest.getLast hne, (List.dropLast_append_getLast hne).symm⟩
  rw [List.length_append, List.length_singleton] at hlength
  have hmiddle : middle.length = 30 := by omega
  have hlow : (first &&& 0xf8).toNat % 8 = 0 := by
    have hand := @Nat.and_mod_two_pow first.toNat 0xf8 3
    rwa [show 0xf8 % 2 ^ 3 = 0 by rfl, Nat.and_zero] at hand
  have hlast : 64 ≤ ((last &&& 0x7f) ||| 0x40).toNat ∧ ((last &&& 0x7f) ||| 0x40).toNat < 128 := by
    have hseven : (last &&& 0x7f).toNat < 2 ^ 7 := Nat.and_lt_two_pow _ (by decide)
    rw [UInt8.toNat_or]
    exact ⟨Nat.right_le_or, Nat.or_lt_two_pow hseven (by decide)⟩
  have hbelow := leNat_lt middle
  rw [← List.cons_append, pruneBuffer_eq first last hmiddle, List.cons_append, leNat, leNat_append,
    hmiddle, leNat, leNat, Nat.mul_zero, Nat.add_zero]
  rw [hmiddle] at hbelow
  have hradix : 2 ^ 254 = 64 * (256 * 256 ^ 30) := by decide
  have hradix' : 2 ^ 255 = 128 * (256 * 256 ^ 30) := by decide
  have hpos : 0 < 256 ^ 30 := by decide
  have hfirst := (first &&& 0xf8).toNat_lt
  rw [hradix, hradix']
  generalize 256 ^ 30 = radix at hbelow hpos ⊢
  generalize ((last &&& 0x7f) ||| 0x40).toNat = high at hlast ⊢
  obtain ⟨hge, hlt⟩ := hlast
  refine ⟨by omega, ?_, ?_⟩
  · have hmul := Nat.mul_le_mul_left radix hge
    omega
  · have hmul := Nat.mul_le_mul_left radix (Nat.le_of_lt_succ hlt)
    omega

/-! ## The key of a seed -/

theorem publicScalar_length {pruned : List UInt8} (hlength : pruned.length = 32) :
    (publicScalar pruned).length = 32 := by
  rw [publicScalar_eq hlength, shifted_length, hlength]

theorem leNat_publicScalar {pruned : List UInt8} (hlength : pruned.length = 32) :
    leNat (publicScalar pruned) = leNat pruned / 8 := by
  rw [publicScalar_eq hlength, leNat_shifted]

theorem prunedScalarBuffer_eq {seed hash : List UInt8} (hhash : blake512 seed = some hash) :
    prunedScalarBuffer seed = some (pruneBuffer (hash.take 32)) := by
  rw [prunedScalarBuffer, hhash, Option.map_some]

theorem prunedScalarBuffer_spec (seed : List UInt8) :
    ∃ pruned, prunedScalarBuffer seed = some pruned ∧ pruned.length = 32 ∧ 8 ∣ leNat pruned ∧
      2 ^ 254 ≤ leNat pruned ∧ leNat pruned < 2 ^ 255 := by
  obtain ⟨hash, hhash, hlength⟩ := blake512_total seed
  have htake : (hash.take 32).length = 32 := by
    rw [List.length_take, hlength]
    rfl
  exact ⟨_, prunedScalarBuffer_eq hhash, by rw [pruneBuffer_length, htake],
    pruneBuffer_bounds htake⟩

/-- The key is the shifted scalar times the base point, reduced or not. -/
theorem derivePublicKey_eq {seed pruned : List UInt8} (hpruned : prunedScalarBuffer seed = some pruned)
    (hlength : pruned.length = 32) :
    derivePublicKey seed = some (coordinates ((leNat pruned / 8) • basePoint)) := by
  rw [derivePublicKey, hpruned, Option.bind_some, baseMul_eq (publicScalar_length hlength),
    leNat_publicScalar hlength]

theorem deriveSecretScalar_eq {seed pruned : List UInt8}
    (hpruned : prunedScalarBuffer seed = some pruned) :
    deriveSecretScalar seed = some (leNat pruned / 8 % subOrder) := by
  rw [deriveSecretScalar, hpruned, Option.map_some, Nat.shiftRight_eq_div_pow]

/-! ## Multiples of the base point -/

theorem mod_subOrder_smul (n : Nat) : (n % subOrder) • basePoint = n • basePoint := by
  rw [← addOrderOf_basePoint, mod_addOrderOf_nsmul]

theorem isInSubgroup_multiple (n : Nat) :
    isInSubgroup (coordinates (n • basePoint)) = some true := by
  have hcurve : isOnCurve (coordinates (n • basePoint)) = true := isOnCurve_iff.mpr ⟨_, rfl⟩
  have hzero : coordinates (subOrder • n • basePoint) = identity := by
    rw [smul_comm, subOrder_smul, nsmul_zero]
    rfl
  rw [isInSubgroup, if_pos hcurve, mulPointEscalar_coordinates, hzero]
  rfl

theorem coordinates_eq_identity (n : Nat) :
    coordinates (n • basePoint) = identity ↔ subOrder ∣ n := by
  rw [← addOrderOf_basePoint, addOrderOf_dvd_iff_nsmul_eq_zero]
  exact ⟨fun h => coordinates_injective h, fun h => by rw [h]; rfl⟩

/-- A checked point that is a multiple of the base point. -/
def multiple (n : Nat) : BabyJubPoint where
  x := (n • basePoint).x
  y := (n • basePoint).y
  checked := isInSubgroup_multiple n

theorem multiple_isIdentity (n : Nat) : (multiple n).isIdentity = decide (subOrder ∣ n) :=
  decide_eq_decide.mpr (coordinates_eq_identity n)

theorem tryFromXY_multiple (n : Nat) : BabyJubPoint.tryFromXY (coordinates (n • basePoint)).1
    (coordinates (n • basePoint)).2 = .ok (multiple n) := by
  have hcurve : isOnCurve (coordinates (n • basePoint)) = true := isOnCurve_iff.mpr ⟨_, rfl⟩
  have hsub := isInSubgroup_multiple n
  unfold BabyJubPoint.tryFromXY
  rw [if_pos hcurve]
  split
  · rename_i hnone
    exact absurd (hnone.symm.trans hsub) (by decide)
  · rename_i hfalse
    exact absurd (hfalse.symm.trans hsub) (by decide)
  · rfl

/-! ## Secret scalars -/

theorem secret_bounds (secret : BabyJubSecretScalar) :
    0 < leNat secret.toLe32 ∧ leNat secret.toLe32 < subOrder := by
  have hvalid := secret.valid
  simp only [validSecret, Bool.and_eq_true, decide_eq_true_eq, Bool.not_eq_true',
    decide_eq_false_iff_not] at hvalid
  rw [← order_eq]
  exact ⟨Nat.pos_of_ne_zero hvalid.2, hvalid.1⟩

theorem secret_not_dvd (secret : BabyJubSecretScalar) : ¬ subOrder ∣ leNat secret.toLe32 := by
  obtain ⟨hpos, hlt⟩ := secret_bounds secret
  exact Nat.not_dvd_of_pos_of_lt hpos hlt

/-- No assertion about the point of a secret scalar fails. -/
theorem publicKeyFromScalar_eq (secret : BabyJubSecretScalar) :
    publicKeyFromScalar secret = some (multiple (leNat secret.toLe32)) := by
  have hidentity : ¬ coordinates (leNat secret.toLe32 • basePoint) = identity := by
    rw [coordinates_eq_identity]
    exact secret_not_dvd secret
  rw [publicKeyFromScalar, baseMul_eq secret.length, Option.bind_some,
    BabyJubPoint.fromSubgroupNonIdentityUnchecked, dif_pos (isInSubgroup_multiple _),
    if_neg hidentity]
  rfl

end Curvy.Eddsa
