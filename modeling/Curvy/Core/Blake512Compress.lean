import Curvy.Core.Blake512
import Mathlib.Tactic.IntervalCases

/-!
# The compression of BLAKE-512

The in-place rounds of the code compute the rounds of the specification, under the counter that
the limbs spell.
-/

namespace Curvy

set_option autoImplicit false

namespace Blake512

theorem sigma_eq {r : Nat} (hr : r < 16) : sigma.getD r [] = Blake.sigma.getD (r % 10) [] := by
  have hall : ∀ r : Fin 16, sigma.getD r [] = Blake.sigma.getD (r.val % 10) [] := by decide
  exact hall ⟨r, hr⟩

theorem get_set_self (v : Vector UInt64 16) (k : Fin 16) (x : UInt64) : (v.set k x).get k = x :=
  Vector.getElem_set_self k.isLt

theorem get_set_ne (v : Vector UInt64 16) {j k : Fin 16} (x : UInt64) (h : j ≠ k) :
    (v.set k x).get j = v.get j :=
  Vector.getElem_set_ne k.isLt j.isLt fun heq => h (Fin.ext heq.symm)

theorem word_permutation {r : Nat} (hr : r < 16) (k : Nat) :
    word ((sigma.getD r []).getD k 0) = Blake.permutation r k := by
  rw [sigma_eq hr]
  rfl

theorem get_set (v : Vector UInt64 16) (j k : Fin 16) (x : UInt64) :
    (v.set k x).get j = if j = k then x else v.get j := by
  split
  · rename_i h
    rw [h, get_set_self]
  · exact get_set_ne v x (by assumption)

theorem set_twice (v : Vector UInt64 16) {a b c d : Fin 16} (w x y z w' x' y' z' : UInt64)
    (hbc : b ≠ c) (hbd : b ≠ d) (hcd : c ≠ d) :
    (((((((v.set a w).set d z).set c y).set b x).set a w').set d z').set c y').set b x' =
      (((v.set a w').set b x').set c y').set d z' := by
  have h : ∀ j, ((((((((v.set a w).set d z).set c y).set b x).set a w').set d z').set c y').set b
      x').get j = ((((v.set a w').set b x').set c y').set d z').get j := by
    intro j
    simp only [get_set]
    grind
  exact Vector.ext fun j hj => h ⟨j, hj⟩

theorem g_eq {r : Nat} (hr : r < 16) (m : Vector UInt64 16) (i a b c d : Nat)
    (v : Vector UInt64 16) (hab : word a ≠ word b) (hac : word a ≠ word c) (had : word a ≠ word d)
    (hbc : word b ≠ word c) (hbd : word b ≠ word d) (hcd : word c ≠ word d) :
    g m r a b c d (2 * i) v = Blake.mix m r i a b c d v := by
  unfold g Blake.mix
  rw [word_permutation hr, word_permutation hr]
  have hslot : ∀ n, Blake.slot n = word n := fun n => rfl
  simp only [hslot, get_set_self, get_set_ne, Blake.Quarter.half, ne_eq, hab, hac, had, hbc, hbd,
    hcd, Ne.symm hab, Ne.symm hac, Ne.symm had, Ne.symm hbc, Ne.symm hbd, Ne.symm hcd, not_false_eq_true]
  exact set_twice v _ _ _ _ _ _ _ _ hbc hbd hcd

theorem round_eq {r : Nat} (hr : r < 16) (m v : Vector UInt64 16) :
    round m v r = Blake.round m v r := by
  have hg : ∀ (i a b c d : Nat) (v : Vector UInt64 16), (word a ≠ word b ∧ word a ≠ word c ∧
      word a ≠ word d ∧ word b ≠ word c ∧ word b ≠ word d ∧ word c ≠ word d) →
      Blake.mix m r i a b c d v = g m r a b c d (2 * i) v :=
    fun i a b c d v h => (g_eq hr m i a b c d v h.1 h.2.1 h.2.2.1 h.2.2.2.1 h.2.2.2.2.1
      h.2.2.2.2.2).symm
  unfold round Blake.round
  dsimp only
  rw [hg 0 0 4 8 12 _ (by decide), hg 1 1 5 9 13 _ (by decide), hg 2 2 6 10 14 _ (by decide),
    hg 3 3 7 11 15 _ (by decide), hg 4 0 5 10 15 _ (by decide), hg 5 1 6 11 12 _ (by decide),
    hg 6 2 7 8 13 _ (by decide), hg 7 3 4 9 14 _ (by decide)]

theorem twelve_lt : 12 < 16 := by omega

theorem thirteen_lt : 13 < 16 := by omega

theorem fourteen_lt : 14 < 16 := by omega

theorem fifteen_lt : 15 < 16 := by omega

/-- The counter on the last four words. -/
def mixIn (v : Vector UInt64 16) (t0 t1 : UInt64) : Vector UInt64 16 :=
  let v := v.set 12 (v.get (word 12) ^^^ t0) twelve_lt
  let v := v.set 13 (v.get (word 13) ^^^ t0) thirteen_lt
  let v := v.set 14 (v.get (word 14) ^^^ t1) fourteen_lt
  v.set 15 (v.get (word 15) ^^^ t1) fifteen_lt

/-- The state before the rounds. -/
def initial (s : Blake512) : Vector UInt64 16 :=
  let v := Vector.ofFn fun i : Fin 16 =>
    if hi : i.val < 8 then s.h.get ⟨i, hi⟩ else c.get (word (i - 8))
  if s.nullt then v else mixIn v s.t0 s.t1

/-- The counter that a compression uses. -/
def Counts (s : Blake512) (t : Nat) : Prop :=
  if s.nullt then t = 0 else s.t0 = UInt64.ofNat t ∧ s.t1 = UInt64.ofNat (t / 2 ^ 64)

theorem mask_eq (t₀ t₁ : UInt64) : (Vector.replicate 4 (0 : UInt64)).toList ++ [t₀, t₀, t₁, t₁] =
    [0, 0, 0, 0, t₀, t₀, t₁, t₁] := rfl

theorem mixIn_get (v : Vector UInt64 16) (t0 t1 : UInt64) {i : Nat} (hi : i < 16) :
    (mixIn v t0 t1)[i] =
      if i < 12 then v[i] else v[i] ^^^ [t0, t0, t1, t1].getD (i - 12) 0 := by
  have hget : ∀ (v : Vector UInt64 16) (k : Nat) (hk : k < 16), v.get (word k) = v[k] := by
    intro v k hk
    have hword : word k = ⟨k, hk⟩ := Fin.ext (Nat.mod_eq_of_lt hk)
    rw [hword]
    rfl
  unfold mixIn
  dsimp only
  rw [hget _ 12 (by decide), hget _ 13 (by decide), hget _ 14 (by decide), hget _ 15 (by decide)]
  simp only [Vector.getElem_set, Nat.reduceEqDiff, if_false]
  by_cases hlow : i < 12
  · rw [if_pos hlow, if_neg (by omega), if_neg (by omega), if_neg (by omega), if_neg (by omega)]
  · interval_cases i <;> rfl

theorem initial_eq {s : Blake512} {t : Nat} (ht : s.Counts t) :
    s.initial = Blake.start s.h (Vector.replicate 4 0) t := by
  unfold initial Blake.start Counts at *
  apply Vector.ext
  intro i hi
  rw [Vector.getElem_ofFn, mask_eq]
  cases hn : s.nullt with
  | true =>
    rw [hn, if_pos rfl] at ht
    rw [if_pos rfl, Vector.getElem_ofFn]
    split
    · rfl
    · subst ht
      interval_cases i <;> exact UInt64.zero_xor.symm
  | false =>
    rw [hn, if_neg Bool.false_ne_true] at ht
    rw [if_neg Bool.false_ne_true, ht.1, ht.2, mixIn_get _ _ _ hi, Vector.getElem_ofFn]
    by_cases h8 : i < 8
    · rw [if_pos (by omega), dif_pos h8, dif_pos h8]
    · rw [dif_neg h8, dif_neg h8]
      by_cases h12 : i < 12
      · rw [if_pos h12]
        interval_cases i <;> first | contradiction | exact UInt64.zero_xor.symm
      · rw [if_neg h12]
        interval_cases i <;> first | contradiction | exact UInt64.xor_comm _ _

theorem compress_h {s : Blake512} {t : Nat} (ht : s.Counts t) :
    s.compress.h = Blake.compress (Vector.replicate 4 0) s.h s.m t := by
  have hrounds : (List.range 16).foldl (round s.m) s.initial =
      (List.range 16).foldl (Blake.round s.m) (Blake.start s.h (Vector.replicate 4 0) t) := by
    rw [initial_eq ht]
    apply List.foldl_ext
    intro v r hr
    exact round_eq (List.mem_range.mp hr) s.m v
  have hcode : s.compress.h = Vector.ofFn fun i => s.h.get i ^^^
      (((List.range 16).foldl (round s.m) s.initial).get ⟨i, by omega⟩ ^^^
        ((List.range 16).foldl (round s.m) s.initial).get ⟨i + 8, by omega⟩) := rfl
  rw [hcode, hrounds]
  unfold Blake.compress
  apply Vector.ext
  intro i hi
  have hsalt : ∀ k, (Vector.replicate 4 (0 : UInt64)).get k = 0 :=
    fun k => Vector.getElem_replicate _
  rw [Vector.getElem_ofFn, Vector.getElem_ofFn, hsalt, UInt64.xor_zero, UInt64.xor_assoc]

end Blake512

end Curvy
