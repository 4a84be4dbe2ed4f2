import Curvy.Prover.SimdFftTables
import Mathlib.RingTheory.RootsOfUnity.PrimitiveRoots

/-!
# The fused transform is exact

A block of vectors holds, behind its stages, the transform of what it held, scaled coefficient by
coefficient and transformed back. The induction is on the size of the block.
-/

namespace Curvy.Prover.SimdFft

set_option autoImplicit false

open List (tabulate)
open BitReversal (reversed)
open FusedTransform (transform fused)

variable {F : Type} [Field F]

theorem splat_mul (a b : F) : splat (a * b) = splat a * splat b := rfl

theorem splat_one : splat (1 : F) = 1 := rfl

theorem splat_neg_one : splat (-1 : F) = -1 := rfl

theorem splat_pow (a : F) (n : ℕ) : splat (a ^ n) = splat a ^ n := by
  induction n with
  | zero => rw [pow_zero, pow_zero, splat_one]
  | succ n ih => rw [pow_succ, pow_succ, splat_mul, ih]

/-- What a step keeps of its domain. -/
structure Powers (step : Step F) (N : ℕ) (omega omegaInv : F) : Prop where
  size : step.n = 2 ^ N
  fwd : step.fwd = tabulate (step.n / 2) fun i => omega ^ i
  inv : step.inv = tabulate (step.n / 2) fun i => omegaInv ^ i

/-- The root of a block of `2 ^ k` vectors. -/
def root (N : ℕ) (omega : F) (k : ℕ) : V F := splat (omega ^ 2 ^ (N - k))

section Roots

variable {N : ℕ} {omega : F}

theorem root_sq {k : ℕ} (hk : k + 1 ≤ N) : root N omega (k + 1) ^ 2 = root N omega k := by
  rw [root, ← splat_pow, ← pow_mul, ← pow_succ, root]
  congr 3
  omega

theorem root_half {k : ℕ} (hk : k + 1 ≤ N) (hhalf : omega ^ 2 ^ (N - 1) = -1) :
    root N omega (k + 1) ^ 2 ^ k = -1 := by
  rw [root, ← splat_pow, ← pow_mul, ← pow_add, show N - (k + 1) + k = N - 1 by omega, hhalf,
    splat_neg_one]

/-- A table entry is a power of the root of the block. -/
theorem twiddle_pow {tw : List F} (htw : tw = tabulate (2 ^ N / 2) fun i => omega ^ i) {k j : ℕ}
    (hk : k + 1 ≤ N) (hj : j < 2 ^ k) (hne : j ≠ 0) :
    twiddle tw (2 ^ N / (2 * 2 ^ k)) j = some (omega ^ (2 ^ (N - (k + 1)) * j)) := by
  have hstride : 2 ^ N / (2 * 2 ^ k) = 2 ^ (N - (k + 1)) := by
    rw [← pow_succ', Nat.pow_div hk Nat.two_pos]
  have hhalf : 2 ^ N / 2 = 2 ^ k * 2 ^ (N - (k + 1)) := by
    have hdiv := Nat.pow_div (show 1 ≤ N by omega) Nat.two_pos
    rw [pow_one] at hdiv
    rw [← pow_add, show k + (N - (k + 1)) = N - 1 by omega, hdiv]
  have hread : j * 2 ^ (N - (k + 1)) < 2 ^ N / 2 := by
    rw [hhalf]
    exact Nat.mul_lt_mul_of_pos_right hj (Nat.two_pow_pos _)
  rw [twiddle, if_pos hne, hstride, htw, List.getD_tabulate _ hread, Nat.mul_comm]

end Roots

section Blocks

variable {step : Step F} {N : ℕ} {omega omegaInv : F} (h : Powers step N omega omegaInv)

include h

theorem dif_twiddle {k j : ℕ} (hk : k + 1 ≤ N) (hj : j < 2 ^ k) (x y : V F) :
    dif (twiddle step.inv (step.n / (2 * 2 ^ k)) j) x y =
      (x + y, (x - y) * root N omegaInv (k + 1) ^ j) := by
  by_cases hne : j = 0
  · rw [hne, pow_zero, mul_one]
    rfl
  · have hinv := h.inv
    rw [h.size] at hinv
    rw [h.size, twiddle_pow hinv hk hj hne, root, ← splat_pow, ← pow_mul]
    rfl

theorem dit_twiddle {k j : ℕ} (hk : k + 1 ≤ N) (hj : j < 2 ^ k) (x y : V F) :
    dit (twiddle step.fwd (step.n / (2 * 2 ^ k)) j) x y =
      (x + root N omega (k + 1) ^ j * y, x - root N omega (k + 1) ^ j * y) := by
  rw [mul_comm _ y]
  by_cases hne : j = 0
  · rw [hne, pow_zero, mul_one]
    rfl
  · have hfwd := h.fwd
    rw [h.size] at hfwd
    rw [h.size, twiddle_pow hfwd hk hj hne, root, ← splat_pow, ← pow_mul]
    rfl

/-- The way in, over the halves of a block. -/
theorem difPass_eq {k : ℕ} (hk : k + 1 ≤ N) (x y : ℕ → V F) :
    butterflies (fun j => dif (twiddle step.inv (step.n / (2 * 2 ^ k)) j)) 0
        (tabulate (2 ^ k) x) (tabulate (2 ^ k) y) =
      (tabulate (2 ^ k) fun t => x t + y t,
        tabulate (2 ^ k) fun t => (x t - y t) * root N omegaInv (k + 1) ^ t) := by
  rw [butterflies_tabulate]
  refine Prod.ext ?_ ?_
  · apply List.tabulate_congr
    intro i hi
    rw [Nat.zero_add, dif_twiddle h hk hi]
  · apply List.tabulate_congr
    intro i hi
    rw [Nat.zero_add, dif_twiddle h hk hi]

/-- The way out. -/
theorem ditPass_eq {k : ℕ} (hk : k + 1 ≤ N) (x y : ℕ → V F) :
    butterflies (fun j => dit (twiddle step.fwd (step.n / (2 * 2 ^ k)) j)) 0
        (tabulate (2 ^ k) x) (tabulate (2 ^ k) y) =
      (tabulate (2 ^ k) fun j => x j + root N omega (k + 1) ^ j * y j,
        tabulate (2 ^ k) fun j => x j - root N omega (k + 1) ^ j * y j) := by
  rw [butterflies_tabulate]
  refine Prod.ext ?_ ?_
  · apply List.tabulate_congr
    intro i hi
    rw [Nat.zero_add, dit_twiddle h hk hi]
  · apply List.tabulate_congr
    intro i hi
    rw [Nat.zero_add, dit_twiddle h hk hi]

theorem difStage_block {k : ℕ} (hk : k + 1 ≤ N) (x : ℕ → V F) :
    difStage step (2 ^ k) (tabulate (2 ^ (k + 1)) x) =
      (tabulate (2 ^ k) fun t => x t + x (t + 2 ^ k)) ++
        tabulate (2 ^ k) fun t => (x t - x (t + 2 ^ k)) * root N omegaInv (k + 1) ^ t := by
  have hsize : 2 * 2 ^ k ≠ 0 := by
    have := Nat.two_pow_pos k
    omega
  have hlength : (tabulate (2 ^ (k + 1)) x).length = 2 * 2 ^ k := by
    rw [List.tabulate_length, pow_succ']
  rw [difStage, mapBlocks_single hsize _ hlength, pow_succ', two_mul,
    List.take_tabulate (Nat.le_add_right _ _), List.drop_tabulate, ← two_mul, difPass_eq h hk]
  simp only [Nat.add_comm (2 ^ k)]

theorem ditStage_block {k : ℕ} (hk : k + 1 ≤ N) (x y : ℕ → V F) :
    ditStage step (2 ^ k) (tabulate (2 ^ k) x ++ tabulate (2 ^ k) y) =
      (tabulate (2 ^ k) fun j => x j + root N omega (k + 1) ^ j * y j) ++
        tabulate (2 ^ k) fun j => x j - root N omega (k + 1) ^ j * y j := by
  have hsize : 2 * 2 ^ k ≠ 0 := by
    have := Nat.two_pow_pos k
    omega
  have hlength : (tabulate (2 ^ k) x ++ tabulate (2 ^ k) y).length = 2 * 2 ^ k := by
    rw [List.length_append, List.tabulate_length, List.tabulate_length, two_mul]
  rw [ditStage, mapBlocks_single hsize _ hlength, List.take_left' (List.tabulate_length _ x),
    List.drop_left' (List.tabulate_length _ x), ditPass_eq h hk]

end Blocks

/-- What a block of `2 ^ k` vectors becomes, when the factor of place `p` is `S p`. -/
def walked (N : ℕ) (omega omegaInv : F) (k : ℕ) (S x : ℕ → V F) : ℕ → V F :=
  fused (2 ^ k) (root N omega k) (root N omegaInv k) (fun i => S (reversed k i)) x

/-- A block from its halves. -/
theorem walked_halves {N : ℕ} {omega omegaInv : F} {k : ℕ} (hk : k + 1 ≤ N)
    (homega : omega ^ 2 ^ (N - 1) = -1) (hinv : omegaInv ^ 2 ^ (N - 1) = -1) (S x : ℕ → V F) :
    tabulate (2 ^ (k + 1)) (walked N omega omegaInv (k + 1) S x) =
      (tabulate (2 ^ k) fun j =>
        walked N omega omegaInv k S (fun t => x t + x (t + 2 ^ k)) j +
          root N omega (k + 1) ^ j * walked N omega omegaInv k (fun p => S (2 ^ k + p))
            (fun t => (x t - x (t + 2 ^ k)) * root N omegaInv (k + 1) ^ t) j) ++
      tabulate (2 ^ k) fun j =>
        walked N omega omegaInv k S (fun t => x t + x (t + 2 ^ k)) j -
          root N omega (k + 1) ^ j * walked N omega omegaInv k (fun p => S (2 ^ k + p))
            (fun t => (x t - x (t + 2 ^ k)) * root N omegaInv (k + 1) ^ t) j := by
  have hw := root_half hk homega
  have hv := root_half hk hinv
  have hdouble : 2 ^ (k + 1) = 2 ^ k + 2 ^ k := by rw [pow_succ', two_mul]
  rw [hdouble, List.tabulate_add]
  congr 1
  · apply List.tabulate_congr
    intro j _
    rw [walked, hdouble, ← two_mul, FusedTransform.fused_low hv, root_sq hk, root_sq hk]
    simp only [BitReversal.reversed_even, BitReversal.reversed_odd]
    rfl
  · apply List.tabulate_congr
    intro j _
    rw [walked, hdouble, ← two_mul, Nat.add_comm (2 ^ k) j, FusedTransform.fused_high hw hv,
      root_sq hk, root_sq hk]
    simp only [BitReversal.reversed_even, BitReversal.reversed_odd]
    rfl

theorem zipMut_append {α β : Type} (f : α → β → α) {as : List α} {bs : List β}
    (h : as.length = bs.length) (as' : List α) (bs' : List β) :
    zipMut f (as ++ as') (bs ++ bs') = zipMut f as bs ++ zipMut f as' bs' := by
  induction as generalizing bs with
  | nil =>
    rw [List.length_nil] at h
    rw [List.eq_nil_of_length_eq_zero h.symm]
    rfl
  | cons a as ih =>
    cases bs with
    | nil => cases h
    | cons b bs =>
      rw [List.length_cons, List.length_cons, Nat.add_right_cancel_iff] at h
      rw [List.cons_append, List.cons_append, zipMut, ih h, zipMut, List.cons_append]

theorem length_zipMut {α β : Type} (f : α → β → α) (as : List α) (bs : List β) :
    (zipMut f as bs).length = as.length := by
  induction as generalizing bs with
  | nil => rfl
  | cons a as ih =>
    cases bs with
    | nil => rfl
    | cons b bs => rw [zipMut, List.length_cons, ih, List.length_cons]

theorem length_difStages (step : Step F) (m : ℕ) (xs : List (V F)) :
    (difStages step m xs).length = xs.length := by
  induction m using Nat.strong_induction_on generalizing xs with
  | _ m ih =>
    by_cases hm : m = 0
    · rw [hm, difStages_zero]
    · rw [difStages_step step hm, ih (m / 2) (by omega), length_difStage]

theorem length_ditStages (step : Step F) (len m : ℕ) (xs : List (V F)) :
    (ditStages step len m xs).length = xs.length := by
  induction hgap : len - m using Nat.strong_induction_on generalizing m xs with
  | _ gap ih =>
    rw [ditStages]
    by_cases hm : m = 0 ∨ len ≤ m
    · rw [dif_pos hm]
    · rw [dif_neg hm, ih _ (by omega) (m * 2) _ rfl, length_ditStage]

theorem length_leafBlock (step : Step F) (xs : List (V F)) (k0 : ℕ) :
    (leafBlock step xs k0).length = xs.length := by
  rw [leafBlock, length_ditStages, length_zipMut, length_difStages]

/-- All stages of a leaf block. -/
theorem leafStages_eq {step : Step F} {N : ℕ} {omega omegaInv : F}
    (h : Powers step N omega omegaInv) (homega : omega ^ 2 ^ (N - 1) = -1)
    (hinv : omegaInv ^ 2 ^ (N - 1) = -1) (g : V F) {k : ℕ} (hk : k ≤ N) (S x : ℕ → V F) :
    ditStages step (2 ^ k) 1
        (zipMut (fun v s => v * s * g) (difStages step (2 ^ k / 2) (tabulate (2 ^ k) x))
          (tabulate (2 ^ k) S)) =
      tabulate (2 ^ k) (walked N omega omegaInv k (fun p => S p * g) x) := by
  induction k generalizing S x with
  | zero =>
    rw [show 2 ^ 0 / 2 = 0 from rfl, difStages_zero, pow_zero, ditStages_done step (le_refl 1)]
    rw [show tabulate 1 x = [x 0] from rfl, show tabulate 1 S = [S 0] from rfl]
    rw [show tabulate 1 (walked N omega omegaInv 0 (fun p => S p * g) x) =
      [walked N omega omegaInv 0 (fun p => S p * g) x 0] from rfl]
    have hzip : zipMut (fun v s => v * s * g) [x 0] [S 0] = [x 0 * S 0 * g] := rfl
    rw [hzip, walked, pow_zero, FusedTransform.fused_one, reversed]
    congr 1
    ring
  | succ k ih =>
    have hne : (2 : ℕ) ^ k ≠ 0 := (Nat.two_pow_pos k).ne'
    have hhalf : 2 ^ (k + 1) / 2 = 2 ^ k := by rw [pow_succ, Nat.mul_div_cancel _ Nat.two_pos]
    have hdouble : 2 ^ (k + 1) = 2 ^ k + 2 ^ k := by rw [pow_succ', two_mul]
    have hlow : (tabulate (2 ^ k) fun t => x t + x (t + 2 ^ k)).length = 1 * 2 ^ k := by
      rw [List.tabulate_length, Nat.one_mul]
    have hzip : (difStages step (2 ^ k / 2) (tabulate (2 ^ k) fun t => x t + x (t + 2 ^ k))).length =
        (tabulate (2 ^ k) S).length := by
      rw [length_difStages, List.tabulate_length, List.tabulate_length]
    have hscaled : (zipMut (fun v s => v * s * g)
        (difStages step (2 ^ k / 2) (tabulate (2 ^ k) fun t => x t + x (t + 2 ^ k)))
          (tabulate (2 ^ k) S)).length = 1 * 2 ^ k := by
      rw [length_zipMut, length_difStages, hlow]
    have hlast := ditStages_last step k (i := 0) (Nat.zero_le k)
    have happend := @ditStages_append _ _ step k 0 1 (Nat.zero_le k)
    rw [pow_zero] at hlast happend
    have hS : tabulate (2 ^ (k + 1)) S =
        tabulate (2 ^ k) S ++ tabulate (2 ^ k) fun p => S (2 ^ k + p) := by
      rw [hdouble, List.tabulate_add]
    rw [hhalf, difStages_step step hne, difStage_block h hk, difStages_append step k hlow, hS,
      zipMut_append _ hzip, hlast, happend hscaled, ih (by omega), ih (by omega),
      ditStage_block h hk, walked_halves hk homega hinv]

/-! ### The recursion -/

theorem walked_congr {N : ℕ} {omega omegaInv : F} {k : ℕ} {S T x : ℕ → V F}
    (h : ∀ p, p < 2 ^ k → S p = T p) (j : ℕ) :
    walked N omega omegaInv k S x j = walked N omega omegaInv k T x j :=
  FusedTransform.fused_congr (fun i _ => h _ (BitReversal.reversed_lt k i)) (fun _ _ => rfl) j

/-- The factor of place `p`, as the tables spell it. -/
def factor (step : Step F) (p : ℕ) : V F :=
  step.scaleLeaf.getD (p % step.leaf) 0 * splat (step.scaleBlock.getD (p / step.leaf) 0)

section Recursion

variable {step : Step F} {N : ℕ} {omega omegaInv : F} (h : Powers step N omega omegaInv)
  (homega : omega ^ 2 ^ (N - 1) = -1) (hinv : omegaInv ^ 2 ^ (N - 1) = -1) {l : ℕ}
  (hleaf : step.leaf = 2 ^ l) {T : ℕ → V F} (htable : step.scaleLeaf = tabulate (2 ^ l) T)

include h homega hinv hleaf htable

theorem leafBlock_eq (hl : l ≤ N) (b : ℕ) (x : ℕ → V F) :
    leafBlock step (tabulate (2 ^ l) x) (b * 2 ^ l) =
      tabulate (2 ^ l)
        (walked N omega omegaInv l (fun p => factor step (b * 2 ^ l + p)) x) := by
  have hpos := Nat.two_pow_pos l
  rw [leafBlock, List.tabulate_length, htable, Nat.mul_div_cancel _ hpos,
    leafStages_eq h homega hinv _ hl]
  apply List.tabulate_congr
  intro j _
  apply walked_congr
  intro p hp
  have hdiv : (b * 2 ^ l + p) / 2 ^ l = b := by
    rw [Nat.mul_comm, Nat.mul_add_div hpos, Nat.div_eq_of_lt hp, Nat.add_zero]
  have hmod : (b * 2 ^ l + p) % 2 ^ l = p := by
    rw [Nat.mul_comm, Nat.mul_add_mod, Nat.mod_eq_of_lt hp]
  rw [factor, hleaf, hdiv, hmod, htable, List.getD_tabulate _ hp]

/-- Every block of the recursion, whatever the chunks of its passes. -/
theorem recurse_eq (parallel : Option ℕ) {k : ℕ} (hlk : l ≤ k) (hk : k ≤ N) (b : ℕ)
    (x : ℕ → V F) :
    recurse parallel step (2 ^ k) (tabulate (2 ^ k) x) (b * 2 ^ k) =
      tabulate (2 ^ k)
        (walked N omega omegaInv k (fun p => factor step (b * 2 ^ k + p)) x) := by
  induction k, hlk using Nat.le_induction generalizing b x with
  | base =>
    have hle : 2 ^ l ≤ step.leaf := hleaf.ge
    rw [recurse, dif_pos hle]
    exact leafBlock_eq h homega hinv hleaf htable hk b x
  | succ k hlk ih =>
    have hlarge : ¬ 2 ^ (k + 1) ≤ step.leaf := by
      rw [hleaf, Nat.not_le]
      exact Nat.pow_lt_pow_right (by omega) (by omega)
    have hhalf : 2 ^ (k + 1) / 2 = 2 ^ k := by rw [pow_succ, Nat.mul_div_cancel _ Nat.two_pos]
    have hrest : 2 ^ (k + 1) - 2 ^ k = 2 ^ k := by
      rw [pow_succ]
      omega
    have hdouble : 2 ^ (k + 1) = 2 ^ k + 2 ^ k := by rw [pow_succ', two_mul]
    have hlength : ∀ x y : ℕ → V F, (tabulate (2 ^ k) x).length = (tabulate (2 ^ k) y).length := by
      intro x y
      rw [List.tabulate_length, List.tabulate_length]
    have hlow : b * 2 ^ (k + 1) = 2 * b * 2 ^ k := by
      rw [pow_succ]
      ring
    have hhigh : 2 * b * 2 ^ k + 2 ^ k = (2 * b + 1) * 2 ^ k := by ring
    have hfirst : pass parallel (fun j => dif (twiddle step.inv (step.n / (2 * 2 ^ k)) j))
        ((tabulate (2 ^ (k + 1)) x).take (2 ^ k)) ((tabulate (2 ^ (k + 1)) x).drop (2 ^ k)) =
        (tabulate (2 ^ k) fun t => x t + x (t + 2 ^ k),
          tabulate (2 ^ k) fun t => (x t - x (t + 2 ^ k)) * root N omegaInv (k + 1) ^ t) := by
      rw [hdouble, List.take_tabulate (Nat.le_add_right _ _), List.drop_tabulate,
        pass_eq parallel _ (hlength _ _), difPass_eq h hk]
      simp only [Nat.add_comm (2 ^ k)]
    rw [recurse, dif_neg hlarge]
    simp only [hhalf, hrest, hfirst, hlow, hhigh]
    rw [ih (by omega), ih (by omega), pass_eq parallel _ (hlength _ _), ditPass_eq h hk,
      walked_halves hk homega hinv]
    simp only [← Nat.add_assoc, hhigh]

end Recursion

end Curvy.Prover.SimdFft
