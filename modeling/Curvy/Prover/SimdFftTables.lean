import Curvy.Lib.BitReversal
import Curvy.Lib.FusedTransform
import Curvy.Lib.Loop
import Curvy.Prover.SimdFft

/-!
# Tables and passes of the fused transform

Tables hold powers, whatever the chunks they are filled in. A pass is the same however it is split,
and stages of a leaf block work on its halves apart.
-/

namespace Curvy.Prover.SimdFft

set_option autoImplicit false

open List (tabulate)
open BitReversal (reversed)

variable {F : Type}

/-! ## Tables -/

theorem trailingZeros_pow {e : ℕ} (h : e < usizeBits) : trailingZeros (2 ^ e) = e := by
  have hlength : e < (List.range usizeBits).length := by
    rw [List.length_range]
    exact h
  rw [trailingZeros, List.findIdx_eq hlength]
  constructor
  · rw [List.getElem_range, Nat.testBit_two_pow_self]
  · intro j hj
    rw [List.getElem_range, Nat.testBit_two_pow_of_ne hj.ne']

/-- Reversing a word and shifting it down reverses its low bits. -/
theorem rev_eq (k : ℕ) {bits : ℕ} (hbits : bits ≤ usizeBits) : rev k bits = reversed bits k := by
  by_cases hzero : bits = 0
  · rw [rev, if_pos hzero, hzero, reversed]
  rw [rev, if_neg hzero]
  apply Nat.eq_of_testBit_eq
  intro j
  rw [BitReversal.testBit_reversed, BitVec.testBit_toNat, BitVec.getLsbD_ushiftRight,
    BitVec.getLsbD_reverse, BitVec.getMsbD_eq_getLsbD, BitVec.getLsbD_ofNat]
  by_cases hj : j < bits
  · have hindex : usizeBits - 1 - (usizeBits - bits + j) = bits - 1 - j := by omega
    have hfirst : usizeBits - bits + j < usizeBits := by omega
    have hsecond : bits - 1 - j < usizeBits := by omega
    rw [hindex, decide_eq_true hj, decide_eq_true hfirst, decide_eq_true hsecond, Bool.true_and,
      Bool.true_and]
  · have hfirst : ¬ usizeBits - bits + j < usizeBits := by omega
    rw [decide_eq_false hj, decide_eq_false hfirst, Bool.false_and, Bool.false_and]

section Powers

variable [Field F]

theorem fill_eq (w cur : F) (count : ℕ) : fill w cur count = tabulate count fun i => cur * w ^ i := by
  induction count generalizing cur with
  | zero => rfl
  | succ count ih =>
    rw [fill, ih, List.tabulate_cons, pow_zero, mul_one]
    congr 2
    funext i
    rw [pow_succ', mul_assoc]

theorem flatMap_chunks {α : Type} (size total count : ℕ) (f : ℕ → α) :
    ((List.range count).flatMap fun c =>
      tabulate (min size (total - c * size)) fun i => f (c * size + i)) =
        tabulate (min (count * size) total) f := by
  induction count with
  | zero => rw [Nat.zero_mul, Nat.zero_min]; rfl
  | succ count ih =>
    rw [List.range_succ, List.flatMap_append, ih, List.flatMap_singleton]
    by_cases h : count * size ≤ total
    · have hsplit : min ((count + 1) * size) total =
          count * size + min size (total - count * size) := by
        rw [Nat.succ_mul]
        omega
      rw [Nat.min_eq_left h, hsplit, List.tabulate_add]
    · have hnone : min size (total - count * size) = 0 := by omega
      have hboth : min ((count + 1) * size) total = min (count * size) total := by
        rw [Nat.succ_mul]
        omega
      rw [hnone, hboth]
      exact List.append_nil _

/-- A plan holds the powers below half the domain. -/
theorem plan_eq (n : ℕ) (omega : F) : plan n omega = tabulate (n / 2) fun i => omega ^ i := by
  have hchunk : ∀ c, fill omega (omega ^ (c * twiddleChunk))
      (min twiddleChunk (n / 2 - c * twiddleChunk)) =
      tabulate (min twiddleChunk (n / 2 - c * twiddleChunk))
        fun i => omega ^ (c * twiddleChunk + i) := by
    intro c
    rw [fill_eq]
    simp only [pow_add]
  have hall : n / 2 ≤ (n / 2 + twiddleChunk - 1) / twiddleChunk * twiddleChunk := by
    have hdiv := Nat.div_add_mod (n / 2 + twiddleChunk - 1) twiddleChunk
    have hmod : (n / 2 + twiddleChunk - 1) % twiddleChunk < twiddleChunk :=
      Nat.mod_lt _ (by decide)
    have hpos : 0 < twiddleChunk := by decide
    rw [Nat.mul_comm] at hdiv
    omega
  rw [plan]
  simp only [hchunk]
  rw [flatMap_chunks, Nat.min_eq_right hall]

end Powers

/-! ## Passes -/

section Passes

variable {α β : Type}

theorem butterflies_tabulate (f : ℕ → α → α → α × α) (j m : ℕ) (x y : ℕ → α) :
    butterflies f j (tabulate m x) (tabulate m y) =
      (tabulate m fun i => (f (j + i) (x i) (y i)).1,
        tabulate m fun i => (f (j + i) (x i) (y i)).2) := by
  induction m generalizing j x y with
  | zero => rfl
  | succ m ih =>
    rw [List.tabulate_cons, List.tabulate_cons, butterflies, ih, List.tabulate_cons,
      List.tabulate_cons]
    simp only [Nat.add_right_comm j 1, Nat.add_zero, Nat.add_assoc]

theorem length_butterflies (f : ℕ → α → α → α × α) (j : ℕ) (as bs : List α) :
    (butterflies f j as bs).1.length = as.length ∧ (butterflies f j as bs).2.length = bs.length := by
  induction as generalizing j bs with
  | nil => exact ⟨rfl, rfl⟩
  | cons a as ih =>
    cases bs with
    | nil => exact ⟨rfl, rfl⟩
    | cons b bs =>
      have hrest := ih (j + 1) bs
      rw [butterflies]
      constructor
      · rw [List.length_cons, hrest.1, List.length_cons]
      · rw [List.length_cons, hrest.2, List.length_cons]

theorem butterflies_append (f : ℕ → α → α → α × α) (j : ℕ) {as bs : List α}
    (h : as.length = bs.length) (as' bs' : List α) :
    butterflies f j (as ++ as') (bs ++ bs') =
      ((butterflies f j as bs).1 ++ (butterflies f (j + as.length) as' bs').1,
        (butterflies f j as bs).2 ++ (butterflies f (j + as.length) as' bs').2) := by
  induction as generalizing j bs with
  | nil =>
    rw [List.length_nil] at h
    rw [List.eq_nil_of_length_eq_zero h.symm]
    rfl
  | cons a as ih =>
    cases bs with
    | nil => cases h
    | cons b bs =>
      rw [List.length_cons, List.length_cons, Nat.add_right_cancel_iff] at h
      rw [List.cons_append, List.cons_append, butterflies, ih (j + 1) h, butterflies,
        List.length_cons, Nat.add_right_comm, Nat.add_assoc]
      rfl

theorem inChunks_eq (size : ℕ) (f : ℕ → α → α → α × α) (j : ℕ) {as bs : List α}
    (h : as.length = bs.length) : inChunks size f j as bs = butterflies f j as bs := by
  induction hn : as.length using Nat.strong_induction_on generalizing j as bs with
  | _ n ih =>
    rw [inChunks]
    by_cases hdone : size = 0 ∨ as.length ≤ size
    · rw [dif_pos hdone]
    · rw [dif_neg hdone]
      have hdrop : (as.drop size).length = (bs.drop size).length := by
        rw [List.length_drop, List.length_drop, h]
      have htake : (as.take size).length = (bs.take size).length := by
        rw [List.length_take, List.length_take, h]
      have hshort : (as.drop size).length < n := by
        rw [List.length_drop]
        omega
      have hsize : (as.take size).length = size := by
        rw [List.length_take]
        omega
      have hsplit := butterflies_append f j htake (as.drop size) (bs.drop size)
      rw [List.take_append_drop, List.take_append_drop, hsize] at hsplit
      rw [ih _ hshort (j + size) hdrop rfl, hsplit]

/-- A pass does not depend on the chunks of the pool. -/
theorem pass_eq (parallel : Option ℕ) (f : ℕ → α → α → α × α) {as bs : List α}
    (h : as.length = bs.length) : pass parallel f as bs = butterflies f 0 as bs := by
  cases parallel with
  | none => rfl
  | some chunk => exact inChunks_eq chunk f 0 h

theorem mapChunks_eq (size : ℕ) {f : ℕ → List α → List β}
    (hf : ∀ k a b, f k (a ++ b) = f k a ++ f (k + a.length) b) (k : ℕ) (xs : List α) :
    mapChunks size f k xs = f k xs := by
  induction hn : xs.length using Nat.strong_induction_on generalizing k xs with
  | _ n ih =>
    rw [mapChunks]
    by_cases hdone : size = 0 ∨ xs.length ≤ size
    · rw [dif_pos hdone]
    · rw [dif_neg hdone]
      have hshort : (xs.drop size).length < n := by
        rw [List.length_drop]
        omega
      have hsize : (xs.take size).length = size := by
        rw [List.length_take]
        omega
      have hsplit := hf k (xs.take size) (xs.drop size)
      rw [List.take_append_drop, hsize] at hsplit
      rw [ih _ hshort (k + size) _ rfl, hsplit]

/-! ### Blocks -/

theorem mapBlocks_cons {size : ℕ} (hsize : size ≠ 0) (f : List α → List α) {a : List α}
    (h : a.length = size) (b : List α) : mapBlocks size f (a ++ b) = f a ++ mapBlocks size f b := by
  have hlong : ¬ (size = 0 ∨ (a ++ b).length < size) := by
    rw [List.length_append]
    omega
  rw [mapBlocks, dif_neg hlong, List.take_left' h, List.drop_left' h]

theorem mapBlocks_nil {size : ℕ} (hsize : size ≠ 0) (f : List α → List α) :
    mapBlocks size f [] = [] := by
  have hshort : size = 0 ∨ ([] : List α).length < size := Or.inr (Nat.pos_of_ne_zero hsize)
  rw [mapBlocks, dif_pos hshort]

theorem mapBlocks_single {size : ℕ} (hsize : size ≠ 0) (f : List α → List α) {a : List α}
    (h : a.length = size) : mapBlocks size f a = f a := by
  have hcons := mapBlocks_cons hsize f h []
  rw [List.append_nil, mapBlocks_nil hsize, List.append_nil] at hcons
  exact hcons

theorem mapBlocks_append {size : ℕ} (hsize : size ≠ 0) (f : List α → List α) {count : ℕ}
    {a : List α} (h : a.length = count * size) (b : List α) :
    mapBlocks size f (a ++ b) = mapBlocks size f a ++ mapBlocks size f b := by
  induction count generalizing a with
  | zero =>
    rw [Nat.zero_mul] at h
    rw [List.eq_nil_of_length_eq_zero h, List.nil_append, mapBlocks_nil hsize, List.nil_append]
  | succ count ih =>
    have hhead : (a.take size).length = size := by
      rw [List.length_take, h, Nat.succ_mul]
      omega
    have htail : (a.drop size).length = count * size := by
      rw [List.length_drop, h, Nat.succ_mul]
      omega
    rw [← List.take_append_drop size a, List.append_assoc, mapBlocks_cons hsize f hhead,
      mapBlocks_cons hsize f hhead, ih htail, List.append_assoc]

theorem length_mapBlocks (size : ℕ) {f : List α → List α}
    (hf : ∀ a, a.length = size → (f a).length = size) (xs : List α) :
    (mapBlocks size f xs).length = xs.length := by
  induction hn : xs.length using Nat.strong_induction_on generalizing xs with
  | _ n ih =>
    rw [mapBlocks]
    by_cases hdone : size = 0 ∨ xs.length < size
    · rw [dif_pos hdone, hn]
    · have hshort : (xs.drop size).length < n := by
        rw [List.length_drop]
        omega
      have hhead : (xs.take size).length = size := by
        rw [List.length_take]
        omega
      rw [dif_neg hdone, List.length_append, hf _ hhead, ih _ hshort _ rfl, List.length_drop]
      omega

end Passes

/-! ### Stages -/

section Stages

variable [Field F] (step : Step F)

theorem length_difStage (m : ℕ) (xs : List (V F)) : (difStage step m xs).length = xs.length := by
  apply length_mapBlocks
  intro a ha
  have hlength := length_butterflies (fun j => dif (twiddle step.inv (step.n / (2 * m)) j)) 0
    (a.take m) (a.drop m)
  rw [List.length_append, hlength.1, hlength.2, List.length_take, List.length_drop]
  omega

theorem length_ditStage (m : ℕ) (xs : List (V F)) : (ditStage step m xs).length = xs.length := by
  apply length_mapBlocks
  intro a ha
  have hlength := length_butterflies (fun j => dit (twiddle step.fwd (step.n / (2 * m)) j)) 0
    (a.take m) (a.drop m)
  rw [List.length_append, hlength.1, hlength.2, List.length_take, List.length_drop]
  omega

theorem difStages_zero (xs : List (V F)) : difStages step 0 xs = xs := by
  rw [difStages, dif_pos rfl]

theorem difStages_step {m : ℕ} (hm : m ≠ 0) (xs : List (V F)) :
    difStages step m xs = difStages step (m / 2) (difStage step m xs) := by
  rw [difStages, dif_neg hm]

theorem ditStages_done {len m : ℕ} (h : len ≤ m) (xs : List (V F)) :
    ditStages step len m xs = xs := by
  rw [ditStages, dif_pos (Or.inr h)]

theorem ditStages_step {len m : ℕ} (hm : m ≠ 0) (h : m < len) (xs : List (V F)) :
    ditStages step len m xs = ditStages step len (m * 2) (ditStage step m xs) := by
  have hgo : ¬ (m = 0 ∨ len ≤ m) := by omega
  rw [ditStages, dif_neg hgo]

/-- Stages down from half a block leave blocks apart. -/
theorem difStages_append (e : ℕ) {count : ℕ} {a : List (V F)} (h : a.length = count * 2 ^ e)
    (b : List (V F)) :
    difStages step (2 ^ e / 2) (a ++ b) =
      difStages step (2 ^ e / 2) a ++ difStages step (2 ^ e / 2) b := by
  induction e generalizing a b count with
  | zero => rw [show 2 ^ 0 / 2 = 0 from rfl, difStages_zero, difStages_zero, difStages_zero]
  | succ e ih =>
    have hhalf : 2 ^ (e + 1) / 2 = 2 ^ e := by
      rw [pow_succ, Nat.mul_div_cancel _ Nat.two_pos]
    have hne : (2 : ℕ) ^ e ≠ 0 := (Nat.two_pow_pos e).ne'
    have hsize : 2 * 2 ^ e ≠ 0 := by omega
    have hcount : a.length = count * (2 * 2 ^ e) := by
      rw [h, pow_succ, Nat.mul_comm (2 ^ e)]
    have hstage : difStage step (2 ^ e) (a ++ b) =
        difStage step (2 ^ e) a ++ difStage step (2 ^ e) b :=
      mapBlocks_append hsize _ hcount b
    have hlength : (difStage step (2 ^ e) a).length = (count * 2) * 2 ^ e := by
      rw [length_difStage, hcount, Nat.mul_assoc]
    rw [hhalf, difStages_step step hne, hstage, ih hlength, difStages_step step hne a,
      difStages_step step hne b]

theorem ditStages_append (e : ℕ) {i count : ℕ} (hi : i ≤ e) {a : List (V F)}
    (h : a.length = count * 2 ^ e) (b : List (V F)) :
    ditStages step (2 ^ e) (2 ^ i) (a ++ b) =
      ditStages step (2 ^ e) (2 ^ i) a ++ ditStages step (2 ^ e) (2 ^ i) b := by
  induction hgap : e - i generalizing i a b with
  | zero =>
    have hdone : 2 ^ e ≤ 2 ^ i := Nat.pow_le_pow_right Nat.two_pos (by omega)
    rw [ditStages_done step hdone, ditStages_done step hdone, ditStages_done step hdone]
  | succ gap ih =>
    have hlt : 2 ^ i < 2 ^ e := Nat.pow_lt_pow_right (by omega) (by omega)
    have hne : (2 : ℕ) ^ i ≠ 0 := (Nat.two_pow_pos i).ne'
    have hsize : 2 * 2 ^ i ≠ 0 := by omega
    have hcount : a.length = count * 2 ^ (e - (i + 1)) * (2 * 2 ^ i) := by
      rw [h, Nat.mul_assoc, ← pow_succ', ← pow_add]
      congr 2
      omega
    have hstage : ditStage step (2 ^ i) (a ++ b) =
        ditStage step (2 ^ i) a ++ ditStage step (2 ^ i) b :=
      mapBlocks_append hsize _ hcount b
    have hlength : (ditStage step (2 ^ i) a).length = count * 2 ^ e := by
      rw [length_ditStage, h]
    rw [ditStages_step step hne hlt, hstage, ← pow_succ, ih (by omega) hlength _ (by omega),
      ditStages_step step hne hlt a, ditStages_step step hne hlt b, ← pow_succ]

/-- The last stage of a block comes behind the stages of its halves. -/
theorem ditStages_last (k : ℕ) {i : ℕ} (hi : i ≤ k) (xs : List (V F)) :
    ditStages step (2 ^ (k + 1)) (2 ^ i) xs =
      ditStage step (2 ^ k) (ditStages step (2 ^ k) (2 ^ i) xs) := by
  have hne : (2 : ℕ) ^ i ≠ 0 := (Nat.two_pow_pos i).ne'
  have hlast : 2 ^ i < 2 ^ (k + 1) := Nat.pow_lt_pow_right (by omega) (by omega)
  induction hgap : k - i generalizing i xs with
  | zero =>
    have hik : i = k := by omega
    rw [hik] at hne hlast ⊢
    rw [ditStages_step step hne hlast, ← pow_succ, ditStages_done step (le_refl _),
      ditStages_done step (le_refl _)]
  | succ gap ih =>
    have hlt : 2 ^ i < 2 ^ k := Nat.pow_lt_pow_right (by omega) (by omega)
    rw [ditStages_step step hne hlast, ditStages_step step hne hlt, ← pow_succ]
    exact ih (by omega) _ (Nat.two_pow_pos _).ne' (Nat.pow_lt_pow_right (by omega) (by omega))
      (by omega)

end Stages

end Curvy.Prover.SimdFft
