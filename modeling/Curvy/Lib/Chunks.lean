import Mathlib.Data.List.Basic

/-!
# Cutting a list into chunks

`chunks size l` is `l` in pieces of `size` elements, the last one possibly shorter.
-/

set_option autoImplicit false

universe u

namespace List

variable {α : Type u}

def chunksFrom (size : Nat) : Nat → List α → List (List α)
  | 0, _ => []
  | fuel + 1, l => if l.isEmpty then [] else l.take size :: chunksFrom size fuel (l.drop size)

def chunks (size : Nat) (l : List α) : List (List α) := chunksFrom size l.length l

theorem chunksFrom_eq {size : Nat} (hsize : 0 < size) {fuel : Nat} {l : List α}
    (h : l.length ≤ fuel) : chunksFrom size fuel l = chunks size l := by
  have hstep : ∀ n, ∀ fuel fuel' : Nat, ∀ l : List α, l.length ≤ n → l.length ≤ fuel →
      l.length ≤ fuel' → chunksFrom size fuel l = chunksFrom size fuel' l := by
    intro n
    induction n with
    | zero =>
      intro fuel fuel' l hn _ _
      have hl : l = [] := List.eq_nil_of_length_eq_zero (by omega)
      cases fuel <;> cases fuel' <;> simp [chunksFrom, hl]
    | succ n ih =>
      intro fuel fuel' l hn hf hf'
      cases l with
      | nil => cases fuel <;> cases fuel' <;> simp [chunksFrom]
      | cons a l =>
        cases fuel with
        | zero => simp at hf
        | succ fuel =>
          cases fuel' with
          | zero => simp at hf'
          | succ fuel' =>
            have hdrop : ((a :: l).drop size).length < (a :: l).length := by
              rw [List.length_drop]
              simp only [List.length_cons]
              omega
            simp only [chunksFrom, List.isEmpty_cons, Bool.false_eq_true, if_false]
            rw [ih fuel fuel' _ (by omega) (by omega) (by omega)]
  exact hstep _ _ _ l (Nat.le_refl _) h (Nat.le_refl _)

@[simp] theorem chunks_nil (size : Nat) : chunks size ([] : List α) = [] := rfl

theorem chunks_of_ne_nil {size : Nat} (hsize : 0 < size) {l : List α} (h : l ≠ []) :
    chunks size l = l.take size :: chunks size (l.drop size) := by
  obtain ⟨a, l, rfl⟩ := List.exists_cons_of_ne_nil h
  have hfuel : ((a :: l).drop size).length ≤ l.length := by
    rw [List.length_drop]
    simp only [List.length_cons]
    omega
  rw [← chunksFrom_eq hsize hfuel]
  rfl

/-- Induction along the cuts. -/
theorem chunks_induction {size : Nat} (hsize : 0 < size) {P : List α → Prop} (nil : P [])
    (cut : ∀ l, l ≠ [] → P (l.drop size) → P l) (l : List α) : P l := by
  have go : ∀ n, ∀ l : List α, l.length ≤ n → P l := by
    intro n
    induction n with
    | zero =>
      intro l hl
      rw [List.eq_nil_of_length_eq_zero (Nat.le_zero.mp hl)]
      exact nil
    | succ n ih =>
      intro l hl
      by_cases h : l = []
      · rw [h]
        exact nil
      · have hpos := List.length_pos_of_ne_nil h
        exact cut l h (ih _ (by rw [List.length_drop]; omega))
  exact go l.length l (Nat.le_refl _)

theorem flatten_chunks {size : Nat} (hsize : 0 < size) (l : List α) :
    (chunks size l).flatten = l := by
  induction l using chunks_induction hsize with
  | nil => rfl
  | cut l h ih => rw [chunks_of_ne_nil hsize h, flatten_cons, ih, List.take_append_drop]

theorem length_chunks {size : Nat} (hsize : 0 < size) (l : List α) :
    (chunks size l).length = (l.length + (size - 1)) / size := by
  induction l using chunks_induction hsize with
  | nil => exact (Nat.div_eq_of_lt (by simp; omega)).symm
  | cut l h ih =>
    have hpos := List.length_pos_of_ne_nil h
    rw [chunks_of_ne_nil hsize h, length_cons, ih, List.length_drop]
    by_cases hlong : size ≤ l.length
    · rw [show l.length + (size - 1) = l.length - size + (size - 1) + size by omega,
        Nat.add_div_right _ hsize]
    · rw [Nat.div_eq_of_lt (by omega),
        show l.length + (size - 1) = l.length - 1 + size by omega, Nat.add_div_right _ hsize,
        Nat.div_eq_of_lt (by omega)]

/-- Every chunk but possibly the last has the full size, and none is empty. -/
theorem chunks_sizes {size : Nat} (hsize : 0 < size) (l : List α) :
    (∀ c ∈ chunks size l, c.length = size) ∧ l.length % size = 0 ∨
      ∃ full last, chunks size l = full ++ [last] ∧ (∀ c ∈ full, c.length = size) ∧
        last ≠ [] ∧ last.length < size := by
  induction l using chunks_induction hsize with
  | nil => exact .inl (by simp)
  | cut l h ih =>
    rw [chunks_of_ne_nil hsize h]
    by_cases hlong : size ≤ l.length
    · have htake : (l.take size).length = size := by
        rw [List.length_take]
        omega
      rcases ih with ⟨hall, hmod⟩ | ⟨full, last, heq, hfull, hlast⟩
      · refine .inl ⟨List.forall_mem_cons.mpr ⟨htake, hall⟩, ?_⟩
        rw [List.length_drop] at hmod
        rw [Nat.mod_eq_sub_mod hlong]
        exact hmod
      · refine .inr ⟨l.take size :: full, last, by rw [heq]; rfl, ?_, hlast⟩
        exact List.forall_mem_cons.mpr ⟨htake, hfull⟩
    · have hdrop : l.drop size = [] := List.drop_eq_nil_of_le (by omega)
      refine .inr ⟨[], l, ?_, by simp, h, by omega⟩
      rw [hdrop, List.take_of_length_le (by omega)]
      rfl

theorem getElem?_chunks {size : Nat} (hsize : 0 < size) (l : List α) :
    ∀ {i : Nat}, i * size < l.length → (chunks size l)[i]? = some ((l.drop (i * size)).take size) := by
  induction l using chunks_induction hsize with
  | nil => exact fun h => (by simp at h)
  | cut l h ih =>
    intro i hi
    rw [chunks_of_ne_nil hsize h]
    cases i with
    | zero => simp
    | succ i =>
      rw [Nat.succ_mul] at hi
      rw [List.getElem?_cons_succ, ih (by rw [List.length_drop]; omega), List.drop_drop,
        Nat.succ_mul, Nat.add_comm]

theorem length_flatten_of_forall {size : Nat} {l : List (List α)} (h : ∀ c ∈ l, c.length = size) :
    l.flatten.length = l.length * size := by
  induction l with
  | nil => rw [flatten_nil, length_nil, length_nil, Nat.zero_mul]
  | cons c l ih =>
    obtain ⟨hc, hl⟩ := List.forall_mem_cons.mp h
    rw [flatten_cons, length_append, length_cons, hc, ih hl, Nat.succ_mul, Nat.add_comm]

/-- Pieces of the full size are the chunks of what they make up. -/
theorem chunks_flatten {size : Nat} (hsize : 0 < size) {l : List (List α)}
    (h : ∀ c ∈ l, c.length = size) : chunks size l.flatten = l := by
  induction l with
  | nil => rfl
  | cons c l ih =>
    obtain ⟨hc, hl⟩ := List.forall_mem_cons.mp h
    have hne : c ++ l.flatten ≠ [] := by
      intro hnil
      obtain ⟨rfl, _⟩ := List.append_eq_nil_iff.mp hnil
      exact absurd hc (by simp; omega)
    rw [flatten_cons, chunks_of_ne_nil hsize hne, List.take_left' hc, List.drop_left' hc, ih hl]

/-- A multiple of the size is cut into chunks of that size. -/
theorem exists_chunks {size n : Nat} {l : List α} (h : l.length = n * size) :
    ∃ pieces : List (List α), pieces.length = n ∧ (∀ c ∈ pieces, c.length = size) ∧
      l = pieces.flatten := by
  induction n generalizing l with
  | zero => exact ⟨[], rfl, by simp, List.eq_nil_of_length_eq_zero (by omega)⟩
  | succ n ih =>
    rw [Nat.succ_mul] at h
    have htake : (l.take size).length = size := by
      rw [List.length_take]
      omega
    obtain ⟨pieces, hlength, hall, heq⟩ := ih (l := l.drop size) (by rw [List.length_drop]; omega)
    refine ⟨l.take size :: pieces, by rw [List.length_cons, hlength],
      List.forall_mem_cons.mpr ⟨htake, hall⟩, ?_⟩
    rw [flatten_cons, ← heq, List.take_append_drop]

/-- A last chunk behind full ones. -/
theorem chunks_append {size : Nat} (hsize : 0 < size) {last : List α} (hlast : last ≠ [])
    (hshort : last.length ≤ size) (l : List α) : l.length % size = 0 →
    chunks size (l ++ last) = chunks size l ++ [last] := by
  induction l using chunks_induction hsize with
  | nil =>
    intro _
    rw [List.nil_append, chunks_of_ne_nil hsize hlast, List.take_of_length_le hshort,
      List.drop_eq_nil_of_le hshort, chunks_nil, List.nil_append]
  | cut l h ih =>
    intro hmod
    have hpos := List.length_pos_of_ne_nil h
    have hlong : size ≤ l.length := by
      by_contra hless
      rw [Nat.mod_eq_of_lt (by omega)] at hmod
      omega
    have hne : l ++ last ≠ [] := by simp [h]
    rw [chunks_of_ne_nil hsize hne, chunks_of_ne_nil hsize h,
      List.take_append_of_le_length hlong, List.drop_append_of_le_length hlong, ih]
    · rfl
    · rw [List.length_drop, ← Nat.mod_eq_sub_mod hlong]
      exact hmod

end List
