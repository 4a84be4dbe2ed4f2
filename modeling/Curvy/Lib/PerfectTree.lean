import Mathlib.Data.List.Basic
import Mathlib.Data.List.GetD
import Mathlib.Algebra.Order.Floor.Div
import Mathlib.Tactic.Ring
import Mathlib.Tactic.NormNum

/-!
# Perfect binary hash trees over padded leaf lists

`node hash z leaves h i` is the root of the height-`h` subtree at position `i` of
the infinite perfect tree whose leaf row is `leaves` followed by `z` forever. Rows,
sharding, inclusion paths and binding are all stated through it; `hash` is an
arbitrary binary function.
-/

namespace PerfectTree

set_option autoImplicit false

universe u
variable {α : Type u} (hash : α → α → α) (z : α)

/-- Root of the all-`z` subtree of height `h`. -/
def empty : Nat → α
  | 0 => z
  | h + 1 => hash (empty h) (empty h)

def node (leaves : List α) : Nat → Nat → α
  | 0, i => leaves.getD i z
  | h + 1, i => hash (node leaves h (2 * i)) (node leaves h (2 * i + 1))

@[simp] theorem empty_zero : empty hash z 0 = z := rfl

theorem empty_succ (h : Nat) :
    empty hash z (h + 1) = hash (empty hash z h) (empty hash z h) := rfl

@[simp] theorem node_zero (leaves : List α) (i : Nat) :
    node hash z leaves 0 i = leaves.getD i z := rfl

theorem node_succ (leaves : List α) (h i : Nat) :
    node hash z leaves (h + 1) i =
      hash (node hash z leaves h (2 * i)) (node hash z leaves h (2 * i + 1)) := rfl

/-- A subtree is determined by the padded leaves below it; the second list may be
read at an offset of `o` whole subtrees. -/
theorem node_congr_offset {l l' : List α} (o : Nat) {h i : Nat}
    (agree : ∀ j, i * 2 ^ h ≤ j → j < (i + 1) * 2 ^ h →
      l.getD j z = l'.getD (o * 2 ^ h + j) z) :
    node hash z l h i = node hash z l' h (o + i) := by
  induction h generalizing i o with
  | zero =>
    have := agree i (by omega) (by omega)
    simpa using this
  | succ h ih =>
    have hlo : i * 2 ^ (h + 1) = 2 * (i * 2 ^ h) := by rw [pow_succ]; ring
    have hhi : (i + 1) * 2 ^ (h + 1) = 2 * (i * 2 ^ h) + 2 * 2 ^ h := by rw [pow_succ]; ring
    have hoff : o * 2 ^ (h + 1) = 2 * o * 2 ^ h := by rw [pow_succ]; ring
    have hleft : 2 * i * 2 ^ h = 2 * (i * 2 ^ h) := by ring
    have hmid : (2 * i + 1) * 2 ^ h = 2 * (i * 2 ^ h) + 2 ^ h := by ring
    have hright : (2 * i + 1 + 1) * 2 ^ h = 2 * (i * 2 ^ h) + 2 * 2 ^ h := by ring
    rw [hlo, hhi, hoff] at agree
    rw [node_succ, node_succ, ih (2 * o) (i := 2 * i), ih (2 * o) (i := 2 * i + 1)]
    · congr 2 <;> ring
    · intro j hj1 hj2
      exact agree j (by omega) (by omega)
    · intro j hj1 hj2
      exact agree j (by omega) (by omega)

theorem node_congr {l l' : List α} {h i : Nat}
    (agree : ∀ j, i * 2 ^ h ≤ j → j < (i + 1) * 2 ^ h → l.getD j z = l'.getD j z) :
    node hash z l h i = node hash z l' h i := by
  simpa using node_congr_offset hash z (l := l) 0 (h := h) (i := i)
    (by simpa using agree)

theorem node_nil (h i : Nat) : node hash z [] h i = empty hash z h := by
  induction h generalizing i with
  | zero => simp
  | succ h ih => rw [node_succ, ih, ih, empty_succ]

/-- A subtree that starts at or after the last leaf is empty. -/
theorem node_of_length_le {leaves : List α} {h i : Nat} (hi : leaves.length ≤ i * 2 ^ h) :
    node hash z leaves h i = empty hash z h := by
  rw [← node_nil hash z h i]
  apply node_congr
  intro j hj _
  rw [List.getD_eq_default _ _ (by omega)]
  simp

/-! ### Rows -/

/-- Number of height-`h` subtrees that meet the first `n` leaves. -/
def width (n h : Nat) : Nat := n ⌈/⌉ 2 ^ h

theorem lt_width {n h i : Nat} : i < width n h ↔ i * 2 ^ h < n := by
  unfold width
  have hpos : 0 < 2 ^ h := Nat.two_pow_pos h
  rw [← not_le, ← not_le, ceilDiv_le_iff_le_mul hpos, Nat.mul_comm]

@[simp] theorem width_zero_right (n : Nat) : width n 0 = n := by
  apply Nat.le_antisymm
  · by_contra hlt
    have := (lt_width (n := n) (h := 0) (i := n)).mp (by omega)
    simp at this
  · by_contra hlt
    have hn : width n 0 < n := by omega
    have := (lt_width (n := n) (h := 0) (i := width n 0)).mpr (by simpa using hn)
    omega

theorem eq_width {m n h : Nat} (hm : ∀ i, i < m ↔ i * 2 ^ h < n) : m = width n h := by
  apply Nat.le_antisymm
  · by_contra hlt
    have h1 := (hm (width n h)).mp (by omega)
    exact absurd (lt_width.mpr h1) (Nat.lt_irrefl _)
  · by_contra hlt
    have h1 := lt_width.mp (show m < width n h by omega)
    exact absurd ((hm m).mpr h1) (Nat.lt_irrefl _)

theorem width_succ (n h : Nat) : width n (h + 1) = (width n h + 1) / 2 := by
  symm
  apply eq_width
  intro i
  have hiff := lt_width (n := n) (h := h) (i := 2 * i)
  have hp : i * 2 ^ (h + 1) = 2 * i * 2 ^ h := by rw [pow_succ]; ring
  rw [hp, ← hiff]
  omega

theorem width_of_le {n h : Nat} (hpos : 0 < n) (hle : n ≤ 2 ^ h) : width n h = 1 := by
  symm
  apply eq_width
  intro i
  constructor
  · intro hi
    have : i = 0 := by omega
    subst this
    simpa using hpos
  · intro hi
    by_contra hge
    have : 1 * 2 ^ h ≤ i * 2 ^ h := Nat.mul_le_mul_right _ (by omega)
    omega

@[simp] theorem width_zero_left (h : Nat) : width 0 h = 0 :=
  (eq_width (by intro i; simp)).symm

/-- The stored nodes of height `h`: every subtree that meets a leaf. -/
def row (leaves : List α) (h : Nat) : List α :=
  (List.range (width leaves.length h)).map (node hash z leaves h)

@[simp] theorem row_length (leaves : List α) (h : Nat) :
    (row hash z leaves h).length = width leaves.length h := by simp [row]

@[simp] theorem row_nil (h : Nat) : row hash z ([] : List α) h = [] := by simp [row]

theorem row_getElem? (leaves : List α) (h i : Nat) :
    (row hash z leaves h)[i]? =
      if i < width leaves.length h then some (node hash z leaves h i) else none := by
  by_cases hi : i < width leaves.length h <;> simp [row, hi]

@[simp] theorem row_getD (leaves : List α) (h i : Nat) :
    (row hash z leaves h).getD i (empty hash z h) = node hash z leaves h i := by
  rw [List.getD_eq_getElem?_getD, row_getElem?]
  split
  · rfl
  · rename_i hi
    rw [lt_width, Nat.not_lt] at hi
    simp [node_of_length_le hash z hi]

@[simp] theorem row_zero (leaves : List α) : row hash z leaves 0 = leaves := by
  apply List.ext_getElem?
  intro i
  rw [row_getElem?, width_zero_right]
  by_cases hi : i < leaves.length <;> simp [hi, List.getD_eq_getElem?_getD]

theorem row_top {leaves : List α} {h : Nat} (hne : leaves ≠ []) (hle : leaves.length ≤ 2 ^ h) :
    row hash z leaves h = [node hash z leaves h 0] := by
  have hpos : 0 < leaves.length := List.length_pos_iff.mpr hne
  simp [row, width_of_le hpos hle]

/-- Hash neighbours pairwise; a missing right neighbour reads as `e`. -/
def pairUp (e : α) : List α → List α
  | [] => []
  | [a] => [hash a e]
  | a :: b :: rest => hash a b :: pairUp e rest

@[simp] theorem pairUp_length (e : α) (l : List α) :
    (pairUp hash e l).length = (l.length + 1) / 2 := by
  induction l using pairUp.induct with
  | case1 => simp [pairUp]
  | case2 a => simp [pairUp]
  | case3 a b rest ih => simp only [pairUp, List.length_cons, ih]; omega

theorem pairUp_getElem? (e : α) (l : List α) (i : Nat) :
    (pairUp hash e l)[i]? =
      if 2 * i < l.length then some (hash (l.getD (2 * i) e) (l.getD (2 * i + 1) e)) else none := by
  induction l using pairUp.induct generalizing i with
  | case1 => simp [pairUp]
  | case2 a =>
    cases i with
    | zero => simp [pairUp]
    | succ i => simp [pairUp]
  | case3 a b rest ih =>
    cases i with
    | zero => simp [pairUp]
    | succ i =>
      simp only [pairUp, List.getElem?_cons_succ, ih, List.length_cons]
      have h1 : 2 * (i + 1) = 2 * i + 1 + 1 := by ring
      simp only [h1, List.getD_cons_succ]
      by_cases hi : 2 * i < rest.length
      · rw [if_pos hi, if_pos (by omega)]
      · rw [if_neg hi, if_neg (by omega)]

theorem row_succ (leaves : List α) (h : Nat) :
    row hash z leaves (h + 1) = pairUp hash (empty hash z h) (row hash z leaves h) := by
  apply List.ext_getElem?
  intro i
  rw [row_getElem?, pairUp_getElem?, row_length, row_getD, row_getD, node_succ]
  have : i < width leaves.length (h + 1) ↔ 2 * i < width leaves.length h := by
    rw [width_succ]; omega
  simp only [this]

/-- Cutting the tree at height `a`: the subtree roots of height `a` are the leaves of
a tree padded with the empty subtree of height `a`. -/
theorem node_add (leaves : List α) (a b i : Nat) :
    node hash z leaves (a + b) i = node hash (empty hash z a) (row hash z leaves a) b i := by
  induction b generalizing i with
  | zero => exact (row_getD hash z leaves a i).symm
  | succ b ih => rw [← Nat.add_assoc, node_succ, node_succ, ih, ih]

/-! ### Rows under appends and updates -/

theorem div_eq_iff_bounds {j h i : Nat} :
    j / 2 ^ h = i ↔ i * 2 ^ h ≤ j ∧ j < (i + 1) * 2 ^ h := by
  rw [Nat.div_eq_iff (Nat.two_pow_pos h)]
  have : (i + 1) * 2 ^ h = i * 2 ^ h + 2 ^ h := by ring
  have := Nat.two_pow_pos h
  omega

/-- Only the leaves `j` with `j / 2 ^ h = i` matter to node `i` of height `h`. -/
theorem node_congr_div {l l' : List α} {h i : Nat}
    (agree : ∀ j, j / 2 ^ h = i → l.getD j z = l'.getD j z) :
    node hash z l h i = node hash z l' h i :=
  node_congr hash z fun j hlo hhi => agree j (div_eq_iff_bounds.mpr ⟨hlo, hhi⟩)

theorem width_succ_left (n h : Nat) : width (n + 1) h = n / 2 ^ h + 1 := by
  symm
  apply eq_width
  intro i
  rw [Nat.lt_succ_iff, Nat.lt_succ_iff, Nat.le_div_iff_mul_le (Nat.two_pow_pos h)]

theorem div_le_width (n h : Nat) : n / 2 ^ h ≤ width n h := by
  by_contra hlt
  have hle : (width n h) * 2 ^ h < n := by
    have h1 : width n h + 1 ≤ n / 2 ^ h := by omega
    have h2 := (Nat.le_div_iff_mul_le (Nat.two_pow_pos h)).mp h1
    have h3 : (width n h + 1) * 2 ^ h = width n h * 2 ^ h + 2 ^ h := by ring
    have := Nat.two_pow_pos h
    omega
  exact absurd (lt_width.mpr hle) (Nat.lt_irrefl _)

theorem width_le_div_succ (n h : Nat) : width n h ≤ n / 2 ^ h + 1 := by
  by_contra hlt
  have h1 := lt_width.mp (show n / 2 ^ h + 1 < width n h by omega)
  have h2 := Nat.lt_div_mul_add (a := n) (Nat.two_pow_pos h)
  have h3 : (n / 2 ^ h + 1) * 2 ^ h = n / 2 ^ h * 2 ^ h + 2 ^ h := by ring
  omega

theorem width_mono {m n : Nat} (hle : m ≤ n) (h : Nat) : width m h ≤ width n h := by
  by_contra hlt
  have h1 := lt_width.mp (show width n h < width m h by omega)
  exact absurd (lt_width.mpr (lt_of_lt_of_le h1 hle)) (Nat.lt_irrefl _)

theorem getD_append_of_lt {l m : List α} {j : Nat} (hj : j < l.length) :
    (l ++ m).getD j z = l.getD j z := by
  simp [List.getD_eq_getElem?_getD, List.getElem?_append_left hj]

/-- Nodes left of the first appended leaf are unchanged. -/
theorem node_append_of_lt {l m : List α} {h i : Nat} (hi : i < l.length / 2 ^ h) :
    node hash z (l ++ m) h i = node hash z l h i := by
  apply node_congr_div
  rintro j rfl
  refine getD_append_of_lt z ?_
  by_contra hge
  exact absurd (Nat.div_le_div_right (c := 2 ^ h) (Nat.not_lt.mp hge)) (Nat.not_le.mpr hi)

theorem row_append_take (l m : List α) (h : Nat) :
    (row hash z (l ++ m) h).take (l.length / 2 ^ h) =
      (row hash z l h).take (l.length / 2 ^ h) := by
  apply List.ext_getElem?
  intro i
  rw [List.getElem?_take, List.getElem?_take]
  split
  · rename_i hi
    have h1 := div_le_width l.length h
    have h2 := width_mono (m := l.length) (n := (l ++ m).length) (by simp) h
    rw [row_getElem?, row_getElem?, if_pos (by omega), if_pos (by omega),
      node_append_of_lt hash z hi]
  · rfl

/-- Appending one leaf: the last touched node is replaced or pushed. -/
theorem row_append_singleton (l : List α) (x : α) (h : Nat) :
    row hash z (l ++ [x]) h =
      (row hash z l h).take (l.length / 2 ^ h) ++
        [node hash z (l ++ [x]) h (l.length / 2 ^ h)] := by
  have hlen : (row hash z (l ++ [x]) h).length = l.length / 2 ^ h + 1 := by
    simp [width_succ_left]
  rw [← row_append_take hash z l [x] h]
  conv_lhs => rw [← List.take_append_drop (l.length / 2 ^ h) (row hash z (l ++ [x]) h)]
  congr 1
  rw [List.drop_eq_getElem_cons (by omega), List.drop_eq_nil_of_le (by omega)]
  simp [row]

/-- Replacing a leaf replaces one node of each row. -/
theorem row_set (l : List α) (x : α) {j : Nat} (hj : j < l.length) (h : Nat) :
    row hash z (l.set j x) h =
      (row hash z l h).set (j / 2 ^ h) (node hash z (l.set j x) h (j / 2 ^ h)) := by
  apply List.ext_getElem?
  intro i
  have hwidth : j / 2 ^ h < width l.length h := by
    rw [lt_width]
    exact lt_of_le_of_lt (Nat.div_mul_le_self j _) hj
  rw [List.getElem?_set, row_getElem?, row_getElem?, List.length_set, row_length]
  by_cases hi : j / 2 ^ h = i
  · subst hi
    simp [hwidth]
  · rw [if_neg hi]
    split
    · refine congrArg some (node_congr_div hash z fun k hk => ?_)
      have hne : j ≠ k := by rintro rfl; exact hi hk
      simp [List.getD_eq_getElem?_getD, List.getElem?_set_ne hne]
    · rfl

theorem pairUp_drop (e : α) (l : List α) (k : Nat) :
    pairUp hash e (l.drop (2 * k)) = (pairUp hash e l).drop k := by
  apply List.ext_getElem?
  intro i
  rw [pairUp_getElem?, List.getElem?_drop, pairUp_getElem?, List.length_drop]
  have h1 : (l.drop (2 * k)).getD (2 * i) e = l.getD (2 * (k + i)) e := by
    simp [List.getD_eq_getElem?_getD, Nat.mul_add]
  have h2 : (l.drop (2 * k)).getD (2 * i + 1) e = l.getD (2 * (k + i) + 1) e := by
    simp [List.getD_eq_getElem?_getD, Nat.mul_add, Nat.add_assoc]
  rw [h1, h2]
  have : 2 * i < l.length - 2 * k ↔ 2 * (k + i) < l.length := by omega
  simp only [this]

end PerfectTree
