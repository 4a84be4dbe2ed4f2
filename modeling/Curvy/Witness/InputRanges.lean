import Curvy.Witness.InputOrder
import Mathlib.Order.CompletePartialOrder
import Mathlib.Order.Interval.Set.Disjoint
import Mathlib.Order.Interval.Set.LinearOrder

/-!
# Admission of input ranges

The sorted scan accepts exactly the families of ranges that nest, in any listed order.
-/

namespace Curvy.Witness

set_option autoImplicit false

/-- The slots of a range `(start, size)`. -/
def slots (range : Nat × Nat) : Set Nat := Set.Ico range.1 (range.1 + range.2)

/-- No common slot, or one inside the other. -/
def Nested (a b : Nat × Nat) : Prop :=
  Disjoint (slots a) (slots b) ∨ slots a ⊆ slots b ∨ slots b ⊆ slots a

theorem nested_iff {a b : Nat × Nat} (ha : a.2 ≠ 0) (hb : b.2 ≠ 0) : Nested a b ↔ Laminar a b := by
  have ha' : a.1 < a.1 + a.2 := by omega
  have hb' : b.1 < b.1 + b.2 := by omega
  unfold Nested Laminar slots
  rw [Set.Ico_disjoint_Ico, Set.Ico_subset_Ico_iff ha', Set.Ico_subset_Ico_iff hb']
  omega

/-- The end of an enclosing range cuts no range behind it. -/
def Uncut (outerEnd : Nat) (range : Nat × Nat × Nat) : Prop :=
  outerEnd ≤ range.2.1 ∨ range.2.1 + range.2.2 ≤ outerEnd

/-- Laminar ranges that no enclosing end cuts pass the scan. -/
theorem scanRanges_accepts {order : List (Nat × Nat × Nat)} {enclosing : List Nat}
    (horder : order.Pairwise fun a b => rangeBefore a b = true)
    (hlaminar : order.Pairwise fun a b => Laminar a.2 b.2)
    (hcut : ∀ outerEnd ∈ enclosing, ∀ range ∈ order, Uncut outerEnd range) :
    scanRanges order enclosing = .ok () := by
  induction order generalizing enclosing with
  | nil => rfl
  | cons first order ih =>
    obtain ⟨index, start, size⟩ := first
    obtain ⟨hfirst, horder⟩ := List.pairwise_cons.mp horder
    obtain ⟨hown, hlaminar⟩ := List.pairwise_cons.mp hlaminar
    unfold scanRanges
    dsimp only
    have hopen : ∀ outerEnd ∈ enclosing.dropWhile (fun outerEnd => decide (outerEnd ≤ start)),
        outerEnd ∈ enclosing := fun outerEnd h => (List.dropWhile_sublist _).mem h
    have hhead := List.head?_dropWhile_not (fun outerEnd => decide (outerEnd ≤ start)) enclosing
    generalize enclosing.dropWhile (fun outerEnd => decide (outerEnd ≤ start)) = open' at *
    have hfits : ¬ (open'.head?.any fun outerEnd => decide (start + size > outerEnd)) = true := by
      cases open' with
      | nil => simp
      | cons top rest =>
        have htop : start < top := by simpa using hhead
        have huncut := hcut top (hopen top List.mem_cons_self) _ List.mem_cons_self
        unfold Uncut at huncut
        dsimp only at huncut
        simp only [List.head?_cons, Option.any_some, decide_eq_true_eq]
        omega
    rw [if_neg hfits]
    refine ih horder hlaminar (List.forall_mem_cons.mpr ⟨fun range hrange => ?_, ?_⟩)
    · have hbefore := hfirst range hrange
      have hpair := hown range hrange
      unfold rangeBefore at hbefore
      simp only [decide_eq_true_eq] at hbefore
      unfold Laminar at hpair
      unfold Uncut
      dsimp only at *
      omega
    · exact fun outerEnd h range hrange =>
        hcut outerEnd (hopen outerEnd h) range (List.mem_cons_of_mem _ hrange)

/-- Any sorted order of the ranges; ties may stand either way round. -/
theorem scanRanges_iff {order : List (Nat × Nat × Nat)}
    (horder : order.Pairwise fun a b => rangeBefore a b = true) :
    scanRanges order [] = .ok () ↔ order.Pairwise fun a b => Laminar a.2 b.2 := by
  constructor
  · exact fun h => (scanRanges_laminar h horder .nil).1
  · exact fun h => scanRanges_accepts horder h fun _ hmem => absurd hmem List.not_mem_nil

/-- What `sort_unstable_by_key` may leave of the indexed ranges: ties in any order. -/
def SortedOrder (ranges : List (Nat × Nat)) (order : List (Nat × Nat × Nat)) : Prop :=
  order.Perm (ranges.zipIdx.map fun r => (r.2, r.1)) ∧ order.Pairwise fun a b => rangeBefore a b = true

theorem SortedOrder.laminar_iff {ranges : List (Nat × Nat)} {order : List (Nat × Nat × Nat)}
    (h : SortedOrder ranges order) :
    (order.Pairwise fun a b => Laminar a.2 b.2) ↔ ranges.Pairwise Laminar := by
  have hranges : ranges.zipIdx.map Prod.fst = ranges := List.zipIdx_map_fst _ _
  rw [h.1.pairwise_iff fun hab => hab.symm, List.pairwise_map]
  conv => rhs; rw [← hranges, List.pairwise_map]

theorem pairwise_nested_iff {ranges : List (Nat × Nat)} (hne : ∀ range ∈ ranges, range.2 ≠ 0) :
    ranges.Pairwise Nested ↔ ranges.Pairwise Laminar :=
  List.Pairwise.iff_of_mem fun ha hb => nested_iff (hne _ ha) (hne _ hb)

/-- The check accepts exactly the ranges any two of which are disjoint or nested, whatever order
the unstable sort leaves equal ranges in. -/
theorem check_input_ranges_exact {ranges : List (Nat × Nat)} (hne : ∀ range ∈ ranges, range.2 ≠ 0) :
    (checkInputRanges ranges = .ok () ↔ ranges.Pairwise Nested) ∧
      ∀ order, SortedOrder ranges order → (scanRanges order [] = .ok () ↔ ranges.Pairwise Nested) := by
  have hscan : ∀ order, SortedOrder ranges order →
      (scanRanges order [] = .ok () ↔ ranges.Pairwise Nested) := by
    intro order h
    rw [scanRanges_iff h.2, h.laminar_iff, pairwise_nested_iff hne]
  refine ⟨hscan _ ⟨List.mergeSort_perm _ _, ?_⟩, hscan⟩
  exact List.pairwise_mergeSort rangeBefore_trans rangeBefore_total _

/-- Two fields of a bus, listed before the bus. -/
theorem check_input_ranges_exact_example :
    checkInputRanges [(1, 1), (2, 1), (1, 2)] = .ok () ↔ [(1, 1), (2, 1), (1, 2)].Pairwise Nested :=
  (check_input_ranges_exact (by decide)).1

end Curvy.Witness
