import Mathlib.Data.List.AList
import Mathlib.Data.List.Sort

/-!
# Maps with the same lookups

Association lists that differ in the order of their entries only. Their entries are
permutations of each other, and sorting by distinct keys undoes the difference.
-/

set_option autoImplicit false

namespace AList

variable {α : Type} {β : α → Type} [DecidableEq α]

/-- The same lookups, whatever the order of the entries. -/
def Same (s t : AList β) : Prop := ∀ a, t.lookup a = s.lookup a

variable {s t : AList β}

theorem Same.refl (s : AList β) : Same s s := fun _ => rfl

theorem Same.mem (h : Same s t) (a : α) : a ∈ t ↔ a ∈ s := by
  rw [← AList.lookup_isSome, ← AList.lookup_isSome, h a]

theorem Same.perm (h : Same s t) : s.entries.Perm t.entries :=
  List.lookup_ext s.nodupKeys t.nodupKeys fun a b => by
    rw [show t.entries.dlookup a = s.entries.dlookup a from h a]

theorem Same.insert (h : Same s t) (a : α) (b : β a) : Same (s.insert a b) (t.insert a b) := by
  intro a'
  by_cases ha : a' = a
  · subst ha
    rw [AList.lookup_insert, AList.lookup_insert]
  · rw [AList.lookup_insert_ne ha, AList.lookup_insert_ne ha, h a']

theorem Same.erase (h : Same s t) (a : α) : Same (s.erase a) (t.erase a) := by
  intro a'
  by_cases ha : a' = a
  · subst ha
    rw [AList.lookup_erase, AList.lookup_erase]
  · rw [AList.lookup_erase_ne ha, AList.lookup_erase_ne ha, h a']

/-- A map to unit is a set. -/
theorem Same.of_mem {s t : AList fun _ : α => Unit} (h : ∀ a, a ∈ t ↔ a ∈ s) : Same s t := by
  intro a
  have hmem := h a
  rw [← AList.lookup_isSome, ← AList.lookup_isSome] at hmem
  cases hs : s.lookup a with
  | none =>
    rw [hs] at hmem
    exact Option.not_isSome_iff_eq_none.mp (mt hmem.mp (by simp))
  | some u =>
    rw [hs] at hmem
    obtain ⟨v, hv⟩ := Option.isSome_iff_exists.mp (hmem.mpr rfl)
    exact hv

end AList

namespace List

variable {α : Type} {l l' : List α}

/-- Sorting by a key that tells the elements apart forgets the order. -/
theorem mergeSort_key_eq (key : α → Nat) (hperm : l.Perm l')
    (hkey : ∀ a ∈ l, ∀ b ∈ l, key a = key b → a = b) :
    (l.mergeSort fun a b => key a ≤ key b) = l'.mergeSort fun a b => key a ≤ key b := by
  have hsorted : ∀ m : List α, (m.mergeSort fun a b => key a ≤ key b).Pairwise
      fun a b => key a ≤ key b := by
    intro m
    have htrans : ∀ a b c, decide (key a ≤ key b) → decide (key b ≤ key c) →
        decide (key a ≤ key c) := by
      intro a b c hab hbc
      exact decide_eq_true ((of_decide_eq_true hab).trans (of_decide_eq_true hbc))
    have htotal : ∀ a b, decide (key a ≤ key b) || decide (key b ≤ key a) := by
      intro a b
      rw [Bool.or_eq_true, decide_eq_true_eq, decide_eq_true_eq]
      exact Nat.le_total _ _
    exact (List.pairwise_mergeSort htrans htotal m).imp fun h => of_decide_eq_true h
  refine List.Perm.eq_of_pairwise ?_ (hsorted l) (hsorted l')
    (((List.mergeSort_perm l _).trans hperm).trans (List.mergeSort_perm l' _).symm)
  intro a b ha hb hab hba
  rw [List.mem_mergeSort] at ha hb
  exact hkey a ha b (hperm.mem_iff.mpr hb) (Nat.le_antisymm hab hba)

end List
