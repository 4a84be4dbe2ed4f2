import Mathlib.Algebra.BigOperators.Group.List.Basic
import Mathlib.Logic.Function.Basic

/-!
# Sums by key

What the entries of a list give to each key, and cells that take entries one at a time.
-/

namespace Curvy.KeyedSum

set_option autoImplicit false

variable {κ γ : Type} [DecidableEq κ] [AddCommMonoid γ]

def sumAt (entries : List (κ × γ)) (k : κ) : γ :=
  (entries.map fun e => if e.1 = k then e.2 else 0).sum

@[simp]
theorem sumAt_nil (k : κ) : sumAt ([] : List (κ × γ)) k = 0 := rfl

@[simp]
theorem sumAt_cons (e : κ × γ) (entries : List (κ × γ)) (k : κ) :
    sumAt (e :: entries) k = (if e.1 = k then e.2 else 0) + sumAt entries k := by
  simp [sumAt]

@[simp]
theorem sumAt_append (front back : List (κ × γ)) (k : κ) :
    sumAt (front ++ back) k = sumAt front k + sumAt back k := by
  simp [sumAt]

theorem sumAt_of_not_mem {entries : List (κ × γ)} {k : κ} (h : ∀ e ∈ entries, e.1 ≠ k) :
    sumAt entries k = 0 := by
  apply List.sum_eq_zero
  intro g hg
  obtain ⟨e, he, rfl⟩ := List.mem_map.mp hg
  exact if_neg (h e he)

/-- Cells that take each entry in turn, whatever adding one does to a cell. -/
def takeAll {β ε : Type} (add : β → ε → β) (cells : κ → β) (entries : List (κ × ε)) : κ → β :=
  entries.foldl (fun cells e => Function.update cells e.1 (add (cells e.1) e.2)) cells

/-- Cells whose additions add up hold the sums by key. -/
theorem takeAll_value {β ε : Type} {add : β → ε → β} {Fine : β → Prop} {Taken : ε → Prop}
    {value : β → γ} {weight : ε → γ}
    (hadd : ∀ b e, Fine b → Taken e → Fine (add b e) ∧ value (add b e) = value b + weight e)
    (entries : List (κ × ε)) (htaken : ∀ e ∈ entries, Taken e.2) (cells : κ → β)
    (hcells : ∀ k, Fine (cells k)) (k : κ) :
    Fine (takeAll add cells entries k) ∧ value (takeAll add cells entries k)
      = value (cells k) + sumAt (entries.map fun e => (e.1, weight e.2)) k := by
  induction entries generalizing cells with
  | nil => exact ⟨hcells k, (add_zero _).symm⟩
  | cons e entries ih =>
      have hone := hadd _ _ (hcells e.1) (htaken e List.mem_cons_self)
      have hcells' : ∀ j, Fine (Function.update cells e.1 (add (cells e.1) e.2) j) := by
        intro j
        by_cases hj : j = e.1
        · rw [hj, Function.update_self]
          exact hone.1
        · rw [Function.update_of_ne hj]
          exact hcells j
      obtain ⟨hfine, hvalue⟩ := ih (fun e' he' => htaken e' (List.mem_cons_of_mem _ he')) _ hcells'
      refine ⟨hfine, hvalue.trans ?_⟩
      rw [List.map_cons, sumAt_cons]
      by_cases hk : e.1 = k
      · rw [← hk, Function.update_self, hone.2, if_pos rfl, add_assoc]
      · rw [Function.update_of_ne (Ne.symm hk), if_neg hk, zero_add]

end Curvy.KeyedSum
