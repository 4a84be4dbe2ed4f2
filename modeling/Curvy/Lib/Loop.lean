import Mathlib.Control.Basic
import Mathlib.Data.List.Basic

/-!
# Counted loops and checked list updates

`for level in 0..n` bodies are folds over `List.range n` in a lawful monad. A body
that always returns normally under an invariant makes the whole loop return normally
with the invariant at `n`. `put` is an indexed assignment that fails out of range.
-/

set_option autoImplicit false

universe u v

namespace Loop

variable {m : Type u → Type v} [Monad m] [LawfulMonad m] {σ : Type u}

/-- Loop rule: `P k` holds before round `k`, and no round leaves the `pure` path. -/
theorem foldlM_range {f : σ → Nat → m σ} {P : Nat → σ → Prop} {n : Nat} {s : σ}
    (init : P 0 s) (round : ∀ k, k < n → ∀ t, P k t → ∃ t', f t k = pure t' ∧ P (k + 1) t') :
    ∃ t, (List.range n).foldlM f s = pure t ∧ P n t := by
  induction n with
  | zero => exact ⟨s, by simp, init⟩
  | succ n ih =>
    obtain ⟨t, ht, hinv⟩ := ih fun k hk => round k (by omega)
    obtain ⟨t', hstep, hinv'⟩ := round n (by omega) t hinv
    exact ⟨t', by simp [List.range_succ, List.foldlM_append, ht, hstep], hinv'⟩

/-- Loop rule over the elements of a list: `P` relates the processed prefix and the state. -/
theorem foldlM_prefix {β : Type u} {f : σ → β → m σ} {P : List β → σ → Prop}
    {l : List β} {s : σ} (init : P [] s)
    (round : ∀ done x rest, l = done ++ x :: rest → ∀ t, P done t →
      ∃ t', f t x = pure t' ∧ P (done ++ [x]) t') :
    ∃ t, l.foldlM f s = pure t ∧ P l t := by
  have go : ∀ rest done t, l = done ++ rest → P done t →
      ∃ t', rest.foldlM f t = pure t' ∧ P l t' := by
    intro rest
    induction rest with
    | nil =>
      intro done t hl hinv
      rw [List.append_nil] at hl
      exact ⟨t, by simp, hl ▸ hinv⟩
    | cons x rest ih =>
      intro done t hl hinv
      obtain ⟨t₁, hstep, hinv₁⟩ := round done x rest hl t hinv
      obtain ⟨t₂, hrest, hinv₂⟩ := ih (done ++ [x]) t₁ (by simp [hl]) hinv₁
      exact ⟨t₂, by simp [hstep, hrest], hinv₂⟩
  exact go l [] s rfl init

end Loop

namespace List

variable {α : Type u}

/-- Indexed assignment; `none` when the index is out of range. -/
def put (l : List α) (i : Nat) (a : α) : Option (List α) :=
  if i < l.length then some (l.set i a) else none

theorem put_of_lt {l : List α} {i : Nat} (hi : i < l.length) (a : α) :
    l.put i a = some (l.set i a) := by simp [put, hi]

/-- The list `f 0, …, f (n - 1)`. -/
def tabulate (n : Nat) (f : Nat → α) : List α := (List.range n).map f

@[simp] theorem tabulate_length (n : Nat) (f : Nat → α) : (tabulate n f).length = n := by
  simp [tabulate]

@[simp] theorem tabulate_getElem {n i : Nat} (f : Nat → α) (hi : i < (tabulate n f).length) :
    (tabulate n f)[i] = f i := by simp [tabulate]

theorem tabulate_getElem? {n i : Nat} (f : Nat → α) (hi : i < n) :
    (tabulate n f)[i]? = some (f i) := by simp [hi]

theorem tabulate_set (n i : Nat) (f : Nat → α) (a : α) :
    (tabulate n f).set i a = tabulate n (Function.update f i a) := by
  apply List.ext_getElem
  · simp
  · intro j _ _
    rw [List.getElem_set, tabulate_getElem, tabulate_getElem, Function.update_apply]
    simp only [eq_comm]

theorem put_tabulate {n i : Nat} (f : Nat → α) (a : α) (hi : i < n) :
    (tabulate n f).put i a = some (tabulate n (Function.update f i a)) := by
  rw [put_of_lt (by simpa using hi), tabulate_set]

theorem tabulate_congr {n : Nat} {f g : Nat → α} (h : ∀ i, i < n → f i = g i) :
    tabulate n f = tabulate n g :=
  List.map_congr_left fun i hi => h i (List.mem_range.mp hi)

theorem tabulate_succ (n : Nat) (f : Nat → α) :
    tabulate (n + 1) f = tabulate n f ++ [f n] := by simp [tabulate, List.range_succ]

theorem tabulate_cons (n : Nat) (f : Nat → α) :
    tabulate (n + 1) f = f 0 :: tabulate n fun i => f (i + 1) := by
  rw [tabulate, range_succ_eq_map, map_cons, map_map]
  rfl

theorem tabulate_add (m n : Nat) (f : Nat → α) :
    tabulate (m + n) f = tabulate m f ++ tabulate n fun i => f (m + i) := by
  rw [tabulate, range_add, map_append, map_map]
  rfl

theorem getD_tabulate {n i : Nat} (f : Nat → α) (h : i < n) (d : α) : (tabulate n f).getD i d = f i := by
  rw [getD_eq_getElem?_getD, tabulate_getElem? f h, Option.getD_some]

theorem take_tabulate {m n : Nat} (h : m ≤ n) (f : Nat → α) :
    (tabulate n f).take m = tabulate m f := by
  rw [tabulate, ← map_take, take_range, Nat.min_eq_left h, tabulate]

theorem drop_tabulate (m n : Nat) (f : Nat → α) :
    (tabulate (m + n) f).drop m = tabulate n fun i => f (m + i) := by
  rw [tabulate_add, drop_left' (tabulate_length m f)]

end List

namespace Loop

variable {m : Type u → Type v} [Monad m] [LawfulMonad m] {α : Type u}

theorem mapM_range {f : Nat → m α} {g : Nat → α} {n : Nat} (h : ∀ i, i < n → f i = pure (g i)) :
    (List.range n).mapM f = pure (List.tabulate n g) := by
  induction n with
  | zero => simp [List.tabulate]
  | succ n ih =>
    rw [List.range_succ, List.mapM_append, ih fun i hi => h i (by omega), List.tabulate_succ]
    simp [h n (by omega)]

/-- A checked map all of whose accesses succeed. -/
theorem mapM_some {β : Type u} {f : β → Option α} {l : List β} {r : List α}
    (hlength : r.length = l.length)
    (h : ∀ (k : Nat) (b : β), l[k]? = some b → f b = r[k]?) : l.mapM f = some r := by
  induction l generalizing r with
  | nil =>
    rw [List.length_nil, List.length_eq_zero_iff] at hlength
    simp [hlength]
  | cons b l ih =>
    obtain ⟨a, r, rfl⟩ := List.exists_cons_of_length_eq_add_one hlength
    rw [List.mapM_cons, h 0 b rfl, ih (by simpa using hlength) fun k c hk => h (k + 1) c hk]
    rfl

end Loop
