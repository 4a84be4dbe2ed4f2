import Mathlib.Data.List.Induction

/-!
# Hash chains

A chain absorbs blocks one after another into a state. When the steps it takes are injective
and never lead back to a starting state, its last state names the start and every block.
-/

set_option autoImplicit false

namespace HashChain

variable {State Block : Type}

/-- The steps a chain takes, each from its state and block. -/
def visits (step : State → Block → State) : State → List Block → List (State × Block)
  | _, [] => []
  | s, b :: blocks => (s, b) :: visits step (step s b) blocks

/-- No two of the steps meet, and none leads to a start. -/
structure Unambiguous (step : State → Block → State) (Start : State → Prop)
    (steps : List (State × Block)) : Prop where
  inj : ∀ p ∈ steps, ∀ q ∈ steps, step p.1 p.2 = step q.1 q.2 → p = q
  fresh : ∀ p ∈ steps, ¬ Start (step p.1 p.2)

variable {step : State → Block → State} {Start : State → Prop}

theorem visits_concat (s : State) (blocks : List Block) (b : Block) :
    visits step s (blocks ++ [b]) = visits step s blocks ++ [(blocks.foldl step s, b)] := by
  induction blocks generalizing s with
  | nil => rfl
  | cons c blocks ih => rw [List.cons_append, visits, ih, visits, List.cons_append, List.foldl_cons]

theorem visits_block {s : State}
    {blocks : List Block} {call : State × Block} (h : call ∈ visits step s blocks) :
    call.2 ∈ blocks := by
  induction blocks generalizing s with
  | nil => cases h
  | cons b blocks ih =>
    rcases List.mem_cons.mp h with rfl | h
    · exact List.mem_cons_self
    · exact List.mem_cons_of_mem _ (ih h)

theorem Unambiguous.subset {steps steps' : List (State × Block)}
    (h : Unambiguous step Start steps) (hsub : ∀ p ∈ steps', p ∈ steps) :
    Unambiguous step Start steps' where
  inj p hp q hq := h.inj p (hsub p hp) q (hsub q hq)
  fresh p hp := h.fresh p (hsub p hp)

/-- Two chains that end in one state are the same chain. -/
theorem Unambiguous.foldl_inj {s s' : State} (hs : Start s) (hs' : Start s')
    {blocks blocks' : List Block}
    (h : Unambiguous step Start (visits step s blocks ++ visits step s' blocks'))
    (heq : blocks.foldl step s = blocks'.foldl step s') : s = s' ∧ blocks = blocks' := by
  induction blocks using List.reverseRecOn generalizing blocks' with
  | nil =>
    cases blocks' using List.reverseRecOn with
    | nil => exact ⟨heq, rfl⟩
    | append_singleton blocks' b' =>
      rw [List.foldl_append] at heq
      change s = step _ b' at heq
      rw [heq] at hs
      exact absurd hs (h.fresh (blocks'.foldl step s', b') (by simp [visits_concat]))
  | append_singleton blocks b ih =>
    have hb : (blocks.foldl step s, b) ∈
        visits step s (blocks ++ [b]) ++ visits step s' blocks' := by
      simp [visits_concat]
    cases blocks' using List.reverseRecOn with
    | nil =>
      rw [List.foldl_append] at heq
      change step _ b = s' at heq
      rw [← heq] at hs'
      exact absurd hs' (h.fresh _ hb)
    | append_singleton blocks' b' =>
      rw [List.foldl_append, List.foldl_append] at heq
      have hb' : (blocks'.foldl step s', b') ∈
          visits step s (blocks ++ [b]) ++ visits step s' (blocks' ++ [b']) := by
        simp [visits_concat]
      obtain ⟨hstate, rfl⟩ := Prod.mk.inj (h.inj _ hb _ hb' heq)
      have hsub : ∀ p ∈ visits step s blocks ++ visits step s' blocks',
          p ∈ visits step s (blocks ++ [b]) ++ visits step s' (blocks' ++ [b]) := by
        intro p hp
        rw [visits_concat, visits_concat]
        rcases List.mem_append.mp hp with hp | hp
        · exact List.mem_append_left _ (List.mem_append_left _ hp)
        · exact List.mem_append_right _ (List.mem_append_left _ hp)
      obtain ⟨rfl, rfl⟩ := ih (h.subset hsub) hstate
      exact ⟨rfl, rfl⟩

end HashChain
