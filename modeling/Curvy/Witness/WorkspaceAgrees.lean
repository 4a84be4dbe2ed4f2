import Curvy.Witness.Workspace

/-!
# Evaluation in place

On vectors without elements both evaluators leave in the assignment what the plain calls return,
and stop where these stop.
-/

namespace Curvy.Witness

set_option autoImplicit false

open WitnessVectors (Evaluation setValues setAssignment checkOne)

theorem stopping_chain {ε α β : Type} (x : Option (Except ε α)) (f : α → Option (Except ε β)) :
    stopping (Outcome.chain x f) = stopping x >>= fun a => stopping (f a) := by
  cases x with
  | none => rfl
  | some r =>
    cases r with
    | error e => rfl
    | ok a => rfl

theorem stopping_some {ε α : Type} (x : Except ε α) : stopping (some x) = x.mapError .error := by
  cases x with
  | error e => rfl
  | ok a => rfl

theorem mapError_bind {ε ε' α β : Type} (x : Except ε α) (f : α → Except ε β) (h : ε → ε') :
    (x >>= f).mapError h = x.mapError h >>= fun a => (f a).mapError h := by
  cases x with
  | error e => rfl
  | ok a => rfl

/-- The assignment whose first element was checked, as the last step of a plain call. -/
theorem checkOne_follows (s : WitnessVectors) :
    Work.Follows s checkOne
      (if s.assignment.head? ≠ some 1 then .error (.error .invalidAssignmentOne)
        else .ok s.assignment) fun b _ t => t.assignment = b := by
  unfold checkOne Work.refuse Panic.refuse
  apply Work.Follows.get
  split
  · exact .inl ⟨_, rfl, rfl⟩
  · exact .inr ⟨_, _, rfl, rfl, rfl⟩

/-! ## The graph evaluator -/

namespace WitnessGraph

theorem pushNodes_follows (inputs : List Fr) (nodes : List Node) (index : Nat) (values : List Fr) :
    Work.Follows ⟨values, []⟩ (pushNodes inputs nodes index)
      (stopping (evaluateNodes inputs nodes index values)) fun b _ t => t = ⟨b, []⟩ := by
  induction nodes generalizing index values with
  | nil => exact Work.Follows.pure rfl
  | cons node nodes ih =>
    rw [evaluateNodes, stopping_chain]
    apply Work.Follows.get
    apply Work.Follows.lift
    intro value
    exact ih (index + 1) (values ++ [value])

theorem extendAssignment_follows (signals : List Nat) (values assignment : List Fr) :
    Work.Follows ⟨values, assignment⟩ (extendAssignment signals)
      (Panic.expect (signals.mapM fun index => values[index]?))
      fun b _ t => t.assignment = assignment ++ b := by
  induction signals generalizing assignment with
  | nil => exact Work.Follows.pure (List.append_nil _).symm
  | cons index signals ih =>
    have hsplit : (Panic.expect ((index :: signals).mapM fun index => values[index]?) :
        Except (Stop WitnessError) (List Fr)) =
        Panic.expect values[index]? >>= fun value =>
          Panic.expect (signals.mapM fun index => values[index]?) >>= fun rest =>
            .ok (value :: rest) := by
      rw [List.mapM_cons]
      cases values[index]? with
      | none => rfl
      | some value =>
        cases signals.mapM fun index => values[index]? with
        | none => rfl
        | some rest => rfl
    rw [hsplit]
    apply Work.Follows.get
    apply Work.Follows.lift
    intro value
    apply Work.Follows.modify
    apply Work.Follows.map (ih (assignment ++ [value]))
    intro rest _ t ht
    rw [ht, List.append_assoc, List.singleton_append]

theorem calculateInPlace_follows (g : WitnessGraph) (serde : SerdeJson) (json : String) :
    Work.Follows .empty (g.calculateInPlace serde json) (stopping (g.calculateJson serde json))
      fun b _ t => t.assignment = b := by
  unfold calculateInPlace calculateJson
  rw [stopping_chain]
  apply Work.Follows.lift
  intro inputs
  rw [stopping_chain]
  apply Work.Follows.bind (pushNodes_follows inputs g.nodes 0 [])
  intro values _ s hs
  subst hs
  have hend : stopping (do
      let assignment ← g.signals.mapM fun index => values[index]?
      if assignment.head? ≠ some 1 then some (.error .invalidAssignmentOne)
      else some (.ok assignment)) =
      (Panic.expect (g.signals.mapM fun index => values[index]?) :
          Except (Stop WitnessError) (List Fr)) >>= fun assignment =>
        if assignment.head? ≠ some 1 then .error (.error .invalidAssignmentOne)
        else .ok assignment := by
    cases g.signals.mapM fun index => values[index]? with
    | none => rfl
    | some assignment =>
      by_cases hone : assignment.head? ≠ some 1
      · simp only [Option.bind_eq_bind, Option.bind_some, if_pos hone]
        exact (if_pos hone).symm
      · simp only [Option.bind_eq_bind, Option.bind_some, if_neg hone]
        exact (if_neg hone).symm
  rw [hend]
  apply Work.Follows.bind (extendAssignment_follows g.signals values [])
  intro assignment _ t ht
  rw [List.nil_append] at ht
  rw [← ht]
  exact checkOne_follows t

end WitnessGraph

/-! ## The SAGE evaluator -/

namespace SageGraph

open Sage

theorem writeOutputsInto_follows (index : Nat) (value : Fr) (pending : List OutputWrite)
    (values assignment : List Fr) :
    Work.Follows ⟨values, assignment⟩ (writeOutputsInto index value pending)
      ((writeOutputs index value pending assignment).mapError .error)
      fun b rest t => rest = b.1 ∧ t = ⟨values, b.2⟩ := by
  induction pending generalizing assignment with
  | nil => exact Work.Follows.pure ⟨rfl, rfl⟩
  | cons output outputs ih =>
    unfold writeOutputsInto writeOutputs
    by_cases hnode : output.node = index
    · rw [if_pos hnode, if_pos hnode, mapError_bind]
      apply Work.Follows.get
      apply Work.Follows.lift
      intro next
      exact ih next
    · rw [if_neg hnode, if_neg hnode]
      exact Work.Follows.pure ⟨rfl, rfl⟩

theorem execute_mapError (constants inputs : List Fr) (index : Nat) (r : Run)
    (instruction : Instruction) :
    (execute constants inputs index r instruction).mapError Stop.error =
      (instructionValue constants inputs index r.values instruction).mapError Stop.error >>=
        fun value => (setAt r.values instruction.destination value "destination").mapError Stop.error
          >>= fun values => (writeOutputs index value r.pending r.assignment).mapError Stop.error
            >>= fun w => .ok ⟨values, w.2, w.1⟩ := by
  unfold execute
  rw [mapError_bind]
  congr 1
  funext value
  rw [mapError_bind]
  congr 1
  funext values
  rw [mapError_bind]
  rfl

theorem executeInto_follows (constants inputs : List Fr) (instructions : List Instruction)
    (index : Nat) (r : Run) :
    Work.Follows ⟨r.values, r.assignment⟩
      (executeInto constants inputs instructions index r.pending)
      ((executeAll constants inputs instructions index r).mapError .error)
      fun b rest t => rest = b.pending ∧ t = ⟨b.values, b.assignment⟩ := by
  induction instructions generalizing index r with
  | nil => exact Work.Follows.pure ⟨rfl, rfl⟩
  | cons instruction instructions ih =>
    unfold executeInto executeAll
    rw [mapError_bind, execute_mapError, bind_assoc]
    apply Work.Follows.get
    apply Work.Follows.lift
    intro value
    rw [bind_assoc]
    apply Work.Follows.lift
    intro values
    rw [bind_assoc]
    apply Work.Follows.modify
    apply Work.Follows.bind (writeOutputsInto_follows index value r.pending values r.assignment)
    intro w rest t hw
    obtain ⟨hrest, ht⟩ := hw
    subst hrest ht
    exact ih (index + 1) ⟨values, w.2, w.1⟩

theorem calculateInPlace_follows (g : SageGraph) (serde : SerdeJson) (json : String) :
    Work.Follows .empty (g.calculateInPlace serde json) (stopping (g.calculateJson serde json))
      fun b _ t => t.assignment = b := by
  unfold calculateInPlace calculateJson
  rw [stopping_chain]
  apply Work.Follows.lift
  intro inputs
  dsimp only
  rw [stopping_some, mapError_bind]
  apply Work.Follows.get
  apply Work.Follows.modify
  apply Work.Follows.modify
  have hstart : setAssignment (Buffer.resize [] g.signalCount 0)
      (setValues (Buffer.resize [] g.slots 0) .empty) =
      ⟨List.replicate g.slots 0, List.replicate g.signalCount 0⟩ := by
    unfold setAssignment setValues
    rw [Buffer.resize_nil, Buffer.resize_nil]
  change Work.Follows (setAssignment (Buffer.resize [] g.signalCount 0)
    (setValues (Buffer.resize [] g.slots 0) .empty)) _ _ _
  rw [hstart]
  apply Work.Follows.bind (executeInto_follows g.constants inputs g.instructions 0
    ⟨List.replicate g.slots 0, List.replicate g.signalCount 0, g.outputs⟩)
  intro r pending t hr
  obtain ⟨hpending, ht⟩ := hr
  subst hpending ht
  unfold finish Work.refuse Panic.refuse
  by_cases hleft : r.pending ≠ []
  · rw [if_pos hleft, if_pos hleft]
    exact .inl ⟨_, rfl, rfl⟩
  · rw [if_neg hleft, if_neg hleft]
    have hcheck := checkOne_follows ⟨r.values, r.assignment⟩
    by_cases hone : r.assignment.head? ≠ some 1
    · rw [if_pos hone] at hcheck ⊢
      exact hcheck
    · rw [if_neg hone] at hcheck ⊢
      exact hcheck

end SageGraph

end Curvy.Witness
