import Curvy.Witness.SageSlots

/-!
# The slot evaluator computes the resident assignment

Both evaluators walk the same nodes. Before round `index` every node still to be read sits
in its slot, and every assignment position of an earlier node already holds its value; the
rest are in the list of pending outputs.
-/

namespace Curvy.Witness

set_option autoImplicit false

open SlotAlloc Sage

namespace SageGraph

/-! ## Assignment writes -/

/-- `pending` lists the outputs of nodes from `lo` on; outputs of nodes below `hi` that are
not listed are in place. -/
structure Outputs (signals : List Nat) (lo hi : Nat) (values : List Fr)
    (pending : List OutputWrite) (assignment : List Fr) : Prop where
  sorted : pending.Pairwise fun a b => a.node ≤ b.node
  later : ∀ o ∈ pending, lo ≤ o.node ∧ signals[o.signal]? = some o.node
  size : assignment.length = signals.length
  covered : ∀ k node, signals[k]? = some node →
    ⟨node, k⟩ ∈ pending ∨ node < hi ∧ assignment[k]? = values[node]?

theorem Outputs.produce {signals : List Nat} {index : Nat} {values : List Fr}
    {pending : List OutputWrite} {assignment : List Fr}
    (h : Outputs signals index index values pending assignment) (hvalues : values.length = index)
    (v : Fr) : Outputs signals index (index + 1) (values ++ [v]) pending assignment where
  sorted := h.sorted
  later := h.later
  size := h.size
  covered := by
    intro k node hk
    rcases h.covered k node hk with hmem | ⟨hlt, hval⟩
    · exact .inl hmem
    · refine .inr ⟨by omega, ?_⟩
      rw [hval, List.getElem?_append_left (by omega)]

theorem writeOutputs_ok {signals : List Nat} {index : Nat} {values : List Fr} {v : Fr}
    (hv : values[index]? = some v) {pending : List OutputWrite} {assignment : List Fr}
    (h : Outputs signals index (index + 1) values pending assignment) :
    ∃ pending' assignment', writeOutputs index v pending assignment = .ok (pending', assignment') ∧
      Outputs signals (index + 1) (index + 1) values pending' assignment' := by
  induction pending generalizing assignment with
  | nil => exact ⟨[], assignment, rfl, h.sorted, fun o ho => (by cases ho), h.size, h.covered⟩
  | cons o pending ih =>
    obtain ⟨hfirst, hsorted⟩ := List.pairwise_cons.mp h.sorted
    obtain ⟨hnode, hsignal⟩ := h.later o (by simp)
    have hlt : o.signal < assignment.length := by
      rw [h.size]
      exact (List.getElem?_eq_some_iff.mp hsignal).1
    by_cases heq : o.node = index
    · rw [heq] at hsignal
      have hset : Outputs signals index (index + 1) values pending (assignment.set o.signal v) := by
        refine ⟨hsorted, fun p hp => h.later p (by simp [hp]), by simpa using h.size, ?_⟩
        intro k node hk
        by_cases hko : k = o.signal
        · rw [hko, hsignal, Option.some.injEq] at hk
          refine .inr ⟨by omega, ?_⟩
          rw [hko, List.getElem?_set_self hlt, ← hk, hv]
        · rcases h.covered k node hk with hmem | hdone
          · rcases List.mem_cons.mp hmem with ho | hmem
            · exact absurd (congrArg OutputWrite.signal ho) hko
            · exact .inl hmem
          · rw [List.getElem?_set_ne (Ne.symm hko)]
            exact .inr hdone
      obtain ⟨pending', assignment', hwrite, hout⟩ := ih hset
      refine ⟨pending', assignment', ?_, hout⟩
      unfold writeOutputs
      rw [if_pos heq, setAt_lt _ _ hlt]
      exact hwrite
    · refine ⟨o :: pending, assignment, by rw [writeOutputs, if_neg heq]; rfl, ?_⟩
      refine ⟨h.sorted, fun p hp => ⟨?_, (h.later p hp).2⟩, h.size, h.covered⟩
      rcases List.mem_cons.mp hp with rfl | hp
      · omega
      · have := hfirst p hp
        omega

/-! ## One instruction -/

/-- The two evaluators before round `index`. -/
structure Simulates (signals : List Nat) (slots : Nat) (lastUse : List Nat) (index : Nat)
    (s : Slots) (values : List Fr) (run : Run) : Prop where
  produced : values.length = index
  size : run.values.length = slots
  holds : Holds (pending (useOf lastUse) index) s.alloc.slotOf (fun x => run.values.getD x 0)
    fun j => values.getD j 0
  outputs : Outputs signals index index values run.pending run.assignment

section Round

variable {signals lastUse : List Nat} {n inputLen slots index : Nat} {s : Slots}
  {values inputs constants : List Fr} {run : Run} {node : Node} {instruction : Instruction}

/-- A pending result is read from its slot as from the array of all results. -/
theorem Simulates.read (h : Simulates signals slots lastUse index s values run)
    (hown : Allocated n index (pending (useOf lastUse) index) s)
    (hslots : s.slotOwner.length ≤ slots) {j : Nat} (hj : j ∈ pending (useOf lastUse) index) :
    ∃ v, values[j]? = some v ∧ ∀ what, getAt run.values (s.alloc.slotOf j) what = .ok v := by
  have hlt : j < values.length := by
    rw [h.produced]
    exact hj.1
  have hslot : s.alloc.slotOf j < run.values.length := by
    rw [h.size]
    exact Nat.lt_of_lt_of_le (hown.owns.owned j hj).1 hslots
  refine ⟨values.getD j 0, by simp [hlt], fun what => ?_⟩
  rw [getAt_lt what 0 hslot]
  exact congrArg _ (h.holds j hj)

theorem instructionValue_eq (h : Simulates signals slots lastUse index s values run)
    (hown : Allocated n index (pending (useOf lastUse) index) s)
    (hslots : s.slotOwner.length ≤ slots) (hinputs : inputs.length = inputLen)
    (hloads : Loads inputLen (pending (useOf lastUse) index) s constants instruction node) :
    ∃ r, WitnessGraph.evaluateNode inputs index values node = some r ∧
      instructionValue constants inputs index run.values instruction = r ∧
      ∀ e, r = .error e → External e := by
  cases node with
  | input i =>
    obtain ⟨hkind, hleft, hi⟩ := hloads
    refine ⟨.ok (inputs.getD i 0), ?_, ?_, fun e he => (by cases he)⟩
    · simp [WitnessGraph.evaluateNode, hinputs, hi]
    · rw [instructionValue, hkind, hleft]
      exact getAt_lt _ 0 (by omega)
  | constant v =>
    obtain ⟨hkind, hconst⟩ := hloads
    refine ⟨.ok v, rfl, ?_, fun e he => (by cases he)⟩
    rw [instructionValue, hkind]
    exact getAt_ok _ hconst
  | operation op left right =>
    obtain ⟨hkind, ⟨hleft, hl⟩, hright, hr⟩ := hloads
    obtain ⟨v, hv, hslot⟩ := h.read hown hslots hleft
    obtain ⟨w, hw, hslot'⟩ := h.read hown hslots hright
    refine ⟨op.evaluate index v w, ?_, ?_, ?_⟩
    · simp [WitnessGraph.evaluateNode, hv, hw]
    · rw [instructionValue, hkind, hl, hr]
      dsimp only
      rw [hslot, Fallible.ok_bind, hslot', Fallible.ok_bind]
    · intro e he
      rcases Operation.evaluate_error he with rfl | rfl <;> rfl
  | inverse source =>
    obtain ⟨hkind, hsource, hl⟩ := hloads
    obtain ⟨v, hv, hslot⟩ := h.read hown hslots hsource
    refine ⟨.ok ((Fr.inverse v).getD 0), ?_, ?_, fun e he => (by cases he)⟩
    · simp [WitnessGraph.evaluateNode, hv]
    · rw [instructionValue, hkind, hl]
      dsimp only
      rw [hslot]
      rfl

/-- One round: the slot write keeps the pending results and the outputs are copied. -/
theorem execute_simulates {s₁ : Slots} (h : Simulates signals slots lastUse index s values run)
    (step : Step n inputLen lastUse index s s₁ node instruction)
    (hslots : s₁.slotOwner.length ≤ slots) {v : Fr}
    (hvalue : instructionValue constants inputs index run.values instruction = .ok v) :
    ∃ run', execute constants inputs index run instruction = .ok run' ∧
      Simulates signals slots lastUse (index + 1) s₁ (values ++ [v]) run' := by
  have hdest : instruction.destination < run.values.length := by
    rw [h.size]
    exact Nat.lt_of_lt_of_le step.destination hslots
  have hlast : (values ++ [v])[index]? = some v := by
    rw [← h.produced]
    simp
  obtain ⟨pending', assignment', hwrite, hout⟩ :=
    writeOutputs_ok hlast (h.outputs.produce h.produced v)
  refine ⟨⟨run.values.set instruction.destination v, assignment', pending'⟩, ?_, ?_⟩
  · unfold execute
    rw [hvalue, Fallible.ok_bind, setAt_lt _ _ hdest, Fallible.ok_bind, hwrite]
    rfl
  · refine ⟨by simp [h.produced], by simpa using h.size, ?_, hout⟩
    have hholds := step.writes _ _ v h.holds
    rw [← getD_set_eq_update _ _ _ hdest] at hholds
    conv at hholds => arg 4; rw [← h.produced, ← getD_append_eq_update]
    exact hholds

end Round

/-! ## The whole program -/

/-- The node evaluation returns `r` and the slot evaluation does the same. -/
inductive Agree (P : List Fr → Run → Prop) :
    Option (Except WitnessError (List Fr)) → Except WitnessError Run → Prop
  | ok {values : List Fr} {run : Run} (h : P values run) : Agree P (some (.ok values)) (.ok run)
  | error {e : WitnessError} (h : External e) : Agree P (some (.error e)) (.error e)

theorem executeAll_agrees {signals lastUse : List Nat} {n inputLen slots : Nat}
    {inputs constants : List Fr} (hinputs : inputs.length = inputLen) {index : Nat} {s t : Slots}
    {nodes : List Node} {instructions : List Instruction}
    (hcompiled : Compiled n inputLen lastUse index s nodes instructions t)
    (hready : Ready n lastUse index s)
    (hconstants : t.constants = constants) (hslots : t.slotOwner.length = slots)
    {values : List Fr} {run : Run} (h : Simulates signals slots lastUse index s values run) :
    Agree (Simulates signals slots lastUse (index + nodes.length) t)
      (WitnessGraph.evaluateNodes inputs nodes index values)
      (executeAll constants inputs instructions index run) := by
  induction hcompiled generalizing values run with
  | nil index s => exact .ok h
  | @cons index s s₁ t node instruction nodes instructions step rest ih =>
    have hminted := rest.minted_le
    have hprefix : s₁.constants <+: constants := hconstants ▸ rest.constants_prefix
    have hloads : Loads inputLen (pending (useOf lastUse) index) s constants instruction node := by
      have := step.loads
      cases node with
      | constant v =>
        refine ⟨this.1, ?_⟩
        obtain ⟨tail, rfl⟩ := hprefix
        rw [List.getElem?_append_left (List.getElem?_eq_some_iff.mp this.2).1]
        exact this.2
      | _ => exact this
    have hminted' := step.minted
    obtain ⟨r, hnode, hinstruction, hexternal⟩ :=
      instructionValue_eq h hready.allocated (by omega) hinputs hloads
    rw [WitnessGraph.evaluateNodes, executeAll, hnode]
    cases r with
    | error e =>
      rw [execute, hinstruction]
      exact .error (hexternal e rfl)
    | ok v =>
      obtain ⟨run', hexecute, hsim⟩ := execute_simulates h step (by omega) hinstruction
      rw [hexecute, Outcome.chain_ok, Fallible.ok_bind, List.length_cons,
        Nat.add_comm nodes.length 1, ← Nat.add_assoc]
      exact ih step.ready hconstants hslots hsim

/-- After the last round every output is in place. -/
theorem Outputs.complete {signals : List Nat} {n : Nat} {values assignment : List Fr}
    {pending : List OutputWrite} (h : Outputs signals n n values pending assignment)
    (hsignals : ∀ node ∈ signals, node < n) :
    pending = [] ∧ (signals.mapM fun index => values[index]?) = some assignment := by
  have hnone : ∀ o, o ∉ pending := by
    intro o ho
    obtain ⟨hle, hsignal⟩ := h.later o ho
    have := hsignals _ (List.mem_of_getElem? hsignal)
    omega
  refine ⟨List.eq_nil_iff_forall_not_mem.mpr hnone, Loop.mapM_some h.size ?_⟩
  intro k node hk
  rcases h.covered k node hk with hmem | ⟨-, hval⟩
  · exact absurd hmem (hnone _)
  · exact hval.symm

end SageGraph

end Curvy.Witness
