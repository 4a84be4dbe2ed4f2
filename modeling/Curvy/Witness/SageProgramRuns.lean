import Curvy.Witness.SageProgramExact
import Curvy.Witness.SageTrace

/-!
# Accepted programs run safely

The evaluation buffers may hold anything from an earlier run. A run of an accepted program
reads a slot only after it has written it, and writes every signal once, so nothing of
the buffers reaches the result or the log.
-/

namespace Curvy.Witness.SageGraph

set_option autoImplicit false

open Decoder Sage

/-! ### Assignment writes -/

/-- The outputs of a node at the head of the pending ones. -/
def outputsOf (index : Nat) (pending : List OutputWrite) : List OutputWrite :=
  pending.takeWhile fun output => decide (output.node = index)

/-- The assignment after the outputs have received the value. -/
def assignAll (value : Fr) (outputs : List OutputWrite) (assignment : List Fr) : List Fr :=
  outputs.foldl (fun assignment output => assignment.set output.signal value) assignment

theorem assignAll_length (value : Fr) (outputs : List OutputWrite) (assignment : List Fr) :
    (assignAll value outputs assignment).length = assignment.length := by
  induction outputs generalizing assignment with
  | nil => rfl
  | cons output outputs ih => exact (ih _).trans List.length_set

theorem assignAll_congr {value : Fr} {outputs : List OutputWrite} {assignment assignment' : List Fr}
    (hlength : assignment.length = assignment'.length) {k : Nat}
    (h : k ∉ outputs.map OutputWrite.signal → assignment[k]? = assignment'[k]?) :
    (assignAll value outputs assignment)[k]? = (assignAll value outputs assignment')[k]? := by
  induction outputs generalizing assignment assignment' with
  | nil => exact h (by simp)
  | cons output outputs ih =>
    refine ih (by simpa using hlength) fun hk => ?_
    by_cases hsame : k = output.signal
    · subst hsame
      rw [List.getElem?_set, List.getElem?_set, hlength, if_pos rfl, if_pos rfl]
    · rw [List.getElem?_set_ne (Ne.symm hsame), List.getElem?_set_ne (Ne.symm hsame)]
      apply h
      rw [List.map_cons, List.mem_cons, not_or]
      exact ⟨hsame, hk⟩

theorem readSlot_lt {values : List Fr} {slot : Nat} (what : String) (h : slot < values.length) :
    readSlot values slot what =
      ⟨[.read slot (values.getD slot 0)], .ok (values.getD slot 0)⟩ := by
  rw [readSlot, getAt_lt what 0 h]
  rfl

theorem writeSlot_lt {values : List Fr} {slot : Nat} (value : Fr) (what : String)
    (h : slot < values.length) :
    writeSlot values slot value what = ⟨[.write slot value], .ok (values.set slot value)⟩ := by
  rw [writeSlot, setAt_lt what value h]
  rfl

theorem assignSignal_lt {assignment : List Fr} {signal : Nat} (value : Fr) (what : String)
    (h : signal < assignment.length) : assignSignal assignment signal value what =
      ⟨[.assign signal value], .ok (assignment.set signal value)⟩ := by
  rw [assignSignal, setAt_lt what value h]
  rfl

theorem writeOutputsNoted_eq {index : Nat} {value : Fr} {pending : List OutputWrite}
    {assignment : List Fr} (h : ∀ output ∈ pending, output.signal < assignment.length) :
    writeOutputsNoted index value pending assignment =
      ⟨(outputsOf index pending).map fun output => .assign output.signal value,
        .ok (pending.dropWhile fun output => decide (output.node = index),
          assignAll value (outputsOf index pending) assignment)⟩ := by
  induction pending generalizing assignment with
  | nil => rfl
  | cons output pending ih =>
    obtain ⟨hsignal, hpending⟩ := List.forall_mem_cons.mp h
    unfold outputsOf
    by_cases hnode : output.node = index
    · rw [writeOutputsNoted, if_pos hnode, assignSignal_lt _ _ hsignal, Logged.ok_bind,
        ih fun o ho => by simpa using hpending o ho, List.dropWhile_cons_of_pos (by simpa using hnode),
        List.takeWhile_cons_of_pos (by simpa using hnode)]
      rfl
    · rw [writeOutputsNoted, if_neg hnode, List.dropWhile_cons_of_neg (by simpa using hnode),
        List.takeWhile_cons_of_neg (by simpa using hnode)]
      rfl

/-! ### One instruction -/

/-- What the program guarantees of a run before instruction `index`. -/
structure Held (header : ProgramHeader) (index : Nat) (s : Run) : Prop where
  values : s.values.length = header.slots
  assignment : s.assignment.length = header.signalCount
  sorted : s.pending.Pairwise fun a b => a.node ≤ b.node
  later : ∀ output ∈ s.pending, index ≤ output.node
  signals : ∀ output ∈ s.pending, output.signal < header.signalCount
  nodes : ∀ output ∈ s.pending, output.node < header.instructionCount

/-- Two runs that differ at most in what their buffers held before. -/
structure Alike (header : ProgramHeader) (defined : List Bool) (s s' : Run) : Prop where
  values : ∀ slot, defined.getD slot false = true → s.values[slot]? = s'.values[slot]?
  pending : s.pending = s'.pending
  assignment : ∀ k, k ∉ s.pending.map OutputWrite.signal → k < header.signalCount →
    s.assignment[k]? = s'.assignment[k]?

section Round

variable {header : ProgramHeader} {check check' : ProgramCheck} {instruction : Instruction}
  {constants inputs : List Fr} {index : Nat} {s s' : Run}

theorem getD_congr {values values' : List Fr} {slot : Nat} (h : values[slot]? = values'[slot]?) :
    values.getD slot 0 = values'.getD slot 0 := by
  rw [List.getD_eq_getElem?_getD, h, List.getD_eq_getElem?_getD]

/-- What an instruction reads, in order. -/
def readsOf (values : List Fr) (instruction : Instruction) : List Access :=
  (Instruction.operands instruction).map fun slot => .read slot (values.getD slot 0)

/-- What an instruction computes from the values. -/
def valueOf (constants inputs : List Fr) (index : Nat) (values : List Fr) (instruction : Instruction) :
    Except WitnessError Fr :=
  match instruction.kind with
  | .input => .ok (inputs.getD instruction.left 0)
  | .constant => .ok (constants.getD instruction.left 0)
  | .inverse => .ok ((Fr.inverse (values.getD instruction.left 0)).getD 0)
  | .operation operation =>
    operation.evaluate index (values.getD instruction.left 0) (values.getD instruction.right 0)

theorem instructionValueNoted_eq (h : Admits header check instruction check')
    (hconstants : constants.length = header.constantCount)
    (hinputs : inputs.length = header.inputBufferLen) (hs : Held header index s) :
    instructionValueNoted constants inputs index s.values instruction =
      ⟨readsOf s.values instruction, valueOf constants inputs index s.values instruction⟩ := by
  have hfit := h.operands
  have hvalues := hs.values
  obtain ⟨left, right, destination, kind⟩ := instruction
  cases kind with
  | input =>
    have hget : getAt inputs left "input" = .ok (inputs.getD left 0) :=
      getAt_lt _ _ (hinputs ▸ hfit.1)
    rw [valueOf, ← hget]
    rfl
  | constant =>
    have hget : getAt constants left "constant" = .ok (constants.getD left 0) :=
      getAt_lt _ _ (hconstants ▸ hfit.1)
    rw [valueOf, ← hget]
    rfl
  | inverse =>
    rw [instructionValueNoted]
    dsimp only
    rw [readSlot_lt _ (hvalues ▸ hfit.1), Logged.ok_bind]
    rfl
  | operation operation =>
    rw [instructionValueNoted]
    dsimp only
    rw [readSlot_lt _ (hvalues ▸ hfit.1), Logged.ok_bind, readSlot_lt _ (hvalues ▸ hfit.2),
      Logged.ok_bind]
    rfl

theorem readsOf_congr {values values' : List Fr}
    (h : ∀ slot ∈ Instruction.operands instruction, values.getD slot 0 = values'.getD slot 0) :
    readsOf values instruction = readsOf values' instruction :=
  List.map_congr_left fun slot hslot => congrArg (Access.read slot) (h slot hslot)

theorem valueOf_congr {values values' : List Fr}
    (h : ∀ slot ∈ Instruction.operands instruction, values.getD slot 0 = values'.getD slot 0) :
    valueOf constants inputs index values instruction =
      valueOf constants inputs index values' instruction := by
  obtain ⟨left, right, destination, kind⟩ := instruction
  cases kind with
  | input | constant => rfl
  | inverse =>
    rw [valueOf, valueOf]
    dsimp only
    rw [h left (by simp [Instruction.operands])]
  | operation operation =>
    rw [valueOf, valueOf]
    dsimp only
    rw [h left (by simp [Instruction.operands]), h right (by simp [Instruction.operands])]

theorem valueOf_external {values : List Fr} {e : WitnessError}
    (h : valueOf constants inputs index values instruction = .error e) : External e := by
  obtain ⟨left, right, destination, kind⟩ := instruction
  cases kind with
  | input | constant | inverse => cases h
  | operation operation =>
    rcases Operation.evaluate_error h with rfl | rfl
    · rfl
    · rfl

/-- Both runs read the same and compute the same value, or fail alike on account of the input. -/
theorem instructionValueNoted_alike (h : Admits header check instruction check')
    (hconstants : constants.length = header.constantCount)
    (hinputs : inputs.length = header.inputBufferLen) (hs : Held header index s)
    (hs' : Held header index s') (ha : Alike header check.definedSlots s s') : ∃ r,
      instructionValueNoted constants inputs index s.values instruction =
        ⟨readsOf s.values instruction, r⟩ ∧
      instructionValueNoted constants inputs index s'.values instruction =
        ⟨readsOf s.values instruction, r⟩ ∧
      ∀ e, r = .error e → External e := by
  have hsame : ∀ slot ∈ Instruction.operands instruction,
      s.values.getD slot 0 = s'.values.getD slot 0 := fun slot hslot =>
    getD_congr (ha.values slot (h.defined slot hslot))
  refine ⟨_, instructionValueNoted_eq h hconstants hinputs hs, ?_, fun e => valueOf_external⟩
  rw [instructionValueNoted_eq h hconstants hinputs hs', readsOf_congr hsame, valueOf_congr hsame]

/-- The state after an instruction has produced the value. -/
def produce (index : Nat) (value : Fr) (instruction : Instruction) (s : Run) : Run where
  values := s.values.set instruction.destination value
  assignment := assignAll value (outputsOf index s.pending) s.assignment
  pending := s.pending.dropWhile fun output => decide (output.node = index)

/-- What an instruction writes and assigns, in order. -/
def writesOf (index : Nat) (value : Fr) (instruction : Instruction) (pending : List OutputWrite) :
    List Access :=
  .write instruction.destination value ::
    (outputsOf index pending).map fun output => .assign output.signal value

theorem executeNoted_error {log : List Access} {e : WitnessError}
    (h : instructionValueNoted constants inputs index s.values instruction = ⟨log, .error e⟩) :
    executeNoted constants inputs index s instruction = ⟨log, .error e⟩ := by
  rw [executeNoted, h, Logged.error_bind]

theorem executeNoted_ok (hdestination : instruction.destination < header.slots)
    (hs : Held header index s) {log : List Access} {value : Fr}
    (h : instructionValueNoted constants inputs index s.values instruction = ⟨log, .ok value⟩) :
    executeNoted constants inputs index s instruction =
      ⟨log ++ writesOf index value instruction s.pending,
        .ok (produce index value instruction s)⟩ := by
  have hsignals : ∀ output ∈ s.pending, output.signal < s.assignment.length := by
    rw [hs.assignment]
    exact hs.signals
  rw [executeNoted, h, Logged.ok_bind, writeSlot_lt _ _ (by rw [hs.values]; exact hdestination),
    Logged.ok_bind, writeOutputsNoted_eq hsignals, Logged.ok_bind]
  have hnil : ∀ (a : Run), (pure a : Noted Run).log = [] := fun _ => rfl
  rw [hnil, List.append_nil]
  rfl

/-- What is left pending belongs to later nodes. -/
theorem Held.produce (hs : Held header index s) (value : Fr) (instruction : Instruction) :
    Held header (index + 1) (produce index value instruction s) where
  values := List.length_set.trans hs.values
  assignment := (assignAll_length _ _ _).trans hs.assignment
  sorted := hs.sorted.sublist (List.dropWhile_sublist _)
  signals output houtput := hs.signals output ((List.dropWhile_sublist _).mem houtput)
  nodes output houtput := hs.nodes output ((List.dropWhile_sublist _).mem houtput)
  later := by
    have hsorted := hs.sorted
    have hlater := hs.later
    unfold SageGraph.produce
    dsimp only
    generalize s.pending = pending at hsorted hlater
    induction pending with
    | nil =>
      intro output houtput
      cases houtput
    | cons first pending ih =>
      obtain ⟨hfirst, hsorted⟩ := List.pairwise_cons.mp hsorted
      obtain ⟨hnode, hlater⟩ := List.forall_mem_cons.mp hlater
      by_cases heq : first.node = index
      · rw [List.dropWhile_cons_of_pos (by simpa using heq)]
        exact ih hsorted hlater
      · rw [List.dropWhile_cons_of_neg (by simpa using heq)]
        intro output houtput
        rcases List.mem_cons.mp houtput with rfl | houtput
        · omega
        · have hle := hfirst output houtput
          omega

theorem pending_split (index : Nat) (pending : List OutputWrite) : pending =
    outputsOf index pending ++ pending.dropWhile fun output => decide (output.node = index) :=
  List.takeWhile_append_dropWhile.symm

theorem Alike.produce (h : Admits header check instruction check') (hs : Held header index s)
    (hs' : Held header index s') (ha : Alike header check.definedSlots s s') (value : Fr) :
    Alike header check'.definedSlots (produce index value instruction s)
      (produce index value instruction s') where
  values := by
    intro slot hslot
    unfold SageGraph.produce
    dsimp only
    by_cases hsame : slot = instruction.destination
    · subst hsame
      rw [List.getElem?_set_self (by rw [hs.values]; exact h.slot),
        List.getElem?_set_self (by rw [hs'.values]; exact h.slot)]
    · rw [List.getElem?_set_ne (Ne.symm hsame), List.getElem?_set_ne (Ne.symm hsame)]
      apply ha.values
      rw [h.next] at hslot
      dsimp only at hslot
      rwa [List.getD_eq_getElem?_getD, List.getElem?_set_ne (Ne.symm hsame),
        ← List.getD_eq_getElem?_getD] at hslot
  pending := by
    unfold SageGraph.produce
    rw [ha.pending]
  assignment := by
    intro k hk hlt
    unfold SageGraph.produce at hk ⊢
    dsimp only at hk ⊢
    rw [← ha.pending]
    refine assignAll_congr (hs.assignment.trans hs'.assignment.symm) fun hnotin => ?_
    refine ha.assignment k ?_ hlt
    rw [pending_split index s.pending, List.map_append, List.mem_append, not_or]
    exact ⟨hnotin, hk⟩

end Round

/-! ### Whole runs -/

section Runs

variable {header : ProgramHeader} {constants inputs : List Fr} {instructions : List Instruction}
  {check check' : ProgramCheck} {index : Nat} {s s' : Run}

/-- Both runs keep the same log and end with the same outputs in place, or fail alike. -/
theorem executeAllNoted_alike (h : Threads (Admits header) check instructions check')
    (hconstants : constants.length = header.constantCount)
    (hinputs : inputs.length = header.inputBufferLen) (hs : Held header index s)
    (hs' : Held header index s') (ha : Alike header check.definedSlots s s') : ∃ log,
    (∃ e, External e ∧ executeAllNoted constants inputs instructions index s = ⟨log, .error e⟩ ∧
      executeAllNoted constants inputs instructions index s' = ⟨log, .error e⟩) ∨
    ∃ t t', executeAllNoted constants inputs instructions index s = ⟨log, .ok t⟩ ∧
      executeAllNoted constants inputs instructions index s' = ⟨log, .ok t'⟩ ∧
      Held header (index + instructions.length) t ∧ Held header (index + instructions.length) t' ∧
      Alike header check'.definedSlots t t' := by
  induction h generalizing index s s' with
  | nil => exact ⟨[], .inr ⟨s, s', rfl, rfl, hs, hs', ha⟩⟩
  | @cons check check₁ check' instruction instructions head tail ih =>
    obtain ⟨r, hvalue, hvalue', hexternal⟩ :=
      instructionValueNoted_alike head hconstants hinputs hs hs' ha
    rw [executeAllNoted, executeAllNoted]
    cases r with
    | error e =>
      rw [executeNoted_error hvalue, executeNoted_error hvalue', Logged.error_bind]
      exact ⟨_, .inl ⟨e, hexternal e rfl, rfl, rfl⟩⟩
    | ok value =>
      rw [executeNoted_ok head.slot hs hvalue, executeNoted_ok head.slot hs' hvalue', Logged.ok_bind,
        Logged.ok_bind, ha.pending, List.length_cons, Nat.add_comm instructions.length,
        ← Nat.add_assoc]
      obtain ⟨log, ⟨e, he, hrun, hrun'⟩ | ⟨t, t', hrun, hrun', hrest⟩⟩ :=
        ih (hs.produce value instruction) (hs'.produce value instruction)
          (ha.produce head hs hs' value)
      · rw [hrun, hrun']
        exact ⟨_, .inl ⟨e, he, rfl, rfl⟩⟩
      · rw [hrun, hrun']
        exact ⟨_, .inr ⟨t, t', rfl, rfl, hrest⟩⟩

/-- A slot is read only after it was written. -/
theorem executeAllNoted_follows (h : Threads (Admits header) check instructions check')
    (hconstants : constants.length = header.constantCount)
    (hinputs : inputs.length = header.inputBufferLen) (hs : Held header index s)
    {written : Set Nat}
    (hwritten : ∀ slot, check.definedSlots.getD slot false = true → slot ∈ written) :
    Follows written (executeAllNoted constants inputs instructions index s).log := by
  induction h generalizing index s written with
  | nil => trivial
  | @cons check check₁ check' instruction instructions head tail ih =>
    have hvalue := instructionValueNoted_eq head hconstants hinputs hs
    have hreads : ∀ {rest : List Access}, Follows written rest →
        Follows written (readsOf s.values instruction ++ rest) := fun hrest =>
      follows_reads _ (fun slot hslot => hwritten slot (head.defined slot hslot)) hrest
    rw [executeAllNoted]
    cases hr : valueOf constants inputs index s.values instruction with
    | error e =>
      rw [hr] at hvalue
      rw [executeNoted_error hvalue, Logged.error_bind, ← List.append_nil (readsOf _ _)]
      exact hreads trivial
    | ok value =>
      rw [hr] at hvalue
      rw [executeNoted_ok head.slot hs hvalue, Logged.ok_bind, List.append_assoc]
      refine hreads (follows_assigns _ (ih (hs.produce value instruction) fun slot hslot => ?_))
      rw [head.next] at hslot
      dsimp only at hslot
      by_cases hsame : slot = instruction.destination
      · exact .inl hsame
      · rw [List.getD_eq_getElem?_getD, List.getElem?_set_ne (Ne.symm hsame),
          ← List.getD_eq_getElem?_getD] at hslot
        exact .inr (hwritten slot hslot)

/-- The signals are assigned in the order of the table, all of them by a run that ends. -/
theorem executeAllNoted_assigned (h : Threads (Admits header) check instructions check')
    (hconstants : constants.length = header.constantCount)
    (hinputs : inputs.length = header.inputBufferLen) (hs : Held header index s) :
    ∃ rest, s.pending.map OutputWrite.signal =
      assigned (executeAllNoted constants inputs instructions index s).log ++ rest ∧
      ∀ t, (executeAllNoted constants inputs instructions index s).result = .ok t →
        rest = t.pending.map OutputWrite.signal := by
  induction h generalizing index s with
  | nil =>
    refine ⟨_, rfl, ?_⟩
    rintro t ⟨⟩
    rfl
  | @cons check check₁ check' instruction instructions head tail ih =>
    have hvalue := instructionValueNoted_eq head hconstants hinputs hs
    rw [executeAllNoted]
    cases hr : valueOf constants inputs index s.values instruction with
    | error e =>
      rw [hr] at hvalue
      rw [executeNoted_error hvalue, Logged.error_bind, readsOf, assigned_reads]
      exact ⟨_, rfl, fun t ht => by cases ht⟩
    | ok value =>
      rw [hr] at hvalue
      obtain ⟨rest, hrest, hend⟩ := ih (hs.produce value instruction)
      rw [executeNoted_ok head.slot hs hvalue, Logged.ok_bind]
      refine ⟨rest, ?_, hend⟩
      rw [assigned_append, assigned_append, readsOf, assigned_reads, List.nil_append, List.append_assoc,
        ← hrest, writesOf, assigned, assigned_assigns, ← List.map_append]
      exact congrArg (List.map OutputWrite.signal) (pending_split index s.pending)

/-- After the last instruction nothing is pending. -/
theorem Held.finished (hs : Held header header.instructionCount s) : s.pending = [] := by
  refine List.eq_nil_iff_forall_not_mem.mpr fun output houtput => ?_
  have hlater := hs.later output houtput
  have hnode := hs.nodes output houtput
  omega

end Runs

/-! ### Accepted programs -/

section Accepted

variable {g : SageGraph}

theorem WellFormed.mappingsFit (h : g.WellFormed) : MappingsFit g.inputMapping g.inputBufferLen := by
  obtain ⟨s, hthreads⟩ := h.mappings
  intro m hm
  obtain ⟨_, _, hadmits⟩ := hthreads.of_mem hm
  exact hadmits.within

/-- The output table lists every signal once. -/
theorem WellFormed.output_signals (h : g.WellFormed) :
    (g.outputs.map OutputWrite.signal).Perm (List.range g.signalCount) := by
  obtain ⟨s, hthreads, hall⟩ := h.outputs
  obtain ⟨hnodup, -⟩ := outputs_nodup hthreads List.length_replicate
  obtain ⟨hlength, hseen⟩ := outputs_seen hthreads List.length_replicate
  refine (List.perm_ext_iff_of_nodup hnodup List.nodup_range).mpr fun k => ?_
  rw [List.mem_range]
  constructor
  · intro hk
    obtain ⟨output, houtput, rfl⟩ := List.mem_map.mp hk
    obtain ⟨_, _, hadmits⟩ := hthreads.of_mem houtput
    exact hadmits.signal
  · intro hk
    have hlt : k < s.seenSignals.length := Nat.lt_of_lt_of_eq hk hlength.symm
    have hmarked : s.seenSignals.getD k false = true := by
      rw [List.getD_eq_getElem _ _ hlt]
      exact hall _ (List.getElem_mem hlt)
    rcases (hseen k).mp hmarked with hfalse | hk
    · simp at hfalse
    · exact hk

theorem WellFormed.held (h : g.WellFormed) (values assignment : List Fr) :
    Held g.programHeader 0 (g.initialRun values assignment) := by
  obtain ⟨s, hthreads, -⟩ := h.outputs
  have hadmitted : ∀ output ∈ g.outputs, output.signal < g.signalCount ∧
      output.node < g.instructions.length := by
    intro output houtput
    obtain ⟨_, _, hadmits⟩ := hthreads.of_mem houtput
    exact ⟨hadmits.signal, hadmits.node⟩
  exact {
    values := resize_length _ _
    assignment := resize_length _ _
    sorted := outputs_sorted hthreads
    later := fun _ _ => Nat.zero_le _
    signals := fun output houtput => (hadmitted output houtput).1
    nodes := fun output houtput => (hadmitted output houtput).2 }

/-- Before the first instruction every slot is unwritten and every signal is pending. -/
theorem WellFormed.alike (h : g.WellFormed) (values assignment values' assignment' : List Fr) :
    Alike g.programHeader (List.replicate g.slots false) (g.initialRun values assignment)
      (g.initialRun values' assignment') where
  values slot hslot := by simp at hslot
  pending := rfl
  assignment k hk hlt := by
    refine absurd ?_ hk
    exact h.output_signals.mem_iff.mpr (List.mem_range.mpr hlt)

theorem finish_external {s : Run} (h : s.pending = []) {e : WitnessError}
    (he : finish s = .error e) : External e := by
  unfold finish at he
  rw [if_neg (not_not.mpr h)] at he
  split at he
  · cases he
    rfl
  · cases he

/-- The buffers do not show in the log or the result, and a failure blames the input. -/
theorem WellFormed.independent (h : g.WellFormed) (serde : SerdeJson) (json : String) :
    ∃ log r, (∀ values assignment,
      g.calculateJsonNoted serde json values assignment = some ⟨log, r⟩) ∧
        ∀ e, r = .error e → External e := by
  obtain ⟨inputs, hbuffer, hinputs, hexternal⟩ := buildInputBuffer_returns serde h.mappingsFit
    h.dimensions.inputs_ne json g.limits
  cases inputs with
  | error e => exact ⟨[], .error e, calculateJsonNoted_error hbuffer, hexternal⟩
  | ok inputs =>
    obtain ⟨check, hthreads⟩ := h.instructions
    have halike := fun values assignment => executeAllNoted_alike hthreads rfl (hinputs inputs rfl)
      (h.held [] []) (h.held values assignment) (h.alike [] [] values assignment)
    rcases halike [] [] with ⟨log, ⟨e, he, hrun, -⟩ | ⟨t, _, hrun, -, ht, -, -⟩⟩
    · refine ⟨log, .error e, fun values assignment => ?_, fun e' he' => ?_⟩
      · rw [calculateJsonNoted_ok hbuffer]
        rcases halike values assignment with ⟨_, ⟨_, _, hsame, hrun'⟩ | ⟨_, _, hsame, _⟩⟩
        · cases hrun.symm.trans hsame
          rw [hrun', Logged.error_bind]
        · cases hrun.symm.trans hsame
      · cases he'
        exact he
    · rw [Nat.zero_add] at ht
      refine ⟨log, finish t, fun values assignment => ?_,
        fun e he => finish_external ht.finished he⟩
      rw [calculateJsonNoted_ok hbuffer]
      rcases halike values assignment with ⟨_, ⟨_, _, hsame, _⟩ | ⟨_, t', hsame, hrun', _, ht', ha⟩⟩
      · cases hrun.symm.trans hsame
      · cases hrun.symm.trans hsame
        rw [Nat.zero_add] at ht'
        have hassignment : t.assignment = t'.assignment := by
          refine List.ext_getElem? fun k => ?_
          by_cases hk : k < g.signalCount
          · exact ha.assignment k (by rw [ht.finished]; simp) hk
          · have hshort : t.assignment.length = g.signalCount := ht.assignment
            have hshort' : t'.assignment.length = g.signalCount := ht'.assignment
            rw [List.getElem?_eq_none (by omega), List.getElem?_eq_none (by omega)]
        have hfinish : finish t' = finish t := by
          rw [finish, finish, ht.finished, ht'.finished, hassignment]
        rw [hrun', Logged.ok_bind, hfinish]
        exact congrArg (fun log => some (Logged.mk log _)) (List.append_nil log)

/-- What a log says of a run: a slot that is read was written before, and last with the value
read; no signal is assigned twice; an answer is what was assigned, signal by signal. -/
structure Orderly (signalCount : Nat) (log : List Access) (r : Except WitnessError (List Fr)) :
    Prop where
  reads : ∀ before slot value after, log = before ++ .read slot value :: after →
    ∃ earlier later, before = earlier ++ .write slot value :: later ∧
      ∀ value, .write slot value ∉ later
  once : (assigned log).Nodup
  complete : ∀ answer, r = .ok answer → (assigned log).Perm (List.range signalCount) ∧
    ∀ k value, answer[k]? = some value ↔ .assign k value ∈ log

/-- A log that can be replayed reads what was last written. -/
theorem reads_written {log : List Access} {m m' : Buffers} (hfollows : Follows ∅ log)
    (hreplay : log.foldlM Access.apply m = some m') {before after : List Access} {slot : Nat}
    {value : Fr} (hsplit : log = before ++ .read slot value :: after) :
    ∃ earlier later, before = earlier ++ .write slot value :: later ∧
      ∀ value, .write slot value ∉ later := by
  rw [hsplit] at hfollows
  rcases hfollows.split with ⟨hslot, _⟩ | ⟨earlier, last, later, rfl, hlast⟩
  · exact absurd hslot (Set.notMem_empty slot)
  · rw [hsplit, List.append_cons] at hreplay
    obtain ⟨_, hread, _⟩ := replay_append.mp hreplay
    obtain rfl := replay_read hread hlast
    exact ⟨earlier, later, rfl, hlast⟩

/-- A log that assigns every signal once leaves what it assigned. -/
theorem assigned_values {log : List Access} {m m' : Buffers}
    (hreplay : log.foldlM Access.apply m = some m')
    (hperm : (assigned log).Perm (List.range m'.assignment.length)) (k : Nat) (value : Fr) :
    m'.assignment[k]? = some value ↔ .assign k value ∈ log := by
  have hnodup := hperm.nodup_iff.mpr List.nodup_range
  have hholds : ∀ {value : Fr}, .assign k value ∈ log → m'.assignment[k]? = some value := by
    intro value hmem
    obtain ⟨before, after, rfl⟩ := List.append_of_mem hmem
    refine replay_assigned hreplay fun value' hmem' => ?_
    rw [assigned_append, assigned] at hnodup
    have hfresh := (List.nodup_cons.mp hnodup.of_append_right).1
    exact hfresh (mem_assigned.mpr ⟨value', hmem'⟩)
  refine ⟨fun hget => ?_, hholds⟩
  have hlt := (List.getElem?_eq_some_iff.mp hget).1
  obtain ⟨value', hmem⟩ := mem_assigned.mp (hperm.mem_iff.mpr (List.mem_range.mpr hlt))
  rw [Option.some.inj (hget.symm.trans (hholds hmem))]
  exact hmem

theorem WellFormed.orderly (h : g.WellFormed) {inputs : List Fr}
    (hinputs : inputs.length = g.inputBufferLen) (values assignment : List Fr) :
    let run := executeAllNoted g.constants inputs g.instructions 0 (g.initialRun values assignment)
    Orderly g.signalCount run.log (run.result >>= finish) := by
  intro run
  have hheld := h.held values assignment
  obtain ⟨check, hthreads⟩ := h.instructions
  have hfollows : Follows ∅ run.log := executeAllNoted_follows hthreads rfl hinputs hheld
    fun slot hslot => by simp at hslot
  have hreplays : run.Replays Access.apply (g.initialRun values assignment).buffers Run.buffers :=
    executeAllNoted_replays g.instructions (g.initialRun values assignment)
  obtain ⟨m, hreplay, hafter⟩ := hreplays
  obtain ⟨rest, hassigned, hend⟩ := executeAllNoted_assigned hthreads rfl hinputs hheld
  have hsignals := h.output_signals
  change g.outputs.map OutputWrite.signal = assigned run.log ++ rest at hassigned
  refine ⟨fun before slot value after => reads_written hfollows hreplay, ?_, ?_⟩
  · have hnodup := hsignals.nodup_iff.mpr List.nodup_range
    rw [hassigned] at hnodup
    exact hnodup.of_append_left
  · intro answer hanswer
    obtain ⟨t, ht, hfinish⟩ := Fallible.bind_ok.mp hanswer
    obtain ⟨t', ht', hheld'⟩ : ∃ t, run.result = .ok t ∧ Held g.programHeader g.instructions.length t := by
      rcases executeAllNoted_alike hthreads rfl hinputs hheld hheld
        (h.alike values assignment values assignment) with
        ⟨_, ⟨e, _, hrun, _⟩ | ⟨t', _, hrun, _, hheld', _⟩⟩
      · rw [show run = _ from hrun] at ht
        cases ht
      · rw [Nat.zero_add] at hheld'
        exact ⟨t', congrArg Logged.result hrun, hheld'⟩
    obtain rfl := Except.ok.inj (ht.symm.trans ht')
    have hrest := hend t ht
    have hpending := hheld'.finished
    rw [hpending, List.map_nil] at hrest
    rw [hrest, List.append_nil] at hassigned
    rw [hassigned] at hsignals
    have hlength : t.assignment.length = g.signalCount := hheld'.assignment
    have hvalue : answer = t.assignment := by
      unfold finish at hfinish
      rw [if_neg (not_not.mpr hpending)] at hfinish
      split at hfinish
      · cases hfinish
      · exact (Except.ok.inj hfinish).symm
    refine ⟨hsignals, fun k value => ?_⟩
    have hm : m.assignment = t.assignment := congrArg Buffers.assignment (hafter t ht)
    rw [hvalue, ← hm]
    refine assigned_values hreplay ?_ k value
    rw [hm, hlength]
    exact hsignals

/-- For every input a decoded program keeps the same log and returns the same answer whatever the
buffers hold, and no failure blames the compiler. A slot is read only after it was written, and
with the value written last; no signal is assigned twice and an answer has every signal's value
from its one assignment. -/
theorem decoded_program_runs_safely {declaredSize : Option Nat} {expected : String}
    {limits : Limits} {program : List UInt8}
    (h : decodeProgram declaredSize expected limits program = .ok g) (serde : SerdeJson)
    (json : String) :
    ∃ log r, (∀ values assignment,
        g.calculateJsonNoted serde json values assignment = some ⟨log, r⟩ ∧
        g.calculateJsonInto serde json values assignment = some r) ∧
      (∀ e, r = .error e → e.internal = false) ∧ Orderly g.signalCount log r := by
  have hwf := (decodeProgram_ok.mp h).1
  obtain ⟨log, r, hnoted, hexternal⟩ := hwf.independent serde json
  refine ⟨log, r, fun values assignment => ⟨hnoted values assignment, ?_⟩, hexternal, ?_⟩
  · rw [← calculateJsonNoted_result, hnoted]
    rfl
  · obtain ⟨buffer, hbuffer, hinputs, -⟩ := buildInputBuffer_returns serde hwf.mappingsFit
      hwf.dimensions.inputs_ne json g.limits
    have hrun := hnoted [] []
    cases buffer with
    | error e =>
      rw [calculateJsonNoted_error hbuffer] at hrun
      cases hrun
      exact ⟨fun before slot value after heq => by simp at heq, List.nodup_nil,
        fun answer heq => by cases heq⟩
    | ok inputs =>
      rw [calculateJsonNoted_ok hbuffer] at hrun
      have hboth := Option.some.inj hrun
      have hlog := congrArg Logged.log hboth
      have hresult := congrArg Logged.result hboth
      rw [Logged.log_bind_call] at hlog
      rw [Logged.result_bind] at hresult
      have horderly := hwf.orderly (hinputs inputs rfl) [] []
      dsimp only at horderly hlog
      rw [hlog] at horderly
      exact hresult.subst (motive := fun r => Orderly g.signalCount log r) horderly

end Accepted

/-! ### A program that recycles its slots -/

/-- The sum of an input and a constant takes the constant's slot, and its square, which two signals
receive, the input's. -/
def recycling : SageGraph where
  limits := .client
  instructions := [⟨0, 0, 0, .input⟩, ⟨0, 0, 1, .constant⟩, ⟨0, 1, 1, .operation .add⟩,
    ⟨1, 1, 0, .operation .mul⟩]
  constants := [((3 : ℕ) : Fr)]
  outputs := [⟨0, 0⟩, ⟨2, 1⟩, ⟨3, 2⟩, ⟨3, 3⟩]
  inputMapping := []
  inputBufferLen := 1
  signalCount := 4
  slots := 2
  r1csSha256 := List.replicate 32 0
  sourceGraphSha256 := List.replicate 32 0

theorem recycling_wellFormed : recycling.WellFormed where
  fits := ⟨rfl, rfl, by decide, by decide, by decide, by decide, by decide, by decide, by decide⟩
  dimensions := ⟨by decide, by decide, by decide, by decide, by decide, by decide, by decide,
    by decide, by decide, by decide, by decide, by decide, rfl⟩
  word := by decide
  size := by decide
  instructions := by
    have hinput : Admits recycling.programHeader ⟨0, ⟨0, 32000000⟩, [false, false]⟩
        ⟨0, 0, 0, .input⟩ ⟨1, ⟨1, 32000000⟩, [true, false]⟩ :=
      ⟨by decide, by decide, by decide, by decide, ⟨by decide, rfl⟩, by decide, rfl, rfl⟩
    have hconstant : Admits recycling.programHeader ⟨1, ⟨1, 32000000⟩, [true, false]⟩
        ⟨0, 0, 1, .constant⟩ ⟨2, ⟨2, 32000000⟩, [true, true]⟩ :=
      ⟨by decide, by decide, by decide, by decide, ⟨by decide, rfl⟩, by decide, rfl, rfl⟩
    have hsum : Admits recycling.programHeader ⟨2, ⟨2, 32000000⟩, [true, true]⟩
        ⟨0, 1, 1, .operation .add⟩ ⟨3, ⟨3, 32000000⟩, [true, true]⟩ :=
      ⟨by decide, by decide, by decide, by decide, ⟨by decide, by decide⟩, by decide, rfl, rfl⟩
    have hsquare : Admits recycling.programHeader ⟨3, ⟨3, 32000000⟩, [true, true]⟩
        ⟨1, 1, 0, .operation .mul⟩ ⟨4, ⟨4, 32000000⟩, [true, true]⟩ :=
      ⟨by decide, by decide, by decide, by decide, ⟨by decide, by decide⟩, by decide, rfl, rfl⟩
    exact ⟨_, .cons hinput (.cons hconstant (.cons hsum (.cons hsquare (.nil _))))⟩
  outputs := by
    have hone : AdmitsOutput recycling.programHeader ⟨[false, false, false, false], none⟩ ⟨0, 0⟩
        ⟨[true, false, false, false], some (0, 0)⟩ :=
      ⟨by decide, by decide, by decide, by decide, rfl, fun _ h => (by cases h), rfl⟩
    have hsum : AdmitsOutput recycling.programHeader ⟨[true, false, false, false], some (0, 0)⟩ ⟨2, 1⟩
        ⟨[true, true, false, false], some (2, 1)⟩ :=
      ⟨by decide, by decide, by decide, by decide, rfl, fun _ h => (by cases h; rfl), rfl⟩
    have hsquare : AdmitsOutput recycling.programHeader ⟨[true, true, false, false], some (2, 1)⟩
        ⟨3, 2⟩ ⟨[true, true, true, false], some (3, 2)⟩ :=
      ⟨by decide, by decide, by decide, by decide, rfl, fun _ h => (by cases h; rfl), rfl⟩
    have hagain : AdmitsOutput recycling.programHeader ⟨[true, true, true, false], some (3, 2)⟩
        ⟨3, 3⟩ ⟨[true, true, true, true], some (3, 3)⟩ :=
      ⟨by decide, by decide, by decide, by decide, rfl, fun _ h => (by cases h; rfl), rfl⟩
    exact ⟨_, .cons hone (.cons hsum (.cons hsquare (.cons hagain (.nil _)))), by decide⟩
  mappings := ⟨_, .nil _⟩
  ranges := by simp [recycling, checkInputRanges, scanRanges]

/-- What a run of it touches. -/
def recyclingLog : List Access :=
  [.write 0 1, .assign 0 1, .write 1 (3 : Nat), .read 0 1, .read 1 (3 : Nat), .write 1 (4 : Nat),
    .assign 1 (4 : Nat), .read 1 (4 : Nat), .read 1 (4 : Nat), .write 0 (16 : Nat),
    .assign 2 (16 : Nat), .assign 3 (16 : Nat)]

/-- Whatever the buffers hold, the program keeps this log and answers with what it assigned. -/
theorem decoded_program_runs_safely_example :
    (∀ values assignment,
      recycling.calculateJsonNoted ⟨fun _ => .map [] none, fun _ => .ok ()⟩ "\x7b\x7d" values
          assignment = some ⟨recyclingLog, .ok [1, 4, 16, 16]⟩ ∧
        recycling.calculateJsonInto ⟨fun _ => .map [] none, fun _ => .ok ()⟩ "\x7b\x7d" values
          assignment = some (.ok [1, 4, 16, 16])) ∧
      Orderly 4 recyclingLog (.ok [1, 4, 16, 16]) := by
  have hdecoded : decodeProgram none
      "0000000000000000000000000000000000000000000000000000000000000000" .client recycling.spell =
      .ok recycling := decodeProgram_ok.mpr
    ⟨recycling_wellFormed, rfl, by decide, fun _ hnone => (by cases hnone), rfl⟩
  obtain ⟨log, r, hruns, -, horderly⟩ := decoded_program_runs_safely hdecoded
    ⟨fun _ => .map [] none, fun _ => .ok ()⟩ "\x7b\x7d"
  have hfresh : recycling.calculateJsonNoted ⟨fun _ => .map [] none, fun _ => .ok ()⟩
      "\x7b\x7d" [] [] = some ⟨recyclingLog, .ok [1, 4, 16, 16]⟩ := rfl
  cases hfresh.symm.trans (hruns [] []).1
  exact ⟨hruns, horderly⟩

end Curvy.Witness.SageGraph
