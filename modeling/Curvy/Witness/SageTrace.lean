import Curvy.Lib.Logged
import Curvy.Witness.SageCompile
import Curvy.Witness.SageProgram

/-!
# What a run of a program touches

The evaluator over buffers that may hold anything, and the same evaluator with a log of the slots
it reads and writes and of the signals it assigns. Without the log the two are one. A log can be
replayed on the buffers, so what it says of a cell is what the cell held.
-/

namespace Curvy.Witness.SageGraph

set_option autoImplicit false

open Sage

/-! ### Evaluation into buffers -/

/-- `Vec::resize` with zeros. -/
def resize (values : List Fr) (length : Nat) : List Fr :=
  values.take length ++ List.replicate (length - values.length) 0

/-- The state before the first instruction, over what the buffers hold. -/
def initialRun (g : SageGraph) (values assignment : List Fr) : Run where
  values := resize values g.slots
  assignment := resize assignment g.signalCount
  pending := g.outputs

def calculateJsonInto (g : SageGraph) (serde : SerdeJson) (json : String)
    (values assignment : List Fr) : Option (Except WitnessError (List Fr)) :=
  Outcome.chain (buildInputBuffer serde g.inputMapping g.inputBufferLen json g.limits) fun inputs =>
    some (do finish (← executeAll g.constants inputs g.instructions 0
      (g.initialRun values assignment)))

@[simp] theorem resize_length (values : List Fr) (length : Nat) :
    (resize values length).length = length := by
  simp only [resize, List.length_append, List.length_take, List.length_replicate]
  omega

theorem calculateJson_eq_into (g : SageGraph) (serde : SerdeJson) (json : String) :
    g.calculateJson serde json = g.calculateJsonInto serde json [] [] := by
  simp [calculateJson, calculateJsonInto, initialRun, resize]

/-! ### The evaluator with a log -/

/-- A value read from a slot, written to a slot or assigned to a signal. -/
inductive Access where
  | read (slot : Nat) (value : Fr)
  | write (slot : Nat) (value : Fr)
  | assign (signal : Nat) (value : Fr)
  deriving DecidableEq

abbrev Noted (α : Type) := Logged Access WitnessError α

def readSlot (values : List Fr) (slot : Nat) (what : String) : Noted Fr := do
  let value ← .call (getAt values slot what)
  .note (.read slot value)
  return value

def writeSlot (values : List Fr) (slot : Nat) (value : Fr) (what : String) : Noted (List Fr) := do
  let values ← .call (setAt values slot value what)
  .note (.write slot value)
  return values

def assignSignal (assignment : List Fr) (signal : Nat) (value : Fr) (what : String) :
    Noted (List Fr) := do
  let assignment ← .call (setAt assignment signal value what)
  .note (.assign signal value)
  return assignment

def instructionValueNoted (constants inputs : List Fr) (index : Nat) (values : List Fr)
    (instruction : Instruction) : Noted Fr :=
  match instruction.kind with
  | .input => .call (getAt inputs instruction.left "input")
  | .constant => .call (getAt constants instruction.left "constant")
  | .inverse => do
    return (Fr.inverse (← readSlot values instruction.left "inverse source")).getD 0
  | .operation operation => do
    let left ← readSlot values instruction.left "left source"
    let right ← readSlot values instruction.right "right source"
    .call (operation.evaluate index left right)

def writeOutputsNoted (index : Nat) (value : Fr) :
    List OutputWrite → List Fr → Noted (List OutputWrite × List Fr)
  | [], assignment => return ([], assignment)
  | output :: outputs, assignment =>
    if output.node = index then do
      let assignment ← assignSignal assignment output.signal value "output signal"
      writeOutputsNoted index value outputs assignment
    else return (output :: outputs, assignment)

def executeNoted (constants inputs : List Fr) (index : Nat) (s : Run) (instruction : Instruction) :
    Noted Run := do
  let value ← instructionValueNoted constants inputs index s.values instruction
  let values ← writeSlot s.values instruction.destination value "destination"
  let (pending, assignment) ← writeOutputsNoted index value s.pending s.assignment
  return { values, assignment, pending }

def executeAllNoted (constants inputs : List Fr) : List Instruction → Nat → Run → Noted Run
  | [], _, s => return s
  | instruction :: instructions, index, s => do
    let s ← executeNoted constants inputs index s instruction
    executeAllNoted constants inputs instructions (index + 1) s

def calculateJsonNoted (g : SageGraph) (serde : SerdeJson) (json : String)
    (values assignment : List Fr) : Option (Noted (List Fr)) :=
  (buildInputBuffer serde g.inputMapping g.inputBufferLen json g.limits).map fun inputs => do
    let s ← executeAllNoted g.constants (← .call inputs) g.instructions 0
      (g.initialRun values assignment)
    .call (finish s)

section Buffer
variable {g : SageGraph} {serde : SerdeJson} {json : String}

theorem calculateJsonNoted_error {e : WitnessError}
    (h : buildInputBuffer serde g.inputMapping g.inputBufferLen json g.limits = some (.error e))
    (values assignment : List Fr) :
    g.calculateJsonNoted serde json values assignment = some ⟨[], .error e⟩ := by
  rw [calculateJsonNoted, h]
  rfl

theorem calculateJsonNoted_ok {inputs : List Fr}
    (h : buildInputBuffer serde g.inputMapping g.inputBufferLen json g.limits = some (.ok inputs))
    (values assignment : List Fr) : g.calculateJsonNoted serde json values assignment =
      some (executeAllNoted g.constants inputs g.instructions 0 (g.initialRun values assignment) >>=
        fun s => .call (finish s)) := by
  rw [calculateJsonNoted, h]
  rfl

end Buffer

/-! ### Without the log -/

section Erasure
variable {constants inputs : List Fr} {index : Nat}

theorem readSlot_result (values : List Fr) (slot : Nat) (what : String) :
    (readSlot values slot what).result = getAt values slot what := by
  rw [readSlot, Logged.result_bind, Logged.result_call]
  cases getAt values slot what <;> rfl

theorem writeSlot_result (values : List Fr) (slot : Nat) (value : Fr) (what : String) :
    (writeSlot values slot value what).result = setAt values slot value what := by
  rw [writeSlot, Logged.result_bind, Logged.result_call]
  cases setAt values slot value what <;> rfl

theorem assignSignal_result (assignment : List Fr) (signal : Nat) (value : Fr) (what : String) :
    (assignSignal assignment signal value what).result = setAt assignment signal value what := by
  rw [assignSignal, Logged.result_bind, Logged.result_call]
  cases setAt assignment signal value what <;> rfl

theorem instructionValueNoted_result (values : List Fr) (instruction : Instruction) :
    (instructionValueNoted constants inputs index values instruction).result =
      instructionValue constants inputs index values instruction := by
  obtain ⟨left, right, destination, kind⟩ := instruction
  cases kind with
  | input => rfl
  | constant => rfl
  | inverse => exact Logged.result_bind.trans (congrArg (· >>= _) (readSlot_result _ _ _))
  | operation operation =>
    refine Logged.result_bind.trans ?_
    rw [readSlot_result]
    refine congrArg (getAt values left "left source" >>= ·) (funext fun leftValue => ?_)
    exact Logged.result_bind.trans (congrArg (· >>= _) (readSlot_result _ _ _))

theorem writeOutputsNoted_result (value : Fr) (pending : List OutputWrite) (assignment : List Fr) :
    (writeOutputsNoted index value pending assignment).result =
      writeOutputs index value pending assignment := by
  induction pending generalizing assignment with
  | nil => rfl
  | cons output pending ih =>
    rw [writeOutputsNoted, writeOutputs]
    split
    · rw [Logged.result_bind, assignSignal_result]
      exact congrArg (setAt assignment output.signal value "output signal" >>= ·) (funext ih)
    · rfl

theorem executeNoted_result (s : Run) (instruction : Instruction) :
    (executeNoted constants inputs index s instruction).result =
      execute constants inputs index s instruction := by
  rw [executeNoted, Logged.result_bind, instructionValueNoted_result]
  refine congrArg (instructionValue constants inputs index s.values instruction >>= ·)
    (funext fun value => ?_)
  rw [Logged.result_bind, writeSlot_result]
  refine congrArg (setAt s.values instruction.destination value "destination" >>= ·)
    (funext fun values => ?_)
  rw [Logged.result_bind, writeOutputsNoted_result]
  rfl

theorem executeAllNoted_result (instructions : List Instruction) (s : Run) :
    (executeAllNoted constants inputs instructions index s).result =
      executeAll constants inputs instructions index s := by
  induction instructions generalizing index s with
  | nil => rfl
  | cons instruction instructions ih =>
    rw [executeAllNoted, executeAll, Logged.result_bind, executeNoted_result]
    exact congrArg (execute constants inputs index s instruction >>= ·) (funext fun t => ih t)

/-- The evaluator with a log is the evaluator. -/
theorem calculateJsonNoted_result (g : SageGraph) (serde : SerdeJson) (json : String)
    (values assignment : List Fr) :
    (g.calculateJsonNoted serde json values assignment).map Logged.result =
      g.calculateJsonInto serde json values assignment := by
  rw [calculateJsonInto]
  cases hbuffer : buildInputBuffer serde g.inputMapping g.inputBufferLen json g.limits with
  | none =>
    rw [calculateJsonNoted, hbuffer]
    rfl
  | some inputs =>
    cases inputs with
    | error e =>
      rw [calculateJsonNoted_error hbuffer]
      rfl
    | ok inputs =>
      rw [calculateJsonNoted_ok hbuffer]
      refine congrArg some (Logged.result_bind.trans ?_)
      rw [executeAllNoted_result]
      rfl

end Erasure

/-! ### Replay -/

structure Buffers where
  values : List Fr
  assignment : List Fr

def Run.buffers (s : Run) : Buffers := ⟨s.values, s.assignment⟩

/-- What an access does to the buffers; a read is refused where the slot holds another value. -/
def Access.apply (m : Buffers) : Access → Option Buffers
  | .read slot value => if m.values[slot]? = some value then some m else none
  | .write slot value => (m.values.put slot value).map fun values => { m with values }
  | .assign signal value => (m.assignment.put signal value).map fun assignment => { m with assignment }

section Replay
variable {constants inputs values assignment : List Fr} {index slot : Nat} {value : Fr}

theorem call_replays {α : Type} (x : Except WitnessError α) (m : Buffers) :
    (.call x : Noted α).Replays Access.apply m fun _ => m := .call fun _ _ => rfl

theorem note_replays {m m' : Buffers} {access : Access} (h : access.apply m = some m') :
    (.note access : Noted Unit).Replays Access.apply m fun _ => m' := .note h

theorem readSlot_replays (what : String) :
    (readSlot values slot what).Replays Access.apply ⟨values, assignment⟩
      fun _ => ⟨values, assignment⟩ := by
  refine (call_replays _ _).bind fun value hvalue => ?_
  have hget : values[slot]? = some value := by
    rw [Logged.result_call, getAt] at hvalue
    split at hvalue <;> cases hvalue
    assumption
  have happly : Access.apply ⟨values, assignment⟩ (.read slot value) = some ⟨values, assignment⟩ :=
    if_pos hget
  exact (note_replays happly).bind fun _ _ => .pure rfl

theorem setAt_put {α : Type} {l l' : List α} {i : Nat} {a : α} {what : String}
    (h : setAt l i a what = .ok l') : l.put i a = some l' := by
  unfold setAt at h
  split at h <;> cases h
  assumption

theorem writeSlot_replays (what : String) :
    (writeSlot values slot value what).Replays Access.apply ⟨values, assignment⟩
      fun values => ⟨values, assignment⟩ := by
  refine (call_replays _ _).bind fun values' hset => ?_
  have happly : Access.apply ⟨values, assignment⟩ (.write slot value) = some ⟨values', assignment⟩ := by
    rw [Access.apply, setAt_put hset]
    rfl
  exact (note_replays happly).bind fun _ _ => .pure rfl

theorem assignSignal_replays (signal : Nat) (what : String) :
    (assignSignal assignment signal value what).Replays Access.apply ⟨values, assignment⟩
      fun assignment => ⟨values, assignment⟩ := by
  refine (call_replays _ _).bind fun assignment' hset => ?_
  have happly : Access.apply ⟨values, assignment⟩ (.assign signal value) =
      some ⟨values, assignment'⟩ := by
    rw [Access.apply, setAt_put hset]
    rfl
  exact (note_replays happly).bind fun _ _ => .pure rfl

theorem instructionValueNoted_replays (instruction : Instruction) :
    (instructionValueNoted constants inputs index values instruction).Replays Access.apply
      ⟨values, assignment⟩ fun _ => ⟨values, assignment⟩ := by
  obtain ⟨left, right, destination, kind⟩ := instruction
  cases kind with
  | input => exact .call fun _ _ => rfl
  | constant => exact .call fun _ _ => rfl
  | inverse => exact (readSlot_replays _).bind fun _ _ => .pure rfl
  | operation operation =>
    exact (readSlot_replays _).bind fun _ _ => (readSlot_replays _).bind fun _ _ => .call fun _ _ => rfl

theorem writeOutputsNoted_replays (pending : List OutputWrite) :
    (writeOutputsNoted index value pending assignment).Replays Access.apply ⟨values, assignment⟩
      fun r => ⟨values, r.2⟩ := by
  induction pending generalizing assignment with
  | nil => exact .pure rfl
  | cons output pending ih =>
    rw [writeOutputsNoted]
    split
    · exact (assignSignal_replays _ _).bind fun _ _ => ih
    · exact .pure rfl

theorem executeNoted_replays (s : Run) (instruction : Instruction) :
    (executeNoted constants inputs index s instruction).Replays Access.apply s.buffers Run.buffers := by
  refine (instructionValueNoted_replays instruction).bind fun value _ => ?_
  refine (writeSlot_replays _).bind fun values _ => ?_
  exact (writeOutputsNoted_replays s.pending).bind fun _ _ => .pure rfl

/-- The log of a run can be replayed on its buffers. -/
theorem executeAllNoted_replays (instructions : List Instruction) (s : Run) :
    (executeAllNoted constants inputs instructions index s).Replays Access.apply s.buffers
      Run.buffers := by
  induction instructions generalizing index s with
  | nil => exact .pure rfl
  | cons instruction instructions ih => exact (executeNoted_replays s instruction).bind fun t _ => ih t

end Replay

section Cells
variable {log before after : List Access} {m m' : Buffers} {slot signal : Nat} {value : Fr}

theorem apply_read :
    Access.apply m (.read slot value) = some m' ↔ m.values[slot]? = some value ∧ m = m' := by
  rw [Access.apply]
  split
  · exact ⟨fun h => ⟨‹_›, Option.some.inj h⟩, fun h => congrArg some h.2⟩
  · exact ⟨fun h => (by cases h), fun h => absurd h.1 ‹_›⟩

theorem apply_write : Access.apply m (.write slot value) = some m' ↔
    slot < m.values.length ∧ { m with values := m.values.set slot value } = m' := by
  rw [Access.apply, List.put]
  split
  · exact ⟨fun h => ⟨‹_›, Option.some.inj h⟩, fun h => congrArg some h.2⟩
  · exact ⟨fun h => (by cases h), fun h => absurd h.1 ‹_›⟩

theorem apply_assign : Access.apply m (.assign signal value) = some m' ↔
    signal < m.assignment.length ∧ { m with assignment := m.assignment.set signal value } = m' := by
  rw [Access.apply, List.put]
  split
  · exact ⟨fun h => ⟨‹_›, Option.some.inj h⟩, fun h => congrArg some h.2⟩
  · exact ⟨fun h => (by cases h), fun h => absurd h.1 ‹_›⟩

theorem replay_cons {access : Access} : (access :: log).foldlM Access.apply m = some m' ↔
    ∃ m₁, access.apply m = some m₁ ∧ log.foldlM Access.apply m₁ = some m' := by
  rw [List.foldlM_cons]
  exact Option.bind_eq_some_iff

theorem replay_append : (before ++ after).foldlM Access.apply m = some m' ↔
    ∃ m₁, before.foldlM Access.apply m = some m₁ ∧ after.foldlM Access.apply m₁ = some m' := by
  rw [List.foldlM_append]
  exact Option.bind_eq_some_iff

/-- A slot that is not written keeps its value. -/
theorem replay_slot (h : log.foldlM Access.apply m = some m')
    (hlog : ∀ value, .write slot value ∉ log) : m'.values[slot]? = m.values[slot]? := by
  induction log generalizing m with
  | nil => rw [Option.some.inj h]
  | cons access log ih =>
    obtain ⟨m₁, hfirst, hrest⟩ := replay_cons.mp h
    rw [ih hrest fun value hmem => hlog value (List.mem_cons_of_mem _ hmem)]
    cases access with
    | read slot' value => rw [(apply_read.mp hfirst).2]
    | write slot' value =>
      obtain ⟨_, rfl⟩ := apply_write.mp hfirst
      refine List.getElem?_set_ne fun hsame => hlog value ?_
      rw [hsame]
      exact List.mem_cons_self
    | assign signal value =>
      obtain ⟨_, rfl⟩ := apply_assign.mp hfirst
      rfl

/-- A signal that is not assigned keeps its value. -/
theorem replay_signal (h : log.foldlM Access.apply m = some m')
    (hlog : ∀ value, .assign signal value ∉ log) : m'.assignment[signal]? = m.assignment[signal]? := by
  induction log generalizing m with
  | nil => rw [Option.some.inj h]
  | cons access log ih =>
    obtain ⟨m₁, hfirst, hrest⟩ := replay_cons.mp h
    rw [ih hrest fun value hmem => hlog value (List.mem_cons_of_mem _ hmem)]
    cases access with
    | read slot' value => rw [(apply_read.mp hfirst).2]
    | write slot' value =>
      obtain ⟨_, rfl⟩ := apply_write.mp hfirst
      rfl
    | assign signal' value =>
      obtain ⟨_, rfl⟩ := apply_assign.mp hfirst
      refine List.getElem?_set_ne fun hsame => hlog value ?_
      rw [hsame]
      exact List.mem_cons_self

/-- A read behind the last write of its slot reads what was written. -/
theorem replay_read {written : Fr} (h : (before ++ Access.write slot written :: after ++
      [Access.read slot value]).foldlM Access.apply m = some m')
    (hafter : ∀ value, .write slot value ∉ after) : value = written := by
  obtain ⟨m₁, hwrites, hread⟩ := replay_append.mp h
  obtain ⟨m₂, _, hrest⟩ := replay_append.mp hwrites
  obtain ⟨m₃, hwrite, hafter'⟩ := replay_cons.mp hrest
  obtain ⟨hlt, rfl⟩ := apply_write.mp hwrite
  obtain ⟨_, hlast, _⟩ := replay_cons.mp hread
  have hheld := (apply_read.mp hlast).1
  rw [replay_slot hafter' hafter, List.getElem?_set_self hlt] at hheld
  exact (Option.some.inj hheld).symm

/-- A signal holds what was assigned to it last. -/
theorem replay_assigned
    (h : (before ++ Access.assign signal value :: after).foldlM Access.apply m = some m')
    (hafter : ∀ value, .assign signal value ∉ after) : m'.assignment[signal]? = some value := by
  obtain ⟨m₁, _, hrest⟩ := replay_append.mp h
  obtain ⟨m₂, hassign, hafter'⟩ := replay_cons.mp hrest
  obtain ⟨hlt, rfl⟩ := apply_assign.mp hassign
  rw [replay_signal hafter' hafter, List.getElem?_set_self hlt]

end Cells

/-! ### Orders of accesses -/

/-- The signals assigned, in order. -/
def assigned : List Access → List Nat
  | [] => []
  | .assign signal _ :: rest => signal :: assigned rest
  | .read _ _ :: rest => assigned rest
  | .write _ _ :: rest => assigned rest

/-- Every slot read is among those written, here or before. -/
def Follows : Set Nat → List Access → Prop
  | _, [] => True
  | written, .read slot _ :: rest => slot ∈ written ∧ Follows written rest
  | written, .write slot _ :: rest => Follows (insert slot written) rest
  | written, .assign _ _ :: rest => Follows written rest

section Orders
variable {written : Set Nat} {rest : List Access} {slot : Nat} {value : Fr}

theorem follows_reads {slots : List Nat} (held : Nat → Fr) (hslots : ∀ slot ∈ slots, slot ∈ written)
    (h : Follows written rest) :
    Follows written (slots.map (fun slot => .read slot (held slot)) ++ rest) := by
  induction slots with
  | nil => exact h
  | cons slot slots ih =>
    obtain ⟨hslot, hslots⟩ := List.forall_mem_cons.mp hslots
    exact ⟨hslot, ih hslots⟩

theorem follows_assigns (outputs : List OutputWrite) (h : Follows written rest) :
    Follows written (outputs.map (fun output => .assign output.signal value) ++ rest) := by
  induction outputs with
  | nil => exact h
  | cons output outputs ih => exact ih

/-- Before a read its slot was written from the start, or last by some write. -/
theorem Follows.split {before after : List Access}
    (h : Follows written (before ++ .read slot value :: after)) :
    (slot ∈ written ∧ ∀ value, .write slot value ∉ before) ∨
      ∃ earlier last later, before = earlier ++ .write slot last :: later ∧
        ∀ value, .write slot value ∉ later := by
  induction before generalizing written with
  | nil => exact .inl ⟨h.1, fun _ => List.not_mem_nil⟩
  | cons access before ih =>
    have hlater : (∃ earlier last later, before = earlier ++ .write slot last :: later ∧
        ∀ value, .write slot value ∉ later) → ∃ earlier last later,
          access :: before = earlier ++ .write slot last :: later ∧
            ∀ value, .write slot value ∉ later := by
      rintro ⟨earlier, last, later, rfl, hlast⟩
      exact ⟨access :: earlier, last, later, rfl, hlast⟩
    have hcons : ∀ {a : Access}, (∀ value, .write slot value ≠ a) →
        (∀ value, .write slot value ∉ before) → ∀ value, .write slot value ∉ a :: before :=
      fun hne hnone value hmem => (List.mem_cons.mp hmem).elim (hne value) (hnone value)
    cases access with
    | read slot' value' =>
      rcases ih h.2 with ⟨hslot, hnone⟩ | hsplit
      · exact .inl ⟨hslot, hcons (fun _ h => by cases h) hnone⟩
      · exact .inr (hlater hsplit)
    | write slot' value' =>
      rcases ih h with ⟨hslot, hnone⟩ | hsplit
      · by_cases hsame : slot = slot'
        · subst hsame
          exact .inr ⟨[], value', before, rfl, hnone⟩
        · refine .inl ⟨hslot.resolve_left hsame, hcons (fun _ h => ?_) hnone⟩
          exact hsame (Access.write.inj h).1
      · exact .inr (hlater hsplit)
    | assign signal value' =>
      rcases ih h with ⟨hslot, hnone⟩ | hsplit
      · exact .inl ⟨hslot, hcons (fun _ h => by cases h) hnone⟩
      · exact .inr (hlater hsplit)

theorem assigned_append (log rest : List Access) :
    assigned (log ++ rest) = assigned log ++ assigned rest := by
  induction log with
  | nil => rfl
  | cons access log ih =>
    cases access with
    | read slot value => exact ih
    | write slot value => exact ih
    | assign signal value => exact congrArg (signal :: ·) ih

theorem assigned_reads (slots : List Nat) (held : Nat → Fr) :
    assigned (slots.map fun slot => .read slot (held slot)) = [] := by
  induction slots with
  | nil => rfl
  | cons slot slots ih => exact ih

theorem assigned_assigns (outputs : List OutputWrite) (value : Fr) :
    assigned (outputs.map fun output => .assign output.signal value) =
      outputs.map OutputWrite.signal := by
  induction outputs with
  | nil => rfl
  | cons output outputs ih => exact congrArg (output.signal :: ·) ih

theorem mem_assigned {log : List Access} {signal : Nat} :
    signal ∈ assigned log ↔ ∃ value, .assign signal value ∈ log := by
  induction log with
  | nil => simp [assigned]
  | cons access log ih => cases access <;> simp [assigned, ih, exists_or]

end Orders

end Curvy.Witness.SageGraph
