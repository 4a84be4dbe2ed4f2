import Mathlib.Algebra.GroupWithZero.Nat
import Mathlib.Data.List.Basic
import Mathlib.Logic.Function.Basic

/-!
# The handle registry

A call is split where it takes the map lock and where it takes the lock of an object. An
object outlives its map entry for as long as a call refers to it. A body answers with the value
it saw; any other answer is a function of it.
-/

namespace Curvy.Ffi

set_option autoImplicit false

variable {T : Type}

/-- What is done to a value under its lock. -/
inductive Task (T : Type) where
  | shared
  | exclusive (body : T → T)
  | clear (clear : T → T)

/-- The value a task leaves. -/
def Task.left (value : T) : Task T → T
  | .shared => value
  | .exclusive body | .clear body => body value

inductive Reply (T : Type) where
  | handle (handle : Nat)
  | exhausted
  | unknown
  | ran (seen : T)
  | removed (found : Bool)

def Task.reply (value : T) : Task T → Reply T
  | .shared | .exclusive _ => .ran value
  | .clear _ => .removed true

/-- A value behind its lock. -/
structure Object (T : Type) where
  value : T
  locked : Bool

inductive Call (T : Type) where
  | insert (value : T)
  | with (handle : Nat)
  | withMut (handle : Nat) (body : T → T)
  | removeWith (handle : Nat) (clear : T → T)

/-- `remove` clears nothing. -/
def Call.remove (handle : Nat) : Call T := .removeWith handle id

/-- Where a call stands. `inserting` has taken its handle, `awaiting` has its reference,
`holding` has the lock of its object. -/
inductive Stage (T : Type) where
  | insert (value : T)
  | inserting (handle : Nat) (value : T)
  | lookup (handle : Nat) (task : Task T)
  | remove (handle : Nat) (clear : T → T)
  | awaiting (handle object : Nat) (task : Task T)
  | holding (handle object : Nat) (task : Task T)
  | done (reply : Reply T)

def Call.start : Call T → Stage T
  | .insert value => .insert value
  | .with handle => .lookup handle .shared
  | .withMut handle body => .lookup handle (.exclusive body)
  | .removeWith handle clear => .remove handle clear

/-- One registry, with the counter it shares with all others. -/
structure Registry (T : Type) where
  nextHandle : Nat
  entries : Nat → Option Nat
  objects : List (Object T)

namespace Registry

def new : Registry T := ⟨1, fun _ => none, []⟩

/-- `none` when the handles are exhausted. -/
def takeHandle (r : Registry T) : Option (Nat × Registry T) :=
  if r.nextHandle + 1 < 2 ^ 64 then some (r.nextHandle, { r with nextHandle := r.nextHandle + 1 })
  else none

def insert (handle : Nat) (value : T) (r : Registry T) : Registry T :=
  { r with
    entries := Function.update r.entries handle (some r.objects.length)
    objects := r.objects ++ [⟨value, false⟩] }

/-- The map section of a removal. -/
def take (handle : Nat) (r : Registry T) : Registry T :=
  { r with entries := Function.update r.entries handle none }

def setObject (object : Nat) (o : Object T) (r : Registry T) : Registry T :=
  { r with objects := r.objects.set object o }

end Registry

/-- One step of a call; `none` when it is blocked or done. -/
def Stage.advance (r : Registry T) : Stage T → Option (Stage T × Registry T)
  | .insert value =>
    match r.takeHandle with
    | some (handle, r) => some (.inserting handle value, r)
    | none => some (.done .exhausted, r)
  | .inserting handle value => some (.done (.handle handle), r.insert handle value)
  | .lookup handle task =>
    match r.entries handle with
    | some object => some (.awaiting handle object task, r)
    | none => some (.done .unknown, r)
  | .remove handle clear =>
    match r.entries handle with
    | some object => some (.awaiting handle object (.clear clear), r.take handle)
    | none => some (.done (.removed false), r)
  | .awaiting handle object task =>
    match r.objects[object]? with
    | some o =>
      if o.locked then none
      else some (.holding handle object task, r.setObject object { o with locked := true })
    | none => none
  | .holding _ object task =>
    match r.objects[object]? with
    | some o => some (.done (task.reply o.value), r.setObject object ⟨task.left o.value, false⟩)
    | none => none
  | .done _ => none

structure Caller (T : Type) where
  call : Call T
  stage : Stage T

/-- What is seen of a run: a call begins, a removal takes the entry of its handle, a call
returns. -/
inductive Event (T : Type) where
  | called (caller : Nat) (call : Call T)
  | took (caller : Nat) (call : Call T)
  | replied (caller : Nat) (call : Call T) (reply : Reply T)

/-- What is seen of a call that moves on. -/
def Caller.events (i : Nat) (c : Caller T) (stage : Stage T) : List (Event T) :=
  match c.stage, stage with
  | .remove _ _, .awaiting _ _ _ => [.took i c.call]
  | _, .done reply => [.replied i c.call reply]
  | _, _ => []

structure World (T : Type) where
  registry : Registry T
  callers : List (Caller T)

inductive Action (T : Type) where
  | call (call : Call T)
  | advance (caller : Nat)
  | otherRegistry

namespace World

def new : World T := ⟨.new, []⟩

/-- Another registry's insert takes a handle from the same counter. -/
def step (w : World T) : Action T → Option (World T × List (Event T))
  | .call call =>
    some (⟨w.registry, w.callers ++ [⟨call, call.start⟩]⟩, [.called w.callers.length call])
  | .advance i => do
    let c ← w.callers[i]?
    let (stage, registry) ← c.stage.advance w.registry
    some (⟨registry, w.callers.set i { c with stage }⟩, c.events i stage)
  | .otherRegistry => do
    let (_, registry) ← w.registry.takeHandle
    some ({ w with registry }, [])

/-- The runs of `allowed` actions, with what is seen of them. -/
inductive Run (allowed : World T → Action T → Prop) : List (Event T) → World T → Prop where
  | new : Run allowed [] new
  | step {log events : List (Event T)} {w w' : World T} {a : Action T} (h : Run allowed log w)
    (ha : allowed w a) (hstep : w.step a = some (w', events)) : Run allowed (log ++ events) w'

end World

/-! ## What a run shows -/

/-- The task of a call, under its handle. -/
def Call.task : Call T → Option (Nat × Task T)
  | .insert _ => none
  | .with handle => some (handle, .shared)
  | .withMut handle body => some (handle, .exclusive body)
  | .removeWith handle clear => some (handle, .clear clear)

def Call.handle (call : Call T) : Option Nat := call.task.map Prod.fst

/-- What a call on a handle without an entry returns. -/
def Call.missed : Call T → Reply T
  | .removeWith _ _ => .removed false
  | _ => .unknown

/-- The call has run its task. -/
def Reply.finished : Reply T → Bool
  | .ran _ | .removed true => true
  | _ => false

/-- The value under a handle behind an event. -/
def Event.update (handle : Nat) (value : Option T) : Event T → Option T
  | .replied _ (.insert inserted) (.handle given) => if given = handle then some inserted else value
  | .replied _ call reply =>
    match call.task with
    | some (h, task) => if h = handle ∧ reply.finished = true then value.map task.left else value
    | none => value
  | _ => value

/-- A handle read as a cell: what was inserted under it, changed by the tasks that have run. -/
def valueUnder (handle : Nat) (log : List (Event T)) : Option T :=
  log.foldl (Event.update handle) none

def Event.issued : Event T → Option Nat
  | .replied _ (.insert _) (.handle handle) => some handle
  | _ => none

def Event.removed : Event T → Option Nat
  | .replied _ (.removeWith handle _) (.removed true) => some handle
  | _ => none

/-- The handles given, in order. -/
def issued (log : List (Event T)) : List Nat := log.filterMap Event.issued

/-- The handles removed, in order. -/
def removed (log : List (Event T)) : List Nat := log.filterMap Event.removed

/-- The call is inside a body, or a clear step, on the value under the handle. -/
def Caller.runsOn (handle : Nat) (c : Caller T) : Bool :=
  match c.stage with
  | .holding _ _ _ => c.call.handle == some handle
  | _ => false

end Curvy.Ffi
