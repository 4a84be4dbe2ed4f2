import Mathlib.Data.List.Basic
import Mathlib.Tactic.Common

/-!
# The serial proof queue

Each critical section is one function on the mutex's contents. A thread is a drain or a call of
`close` that has left its section; between sections anything else may run. The history
records what has happened and is never read.
-/

namespace Curvy.Node

set_option autoImplicit false

variable {T C : Type}

inductive Rejection where
  | full
  | closed
  deriving DecidableEq, Repr

structure ThreadPool where
  deriving DecidableEq, Repr

/-- The mutex's contents. -/
structure State (T C : Type) where
  pool : Option ThreadPool
  active : Bool
  closed : Bool
  outstanding : Nat
  waiting : List T
  onRelease : List C

namespace State

def new : State T C := ⟨some ⟨⟩, false, false, 0, [], []⟩

/-- The section of `submit`, with whether it spawned a drain; `none` is a panic. -/
def submit (capacity : Nat) (job : T) (s : State T C) :
    Option (Except (T × Rejection) Bool × State T C) :=
  if s.closed then some (.error (job, .closed), s)
  else if capacity ≤ s.outstanding then some (.error (job, .full), s)
  else
    let s := { s with waiting := s.waiting ++ [job], outstanding := s.outstanding + 1 }
    if s.active then some (.ok false, s)
    else match s.pool with
      | none => none
      | some _ => some (.ok true, { s with active := true })

/-- The section of `close`: registered, or the pool it takes. -/
def close (onRelease : C) (s : State T C) : Option (Option ThreadPool) × State T C :=
  let s := { s with closed := true }
  if s.active then (none, { s with onRelease := s.onRelease ++ [onRelease] })
  else (some s.pool, { s with pool := none })

/-- What a drain's first section finds. -/
inductive Popped (T C : Type) where
  | job (job : T)
  | idle
  | finished (pool : Option ThreadPool) (onRelease : List C)

def pop (s : State T C) : Popped T C × State T C :=
  match s.waiting with
  | job :: waiting => (.job job, { s with waiting })
  | [] =>
    let s := { s with active := false }
    if !s.closed then (.idle, s)
    else (.finished s.pool s.onRelease, { s with pool := none, onRelease := [] })

/-- A drain's second section; `none` is an underflow. -/
def release (s : State T C) : Option (State T C) :=
  match s.outstanding with
  | 0 => none
  | outstanding + 1 => some { s with outstanding }

end State

/-- Where a thread stands, always outside the critical sections. The last two are the ends of
`drain` and of `close` alike. -/
inductive Thread (T C : Type) where
  | pop
  | execute (job : T)
  | release (job : T)
  | complete (job : T)
  | dropPool (pool : Option ThreadPool) (onRelease : List C)
  | releases (onRelease : List C)
  deriving DecidableEq, Repr

/-- What has happened: every submit with its refusal, the jobs that were started, have run,
have freed their capacity and were completed, the callbacks passed to `close` and those run. -/
structure History (T C : Type) where
  calls : List (T × Option Rejection)
  started : List T
  ran : List T
  freed : List T
  completed : List T
  passed : List C
  released : List C
  poolDropped : Bool

namespace History

def acceptedCall : T × Option Rejection → Option T
  | (job, none) => some job
  | (_, some _) => none

def rejectedCall : T × Option Rejection → Option T
  | (_, none) => none
  | (job, some _) => some job

def accepted (h : History T C) : List T := h.calls.filterMap acceptedCall

def rejected (h : History T C) : List T := h.calls.filterMap rejectedCall

end History

structure SerialQueue (T C : Type) where
  state : State T C
  threads : List (Thread T C)
  history : History T C

namespace SerialQueue

def new : SerialQueue T C := ⟨.new, [], ⟨[], [], [], [], [], [], [], false⟩⟩

def submit (capacity : Nat) (job : T) (q : SerialQueue T C) : Option (SerialQueue T C) :=
  (q.state.submit capacity job).map fun
    | (.error (_, rejection), state) =>
      ⟨state, q.threads, { q.history with calls := q.history.calls ++ [(job, some rejection)] }⟩
    | (.ok spawned, state) =>
      ⟨state, if spawned then q.threads ++ [.pop] else q.threads,
        { q.history with calls := q.history.calls ++ [(job, none)] }⟩

def close (onRelease : C) (q : SerialQueue T C) : SerialQueue T C :=
  let history := { q.history with passed := q.history.passed ++ [onRelease] }
  match q.state.close onRelease with
  | (none, state) => ⟨state, q.threads, history⟩
  | (some pool, state) => ⟨state, q.threads ++ [.dropPool pool [onRelease]], history⟩

end SerialQueue

/-- One step of a thread: what it becomes, with the state and the history after it. -/
def Thread.advance (s : State T C) (h : History T C) :
    Thread T C → Option (List (Thread T C) × State T C × History T C)
  | .pop =>
    match s.pop with
    | (.job job, s) => some ([.execute job], s, { h with started := h.started ++ [job] })
    | (.idle, s) => some ([], s, h)
    | (.finished pool onRelease, s) => some ([.dropPool pool onRelease], s, h)
  | .execute job => some ([.release job], s, { h with ran := h.ran ++ [job] })
  | .release job =>
    s.release.map fun s => ([.complete job], s, { h with freed := h.freed ++ [job] })
  | .complete job => some ([.pop], s, { h with completed := h.completed ++ [job] })
  | .dropPool pool onRelease =>
    some ([.releases onRelease], s, { h with poolDropped := h.poolDropped || pool.isSome })
  | .releases [] => some ([], s, h)
  | .releases (callback :: onRelease) =>
    some ([.releases onRelease], s, { h with released := h.released ++ [callback] })

inductive Action (T C : Type) where
  | submit (job : T)
  | close (onRelease : C)
  | advance (thread : Nat)

namespace SerialQueue

def advance (i : Nat) (q : SerialQueue T C) : Option (SerialQueue T C) := do
  let t ← q.threads[i]?
  let (next, state, history) ← t.advance q.state q.history
  some ⟨state, q.threads.take i ++ next ++ q.threads.drop (i + 1), history⟩

/-- `none` when there is no such thread, or on a panic. -/
def step (capacity : Nat) (q : SerialQueue T C) : Action T C → Option (SerialQueue T C)
  | .submit job => q.submit capacity job
  | .close onRelease => some (q.close onRelease)
  | .advance i => q.advance i

inductive Reachable (capacity : Nat) : SerialQueue T C → Prop where
  | new : Reachable capacity new
  | step {q q' : SerialQueue T C} {a : Action T C} (h : Reachable capacity q)
    (hstep : q.step capacity a = some q') : Reachable capacity q'

end SerialQueue

namespace Thread

/-- In the loop of a drain. -/
def inLoop : Thread T C → Bool
  | .pop | .execute _ | .release _ | .complete _ => true
  | .dropPool _ _ | .releases _ => false

def executing : Thread T C → Bool
  | .execute _ => true
  | _ => false

/-- A taken pool that is not dropped yet. -/
def holdsPool : Thread T C → Bool
  | .dropPool pool _ => pool.isSome
  | _ => false

/-- The callbacks a thread is still to run. -/
def pending : Thread T C → List C
  | .dropPool _ onRelease | .releases onRelease => onRelease
  | _ => []

end Thread

/-- No close finds the queue idle while a taken pool is not dropped yet. -/
def Action.Calm (q : SerialQueue T C) : Action T C → Prop
  | .close _ => q.state.active = true ∨ ∀ t ∈ q.threads, t.holdsPool = false
  | _ => True

/-- The states of the runs whose steps are all calm. -/
inductive SerialQueue.CalmlyReachable (capacity : Nat) : SerialQueue T C → Prop where
  | new : CalmlyReachable capacity new
  | step {q q' : SerialQueue T C} {a : Action T C} (h : CalmlyReachable capacity q)
    (calm : a.Calm q) (hstep : q.step capacity a = some q') : CalmlyReachable capacity q'

end Curvy.Node
