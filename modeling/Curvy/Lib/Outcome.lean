import Mathlib.Tactic.Common

/-!
# Outcomes of mutating fallible calls

A call on a state either stops the program (`none`) or returns a result, good or bad,
with the state it leaves behind. `andThen` is the early-return operator.
-/

set_option autoImplicit false

universe u

namespace Outcome

variable {ε σ α β : Type u}

def andThen (x : Option (Except ε α × σ)) (f : α → σ → Option (Except ε β × σ)) : Option (Except ε β × σ) :=
  x.bind fun
    | (.ok a, s) => f a s
    | (.error e, s) => some (.error e, s)

@[simp] theorem andThen_ok (a : α) (s : σ) (f : α → σ → Option (Except ε β × σ)) :
    andThen (some (.ok a, s)) f = f a s := rfl

@[simp] theorem andThen_error (e : ε) (s : σ) (f : α → σ → Option (Except ε β × σ)) :
    andThen (some (.error e, s)) f = some (.error e, s) := rfl

/-- A check that does not touch the state, followed by the rest of the call. -/
def guarded (check : Except ε α) (s : σ) (f : α → Option (Except ε β × σ)) : Option (Except ε β × σ) :=
  match check with
  | .ok a => f a
  | .error e => some (.error e, s)

@[simp] theorem guarded_ok (a : α) (s : σ) (f : α → Option (Except ε β × σ)) :
    guarded (.ok a) s f = f a := rfl

@[simp] theorem guarded_error (e : ε) (s : σ) (f : α → Option (Except ε β × σ)) :
    guarded (.error e) s f = some (.error e, s) := rfl

/-! ## Calls without a state -/

def chain (x : Option (Except ε α)) (f : α → Option (Except ε β)) : Option (Except ε β) :=
  x.bind fun
    | .ok a => f a
    | .error e => some (.error e)

@[simp] theorem chain_ok (a : α) (f : α → Option (Except ε β)) : chain (some (.ok a)) f = f a := rfl

@[simp] theorem chain_error (e : ε) (f : α → Option (Except ε β)) :
    chain (some (.error e)) f = some (.error e) := rfl

@[simp] theorem chain_none (f : α → Option (Except ε β)) : chain none f = none := rfl

/-! ## Calls that never stop the program -/

def next (x : Except ε α × σ) (f : α → σ → Except ε β × σ) : Except ε β × σ :=
  match x with
  | (.ok a, s) => f a s
  | (.error e, s) => (.error e, s)

@[simp] theorem next_ok (a : α) (s : σ) (f : α → σ → Except ε β × σ) : next (.ok a, s) f = f a s := rfl

@[simp] theorem next_error (e : ε) (s : σ) (f : α → σ → Except ε β × σ) :
    next (.error e, s) f = (.error e, s) := rfl

end Outcome
