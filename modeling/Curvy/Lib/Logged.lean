import Curvy.Lib.Decoder

/-!
# Calls that keep a log

A fallible call with the list of what it touched, kept on failure too. Without its log it is a
plain call. `Replays` is the rule of calls whose log can be replayed on the state they ran on.
-/

set_option autoImplicit false

structure Logged (ω ε α : Type) where
  log : List ω
  result : Except ε α
  deriving Repr

namespace Logged

variable {ω ε α β σ : Type}

instance : Monad (Logged ω ε) where
  pure a := ⟨[], .ok a⟩
  bind x f :=
    match x.result with
    | .ok a => ⟨x.log ++ (f a).log, (f a).result⟩
    | .error e => ⟨x.log, .error e⟩

/-- A call that touches nothing. -/
def call (x : Except ε α) : Logged ω ε α := ⟨[], x⟩

def note (access : ω) : Logged ω ε Unit := ⟨[access], .ok ()⟩

variable {x : Logged ω ε α} {f : α → Logged ω ε β}

theorem ok_bind {log : List ω} {a : α} :
    ((⟨log, .ok a⟩ : Logged ω ε α) >>= f) = ⟨log ++ (f a).log, (f a).result⟩ := rfl

theorem error_bind {log : List ω} {e : ε} :
    ((⟨log, .error e⟩ : Logged ω ε α) >>= f) = ⟨log, .error e⟩ := rfl

/-- Without the logs the calls are chained as plain ones. -/
theorem result_bind : (x >>= f).result = x.result >>= fun a => (f a).result := by
  obtain ⟨log, result⟩ := x
  cases result with
  | error e => rfl
  | ok a => rfl

theorem log_bind_call (g : α → Except ε β) : (x >>= fun a => call (g a)).log = x.log := by
  obtain ⟨log, result⟩ := x
  cases result with
  | error e => rfl
  | ok a => exact List.append_nil log

@[simp] theorem result_pure (a : α) : (pure a : Logged ω ε α).result = .ok a := rfl

@[simp] theorem result_call (y : Except ε α) : (call y : Logged ω ε α).result = y := rfl

@[simp] theorem result_note (access : ω) : (note access : Logged ω ε Unit).result = .ok () := rfl

section Replay
variable {apply : σ → ω → Option σ} {s : σ} {after : α → σ}

/-- The log can be replayed on `s`, and leads to the state that goes with the value. -/
def Replays (apply : σ → ω → Option σ) (s : σ) (x : Logged ω ε α) (after : α → σ) : Prop :=
  ∃ s', x.log.foldlM apply s = some s' ∧ ∀ a, x.result = .ok a → s' = after a

theorem Replays.pure {a : α} (h : s = after a) : Replays apply s (pure a : Logged ω ε α) after := by
  refine ⟨s, rfl, ?_⟩
  rintro _ ⟨⟩
  exact h

theorem Replays.call {y : Except ε α} (h : ∀ a, y = .ok a → s = after a) :
    Replays apply s (Logged.call y) after := ⟨s, rfl, h⟩

theorem Replays.note {access : ω} {after : Unit → σ} (h : apply s access = some (after ())) :
    Replays apply s (note access : Logged ω ε Unit) after := by
  refine ⟨after (), ?_, fun _ _ => rfl⟩
  change (apply s access >>= fun s => some s) = _
  rw [h]
  rfl

theorem Replays.bind {after' : β → σ} (hx : Replays apply s x after)
    (hf : ∀ a, x.result = .ok a → Replays apply (after a) (f a) after') :
    Replays apply s (x >>= f) after' := by
  obtain ⟨s', hlog, hafter⟩ := hx
  obtain ⟨log, result⟩ := x
  cases result with
  | error e => exact ⟨s', hlog, fun _ h => by cases h⟩
  | ok a =>
    obtain rfl := hafter a rfl
    obtain ⟨s'', hlog', hafter'⟩ := hf a rfl
    refine ⟨s'', ?_, hafter'⟩
    rw [ok_bind, List.foldlM_append, hlog]
    exact hlog'

end Replay

end Logged
