import Mathlib.Algebra.Group.Nat.Defs
import Mathlib.Tactic.Common

/-!
# Fallible calls and byte decoders

A decoder consumes a prefix of the remaining bytes or fails. `Meets` is the rule of
calls that may fail: one postcondition for the value and one for the error. A decoder meets
its specification when it does on every input.
-/

set_option autoImplicit false

namespace Fallible

variable {ε α β : Type}

@[simp] theorem ok_bind (a : α) (f : α → Except ε β) : (Except.ok a >>= f) = f a := rfl

@[simp] theorem error_bind (e : ε) (f : α → Except ε β) : (Except.error e >>= f) = .error e := rfl

theorem bind_ok {x : Except ε α} {f : α → Except ε β} {b : β} :
    (x >>= f) = .ok b ↔ ∃ a, x = .ok a ∧ f a = .ok b := by
  cases x with
  | error e => exact ⟨fun h => (by cases h), fun h => (by obtain ⟨_, h, _⟩ := h; cases h)⟩
  | ok a =>
    constructor
    · exact fun h => ⟨a, rfl, h⟩
    · rintro ⟨a', ha, h⟩
      cases ha
      exact h

theorem bind_error {x : Except ε α} {f : α → Except ε β} {e : ε} :
    (x >>= f) = .error e ↔ x = .error e ∨ ∃ a, x = .ok a ∧ f a = .error e := by
  cases x with
  | error e' =>
    constructor
    · exact fun h => .inl (by rw [Except.error.inj h])
    · rintro (h | ⟨_, h, _⟩)
      · rw [Except.error.inj h]
        rfl
      · cases h
  | ok a =>
    constructor
    · exact fun h => .inr ⟨a, rfl, h⟩
    · rintro (h | ⟨a', ha, h⟩)
      · cases h
      · cases ha
        exact h

theorem bind_congr {x : Except ε α} {f g : α → Except ε β} (h : ∀ a, x = .ok a → f a = g a) :
    (x >>= f) = (x >>= g) := by
  cases x with
  | error e => rfl
  | ok a => exact h a rfl

/-- The value satisfies `P`, or the error satisfies `E`. -/
def Meets (E : ε → Prop) (x : Except ε α) (P : α → Prop) : Prop :=
  (∀ a, x = .ok a → P a) ∧ ∀ e, x = .error e → E e

variable {E : ε → Prop} {x : Except ε α} {P Q : α → Prop}

theorem Meets.ok {a : α} (h : P a) : Meets E (.ok a) P :=
  ⟨fun _ ha => Except.ok.inj ha ▸ h, fun _ he => (by cases he)⟩

theorem Meets.error {e : ε} (h : E e) : Meets E (.error e : Except ε α) P :=
  ⟨fun _ ha => (by cases ha), fun _ he => Except.error.inj he ▸ h⟩

theorem Meets.bind {f : α → Except ε β} {R : β → Prop} (h : Meets E x P)
    (hf : ∀ a, P a → Meets E (f a) R) : Meets E (x >>= f) R := by
  cases x with
  | error e => exact .error (h.2 e rfl)
  | ok a => exact hf a (h.1 a rfl)

theorem Meets.bind_eq {f : α → Except ε β} {R : β → Prop} (h : Meets E x P)
    (hf : ∀ a, x = .ok a → P a → Meets E (f a) R) : Meets E (x >>= f) R := by
  cases x with
  | error e => exact .error (h.2 e rfl)
  | ok a => exact hf a rfl (h.1 a rfl)

theorem Meets.mono (h : Meets E x P) (hPQ : ∀ a, P a → Q a) : Meets E x Q :=
  ⟨fun a ha => hPQ a (h.1 a ha), h.2⟩

end Fallible

/-- Value of a little-endian byte string. -/
def leNat : List UInt8 → Nat
  | [] => 0
  | b :: bytes => b.toNat + 256 * leNat bytes

theorem leNat_lt (bytes : List UInt8) : leNat bytes < 256 ^ bytes.length := by
  induction bytes with
  | nil => simp [leNat]
  | cons b bytes ih =>
    have hb := b.toNat_lt
    rw [leNat, List.length_cons, Nat.pow_succ]
    omega

/-- A decoder of values from a byte string. -/
abbrev Decoder (ε α : Type) := StateT (List UInt8) (Except ε) α

namespace Decoder

open Fallible

variable {ε α β : Type} {s t : List UInt8}

theorem bind_apply (x : Decoder ε α) (f : α → Decoder ε β) :
    (x >>= f) s = x s >>= fun p => f p.1 p.2 := rfl

theorem bind_ok {x : Decoder ε α} {f : α → Decoder ε β} {b : β} :
    (x >>= f) s = .ok (b, t) ↔ ∃ a u, x s = .ok (a, u) ∧ f a u = .ok (b, t) := by
  rw [bind_apply, Fallible.bind_ok]
  exact Prod.exists

theorem pure_ok {a b : α} : (pure a : Decoder ε α) s = .ok (b, t) ↔ a = b ∧ s = t := by
  change Except.ok (a, s) = _ ↔ _
  simp

theorem lift_ok {x : Except ε α} {b : α} :
    (liftM x : Decoder ε α) s = .ok (b, t) ↔ x = .ok b ∧ s = t := by
  change (x >>= fun a => Except.ok (a, s)) = _ ↔ _
  rw [Fallible.bind_ok]
  simp

/-- On every input the value satisfies `P`, or the error satisfies `E`. -/
def Meets (E : ε → Prop) (x : Decoder ε α) (P : α → Prop) : Prop :=
  ∀ s, Fallible.Meets E (x s) fun p => P p.1

variable {E : ε → Prop} {x : Decoder ε α} {P Q : α → Prop}

theorem Meets.of_ok (h : Meets E x P) {a : α} (ha : x s = .ok (a, t)) : P a := (h s).1 _ ha

theorem Meets.pure {a : α} (h : P a) : Meets E (Pure.pure a : Decoder ε α) P := fun _ => .ok h

theorem Meets.throw {e : ε} (h : E e) : Meets E (MonadExcept.throw e : Decoder ε α) P :=
  fun _ => .error h

theorem Meets.bind {f : α → Decoder ε β} {R : β → Prop} (h : Meets E x P)
    (hf : ∀ a, P a → Meets E (f a) R) : Meets E (x >>= f) R := by
  intro s
  rw [bind_apply]
  exact (h s).bind fun p hp => hf p.1 hp p.2

theorem Meets.lift {y : Except ε α} (h : Fallible.Meets E y P) :
    Meets E (liftM y : Decoder ε α) P :=
  fun _ => h.bind fun _ ha => .ok ha

theorem Meets.mono (h : Meets E x P) (hPQ : ∀ a, P a → Q a) : Meets E x Q :=
  fun s => (h s).mono fun p => hPQ p.1

theorem Meets.map {f : α → β} {R : β → Prop} (h : Meets E x fun a => R (f a)) :
    Meets E (f <$> x) R := by
  rw [map_eq_pure_bind]
  exact h.bind fun a ha => .pure ha

end Decoder
