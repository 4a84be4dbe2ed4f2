import Curvy.Lib.Codec

/-!
# Calls that may panic

An index or a slice out of range and an overflowing word stop the call without an error of
its own. `Computes` is the specification of a decoder that never ends so.
-/

set_option autoImplicit false

/-- How a call ends without a value. -/
inductive Stop (ε : Type) where
  | panic
  | error (error : ε)
  deriving DecidableEq, Repr

namespace Panic

variable {ε α : Type}

/-- A value that is there, such as an element in range. -/
def expect : Option α → Except (Stop ε) α
  | some a => .ok a
  | none => .error .panic

/-- A check whose failure is a panic. -/
def require (fine : Prop) [Decidable fine] : Except (Stop ε) Unit :=
  if fine then .ok () else .error .panic

/-- Sixty-four-bit arithmetic. -/
def word (value : Nat) : Except (Stop ε) Nat := if value < 2 ^ 64 then .ok value else .error .panic

/-- A check whose failure is an error. -/
def refuse (bad : Prop) [Decidable bad] (e : ε) : Except (Stop ε) Unit :=
  if bad then .error (.error e) else .ok ()

theorem refuse_ok {bad : Prop} [Decidable bad] {e : ε} {u : Unit} :
    (refuse bad e : Except (Stop ε) Unit) = .ok u ↔ ¬ bad := by
  unfold refuse
  split <;> simp [*]

theorem refuse_safe {bad : Prop} [Decidable bad] {e : ε} :
    (refuse bad e : Except (Stop ε) Unit) ≠ .error .panic := by
  unfold refuse
  split <;> exact fun h => by cases h

theorem bind_safe {β : Type} {x : Except (Stop ε) α} {f : α → Except (Stop ε) β}
    (hx : x ≠ .error .panic) (hf : ∀ a, x = .ok a → f a ≠ .error .panic) :
    (x >>= f) ≠ .error .panic := by
  cases x with
  | error stop => exact fun h => hx (by rw [Except.error.inj h])
  | ok a => exact hf a rfl

theorem require_ok {fine : Prop} [Decidable fine] {u : Unit} :
    (require fine : Except (Stop ε) Unit) = .ok u ↔ fine := by
  unfold require
  split <;> simp [*]

theorem word_ok {value n : Nat} :
    (word value : Except (Stop ε) Nat) = .ok n ↔ value < 2 ^ 64 ∧ n = value := by
  unfold word
  split
  · simp only [Except.ok.injEq, true_and, *]
    exact eq_comm
  · rename_i hbig
    exact ⟨fun h => (by cases h), fun h => absurd h.1 hbig⟩

theorem expect_ok {x : Option α} {a : α} :
    (expect x : Except (Stop ε) α) = .ok a ↔ x = some a := by
  cases x with
  | none => exact ⟨fun h => (by cases h), fun h => (by cases h)⟩
  | some b =>
    rw [expect, Except.ok.injEq, Option.some.injEq]

end Panic

/-! ## Decoders that may panic -/

namespace Decoder

open Fallible

variable {ε α β : Type}

/-- The decoder never panics, and accepts exactly the inputs that begin with a piece that `R`
relates to the value. -/
structure Computes (x : Decoder (Stop ε) α) (R : List UInt8 → α → Prop) : Prop where
  safe : ∀ bytes, x bytes ≠ .error .panic
  ok : ∀ bytes a rest, x bytes = .ok (a, rest) ↔ ∃ piece, R piece a ∧ bytes = piece ++ rest

variable {x : Decoder (Stop ε) α} {f : α → Decoder (Stop ε) β} {R : List UInt8 → α → Prop}

theorem Computes.reads (h : Computes x R) {piece : List UInt8} {a : α} (ha : R piece a)
    (rest : List UInt8) : x (piece ++ rest) = .ok (a, rest) := (h.ok _ _ _).mpr ⟨piece, ha, rfl⟩

theorem Computes.congr (h : Computes x R) {S : List UInt8 → α → Prop}
    (hRS : ∀ piece a, R piece a ↔ S piece a) : Computes x S where
  safe := h.safe
  ok bytes a rest := by simp only [h.ok, hRS]

theorem Computes.pure (a : α) :
    Computes (Pure.pure a : Decoder (Stop ε) α) fun piece b => piece = [] ∧ b = a where
  safe _ := fun h => by cases h
  ok bytes b rest := by
    rw [pure_ok]
    constructor
    · rintro ⟨rfl, rfl⟩
      exact ⟨[], ⟨rfl, rfl⟩, rfl⟩
    · rintro ⟨_, ⟨rfl, rfl⟩, rfl⟩
      exact ⟨rfl, rfl⟩

theorem Computes.take {e : ε} (count : Nat) :
    Computes (takeOr (.error e) count : Decoder (Stop ε) (List UInt8))
      fun piece bytes => piece.length = count ∧ bytes = piece where
  safe bytes := by
    unfold takeOr
    split <;> exact fun h => by cases h
  ok bytes a rest := by
    rw [takeOr_exact]
    constructor
    · rintro ⟨hlength, rfl⟩
      exact ⟨a, ⟨hlength, rfl⟩, rfl⟩
    · rintro ⟨_, ⟨hlength, rfl⟩, rfl⟩
      exact ⟨hlength, rfl⟩

/-- One decoder behind another: their pieces stand one behind the other. -/
theorem Computes.bind {S : α → List UInt8 → β → Prop} (h : Computes x R)
    (hf : ∀ piece a, R piece a → Computes (f a) (S a)) :
    Computes (x >>= f) fun piece b => ∃ front a back, R front a ∧ S a back b ∧
      piece = front ++ back where
  safe bytes := by
    rw [bind_apply]
    cases hx : x bytes with
    | error stop => exact fun hstop => h.safe bytes (by rw [hx, Except.error.inj hstop])
    | ok p =>
      obtain ⟨piece, hpiece, _⟩ := (h.ok _ _ _).mp hx
      exact (hf piece p.1 hpiece).safe p.2
  ok bytes b rest := by
    simp only [bind_ok, h.ok]
    constructor
    · rintro ⟨a, _, ⟨front, hfront, rfl⟩, hrest⟩
      obtain ⟨back, hback, rfl⟩ := ((hf front a hfront).ok _ _ _).mp hrest
      exact ⟨front ++ back, ⟨front, a, back, hfront, hback, rfl⟩, (List.append_assoc _ _ _).symm⟩
    · rintro ⟨_, ⟨front, a, back, hfront, hback, rfl⟩, rfl⟩
      refine ⟨a, back ++ rest, ⟨front, hfront, List.append_assoc _ _ _⟩, ?_⟩
      exact (hf front a hfront).reads hback rest

/-- A call that reads nothing. -/
theorem Computes.call {y : Except (Stop ε) α} {S : α → List UInt8 → β → Prop}
    (hy : y ≠ .error .panic) (hf : ∀ a, y = .ok a → Computes (f a) (S a)) :
    Computes ((liftM y : Decoder (Stop ε) α) >>= f) fun piece b => ∃ a, y = .ok a ∧ S a piece b where
  safe bytes := by
    cases y with
    | error stop => exact fun hstop => hy (by rw [Except.error.inj hstop])
    | ok a => exact (hf a rfl).safe bytes
  ok bytes b rest := by
    rw [lift_bind_ok]
    constructor
    · rintro ⟨a, ha, hrest⟩
      obtain ⟨piece, hpiece, rfl⟩ := ((hf a ha).ok _ _ _).mp hrest
      exact ⟨piece, ⟨a, ha, hpiece⟩, rfl⟩
    · rintro ⟨piece, ⟨a, ha, hpiece⟩, rfl⟩
      exact ⟨a, ha, (hf a ha).reads hpiece rest⟩

/-- A call at the end. -/
theorem Computes.lift {y : Except (Stop ε) α} (hy : y ≠ .error .panic) :
    Computes (liftM y : Decoder (Stop ε) α) fun piece a => y = .ok a ∧ piece = [] where
  safe bytes := by
    cases y with
    | error stop => exact fun hstop => hy (by rw [Except.error.inj hstop])
    | ok a => exact fun h => by cases h
  ok bytes a rest := by
    rw [lift_ok]
    constructor
    · rintro ⟨ha, rfl⟩
      exact ⟨[], ⟨ha, rfl⟩, rfl⟩
    · rintro ⟨_, ⟨ha, rfl⟩, rfl⟩
      exact ⟨ha, rfl⟩

/-- A call whose value is known. -/
theorem Computes.value {y : Except (Stop ε) α} {a : α} {S : List UInt8 → β → Prop} (hy : y = .ok a)
    (h : Computes (f a) S) : Computes ((liftM y : Decoder (Stop ε) α) >>= f) S := by
  subst hy
  exact h

/-- A check that reads nothing. -/
theorem Computes.refuse {bad : Prop} [Decidable bad] {e : ε} {f : Unit → Decoder (Stop ε) β}
    {S : List UInt8 → β → Prop} (h : ¬ bad → Computes (f ()) S) :
    Computes ((liftM (Panic.refuse bad e) : Decoder (Stop ε) Unit) >>= f)
      fun piece b => ¬ bad ∧ S piece b := by
  refine (Computes.call (S := fun _ => S) Panic.refuse_safe
    fun _ hok => h (Panic.refuse_ok.mp hok)).congr ?_
  intro piece b
  constructor
  · rintro ⟨_, hok, hS⟩
    exact ⟨Panic.refuse_ok.mp hok, hS⟩
  · rintro ⟨hbad, hS⟩
    exact ⟨(), Panic.refuse_ok.mpr hbad, hS⟩

/-- A loop whose state after some values is `abs` of them. A step reads one value in `P`, and
succeeds when the values so far stay `Good`. -/
theorem Computes.iterate {σ : Type} {step : σ → Decoder (Stop ε) σ} {P : α → Prop}
    {spell : α → List UInt8} {abs : List α → σ} {Good : List α → Prop} {total : Nat}
    (hgood : ∀ done rest, Good (done ++ rest) → Good done)
    (h : ∀ done, done.length < total → Good done → Computes (step (abs done)) fun piece s =>
      ∃ a, P a ∧ piece = spell a ∧ Good (done ++ [a]) ∧ s = abs (done ++ [a]))
    (count : Nat) {done : List α} (hdone : Good done) (htotal : done.length + count = total) :
    Computes (Decoder.iterate step count (abs done)) fun piece s =>
      ∃ values, values.length = count ∧ (∀ a ∈ values, P a) ∧ piece = values.flatMap spell ∧
        Good (done ++ values) ∧ s = abs (done ++ values) := by
  induction count generalizing done with
  | zero =>
    refine (Computes.pure (abs done)).congr fun piece s => ?_
    constructor
    · rintro ⟨rfl, rfl⟩
      exact ⟨[], rfl, fun a ha => (by cases ha), rfl, by rwa [List.append_nil],
        by rw [List.append_nil]⟩
    · rintro ⟨values, hlength, -, rfl, -, rfl⟩
      obtain rfl := List.eq_nil_of_length_eq_zero hlength
      exact ⟨rfl, by rw [List.append_nil]⟩
  | succ count ih =>
    have hstep := h done (by omega) hdone
    have hnext : ∀ a, Good (done ++ [a]) → _ := fun a ha =>
      ih ha (by rw [List.length_append, List.length_singleton]; omega)
    have hsplit : ∀ (a : α) (values : List α), done ++ a :: values = done ++ [a] ++ values :=
      fun a values => List.append_cons done a values
    constructor
    · intro bytes
      rw [Decoder.iterate, bind_apply]
      cases hx : step (abs done) bytes with
      | error stop => exact fun hstop => hstep.safe bytes (by rw [hx, Except.error.inj hstop])
      | ok p =>
        obtain ⟨_, ⟨a, -, -, ha, hs⟩, -⟩ := (hstep.ok _ _ _).mp hx
        rw [Fallible.ok_bind, hs]
        exact (hnext a ha).safe p.2
    · intro bytes s rest
      rw [Decoder.iterate, bind_ok]
      constructor
      · rintro ⟨_, _, hread, hrest⟩
        obtain ⟨_, ⟨a, haP, rfl, ha, rfl⟩, rfl⟩ := (hstep.ok _ _ _).mp hread
        obtain ⟨_, ⟨values, hlength, hall, rfl, hgood', rfl⟩, rfl⟩ := ((hnext a ha).ok _ _ _).mp hrest
        refine ⟨_, ⟨a :: values, congrArg (· + 1) hlength, List.forall_mem_cons.mpr ⟨haP, hall⟩,
          rfl, ?_, ?_⟩, ?_⟩
        · rwa [hsplit a values]
        · rw [hsplit a values]
        · rw [List.flatMap_cons, List.append_assoc]
      · rintro ⟨_, ⟨_, hlength, hall, rfl, hgood', rfl⟩, rfl⟩
        obtain ⟨a, values, rfl⟩ := List.exists_cons_of_length_eq_add_one hlength
        obtain ⟨haP, hall⟩ := List.forall_mem_cons.mp hall
        rw [hsplit a values] at hgood' ⊢
        have ha := hgood _ _ hgood'
        refine ⟨abs (done ++ [a]), values.flatMap spell ++ rest, ?_, ?_⟩
        · rw [List.flatMap_cons, List.append_assoc]
          exact hstep.reads ⟨a, haP, rfl, ha, rfl⟩ _
        · exact (hnext a ha).reads ⟨values, Nat.succ.inj hlength, hall, rfl, hgood', rfl⟩ rest

/-- Values read one behind the other. -/
theorem Computes.times {P : α → Prop} {spell : α → List UInt8}
    (h : Computes x fun piece a => P a ∧ piece = spell a) (count : Nat) :
    Computes (Decoder.times x count) fun piece values =>
      values.length = count ∧ (∀ a ∈ values, P a) ∧ piece = values.flatMap spell := by
  induction count with
  | zero =>
    refine (Computes.pure []).congr fun piece values => ?_
    constructor
    · rintro ⟨rfl, rfl⟩
      exact ⟨rfl, fun a ha => (by cases ha), rfl⟩
    · rintro ⟨hlength, _, rfl⟩
      obtain rfl := List.eq_nil_of_length_eq_zero hlength
      exact ⟨rfl, rfl⟩
  | succ count ih =>
    refine (h.bind fun _ a _ => ih.bind fun _ values _ => Computes.pure (a :: values)).congr ?_
    intro piece all
    constructor
    · rintro ⟨_, a, _, ⟨ha, rfl⟩, ⟨_, values, _, ⟨hlength, hvalues, rfl⟩, ⟨rfl, rfl⟩, rfl⟩, rfl⟩
      refine ⟨by rw [List.length_cons, hlength], ?_, by rw [List.append_nil, List.flatMap_cons]⟩
      intro b hb
      rcases List.mem_cons.mp hb with rfl | hb
      · exact ha
      · exact hvalues b hb
    · rintro ⟨hlength, hall, rfl⟩
      obtain ⟨a, values, rfl⟩ := List.exists_cons_of_length_eq_add_one hlength
      refine ⟨_, a, _, ⟨hall a List.mem_cons_self, rfl⟩, ⟨_, values, [], ⟨?_, ?_, rfl⟩, ⟨rfl, rfl⟩,
        rfl⟩, by rw [List.append_nil, List.flatMap_cons]⟩
      · exact Nat.succ.inj hlength
      · exact fun b hb => hall b (List.mem_cons_of_mem _ hb)

end Decoder
