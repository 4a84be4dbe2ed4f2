import Curvy.Lib.Panic

/-!
# Calls that work in scratch memory

A call on a state leaves the state behind on every exit, a panic included. `Follows` is the rule
of calls that use their state as scratch memory only: from the right states they end as a plain
computation does.
-/

set_option autoImplicit false

/-- A call on a state. -/
def Work (σ ε α : Type) : Type := σ → Except (Stop ε) α × σ

namespace Work

variable {σ τ ε α β : Type}

instance : Monad (Work σ ε) where
  pure a := fun s => (.ok a, s)
  bind x f := fun s =>
    match x s with
    | (.ok a, s) => f a s
    | (.error stop, s) => (.error stop, s)

def get : Work σ ε σ := fun s => (.ok s, s)

def modify (f : σ → σ) : Work σ ε Unit := fun s => (.ok (), f s)

/-- A step that does not touch the state. -/
def lift (x : Except (Stop ε) α) : Work σ ε α := fun s => (x, s)

/-- A check whose failure is an error. -/
def refuse (bad : Prop) [Decidable bad] (e : ε) : Work σ ε Unit := lift (Panic.refuse bad e)

/-- A check whose failure is a panic. -/
def require (fine : Prop) [Decidable fine] : Work σ ε Unit := lift (Panic.require fine)

/-- A call on a part of the state. -/
def zoom (part : σ → τ) (put : τ → σ → σ) (x : Work τ ε α) : Work σ ε α := fun s =>
  let r := x (part s)
  (r.1, put r.2 s)

theorem bind_apply (x : Work σ ε α) (f : α → Work σ ε β) (s : σ) : (x >>= f) s =
    match x s with
    | (.ok a, s) => f a s
    | (.error stop, s) => (.error stop, s) := rfl

theorem bind_ok {x : Work σ ε α} {f : α → Work σ ε β} {s s' : σ} {a : α} (h : x s = (.ok a, s')) :
    (x >>= f) s = f a s' := by
  rw [bind_apply, h]

theorem bind_error {x : Work σ ε α} {f : α → Work σ ε β} {s s' : σ} {stop : Stop ε}
    (h : x s = (.error stop, s')) : (x >>= f) s = (.error stop, s') := by
  rw [bind_apply, h]

theorem get_bind (f : σ → Work σ ε β) (s : σ) : (Work.get >>= f) s = f s s := rfl

theorem modify_bind (change : σ → σ) (f : Unit → Work σ ε β) (s : σ) :
    (Work.modify change >>= f) s = f () (change s) := rfl

theorem lift_bind {y : Except (Stop ε) α} {a : α} (h : y = .ok a) (f : α → Work σ ε β) (s : σ) :
    (Work.lift y >>= f) s = f a s := by
  rw [h]
  rfl

theorem refuse_bind {bad : Prop} [Decidable bad] (h : ¬ bad) (e : ε) (f : Unit → Work σ ε β)
    (s : σ) : (Work.refuse bad e >>= f) s = f () s :=
  lift_bind (Panic.refuse_ok.mpr h) f s

theorem require_bind {fine : Prop} [Decidable fine] (h : fine) (f : Unit → Work σ ε β) (s : σ) :
    (Work.require fine >>= f) s = f () s :=
  lift_bind (Panic.require_ok.mpr h) f s

/-! ## A part that is kept -/

/-- The call leaves a part of the state as it was. -/
def Keeps (view : σ → τ) (x : Work σ ε α) : Prop := ∀ s, view (x s).2 = view s

variable {view : σ → τ}

theorem Keeps.bind {x : Work σ ε α} {f : α → Work σ ε β} (hx : Keeps view x)
    (hf : ∀ a, Keeps view (f a)) : Keeps view (x >>= f) := by
  intro s
  have hstep := hx s
  rw [bind_apply]
  cases hr : x s with
  | mk r t =>
    rw [hr] at hstep
    cases r with
    | error stop => exact hstep
    | ok a => exact (hf a t).trans hstep

theorem Keeps.pure (a : α) : Keeps view (Pure.pure a : Work σ ε α) := fun _ => rfl

theorem Keeps.get : Keeps view (Work.get : Work σ ε σ) := fun _ => rfl

theorem Keeps.lift (y : Except (Stop ε) α) : Keeps view (Work.lift y : Work σ ε α) := fun _ => rfl

theorem Keeps.modify {change : σ → σ} (h : ∀ s, view (change s) = view s) :
    Keeps view (Work.modify change : Work σ ε Unit) := h

/-! ## Computations in scratch memory -/

/-- From `s` the call stops as `y` does or has a value where `y` has one, and then both values and
the state it leaves meet `after`. -/
def Follows (s : σ) (x : Work σ ε α) (y : Except (Stop ε) β) (after : β → α → σ → Prop) : Prop :=
  (∃ stop, (x s).1 = .error stop ∧ y = .error stop) ∨
    ∃ a b, (x s).1 = .ok a ∧ y = .ok b ∧ after b a (x s).2

variable {γ δ : Type} {s : σ}

theorem Follows.pure {after : β → α → σ → Prop} {a : α} {b : β} (h : after b a s) :
    Follows s (Pure.pure a : Work σ ε α) (.ok b) after :=
  .inr ⟨a, b, rfl, rfl, h⟩

theorem Follows.bind {x : Work σ ε α} {y : Except (Stop ε) β} {f : α → Work σ ε γ}
    {g : β → Except (Stop ε) δ} {middle : β → α → σ → Prop} {after : δ → γ → σ → Prop}
    (hx : Follows s x y middle) (hf : ∀ b a t, middle b a t → Follows t (f a) (g b) after) :
    Follows s (x >>= f) (y >>= g) after := by
  rcases hx with ⟨stop, hstop, hy⟩ | ⟨a, b, ha, hy, hmiddle⟩
  · apply Or.inl
    have hstep : x s = (.error stop, (x s).2) := Prod.ext hstop rfl
    rw [bind_error hstep, hy]
    exact ⟨stop, rfl, rfl⟩
  · have hstep : x s = (.ok a, (x s).2) := Prod.ext ha rfl
    unfold Follows
    rw [bind_ok hstep, hy]
    exact hf b a _ hmiddle

theorem Follows.get {f : σ → Work σ ε γ} {y : Except (Stop ε) δ} {after : δ → γ → σ → Prop}
    (h : Follows s (f s) y after) : Follows s (Work.get >>= f) y after := h

theorem Follows.modify {change : σ → σ} {f : Unit → Work σ ε γ} {y : Except (Stop ε) δ}
    {after : δ → γ → σ → Prop} (h : Follows (change s) (f ()) y after) :
    Follows s (Work.modify change >>= f) y after := h

theorem Follows.lift {y : Except (Stop ε) α} {f : α → Work σ ε γ} {g : α → Except (Stop ε) δ}
    {after : δ → γ → σ → Prop} (h : ∀ a, Follows s (f a) (g a) after) :
    Follows s (Work.lift y >>= f) (y >>= g) after := by
  cases y with
  | error stop => exact .inl ⟨stop, rfl, rfl⟩
  | ok a => exact h a

/-- A computation that ends by changing its value. -/
theorem Follows.map {x : Work σ ε α} {y : Except (Stop ε) β} {change : β → δ}
    {middle : β → α → σ → Prop} {after : δ → α → σ → Prop} (h : Follows s x y middle)
    (hafter : ∀ b a t, middle b a t → after (change b) a t) :
    Follows s x (y >>= fun b => .ok (change b)) after := by
  rcases h with ⟨stop, hx, hy⟩ | ⟨a, b, hx, hy, hmiddle⟩
  · rw [hy]
    exact .inl ⟨stop, hx, rfl⟩
  · rw [hy]
    exact .inr ⟨a, change b, hx, rfl, hafter b a _ hmiddle⟩

theorem Follows.mono {x : Work σ ε α} {y : Except (Stop ε) β} {after after' : β → α → σ → Prop}
    (h : Follows s x y after) (hafter : ∀ b a t, after b a t → after' b a t) :
    Follows s x y after' := by
  rcases h with hstop | ⟨a, b, hx, hy, hpost⟩
  · exact .inl hstop
  · exact .inr ⟨a, b, hx, hy, hafter b a _ hpost⟩

/-- A call follows its own outcome. -/
theorem Follows.self (x : Work σ ε α) (s : σ) :
    Follows s x (x s).1 fun b a t => a = b ∧ t = (x s).2 := by
  cases hx : (x s).1 with
  | error stop => exact .inl ⟨stop, hx, rfl⟩
  | ok a => exact .inr ⟨a, a, hx, rfl, rfl, rfl⟩

/-- A call follows what it leaves. -/
theorem Follows.leaves (x : Work σ ε α) (s : σ) (view : σ → β) :
    Follows s x ((x s).1.map fun _ => view (x s).2) fun b _ t => view t = b := by
  cases hx : (x s).1 with
  | error stop => exact .inl ⟨stop, hx, rfl⟩
  | ok a => exact .inr ⟨a, _, hx, rfl, rfl⟩

theorem Follows.zoom {part : σ → τ} {put : τ → σ → σ} {x : Work τ ε α} {y : Except (Stop ε) β}
    {after : β → α → τ → Prop} (h : Follows (part s) x y after) :
    Follows s (Work.zoom part put x) y fun b a t => ∃ u, after b a u ∧ t = put u s := by
  rcases h with ⟨stop, hx, hy⟩ | ⟨a, b, hx, hy, hpost⟩
  · exact .inl ⟨stop, hx, hy⟩
  · exact .inr ⟨a, b, hx, hy, _, hpost, rfl⟩

theorem Follows.value {x : Work σ ε α} {y : Except (Stop ε) α}
    (h : Follows s x y fun b a _ => a = b) : (x s).1 = y := by
  rcases h with ⟨stop, hx, hy⟩ | ⟨a, b, hx, hy, rfl⟩
  · rw [hx, hy]
  · rw [hx, hy]

/-- What a call returns, read off the state it leaves. -/
theorem Follows.result {x : Work σ ε α} {y : Except (Stop ε) β} {view : σ → β}
    (h : Follows s x y fun b _ t => view t = b) : (x s).1.map (fun _ => view (x s).2) = y := by
  rcases h with ⟨stop, hx, hy⟩ | ⟨a, b, hx, hy, hview⟩
  · rw [hx, hy]
    rfl
  · rw [hx, hy, ← hview]
    rfl

end Work

/-! ## Vectors that are kept -/

/-- A vector with what stands in its allocation behind the elements, which nothing reads. -/
structure Buffer (α : Type) where
  live : List α
  spare : List α

namespace Buffer

variable {α : Type}

/-- `Vec::new`. -/
def new : Buffer α := ⟨[], []⟩

def capacity (b : Buffer α) : Nat := b.live.length + b.spare.length

/-- `zeroize`, which overwrites the whole allocation. -/
def zeroize [Zero α] (b : Buffer α) : Buffer α := ⟨[], List.replicate b.capacity 0⟩

/-- No element, and nothing but zeros in the allocation. -/
def Wiped [Zero α] (b : Buffer α) : Prop := b.live = [] ∧ ∀ x ∈ b.spare, x = 0

theorem new_wiped [Zero α] : (new : Buffer α).Wiped := ⟨rfl, fun _ h => absurd h List.not_mem_nil⟩

theorem zeroize_wiped [Zero α] (b : Buffer α) : b.zeroize.Wiped :=
  ⟨rfl, fun _ h => List.eq_of_mem_replicate h⟩

/-- `resize`, on the elements. -/
def resize (xs : List α) (n : Nat) (x : α) : List α := xs.take n ++ List.replicate (n - xs.length) x

theorem resize_nil (n : Nat) (x : α) : resize [] n x = List.replicate n x := by
  rw [resize, List.take_nil, List.nil_append, List.length_nil, Nat.sub_zero]

end Buffer
