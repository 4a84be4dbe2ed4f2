import Curvy.Lib.Panic

/-!
# Calls that never panic

`total` runs a call that has no panic of its own where a panic could end it. A decoder written
with every machine operation checked never panics when it is the `total` of one without them.
-/

set_option autoImplicit false

namespace Panic

variable {ε α β : Type}

def total (x : Except ε α) : Except (Stop ε) α := x.mapError .error

@[simp] theorem total_ok (a : α) : total (.ok a : Except ε α) = .ok a := rfl

@[simp] theorem total_error (e : ε) : total (.error e : Except ε α) = .error (.error e) := rfl

theorem total_bind (x : Except ε α) {f : α → Except ε β} {g : α → Except (Stop ε) β}
    (hg : ∀ a, g a = total (f a)) : (total x >>= g) = total (x >>= f) := by
  cases x with
  | error e => rfl
  | ok a => exact hg a

theorem total_safe (x : Except ε α) : total x ≠ .error .panic := by
  cases x with
  | error e => exact fun h => by cases h
  | ok a => exact fun h => by cases h

theorem require_of {fine : Prop} [Decidable fine] (h : fine) :
    (require fine : Except (Stop ε) Unit) = .ok () := if_pos h

theorem refuse_total {bad : Prop} [Decidable bad] (e : ε) :
    (refuse bad e : Except (Stop ε) Unit) = total (if bad then .error e else .ok ()) := by
  unfold refuse
  split <;> rfl

end Panic

namespace Decoder

variable {ε α β : Type}

def total (x : Decoder ε α) : Decoder (Stop ε) α := fun bytes => Panic.total (x bytes)

theorem total_lift (y : Except ε α) : total (liftM y : Decoder ε α) = liftM (Panic.total y) := by
  cases y <;> rfl

/-- The step behind has to agree on the values the first call can give. -/
theorem total_bind_of {E : ε → Prop} {P : α → Prop} {x : Decoder ε α} (h : Meets E x P)
    {f : α → Decoder ε β} {g : α → Decoder (Stop ε) β} (hg : ∀ a, P a → g a = total (f a)) :
    (total x >>= g) = total (x >>= f) := by
  funext bytes
  have hx := (h bytes).1
  rw [bind_apply, total, total, bind_apply]
  cases hb : x bytes with
  | error e => rfl
  | ok p => exact congrFun (hg p.1 (hx p hb)) p.2

theorem total_bind (x : Decoder ε α) {f : α → Decoder ε β} {g : α → Decoder (Stop ε) β}
    (hg : ∀ a, g a = total (f a)) : (total x >>= g) = total (x >>= f) := by
  have h : Meets (fun _ => True) x fun _ => True :=
    fun _ => ⟨fun _ _ => trivial, fun _ _ => trivial⟩
  exact total_bind_of h fun a _ => hg a

theorem total_map (x : Decoder ε α) (f : α → β) : (f <$> total x) = total (f <$> x) := by
  rw [map_eq_pure_bind, map_eq_pure_bind]
  exact total_bind x fun a => rfl

end Decoder
