import Curvy.Sparrow.Manifest

/-!
# What the framer is handed

A log of the chunks handed to the framer is read against the manifest: position after
position, each chunk with the digest the manifest gives for its position. A position repeats
only when the framer refused its chunk.
-/

namespace Curvy.Sparrow

set_option autoImplicit false

/-- Chunks in the order they were handed over, each with whether it was taken. -/
abbrev Log := List (List UInt8 × Bool)

/-- The log hands over positions `0, …, m - 1`; a refused chunk may be skipped or repeated. -/
inductive Delivered (sha256 : List UInt8 → List UInt8) (hashes : List (List UInt8)) :
    Nat → Log → Prop
  | nil : Delivered sha256 hashes 0 []
  | taken {m : Nat} {log : Log} {c : List UInt8} (h : Delivered sha256 hashes m log)
      (hash : hashes[m]? = some (sha256 c)) : Delivered sha256 hashes (m + 1) (log ++ [(c, true)])
  | skipped {m : Nat} {log : Log} {c : List UInt8} (h : Delivered sha256 hashes m log)
      (hash : hashes[m]? = some (sha256 c)) : Delivered sha256 hashes (m + 1) (log ++ [(c, false)])
  | repeated {m : Nat} {log : Log} {c : List UInt8} (h : Delivered sha256 hashes m log)
      (hash : hashes[m]? = some (sha256 c)) : Delivered sha256 hashes m (log ++ [(c, false)])

/-- No chunk of the log was refused. -/
def Log.Clean (log : Log) : Prop := ∀ x ∈ log, x.2 = true

/-- Each chunk has the digest of its position. -/
def Authentic (sha256 : List UInt8 → List UInt8) (hashes chunks : List (List UInt8)) : Prop :=
  ∀ (i : Nat) (c : List UInt8), chunks[i]? = some c → hashes[i]? = some (sha256 c)

section Specification

variable {sha256 : List UInt8 → List UInt8} {hashes : List (List UInt8)}

theorem Authentic.append_singleton {chunks : List (List UInt8)} {c : List UInt8}
    (h : Authentic sha256 hashes chunks) (hash : hashes[chunks.length]? = some (sha256 c)) :
    Authentic sha256 hashes (chunks ++ [c]) := by
  intro i x hx
  rcases Nat.lt_trichotomy i chunks.length with hi | hi | hi
  · rw [List.getElem?_append_left hi] at hx
    exact h i x hx
  · rw [hi, List.getElem?_append_right (Nat.le_refl _), Nat.sub_self] at hx
    cases hx
    rw [hi]
    exact hash
  · rw [List.getElem?_eq_none (by rw [List.length_append, List.length_singleton]; omega)] at hx
    cases hx

theorem Log.Clean.of_append {log tail : Log} (h : Log.Clean (log ++ tail)) : Log.Clean log :=
  fun x hx => h x (List.mem_append_left tail hx)

/-- A log without refusals hands over the positions one by one. -/
theorem Delivered.authentic {m : Nat} {log : Log} (h : Delivered sha256 hashes m log)
    (hclean : log.Clean) : (log.map Prod.fst).length = m ∧
      Authentic sha256 hashes (log.map Prod.fst) := by
  induction h with
  | nil => exact ⟨rfl, fun i c h => (by simp at h)⟩
  | @taken m log c h hash ih =>
    obtain ⟨hlength, hauth⟩ := ih (Log.Clean.of_append hclean)
    rw [List.map_append]
    refine ⟨by simpa using hlength, ?_⟩
    exact hauth.append_singleton (by rw [hlength]; exact hash)
  | skipped h hash ih =>
    have := hclean _ (List.mem_append_right _ (List.mem_singleton.mpr rfl))
    cases this
  | repeated h hash ih =>
    have := hclean _ (List.mem_append_right _ (List.mem_singleton.mpr rfl))
    cases this

/-- Up to the first refusal, the refused chunk included, each chunk has the digest of its
position. -/
theorem Delivered.authentic_until_refusal {m : Nat} {log : Log}
    (h : Delivered sha256 hashes m log) (hclean : Log.Clean log.dropLast) :
    Authentic sha256 hashes (log.map Prod.fst) := by
  cases h with
  | nil => exact fun i c h => (by simp at h)
  | taken h hash | skipped h hash | repeated h hash =>
    rw [List.dropLast_concat] at hclean
    obtain ⟨hlength, hauth⟩ := h.authentic hclean
    rw [List.map_append]
    exact hauth.append_singleton (by rw [hlength]; exact hash)

/-- What was handed over at an earlier point was a delivery too. -/
theorem Delivered.of_prefix {m : Nat} {log earlier : Log} (h : Delivered sha256 hashes m log)
    (hpre : earlier <+: log) : ∃ k, Delivered sha256 hashes k earlier := by
  induction h with
  | nil =>
    rw [List.prefix_nil.mp hpre]
    exact ⟨0, .nil⟩
  | taken h hash ih =>
    rcases List.prefix_concat_iff.mp hpre with rfl | hpre
    · exact ⟨_, .taken h hash⟩
    · exact ih hpre
  | skipped h hash ih =>
    rcases List.prefix_concat_iff.mp hpre with rfl | hpre
    · exact ⟨_, .skipped h hash⟩
    · exact ih hpre
  | repeated h hash ih =>
    rcases List.prefix_concat_iff.mp hpre with rfl | hpre
    · exact ⟨_, .repeated h hash⟩
    · exact ih hpre

end Specification

/-! ## Moves -/

/-- The part of a stream the specification speaks about. -/
structure View where
  next : Nat
  delayed : Option (List UInt8)
  log : Log

/-- One hand-over or delay, with the chunk it takes from the received bytes. -/
inductive Move (sha256 : List UInt8 → List UInt8) (hashes : List (List UInt8)) :
    View → List (List UInt8) → View → Prop
  | frameDelayed (next : Nat) (log : Log) (c : List UInt8) (taken : Bool) :
      Move sha256 hashes ⟨next, some c, log⟩ [] ⟨next, none, log ++ [(c, taken)]⟩
  | take (next : Nat) (log : Log) (c : List UInt8) (hash : hashes[next]? = some (sha256 c)) :
      Move sha256 hashes ⟨next, none, log⟩ [c] ⟨next + 1, none, log ++ [(c, true)]⟩
  | refuse (next : Nat) (log : Log) (c : List UInt8) (hash : hashes[next]? = some (sha256 c)) :
      Move sha256 hashes ⟨next, none, log⟩ [c] ⟨next, none, log ++ [(c, false)]⟩
  | delay (next : Nat) (log : Log) (c : List UInt8) (hash : hashes[next]? = some (sha256 c)) :
      Move sha256 hashes ⟨next, none, log⟩ [c] ⟨next + 1, some c, log⟩

/-- A sequence of moves and the chunks it takes. -/
inductive Moves (sha256 : List UInt8 → List UInt8) (hashes : List (List UInt8)) :
    View → List (List UInt8) → View → Prop
  | refl (v : View) : Moves sha256 hashes v [] v
  | cons {v w u : View} {cs cs' : List (List UInt8)} (move : Move sha256 hashes v cs w)
      (rest : Moves sha256 hashes w cs' u) : Moves sha256 hashes v (cs ++ cs') u

namespace Moves

variable {sha256 : List UInt8 → List UInt8} {hashes : List (List UInt8)} {v w u : View}
  {cs cs' : List (List UInt8)}

theorem single (h : Move sha256 hashes v cs w) : Moves sha256 hashes v cs w := by
  have := Moves.cons h (.refl w)
  rwa [List.append_nil] at this

theorem trans (h : Moves sha256 hashes v cs w) (h' : Moves sha256 hashes w cs' u) :
    Moves sha256 hashes v (cs ++ cs') u := by
  induction h with
  | refl v => exact h'
  | cons move rest ih =>
    rw [List.append_assoc]
    exact .cons move (ih h')

end Moves

/-- What the moves keep: the log is a delivery, the delayed chunk is the next one. -/
structure View.Ok (sha256 : List UInt8 → List UInt8) (hashes : List (List UInt8)) (v : View) :
    Prop where
  delivered : ∃ m, Delivered sha256 hashes m v.log ∧ m + v.delayed.toList.length = v.next ∧
    ∀ c, v.delayed = some c → hashes[m]? = some (sha256 c)

/-- The chunks taken from the received bytes so far. -/
def View.offered (v : View) : List (List UInt8) := v.log.map Prod.fst ++ v.delayed.toList

section Keeping

variable {sha256 : List UInt8 → List UInt8} {hashes : List (List UInt8)} {v w : View}
  {cs : List (List UInt8)}

theorem Move.keeps (h : Move sha256 hashes v cs w) (hv : v.Ok sha256 hashes) :
    w.Ok sha256 hashes := by
  obtain ⟨m, hdel, hnext, hdelayed⟩ := hv.delivered
  cases h with
  | frameDelayed next log c taken =>
    have hnext : m + 1 = next := hnext
    have hhash := hdelayed c rfl
    cases taken with
    | true => exact ⟨m + 1, .taken hdel hhash, hnext, fun _ h => by cases h⟩
    | false => exact ⟨m + 1, .skipped hdel hhash, hnext, fun _ h => by cases h⟩
  | take next log c hash =>
    have hnext : m = next := hnext
    subst hnext
    exact ⟨m + 1, .taken hdel hash, rfl, fun _ h => by cases h⟩
  | refuse next log c hash =>
    have hnext : m = next := hnext
    subst hnext
    exact ⟨m, .repeated hdel hash, rfl, fun _ h => by cases h⟩
  | delay next log c hash =>
    have hnext : m = next := hnext
    subst hnext
    refine ⟨m, hdel, rfl, fun x hx => ?_⟩
    cases hx
    exact hash

theorem Move.log_prefix (h : Move sha256 hashes v cs w) : v.log <+: w.log := by
  cases h with
  | delay next log c hash => exact List.prefix_rfl
  | _ => exact List.prefix_append _ _

theorem Move.offered (h : Move sha256 hashes v cs w) : w.offered = v.offered ++ cs := by
  cases h <;> simp [View.offered]

theorem Moves.keeps (h : Moves sha256 hashes v cs w) (hv : v.Ok sha256 hashes) :
    w.Ok sha256 hashes := by
  induction h with
  | refl v => exact hv
  | cons move _ ih => exact ih (move.keeps hv)

theorem Moves.log_prefix (h : Moves sha256 hashes v cs w) : v.log <+: w.log := by
  induction h with
  | refl v => exact List.prefix_rfl
  | cons move _ ih => exact move.log_prefix.trans ih

theorem Moves.offered (h : Moves sha256 hashes v cs w) : w.offered = v.offered ++ cs := by
  induction h with
  | refl v => simp
  | cons move rest ih => rw [ih, move.offered, List.append_assoc]

end Keeping

end Curvy.Sparrow
