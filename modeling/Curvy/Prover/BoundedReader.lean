import Curvy.Prover.AuthenticatedReader

/-!
# A reader capped at a byte limit

The inner reader is a parameter with its own position. A capped reader keeps a second,
logical position, and the two are to stay equal over every run of reads and seeks.
-/

namespace Curvy.Prover

set_option autoImplicit false

/-- An inner reader; `read` gets the size of the slice and returns the bytes it put there. -/
structure SeekableSource (S : Type) where
  read : Nat → S → Except IoError (List UInt8) × S
  seekStart : Nat → S → Except IoError Nat × S
  seekEnd : S → Except IoError Nat × S

structure BoundedReader (S : Type) where
  inner : S
  limit : Nat
  position : Nat

namespace BoundedReader

open AuthenticatedReader (SeekFrom checkedAddSigned)

variable {S : Type} (source : SeekableSource S)

def exceedsLimit : IoError := ⟨.invalidData, "artifact exceeds byte limit"⟩

def seekExceedsLimit : IoError := ⟨.invalidInput, "seek exceeds artifact byte limit"⟩

def new (inner : S) (limit : Nat) : Except IoError (BoundedReader S) :=
  match source.seekEnd inner with
  | (.error e, _) => .error e
  | (.ok length, inner) =>
    if limit < length then .error exceedsLimit
    else match source.seekStart 0 inner with
      | (.error e, _) => .error e
      | (.ok _, inner) => .ok ⟨inner, limit, 0⟩

def remaining (r : BoundedReader S) : Nat := r.limit - r.position

/-- One byte more than remains, to notice a file that has grown. -/
def wanted (size : Nat) (r : BoundedReader S) : Nat :=
  min size (min (r.remaining + 1) (2 ^ 64 - 1))

def read (size : Nat) (r : BoundedReader S) : Except IoError (List UInt8) × BoundedReader S :=
  match source.read (r.wanted size) r.inner with
  | (.error e, inner) => (.error e, { r with inner })
  | (.ok bytes, inner) =>
    if r.remaining < bytes.length then (.error exceedsLimit, { r with inner })
    else (.ok bytes, { r with inner, position := r.position + bytes.length })

/-- The tail of a seek: the target must be there and within the limit. -/
def seekTo (target : Option Nat) (r : BoundedReader S) : Except IoError Nat × BoundedReader S :=
  match target.filter (· ≤ r.limit) with
  | none => (.error seekExceedsLimit, r)
  | some position =>
    match source.seekStart position r.inner with
    | (.error e, inner) => (.error e, { r with inner })
    | (.ok _, inner) => (.ok position, { r with inner, position })

def seek (target : SeekFrom) (r : BoundedReader S) : Except IoError Nat × BoundedReader S :=
  match target with
  | .start position => seekTo source (some position.toNat) r
  | .current offset => seekTo source (checkedAddSigned r.position offset) r
  | .end offset =>
    match source.seekEnd r.inner with
    | (.error e, inner) => (.error e, { r with inner })
    | (.ok length, inner) =>
      match source.seekStart r.position inner with
      | (.error e, inner) => (.error e, { r with inner })
      | (.ok _, inner) =>
        seekTo source (if r.limit < length then none else checkedAddSigned length offset)
          { r with inner }

/-! ## Runs -/

/-- A call on the reader, or a change of the inner stream behind its back. -/
inductive Op (S : Type) where
  | read (size : Nat)
  | seek (target : SeekFrom)
  | changed (change : S → S)

def step : Op S → BoundedReader S → BoundedReader S
  | .read size, r => (read source size r).2
  | .seek target, r => (seek source target r).2
  | .changed change, r => { r with inner := change r.inner }

/-- What the `Read` and `Seek` traits document: a read returns the stream's bytes at its
position and advances past them, a failed one moves nothing, a seek goes where it is told. -/
structure Contract (position : S → Nat) (bytes : S → List UInt8) : Prop where
  read_ok : ∀ size s out s', source.read size s = (.ok out, s') →
    out = ((bytes s).drop (position s)).take out.length ∧ position s' = position s + out.length
  read_error : ∀ size s e s', source.read size s = (.error e, s') → position s' = position s
  seekStart_ok : ∀ target s p s', source.seekStart target s = (.ok p, s') → position s' = target

variable (position : S → Nat)

/-- The inner reader stands where the logical position says. -/
def Aligned (r : BoundedReader S) : Prop := position r.inner = r.position

/-- A seek of the inner reader that, if it fails, leaves it at `p`. -/
def Settles (p : Nat) (x : Except IoError Nat × S) : Prop :=
  ∀ e, x.1 = .error e → position x.2 = p

def SettlesTo (target : Option Nat) (r : BoundedReader S) : Prop :=
  ∀ p, target.filter (· ≤ r.limit) = some p →
    Settles position r.position (source.seekStart p r.inner)

/-- The inner reader delivers nothing past the limit, and where a seek of it fails it stays at
the logical position. -/
def Within (r : BoundedReader S) : Op S → Prop
  | .read size => ∀ out s, source.read (r.wanted size) r.inner = (.ok out, s) →
    out.length ≤ r.remaining
  | .seek (.start p) => SettlesTo source position (some p.toNat) r
  | .seek (.current offset) => SettlesTo source position (checkedAddSigned r.position offset) r
  | .seek (.end offset) => Settles position r.position (source.seekEnd r.inner) ∧
    ∀ length s, source.seekEnd r.inner = (.ok length, s) →
      Settles position r.position (source.seekStart r.position s) ∧
      ∀ p s', source.seekStart r.position s = (.ok p, s') →
        SettlesTo source position (if r.limit < length then none else checkedAddSigned length offset)
          { r with inner := s' }
  | .changed change => position (change r.inner) = position r.inner

/-- The states of a run from `r₀` all of whose steps are within. -/
inductive Reached (r₀ : BoundedReader S) : BoundedReader S → Prop where
  | start : Reached r₀ r₀
  | step {r : BoundedReader S} {op : Op S} (h : Reached r₀ r)
    (within : Within source position r op) : Reached r₀ (step source op r)

variable {source position} {bytes : S → List UInt8} {r r₀ : BoundedReader S}

theorem read_aligned (hc : Contract source position bytes) (h : Aligned position r) (size : Nat) :
    Aligned position (read source size r).2 ↔
      ∀ out s, source.read (r.wanted size) r.inner = (.ok out, s) → out.length ≤ r.remaining := by
  have hbefore : position r.inner = r.position := h
  unfold read
  rcases hread : source.read (r.wanted size) r.inner with ⟨e | out, inner⟩
  · constructor
    · intro _ out s hout
      cases hout
    · intro _
      exact (hc.read_error _ _ e inner hread).trans h
  · have hmoved := (hc.read_ok _ _ out inner hread).2
    dsimp only
    by_cases hover : r.remaining < out.length
    · rw [if_pos hover]
      constructor
      · intro haligned
        have hafter : position inner = r.position := haligned
        omega
      · intro hwithin
        exact absurd (hwithin out inner rfl) (Nat.not_le.mpr hover)
    · rw [if_neg hover]
      constructor
      · intro _ out' s hout
        cases hout
        exact Nat.not_lt.mp hover
      · intro _
        change position inner = r.position + out.length
        rw [hmoved, hbefore]

theorem seekTo_aligned (hc : Contract source position bytes) (h : Aligned position r)
    (target : Option Nat) :
    Aligned position (seekTo source target r).2 ↔ SettlesTo source position target r := by
  unfold seekTo SettlesTo
  cases target.filter (· ≤ r.limit) with
  | none => exact ⟨fun _ p hp => (by cases hp), fun _ => h⟩
  | some p =>
    dsimp only
    cases hseek : source.seekStart p r.inner with
    | mk result inner =>
      cases result with
      | error e =>
        constructor
        · intro haligned q hq
          obtain rfl := Option.some.inj hq
          rw [hseek]
          exact fun _ _ => haligned
        · intro hsettles
          have hs := hsettles p rfl
          rw [hseek] at hs
          exact hs e rfl
      | ok q =>
        constructor
        · intro _ q' hq'
          obtain rfl := Option.some.inj hq'
          rw [hseek]
          exact fun e he => (by cases he)
        · intro _
          exact hc.seekStart_ok p r.inner q inner hseek

theorem seekEnd_aligned (hc : Contract source position bytes) (offset : Int64) :
    Aligned position (seek source (.end offset) r).2 ↔
      Settles position r.position (source.seekEnd r.inner) ∧
      ∀ length s, source.seekEnd r.inner = (.ok length, s) →
        Settles position r.position (source.seekStart r.position s) ∧
        ∀ p s', source.seekStart r.position s = (.ok p, s') →
          SettlesTo source position
            (if r.limit < length then none else checkedAddSigned length offset)
            { r with inner := s' } := by
  unfold seek
  dsimp only
  rcases source.seekEnd r.inner with ⟨e | length, inner⟩
  · constructor
    · intro haligned
      exact ⟨fun _ _ => haligned, fun _ _ hlength => by cases hlength⟩
    · intro hwithin
      exact hwithin.1 e rfl
  · dsimp only
    rcases hback : source.seekStart r.position inner with ⟨e | p, inner'⟩
    · constructor
      · intro haligned
        refine ⟨fun _ he => (by cases he), fun l s hl => ?_⟩
        cases hl
        rw [hback]
        exact ⟨fun _ _ => haligned, fun _ _ hp => by cases hp⟩
      · intro hwithin
        have hsettles := (hwithin.2 length inner rfl).1
        rw [hback] at hsettles
        exact hsettles e rfl
    · -- the restored reader is aligned again, whatever stood there before
      have htail := seekTo_aligned (r := { r with inner := inner' }) hc
        (hc.seekStart_ok _ _ p inner' hback)
        (if r.limit < length then none else checkedAddSigned length offset)
      constructor
      · intro haligned
        refine ⟨fun _ he => (by cases he), fun l s hl => ?_⟩
        cases hl
        rw [hback]
        refine ⟨fun _ he => (by cases he), fun q s hq => ?_⟩
        cases hq
        exact htail.mp haligned
      · intro hwithin
        exact htail.mpr ((hwithin.2 length inner rfl).2 p inner' hback)

/-- A step keeps the positions together exactly when it is within. -/
theorem step_aligned (hc : Contract source position bytes) (h : Aligned position r) (op : Op S) :
    Aligned position (step source op r) ↔ Within source position r op := by
  cases op with
  | read size => exact read_aligned hc h size
  | seek target =>
    cases target with
    | start p => exact seekTo_aligned hc h (some p.toNat)
    | current offset => exact seekTo_aligned hc h (checkedAddSigned r.position offset)
    | «end» offset => exact seekEnd_aligned hc offset
  | changed change =>
    have hbefore : position r.inner = r.position := h
    unfold Within
    rw [hbefore]
    exact Iff.rfl

/-! ## What a reached state shows -/

theorem seekTo_bounded (hr : r.position ≤ r.limit) (target : Option Nat) :
    (seekTo source target r).2.position ≤ r.limit ∧
      (seekTo source target r).2.limit = r.limit := by
  unfold seekTo
  rcases htarget : target.filter (· ≤ r.limit) with _ | p
  · exact ⟨hr, rfl⟩
  · have hp := (Option.filter_eq_some_iff.mp htarget).2
    dsimp only
    rcases source.seekStart p r.inner with ⟨e | _, inner⟩
    · exact ⟨hr, rfl⟩
    · exact ⟨of_decide_eq_true hp, rfl⟩

/-- No step moves the logical position past the limit. -/
theorem step_bounded (hr : r.position ≤ r.limit) (op : Op S) :
    (step source op r).position ≤ r.limit ∧ (step source op r).limit = r.limit := by
  cases op with
  | read size =>
    unfold step read
    dsimp only
    rcases source.read (r.wanted size) r.inner with ⟨e | out, inner⟩
    · exact ⟨hr, rfl⟩
    · dsimp only
      split
      · exact ⟨hr, rfl⟩
      · rename_i hfits
        unfold remaining at hfits
        dsimp only
        constructor
        · omega
        · rfl
  | seek target =>
    cases target with
    | start p => exact seekTo_bounded hr _
    | current offset => exact seekTo_bounded hr _
    | «end» offset =>
      unfold step seek
      dsimp only
      rcases source.seekEnd r.inner with ⟨e | length, inner⟩
      · exact ⟨hr, rfl⟩
      · dsimp only
        rcases source.seekStart r.position inner with ⟨e | p, inner'⟩
        · exact ⟨hr, rfl⟩
        · exact seekTo_bounded (r := { r with inner := inner' }) hr _
  | changed change => exact ⟨hr, rfl⟩

theorem new_aligned (hc : Contract source position bytes) {inner : S} {limit : Nat}
    (h : new source inner limit = .ok r) : Aligned position r ∧ r.position = 0 ∧ r.limit = limit := by
  unfold new at h
  rcases hend : source.seekEnd inner with ⟨e | length, s⟩
  · rw [hend] at h
    cases h
  · rw [hend] at h
    dsimp only at h
    split at h
    · cases h
    · rcases hstart : source.seekStart 0 s with ⟨e | p, s'⟩
      · rw [hstart] at h
        cases h
      · rw [hstart] at h
        obtain rfl := Except.ok.inj h
        exact ⟨hc.seekStart_ok 0 s p s' hstart, rfl, rfl⟩

theorem Reached.invariant (hc : Contract source position bytes) {inner : S} {limit : Nat}
    (hnew : new source inner limit = .ok r₀) (h : Reached source position r₀ r) :
    Aligned position r ∧ r.position ≤ limit ∧ r.limit = limit := by
  obtain ⟨haligned, hzero, hlimit⟩ := new_aligned hc hnew
  induction h with
  | start => exact ⟨haligned, by omega, hlimit⟩
  | @step r op _ hwithin ih =>
    obtain ⟨hr, hle, hlim⟩ := ih
    obtain ⟨hle', hlim'⟩ : (BoundedReader.step source op r).position ≤ r.limit ∧
        (BoundedReader.step source op r).limit = r.limit := step_bounded (by omega) op
    exact ⟨(step_aligned hc hr op).mpr hwithin, by omega, hlim'.trans hlim⟩

/-- In every state of a run whose steps are all within, the two positions agree, what a read
returns is the inner stream's bytes there and ends within the limit, and the next step keeps
the positions together if and only if it is within too. -/
theorem reads_honest_while_within (hc : Contract source position bytes) {inner : S} {limit : Nat}
    (hnew : new source inner limit = .ok r₀) (h : Reached source position r₀ r) :
    position r.inner = r.position ∧
    (∀ size out r', read source size r = (.ok out, r') →
      out = ((bytes r.inner).drop r.position).take out.length ∧
        r.position + out.length ≤ limit ∧ r'.position = r.position + out.length) ∧
    ∀ op, position (step source op r).inner = (step source op r).position ↔
      Within source position r op := by
  obtain ⟨haligned, hle, hlimit⟩ := h.invariant hc hnew
  have hposition : position r.inner = r.position := haligned
  refine ⟨hposition, ?_, step_aligned hc haligned⟩
  intro size out r' hread
  unfold read at hread
  rcases hinner : source.read (r.wanted size) r.inner with ⟨e | _, s⟩
  · rw [hinner] at hread
    cases hread
  · rw [hinner] at hread
    dsimp only at hread
    split at hread
    · cases hread
    · rename_i hfits
      obtain ⟨hout, rfl⟩ := Prod.mk.inj hread
      obtain rfl := Except.ok.inj hout
      have hbytes := (hc.read_ok _ _ _ s hinner).1
      rw [hposition] at hbytes
      unfold remaining at hfits
      exact ⟨hbytes, by omega, rfl⟩

/-! ## A file in memory -/

/-- Contents and position, as a cursor over a vector has them. -/
def cursor : SeekableSource (List UInt8 × Nat) where
  read size s :=
    (.ok ((s.1.drop s.2).take size), (s.1, s.2 + ((s.1.drop s.2).take size).length))
  seekStart p s := (.ok p, (s.1, p))
  seekEnd s := (.ok s.1.length, (s.1, s.1.length))

theorem cursor_contract : Contract cursor Prod.snd Prod.fst where
  read_ok := by
    intro size s out s' h
    obtain ⟨hout, rfl⟩ := Prod.mk.inj h
    obtain rfl := Except.ok.inj hout
    refine ⟨?_, rfl⟩
    rw [List.length_take, ← List.take_take, List.take_length]
  read_error := by
    intro size s e s' h
    cases h
  seekStart_ok := by
    intro target s p s' h
    obtain ⟨-, rfl⟩ := Prod.mk.inj h
    rfl

theorem reads_honest_while_within_example : ∃ r₀, new cursor ([1, 2, 3, 4], 0) 4 = .ok r₀ ∧
    (step cursor (.read 3) r₀).inner.2 = (step cursor (.read 3) r₀).position := by
  have hnew : new cursor ([1, 2, 3, 4], 0) 4 = .ok ⟨([1, 2, 3, 4], 0), 4, 0⟩ := rfl
  refine ⟨_, hnew, ?_⟩
  apply (reads_honest_while_within cursor_contract hnew (.step .start _)).1
  intro out s hout
  cases hout
  decide

/-- A file that grows past the limit: the read that notices it has moved the inner reader, and
the next read shows the sixth byte on as the first. -/
theorem grown_file_misplaces_bytes :
    Contract cursor Prod.snd Prod.fst ∧
    ∃ r₀ r₁ r₂ : BoundedReader (List UInt8 × Nat),
      new cursor ([1, 2, 3, 4], 0) 4 = .ok r₀ ∧
      read cursor 8 (step cursor (.changed fun s => (s.1 ++ [5, 6, 7, 8], s.2)) r₀) =
        (.error exceedsLimit, r₁) ∧
      r₁.position = 0 ∧ r₁.inner.2 = 5 ∧
      read cursor 3 r₁ = (.ok [6, 7, 8], r₂) ∧ (r₁.inner.1.drop 0).take 3 = [1, 2, 3] :=
  ⟨cursor_contract, ⟨([1, 2, 3, 4], 0), 4, 0⟩, ⟨([1, 2, 3, 4, 5, 6, 7, 8], 5), 4, 0⟩,
    ⟨([1, 2, 3, 4, 5, 6, 7, 8], 8), 4, 3⟩, rfl, rfl, rfl, rfl, rfl, rfl⟩

end BoundedReader
end Curvy.Prover
