import Curvy.Lib.Chunks
import Curvy.Lib.Panic
import Curvy.Sparrow.Framer
import Mathlib.Algebra.Group.Int.Defs

/-!
# A reader that shows authenticated bytes only

The constructor hashes the whole source and every chunk of it. Later reads go through one
buffered chunk that is hashed again when it is filled. The source is a parameter: it may
answer anything, and nothing ties an answer to the ones before. A digest or a chunk out of range
is a panic.
-/

namespace Curvy.Prover

set_option autoImplicit false

def readerChunkBytes : Nat := 64 * 1024

inductive IoErrorKind where
  | interrupted
  | unexpectedEof
  | invalidData
  | invalidInput
  | other
  deriving DecidableEq, Repr

structure IoError where
  kind : IoErrorKind
  message : String
  deriving DecidableEq, Repr

inductive ProverError where
  | invalidExpectedHash
  | zkeyHashMismatch (expected actual : String)
  | zkeyIo (error : IoError)
  deriving DecidableEq, Repr

/-- A source. A call gets the slice to fill and returns it as it left it, of the same length;
the bytes counted as read are at its front. -/
structure Source (S : Type) where
  read : List UInt8 → S → (Except IoError Nat × List UInt8) × S
  readExact : List UInt8 → S → (Except IoError Unit × List UInt8) × S
  seekStart : Nat → S → Except IoError Unit × S
  read_length : ∀ slice s, (read slice s).1.2.length = slice.length
  read_count : ∀ slice s count, (read slice s).1.1 = .ok count → count ≤ slice.length
  readExact_length : ∀ slice s, (readExact slice s).1.2.length = slice.length

structure AuthenticatedReader (S : Type) where
  source : S
  length : Nat
  position : Nat
  hashes : List (List UInt8)
  buffer : List UInt8
  cachedChunk : Option Nat

def hexValue (c : Char) : Option Nat :=
  if '0' ≤ c ∧ c ≤ '9' then some (c.toNat - '0'.toNat)
  else if 'a' ≤ c ∧ c ≤ 'f' then some (c.toNat - 'a'.toNat + 10)
  else if 'A' ≤ c ∧ c ≤ 'F' then some (c.toNat - 'A'.toNat + 10)
  else none

def hexPairs : List Nat → List UInt8
  | high :: low :: digits => UInt8.ofNat (16 * high + low) :: hexPairs digits
  | _ => []

def decodeSha256 (value : String) : Except ProverError (List UInt8) :=
  match value.toList.mapM hexValue with
  | some digits =>
    if digits.length ≠ 64 then .error .invalidExpectedHash else .ok (hexPairs digits)
  | none => .error .invalidExpectedHash

def verifyDigest (actual : List UInt8) (expectedSha256 : String) : Except ProverError Unit :=
  match decodeSha256 expectedSha256 with
  | .error e => .error e
  | .ok expected =>
    if actual ≠ expected then
      .error (.zkeyHashMismatch (Sparrow.hexDigest expected) (Sparrow.hexDigest actual))
    else .ok ()

namespace AuthenticatedReader

variable {S : Type} (sha256 : List UInt8 → List UInt8) (source : Source S)

/-- The loop that fills the buffer; `none` if it still runs after `rounds` reads. -/
def fill : Nat → List UInt8 → Nat → S → Option ((Except IoError Nat × List UInt8) × S)
  | 0, _, _, _ => none
  | rounds + 1, buffer, filled, s =>
    if filled < buffer.length then
      match source.read (buffer.drop filled) s with
      | ((.ok count, slice), s) =>
        if count = 0 then some ((.ok filled, buffer.take filled ++ slice), s)
        else fill rounds (buffer.take filled ++ slice) (filled + count) s
      | ((.error e, slice), s) =>
        if e.kind = .interrupted then fill rounds (buffer.take filled ++ slice) filled s
        else some ((.error e, buffer.take filled ++ slice), s)
    else some ((.ok filled, buffer), s)

/-- What the first pass has hashed: the bytes so far and the digests of their chunks. -/
structure Pass where
  seen : List UInt8
  hashes : List (List UInt8)
  buffer : List UInt8

/-- The first pass; `none` if it still runs after `rounds` chunks or reads of one chunk. -/
def pass (fillRounds : Nat) : Nat → Pass → S → Option (Except IoError Pass × S)
  | 0, _, _ => none
  | rounds + 1, p, s =>
    match fill source fillRounds p.buffer 0 s with
    | none => none
    | some ((.error e, _), s) => some (.error e, s)
    | some ((.ok filled, buffer), s) =>
      if filled = 0 then some (.ok { p with buffer }, s)
      else
        let seen := p.seen ++ buffer.take filled
        let p : Pass := ⟨seen, p.hashes ++ [sha256 (buffer.take filled)], buffer⟩
        if seen.length ≥ 2 ^ 64 then some (.error ⟨.other, "zkey length overflow"⟩, s)
        else if filled < readerChunkBytes then some (.ok p, s)
        else pass fillRounds rounds p s

/-- `none` if the first pass does not end within `rounds` rounds. -/
def new (rounds : Nat) (s : S) (expectedSha256 : String) :
    Option (Except ProverError (AuthenticatedReader S)) :=
  match decodeSha256 expectedSha256 with
  | .error e => some (.error e)
  | .ok _ =>
    match source.seekStart 0 s with
    | (.error e, _) => some (.error (.zkeyIo e))
    | (.ok (), s) =>
      match pass sha256 source rounds rounds ⟨[], [], List.replicate readerChunkBytes 0⟩ s with
      | none => none
      | some (.error e, _) => some (.error (.zkeyIo e))
      | some (.ok p, s) =>
        match verifyDigest (sha256 p.seen) expectedSha256 with
        | .error e => some (.error e)
        | .ok () => some (.ok ⟨s, p.seen.length, 0, p.hashes, p.buffer, none⟩)

def changed (index : Nat) : IoError :=
  ⟨.invalidData, s!"zkey changed after authentication (chunk {index})"⟩

def cacheChunk (index : Nat) (r : AuthenticatedReader S) :
    Except (Stop IoError) Unit × AuthenticatedReader S :=
  if r.cachedChunk = some index then (.ok (), r)
  else
    let start := index * readerChunkBytes
    if r.length < start then (.error .panic, { r with cachedChunk := none })
    else
      let count := min (r.length - start) readerChunkBytes
      match source.seekStart start r.source with
      | (.error e, s) => (.error (.error e), { r with cachedChunk := none, source := s })
      | (.ok (), s) =>
        match source.readExact (r.buffer.take count) s with
        | ((.error e, slice), s) =>
          (.error (.error e),
            { r with cachedChunk := none, source := s, buffer := slice ++ r.buffer.drop count })
        | ((.ok (), slice), s) =>
          let r := { r with cachedChunk := none, source := s, buffer := slice ++ r.buffer.drop count }
          match r.hashes[index]? with
          | none => (.error .panic, r)
          | some expected =>
            if sha256 (r.buffer.take count) ≠ expected then (.error (.error (changed index)), r)
            else (.ok (), { r with cachedChunk := some index })

/-- A read into an output of `size` bytes; it returns the bytes it put there. -/
def read (size : Nat) (r : AuthenticatedReader S) :
    Except (Stop IoError) (List UInt8) × AuthenticatedReader S :=
  if size = 0 ∨ r.position ≥ r.length then (.ok [], r)
  else
    let index := r.position / readerChunkBytes
    match cacheChunk sha256 source index r with
    | (.error e, r) => (.error e, r)
    | (.ok (), r) =>
      let offset := r.position % readerChunkBytes
      let count := min (min size (readerChunkBytes - offset))
        (min (r.length - r.position) readerChunkBytes)
      (.ok ((r.buffer.drop offset).take count), { r with position := r.position + count })

inductive SeekFrom where
  | start (position : UInt64)
  | current (offset : Int64)
  | end (offset : Int64)
  deriving DecidableEq

/-- `checked_add_signed` on a 64-bit value. -/
def checkedAddSigned (position : Nat) (offset : Int64) : Option Nat :=
  let moved := (position : Int) + offset.toInt
  if 0 ≤ moved ∧ moved < 2 ^ 64 then some moved.toNat else none

def SeekFrom.target (position length : Nat) : SeekFrom → Option Nat
  | .start position => some position.toNat
  | .current offset => checkedAddSigned position offset
  | .end offset => checkedAddSigned length offset

def seek (target : SeekFrom) (r : AuthenticatedReader S) :
    Except IoError Nat × AuthenticatedReader S :=
  match target.target r.position r.length with
  | none => (.error ⟨.invalidInput, "invalid zkey seek"⟩, r)
  | some position => (.ok position, { r with position })

/-! ## Calls -/

/-- A call on the reader, or a change of the source behind its back. -/
inductive Op (S : Type) where
  | read (size : Nat)
  | seek (target : SeekFrom)
  | tamper (change : S → S)

inductive Outcome where
  | bytes (result : Except (Stop IoError) (List UInt8))
  | position (result : Except IoError Nat)
  | tampered

def step : Op S → AuthenticatedReader S → Outcome × AuthenticatedReader S
  | .read size, r => (.bytes (read sha256 source size r).1, (read sha256 source size r).2)
  | .seek target, r => (.position (seek target r).1, (seek target r).2)
  | .tamper change, r => (.tampered, { r with source := change r.source })

def run : List (Op S) → AuthenticatedReader S → List Outcome × AuthenticatedReader S
  | [], r => ([], r)
  | op :: ops, r =>
    let (outcome, r) := step sha256 source op r
    let (outcomes, r) := run ops r
    (outcome :: outcomes, r)

end AuthenticatedReader

end Curvy.Prover
