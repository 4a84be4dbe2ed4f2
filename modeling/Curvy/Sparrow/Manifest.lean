import Curvy.Lib.Chunks
import Curvy.Sparrow.Framer

/-!
# The manifest stream

Chunks are hashed before they reach the framer. `sha256` and the framer are parameters;
`parallel` is the build feature under which a whole chunk is framed only while the next one
is hashed. `authenticated` stays empty without it.
-/

namespace Curvy.Sparrow

set_option autoImplicit false

open Outcome

/-- A decoded chunk manifest. -/
structure ZkeyChunkManifest where
  chunkBytes : Nat
  zkeyBytes : Nat
  chunkHashes : List (List UInt8)
  chunkBytes_mem : 64 * 1024 ≤ chunkBytes ∧ chunkBytes ≤ 8 * 1024 * 1024
  zkeyBytes_pos : 0 < zkeyBytes
  chunkHashes_length : chunkHashes.length = (zkeyBytes + (chunkBytes - 1)) / chunkBytes

/-- What the stream needs of the framer and the builder behind it. -/
structure Framer (F B : Type) where
  push : List UInt8 → F → Except StreamingError Unit × F
  finish : F → Except StreamingError B

structure ManifestProofStream (F : Type) where
  manifest : ZkeyChunkManifest
  nextChunk : Nat
  received : Nat
  pending : List UInt8
  authenticated : Option (List UInt8)
  framer : F

namespace ManifestProofStream

variable {F B : Type} (sha256 : List UInt8 → List UInt8) (ops : Framer F B)

def new (manifest : ZkeyChunkManifest) (framer : F) : ManifestProofStream F :=
  ⟨manifest, 0, 0, [], none, framer⟩

def invalid {α : Type} (message : String) (s : ManifestProofStream F) :
    Except StreamingError α × ManifestProofStream F := (.error (.invalidZkey message), s)

/-- Hands a chunk to the framer. -/
def frame (bytes : List UInt8) (s : ManifestProofStream F) :
    Except StreamingError Unit × ManifestProofStream F :=
  ((ops.push bytes s.framer).1, { s with framer := (ops.push bytes s.framer).2 })

def frameAuthenticated (s : ManifestProofStream F) :
    Except StreamingError Unit × ManifestProofStream F :=
  match s.authenticated with
  | some chunk => frame ops chunk { s with authenticated := none }
  | none => (.ok (), s)

def hashMismatch (index : Nat) (expected actual : List UInt8) : StreamingError :=
  .zkeyChunkHashMismatch index (hexDigest expected) (hexDigest actual)

def authenticateChunk (bytes : List UInt8) (s : ManifestProofStream F) :
    Except StreamingError Unit × ManifestProofStream F :=
  next (frameAuthenticated ops s) fun _ s =>
    match s.manifest.chunkHashes[s.nextChunk]? with
    | none => invalid "too many zkey chunks" s
    | some expected =>
      if sha256 bytes ≠ expected then
        (.error (hashMismatch s.nextChunk expected (sha256 bytes)), s)
      else next (frame ops bytes s) fun _ s => (.ok (), { s with nextChunk := s.nextChunk + 1 })

def authenticatePending (s : ManifestProofStream F) :
    Except StreamingError Unit × ManifestProofStream F :=
  authenticateChunk sha256 ops s.pending { s with pending := [] }

/-- Every round takes a byte as long as `pending` is short of a chunk. -/
def pushRounds : Nat → List UInt8 → ManifestProofStream F →
    Except StreamingError Unit × ManifestProofStream F
  | 0, _, s => (.ok (), s)
  | rounds + 1, bytes, s =>
    if bytes = [] then (.ok (), s)
    else
      let take := min (s.manifest.chunkBytes - s.pending.length) bytes.length
      let s := { s with pending := s.pending ++ bytes.take take }
      if s.pending.length = s.manifest.chunkBytes then
        next (authenticatePending sha256 ops s) fun _ s => pushRounds rounds (bytes.drop take) s
      else pushRounds rounds (bytes.drop take) s

def push (bytes : List UInt8) (s : ManifestProofStream F) :
    Except StreamingError Unit × ManifestProofStream F :=
  if s.received + bytes.length ≥ 2 ^ 64 then invalid "zkey byte count overflow" s
  else
    let s := { s with received := s.received + bytes.length }
    if s.received > s.manifest.zkeyBytes then invalid "zkey stream exceeds manifest size" s
    else pushRounds sha256 ops bytes.length bytes s

def checkCompleteChunk (bytes : List UInt8) (s : ManifestProofStream F) :
    Except StreamingError Unit :=
  if s.pending ≠ [] then .error (.invalidZkey "cannot mix partial and complete manifest chunks")
  else if s.manifest.zkeyBytes < s.received then .error (.invalidZkey "zkey byte count overflow")
  else
    let expected := min (s.manifest.zkeyBytes - s.received) s.manifest.chunkBytes
    if expected = 0 ∨ bytes.length ≠ expected then
      .error (.invalidZkey "complete zkey chunk has the wrong size")
    else .ok ()

def pushCompleteChunkRef (bytes : List UInt8) (s : ManifestProofStream F) :
    Except StreamingError Unit × ManifestProofStream F :=
  match checkCompleteChunk bytes s with
  | .error e => (.error e, s)
  | .ok () =>
    next (authenticateChunk sha256 ops bytes s) fun _ s =>
      (.ok (), { s with received := s.received + bytes.length })

/-- With `parallel` the previous chunk is framed while this one is hashed. -/
def pushCompleteChunk (parallel : Bool) (bytes : List UInt8) (s : ManifestProofStream F) :
    Except StreamingError Unit × ManifestProofStream F :=
  if parallel then
    match checkCompleteChunk bytes s with
    | .error e => (.error e, s)
    | .ok () =>
      match s.manifest.chunkHashes[s.nextChunk]? with
      | none => invalid "too many zkey chunks" s
      | some expected =>
        next (frameAuthenticated ops s) fun _ s =>
          if sha256 bytes ≠ expected then
            (.error (hashMismatch s.nextChunk expected (sha256 bytes)), s)
          else (.ok (), { s with
            nextChunk := s.nextChunk + 1
            received := s.received + bytes.length
            authenticated := some bytes })
  else pushCompleteChunkRef sha256 ops bytes s

/-- The first mismatch of a batch; a parallel build may report another of them. -/
def verifyChunks : Nat → List (List UInt8) → List (List UInt8) → Except StreamingError Unit
  | index, chunk :: chunks, expected :: hashes =>
    if sha256 chunk ≠ expected then .error (hashMismatch index expected (sha256 chunk))
    else verifyChunks (index + 1) chunks hashes
  | _, _, _ => .ok ()

def frameChunks : List (List UInt8) → ManifestProofStream F →
    Except StreamingError Unit × ManifestProofStream F
  | [], s => (.ok (), s)
  | chunk :: chunks, s =>
    next (frame ops chunk s) fun _ s => frameChunks chunks { s with
      nextChunk := s.nextChunk + 1, received := s.received + chunk.length }

def pushCompleteChunksRef (bytes : List UInt8) (s : ManifestProofStream F) :
    Except StreamingError Unit × ManifestProofStream F :=
  if s.pending ≠ [] ∨ bytes = [] then invalid "invalid complete zkey chunk batch" s
  else
    next (frameAuthenticated ops s) fun _ s =>
      if s.manifest.zkeyBytes < s.received then invalid "zkey byte count overflow" s
      else if bytes.length > s.manifest.zkeyBytes - s.received ∨
          bytes.length ≠ s.manifest.zkeyBytes - s.received ∧
            bytes.length % s.manifest.chunkBytes ≠ 0 then
        invalid "complete zkey chunk batch has the wrong size" s
      else
        let chunks := bytes.chunks s.manifest.chunkBytes
        if s.manifest.chunkHashes.length < s.nextChunk + chunks.length then
          invalid "too many zkey chunks" s
        else
          let expected := (s.manifest.chunkHashes.drop s.nextChunk).take chunks.length
          match verifyChunks sha256 s.nextChunk chunks expected with
          | .error e => (.error e, s)
          | .ok () => frameChunks ops chunks s

/-- The chunks `finish` still frames: a short last one and the delayed one. -/
def drain (s : ManifestProofStream F) : Except StreamingError Unit × ManifestProofStream F :=
  next (if s.pending ≠ [] then authenticatePending sha256 ops s else (.ok (), s)) fun _ s =>
    if s.nextChunk ≠ s.manifest.chunkHashes.length then
      invalid "zkey chunk count disagrees with manifest size" s
    else frameAuthenticated ops s

def finish (s : ManifestProofStream F) : Except StreamingError B :=
  if s.received ≠ s.manifest.zkeyBytes then .error .unexpectedEof
  else
    match drain sha256 ops s with
    | (.error e, _) => .error e
    | (.ok (), s) => ops.finish s.framer

/-! ## Calls -/

inductive Call where
  | push (bytes : List UInt8)
  | completeChunk (bytes : List UInt8)
  | completeChunksRef (bytes : List UInt8)
  deriving DecidableEq

def Call.bytes : Call → List UInt8
  | .push bytes | .completeChunk bytes | .completeChunksRef bytes => bytes

def step (parallel : Bool) : Call → ManifestProofStream F →
    Except StreamingError Unit × ManifestProofStream F
  | .push bytes => push sha256 ops bytes
  | .completeChunk bytes => pushCompleteChunk sha256 ops parallel bytes
  | .completeChunksRef bytes => pushCompleteChunksRef sha256 ops bytes

/-- The results of the calls and the stream after them. -/
def run (parallel : Bool) : List Call → ManifestProofStream F →
    List (Except StreamingError Unit) × ManifestProofStream F
  | [], s => ([], s)
  | call :: calls, s =>
    let (result, s) := step sha256 ops parallel call s
    let (results, s) := run parallel calls s
    (result :: results, s)

end ManifestProofStream

/-- A framer that keeps a log of the chunks it was handed and whether it took them. -/
def Framer.logged {F B : Type} (ops : Framer F B) :
    Framer (F × List (List UInt8 × Bool)) (B × List (List UInt8 × Bool)) where
  push bytes f :=
    ((ops.push bytes f.1).1,
      (ops.push bytes f.1).2, f.2 ++ [(bytes, (ops.push bytes f.1).1.isOk)])
  finish f := (ops.finish f.1).map fun b => (b, f.2)

end Curvy.Sparrow
