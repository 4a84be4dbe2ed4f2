import Curvy.Lib.Codec
import Curvy.Prover.AuthenticatedReader
import Curvy.Sparrow.Manifest

/-!
# Chunk manifests

The pinned list of chunk digests of a zkey: its encoding, its generation from a reader and
the recheck of a whole zkey. `sha256` is a parameter and a reader is any `Source`.
-/

namespace Curvy.Prover

set_option autoImplicit false

open Sparrow (hexDigest)

inductive ArtifactError where
  | invalidExpectedHash
  | zkeyHashMismatch (expected actual : String)
  | manifestHashMismatch (expected actual : String)
  | manifestZkeyHashMismatch (expected actual : String)
  | zkeyChunkHashMismatch (index : Nat) (expected actual : String)
  | invalidZkey (message : String)
  | unexpectedEof
  | io (error : IoError)
  deriving DecidableEq, Repr

def isAsciiHexdigit (c : Char) : Bool :=
  ('0' ≤ c && c ≤ '9') || ('a' ≤ c && c ≤ 'f') || ('A' ≤ c && c ≤ 'F')

def toAsciiLowercase (value : String) : String := String.ofList (value.toList.map Char.toLower)

def normalizeHash (value : String) : Except ArtifactError String :=
  if value.toList.length ≠ 64 ∨ ¬ value.toList.all isAsciiHexdigit then .error .invalidExpectedHash
  else .ok (toAsciiLowercase value)

def invalid {α : Type} (message : String) : Except ArtifactError α := .error (.invalidZkey message)

/-- `CVYZKM01`. -/
def manifestMagic : List UInt8 := [0x43, 0x56, 0x59, 0x5a, 0x4b, 0x4d, 0x30, 0x31]

def manifestVersion : Nat := 1
def headerBytes : Nat := 60
def hashBytes : Nat := 32
def minChunkBytes : Nat := 64 * 1024
def maxChunkBytes : Nat := 8 * 1024 * 1024

abbrev ValidChunkBytes (chunkBytes : Nat) : Prop :=
  (minChunkBytes ≤ chunkBytes ∧ chunkBytes ≤ maxChunkBytes) ∧ 2 ^ chunkBytes.log2 = chunkBytes

/-- The manifest of the stream with the digest it claims for the whole file. -/
structure ZkeyChunkManifest extends Sparrow.ZkeyChunkManifest where
  zkeySha256 : String

/-- `bytes[start..stop]`. -/
def slice (bytes : List UInt8) (start stop : Nat) : List UInt8 := (bytes.drop start).take (stop - start)

namespace ZkeyChunkManifest

variable (sha256 : List UInt8 → List UInt8)

/-- The chunks of a zkey of `zkeyBytes` bytes, `div_ceil`. -/
def chunkCount (zkeyBytes chunkBytes : Nat) : Nat := (zkeyBytes + (chunkBytes - 1)) / chunkBytes

/-- The checks of `from_bytes` behind the manifest's own digest. -/
def decode (bytes : List UInt8) (expectedZkeySha256 : String) :
    Except ArtifactError ZkeyChunkManifest :=
  if bytes.length < headerBytes ∨ bytes.take 8 ≠ manifestMagic then
    invalid "invalid zkey chunk manifest header"
  else if leNat (slice bytes 8 12) ≠ manifestVersion then
    invalid "unsupported zkey chunk manifest version"
  else
    let chunkBytes := leNat (slice bytes 12 16)
    if hchunk : ValidChunkBytes chunkBytes then
      let zkeyBytes := leNat (slice bytes 16 24)
      let zkeySha256 := hexDigest (slice bytes 24 56)
      match normalizeHash expectedZkeySha256 with
      | .error e => .error e
      | .ok expectedZkey =>
        if zkeySha256 ≠ expectedZkey then .error (.manifestZkeyHashMismatch expectedZkey zkeySha256)
        else
          let count := leNat (slice bytes 56 60)
          let chunkHashes := (bytes.drop headerBytes).chunks hashBytes
          if hcount : (zkeyBytes ≠ 0 ∧ count = chunkCount zkeyBytes chunkBytes) ∧
              bytes.length = headerBytes + count * hashBytes then
            .ok { chunkBytes, zkeyBytes, chunkHashes, zkeySha256
                  chunkBytes_mem := hchunk.1
                  zkeyBytes_pos := Nat.pos_of_ne_zero hcount.1.1
                  chunkHashes_length := by
                    have hlength : (bytes.drop headerBytes).length = count * hashBytes := by
                      rw [List.length_drop, hcount.2]
                      omega
                    have hcount' : count = (zkeyBytes + (chunkBytes - 1)) / chunkBytes := hcount.1.2
                    rw [List.length_chunks (by decide), hlength, ← hcount']
                    unfold hashBytes
                    omega }
          else invalid "zkey manifest size or chunk count mismatch"
    else invalid "invalid zkey manifest chunk size"

def fromBytes (bytes : List UInt8) (expectedManifestSha256 expectedZkeySha256 : String) :
    Except ArtifactError ZkeyChunkManifest :=
  match normalizeHash expectedManifestSha256 with
  | .error e => .error e
  | .ok expectedManifest =>
    if hexDigest (sha256 bytes) ≠ expectedManifest then
      .error (.manifestHashMismatch expectedManifest (hexDigest (sha256 bytes)))
    else decode bytes expectedZkeySha256

/-! ## Generation -/

/-- The bytes of a manifest. -/
def encode (chunkBytes zkeyBytes : Nat) (zkeyDigest : List UInt8) (chunkHashes : List (List UInt8)) :
    List UInt8 :=
  manifestMagic ++ (leBytes 4 manifestVersion ++ (leBytes 4 chunkBytes ++ (leBytes 8 zkeyBytes ++
    (zkeyDigest ++ (leBytes 4 chunkHashes.length ++ chunkHashes.flatten)))))

variable {S : Type} (source : Source S)

/-- The loop that fills a chunk; `none` if it still runs after `rounds` reads. -/
def fillChunk : Nat → List UInt8 → Nat → S → Option ((Except IoError Nat × List UInt8) × S)
  | 0, _, _, _ => none
  | rounds + 1, chunk, filled, s =>
    if filled ≠ chunk.length then
      match source.read (chunk.drop filled) s with
      | ((.error e, slice), s) => some ((.error e, chunk.take filled ++ slice), s)
      | ((.ok count, slice), s) =>
        if count = 0 then some ((.ok filled, chunk.take filled ++ slice), s)
        else fillChunk rounds (chunk.take filled ++ slice) (filled + count) s
    else some ((.ok filled, chunk), s)

/-- What generation has hashed: the bytes so far, and the digests of their chunks. -/
structure Hashed where
  zkey : List UInt8
  chunkHashes : List (List UInt8)

/-- The loop of `generate`; `none` if it still runs after `rounds` chunks or reads of one chunk. -/
def hashChunks (fillRounds : Nat) : Nat → Hashed → List UInt8 → S → Option (Except ArtifactError Hashed)
  | 0, _, _, _ => none
  | rounds + 1, h, chunk, s =>
    match fillChunk source fillRounds chunk 0 s with
    | none => none
    | some ((.error e, _), _) => some (.error (.io e))
    | some ((.ok filled, chunk), s) =>
      if filled = 0 then some (.ok h)
      else
        let h' : Hashed := ⟨h.zkey ++ chunk.take filled, h.chunkHashes ++ [sha256 (chunk.take filled)]⟩
        if h.zkey.length + filled ≥ 2 ^ 64 then some (invalid "zkey size overflow")
        else if filled ≠ chunk.length then some (.ok h')
        else hashChunks fillRounds rounds h' chunk s

/-- The manifest's bytes and their digest. -/
def generate (rounds chunkBytes : Nat) (s : S) : Option (Except ArtifactError (List UInt8 × String)) :=
  if ¬ ValidChunkBytes chunkBytes then
    some (invalid "manifest chunk size must be a power of two from 64 KiB to 8 MiB")
  else
    match hashChunks sha256 source rounds rounds ⟨[], []⟩ (List.replicate chunkBytes 0) s with
    | none => none
    | some (.error e) => some (.error e)
    | some (.ok h) =>
      if h.zkey.length = 0 then some (invalid "cannot manifest an empty zkey")
      else if h.chunkHashes.length ≥ 2 ^ 32 then some (invalid "too many manifest chunks")
      else
        let encoded := encode chunkBytes h.zkey.length (sha256 h.zkey) h.chunkHashes
        some (.ok (encoded, hexDigest (sha256 encoded)))

/-! ## Rechecking a zkey -/

/-- Reads and checks the chunks of the table; the buffer and the bytes seen so far come back. -/
def verifyChunks (m : ZkeyChunkManifest) : List (List UInt8) → (index received : Nat) →
    (chunk whole : List UInt8) → S → Except ArtifactError (List UInt8 × List UInt8) × S
  | [], _, _, chunk, whole, s => (.ok (chunk, whole), s)
  | expected :: hashes, index, received, chunk, whole, s =>
    if m.zkeyBytes < received then (invalid "manifest chunk table exceeds zkey size", s)
    else
      let count := min (m.zkeyBytes - received) m.chunkBytes
      match source.readExact (chunk.take count) s with
      | ((.error e, _), s) => (.error (if e.kind = .unexpectedEof then .unexpectedEof else .io e), s)
      | ((.ok (), bytes), s) =>
        if sha256 bytes ≠ expected then
          (.error (.zkeyChunkHashMismatch index (hexDigest expected) (hexDigest (sha256 bytes))), s)
        else verifyChunks m hashes (index + 1) (received + count) (bytes ++ chunk.drop count)
          (whole ++ bytes) s

def verifyReader (m : ZkeyChunkManifest) (s : S) : Except ArtifactError Unit :=
  match verifyChunks sha256 source m m.chunkHashes 0 0 (List.replicate m.chunkBytes 0) [] s with
  | (.error e, _) => .error e
  | (.ok (chunk, whole), s) =>
    match (source.read (chunk.take 1) s).1.1 with
    | .error e => .error (.io e)
    | .ok count =>
      if count ≠ 0 then invalid "zkey stream exceeds manifest size"
      else if hexDigest (sha256 whole) ≠ m.zkeySha256 then
        .error (.zkeyHashMismatch m.zkeySha256 (hexDigest (sha256 whole)))
      else .ok ()

end ZkeyChunkManifest

end Curvy.Prover
