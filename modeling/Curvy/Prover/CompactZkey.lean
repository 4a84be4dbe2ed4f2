import Curvy.Lib.Chunks
import Curvy.Lib.Panic
import Curvy.Prover.AuthenticatedReader
import Curvy.Prover.Roots
import Curvy.Prover.ZkeyPoints

/-!
# Compact zkeys

The encoder and the decoder of compact zkey files. The zstd decoder, the SHA-256 function,
arkworks' compressed points and the allocator are parameters. Every slice, index and size of the
decoder that could be out of range is a call that may panic.
-/

namespace Curvy.Prover

set_option autoImplicit false

inductive CompactZkeyError where
  | notAZkey (what : String)
  | malformed (what : String)
  | tooLarge (maximum : Nat)
  | allocationFailed (bytes : Nat)
  | invalidPoint (id index : Nat)
  | sourceDigestMismatch (expected actual : String)
  | lossy (what : String)
  | zstd (what : String)
  | io (error : IoError)
  deriving DecidableEq, Repr

namespace CompactZkey

/-! ## What arkworks and zstd do -/

inductive SWFlags where
  | yIsPositive
  | pointAtInfinity
  | yIsNegative
  deriving DecidableEq, Repr

/-- arkworks' code for a curve over `F`; `less` is `<` of its order on the field. -/
structure ArkCurve (F : Type) where
  deserializeWithFlags : List UInt8 → Option (F × SWFlags)
  serializeCompressed : Affine F → List UInt8
  coeffB : F
  less : F → F → Bool

structure Arkworks where
  g1 : ArkCurve Fq
  g2 : ArkCurve Fq2

/-- What the streaming decoder makes of the bytes it is opened on: the body it delivers, the
failure it ends with instead of the end of the frame, and what is left of the source. -/
structure Frame where
  body : List UInt8
  failure : Option IoError
  checksumFromData : Option Nat
  calculatedChecksum : Option Nat
  source : List UInt8
  deriving DecidableEq, Repr

/-- `StreamingDecoder::new_with_max_window_size`. -/
abbrev ZstdDecoder := List UInt8 → Except String Frame

abbrev Sha256 := List UInt8 → Vector UInt8 32

/-- Whether the memory for a reservation of so many bytes is there. -/
abbrev Allocator := Nat → Bool

/-! ## Constants and tables -/

def magic : List UInt8 := [0x43, 0x56, 0x59, 0x5a, 0x4b, 0x43, 0x30, 0x31]
def headerBytes : Nat := 48
def maxSections : Nat := 64
def bodyHeaderBytes : Nat := 8
def sectionEntryBytes : Nat := 13
def zkeyMagic : List UInt8 := [0x7a, 0x6b, 0x65, 0x79]
def zkeyHeaderBytes : Nat := 12
def zkeySectionHeaderBytes : Nat := 12
def g1Raw : Nat := 64
def g1Compact : Nat := 32
def g2Raw : Nat := 128
def g2Compact : Nat := 64
def coefficientRaw : Nat := 3 * 4 + 32
def pointsPerBatch : Nat := 1 <<< 16
def coefficientsPerBatch : Nat := 1 <<< 16

def infinity (size : Nat) : List UInt8 := List.replicate (size - 1) 0 ++ [0x40]
def g1Infinity : List UInt8 := infinity g1Compact
def g2Infinity : List UInt8 := infinity g2Compact

inductive SectionEncoding where
  | raw
  | g1
  | g2
  | coefficients
  deriving DecidableEq, Repr

namespace SectionEncoding

def tag : SectionEncoding → UInt8
  | .raw => 0
  | .g1 => 1
  | .g2 => 2
  | .coefficients => 3

def fromTag (tag : UInt8) : Option SectionEncoding :=
  if tag = 0 then some .raw
  else if tag = 1 then some .g1
  else if tag = 2 then some .g2
  else if tag = 3 then some .coefficients
  else none

def forSection (id : Nat) : SectionEncoding :=
  match id with
  | 3 | 5 | 6 | 8 | 9 => .g1
  | 7 => .g2
  | 4 => .coefficients
  | _ => .raw

/-- The size that must divide a section. -/
def unit : SectionEncoding → Nat
  | .g1 => g1Raw
  | .g2 => g2Raw
  | .raw | .coefficients => 1

end SectionEncoding

structure CompactSection where
  id : Nat
  zkeyBytes : Nat
  encoding : SectionEncoding
  deriving DecidableEq, Repr

/-! ## Calls -/

abbrev Call (α : Type) := Except (Stop CompactZkeyError) α

abbrev Body (α : Type) := Decoder (Stop CompactZkeyError) α

abbrev require (fine : Prop) [Decidable fine] : Call Unit := Panic.require fine

abbrev word (value : Nat) : Call Nat := Panic.word value

abbrev expect {α : Type} (x : Option α) : Call α := Panic.expect x

def fail {α : Type} (error : CompactZkeyError) : Call α := .error (.error error)

abbrev refuseIf (bad : Prop) [Decidable bad] (error : CompactZkeyError) : Call Unit :=
  Panic.refuse bad error

/-- At most `isize::MAX` bytes, and the memory is there. -/
def Reserves (grants : Allocator) (capacity : Nat) : Prop :=
  capacity < 2 ^ 63 ∧ grants capacity = true

instance (grants : Allocator) (capacity : Nat) : Decidable (Reserves grants capacity) :=
  inferInstanceAs (Decidable (_ ∧ _))

def tryReserveExact (grants : Allocator) (capacity : Nat) (error : CompactZkeyError) : Call Unit :=
  refuseIf (¬ Reserves grants capacity) error

def truncated : CompactZkeyError := .malformed "truncated"

def readError : Option IoError → CompactZkeyError
  | none => truncated
  | some error => if error.kind = .unexpectedEof then truncated else .io error

def readExact (failure : Option IoError) (count : Nat) : Body (List UInt8) :=
  Decoder.takeOr (.error (readError failure)) count

/-- `read_some` at the end of what the reader delivers. -/
def readSome (remaining : List UInt8) (failure : Option IoError) : Call Bool :=
  if remaining ≠ [] then .ok true
  else match failure with
    | none => .ok false
    | some error => fail (.io error)

/-- `bytes[offset..offset + width]` as a little-endian integer. -/
def intAt (bytes : List UInt8) (offset width : Nat) : Call Nat := do
  require (offset + width ≤ bytes.length)
  return leNat ((bytes.drop offset).take width)

def u32At (bytes : List UInt8) (offset : Nat) : Call Nat := intAt bytes offset 4

def u64At (bytes : List UInt8) (offset : Nat) : Call Nat := intAt bytes offset 8

/-- The coefficient count, checked against the section's length. -/
def coefficientCount (entry : CompactSection) (count : Option (List UInt8)) : Call Nat := do
  match count with
  | none => fail (.malformed s!"section {entry.id}: no coefficient count")
  | some bytes =>
    let count ← u32At bytes 0
    let expected := count * coefficientRaw + 4
    refuseIf (2 ^ 64 ≤ expected ∨ expected ≠ entry.zkeyBytes)
      (.malformed s!"section {entry.id}: {count} coefficients do not fill {entry.zkeyBytes} bytes")
    return count

/-! ## The tables -/

def readFileHeader (maxZkeyBytes : Nat) : Body (List UInt8 × Nat) := do
  let header ← readExact none headerBytes
  refuseIf (header.take 8 ≠ magic) (.malformed "no CVYZKC01 magic")
  let zkeyBytes ← u64At header 40
  refuseIf (zkeyBytes > maxZkeyBytes) (.tooLarge maxZkeyBytes)
  return ((header.drop 8).take 32, zkeyBytes)

def entryEncoding (tag : UInt8) : Call SectionEncoding :=
  match SectionEncoding.fromTag tag with
  | some encoding => .ok encoding
  | none => fail (.malformed s!"unknown section encoding {tag}")

def readEntry (failure : Option IoError) : Body CompactSection := do
  let entry ← readExact failure sectionEntryBytes
  let id ← u32At entry 0
  let zkeyBytes ← u64At entry 4
  let encoding ← entryEncoding (← expect entry[12]?)
  refuseIf (zkeyBytes % encoding.unit ≠ 0)
    (.malformed s!"section {id}: {zkeyBytes} bytes is not a whole number of points")
  return { id, zkeyBytes, encoding }

/-- The table loop over the running total. -/
def readEntries (failure : Option IoError) : Nat → Nat → Body (List CompactSection × Nat)
  | 0, total => return ([], total)
  | count + 1, total => do
    let entry ← readEntry failure
    let total := total + zkeySectionHeaderBytes + entry.zkeyBytes
    refuseIf (2 ^ 64 ≤ total) (.malformed "section lengths overflow")
    let (entries, total) ← readEntries failure count total
    return (entry :: entries, total)

def readBodyHeader (failure : Option IoError) (zkeyBytes : Nat) :
    Body (Nat × List CompactSection) := do
  let header ← readExact failure bodyHeaderBytes
  let zkeyVersion ← u32At header 0
  let count ← u32At header 4
  refuseIf (count > maxSections)
    (.malformed s!"{count} sections, more than the {maxSections} a compact zkey may list")
  refuseIf (count > (zkeyBytes - zkeyHeaderBytes) / zkeySectionHeaderBytes)
    (.malformed "more sections than the zkey length allows")
  let (entries, total) ← readEntries failure count zkeyHeaderBytes
  refuseIf (total ≠ zkeyBytes)
    (.malformed s!"sections add up to {total} bytes, the header says {zkeyBytes}")
  return (zkeyVersion, entries)

/-! ## Points -/

section Points
variable {F : Type} [Field F]

/-- The root the compressed encoding names. -/
def chooseRoot (curve : ArkCurve F) (root : F) (flags : SWFlags) : F :=
  let negated := -root
  let (smaller, larger) := if curve.less root negated then (root, negated) else (negated, root)
  if flags = .yIsPositive then smaller else larger

/-- One compressed point to snarkjs's coordinates; `some none` is a refusal. -/
def decodePoint (curve : ArkCurve F) (infinity : List UInt8) (rawBytes : Nat)
    (sqrt : F → Option (Option F)) (write : F → List UInt8) (compact : List UInt8) :
    Option (Option (List UInt8)) := do
  match curve.deserializeWithFlags compact with
  | none => return none
  | some (x, flags) =>
    if flags = .pointAtInfinity then
      if compact ≠ infinity then return none else return some (List.replicate rawBytes 0)
    else
      match ← sqrt (x ^ 2 * x + curve.coeffB) with
      | none => return none
      | some y => return some (write x ++ write (chooseRoot curve y flags))

end Points

def decodeG1 (ark : Arkworks) : List UInt8 → Option (Option (List UInt8)) :=
  decodePoint ark.g1 g1Infinity g1Raw sqrtFq writeLimbs

def decodeG2 (ark : Arkworks) : List UInt8 → Option (Option (List UInt8)) :=
  decodePoint ark.g2 g2Infinity g2Raw sqrtFq2 writeLimbs2

/-- The points of one batch from `offset` on; the first that does not decode is reported. -/
def decodeEach (id batch : Nat) (decode : List UInt8 → Option (Option (List UInt8))) :
    Nat → List (List UInt8) → Call (List UInt8)
  | _, [] => .ok []
  | offset, compact :: points => do
    match ← expect (decode compact) with
    | none =>
      let index ← word (batch * pointsPerBatch + offset)
      fail (.invalidPoint id index)
    | some raw => return raw ++ (← decodeEach id batch decode (offset + 1) points)

/-- One batch into `raw`, through a buffer of `capacity` bytes. -/
def decodeBatch (failure : Option IoError) (id compactBytes rawBytes : Nat)
    (decode : List UInt8 → Option (Option (List UInt8))) (capacity batch : Nat)
    (raw : List UInt8) : Body (List UInt8) := do
  let points := raw.length / rawBytes
  let size ← word (points * compactBytes)
  require (size ≤ capacity)
  let compact ← readExact failure size
  let decoded ← decodeEach id batch decode 0 (compact.chunks compactBytes)
  return decoded ++ raw.drop (points * rawBytes)

def decodeBatches (failure : Option IoError) (id compactBytes rawBytes : Nat)
    (decode : List UInt8 → Option (Option (List UInt8))) (capacity : Nat) :
    Nat → List (List UInt8) → Body (List UInt8)
  | _, [] => return []
  | batch, raw :: batches => do
    let done ← decodeBatch failure id compactBytes rawBytes decode capacity batch raw
    return done ++
      (← decodeBatches failure id compactBytes rawBytes decode capacity (batch + 1) batches)

def decodePoints (failure : Option IoError) (region : List UInt8) (id compactBytes rawBytes : Nat)
    (decode : List UInt8 → Option (Option (List UInt8))) : Body (List UInt8) := do
  let batchBytes ← word (pointsPerBatch * rawBytes)
  let capacity ← word (min region.length batchBytes / rawBytes * compactBytes)
  decodeBatches failure id compactBytes rawBytes decode capacity 0 (region.chunks batchBytes)

/-! ## Coefficients -/

/-- `record[offset..offset + width].copy_from_slice(value)`. -/
def overwrite (offset width : Nat) (record value : List UInt8) : Call (List UInt8) := do
  require (offset + width ≤ record.length ∧ value.length = width)
  return record.take offset ++ value ++ record.drop (offset + width)

def overwriteEach (offset width : Nat) :
    List (List UInt8) → List (List UInt8) → Call (List UInt8)
  | record :: records, value :: values => do
    let done ← overwrite offset width record value
    return done ++ (← overwriteEach offset width records values)
  | records, _ => .ok records.flatten

/-- One column of one batch of records. -/
def decodeColumnBatch (failure : Option IoError) (offset width capacity : Nat)
    (batch : List UInt8) : Body (List UInt8) := do
  let entries := batch.length / coefficientRaw
  let size ← word (entries * width)
  require (size ≤ capacity)
  let values ← readExact failure size
  let whole := entries * coefficientRaw
  let done ← overwriteEach offset width ((batch.take whole).chunks coefficientRaw)
    (values.chunks width)
  return done ++ batch.drop whole

def decodeColumnBatches (failure : Option IoError) (offset width capacity : Nat) :
    List (List UInt8) → Body (List UInt8)
  | [] => return []
  | batch :: batches => do
    let done ← decodeColumnBatch failure offset width capacity batch
    return done ++ (← decodeColumnBatches failure offset width capacity batches)

def decodeColumn (failure : Option IoError) (offset width capacity : Nat)
    (records : List UInt8) : Body (List UInt8) :=
  decodeColumnBatches failure offset width capacity
    (records.chunks (coefficientsPerBatch * coefficientRaw))

/-- The columns of a record: offset and width. -/
def coefficientColumns : List (Nat × Nat) := [(0, 4), (4, 4), (8, 4), (12, 32)]

def decodeColumns (failure : Option IoError) (capacity : Nat) :
    List (Nat × Nat) → List UInt8 → Body (List UInt8)
  | [], records => return records
  | (offset, width) :: columns, records => do
    let records ← decodeColumn failure offset width capacity records
    decodeColumns failure capacity columns records

def decodeCoefficients (failure : Option IoError) (region : List UInt8)
    (entry : CompactSection) : Body (List UInt8) := do
  require (4 ≤ region.length)
  let head ← readExact failure 4
  let count ← coefficientCount entry (some head)
  let capacity ← word (min count coefficientsPerBatch * 32)
  return head ++ (← decodeColumns failure capacity coefficientColumns (region.drop 4))

/-! ## The decoder -/

def decodeSection (ark : Arkworks) (failure : Option IoError) (entry : CompactSection)
    (region : List UInt8) : Body (List UInt8) :=
  match entry.encoding with
  | .raw => readExact failure region.length
  | .g1 => decodePoints failure region entry.id g1Compact g1Raw (decodeG1 ark)
  | .g2 => decodePoints failure region entry.id g2Compact g2Raw (decodeG2 ark)
  | .coefficients => decodeCoefficients failure region entry

/-- The loop over the table, onto the zkey so far. -/
def decodeSections (ark : Arkworks) (failure : Option IoError) :
    List CompactSection → List UInt8 → Body (List UInt8)
  | [], zkey => return zkey
  | entry :: entries, zkey => do
    let zkey := zkey ++ leBytes 4 entry.id ++ leBytes 8 entry.zkeyBytes
    let start := zkey.length
    let stop ← word (start + entry.zkeyBytes)
    let region ← decodeSection ark failure entry (List.replicate (stop - start) 0)
    decodeSections ark failure entries (zkey ++ region)

def decodeBody (sha256 : Sha256) (ark : Arkworks) (grants : Allocator) (failure : Option IoError)
    (zkeySha256 : List UInt8) (zkeyBytes : Nat) : Body (List UInt8) := do
  let (zkeyVersion, entries) ← readBodyHeader failure zkeyBytes
  refuseIf (2 ^ 64 ≤ zkeyBytes) (.tooLarge (2 ^ 64 - 1))
  tryReserveExact grants zkeyBytes (.allocationFailed zkeyBytes)
  let zkey := zkeyMagic ++ leBytes 4 zkeyVersion ++ leBytes 4 entries.length
  let zkey ← decodeSections ark failure entries zkey
  let actual := (sha256 zkey).toList
  refuseIf (actual ≠ zkeySha256)
    (.sourceDigestMismatch (Sparrow.hexDigest zkeySha256) (Sparrow.hexDigest actual))
  return zkey

def zstdDecoder (zstd : ZstdDecoder) (frame : List UInt8) : Call Frame :=
  match zstd frame with
  | .ok frame => .ok frame
  | .error what => fail (.zstd what)

def inflate (zstd : ZstdDecoder) (sha256 : Sha256) (ark : Arkworks) (grants : Allocator)
    (file : List UInt8) (maxZkeyBytes : Nat) : Call (List UInt8) := do
  let ((zkeySha256, zkeyBytes), rest) ← readFileHeader maxZkeyBytes file
  let frame ← zstdDecoder zstd rest
  let (zkey, remaining) ← decodeBody sha256 ark grants frame.failure zkeySha256 zkeyBytes frame.body
  refuseIf (← readSome remaining frame.failure) (.malformed "bytes follow the last section")
  refuseIf (frame.checksumFromData.isSome ∧ frame.calculatedChecksum ≠ frame.checksumFromData)
    (.zstd "checksum mismatch")
  refuseIf (← readSome frame.source none) (.zstd "bytes follow the zstd frame")
  return zkey

/-! ## The encoder -/

/-- The loop over the section headers of a zkey, from its remaining bytes. -/
def layoutFrom : Nat → List UInt8 → Call (List (CompactSection × List UInt8))
  | 0, remaining => do
    refuseIf (remaining ≠ []) (.notAZkey "bytes follow the last section")
    return []
  | count + 1, remaining => do
    refuseIf (remaining.length < zkeySectionHeaderBytes) (.notAZkey "truncated section header")
    let id ← u32At remaining 0
    let length ← u64At remaining 4
    let remaining := remaining.drop zkeySectionHeaderBytes
    refuseIf (length > remaining.length) (.notAZkey "a section runs past the end of the file")
    let layout ← layoutFrom count (remaining.drop length)
    return ({ id, zkeyBytes := length, encoding := .forSection id }, remaining.take length) :: layout

def zkeyLayout (zkey : List UInt8) : Call (Nat × List (CompactSection × List UInt8)) := do
  refuseIf (zkey.length < zkeyHeaderBytes ∨ zkey.take 4 ≠ zkeyMagic) (.notAZkey "no zkey magic")
  let version ← u32At zkey 4
  let count ← u32At zkey 8
  refuseIf (count > maxSections)
    (.lossy s!"the zkey has {count} sections; a compact zkey lists at most {maxSections}")
  return (version, ← layoutFrom count (zkey.drop zkeyHeaderBytes))

/-- The points of a section, each read back and written compressed. -/
def encodePoints {F : Type} (lossy : String → CompactZkeyError) (curve : ArkCurve F)
    (deserialize : ZkeyReader (Affine F)) : Nat → List (List UInt8) → Call (List UInt8)
  | _, [] => .ok []
  | index, raw :: points => do
    match deserialize raw with
    | .error _ => fail (lossy s!"point {index} is not canonical")
    | .ok (point, _) =>
      return curve.serializeCompressed point ++
        (← encodePoints lossy curve deserialize (index + 1) points)

def encodeSection (ark : Arkworks) (entry : CompactSection) (bytes : List UInt8) :
    Call (List UInt8) := do
  let lossy := fun what : String => CompactZkeyError.lossy s!"section {entry.id}: {what}"
  match entry.encoding with
  | .raw => return bytes
  | .g1 =>
    refuseIf (bytes.length % g1Raw ≠ 0) (lossy "not a whole number of G1 points")
    encodePoints lossy ark.g1 deserializeG1 0 (bytes.chunks g1Raw)
  | .g2 =>
    refuseIf (bytes.length % g2Raw ≠ 0) (lossy "not a whole number of G2 points")
    encodePoints lossy ark.g2 deserializeG2 0 (bytes.chunks g2Raw)
  | .coefficients =>
    let head := if bytes.length < 4 then none else some (bytes.take 4)
    match coefficientCount entry head with
    | .error .panic => .error .panic
    | .error (.error _) => fail (lossy "not a coefficient section")
    | .ok _ =>
      let records := (bytes.drop 4).chunks coefficientRaw
      let column := fun index => records.flatMap fun record => (record.drop (index * 4)).take 4
      return bytes.take 4 ++ (column 0 ++ column 1 ++ column 2) ++
        records.flatMap fun record => record.drop 12

def encodeSections (ark : Arkworks) : List (CompactSection × List UInt8) → Call (List UInt8)
  | [] => .ok []
  | (entry, bytes) :: layout => do
    let encoded ← encodeSection ark entry bytes
    return encoded ++ (← encodeSections ark layout)

def spellEntry (entry : CompactSection) : List UInt8 :=
  leBytes 4 entry.id ++ leBytes 8 entry.zkeyBytes ++ [entry.encoding.tag]

/-- What the encoder reserves for the body. -/
def bodyCapacity (zkeyBytes sections : Nat) : Nat :=
  zkeyBytes / 2 + bodyHeaderBytes + sectionEntryBytes * sections

def encode (zstd : ZstdDecoder) (sha256 : Sha256) (ark : Arkworks) (grants : Allocator)
    (zkey : List UInt8) (compress : List UInt8 → List UInt8) : Call (List UInt8) := do
  let (version, layout) ← zkeyLayout zkey
  tryReserveExact grants (bodyCapacity zkey.length layout.length) (.allocationFailed zkey.length)
  let sections ← encodeSections ark layout
  let body := leBytes 4 version ++ leBytes 4 layout.length ++
    layout.flatMap (fun entry => spellEntry entry.1) ++ sections
  let frame := compress body
  let file := magic ++ (sha256 zkey).toList ++ leBytes 8 zkey.length ++ frame
  match inflate zstd sha256 ark grants file zkey.length with
  | .error .panic => .error .panic
  | .error (.error _) => fail (.lossy "the encoded file does not decode")
  | .ok decoded =>
    if decoded ≠ zkey then fail (.lossy "decoded bytes differ") else return file

end CompactZkey
end Curvy.Prover
