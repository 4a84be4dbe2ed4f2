import Curvy.Lib.Total
import Curvy.Witness.Decoding

/-!
# Parsing on machine words

The decoder with every slice, index, shift, sum and difference of its own checked: what a debug
build would stop at is a panic here. Nothing in it ever panics.
-/

namespace Curvy.Witness.Machine

set_option autoImplicit false

open Panic

abbrev Reader (α : Type) := Decoder (Stop WitnessError) α

/-- A condition whose failure stops the machine. -/
def check (fine : Prop) [Decidable fine] : Except (Stop WitnessError) Unit := require fine

/-! ## The reader -/

/-- `split_at` stops beyond the end. -/
def take (length : Nat) : Reader (List UInt8) := fun remaining =>
  if remaining.length < length then .error (.error .truncated)
  else do
    check (length ≤ remaining.length)
    return (remaining.take length, remaining.drop length)

def u8 : Reader Nat := do
  let bytes ← take 1
  let byte ← (expect bytes[0]? : Except (Stop WitnessError) UInt8)
  return byte.toNat

def u16 : Reader Nat := leNat <$> take 2
def u32 : Reader Nat := leNat <$> take 4
def u64 : Reader Nat := leNat <$> take 8

/-- The shift is by less than the width of the word and drops what leaves it. -/
def varU64From : Nat → Nat → Nat → Reader Nat
  | 0, _, _ => throw (.error .invalidVarint)
  | rounds + 1, index, value => do
    let byte ← u8
    let payload := byte &&& 0x7f
    refuse (index = 9 ∧ byte &&& 0xfe ≠ 0) WitnessError.invalidVarint
    check (index * 7 < 64)
    let value := value ||| payload <<< (index * 7) % 2 ^ 64
    if byte &&& 0x80 = 0 then
      refuse (index ≠ 0 ∧ payload = 0) WitnessError.nonCanonicalVarint
      return value
    else varU64From rounds (index + 1) value

def varU64 : Reader Nat := varU64From 10 0 0

def varU32 : Reader Nat := do
  let value ← varU64
  refuse (value ≥ 2 ^ 32) WitnessError.invalidVarint
  return value

/-! ## Header -/

def readHeader (signetV2 : Bool) (limits : Limits) : Reader Header := do
  let magic ← take 8
  refuse (¬ (magic = Wire.legacyMagic ∨ magic = Wire.magic)) WitnessError.invalidMagic
  let version ← total (readVersion signetV2 (← u16))
  let field ← u16
  refuse (field ≠ Wire.fieldBn254Fr) (WitnessError.unsupportedField field)
  let headerSize ← u32
  refuse (headerSize ≠ Wire.headerSize) (WitnessError.invalidHeaderSize headerSize)
  let r1csSha256 ← take 32
  let nodeCount ← total (checkedCount "node" (← u32) limits.nodes)
  let signalCount ← total (checkedCount "signal" (← u32) limits.signals)
  let inputMappingCount ← total (checkedCount "input mapping" (← u32) limits.inputMappings)
  let inputBufferLen ← total (checkedCount "input value" (← u32) limits.inputValues)
  refuse (nodeCount = 0 ∨ signalCount = 0 ∨ inputBufferLen = 0) WitnessError.emptyGraph
  return {
    magic, version, r1csSha256, nodeCount, signalCount, inputMappingCount, inputBufferLen }

/-! ## Node records -/

def decodeBackwardReference (index : Nat) : Reader Nat := do
  let distance ← varU64
  refuse (distance = 0 ∨ distance > index) (WitnessError.invalidBackwardReference index distance)
  check (distance ≤ index)
  return index - distance

def readNodeRecordV1 (index inputBufferLen : Nat) : Reader NodeRecord := do
  let tag ← u8
  match tag with
  | 0 => total (checkedInput (← u32) index inputBufferLen)
  | 1 => return .constant (← take 32)
  | 2 =>
    let operation ← total (Operation.fromTag (← u8) index)
    let left ← u32
    let right ← u32
    total (validateReference index left)
    total (validateReference index right)
    return .operation operation left right
  | 3 =>
    let source ← u32
    total (validateReference index source)
    return .inverse source
  | _ => throw (.error (.invalidNodeTag index tag))

def readNodeRecordV2 (index inputBufferLen : Nat) : Reader NodeRecord := do
  let tag ← u8
  if tag = Wire.v2InputTag then
    total (checkedInput (← varU32) index inputBufferLen)
  else if tag = Wire.v2ConstantTag then
    return .constant (← take 32)
  else if tag = Wire.v2InverseTag then
    return .inverse (← decodeBackwardReference index)
  else if tag ≤ 0x7f then
    let operation ← total (Operation.fromTag tag index)
    let left ← decodeBackwardReference index
    let right ← decodeBackwardReference index
    return .operation operation left right
  else throw (.error (.invalidNodeTag index tag))

def readNodeRecord (version : FormatVersion) (index inputBufferLen : Nat) : Reader NodeRecord :=
  match version with
  | .v1 => readNodeRecordV1 index inputBufferLen
  | .v2 => readNodeRecordV2 index inputBufferLen

def forRecords {σ : Type} (header : Header) (body : Nat → NodeRecord → σ → Except WitnessError σ) :
    Nat → Nat → σ → Reader σ
  | 0, _, s => return s
  | count + 1, index, s => do
    let record ← readNodeRecord header.version index header.inputBufferLen
    let s ← total (body index record s)
    forRecords header body count (index + 1) s

/-! ## Outputs and input mappings -/

def readSignalsV1 (nodeCount : Nat) : Nat → Nat → Reader (List Nat)
  | 0, _ => return []
  | count + 1, index => do
    let reference ← u32
    refuse (reference ≥ nodeCount) (WitnessError.outputReference index reference)
    return reference :: (← readSignalsV1 nodeCount count (index + 1))

/-- `i128` arithmetic. -/
def i128 (x : Int) : Except (Stop WitnessError) Int :=
  if -170141183460469231731687303715884105728 ≤ x ∧ x < 170141183460469231731687303715884105728 then
    .ok x
  else .error .panic

def decodeOutputDelta (previous nodeCount index : Nat) : Reader Nat := do
  let encoded ← varU64
  let magnitude : Int := encoded >>> 1
  let delta ← (if encoded &&& 1 = 0 then .ok magnitude
    else do i128 ((← i128 (-magnitude)) - 1) : Except (Stop WitnessError) Int)
  let reference ← i128 ((previous : Int) + delta)
  refuse (reference < 0 ∨ reference ≥ nodeCount) (WitnessError.outputDelta index)
  return reference.toNat

def readSignalsV2 (nodeCount : Nat) : Nat → Nat → Nat → Reader (List Nat)
  | 0, _, _ => return []
  | count + 1, index, previous => do
    let reference ← decodeOutputDelta previous nodeCount index
    return reference :: (← readSignalsV2 nodeCount count (index + 1) reference)

def readOutputReferences (header : Header) : Reader (List Nat) :=
  match header.version with
  | .v1 => readSignalsV1 header.nodeCount header.signalCount 0
  | .v2 => readSignalsV2 header.nodeCount header.signalCount 0 0

/-- The scan over the sorted indices; the ends are sums of words. -/
def scanRanges (ranges : List (Nat × Nat)) : List Nat → List Nat → Except (Stop WitnessError) Unit
  | [], _ => .ok ()
  | index :: order, enclosing => do
    let range ← expect ranges[index]?
    let last ← word (range.1 + range.2)
    let enclosing := enclosing.dropWhile (fun outerEnd => outerEnd ≤ range.1)
    refuse (enclosing.head?.any (fun outerEnd => last > outerEnd))
      (WitnessError.inputMappingOverlap index)
    scanRanges ranges order (last :: enclosing)

def checkInputRanges (ranges : List (Nat × Nat)) : Except (Stop WitnessError) Unit :=
  let order := (ranges.zipIdx.map fun r => (r.2, r.1)).mergeSort rangeBefore
  scanRanges ranges (order.map Prod.fst) []

def readMapping (header : Header) (index : Nat) (hashes : List Nat) : Reader InputMapping := do
  let hash ← u64
  let signalId ← u32
  let signalSize ← u32
  refuse (hash ∈ hashes) (WitnessError.duplicateInputHash hash)
  refuse (signalId = 0 ∨ signalSize = 0 ∨ signalId + signalSize > header.inputBufferLen)
    (WitnessError.inputMappingRange index)
  return { hash, signalId, signalSize }

def readMappingsFrom (header : Header) : Nat → Nat → List Nat → Reader (List InputMapping)
  | 0, _, _ => return []
  | count + 1, index, hashes => do
    let mapping ← readMapping header index hashes
    return mapping :: (← readMappingsFrom header count (index + 1) (mapping.hash :: hashes))

def readInputMappings (header : Header) : Reader (List InputMapping) := do
  let mappings ← readMappingsFrom header header.inputMappingCount 0 []
  checkInputRanges (mappings.map fun m => (m.signalId, m.signalSize))
  return mappings

/-! ## Parsing -/

def parseGraph (signetV2 : Bool) (bytes : List UInt8) (limits : Limits) :
    Except (Stop WitnessError) WitnessGraph := do
  let (header, body) ← readHeader signetV2 limits bytes
  total (preflightBodySize header body.length)
  let ((nodes, _), rest) ←
    forRecords header parseStep header.nodeCount 0 ([], CostMeter.new limits) body
  let (signals, rest) ← readOutputReferences header rest
  let (inputMapping, rest) ← readInputMappings header rest
  refuse (rest ≠ []) WitnessError.trailingBytes
  return {
    limits, nodes, signals, inputMapping
    inputBufferLen := header.inputBufferLen
    r1csSha256 := header.r1csSha256
    magic := header.magic
    formatVersion := header.version.number }

/-! ## The machine never stops -/

theorem refuse_eq (bad : Prop) [Decidable bad] (e : WitnessError) :
    refuse bad e = total (refuseIf bad e) := refuse_total e

theorem take_eq (length : Nat) : take length = Decoder.total (Witness.Reader.take length) := by
  funext bytes
  unfold take Decoder.total Witness.Reader.take
  by_cases h : bytes.length < length
  · rw [if_pos h, if_pos h, total_error]
  · rw [if_neg h, if_neg h, check, require_of (by omega)]
    rfl

theorem u8_eq : u8 = Decoder.total Witness.Reader.u8 := by
  unfold u8 Witness.Reader.u8
  rw [map_eq_pure_bind, take_eq]
  refine Decoder.total_bind_of (Reader.take_reads 1) fun bytes hlength => ?_
  obtain ⟨b, rfl⟩ := List.length_eq_one_iff.mp hlength
  rfl

theorem u16_eq : u16 = Decoder.total Witness.Reader.u16 := by rw [u16, take_eq]; exact Decoder.total_map _ _

theorem u32_eq : u32 = Decoder.total Witness.Reader.u32 := by rw [u32, take_eq]; exact Decoder.total_map _ _

theorem u64_eq : u64 = Decoder.total Witness.Reader.u64 := by rw [u64, take_eq]; exact Decoder.total_map _ _

theorem refuse_bind {α : Type} {bad : Prop} [Decidable bad] {e : WitnessError} {f : Unit → Witness.Reader α}
    {g : Unit → Reader α} (hg : ¬ bad → g () = Decoder.total (f ())) :
    ((liftM (refuse bad e) : Reader Unit) >>= g) =
      Decoder.total ((liftM (refuseIf bad e) : Witness.Reader Unit) >>= f) := by
  unfold refuse refuseIf
  split
  · rfl
  · rename_i h
    exact hg h

theorem check_bind {α : Type} {fine : Prop} [Decidable fine] (h : fine) (g : Unit → Reader α) :
    ((liftM (check fine) : Reader Unit) >>= g) = g () := by
  rw [check, require_of h]
  rfl

theorem ok_bind {α β : Type} (a : α) (g : α → Reader β) :
    ((liftM (.ok a : Except (Stop WitnessError) α) : Reader α) >>= g) = g a := rfl

/-! ### Variable-length integers -/

/-- Nine groups of seven bits and one bit of the tenth fit the word. -/
theorem payload_fits {byte index : Nat} (hbyte : byte < 2 ^ 8) (hindex : index < 10)
    (hlast : ¬ (index = 9 ∧ byte &&& 0xfe ≠ 0)) : (byte &&& 0x7f) <<< (index * 7) < 2 ^ 64 := by
  have hpayload : byte &&& 0x7f < 2 ^ 7 := Nat.and_lt_two_pow byte (by omega)
  rw [Nat.shiftLeft_eq]
  by_cases hnine : index = 9
  · have hone : byte &&& 0x7f ≤ 1 := by
      have hclear : byte &&& 0xfe = 0 := by
        by_contra h
        exact hlast ⟨hnine, h⟩
      revert hclear
      have hall : ∀ b < 2 ^ 8, b &&& 0xfe = 0 → b &&& 0x7f ≤ 1 := by decide +kernel
      exact hall byte hbyte
    rw [hnine]
    omega
  · have hpow : 2 ^ (index * 7) ≤ 2 ^ 56 := Nat.pow_le_pow_right (by omega) (by omega)
    calc (byte &&& 0x7f) * 2 ^ (index * 7) ≤ (byte &&& 0x7f) * 2 ^ 56 := Nat.mul_le_mul_left _ hpow
      _ < 2 ^ 64 := by omega

theorem varU64From_lt {rounds index value : Nat} (hrounds : rounds + index ≤ 10) (hvalue : value < 2 ^ 64) :
    Reads (Witness.Reader.varU64From rounds index value) fun value => value < 2 ^ 64 := by
  induction rounds generalizing index value with
  | zero => exact .throw rfl
  | succ rounds ih =>
    unfold Witness.Reader.varU64From
    refine Reader.u8_reads.bind fun byte hbyte => ?_
    refine (Decoder.Meets.lift (refuseIf_checked (by rfl))).bind fun _ hlast => ?_
    have hnext : value ||| (byte &&& 0x7f) <<< (index * 7) < 2 ^ 64 :=
      Nat.or_lt_two_pow hvalue (payload_fits hbyte (by omega) hlast)
    dsimp only
    split
    · exact (Decoder.Meets.lift (refuseIf_checked (by rfl))).bind fun _ _ => .pure hnext
    · exact ih (by omega) hnext

theorem varU64_lt : Reads Witness.Reader.varU64 fun value => value < 2 ^ 64 :=
  varU64From_lt (by omega) (by omega)

theorem varU64From_eq {rounds index value : Nat} (hrounds : rounds + index ≤ 10) :
    varU64From rounds index value = Decoder.total (Witness.Reader.varU64From rounds index value) := by
  induction rounds generalizing index value with
  | zero => rfl
  | succ rounds ih =>
    unfold varU64From Witness.Reader.varU64From
    rw [u8_eq]
    refine Decoder.total_bind_of Reader.u8_reads fun byte hbyte => ?_
    refine refuse_bind fun hlast => ?_
    have hfits := payload_fits hbyte (by omega) hlast
    rw [check_bind (by omega)]
    dsimp only
    rw [Nat.mod_eq_of_lt hfits]
    split
    · exact refuse_bind fun _ => rfl
    · exact ih (by omega)

theorem varU64_eq : varU64 = Decoder.total Witness.Reader.varU64 := varU64From_eq (by omega)

theorem varU32_eq : varU32 = Decoder.total Witness.Reader.varU32 := by
  unfold varU32 Witness.Reader.varU32
  rw [varU64_eq]
  exact Decoder.total_bind _ fun value => refuse_bind fun _ => rfl

/-! ### Header and records -/

theorem total_lift_bind {α β : Type} (y : Except WitnessError α) {f : α → Witness.Reader β}
    {g : α → Reader β} (hg : ∀ a, g a = Decoder.total (f a)) :
    ((liftM (total y) : Reader α) >>= g) = Decoder.total ((liftM y : Witness.Reader α) >>= f) := by
  rw [← Decoder.total_lift]
  exact Decoder.total_bind _ hg

theorem readHeader_eq (signetV2 : Bool) (limits : Limits) :
    readHeader signetV2 limits = Decoder.total (Witness.readHeader signetV2 limits) := by
  unfold readHeader Witness.readHeader
  rw [take_eq, take_eq, u16_eq, u32_eq]
  refine Decoder.total_bind _ fun magic => ?_
  refine refuse_bind fun _ => ?_
  refine Decoder.total_bind _ fun number => ?_
  refine total_lift_bind _ fun version => ?_
  refine Decoder.total_bind _ fun field => ?_
  refine refuse_bind fun _ => ?_
  refine Decoder.total_bind _ fun headerSize => ?_
  refine refuse_bind fun _ => ?_
  refine Decoder.total_bind _ fun r1csSha256 => ?_
  refine Decoder.total_bind _ fun nodes => ?_
  refine total_lift_bind _ fun nodeCount => ?_
  refine Decoder.total_bind _ fun signals => ?_
  refine total_lift_bind _ fun signalCount => ?_
  refine Decoder.total_bind _ fun mappings => ?_
  refine total_lift_bind _ fun inputMappingCount => ?_
  refine Decoder.total_bind _ fun inputs => ?_
  refine total_lift_bind _ fun inputBufferLen => ?_
  exact refuse_bind fun _ => rfl

theorem decodeBackwardReference_eq (index : Nat) :
    decodeBackwardReference index = Decoder.total (Witness.decodeBackwardReference index) := by
  unfold decodeBackwardReference Witness.decodeBackwardReference
  rw [varU64_eq]
  refine Decoder.total_bind _ fun distance => ?_
  refine refuse_bind fun h => ?_
  rw [check_bind (by omega)]
  rfl

theorem readNodeRecordV1_eq (index inputBufferLen : Nat) :
    readNodeRecordV1 index inputBufferLen =
      Decoder.total (Witness.readNodeRecordV1 index inputBufferLen) := by
  unfold readNodeRecordV1 Witness.readNodeRecordV1
  rw [u8_eq, u32_eq, take_eq]
  refine Decoder.total_bind _ fun tag => ?_
  match tag with
  | 0 => exact Decoder.total_bind _ fun input => (Decoder.total_lift _).symm
  | 1 => exact Decoder.total_bind _ fun encoded => rfl
  | 2 =>
    refine Decoder.total_bind _ fun opTag => ?_
    refine total_lift_bind _ fun operation => ?_
    refine Decoder.total_bind _ fun left => ?_
    refine Decoder.total_bind _ fun right => ?_
    refine total_lift_bind _ fun _ => ?_
    exact total_lift_bind _ fun _ => rfl
  | 3 =>
    refine Decoder.total_bind _ fun source => ?_
    exact total_lift_bind _ fun _ => rfl
  | _ + 4 => rfl

theorem readNodeRecordV2_eq (index inputBufferLen : Nat) :
    readNodeRecordV2 index inputBufferLen =
      Decoder.total (Witness.readNodeRecordV2 index inputBufferLen) := by
  unfold readNodeRecordV2 Witness.readNodeRecordV2
  rw [u8_eq, varU32_eq, take_eq, decodeBackwardReference_eq]
  refine Decoder.total_bind _ fun tag => ?_
  split
  · exact Decoder.total_bind _ fun input => (Decoder.total_lift _).symm
  split
  · exact Decoder.total_bind _ fun encoded => rfl
  split
  · exact Decoder.total_bind _ fun source => rfl
  split
  · refine total_lift_bind _ fun operation => ?_
    refine Decoder.total_bind _ fun left => ?_
    exact Decoder.total_bind _ fun right => rfl
  · rfl

theorem readNodeRecord_eq (version : FormatVersion) (index inputBufferLen : Nat) :
    readNodeRecord version index inputBufferLen =
      Decoder.total (Witness.readNodeRecord version index inputBufferLen) := by
  cases version with
  | v1 => exact readNodeRecordV1_eq index inputBufferLen
  | v2 => exact readNodeRecordV2_eq index inputBufferLen

theorem forRecords_eq {σ : Type} (header : Header)
    (body : Nat → NodeRecord → σ → Except WitnessError σ) (count index : Nat) (s : σ) :
    forRecords header body count index s =
      Decoder.total (Witness.forRecords header body count index s) := by
  induction count generalizing index s with
  | zero => rfl
  | succ count ih =>
    unfold forRecords Witness.forRecords
    rw [readNodeRecord_eq]
    refine Decoder.total_bind _ fun record => ?_
    exact total_lift_bind _ fun s' => ih (index + 1) s'

/-! ### Outputs and mappings -/

theorem i128_of {x : Int} (hlow : -2 ^ 64 ≤ x) (hhigh : x ≤ 2 ^ 65) : i128 x = .ok x := if_pos (by omega)

theorem readSignalsV1_eq (nodeCount count index : Nat) :
    readSignalsV1 nodeCount count index =
      Decoder.total (Witness.readSignalsV1 nodeCount count index) := by
  induction count generalizing index with
  | zero => rfl
  | succ count ih =>
    unfold readSignalsV1 Witness.readSignalsV1
    rw [u32_eq]
    refine Decoder.total_bind _ fun reference => ?_
    refine refuse_bind fun _ => ?_
    rw [ih]
    exact Decoder.total_bind _ fun signals => rfl

theorem decodeOutputDelta_eq {previous nodeCount index : Nat} (hprevious : previous < 2 ^ 64) :
    decodeOutputDelta previous nodeCount index =
      Decoder.total (Witness.decodeOutputDelta previous nodeCount index) := by
  unfold decodeOutputDelta Witness.decodeOutputDelta
  rw [varU64_eq]
  refine Decoder.total_bind_of varU64_lt fun encoded hencoded => ?_
  have hmagnitude : encoded >>> 1 < 2 ^ 63 := by
    rw [Nat.shiftRight_eq_div_pow]
    omega
  have hbody : ∀ delta : Int, -2 ^ 63 - 1 ≤ delta → delta ≤ 2 ^ 63 →
      ((liftM (i128 (previous + delta)) : Reader Int) >>= fun reference => do
        refuse (reference < 0 ∨ reference ≥ nodeCount) (WitnessError.outputDelta index)
        return reference.toNat) =
      Decoder.total (do
        refuseIf ((previous : Int) + delta < 0 ∨ (previous : Int) + delta ≥ nodeCount)
          (WitnessError.outputDelta index)
        return ((previous : Int) + delta).toNat : Witness.Reader Nat) := by
    intro delta hlow hhigh
    rw [i128_of (by omega) (by omega), ok_bind]
    exact refuse_bind fun _ => rfl
  dsimp only
  split
  · rw [ok_bind]
    exact hbody (encoded >>> 1 : Nat) (by omega) (by omega)
  · rw [i128_of (by omega) (by omega), Fallible.ok_bind, i128_of (by omega) (by omega), ok_bind]
    exact hbody (-(encoded >>> 1 : Nat) - 1) (by omega) (by omega)

theorem readSignalsV2_eq {nodeCount : Nat} (hnodes : nodeCount ≤ 2 ^ 32) (count index : Nat) {previous : Nat}
    (hprevious : previous < 2 ^ 64) :
    readSignalsV2 nodeCount count index previous =
      Decoder.total (Witness.readSignalsV2 nodeCount count index previous) := by
  induction count generalizing index previous with
  | zero => rfl
  | succ count ih =>
    unfold readSignalsV2 Witness.readSignalsV2
    rw [decodeOutputDelta_eq hprevious]
    refine Decoder.total_bind_of (decodeOutputDelta_reads previous nodeCount index) fun reference h => ?_
    rw [ih (index + 1) (by omega)]
    exact Decoder.total_bind _ fun signals => rfl

theorem readOutputReferences_eq {header : Header} (hnodes : header.nodeCount ≤ 2 ^ 32) :
    readOutputReferences header = Decoder.total (Witness.readOutputReferences header) := by
  unfold readOutputReferences Witness.readOutputReferences
  cases header.version with
  | v1 => exact readSignalsV1_eq _ _ _
  | v2 => exact readSignalsV2_eq hnodes _ _ (by omega)

/-- Sorted indices are those of ranges, and ends of ranges in the buffer are words. -/
theorem scanRanges_eq {ranges : List (Nat × Nat)} {order : List (Nat × Nat × Nat)}
    (horder : ∀ r ∈ order, ranges[r.1]? = some r.2 ∧ r.2.1 + r.2.2 < 2 ^ 64) (enclosing : List Nat) :
    scanRanges ranges (order.map Prod.fst) enclosing = total (Witness.scanRanges order enclosing) := by
  induction order generalizing enclosing with
  | nil => rfl
  | cons range order ih =>
    obtain ⟨index, start, size⟩ := range
    obtain ⟨⟨hrange, hword⟩, horder⟩ := List.forall_mem_cons.mp horder
    dsimp only at hrange hword
    have hend : (word (start + size) : Except (Stop WitnessError) Nat) = .ok (start + size) :=
      if_pos hword
    rw [List.map_cons, scanRanges, Witness.scanRanges, hrange, expect, Fallible.ok_bind, hend,
      Fallible.ok_bind]
    dsimp only
    unfold refuse
    split
    · rfl
    · exact ih horder _

theorem checkInputRanges_eq {ranges : List (Nat × Nat)} (h : ∀ r ∈ ranges, r.1 + r.2 < 2 ^ 64) :
    checkInputRanges ranges = total (Witness.checkInputRanges ranges) := by
  unfold checkInputRanges Witness.checkInputRanges
  dsimp only
  refine scanRanges_eq (fun r hr => ?_) []
  rw [List.mem_mergeSort] at hr
  obtain ⟨⟨range, index⟩, hmem, rfl⟩ := List.mem_map.mp hr
  have hget := List.mem_zipIdx_iff_getElem?.mp hmem
  exact ⟨hget, h range (List.mem_of_getElem? hget)⟩

theorem readMapping_eq (header : Header) (index : Nat) (hashes : List Nat) :
    readMapping header index hashes = Decoder.total (Witness.readMapping header index hashes) := by
  unfold readMapping Witness.readMapping
  rw [u64_eq, u32_eq]
  refine Decoder.total_bind _ fun hash => ?_
  refine Decoder.total_bind _ fun signalId => ?_
  refine Decoder.total_bind _ fun signalSize => ?_
  refine refuse_bind fun _ => ?_
  exact refuse_bind fun _ => rfl

theorem readMappingsFrom_eq (header : Header) (count index : Nat) (hashes : List Nat) :
    readMappingsFrom header count index hashes =
      Decoder.total (Witness.readMappingsFrom header count index hashes) := by
  induction count generalizing index hashes with
  | zero => rfl
  | succ count ih =>
    unfold readMappingsFrom Witness.readMappingsFrom
    rw [readMapping_eq]
    refine Decoder.total_bind _ fun mapping => ?_
    rw [ih]
    exact Decoder.total_bind _ fun mappings => rfl

theorem readInputMappings_eq {header : Header} (hinputs : header.inputBufferLen < 2 ^ 64) :
    readInputMappings header = Decoder.total (Witness.readInputMappings header) := by
  unfold readInputMappings Witness.readInputMappings
  rw [readMappingsFrom_eq]
  refine Decoder.total_bind_of (readMappingsFrom_reads header _ 0 []) fun mappings hfit => ?_
  rw [checkInputRanges_eq]
  · exact total_lift_bind _ fun _ => rfl
  · intro r hr
    obtain ⟨m, hm, rfl⟩ := List.mem_map.mp hr
    exact lt_of_le_of_lt (hfit m hm) hinputs

/-! ### The whole parse -/

/-- Every run of the machine is the parse without machine checks. -/
theorem parseGraph_eq (signetV2 : Bool) (bytes : List UInt8) (limits : Limits) :
    parseGraph signetV2 bytes limits = total (Witness.parseGraph signetV2 bytes limits) := by
  unfold parseGraph Witness.parseGraph
  rw [readHeader_eq, Decoder.total]
  have hheader := (readHeader_reads signetV2 limits bytes).1
  cases hread : Witness.readHeader signetV2 limits bytes with
  | error e => rfl
  | ok p =>
    obtain ⟨header, body⟩ := p
    have hsized := hheader _ hread
    have hinputs : header.inputBufferLen < 2 ^ 64 := lt_trans hsized.inputs (by omega)
    rw [total_ok, Fallible.ok_bind, Fallible.ok_bind]
    dsimp only
    refine total_bind _ fun _ => ?_
    rw [forRecords_eq]
    refine total_bind _ fun parsed => ?_
    rw [readOutputReferences_eq hsized.nodes.le]
    refine total_bind _ fun outputs => ?_
    rw [readInputMappings_eq hinputs]
    refine total_bind _ fun mapped => ?_
    rw [refuse_eq]
    exact total_bind _ fun _ => rfl

end Curvy.Witness.Machine
