import Curvy.Signet.Spelling

/-!
# Artifacts and their two spellings

`Artifact` is what both body versions carry. The transcoder accepts the spellings of
artifacts and nothing else, and answers with the spelling in the target version.
-/

namespace Curvy.Signet

set_option autoImplicit false

open Decoder
open Witness (FormatVersion)

/-! ### The writers -/

theorem pushVarU64From_eq (rounds : Nat) (bytes : List UInt8) (value : Nat) :
    pushVarU64From rounds bytes value = bytes ++ varBytes rounds value := by
  induction rounds generalizing bytes value with
  | zero => simp [pushVarU64From, varBytes]
  | succ rounds ih =>
    have hgroup : value &&& 0x7f ||| 0x80 = value % 0x80 + 0x80 := by
      rw [and_low_group]
      have hlow : value % 0x80 < 2 ^ (1 * 7) := Nat.mod_lt value (by decide)
      exact (or_group hlow : _ ||| 1 <<< (1 * 7) = _)
    rw [pushVarU64From, varBytes]
    split
    · rw [ih, hgroup, Nat.shiftRight_eq_div_pow, List.append_assoc]
      rfl
    · rfl

theorem pushVarU64_eq (bytes : List UInt8) (value : Nat) :
    pushVarU64 bytes value = bytes ++ varBytes 10 value := pushVarU64From_eq 10 bytes value

theorem checkedU32_ok {value : Nat} (what : String) (h : value < 2 ^ 32) :
    checkedU32 value what = .ok value := if_pos h

theorem backwardDistance_ok {index reference : Nat} (what : String) (h : reference < index) :
    backwardDistance index reference what = .ok (index - reference) := if_pos h

theorem leBytes_one {value : Nat} (h : value < 256) : leBytes 1 value = [UInt8.ofNat value] := by
  rw [leBytes, leBytes, Nat.mod_eq_of_lt h]

/-- The writer spells a canonical record. -/
theorem pushRecord_eq (output : List UInt8) (version : FormatVersion) {index inputBufferLen : Nat}
    {record : Record} (hindex : index ≤ 2 ^ 32) (h : record.Canonical inputBufferLen index) :
    pushRecord output version index record = .ok (output ++ record.spell version index) := by
  rw [Record.spell, leBytes_one (Record.tag_lt h version)]
  cases record with
  | input i =>
    cases version with
    | v1 => exact congrArg Except.ok (List.append_assoc _ _ _)
    | v2 =>
      refine congrArg Except.ok ?_
      rw [pushVarU64_eq, List.append_assoc]
      rfl
  | constant value => cases version <;> exact congrArg Except.ok (List.append_assoc _ _ _)
  | operation tag left right =>
    obtain ⟨htag, hleft, hright⟩ := h
    cases version with
    | v1 =>
      simp only [pushRecord, checkedU32_ok _ (show left < 2 ^ 32 by omega),
        checkedU32_ok _ (show right < 2 ^ 32 by omega), Fallible.ok_bind, pushU32, Record.payload,
        leBytes_one (show tag < 256 by omega), List.append_assoc]
      rfl
    | v2 =>
      simp only [pushRecord, backwardDistance_ok _ hleft, backwardDistance_ok _ hright,
        Fallible.ok_bind, pushVarU64_eq, Record.payload, List.append_assoc]
      rfl
  | inverse source =>
    have hsource : source < index := h
    cases version with
    | v1 =>
      simp only [pushRecord, checkedU32_ok _ (show source < 2 ^ 32 by omega), Fallible.ok_bind,
        pushU32, Record.payload, List.append_assoc]
      rfl
    | v2 =>
      simp only [pushRecord, backwardDistance_ok _ hsource, Fallible.ok_bind, pushVarU64_eq,
        Record.payload, List.append_assoc]
      rfl

/-! ### Record sections -/

/-- Each record is canonical at its place. -/
def CanonicalFrom (inputBufferLen : Nat) : Nat → List Record → Prop
  | _, [] => True
  | index, record :: records =>
    record.Canonical inputBufferLen index ∧ CanonicalFrom inputBufferLen (index + 1) records

def spellRecords (version : FormatVersion) : Nat → List Record → List UInt8
  | _, [] => []
  | index, record :: records => record.spell version index ++ spellRecords version (index + 1) records

theorem transcodeRecords_ok {source target : FormatVersion} {inputBufferLen count index : Nat}
    (hlen : inputBufferLen ≤ 2 ^ 32) (hindex : index + count ≤ 2 ^ 32)
    {output out bytes rest : List UInt8} :
    transcodeRecords source target inputBufferLen count index output bytes = .ok (out, rest) ↔
      ∃ records, records.length = count ∧ CanonicalFrom inputBufferLen index records ∧
        bytes = spellRecords source index records ++ rest ∧
        out = output ++ spellRecords target index records := by
  induction count generalizing index output bytes with
  | zero =>
    rw [transcodeRecords, pure_ok]
    constructor
    · rintro ⟨rfl, rfl⟩
      exact ⟨[], rfl, trivial, rfl, (List.append_nil _).symm⟩
    · rintro ⟨records, hnil, _, rfl, rfl⟩
      obtain rfl := List.eq_nil_of_length_eq_zero hnil
      exact ⟨(List.append_nil _).symm, rfl⟩
  | succ count ih =>
    have hrecord := Body.record_exact source (show index ≤ 2 ^ 32 by omega) hlen
    rw [transcodeRecords, hrecord.bind_ok]
    constructor
    · rintro ⟨record, u, hcanon, rfl, h⟩
      obtain ⟨output', hpush, h₁⟩ := lift_bind_ok.mp h
      rw [pushRecord_eq output target (by omega) hcanon] at hpush
      obtain rfl := Except.ok.inj hpush
      obtain ⟨records, rfl, hall, rfl, rfl⟩ := (ih (by omega)).mp h₁
      exact ⟨record :: records, rfl, ⟨hcanon, hall⟩, (List.append_assoc _ _ _).symm,
        List.append_assoc _ _ _⟩
    · rintro ⟨records, hcount, hall, rfl, rfl⟩
      obtain ⟨record, records, rfl⟩ := List.exists_cons_of_length_eq_add_one hcount
      refine ⟨record, _, hall.1, List.append_assoc _ _ _, ?_⟩
      refine lift_bind_ok.mpr ⟨_, pushRecord_eq output target (by omega) hall.1, ?_⟩
      exact (ih (by omega)).mpr
        ⟨records, by simpa using hcount, hall.2, rfl, (List.append_assoc _ _ _).symm⟩

theorem readRecords_exact (header : Witness.Header) {count index : Nat}
    (hlen : header.inputBufferLen ≤ 2 ^ 32) (hindex : index + count ≤ 2 ^ 32) :
    Exact (Witness.readRecords header count index)
      (fun nodes => nodes.length = count ∧
        CanonicalFrom header.inputBufferLen index (nodes.map toRecord))
      (fun nodes => spellRecords header.version index (nodes.map toRecord)) := by
  induction count generalizing index with
  | zero =>
    intro bytes nodes rest
    rw [Witness.readRecords, pure_ok]
    constructor
    · rintro ⟨rfl, rfl⟩
      exact ⟨⟨rfl, trivial⟩, rfl⟩
    · rintro ⟨⟨hnil, _⟩, rfl⟩
      obtain rfl := List.eq_nil_of_length_eq_zero hnil
      exact ⟨rfl, rfl⟩
  | succ count ih =>
    have hrecord := readNodeRecord_exact header.version (show index ≤ 2 ^ 32 by omega) hlen
    have hrest := ih (show index + 1 + count ≤ 2 ^ 32 by omega)
    intro bytes nodes rest
    rw [Witness.readRecords, hrecord.bind_ok]
    constructor
    · rintro ⟨node, u, hcanon, rfl, h⟩
      obtain ⟨nodes', v, ⟨hcount, hall⟩, rfl, h₁⟩ := hrest.bind_ok.mp h
      obtain ⟨rfl, rfl⟩ := pure_ok.mp h₁
      exact ⟨⟨by rw [List.length_cons, hcount], hcanon, hall⟩, (List.append_assoc _ _ _).symm⟩
    · rintro ⟨⟨hcount, hall⟩, rfl⟩
      obtain ⟨node, nodes, rfl⟩ := List.exists_cons_of_length_eq_add_one hcount
      refine ⟨node, _, hall.1, List.append_assoc _ _ _, ?_⟩
      exact hrest.bind_ok.mpr ⟨nodes, rest, ⟨by simpa using hcount, hall.2⟩, rfl, rfl⟩

/-! ### Output references -/

/-- The ZigZag number of a delta. -/
def zigzagNat (delta : Int) : Nat := if 0 ≤ delta then (2 * delta).toNat else (-2 * delta - 1).toNat

theorem ofInt_toNat {delta : Int} (hlow : -2 ^ 62 ≤ delta) (hhigh : delta < 2 ^ 62) :
    (BitVec.ofInt 64 delta).toNat = if 0 ≤ delta then delta.toNat else (2 ^ 64 + delta).toNat := by
  rw [BitVec.toNat_ofInt]
  split
  · rw [Int.emod_eq_of_lt (by omega) (by omega)]
  · rw [← Int.add_emod_left, Int.emod_eq_of_lt (by omega) (by omega)]
    rfl

/-- Deltas of the format are far from where the shift would drop a bit. -/
theorem zigzag_eq {delta : Int} (hlow : -2 ^ 62 ≤ delta) (hhigh : delta < 2 ^ 62) :
    zigzag delta = zigzagNat delta := by
  have hword := ofInt_toNat hlow hhigh
  unfold zigzag zigzagNat
  generalize BitVec.ofInt 64 delta = word at hword
  dsimp only
  by_cases hsign : 0 ≤ delta
  · rw [if_pos hsign] at hword ⊢
    have hmsb : word.msb = false := by
      rw [BitVec.msb_eq_decide]
      simp only [decide_eq_false_iff_not]
      omega
    have hshift : word >>> 63 = 0#64 := by
      apply BitVec.eq_of_toNat_eq
      rw [BitVec.toNat_ushiftRight, Nat.shiftRight_eq_div_pow, Nat.div_eq_of_lt (by omega)]
      rfl
    rw [BitVec.sshiftRight_eq_of_msb_false hmsb, hshift, BitVec.xor_zero, BitVec.toNat_shiftLeft,
      Nat.shiftLeft_eq, Nat.mod_eq_of_lt (by omega)]
    omega
  · rw [if_neg hsign] at hword ⊢
    have hmsb : word.msb = true := by
      rw [BitVec.msb_eq_decide]
      simp only [decide_eq_true_eq]
      omega
    have hshift : ~~~((~~~word) >>> 63) = BitVec.allOnes 64 := by
      apply BitVec.eq_of_toNat_eq
      rw [BitVec.toNat_not, BitVec.toNat_ushiftRight, BitVec.toNat_not, Nat.shiftRight_eq_div_pow,
        Nat.div_eq_of_lt (by omega), BitVec.toNat_allOnes]
    rw [BitVec.sshiftRight_eq_of_msb_true hmsb, hshift, BitVec.xor_allOnes, BitVec.toNat_not,
      BitVec.toNat_shiftLeft, Nat.shiftLeft_eq]
    omega

theorem signalDelta_eq_iff {previous encoded signal : Nat} :
    Body.signalDelta previous encoded = signal ↔ zigzagNat (signal - previous) = encoded := by
  unfold Body.signalDelta zigzagNat
  rw [Nat.and_one_is_mod, Nat.shiftRight_eq_div_pow]
  dsimp only
  split <;> split <;> omega

def spellSignal (previous : Nat) : FormatVersion → Nat → List UInt8
  | .v1, signal => leBytes 4 signal
  | .v2, signal => varBytes 10 (zigzagNat (signal - previous))

/-- The references in order; each delta is from the reference before it. -/
def spellSignals (version : FormatVersion) : Nat → List Nat → List UInt8
  | _, [] => []
  | previous, signal :: signals =>
    spellSignal previous version signal ++ spellSignals version signal signals

theorem zigzagNat_lt {previous signal : Nat} (hprevious : previous ≤ 2 ^ 32)
    (hsignal : signal < 2 ^ 32) : zigzagNat (signal - previous) < 2 ^ 64 := by
  unfold zigzagNat
  split <;> omega

theorem signal_exact (version : FormatVersion) {previous nodeCount index : Nat}
    (hprevious : previous ≤ 2 ^ 32) (hcount : nodeCount ≤ 2 ^ 32) :
    Exact (Body.signal version previous nodeCount index) (fun signal => signal < nodeCount)
      (spellSignal previous version) := by
  -- a nonnegative reference is what its spelling says
  have hreference : ∀ (signal : Nat) (bytes rest : List UInt8), signal < nodeCount →
      (Body.reference version previous bytes = .ok ((signal : Int), rest) ↔
        bytes = spellSignal previous version signal ++ rest) := by
    intro signal bytes rest hlt
    cases version with
    | v1 =>
      simp only [Body.reference, Body.u32_exact.bind_ok, pure_ok]
      constructor
      · rintro ⟨value, _, _, rfl, hvalue, rfl⟩
        obtain rfl := Int.ofNat.inj hvalue
        rfl
      · rintro rfl
        exact ⟨signal, rest, by omega, rfl, rfl, rfl⟩
    | v2 =>
      simp only [Body.reference, Body.varU64_exact.bind_ok, pure_ok, signalDelta_eq_iff]
      constructor
      · rintro ⟨_, _, _, rfl, rfl, rfl⟩
        rfl
      · rintro rfl
        exact ⟨_, rest, zigzagNat_lt hprevious (by omega), rfl, rfl, rfl⟩
  intro bytes signal rest
  rw [Body.signal, Decoder.bind_ok]
  constructor
  · rintro ⟨reference, u, hread, h⟩
    split at h
    · exact absurd h throw_ok
    · rename_i hrange
      obtain ⟨rfl, rfl⟩ := pure_ok.mp h
      have hcast : ((reference.toNat : Nat) : Int) = reference := by omega
      exact ⟨by omega, (hreference _ _ _ (by omega)).mp (hcast.symm ▸ hread)⟩
  · rintro ⟨hlt, hbytes⟩
    refine ⟨signal, rest, (hreference _ _ _ hlt).mpr hbytes, ?_⟩
    rw [if_neg (by omega)]
    rfl

theorem push_eq (writer : SignalWriter) (output : List UInt8) {previous signal : Nat}
    (hprevious : previous ≤ 2 ^ 32) (hsignal : signal < 2 ^ 32)
    (hwriter : writer.version = .v2 → writer.previous = previous) :
    ∃ writer', writer.push output signal =
        .ok (output ++ spellSignal previous writer.version signal, writer') ∧
      writer'.version = writer.version ∧
      (writer'.version = .v2 → writer'.previous = signal) := by
  obtain ⟨version, last⟩ := writer
  cases version with
  | v1 =>
    refine ⟨⟨.v1, last⟩, ?_, rfl, fun h => by cases h⟩
    simp only [SignalWriter.push, checkedU32_ok _ hsignal, Fallible.ok_bind]
    rfl
  | v2 =>
    obtain rfl := hwriter rfl
    refine ⟨⟨.v2, signal⟩, ?_, rfl, fun _ => rfl⟩
    have hzigzag : zigzag ((signal : Int) - previous) = zigzagNat (signal - previous) :=
      zigzag_eq (by omega) (by omega)
    simp only [SignalWriter.push, if_pos (show signal < 2 ^ 63 by omega), pushVarU64_eq, hzigzag]
    rfl

theorem transcodeSignals_ok {source : FormatVersion} {nodeCount count index previous : Nat}
    (hnodes : nodeCount ≤ 2 ^ 32) (hprevious : previous ≤ 2 ^ 32) {writer : SignalWriter}
    (hwriter : writer.version = .v2 → writer.previous = previous)
    {output out bytes rest : List UInt8} :
    transcodeSignals source nodeCount count index previous writer output bytes = .ok (out, rest) ↔
      ∃ signals, Witness.SignalsFit nodeCount count signals ∧
        bytes = spellSignals source previous signals ++ rest ∧
        out = output ++ spellSignals writer.version previous signals := by
  induction count generalizing index previous writer output bytes with
  | zero =>
    rw [transcodeSignals, pure_ok]
    constructor
    · rintro ⟨rfl, rfl⟩
      exact ⟨[], ⟨rfl, by simp⟩, rfl, (List.append_nil _).symm⟩
    · rintro ⟨signals, hfit, rfl, rfl⟩
      obtain rfl := List.eq_nil_of_length_eq_zero hfit.length
      exact ⟨(List.append_nil _).symm, rfl⟩
  | succ count ih =>
    have hsignal : Exact (Body.signal source previous nodeCount index) _ _ :=
      signal_exact source hprevious hnodes
    rw [transcodeSignals, hsignal.bind_ok]
    constructor
    · rintro ⟨signal, u, hlt, rfl, h⟩
      obtain ⟨⟨output', writer'⟩, hpush, h₁⟩ := lift_bind_ok.mp h
      obtain ⟨writer₁, hpush₁, hversion, hlast⟩ :=
        push_eq writer output hprevious (show signal < 2 ^ 32 by omega) hwriter
      rw [hpush₁, Except.ok.injEq, Prod.mk.injEq] at hpush
      obtain ⟨rfl, rfl⟩ := hpush
      obtain ⟨signals, hfit, rfl, rfl⟩ := (ih (by omega) hlast).mp h₁
      refine ⟨signal :: signals, hfit.cons hlt, (List.append_assoc _ _ _).symm, ?_⟩
      rw [hversion]
      exact List.append_assoc _ _ _
    · rintro ⟨signals, hfit, rfl, rfl⟩
      obtain ⟨signal, signals, rfl⟩ := List.exists_cons_of_length_eq_add_one hfit.length
      obtain ⟨hlt, hall⟩ := List.forall_mem_cons.mp hfit.bounded
      obtain ⟨writer', hpush, hversion, hlast⟩ :=
        push_eq writer output hprevious (show signal < 2 ^ 32 by omega) hwriter
      refine ⟨signal, _, hlt, List.append_assoc _ _ _, lift_bind_ok.mpr ⟨_, hpush, ?_⟩⟩
      refine (ih (by omega) hlast).mpr ⟨signals, ⟨by simpa using hfit.length, hall⟩, rfl, ?_⟩
      rw [hversion]
      exact (List.append_assoc _ _ _).symm

theorem decodeOutputDelta_exact {previous nodeCount index : Nat} (hprevious : previous ≤ 2 ^ 32)
    (hcount : nodeCount ≤ 2 ^ 32) :
    Exact (Witness.decodeOutputDelta previous nodeCount index) (fun signal => signal < nodeCount)
      (spellSignal previous .v2) := by
  intro bytes signal rest
  have hdelta : ∀ encoded : Nat, (previous : Int) +
      (if encoded &&& 1 = 0 then ((encoded >>> 1 : Nat) : Int)
        else -((encoded >>> 1 : Nat) : Int) - 1) = Body.signalDelta previous encoded :=
    fun _ => rfl
  simp only [Witness.decodeOutputDelta, Witness.Reader.varU64_exact.bind_ok, lift_bind_ok,
    Witness.refuseIf_ok, pure_ok, hdelta]
  constructor
  · rintro ⟨encoded, _, _, rfl, _, hrange, rfl, rfl⟩
    have hcast : Body.signalDelta previous encoded =
        ((Body.signalDelta previous encoded).toNat : Nat) := by omega
    exact ⟨by omega, by rw [spellSignal, signalDelta_eq_iff.mp hcast]⟩
  · rintro ⟨hlt, rfl⟩
    have hback := signalDelta_eq_iff.mpr (rfl : zigzagNat (signal - previous) = _)
    refine ⟨_, rest, zigzagNat_lt hprevious (by omega), rfl, (), ?_, ?_, rfl⟩
    · rw [hback]
      omega
    · rw [hback]
      rfl

theorem readSignalsV1_exact {nodeCount count index : Nat} (hnodes : nodeCount ≤ 2 ^ 32)
    (previous : Nat) : Exact (Witness.readSignalsV1 nodeCount count index)
      (Witness.SignalsFit nodeCount count) (spellSignals .v1 previous) := by
  induction count generalizing index previous with
  | zero =>
    intro bytes signals rest
    rw [Witness.readSignalsV1, pure_ok]
    constructor
    · rintro ⟨rfl, rfl⟩
      exact ⟨⟨rfl, by simp⟩, rfl⟩
    · rintro ⟨hfit, rfl⟩
      obtain rfl := List.eq_nil_of_length_eq_zero hfit.length
      exact ⟨rfl, rfl⟩
  | succ count ih =>
    intro bytes signals rest
    rw [Witness.readSignalsV1, Witness.Reader.u32_exact.bind_ok]
    constructor
    · rintro ⟨signal, u, _, rfl, h⟩
      obtain ⟨_, hlt, h₁⟩ := lift_bind_ok.mp h
      obtain ⟨signals', v, hfit, rfl, h₂⟩ := (ih signal).bind_ok.mp h₁
      obtain ⟨rfl, rfl⟩ := pure_ok.mp h₂
      rw [Witness.refuseIf_ok, Nat.not_le] at hlt
      exact ⟨hfit.cons hlt, (List.append_assoc _ _ _).symm⟩
    · rintro ⟨hfit, rfl⟩
      obtain ⟨signal, signals, rfl⟩ := List.exists_cons_of_length_eq_add_one hfit.length
      obtain ⟨hlt, hall⟩ := List.forall_mem_cons.mp hfit.bounded
      refine ⟨signal, _, by omega, List.append_assoc _ _ _, ?_⟩
      refine lift_bind_ok.mpr ⟨(), Witness.refuseIf_ok.mpr (Nat.not_le.mpr hlt), ?_⟩
      exact (ih signal).bind_ok.mpr ⟨signals, rest, ⟨by simpa using hfit.length, hall⟩, rfl, rfl⟩

theorem readSignalsV2_exact {nodeCount count index previous : Nat} (hnodes : nodeCount ≤ 2 ^ 32)
    (hprevious : previous ≤ 2 ^ 32) :
    Exact (Witness.readSignalsV2 nodeCount count index previous)
      (Witness.SignalsFit nodeCount count) (spellSignals .v2 previous) := by
  induction count generalizing index previous with
  | zero =>
    intro bytes signals rest
    rw [Witness.readSignalsV2, pure_ok]
    constructor
    · rintro ⟨rfl, rfl⟩
      exact ⟨⟨rfl, by simp⟩, rfl⟩
    · rintro ⟨hfit, rfl⟩
      obtain rfl := List.eq_nil_of_length_eq_zero hfit.length
      exact ⟨rfl, rfl⟩
  | succ count ih =>
    have hsignal : Exact (Witness.decodeOutputDelta previous nodeCount index) _ _ :=
      decodeOutputDelta_exact hprevious hnodes
    intro bytes signals rest
    rw [Witness.readSignalsV2, hsignal.bind_ok]
    constructor
    · rintro ⟨signal, u, hlt, rfl, h⟩
      obtain ⟨signals', v, hfit, rfl, h₁⟩ := (ih (by omega)).bind_ok.mp h
      obtain ⟨rfl, rfl⟩ := pure_ok.mp h₁
      exact ⟨hfit.cons hlt, (List.append_assoc _ _ _).symm⟩
    · rintro ⟨hfit, rfl⟩
      obtain ⟨signal, signals, rfl⟩ := List.exists_cons_of_length_eq_add_one hfit.length
      obtain ⟨hlt, hall⟩ := List.forall_mem_cons.mp hfit.bounded
      refine ⟨signal, _, hlt, List.append_assoc _ _ _, ?_⟩
      exact (ih (by omega)).bind_ok.mpr
        ⟨signals, rest, ⟨by simpa using hfit.length, hall⟩, rfl, rfl⟩

theorem readOutputReferences_exact (header : Witness.Header) (hnodes : header.nodeCount ≤ 2 ^ 32) :
    Exact (Witness.readOutputReferences header)
      (Witness.SignalsFit header.nodeCount header.signalCount)
      (spellSignals header.version 0) := by
  unfold Witness.readOutputReferences
  cases header.version with
  | v1 => exact readSignalsV1_exact hnodes 0
  | v2 => exact readSignalsV2_exact hnodes (by omega)

/-! ### Artifacts -/

/-- What a witness-graph artifact carries, whichever version spells it. -/
structure Artifact where
  magic : List UInt8
  r1csSha256 : List UInt8
  inputBufferLen : Nat
  records : List Record
  signals : List Nat
  mappingCount : Nat
  table : List UInt8
  known : magic = Witness.Wire.legacyMagic ∨ magic = Witness.Wire.magic
  digest : r1csSha256.length = 32
  buffered : inputBufferLen < 2 ^ 32
  counted : records.length < 2 ^ 32
  canonical : CanonicalFrom inputBufferLen 0 records
  fit : Witness.SignalsFit records.length signals.length signals
  wide : signals.length < 2 ^ 32
  mapped : mappingCount < 2 ^ 32
  full : table.length = mappingCount * inputMappingBytes

/-- The 64 header bytes. -/
def spellHeader (magic : List UInt8) (version : FormatVersion) (r1csSha256 : List UInt8)
    (nodeCount signalCount mappingCount inputBufferLen : Nat) : List UInt8 :=
  magic ++ (leBytes 2 version.number ++ (leBytes 2 Witness.Wire.fieldBn254Fr ++
    (leBytes 4 Witness.Wire.headerSize ++ (r1csSha256 ++ (leBytes 4 nodeCount ++
      (leBytes 4 signalCount ++ (leBytes 4 mappingCount ++ leBytes 4 inputBufferLen)))))))

namespace Artifact

def header (a : Artifact) (version : FormatVersion) : List UInt8 :=
  spellHeader a.magic version a.r1csSha256 a.records.length a.signals.length a.mappingCount
    a.inputBufferLen

def body (a : Artifact) (version : FormatVersion) : List UInt8 :=
  spellRecords version 0 a.records ++ (spellSignals version 0 a.signals ++ a.table)

def spell (a : Artifact) (version : FormatVersion) : List UInt8 := a.header version ++ a.body version

end Artifact

/-! ### The header by offset -/

theorem readAt_skip {skipped : List UInt8} {offset : Nat} (h : skipped.length ≤ offset)
    (bytes : List UInt8) (length : Nat) :
    readAt (skipped ++ bytes) offset length = readAt bytes (offset - skipped.length) length := by
  rw [readAt, readAt, List.drop_append, List.drop_eq_nil_of_le h, List.nil_append]

theorem readAt_here {length value : Nat} (h : value < 256 ^ length) (bytes : List UInt8) :
    readAt (leBytes length value ++ bytes) 0 length = value := by
  rw [readAt, List.drop_zero, List.take_left' (leBytes_length _ _), leNat_leBytes h]

theorem readAt_within {bytes rest : List UInt8} {offset length : Nat}
    (h : offset + length ≤ bytes.length) :
    readAt (bytes ++ rest) offset length = readAt bytes offset length := by
  rw [readAt, readAt, List.drop_append_of_le_length (by omega),
    List.take_append_of_le_length (by rw [List.length_drop]; omega)]

theorem readAt_lt (bytes : List UInt8) (offset length : Nat) :
    readAt bytes offset length < 256 ^ length :=
  Nat.lt_of_lt_of_le (leNat_lt _)
    (Nat.pow_le_pow_right (by decide) (List.length_take_le length _))

theorem leBytes_readAt {bytes : List UInt8} {offset length : Nat}
    (h : offset + length ≤ bytes.length) :
    leBytes length (readAt bytes offset length) ++ bytes.drop (offset + length) =
      bytes.drop offset := by
  have hlen : ((bytes.drop offset).take length).length = length := by
    rw [List.length_take, List.length_drop]
    omega
  have hbytes := leBytes_leNat ((bytes.drop offset).take length)
  rw [hlen] at hbytes
  rw [readAt, hbytes, ← List.drop_drop, List.take_append_drop]

section Header
variable {magic r1csSha256 : List UInt8} {version : FormatVersion}
variable {nodeCount signalCount mappingCount inputBufferLen : Nat}

theorem number_lt (version : FormatVersion) : version.number < 256 ^ 2 := by
  cases version <;> decide

theorem spellHeader_length (hmagic : magic.length = 8) (hsha : r1csSha256.length = 32) :
    (spellHeader magic version r1csSha256 nodeCount signalCount mappingCount
      inputBufferLen).length = Witness.Wire.headerSize := by
  simp [spellHeader, hmagic, hsha, Witness.Wire.headerSize]

/-- What the transcoder reads out of a header. -/
structure Fields (header magic : List UInt8) (version : FormatVersion)
    (nodeCount signalCount mappingCount inputBufferLen : Nat) : Prop where
  magic : header.take 8 = magic
  version : readAt header 8 2 = version.number
  field : readAt header 10 2 = Witness.Wire.fieldBn254Fr
  size : readAt header 12 4 = Witness.Wire.headerSize
  nodeCount : readAt header 48 4 = nodeCount
  signalCount : readAt header 52 4 = signalCount
  mappingCount : readAt header 56 4 = mappingCount
  inputBufferLen : readAt header 60 4 = inputBufferLen

theorem spellHeader_fields (hmagic : magic.length = 8) (hsha : r1csSha256.length = 32)
    (hnodes : nodeCount < 2 ^ 32) (hsignals : signalCount < 2 ^ 32)
    (hmappings : mappingCount < 2 ^ 32) (hinputs : inputBufferLen < 2 ^ 32) :
    Fields (spellHeader magic version r1csSha256 nodeCount signalCount mappingCount
      inputBufferLen) magic version nodeCount signalCount mappingCount inputBufferLen := by
  have hlast : readAt (leBytes 4 inputBufferLen) 0 4 = inputBufferLen := by
    have := readAt_here (show inputBufferLen < 256 ^ 4 by omega) []
    rwa [List.append_nil] at this
  refine ⟨List.take_left' hmagic, ?_, ?_, ?_, ?_, ?_, ?_, ?_⟩ <;>
    simp only [spellHeader, readAt_skip, readAt_here, hmagic, hsha, leBytes_length, Nat.reduceLeDiff,
      Nat.reduceSub, number_lt, hlast, show nodeCount < 256 ^ 4 by omega,
      show signalCount < 256 ^ 4 by omega, show mappingCount < 256 ^ 4 by omega,
      show Witness.Wire.fieldBn254Fr < 256 ^ 2 by decide,
      show Witness.Wire.headerSize < 256 ^ 4 by decide]

/-- The output header of the transcoder. -/
theorem spellHeader_retarget (hmagic : magic.length = 8) (target : FormatVersion) :
    (spellHeader magic version r1csSha256 nodeCount signalCount mappingCount
        inputBufferLen).take 8 ++ leBytes 2 target.number ++
      (spellHeader magic version r1csSha256 nodeCount signalCount mappingCount
        inputBufferLen).drop 10 =
      spellHeader magic target r1csSha256 nodeCount signalCount mappingCount inputBufferLen := by
  have hsplit : ∀ v : FormatVersion, (magic ++ leBytes 2 v.number).length = 10 := by
    intro v
    simp [hmagic]
  rw [spellHeader, List.take_left' hmagic, ← List.append_assoc magic, List.drop_left' (hsplit _),
    spellHeader, List.append_assoc]

/-- Sixty-four bytes with these fixed fields are a spelled header. -/
theorem eq_spellHeader {header : List UInt8} (hlength : header.length = Witness.Wire.headerSize)
    (hversion : readAt header 8 2 = version.number)
    (hfield : readAt header 10 2 = Witness.Wire.fieldBn254Fr)
    (hsize : readAt header 12 4 = Witness.Wire.headerSize) :
    header = spellHeader (header.take 8) version ((header.drop 16).take 32) (readAt header 48 4)
      (readAt header 52 4) (readAt header 56 4) (readAt header 60 4) := by
  unfold Witness.Wire.headerSize at hlength
  have hcut : ∀ offset length, offset + length ≤ 64 → leBytes length (readAt header offset length) ++
      header.drop (offset + length) = header.drop offset :=
    fun offset length h => leBytes_readAt (by omega)
  have hend : leBytes 4 (readAt header 60 4) = header.drop 60 := by
    have h := hcut 60 4 (by omega)
    rwa [List.drop_eq_nil_of_le (by omega), List.append_nil] at h
  have hsha : (header.drop 16).take 32 ++ header.drop 48 = header.drop 16 := by
    have h := List.take_append_drop 32 (header.drop 16)
    rwa [List.drop_drop] at h
  rw [spellHeader, ← hversion, ← hfield, ← hsize, hend, hcut 56 4 (by omega), hcut 52 4 (by omega),
    hcut 48 4 (by omega), hsha, hcut 12 4 (by omega), hcut 10 2 (by omega), hcut 8 2 (by omega),
    List.take_append_drop]

end Header

end Curvy.Signet
