import Curvy.Signet.Transcode
import Curvy.Witness.Decoding

/-!
# The spelling of an artifact

Each body version spells a record, an output reference and a header in one way. The
transcoder's cursor and the evaluator's reader are both exact for that spelling, and the
writers produce it.
-/

namespace Curvy

set_option autoImplicit false

open Decoder
open Witness (FormatVersion)

/-! ### The primitive readers -/

namespace Signet.Body

theorem take_exact (count : Nat) : Exact (take count) (fun bytes => bytes.length = count) id :=
  takeOr_exact _ count

theorem u8_exact : Exact u8 (fun value => value < 256) (leBytes 1) := leOr_exact _ 1

theorem u32_exact : Exact u32 (fun value => value < 2 ^ 32) (leBytes 4) := leOr_exact _ 4

theorem varU64_exact : Exact varU64 (fun value => value < 2 ^ 64) (varBytes 10) :=
  varOr_exact _ _ _ u8_exact

end Signet.Body

namespace Witness.Reader

theorem take_exact (count : Nat) : Exact (take count) (fun bytes => bytes.length = count) id :=
  takeOr_exact _ count

theorem u8_exact : Exact u8 (fun value => value < 256) (leBytes 1) := leOr_exact _ 1

theorem u16_exact : Exact u16 (fun value => value < 2 ^ 16) (leBytes 2) := leOr_exact _ 2

theorem u32_exact : Exact u32 (fun value => value < 2 ^ 32) (leBytes 4) := leOr_exact _ 4

theorem varU64From_eq (rounds index value : Nat) : varU64From rounds index value =
    varOr u8 .invalidVarint .invalidVarint .nonCanonicalVarint rounds index value := by
  induction rounds generalizing index value with
  | zero => rfl
  | succ rounds ih =>
    rw [varU64From, varOr]
    refine congrArg (u8 >>= ·) (funext fun byte => funext fun bytes => ?_)
    dsimp only
    rw [← ih]
    unfold refuseIf
    split
    · rfl
    · change (if _ then _ else _ : Reader Nat) bytes = _
      split
      · split <;> rfl
      · rfl

theorem varU64_exact : Exact varU64 (fun value => value < 2 ^ 64) (varBytes 10) := by
  rw [varU64, varU64From_eq]
  exact varOr_exact _ _ _ u8_exact

theorem varU32_exact : Exact varU32 (fun value => value < 2 ^ 32) (varBytes 10) := by
  intro bytes a rest
  simp only [varU32, varU64_exact.bind_ok, lift_bind_ok, refuseIf_ok, pure_ok]
  constructor
  · rintro ⟨value, _, _, rfl, _, hlt, rfl, rfl⟩
    exact ⟨by omega, rfl⟩
  · rintro ⟨hlt, rfl⟩
    exact ⟨a, rest, by omega, rfl, (), by omega, rfl, rfl⟩

end Witness.Reader

namespace Signet

/-! ### Records -/

namespace Record

/-- The first byte of a record. -/
def tag : FormatVersion → Record → Nat
  | .v1, .input _ => 0
  | .v1, .constant _ => 1
  | .v1, .operation _ _ _ => 2
  | .v1, .inverse _ => 3
  | .v2, .input _ => 0x80
  | .v2, .constant _ => 0x81
  | .v2, .operation tag _ _ => tag
  | .v2, .inverse _ => 0x82

/-- The bytes behind it: absolute references in version 1, distances in version 2. -/
def payload (index : Nat) : FormatVersion → Record → List UInt8
  | .v1, .input i => leBytes 4 i
  | .v1, .constant value => value
  | .v1, .operation tag left right => leBytes 1 tag ++ (leBytes 4 left ++ leBytes 4 right)
  | .v1, .inverse source => leBytes 4 source
  | .v2, .input i => varBytes 10 i
  | .v2, .constant value => value
  | .v2, .operation _ left right => varBytes 10 (index - left) ++ varBytes 10 (index - right)
  | .v2, .inverse source => varBytes 10 (index - source)

def spell (version : FormatVersion) (index : Nat) (record : Record) : List UInt8 :=
  leBytes 1 (record.tag version) ++ record.payload index version

/-- A known operation over earlier nodes, an input of the buffer, or 32 constant bytes. -/
def Canonical (inputBufferLen index : Nat) : Record → Prop
  | .input i => i < inputBufferLen
  | .constant value => value.length = 32
  | .operation tag left right => tag < 23 ∧ left < index ∧ right < index
  | .inverse source => source < index

theorem tag_lt {inputBufferLen index : Nat} {record : Record}
    (h : record.Canonical inputBufferLen index) (version : FormatVersion) :
    record.tag version < 256 := by
  cases version <;> cases record <;> simp only [tag, Canonical] at * <;> omega

theorem Canonical.widen {record : Record} {index inputBufferLen : Nat}
    (hlen : inputBufferLen ≤ 2 ^ 32) (h : record.Canonical inputBufferLen index) :
    record.Canonical (2 ^ 32) index := by
  cases record with
  | input i => exact Nat.lt_of_lt_of_le h hlen
  | constant value => exact h
  | operation tag left right => exact h
  | inverse source => exact h

end Record

namespace Body

theorem operation_ok {tag index t : Nat} :
    operation tag index = .ok t ↔ tag < 23 ∧ t = tag := by
  unfold operation allOperationTags
  split <;> simp_all [eq_comm]

theorem prior_ok {reference index r : Nat} :
    prior reference index = .ok r ↔ reference < index ∧ r = reference := by
  unfold prior
  split <;> simp_all [eq_comm]

theorem distance_exact {index : Nat} (hindex : index ≤ 2 ^ 32) :
    Exact (distance index) (fun source => source < index)
      (fun source => varBytes 10 (index - source)) := by
  intro bytes a rest
  rw [distance, varU64_exact.bind_ok]
  constructor
  · rintro ⟨value, u, _, rfl, h⟩
    split at h
    · obtain ⟨rfl, rfl⟩ := pure_ok.mp h
      have hback : index - (index - value) = value := by omega
      exact ⟨by omega, by simp only [hback]⟩
    · exact absurd h throw_ok
  · rintro ⟨hlt, rfl⟩
    refine ⟨_, rest, by omega, rfl, ?_⟩
    rw [if_pos (by omega), pure_ok]
    exact ⟨by omega, rfl⟩

theorem recordV1_ok {tag index : Nat} (hindex : index ≤ 2 ^ 32) {record : Record}
    {bytes rest : List UInt8} : recordV1 tag index bytes = .ok (record, rest) ↔
      record.tag .v1 = tag ∧ record.Canonical (2 ^ 32) index ∧
        bytes = record.payload index .v1 ++ rest := by
  constructor
  · intro h
    unfold recordV1 at h
    split at h
    · obtain ⟨i, u, hlt, rfl, h₁⟩ := u32_exact.bind_ok.mp h
      obtain ⟨rfl, rfl⟩ := pure_ok.mp h₁
      exact ⟨rfl, hlt, rfl⟩
    · obtain ⟨value, u, hlen, rfl, h₁⟩ := (take_exact 32).bind_ok.mp h
      obtain ⟨rfl, rfl⟩ := pure_ok.mp h₁
      exact ⟨rfl, hlen, rfl⟩
    · obtain ⟨tag, u, _, rfl, h₁⟩ := u8_exact.bind_ok.mp h
      obtain ⟨_, htag, h₂⟩ := lift_bind_ok.mp h₁
      obtain ⟨left, v, _, rfl, h₃⟩ := u32_exact.bind_ok.mp h₂
      obtain ⟨_, hleft, h₄⟩ := lift_bind_ok.mp h₃
      obtain ⟨right, w, _, rfl, h₅⟩ := u32_exact.bind_ok.mp h₄
      obtain ⟨_, hright, h₆⟩ := lift_bind_ok.mp h₅
      obtain ⟨rfl, rfl⟩ := pure_ok.mp h₆
      obtain ⟨hknown, rfl⟩ := operation_ok.mp htag
      obtain ⟨hl, rfl⟩ := prior_ok.mp hleft
      obtain ⟨hr, rfl⟩ := prior_ok.mp hright
      exact ⟨rfl, ⟨hknown, hl, hr⟩, by simp only [Record.payload, List.append_assoc]⟩
    · obtain ⟨source, u, _, rfl, h₁⟩ := u32_exact.bind_ok.mp h
      obtain ⟨_, hsource, h₂⟩ := lift_bind_ok.mp h₁
      obtain ⟨rfl, rfl⟩ := pure_ok.mp h₂
      obtain ⟨hs, rfl⟩ := prior_ok.mp hsource
      exact ⟨rfl, hs, rfl⟩
    · exact absurd h throw_ok
  · rintro ⟨rfl, hcanon, rfl⟩
    cases record with
    | input i => exact u32_exact.bind_ok.mpr ⟨i, rest, hcanon, rfl, rfl⟩
    | constant value => exact (take_exact 32).bind_ok.mpr ⟨value, rest, hcanon, rfl, rfl⟩
    | operation tag left right =>
      obtain ⟨htag, hleft, hright⟩ := hcanon
      refine u8_exact.bind_ok.mpr ⟨tag, _, by omega, List.append_assoc _ _ _, ?_⟩
      refine lift_bind_ok.mpr ⟨tag, operation_ok.mpr ⟨htag, rfl⟩, ?_⟩
      refine u32_exact.bind_ok.mpr ⟨left, _, by omega, List.append_assoc _ _ _, ?_⟩
      refine lift_bind_ok.mpr ⟨left, prior_ok.mpr ⟨hleft, rfl⟩, ?_⟩
      refine u32_exact.bind_ok.mpr ⟨right, rest, by omega, rfl, ?_⟩
      exact lift_bind_ok.mpr ⟨right, prior_ok.mpr ⟨hright, rfl⟩, rfl⟩
    | inverse source =>
      have hlt : source < index := hcanon
      refine u32_exact.bind_ok.mpr ⟨source, rest, by omega, rfl, ?_⟩
      exact lift_bind_ok.mpr ⟨source, prior_ok.mpr ⟨hlt, rfl⟩, rfl⟩

theorem recordV2_ok {tag index : Nat} (hindex : index ≤ 2 ^ 32) {record : Record}
    {bytes rest : List UInt8} : recordV2 tag index bytes = .ok (record, rest) ↔
      record.tag .v2 = tag ∧ record.Canonical (2 ^ 32) index ∧
        bytes = record.payload index .v2 ++ rest := by
  constructor
  · intro h
    unfold recordV2 at h
    split at h
    · rename_i htag
      obtain ⟨i, u, _, rfl, h₁⟩ := varU64_exact.bind_ok.mp h
      split at h₁
      · rename_i hlt
        obtain ⟨rfl, rfl⟩ := pure_ok.mp h₁
        exact ⟨htag.symm, hlt, rfl⟩
      · exact absurd h₁ throw_ok
    split at h
    · rename_i htag
      obtain ⟨value, u, hlen, rfl, h₁⟩ := (take_exact 32).bind_ok.mp h
      obtain ⟨rfl, rfl⟩ := pure_ok.mp h₁
      exact ⟨htag.symm, hlen, rfl⟩
    split at h
    · rename_i htag
      obtain ⟨source, u, hs, rfl, h₁⟩ := (distance_exact hindex).bind_ok.mp h
      obtain ⟨rfl, rfl⟩ := pure_ok.mp h₁
      exact ⟨htag.symm, hs, rfl⟩
    split at h
    · obtain ⟨_, htag, h₁⟩ := lift_bind_ok.mp h
      obtain ⟨left, u, hl, rfl, h₂⟩ := (distance_exact hindex).bind_ok.mp h₁
      obtain ⟨right, v, hr, rfl, h₃⟩ := (distance_exact hindex).bind_ok.mp h₂
      obtain ⟨rfl, rfl⟩ := pure_ok.mp h₃
      obtain ⟨hknown, rfl⟩ := operation_ok.mp htag
      exact ⟨rfl, ⟨hknown, hl, hr⟩, (List.append_assoc _ _ _).symm⟩
    · exact absurd h throw_ok
  · rintro ⟨rfl, hcanon, rfl⟩
    cases record with
    | input i =>
      have hlt : i < 2 ^ 32 := hcanon
      refine varU64_exact.bind_ok.mpr ⟨i, rest, by omega, rfl, ?_⟩
      rw [if_pos hlt]
      rfl
    | constant value => exact (take_exact 32).bind_ok.mpr ⟨value, rest, hcanon, rfl, rfl⟩
    | operation tag left right =>
      obtain ⟨htag, hleft, hright⟩ := hcanon
      have hinput : ¬ tag = Witness.Wire.v2InputTag := by
        unfold Witness.Wire.v2InputTag
        omega
      have hconstant : ¬ tag = Witness.Wire.v2ConstantTag := by
        unfold Witness.Wire.v2ConstantTag
        omega
      have hinverse : ¬ tag = Witness.Wire.v2InverseTag := by
        unfold Witness.Wire.v2InverseTag
        omega
      have hlow : tag ≤ 0x7f := by omega
      rw [Record.tag, recordV2, if_neg hinput, if_neg hconstant, if_neg hinverse, if_pos hlow]
      refine lift_bind_ok.mpr ⟨tag, operation_ok.mpr ⟨htag, rfl⟩, ?_⟩
      refine (distance_exact hindex).bind_ok.mpr ⟨left, _, hleft, List.append_assoc _ _ _, ?_⟩
      exact (distance_exact hindex).bind_ok.mpr ⟨right, rest, hright, rfl, rfl⟩
    | inverse source =>
      exact (distance_exact hindex).bind_ok.mpr ⟨source, rest, hcanon, rfl, rfl⟩

theorem checkInput_ok {record : Record} {index inputBufferLen : Nat} (h : record.Canonical (2 ^ 32) index) :
    checkInput record index inputBufferLen = .ok () ↔ record.Canonical inputBufferLen index := by
  cases record with
  | input i =>
    simp only [checkInput, Record.Canonical]
    split <;> simp <;> omega
  | constant value => exact iff_of_true rfl h
  | operation tag left right => exact iff_of_true rfl h
  | inverse source => exact iff_of_true rfl h

theorem recordOf_ok {version : FormatVersion} {tag index : Nat} (hindex : index ≤ 2 ^ 32)
    {record : Record} {bytes rest : List UInt8} :
    recordOf version tag index bytes = .ok (record, rest) ↔
      record.tag version = tag ∧ record.Canonical (2 ^ 32) index ∧
        bytes = record.payload index version ++ rest := by
  cases version with
  | v1 => exact recordV1_ok hindex
  | v2 => exact recordV2_ok hindex

theorem record_exact (version : FormatVersion) {index inputBufferLen : Nat}
    (hindex : index ≤ 2 ^ 32) (hlen : inputBufferLen ≤ 2 ^ 32) :
    Exact (record version index inputBufferLen) (Record.Canonical inputBufferLen index)
      (Record.spell version index) := by
  intro bytes r rest
  rw [record, u8_exact.bind_ok]
  constructor
  · rintro ⟨tag, u, _, rfl, h⟩
    obtain ⟨r', v, hread, h₁⟩ := Decoder.bind_ok.mp h
    obtain ⟨_, hcheck, h₂⟩ := lift_bind_ok.mp h₁
    obtain ⟨rfl, rfl⟩ := pure_ok.mp h₂
    obtain ⟨rfl, hcanon, rfl⟩ := (recordOf_ok hindex).mp hread
    exact ⟨(checkInput_ok hcanon).mp hcheck, (List.append_assoc _ _ _).symm⟩
  · rintro ⟨hcanon, rfl⟩
    have hwide := hcanon.widen hlen
    refine ⟨_, _, Record.tag_lt hcanon version, List.append_assoc _ _ _, ?_⟩
    refine Decoder.bind_ok.mpr ⟨r, rest, (recordOf_ok hindex).mpr ⟨rfl, hwide, rfl⟩, ?_⟩
    exact lift_bind_ok.mpr ⟨(), (checkInput_ok hwide).mpr hcanon, rfl⟩

end Body

/-! ### The evaluator's records -/

/-- The tag of an operation is its place in the table. -/
def operationTag (operation : Witness.Operation) : Nat := Witness.Operation.all.idxOf operation

theorem operationTag_lt (operation : Witness.Operation) : operationTag operation < 23 := by
  cases operation <;> decide

theorem fromTag_ok {tag index : Nat} {operation : Witness.Operation} :
    Witness.Operation.fromTag tag index = .ok operation ↔ operationTag operation = tag := by
  unfold Witness.Operation.fromTag
  constructor
  · intro h
    split at h
    · rename_i op hget
      cases h
      obtain ⟨hlt, hget⟩ := List.getElem?_eq_some_iff.mp hget
      rw [operationTag, ← hget]
      exact List.Nodup.idxOf_getElem (by decide) tag hlt
    · cases h
  · rintro rfl
    cases operation <;> rfl

/-- The evaluator's record as the transcoder sees it. -/
def toRecord : Witness.NodeRecord → Record
  | .input i => .input i
  | .constant encoded => .constant encoded
  | .operation operation left right => .operation (operationTag operation) left right
  | .inverse source => .inverse source

theorem validateReference_ok {index reference : Nat} {u : Unit} :
    Witness.validateReference index reference = .ok u ↔ reference < index := by
  rw [Witness.validateReference, Witness.refuseIf_ok, Nat.not_le]

theorem checkedInput_ok {i index length : Nat} {record : Witness.NodeRecord} :
    Witness.checkedInput i index length = .ok record ↔ i < length ∧ record = .input i := by
  simp only [Witness.checkedInput, Fallible.bind_ok, Witness.refuseIf_ok, Nat.not_le]
  constructor
  · rintro ⟨_, hlt, h⟩
    exact ⟨hlt, (Except.ok.inj h).symm⟩
  · rintro ⟨hlt, rfl⟩
    exact ⟨(), hlt, rfl⟩

theorem decodeBackwardReference_exact {index : Nat} (hindex : index ≤ 2 ^ 32) :
    Exact (Witness.decodeBackwardReference index) (fun source => source < index)
      (fun source => varBytes 10 (index - source)) := by
  intro bytes a rest
  rw [Witness.decodeBackwardReference, Witness.Reader.varU64_exact.bind_ok]
  simp only [lift_bind_ok, Witness.refuseIf_ok, pure_ok]
  constructor
  · rintro ⟨value, u, _, rfl, _, hvalue, rfl, rfl⟩
    have hback : index - (index - value) = value := by omega
    exact ⟨by omega, by simp only [hback]⟩
  · rintro ⟨hlt, rfl⟩
    exact ⟨_, rest, by omega, rfl, (), by omega, by omega, rfl⟩

section NodeRecords

open Witness (NodeRecord)
open Witness.Reader

variable {index inputBufferLen : Nat}

theorem readNodeRecordV1_exact (hindex : index ≤ 2 ^ 32) (hlen : inputBufferLen ≤ 2 ^ 32) :
    Exact (Witness.readNodeRecordV1 index inputBufferLen)
      (fun node => (toRecord node).Canonical inputBufferLen index)
      (fun node => (toRecord node).spell .v1 index) := by
  intro bytes node rest
  rw [Witness.readNodeRecordV1, u8_exact.bind_ok]
  constructor
  · rintro ⟨tag, u, _, rfl, h⟩
    split at h
    · obtain ⟨i, u, _, rfl, h₁⟩ := u32_exact.bind_ok.mp h
      obtain ⟨hinput, rfl⟩ := lift_ok.mp h₁
      obtain ⟨hlt, rfl⟩ := checkedInput_ok.mp hinput
      exact ⟨hlt, (List.append_assoc _ _ _).symm⟩
    · obtain ⟨value, u, hvalue, rfl, h₁⟩ := (take_exact 32).bind_ok.mp h
      obtain ⟨rfl, rfl⟩ := pure_ok.mp h₁
      exact ⟨hvalue, (List.append_assoc _ _ _).symm⟩
    · obtain ⟨tag, u, _, rfl, h₁⟩ := u8_exact.bind_ok.mp h
      obtain ⟨operation, htag, h₂⟩ := lift_bind_ok.mp h₁
      obtain ⟨left, v, _, rfl, h₃⟩ := u32_exact.bind_ok.mp h₂
      obtain ⟨right, w, _, rfl, h₄⟩ := u32_exact.bind_ok.mp h₃
      obtain ⟨_, hleft, h₅⟩ := lift_bind_ok.mp h₄
      obtain ⟨_, hright, h₆⟩ := lift_bind_ok.mp h₅
      obtain ⟨rfl, rfl⟩ := pure_ok.mp h₆
      obtain rfl := fromTag_ok.mp htag
      refine ⟨⟨operationTag_lt _, validateReference_ok.mp hleft, validateReference_ok.mp hright⟩, ?_⟩
      simp only [toRecord, Record.spell, Record.tag, Record.payload, List.append_assoc]
    · obtain ⟨source, u, _, rfl, h₁⟩ := u32_exact.bind_ok.mp h
      obtain ⟨_, hsource, h₂⟩ := lift_bind_ok.mp h₁
      obtain ⟨rfl, rfl⟩ := pure_ok.mp h₂
      exact ⟨validateReference_ok.mp hsource, (List.append_assoc _ _ _).symm⟩
    · exact absurd h throw_ok
  · rintro ⟨hcanon, rfl⟩
    refine ⟨_, _, Record.tag_lt hcanon .v1, List.append_assoc _ _ _, ?_⟩
    cases node with
    | input i =>
      have hlt : i < inputBufferLen := hcanon
      refine u32_exact.bind_ok.mpr ⟨i, rest, by omega, rfl, ?_⟩
      exact lift_ok.mpr ⟨checkedInput_ok.mpr ⟨hlt, rfl⟩, rfl⟩
    | constant value => exact (take_exact 32).bind_ok.mpr ⟨value, rest, hcanon, rfl, rfl⟩
    | operation operation left right =>
      obtain ⟨htag, hleft, hright⟩ := hcanon
      refine u8_exact.bind_ok.mpr ⟨operationTag operation, _, by omega, List.append_assoc _ _ _, ?_⟩
      refine lift_bind_ok.mpr ⟨operation, fromTag_ok.mpr rfl, ?_⟩
      refine u32_exact.bind_ok.mpr ⟨left, _, by omega, List.append_assoc _ _ _, ?_⟩
      refine u32_exact.bind_ok.mpr ⟨right, rest, by omega, rfl, ?_⟩
      refine lift_bind_ok.mpr ⟨(), validateReference_ok.mpr hleft, ?_⟩
      exact lift_bind_ok.mpr ⟨(), validateReference_ok.mpr hright, rfl⟩
    | inverse source =>
      have hlt : source < index := hcanon
      refine u32_exact.bind_ok.mpr ⟨source, rest, by omega, rfl, ?_⟩
      exact lift_bind_ok.mpr ⟨(), validateReference_ok.mpr hlt, rfl⟩

theorem readNodeRecordV2_exact (hindex : index ≤ 2 ^ 32) (hlen : inputBufferLen ≤ 2 ^ 32) :
    Exact (Witness.readNodeRecordV2 index inputBufferLen)
      (fun node => (toRecord node).Canonical inputBufferLen index)
      (fun node => (toRecord node).spell .v2 index) := by
  intro bytes node rest
  rw [Witness.readNodeRecordV2, u8_exact.bind_ok]
  constructor
  · rintro ⟨tag, u, _, rfl, h⟩
    split at h
    · rename_i htag
      obtain ⟨i, u, _, rfl, h₁⟩ := varU32_exact.bind_ok.mp h
      obtain ⟨hinput, rfl⟩ := lift_ok.mp h₁
      obtain ⟨hlt, rfl⟩ := checkedInput_ok.mp hinput
      exact ⟨hlt, by rw [htag]; exact (List.append_assoc _ _ _).symm⟩
    split at h
    · rename_i htag
      obtain ⟨value, u, hvalue, rfl, h₁⟩ := (take_exact 32).bind_ok.mp h
      obtain ⟨rfl, rfl⟩ := pure_ok.mp h₁
      exact ⟨hvalue, by rw [htag]; exact (List.append_assoc _ _ _).symm⟩
    split at h
    · rename_i htag
      obtain ⟨source, u, hsource, rfl, h₁⟩ := (decodeBackwardReference_exact hindex).bind_ok.mp h
      obtain ⟨rfl, rfl⟩ := pure_ok.mp h₁
      exact ⟨hsource, by rw [htag]; exact (List.append_assoc _ _ _).symm⟩
    split at h
    · obtain ⟨operation, htag, h₁⟩ := lift_bind_ok.mp h
      obtain ⟨left, u, hl, rfl, h₂⟩ := (decodeBackwardReference_exact hindex).bind_ok.mp h₁
      obtain ⟨right, v, hr, rfl, h₃⟩ := (decodeBackwardReference_exact hindex).bind_ok.mp h₂
      obtain ⟨rfl, rfl⟩ := pure_ok.mp h₃
      obtain rfl := fromTag_ok.mp htag
      refine ⟨⟨operationTag_lt _, hl, hr⟩, ?_⟩
      simp only [toRecord, Record.spell, Record.tag, Record.payload, List.append_assoc]
    · exact absurd h throw_ok
  · rintro ⟨hcanon, rfl⟩
    refine ⟨_, _, Record.tag_lt hcanon .v2, List.append_assoc _ _ _, ?_⟩
    cases node with
    | input i =>
      have hlt : i < inputBufferLen := hcanon
      refine varU32_exact.bind_ok.mpr ⟨i, rest, by omega, rfl, ?_⟩
      exact lift_ok.mpr ⟨checkedInput_ok.mpr ⟨hlt, rfl⟩, rfl⟩
    | constant value => exact (take_exact 32).bind_ok.mpr ⟨value, rest, hcanon, rfl, rfl⟩
    | operation operation left right =>
      obtain ⟨htag, hleft, hright⟩ := hcanon
      have hinput : ¬ operationTag operation = Witness.Wire.v2InputTag := by
        unfold Witness.Wire.v2InputTag
        omega
      have hconstant : ¬ operationTag operation = Witness.Wire.v2ConstantTag := by
        unfold Witness.Wire.v2ConstantTag
        omega
      have hinverse : ¬ operationTag operation = Witness.Wire.v2InverseTag := by
        unfold Witness.Wire.v2InverseTag
        omega
      have hlow : operationTag operation ≤ 0x7f := by omega
      rw [toRecord, Record.tag, if_neg hinput, if_neg hconstant, if_neg hinverse, if_pos hlow]
      refine lift_bind_ok.mpr ⟨operation, fromTag_ok.mpr rfl, ?_⟩
      refine (decodeBackwardReference_exact hindex).bind_ok.mpr
        ⟨left, _, hleft, List.append_assoc _ _ _, ?_⟩
      exact (decodeBackwardReference_exact hindex).bind_ok.mpr ⟨right, rest, hright, rfl, rfl⟩
    | inverse source =>
      exact (decodeBackwardReference_exact hindex).bind_ok.mpr ⟨source, rest, hcanon, rfl, rfl⟩

theorem readNodeRecord_exact (version : FormatVersion) (hindex : index ≤ 2 ^ 32)
    (hlen : inputBufferLen ≤ 2 ^ 32) :
    Exact (Witness.readNodeRecord version index inputBufferLen)
      (fun node => (toRecord node).Canonical inputBufferLen index)
      (fun node => (toRecord node).spell version index) := by
  cases version with
  | v1 => exact readNodeRecordV1_exact hindex hlen
  | v2 => exact readNodeRecordV2_exact hindex hlen

end NodeRecords

end Signet
end Curvy
