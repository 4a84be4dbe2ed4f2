import Curvy.Witness.Sage

/-!
# What the wire decoder guarantees

Every reader either fails with an error that blames the artifact, or returns values in
range: references to earlier nodes, inputs inside the buffer, counts of 32 bits. A loop
over the records is the decoding of all records followed by a fold of its body.
-/

namespace Curvy.Witness

set_option autoImplicit false

open Decoder

/-- The error blames the artifact or the input, not the compiler. -/
def External (e : WitnessError) : Prop := e.internal = false

/-- The call returns a value with `P`, or an error that blames its input. -/
abbrev Checked {α : Type} (x : Except WitnessError α) (P : α → Prop) : Prop :=
  Fallible.Meets External x P

abbrev Reads {α : Type} (x : Reader α) (P : α → Prop) : Prop := Meets External x P

@[simp] theorem refuseIf_ok {bad : Prop} [Decidable bad] {e : WitnessError} {u : Unit} :
    refuseIf bad e = .ok u ↔ ¬ bad := by
  unfold refuseIf
  split <;> simp [*]

theorem refuseIf_checked {bad : Prop} [Decidable bad] {e : WitnessError} (he : External e) :
    Checked (refuseIf bad e) fun _ => ¬ bad := by
  unfold refuseIf
  split
  · exact .error he
  · exact .ok ‹_›

namespace Reader

theorem take_reads (n : Nat) : Reads (take n) fun bytes => bytes.length = n := by
  intro s
  unfold take
  split
  · exact .error rfl
  · refine .ok ?_
    simp only [List.length_take]
    omega

theorem leNat_reads (n : Nat) : Reads (leNat <$> take n) fun value => value < 256 ^ n :=
  .map ((take_reads n).mono fun bytes h => h ▸ leNat_lt bytes)

theorem u8_reads : Reads u8 fun value => value < 2 ^ 8 := leNat_reads 1
theorem u16_reads : Reads u16 fun value => value < 2 ^ 16 := leNat_reads 2
theorem u32_reads : Reads u32 fun value => value < 2 ^ 32 := leNat_reads 4
theorem u64_reads : Reads u64 fun value => value < 2 ^ 64 := leNat_reads 8

theorem varU64From_reads (rounds index value : Nat) :
    Reads (varU64From rounds index value) fun _ => True := by
  induction rounds generalizing index value with
  | zero => exact .throw rfl
  | succ rounds ih =>
    unfold varU64From
    refine u8_reads.bind fun byte _ => ?_
    refine (Meets.lift (refuseIf_checked (by rfl))).bind fun _ _ => ?_
    dsimp only
    split
    · exact (Meets.lift (refuseIf_checked (by rfl))).bind fun _ _ => .pure trivial
    · exact ih _ _

theorem varU64_reads : Reads varU64 fun _ => True := varU64From_reads 10 0 0

theorem varU32_reads : Reads varU32 fun value => value < 2 ^ 32 :=
  varU64_reads.bind fun _ _ =>
    (Meets.lift (refuseIf_checked (by rfl))).bind fun _ h => .pure (Nat.lt_of_not_ge h)

end Reader

open Reader

/-! ## Header -/

theorem checkedCount_checked (what : String) {actual : Nat} (maximum : Nat)
    (h : actual < 2 ^ 32) : Checked (checkedCount what actual maximum) fun n => n < 2 ^ 32 :=
  (refuseIf_checked (by rfl)).bind fun _ _ => .ok h

theorem readVersion_checked (signetV2 : Bool) (version : Nat) :
    Checked (readVersion signetV2 version) fun _ => True := by
  unfold readVersion
  split
  · exact .ok trivial
  · split
    · exact .ok trivial
    · exact .error rfl

/-- The counts of a decoded header fit 32 bits and none of the graph's parts is empty. -/
structure Header.Sized (header : Header) : Prop where
  nodes : header.nodeCount < 2 ^ 32
  signals : header.signalCount < 2 ^ 32
  inputs : header.inputBufferLen < 2 ^ 32
  inputs_ne : header.inputBufferLen ≠ 0

theorem readHeader_reads (signetV2 : Bool) (limits : Limits) :
    Reads (readHeader signetV2 limits) Header.Sized := by
  unfold readHeader
  refine (take_reads 8).bind fun magic _ => ?_
  refine (Meets.lift (refuseIf_checked (by rfl))).bind fun _ _ => ?_
  refine u16_reads.bind fun number _ => ?_
  refine (Meets.lift (readVersion_checked signetV2 number)).bind fun version _ => ?_
  refine u16_reads.bind fun field _ => ?_
  refine (Meets.lift (refuseIf_checked (by rfl))).bind fun _ _ => ?_
  refine u32_reads.bind fun headerSize _ => ?_
  refine (Meets.lift (refuseIf_checked (by rfl))).bind fun _ _ => ?_
  refine (take_reads 32).bind fun r1csSha256 _ => ?_
  refine u32_reads.bind fun nodes hnodes => ?_
  refine (Meets.lift (checkedCount_checked "node" _ hnodes)).bind fun nodeCount hnodes => ?_
  refine u32_reads.bind fun signals hsignals => ?_
  refine (Meets.lift (checkedCount_checked "signal" _ hsignals)).bind fun signalCount hsignals => ?_
  refine u32_reads.bind fun mappings hmappings => ?_
  refine (Meets.lift (checkedCount_checked "input mapping" _ hmappings)).bind fun _ _ => ?_
  refine u32_reads.bind fun inputs hinputs => ?_
  refine (Meets.lift (checkedCount_checked "input value" _ hinputs)).bind fun inputLen hinputs => ?_
  refine (Meets.lift (refuseIf_checked (by rfl))).bind fun _ hempty => .pure ?_
  exact ⟨hnodes, hsignals, hinputs, fun h => hempty (.inr (.inr h))⟩

theorem preflightBodySize_checked (header : Header) (available : Nat) :
    Checked (preflightBodySize header available) fun _ => True := by
  unfold preflightBodySize
  split
  · exact .error rfl
  · exact (refuseIf_checked (by rfl)).mono fun _ _ => trivial

/-! ## Node records -/

/-- The earlier nodes a record reads. -/
def NodeRecord.reads : NodeRecord → Set Nat
  | .operation _ left right => {left, right}
  | .inverse source => {source}
  | .input _ | .constant _ => ∅

/-- What a consumer of record `index` may rely on. -/
structure NodeRecord.Valid (inputBufferLen index : Nat) (record : NodeRecord) : Prop where
  earlier : ∀ j ∈ record.reads, j < index
  buffered : ∀ i, record = .input i → i < inputBufferLen

theorem NodeRecord.Valid.constant (inputBufferLen index : Nat) (encoded : List UInt8) :
    NodeRecord.Valid inputBufferLen index (.constant encoded) :=
  ⟨fun _ h => h.elim, fun _ h => by cases h⟩

theorem NodeRecord.Valid.operation {inputBufferLen index left right : Nat} (op : Operation)
    (hleft : left < index) (hright : right < index) :
    NodeRecord.Valid inputBufferLen index (.operation op left right) where
  earlier := by
    rintro j (rfl | rfl)
    · exact hleft
    · exact hright
  buffered _ h := by cases h

theorem NodeRecord.Valid.inverse {inputBufferLen index source : Nat} (hsource : source < index) :
    NodeRecord.Valid inputBufferLen index (.inverse source) where
  earlier := by
    rintro j rfl
    exact hsource
  buffered _ h := by cases h

theorem checkedInput_checked (input index length : Nat) :
    Checked (checkedInput input index length) (NodeRecord.Valid length index) := by
  refine (refuseIf_checked (by rfl)).bind fun _ hlt => .ok ⟨fun _ h => h.elim, ?_⟩
  rintro i h
  cases h
  omega

theorem validateReference_checked (index reference : Nat) :
    Checked (validateReference index reference) fun _ => reference < index :=
  (refuseIf_checked (by rfl)).mono fun _ h => by omega

theorem fromTag_checked (tag index : Nat) :
    Checked (Operation.fromTag tag index) fun _ => True := by
  unfold Operation.fromTag
  split
  · exact .ok trivial
  · exact .error rfl

theorem decodeBackwardReference_reads (index : Nat) :
    Reads (decodeBackwardReference index) fun reference => reference < index :=
  varU64_reads.bind fun _ _ =>
    (Meets.lift (refuseIf_checked (by rfl))).bind fun _ h => .pure (by omega)

theorem readNodeRecordV1_reads (index length : Nat) :
    Reads (readNodeRecordV1 index length) (NodeRecord.Valid length index) := by
  unfold readNodeRecordV1
  refine u8_reads.bind fun tag _ => ?_
  split
  · exact u32_reads.bind fun input _ => .lift (checkedInput_checked input index length)
  · exact (take_reads 32).bind fun encoded _ => .pure (.constant length index encoded)
  · refine u8_reads.bind fun opTag _ => ?_
    refine (Meets.lift (fromTag_checked opTag index)).bind fun operation _ => ?_
    refine u32_reads.bind fun left _ => ?_
    refine u32_reads.bind fun right _ => ?_
    refine (Meets.lift (validateReference_checked index left)).bind fun _ hleft => ?_
    refine (Meets.lift (validateReference_checked index right)).bind fun _ hright => ?_
    exact .pure (.operation operation hleft hright)
  · refine u32_reads.bind fun source _ => ?_
    refine (Meets.lift (validateReference_checked index source)).bind fun _ hsource => ?_
    exact .pure (.inverse hsource)
  · exact .throw rfl

theorem readNodeRecordV2_reads (index length : Nat) :
    Reads (readNodeRecordV2 index length) (NodeRecord.Valid length index) := by
  unfold readNodeRecordV2
  refine u8_reads.bind fun tag _ => ?_
  split
  · exact varU32_reads.bind fun input _ => .lift (checkedInput_checked input index length)
  · split
    · exact (take_reads 32).bind fun encoded _ => .pure (.constant length index encoded)
    · split
      · exact (decodeBackwardReference_reads index).bind fun source h => .pure (.inverse h)
      · split
        · refine (Meets.lift (fromTag_checked tag index)).bind fun operation _ => ?_
          refine (decodeBackwardReference_reads index).bind fun left hleft => ?_
          refine (decodeBackwardReference_reads index).bind fun right hright => ?_
          exact .pure (.operation operation hleft hright)
        · exact .throw rfl

theorem readNodeRecord_reads (version : FormatVersion) (index length : Nat) :
    Reads (readNodeRecord version index length) (NodeRecord.Valid length index) := by
  cases version with
  | v1 => exact readNodeRecordV1_reads index length
  | v2 => exact readNodeRecordV2_reads index length

theorem constantFromBytes_checked (encoded : List UInt8) (index : Nat) :
    Checked (constantFromBytes encoded index) fun _ => True := by
  unfold constantFromBytes
  split
  · exact .ok trivial
  · exact .error rfl

theorem charge_checked (meter : CostMeter) (cost : Nat) :
    Checked (meter.charge cost) fun _ => True := by
  unfold CostMeter.charge
  dsimp only
  split
  · exact .error rfl
  · exact .ok trivial

def Node.cost : Node → Nat
  | .input _ | .constant _ => loadCost
  | .operation op _ _ => op.cost
  | .inverse _ => inverseCost

theorem materialize_cost {index : Nat} {record : NodeRecord} {node : Node}
    (h : materialize index record = .ok node) : node.cost = CostMeter.recordCost record := by
  cases record with
  | constant encoded =>
    obtain ⟨value, -, hnode⟩ := Fallible.bind_ok.mp h
    cases hnode
    rfl
  | _ =>
    cases h
    rfl

/-! ## Outputs and mappings -/

/-- As many output references as declared, each to an existing node. -/
structure SignalsFit (nodeCount count : Nat) (signals : List Nat) : Prop where
  length : signals.length = count
  bounded : ∀ node ∈ signals, node < nodeCount

theorem SignalsFit.cons {nodeCount count node : Nat} {signals : List Nat}
    (h : SignalsFit nodeCount count signals) (hnode : node < nodeCount) :
    SignalsFit nodeCount (count + 1) (node :: signals) where
  length := by rw [List.length_cons, h.length]
  bounded := List.forall_mem_cons.mpr ⟨hnode, h.bounded⟩

theorem readSignalsV1_reads (nodeCount count index : Nat) :
    Reads (readSignalsV1 nodeCount count index) (SignalsFit nodeCount count) := by
  induction count generalizing index with
  | zero => exact .pure ⟨rfl, by simp⟩
  | succ count ih =>
    unfold readSignalsV1
    refine u32_reads.bind fun reference _ => ?_
    refine (Meets.lift (refuseIf_checked (by rfl))).bind fun _ hlt => ?_
    exact (ih (index + 1)).bind fun signals h => .pure (h.cons (by omega))

theorem decodeOutputDelta_reads (previous nodeCount index : Nat) :
    Reads (decodeOutputDelta previous nodeCount index) fun reference => reference < nodeCount := by
  unfold decodeOutputDelta
  refine varU64_reads.bind fun encoded _ => ?_
  exact (Meets.lift (refuseIf_checked (by rfl))).bind fun _ h => .pure (by omega)

theorem readSignalsV2_reads (nodeCount count index previous : Nat) :
    Reads (readSignalsV2 nodeCount count index previous) (SignalsFit nodeCount count) := by
  induction count generalizing index previous with
  | zero => exact .pure ⟨rfl, by simp⟩
  | succ count ih =>
    unfold readSignalsV2
    refine (decodeOutputDelta_reads previous nodeCount index).bind fun reference hlt => ?_
    exact (ih (index + 1) reference).bind fun signals h => .pure (h.cons hlt)

theorem readOutputReferences_reads (header : Header) :
    Reads (readOutputReferences header) (SignalsFit header.nodeCount header.signalCount) := by
  unfold readOutputReferences
  split
  · exact readSignalsV1_reads _ _ _
  · exact readSignalsV2_reads _ _ _ _

theorem scanRanges_checked (order : List (Nat × Nat × Nat)) (enclosing : List Nat) :
    Checked (scanRanges order enclosing) fun _ => True := by
  induction order generalizing enclosing with
  | nil => exact .ok trivial
  | cons range order ih =>
    obtain ⟨index, start, size⟩ := range
    unfold scanRanges
    dsimp only
    split
    · exact .error rfl
    · exact ih _

theorem readMapping_reads (header : Header) (index : Nat) (hashes : List Nat) :
    Reads (readMapping header index hashes)
      fun m => m.signalId + m.signalSize ≤ header.inputBufferLen := by
  unfold readMapping
  refine u64_reads.bind fun hash _ => ?_
  refine u32_reads.bind fun signalId _ => ?_
  refine u32_reads.bind fun signalSize _ => ?_
  refine (Meets.lift (refuseIf_checked (by rfl))).bind fun _ _ => ?_
  exact (Meets.lift (refuseIf_checked (by rfl))).bind fun _ h => .pure (by dsimp only; omega)

theorem readMappingsFrom_reads (header : Header) (count index : Nat) (hashes : List Nat) :
    Reads (readMappingsFrom header count index hashes)
      fun mappings => MappingsFit mappings header.inputBufferLen := by
  induction count generalizing index hashes with
  | zero => exact .pure (by simp [MappingsFit])
  | succ count ih =>
    unfold readMappingsFrom
    refine (readMapping_reads header index hashes).bind fun mapping hm => ?_
    exact (ih _ _).bind fun mappings h => .pure (List.forall_mem_cons.mpr ⟨hm, h⟩)

theorem readInputMappings_reads (header : Header) :
    Reads (readInputMappings header)
      fun mappings => MappingsFit mappings header.inputBufferLen := by
  unfold readInputMappings
  refine (readMappingsFrom_reads header _ 0 []).bind fun mappings h => ?_
  exact (Meets.lift (scanRanges_checked _ _)).bind fun _ _ => .pure h

/-! ## Loops over the records -/

/-- The decoding half of every loop over the node section. -/
def readRecords (header : Header) : Nat → Nat → Reader (List NodeRecord)
  | 0, _ => return []
  | count + 1, index => do
    let record ← readNodeRecord header.version index header.inputBufferLen
    return record :: (← readRecords header count (index + 1))

/-- The other half: the loop's body over records already decoded. -/
def foldRecords {σ : Type} (body : Nat → NodeRecord → σ → Except WitnessError σ) :
    Nat → List NodeRecord → σ → Except WitnessError σ
  | _, [], s => .ok s
  | index, record :: records, s => body index record s >>= foldRecords body (index + 1) records

section Loops

variable {σ : Type} {header : Header} {body : Nat → NodeRecord → σ → Except WitnessError σ}

theorem forRecords_ok {count index : Nat} {s t : σ} {bytes rest : List UInt8} :
    forRecords header body count index s bytes = .ok (t, rest) ↔
      ∃ records, readRecords header count index bytes = .ok (records, rest) ∧
        foldRecords body index records s = .ok t := by
  induction count generalizing index s bytes with
  | zero =>
    simp only [forRecords, readRecords, pure_ok]
    constructor
    · rintro ⟨rfl, rfl⟩
      exact ⟨[], ⟨rfl, rfl⟩, rfl⟩
    · rintro ⟨records, ⟨rfl, rfl⟩, hfold⟩
      exact ⟨Except.ok.inj hfold, rfl⟩
  | succ count ih =>
    simp only [forRecords, readRecords, bind_ok, lift_ok, pure_ok, ih]
    constructor
    · rintro ⟨record, u, hread, s', _, ⟨hbody, rfl⟩, records, hrest, hfold⟩
      refine ⟨record :: records, ⟨record, u, hread, records, rest, hrest, rfl, rfl⟩, ?_⟩
      exact Fallible.bind_ok.mpr ⟨s', hbody, hfold⟩
    · rintro ⟨_, ⟨record, u, hread, records, v, hrest, rfl, rfl⟩, hfold⟩
      obtain ⟨s', hbody, hfold⟩ := Fallible.bind_ok.mp hfold
      exact ⟨record, u, hread, s', u, ⟨hbody, rfl⟩, records, hrest, hfold⟩

/-- Once the records decode, a loop is the fold of its body over them. -/
theorem forRecords_of_read {count index : Nat} {s : σ} {bytes rest : List UInt8}
    {records : List NodeRecord} (h : readRecords header count index bytes = .ok (records, rest)) :
    forRecords header body count index s bytes =
      foldRecords body index records s >>= fun t => .ok (t, rest) := by
  induction count generalizing index s bytes records with
  | zero =>
    obtain ⟨rfl, rfl⟩ := pure_ok.mp h
    rfl
  | succ count ih =>
    simp only [readRecords, bind_ok, pure_ok] at h
    obtain ⟨record, u, hread, tail, v, htail, rfl, rfl⟩ := h
    rw [forRecords, bind_apply, hread, Fallible.ok_bind, foldRecords]
    cases hbody : body index record s with
    | error e => rfl
    | ok s' => exact ih htail

/-- Loop rule: the body keeps `P` and fails only on account of the artifact. -/
theorem forRecords_reads {P : σ → Prop} {count index : Nat}
    (hbody : ∀ i record s, i < index + count → record.Valid header.inputBufferLen i → P s →
      Checked (body i record s) P) {s : σ} (hs : P s) :
    Reads (forRecords header body count index s) P := by
  induction count generalizing index s with
  | zero => exact .pure hs
  | succ count ih =>
    unfold forRecords
    refine (readNodeRecord_reads _ _ _).bind fun record hvalid => ?_
    refine (Meets.lift (hbody index record s (by omega) hvalid hs)).bind fun s' hs' => ?_
    exact ih (fun i record s hi => hbody i record s (by omega)) hs'

theorem readRecords_length {count index : Nat} {bytes rest : List UInt8}
    {records : List NodeRecord} (h : readRecords header count index bytes = .ok (records, rest)) :
    records.length = count := by
  induction count generalizing index bytes records with
  | zero =>
    simp only [readRecords, pure_ok] at h
    simp [← h.1]
  | succ count ih =>
    simp only [readRecords, bind_ok, pure_ok] at h
    obtain ⟨record, u, -, tail, v, htail, rfl, rfl⟩ := h
    rw [List.length_cons, ih htail]

/-- Every record reads only earlier nodes and buffered inputs. -/
def Grounded (inputBufferLen : Nat) : Nat → List NodeRecord → Prop
  | _, [] => True
  | index, record :: records =>
    record.Valid inputBufferLen index ∧ Grounded inputBufferLen (index + 1) records

theorem readRecords_reads (count index : Nat) :
    Reads (readRecords header count index)
      fun records => Grounded header.inputBufferLen index records := by
  induction count generalizing index with
  | zero => exact .pure trivial
  | succ count ih =>
    unfold readRecords
    refine (readNodeRecord_reads _ _ _).bind fun record hvalid => ?_
    exact (ih (index + 1)).bind fun records h => .pure ⟨hvalid, h⟩

end Loops

end Curvy.Witness
