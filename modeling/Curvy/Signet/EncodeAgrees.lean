import Curvy.Signet.Encode
import Curvy.Signet.ParseAgrees

/-!
# Both encodings of a graph

A graph whose nodes only name earlier nodes is written as the two spellings of one artifact,
and the evaluator parses either back to the graph.
-/

namespace Curvy.Signet

set_option autoImplicit false

open Decoder
open Witness (FormatVersion Header Limits WitnessGraph NodeRecord)

variable {version : FormatVersion} {index inputBufferLen : Nat} {g : Postcard.Graph}

/-! ### Graphs in order -/

/-- The operands the exporter writes are of earlier nodes. -/
def Postcard.Node.Prior (index : Nat) : Postcard.Node → Prop
  | .input _ => True
  | .constant _ => True
  | .montConstant _ => True
  | .op _ left right => left.toNat < index ∧ right.toNat < index
  | .bbf _ parameters => ∀ source ∈ parameters.head?, source.toNat < index

def PriorFrom : Nat → List Postcard.Node → Prop
  | _, [] => True
  | index, node :: nodes => node.Prior index ∧ PriorFrom (index + 1) nodes

structure Postcard.Graph.Ordered (g : Postcard.Graph) : Prop where
  prior : PriorFrom 0 g.nodes
  outputs : ∀ signal ∈ g.signals, signal.toNat < 2 ^ 32

/-! ### What the evaluator makes of a node -/

def Postcard.Operation.evaluated : Postcard.Operation → Witness.Operation
  | .mul => .mul
  | .mMul => .montgomeryMul
  | .add => .add
  | .sub => .sub
  | .eq => .eq
  | .neq => .neq
  | .lt => .lt
  | .gt => .gt
  | .leq => .leq
  | .geq => .geq
  | .lor => .logicalOr
  | .shl => .shl
  | .shr => .shr
  | .band => .bitAnd
  | .bor => .bitOr
  | .bxor => .bitXor
  | .neg => .neg
  | .inv => .inv
  | .div => .div
  | .mod => .mod
  | .pow => .pow
  | .land => .logicalAnd
  | .iDiv => .integerDiv

def firstParameter (parameters : List UInt64) : Nat := (parameters.head?.map UInt64.toNat).getD 0

/-- The node as the evaluator computes with it. -/
def Postcard.Node.evaluated : Postcard.Node → Witness.Node
  | .input i => .input i.toNat
  | .constant value => .constant (value.toNat : Witness.Fr)
  | .montConstant value => .constant value
  | .op o left right => .operation o.evaluated left.toNat right.toNat
  | .bbf _ parameters => .inverse (firstParameter parameters)

/-- The node as the evaluator's decoder sees it. -/
def Postcard.Node.decoded : Postcard.Node → NodeRecord
  | .input i => .input i.toNat
  | .constant value => .constant (leBytes 32 value.toNat)
  | .montConstant value => .constant (leBytes 32 value.val)
  | .op o left right => .operation o.evaluated left.toNat right.toNat
  | .bbf _ parameters => .inverse (firstParameter parameters)

def Postcard.InputMapping.evaluated (mapping : Postcard.InputMapping) : Witness.InputMapping :=
  ⟨mapping.hash.toNat, mapping.signalId.toNat, mapping.signalSize.toNat⟩

theorem operationTag_evaluated (o : Postcard.Operation) : operationTag o.evaluated = o.tag := by
  cases o <;> decide

theorem checkedU32_ok_iff {value n : Nat} {what : String} :
    checkedU32 value what = .ok n ↔ value < 2 ^ 32 ∧ n = value := by
  unfold checkedU32
  split
  · rename_i hlt
    rw [Except.ok.injEq, and_iff_right hlt, eq_comm]
  · rename_i hlt
    exact ⟨fun h => (by cases h), fun h => absurd h.1 hlt⟩

theorem inverseSource_ok {name : String} {parameters : List UInt64} {source : Nat}
    (h : inverseSource name parameters = .ok source) :
    ∃ first rest, parameters = first :: rest ∧ source = first.toNat := by
  unfold inverseSource at h
  split at h
  · cases h
  · split at h
    · cases h
    · cases h
      exact ⟨_, _, rfl, rfl⟩

theorem record_decoded {node : Postcard.Node} {record : Record} (h : node.record index = .ok record) :
    record = toRecord node.decoded := by
  cases node with
  | input i =>
    obtain ⟨_, hi, h⟩ := Fallible.bind_ok.mp h
    obtain ⟨_, rfl⟩ := checkedU32_ok_iff.mp hi
    exact (Except.ok.inj h).symm
  | constant value =>
    unfold Postcard.Node.record at h
    dsimp only at h
    split at h
    · cases h
    · exact (Except.ok.inj h).symm
  | montConstant value => exact (Except.ok.inj h).symm
  | op o left right =>
    rw [← Except.ok.inj h, Postcard.Node.decoded, toRecord, operationTag_evaluated]
  | bbf name parameters =>
    obtain ⟨source, hsource, h⟩ := Fallible.bind_ok.mp h
    obtain ⟨first, rest, rfl, rfl⟩ := inverseSource_ok hsource
    exact (Except.ok.inj h).symm

theorem record_materialize {node : Postcard.Node} {record : Record}
    (h : node.record index = .ok record) :
    Witness.materialize index node.decoded = .ok node.evaluated := by
  cases node with
  | input i => rfl
  | constant value =>
    unfold Postcard.Node.record at h
    dsimp only at h
    split at h
    · cases h
    rename_i hlt
    rw [Postcard.Node.decoded, Witness.materialize,
      constantFromBytes_leBytes (Nat.not_le.mp hlt) index]
    rfl
  | montConstant value =>
    rw [Postcard.Node.decoded, Witness.materialize,
      constantFromBytes_leBytes (ZMod.val_lt value) index, ZMod.natCast_zmod_val]
    rfl
  | op o left right => rfl
  | bbf name parameters => rfl

theorem record_canonical {node : Postcard.Node} {record : Record} (hprior : node.Prior index)
    (h : node.record index = .ok record) : record.Canonical (2 ^ 32) index := by
  rw [record_decoded h]
  cases node with
  | input i =>
    obtain ⟨_, hi, -⟩ := Fallible.bind_ok.mp h
    exact (checkedU32_ok_iff.mp hi).1
  | constant value => exact leBytes_length _ _
  | montConstant value => exact leBytes_length _ _
  | op o left right => exact ⟨operationTag_lt _, hprior⟩
  | bbf name parameters =>
    obtain ⟨source, hsource, -⟩ := Fallible.bind_ok.mp h
    obtain ⟨first, rest, rfl, rfl⟩ := inverseSource_ok hsource
    exact hprior first rfl

/-! ### The sections of a body -/

/-- The records of the nodes, whichever version spells them. -/
def recordsFrom : Nat → List Postcard.Node → Except SignetError (List Record)
  | _, [] => .ok []
  | index, node :: nodes => do
    let record ← node.record index
    let records ← recordsFrom (index + 1) nodes
    return record :: records

theorem recordsFrom_cons {node : Postcard.Node} {nodes : List Postcard.Node} {records : List Record}
    (h : recordsFrom index (node :: nodes) = .ok records) : ∃ record rest,
      node.record index = .ok record ∧ recordsFrom (index + 1) nodes = .ok rest ∧
        records = record :: rest := by
  obtain ⟨record, hrecord, h⟩ := Fallible.bind_ok.mp h
  obtain ⟨rest, hrest, h⟩ := Fallible.bind_ok.mp h
  exact ⟨record, rest, hrecord, hrest, (Except.ok.inj h).symm⟩

theorem recordsFrom_ok {nodes : List Postcard.Node} {records : List Record}
    (h : recordsFrom index nodes = .ok records) :
    records = (nodes.map Postcard.Node.decoded).map toRecord := by
  induction nodes generalizing index records with
  | nil => exact (Except.ok.inj h).symm
  | cons node nodes ih =>
    obtain ⟨record, rest, hrecord, hrest, rfl⟩ := recordsFrom_cons h
    rw [record_decoded hrecord, ih hrest]
    rfl

theorem recordsFrom_canonical {nodes : List Postcard.Node} {records : List Record}
    (hprior : PriorFrom index nodes) (h : recordsFrom index nodes = .ok records) :
    CanonicalFrom (2 ^ 32) index records := by
  induction nodes generalizing index records with
  | nil =>
    obtain rfl := Except.ok.inj h
    trivial
  | cons node nodes ih =>
    obtain ⟨record, rest, hrecord, hrest, rfl⟩ := recordsFrom_cons h
    exact ⟨record_canonical hprior.1 hrecord, ih hprior.2 hrest⟩

theorem encodeNodes_eq {nodes : List Postcard.Node} {bytes : List UInt8}
    (hprior : PriorFrom index nodes) (hindex : index + nodes.length ≤ 2 ^ 32) :
    encodeNodes version index nodes bytes =
      (recordsFrom index nodes).map fun records => bytes ++ spellRecords version index records := by
  induction nodes generalizing index bytes with
  | nil => exact congrArg Except.ok (List.append_nil _).symm
  | cons node nodes ih =>
    rw [List.length_cons] at hindex
    rw [encodeNodes, recordsFrom]
    cases hrecord : node.record index with
    | error e => rfl
    | ok record =>
      have hpush := pushRecord_eq bytes version (by omega) (record_canonical hprior.1 hrecord)
      rw [Fallible.ok_bind, Fallible.ok_bind, hpush, Fallible.ok_bind, ih hprior.2 (by omega)]
      cases recordsFrom (index + 1) nodes with
      | error e => rfl
      | ok records => exact congrArg Except.ok (List.append_assoc _ _ _)

theorem encodeSignals_eq {writer : SignalWriter} {previous : Nat} {signals : List UInt64}
    {bytes : List UInt8} (hprevious : previous ≤ 2 ^ 32)
    (hwriter : writer.version = .v2 → writer.previous = previous)
    (hsignals : ∀ signal ∈ signals, signal.toNat < 2 ^ 32) :
    encodeSignals writer signals bytes =
      .ok (bytes ++ spellSignals writer.version previous (signals.map UInt64.toNat)) := by
  induction signals generalizing writer previous bytes with
  | nil => exact congrArg Except.ok (List.append_nil _).symm
  | cons signal signals ih =>
    obtain ⟨hsignal, hsignals⟩ := List.forall_mem_cons.mp hsignals
    obtain ⟨writer', hpush, hversion, hlast⟩ := push_eq writer bytes hprevious hsignal hwriter
    rw [encodeSignals, hpush, Fallible.ok_bind]
    dsimp only
    rw [ih hsignal.le hlast hsignals, hversion, List.append_assoc]
    rfl

/-- Hash, identifier and size of each mapping. -/
def spellTable : List Postcard.InputMapping → List UInt8
  | [] => []
  | mapping :: mappings =>
    leBytes 8 mapping.hash.toNat ++ (leBytes 4 mapping.signalId.toNat ++
      (leBytes 4 mapping.signalSize.toNat ++ spellTable mappings))

theorem encodeMappings_eq (mappings : List Postcard.InputMapping) (bytes : List UInt8) :
    encodeMappings mappings bytes = (encodeMappings mappings []).map fun table => bytes ++ table := by
  induction mappings generalizing bytes with
  | nil => exact congrArg Except.ok (List.append_nil _).symm
  | cons mapping mappings ih =>
    rw [encodeMappings, encodeMappings]
    cases checkedU32 mapping.signalId.toNat "input signal id" with
    | error e => rfl
    | ok id =>
      cases checkedU32 mapping.signalSize.toNat "input signal size" with
      | error e => rfl
      | ok size =>
        simp only [Fallible.ok_bind, List.nil_append]
        rw [ih, ih (pushU32 _ size)]
        cases encodeMappings mappings [] with
        | error e => rfl
        | ok table =>
          simp only [Except.map, pushU32, List.append_assoc]

theorem encodeMappings_ok {mappings : List Postcard.InputMapping} {table : List UInt8}
    (h : encodeMappings mappings [] = .ok table) : table = spellTable mappings ∧
      ∀ m ∈ mappings, m.signalId.toNat < 2 ^ 32 ∧ m.signalSize.toNat < 2 ^ 32 := by
  induction mappings generalizing table with
  | nil => exact ⟨(Except.ok.inj h).symm, by simp⟩
  | cons mapping mappings ih =>
    obtain ⟨id, hid, h⟩ := Fallible.bind_ok.mp h
    obtain ⟨size, hsize, h⟩ := Fallible.bind_ok.mp h
    obtain ⟨hidlt, rfl⟩ := checkedU32_ok_iff.mp hid
    obtain ⟨hsizelt, rfl⟩ := checkedU32_ok_iff.mp hsize
    rw [encodeMappings_eq] at h
    cases hrest : encodeMappings mappings [] with
    | error e =>
      rw [hrest] at h
      cases h
    | ok rest =>
      rw [hrest] at h
      obtain ⟨rfl, hall⟩ := ih hrest
      refine ⟨?_, List.forall_mem_cons.mpr ⟨⟨hidlt, hsizelt⟩, hall⟩⟩
      rw [← Except.ok.inj h, spellTable]
      simp only [pushU32, List.nil_append, List.append_assoc]

/-! ### The header -/

/-- The four counts of the header fit their words. -/
structure Counted (g : Postcard.Graph) : Prop where
  nodes : g.nodes.length < 2 ^ 32
  signals : g.signals.length < 2 ^ 32
  mappings : g.namedMappings.length < 2 ^ 32
  buffer : g.inputBufferLen < 2 ^ 32

def headerOf (g : Postcard.Graph) (r1csSha256 : List UInt8) (envelope : Envelope)
    (version : FormatVersion) : Header where
  magic := envelope.magic
  version
  r1csSha256
  nodeCount := g.nodes.length
  signalCount := g.signals.length
  inputMappingCount := g.namedMappings.length
  inputBufferLen := g.inputBufferLen

/-- What both bodies carry behind their headers. -/
def carried (g : Postcard.Graph) : Except SignetError (List Record × List UInt8) := do
  let _ ← checkedU32 g.nodes.length "nodes"
  let _ ← checkedU32 g.signals.length "signals"
  let _ ← checkedU32 g.namedMappings.length "input mappings"
  let _ ← checkedU32 g.inputBufferLen "input buffer"
  let records ← recordsFrom 0 g.nodes
  let table ← encodeMappings g.namedMappings []
  return (records, table)

/-- An encoding is the spelling, in its version, of what does not depend on it. -/
theorem encode_eq (h : g.Ordered) (r1csSha256 : List UInt8) (envelope : Envelope)
    (version : FormatVersion) : encode g r1csSha256 envelope version = (carried g).map fun c =>
      headerBytes (headerOf g r1csSha256 envelope version) ++ (spellRecords version 0 c.1 ++
        (spellSignals version 0 (g.signals.map UInt64.toNat) ++ c.2)) := by
  unfold encode carried
  dsimp only
  cases hnodes : checkedU32 g.nodes.length "nodes" with
  | error e => rfl
  | ok n =>
  cases hsignals : checkedU32 g.signals.length "signals" with
  | error e => rfl
  | ok s =>
  cases hmappings : checkedU32 g.namedMappings.length "input mappings" with
  | error e => rfl
  | ok m =>
  cases hbuffer : checkedU32 g.inputBufferLen "input buffer" with
  | error e => rfl
  | ok b =>
  obtain ⟨hn, rfl⟩ := checkedU32_ok_iff.mp hnodes
  obtain ⟨_, rfl⟩ := checkedU32_ok_iff.mp hsignals
  obtain ⟨_, rfl⟩ := checkedU32_ok_iff.mp hmappings
  obtain ⟨_, rfl⟩ := checkedU32_ok_iff.mp hbuffer
  simp only [Fallible.ok_bind]
  rw [encodeNodes_eq h.prior (by omega)]
  cases recordsFrom 0 g.nodes with
  | error e => rfl
  | ok records =>
    have hwriter : (SignalWriter.new version).version = .v2 →
        (SignalWriter.new version).previous = (0 : Nat) := fun _ => rfl
    simp only [Except.map, Fallible.ok_bind]
    rw [encodeSignals_eq (Nat.zero_le _) hwriter h.outputs, Fallible.ok_bind, encodeMappings_eq]
    cases encodeMappings g.namedMappings [] with
    | error e => rfl
    | ok table =>
      refine congrArg Except.ok ?_
      simp only [pushU32, headerBytes, headerOf, spellHeader, SignalWriter.new, List.append_assoc]

theorem carried_ok {c : List Record × List UInt8} (h : carried g = .ok c) :
    Counted g ∧ recordsFrom 0 g.nodes = .ok c.1 ∧ encodeMappings g.namedMappings [] = .ok c.2 := by
  obtain ⟨_, hnodes, h⟩ := Fallible.bind_ok.mp h
  obtain ⟨_, hsignals, h⟩ := Fallible.bind_ok.mp h
  obtain ⟨_, hmappings, h⟩ := Fallible.bind_ok.mp h
  obtain ⟨_, hbuffer, h⟩ := Fallible.bind_ok.mp h
  obtain ⟨records, hrecords, h⟩ := Fallible.bind_ok.mp h
  obtain ⟨table, htable, h⟩ := Fallible.bind_ok.mp h
  obtain rfl := Except.ok.inj h
  exact ⟨⟨(checkedU32_ok_iff.mp hnodes).1, (checkedU32_ok_iff.mp hsignals).1,
    (checkedU32_ok_iff.mp hmappings).1, (checkedU32_ok_iff.mp hbuffer).1⟩, hrecords, htable⟩

/-! ### The input buffer -/

/-- Every named range and every input node is inside the buffer. -/
structure Buffered (g : Postcard.Graph) : Prop where
  ranges : ∀ m ∈ g.namedMappings, m.signalId.toNat + m.signalSize.toNat ≤ g.inputBufferLen
  inputs : ∀ i, Postcard.Node.input i ∈ g.nodes → i.toNat < g.inputBufferLen

theorem saturatingAdd_lt {left right bound : Nat} (hbound : bound < 2 ^ 32)
    (h : Postcard.saturatingAdd left right ≤ bound) : left + right ≤ bound := by
  unfold Postcard.saturatingAdd at h
  omega

/-- A length that fits its word was not cut off by saturation, so it covers what it was
computed from. -/
theorem buffered_of_lt (h : g.inputBufferLen < 2 ^ 32) : Buffered g := by
  have hcovers : ∀ covered ∈ (g.namedMappings.map fun mapping =>
      Postcard.saturatingAdd mapping.signalId.toNat mapping.signalSize.toNat) ++
        g.nodes.filterMap Postcard.Node.readEnd, covered ≤ g.inputBufferLen := by
    intro covered hmem
    exact Nat.le_trans (List.le_max?_getD_of_mem hmem) (Nat.le_max_left _ _)
  constructor
  · intro m hm
    apply saturatingAdd_lt h
    apply hcovers
    exact List.mem_append_left _ (List.mem_map.mpr ⟨m, hm, rfl⟩)
  · intro i hi
    rw [Nat.lt_iff_add_one_le]
    apply saturatingAdd_lt h
    apply hcovers
    exact List.mem_append_right _ (List.mem_filterMap.mpr ⟨_, hi, rfl⟩)

/-- Encoding in either version checks the length first. -/
theorem encode_buffered {r1csSha256 bytes : List UInt8} {envelope : Envelope}
    (h : encode g r1csSha256 envelope version = .ok bytes) : Buffered g := by
  obtain ⟨_, _, h⟩ := Fallible.bind_ok.mp h
  obtain ⟨_, _, h⟩ := Fallible.bind_ok.mp h
  obtain ⟨_, _, h⟩ := Fallible.bind_ok.mp h
  obtain ⟨_, hbuffer, _⟩ := Fallible.bind_ok.mp h
  exact buffered_of_lt (checkedU32_ok_iff.mp hbuffer).1

/-! ### What the evaluator accepts -/

/-- The graph is within the evaluator's limits and passes its checks of outputs and inputs. -/
structure Admits (limits : Limits) (g : Postcard.Graph) : Prop where
  nodes : 0 < g.nodes.length ∧ g.nodes.length ≤ limits.nodes
  signals : 0 < g.signals.length ∧ g.signals.length ≤ limits.signals
  mappings : g.namedMappings.length ≤ limits.inputMappings
  inputs : g.inputBufferLen ≤ limits.inputValues
  cost : (g.nodes.map fun node => Witness.CostMeter.recordCost node.decoded).sum ≤
    limits.evaluationCost
  outputs : ∀ signal ∈ g.signals, signal.toNat < g.nodes.length
  hashes : (g.namedMappings.map Postcard.InputMapping.hash).Nodup
  named : ∀ m ∈ g.namedMappings, m.signalId ≠ 0 ∧ m.signalSize ≠ 0
  ranges : Witness.checkInputRanges
    (g.namedMappings.map fun m => (m.signalId.toNat, m.signalSize.toNat)) = .ok ()

/-- The graph as the evaluator holds it: every node, output and named mapping in its place. -/
def Postcard.Graph.evaluated (g : Postcard.Graph) (limits : Limits) (r1csSha256 : List UInt8)
    (envelope : Envelope) (version : FormatVersion) : WitnessGraph where
  limits
  nodes := g.nodes.map Postcard.Node.evaluated
  signals := g.signals.map UInt64.toNat
  inputMapping := g.namedMappings.map Postcard.InputMapping.evaluated
  inputBufferLen := g.inputBufferLen
  r1csSha256
  magic := envelope.magic
  formatVersion := version.number

theorem Envelope.magic_known (envelope : Envelope) : KnownMagic envelope.magic := by
  cases envelope with
  | cvywit => exact .inl rfl
  | signet => exact .inr rfl

theorem CanonicalFrom.narrow {nodes : List Postcard.Node}
    (h : CanonicalFrom (2 ^ 32) index ((nodes.map Postcard.Node.decoded).map toRecord))
    (hinputs : ∀ i, Postcard.Node.input i ∈ nodes → i.toNat < inputBufferLen) :
    CanonicalFrom inputBufferLen index ((nodes.map Postcard.Node.decoded).map toRecord) := by
  induction nodes generalizing index with
  | nil => trivial
  | cons node nodes ih =>
    refine ⟨?_, ih h.2 fun i hi => hinputs i (List.mem_cons_of_mem _ hi)⟩
    have hnode := h.1
    cases node with
    | input i => exact hinputs i List.mem_cons_self
    | constant value => exact hnode
    | montConstant value => exact hnode
    | op o left right => exact hnode
    | bbf name parameters => exact hnode

/-- The parser's loop over the records of a graph, which the cost meter lets through. -/
theorem foldRecords_parseStep {nodes : List Postcard.Node} {records : List Record}
    {built : List Witness.Node} {meter : Witness.CostMeter}
    (h : recordsFrom index nodes = .ok records)
    (hcost : meter.spent + (nodes.map fun node => Witness.CostMeter.recordCost node.decoded).sum ≤
      meter.maximum) :
    ∃ meter', Witness.foldRecords Witness.parseStep index (nodes.map Postcard.Node.decoded)
      (built, meter) = .ok (built ++ nodes.map Postcard.Node.evaluated, meter') := by
  induction nodes generalizing index records built meter with
  | nil => exact ⟨meter, congrArg (fun l => Except.ok (l, meter)) (List.append_nil _).symm⟩
  | cons node nodes ih =>
    obtain ⟨record, rest, hrecord, hrest, rfl⟩ := recordsFrom_cons h
    rw [List.map_cons, List.sum_cons] at hcost
    have hcharge : meter.chargeRecord node.decoded = .ok { meter with
        spent := min (meter.spent + Witness.CostMeter.recordCost node.decoded) (2 ^ 64 - 1) } := by
      rw [Witness.CostMeter.chargeRecord, Witness.CostMeter.charge]
      exact if_neg (by omega)
    have hstep : Witness.parseStep index node.decoded (built, meter) =
        .ok (built ++ [node.evaluated], { meter with
          spent := min (meter.spent + Witness.CostMeter.recordCost node.decoded) (2 ^ 64 - 1) }) := by
      rw [Witness.parseStep, hcharge, Fallible.ok_bind, record_materialize hrecord]
      rfl
    have hrestcost : min (meter.spent + Witness.CostMeter.recordCost node.decoded) (2 ^ 64 - 1) +
        (nodes.map fun node => Witness.CostMeter.recordCost node.decoded).sum ≤ meter.maximum := by
      omega
    obtain ⟨meter', hfold⟩ := @ih _ _ (built ++ [node.evaluated]) { meter with
      spent := min (meter.spent + Witness.CostMeter.recordCost node.decoded) (2 ^ 64 - 1) } hrest
      hrestcost
    refine ⟨meter', ?_⟩
    rw [List.map_cons, Witness.foldRecords, hstep, Fallible.ok_bind, hfold, List.append_assoc]
    rfl

theorem readMappingsFrom_spells {header : Header} {mappings : List Postcard.InputMapping}
    {hashes : List Nat} {rest : List UInt8}
    (hwords : ∀ m ∈ mappings, m.signalId.toNat < 2 ^ 32 ∧ m.signalSize.toNat < 2 ^ 32)
    (hnamed : ∀ m ∈ mappings, m.signalId ≠ 0 ∧ m.signalSize ≠ 0)
    (hranges : ∀ m ∈ mappings, m.signalId.toNat + m.signalSize.toNat ≤ header.inputBufferLen)
    (hfresh : ∀ m ∈ mappings, m.hash.toNat ∉ hashes)
    (hnodup : (mappings.map Postcard.InputMapping.hash).Nodup) :
    Witness.readMappingsFrom header mappings.length index hashes (spellTable mappings ++ rest) =
      .ok (mappings.map Postcard.InputMapping.evaluated, rest) := by
  induction mappings generalizing index hashes with
  | nil => rfl
  | cons m mappings ih =>
    obtain ⟨⟨hid, hsize⟩, hwords⟩ := List.forall_mem_cons.mp hwords
    obtain ⟨⟨hid0, hsize0⟩, hnamed⟩ := List.forall_mem_cons.mp hnamed
    obtain ⟨hrange, hranges⟩ := List.forall_mem_cons.mp hranges
    obtain ⟨hhash, hfresh⟩ := List.forall_mem_cons.mp hfresh
    obtain ⟨hown, hnodup⟩ := List.nodup_cons.mp hnodup
    have hread : Witness.readMapping header index hashes (spellTable (m :: mappings) ++ rest) =
        .ok (m.evaluated, spellTable mappings ++ rest) := by
      simp only [spellTable, List.append_assoc]
      rw [Witness.readMapping, u64_exact.bind_reads m.hash.toNat_lt,
        Witness.Reader.u32_exact.bind_reads hid, Witness.Reader.u32_exact.bind_reads hsize]
      refine lift_bind_ok.mpr ⟨(), Witness.refuseIf_ok.mpr hhash, ?_⟩
      refine lift_bind_ok.mpr ⟨(), Witness.refuseIf_ok.mpr ?_, rfl⟩
      have hid0' : m.signalId.toNat ≠ 0 := fun h => hid0 (UInt64.toNat_inj.mp h)
      have hsize0' : m.signalSize.toNat ≠ 0 := fun h => hsize0 (UInt64.toNat_inj.mp h)
      omega
    have hothers : ∀ m' ∈ mappings, m'.hash.toNat ∉ m.evaluated.hash :: hashes := by
      intro m' hm' hmem
      rcases List.mem_cons.mp hmem with hsame | hold
      · apply hown
        rw [← UInt64.toNat_inj.mp hsame]
        exact List.mem_map_of_mem hm'
      · exact hfresh m' hm' hold
    rw [List.length_cons, Witness.readMappingsFrom, Decoder.bind_apply, hread, Fallible.ok_bind,
      Decoder.bind_apply, ih hwords hnamed hranges hothers hnodup, Fallible.ok_bind]
    rfl

/-! ### Both encodings -/

section Encodings

variable {limits : Limits} {r1csSha256 : List UInt8} {envelope : Envelope}
variable {c : List Record × List UInt8}

theorem headerOf_accepted {signetV2 : Bool} (hsha : r1csSha256.length = 32) (hcounted : Counted g)
    (hadmits : Admits limits g) (hversion : version = .v2 → signetV2 = true) :
    Accepted signetV2 limits (headerOf g r1csSha256 envelope version) where
  known := envelope.magic_known
  version := hversion
  digest := hsha
  nodes := ⟨hcounted.nodes, hadmits.nodes.2⟩
  signals := ⟨hcounted.signals, hadmits.signals.2⟩
  mappings := ⟨hcounted.mappings, hadmits.mappings⟩
  inputs := ⟨hcounted.buffer, hadmits.inputs⟩
  nonempty := by
    have hnodes := hadmits.nodes.1
    have hsignals := hadmits.signals.1
    have hbuffer : 1 ≤ g.inputBufferLen := Nat.le_max_right _ _
    dsimp only [headerOf]
    omega

theorem encoded_parsed (hordered : g.Ordered) (hcarried : carried g = .ok c)
    (hadmits : Admits limits g) :
    Parsed limits (headerOf g r1csSha256 envelope version) (g.nodes.map Postcard.Node.decoded) c.2
      (g.evaluated limits r1csSha256 envelope version) := by
  obtain ⟨hcounted, hrecords, htable⟩ := carried_ok hcarried
  obtain ⟨hspelled, hwords⟩ := encodeMappings_ok htable
  have hbuffered := buffered_of_lt hcounted.buffer
  have hcanonical := recordsFrom_canonical hordered.prior hrecords
  rw [recordsFrom_ok hrecords] at hcanonical
  constructor
  case counted => exact List.length_map _
  case canonical => exact hcanonical.narrow hbuffered.inputs
  case built =>
    have hcost := hadmits.cost
    apply foldRecords_parseStep hrecords
    simpa [Witness.CostMeter.new] using hcost
  case signals =>
    refine ⟨List.length_map _, ?_⟩
    intro signal hsignal
    obtain ⟨s, hs, rfl⟩ := List.mem_map.mp hsignal
    exact hadmits.outputs s hs
  case mapping =>
    have hread : Witness.readMappingsFrom (headerOf g r1csSha256 envelope version)
        g.namedMappings.length 0 [] (spellTable g.namedMappings ++ []) =
          .ok (g.namedMappings.map Postcard.InputMapping.evaluated, []) :=
      readMappingsFrom_spells hwords hadmits.named hbuffered.ranges (by simp) hadmits.hashes
    rw [List.append_nil] at hread
    refine Decoder.bind_ok.mpr ⟨_, [], hspelled ▸ hread, lift_bind_ok.mpr ⟨(), ?_, rfl⟩⟩
    have hpairs : (g.namedMappings.map Postcard.InputMapping.evaluated).map
        (fun m => (m.signalId, m.signalSize)) =
          g.namedMappings.map fun m => (m.signalId.toNat, m.signalSize.toNat) := List.map_map
    exact hpairs ▸ hadmits.ranges
  case graph => rfl

theorem encode_spells (hordered : g.Ordered) (hcarried : carried g = .ok c)
    {bytes : List UInt8} (h : encode g r1csSha256 envelope version = .ok bytes) :
    bytes = spellGraph (headerOf g r1csSha256 envelope version)
      (g.nodes.map Postcard.Node.decoded) (g.signals.map UInt64.toNat) c.2 := by
  rw [encode_eq hordered, hcarried] at h
  have hbytes := Except.ok.inj h
  dsimp only at hbytes
  rw [← hbytes, recordsFrom_ok (carried_ok hcarried).2.1]
  rfl

/-- A graph whose nodes name earlier nodes is encoded in both versions or in neither, with one
error. Each encoding transcodes to the other and parses to the graph itself, less the
placeholders of its input table. -/
theorem encode_versions_agree (hordered : g.Ordered) (hsha : r1csSha256.length = 32)
    (envelope : Envelope) (limits : Limits) :
    (∀ e, encode g r1csSha256 envelope .v1 = .error e ↔
      encode g r1csSha256 envelope .v2 = .error e) ∧
    ∀ v1 v2, encode g r1csSha256 envelope .v1 = .ok v1 → encode g r1csSha256 envelope .v2 = .ok v2 →
      Buffered g ∧ (Admits limits g →
        transcode v1 .v2 = .ok v2 ∧ transcode v2 .v1 = .ok v1 ∧
        (∀ signetV2, Witness.parseGraph signetV2 v1 limits =
          .ok (g.evaluated limits r1csSha256 envelope .v1)) ∧
        Witness.parseGraph true v2 limits = .ok (g.evaluated limits r1csSha256 envelope .v2)) := by
  constructor
  · intro e
    rw [encode_eq hordered, encode_eq hordered]
    cases carried g with
    | error e' => exact Iff.rfl
    | ok c => exact ⟨fun h => (by cases h), fun h => (by cases h)⟩
  · intro v1 v2 h1 h2
    refine ⟨encode_buffered h1, fun hadmits => ?_⟩
    cases hcarried : carried g with
    | error e =>
      rw [encode_eq hordered, hcarried] at h1
      cases h1
    | ok c =>
    have hcounted := (carried_ok hcarried).1
    obtain rfl := encode_spells hordered hcarried h1
    obtain rfl := encode_spells hordered hcarried h2
    have hparsed : ∀ version, Parsed limits (headerOf g r1csSha256 envelope version)
        (g.nodes.map Postcard.Node.decoded) c.2
        (g.evaluated limits r1csSha256 envelope version) :=
      fun version => encoded_parsed hordered hcarried hadmits
    have haccepted : Accepted false limits (headerOf g r1csSha256 envelope .v1) :=
      headerOf_accepted hsha hcounted hadmits fun h => (by cases h)
    have hspell := artifactOf_spell haccepted (hparsed .v1)
    refine ⟨?_, ?_, ?_, ?_⟩
    · exact transcode_ok_iff.mpr ⟨_, .v1, (hspell .v1).symm, (hspell .v2).symm⟩
    · exact transcode_ok_iff.mpr ⟨_, .v2, (hspell .v2).symm, (hspell .v1).symm⟩
    · intro signetV2
      exact parseGraph_ok.mpr ⟨_, _, _, headerOf_accepted hsha hcounted hadmits
        fun h => (by cases h), hparsed .v1, rfl⟩
    · exact parseGraph_ok.mpr ⟨_, _, _, headerOf_accepted hsha hcounted hadmits
        fun _ => rfl, hparsed .v2, rfl⟩

end Encodings

/-! ### Two graphs -/

/-- Version 1 writes the reference of a node to itself, version 2 has no distance for it. -/
def selfGraph : Postcard.Graph := ⟨[.op .mul 0 0], [], []⟩

theorem encode_versions_differ :
    (∃ bytes, encode selfGraph (List.replicate 32 0) .signet .v1 = .ok bytes) ∧
      encode selfGraph (List.replicate 32 0) .signet .v2 =
        .error (.notAPriorNode "left reference" 0) :=
  ⟨⟨_, rfl⟩, rfl⟩

def sampleGraph : Postcard.Graph where
  nodes := [.constant 1, .input 1, .op .mul 0 1, .bbf "bbf_inv_3" [2]]
  signals := [0, 3, 1]
  inputMapping := [⟨0, 0, 0⟩, ⟨7, 1, 1⟩]

theorem sample_outputs {signal : UInt64} (h : signal ∈ sampleGraph.signals) :
    signal.toNat < 4 := by
  have hcases : signal = 0 ∨ signal = 3 ∨ signal = 1 := by simpa [sampleGraph] using h
  rcases hcases with rfl | rfl | rfl <;> decide

theorem sample_ordered : sampleGraph.Ordered where
  prior := by
    have hop : (0 : UInt64).toNat < 2 ∧ (1 : UInt64).toNat < 2 := by decide
    refine ⟨trivial, trivial, hop, ?_, trivial⟩
    intro source hsource
    obtain rfl := Option.mem_some_iff.mp hsource
    decide
  outputs := by
    intro signal hsignal
    have hsmall := sample_outputs hsignal
    omega

theorem sample_admits : Admits .client sampleGraph where
  nodes := by decide
  signals := by decide
  mappings := by decide
  inputs := by decide
  cost := by decide
  outputs := fun _ hsignal => sample_outputs hsignal
  hashes := by decide
  named := by decide
  ranges := by
    have hnamed : sampleGraph.namedMappings = [⟨7, 1, 1⟩] := rfl
    rw [hnamed]
    simp [Witness.checkInputRanges, Witness.scanRanges]

theorem sample_encodes (version : FormatVersion) :
    ∃ bytes, encode sampleGraph (List.replicate 32 0) .signet version = .ok bytes := by
  have hcarried : ∃ c, carried sampleGraph = .ok c := ⟨_, rfl⟩
  obtain ⟨c, hcarried⟩ := hcarried
  rw [encode_eq sample_ordered, hcarried]
  exact ⟨_, rfl⟩

/-- A constant, an input, an operation and an inverse, a mapping and a placeholder. -/
theorem encode_versions_agree_example : ∃ v1 v2,
    encode sampleGraph (List.replicate 32 0) .signet .v1 = .ok v1 ∧
    encode sampleGraph (List.replicate 32 0) .signet .v2 = .ok v2 ∧
    transcode v1 .v2 = .ok v2 ∧ transcode v2 .v1 = .ok v1 ∧
    (∀ signetV2, Witness.parseGraph signetV2 v1 .client =
      .ok (sampleGraph.evaluated .client (List.replicate 32 0) .signet .v1)) ∧
    Witness.parseGraph true v2 .client =
      .ok (sampleGraph.evaluated .client (List.replicate 32 0) .signet .v2) := by
  obtain ⟨v1, h1⟩ := sample_encodes .v1
  obtain ⟨v2, h2⟩ := sample_encodes .v2
  have hsha : (List.replicate 32 (0 : UInt8)).length = 32 := List.length_replicate
  have hagree := encode_versions_agree sample_ordered hsha .signet .client
  exact ⟨v1, v2, h1, h2, (hagree.2 v1 v2 h1 h2).2 sample_admits⟩

end Curvy.Signet
