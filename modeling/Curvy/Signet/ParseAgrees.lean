import Curvy.Signet.TranscodeCorrect

/-!
# Transcoding preserves the parsed graph

What the evaluator parses is a spelling of an artifact, and it parses the other spelling
to the same graph.
-/

namespace Curvy.Signet

set_option autoImplicit false

open Decoder
open Witness (FormatVersion Header Limits WitnessGraph NodeRecord InputMapping)
open Witness.Reader

/-! ### The header -/

theorem readVersion_ok {signetV2 : Bool} {number : Nat} {version : FormatVersion} :
    Witness.readVersion signetV2 number = .ok version ↔
      number = version.number ∧ (version = .v2 → signetV2 = true) := by
  unfold Witness.readVersion
  constructor
  · intro h
    split at h
    · cases h
      exact ⟨by assumption, fun h => by cases h⟩
    split at h
    · rename_i hv2
      cases h
      exact ⟨hv2.2, fun _ => hv2.1⟩
    · cases h
  · rintro ⟨rfl, hv2⟩
    cases version with
    | v1 => rfl
    | v2 =>
      rw [hv2 rfl]
      rfl

theorem checkedCount_ok {what : String} {actual maximum n : Nat} :
    Witness.checkedCount what actual maximum = .ok n ↔ actual ≤ maximum ∧ n = actual := by
  simp only [Witness.checkedCount, Fallible.bind_ok, Witness.refuseIf_ok, Nat.not_lt]
  constructor
  · rintro ⟨_, hle, h⟩
    exact ⟨hle, (Except.ok.inj h).symm⟩
  · rintro ⟨hle, rfl⟩
    exact ⟨(), hle, rfl⟩

/-- The headers the evaluator accepts. -/
structure Accepted (signetV2 : Bool) (limits : Limits) (h : Header) : Prop where
  known : KnownMagic h.magic
  version : h.version = .v2 → signetV2 = true
  digest : h.r1csSha256.length = 32
  nodes : h.nodeCount < 2 ^ 32 ∧ h.nodeCount ≤ limits.nodes
  signals : h.signalCount < 2 ^ 32 ∧ h.signalCount ≤ limits.signals
  mappings : h.inputMappingCount < 2 ^ 32 ∧ h.inputMappingCount ≤ limits.inputMappings
  inputs : h.inputBufferLen < 2 ^ 32 ∧ h.inputBufferLen ≤ limits.inputValues
  nonempty : ¬ (h.nodeCount = 0 ∨ h.signalCount = 0 ∨ h.inputBufferLen = 0)

def headerBytes (h : Header) : List UInt8 :=
  spellHeader h.magic h.version h.r1csSha256 h.nodeCount h.signalCount h.inputMappingCount
    h.inputBufferLen

theorem readHeader_exact (signetV2 : Bool) (limits : Limits) :
    Exact (Witness.readHeader signetV2 limits) (Accepted signetV2 limits) headerBytes := by
  intro bytes h rest
  simp only [Witness.readHeader, (take_exact 8).bind_ok, (take_exact 32).bind_ok, u16_exact.bind_ok,
    u32_exact.bind_ok, lift_bind_ok, Witness.refuseIf_ok, readVersion_ok, checkedCount_ok, pure_ok,
    not_not]
  constructor
  · rintro ⟨magic, _, hmagic, rfl, _, hknown, number, _, _, rfl, version, ⟨rfl, hversion⟩, field, _,
      _, rfl, _, rfl, size, _, _, rfl, _, rfl, sha, _, hsha, rfl, n, _, hn, rfl, _, ⟨hn', rfl⟩, s, _,
      hs, rfl, _, ⟨hs', rfl⟩, m, _, hm, rfl, _, ⟨hm', rfl⟩, b, _, hb, rfl, _, ⟨hb', rfl⟩, _, hne,
      rfl, rfl⟩
    refine ⟨⟨hknown, hversion, hsha, ⟨hn, hn'⟩, ⟨hs, hs'⟩, ⟨hm, hm'⟩, ⟨hb, hb'⟩, hne⟩, ?_⟩
    simp only [headerBytes, spellHeader, List.append_assoc, id]
  · rintro ⟨hacc, rfl⟩
    refine ⟨h.magic, _, hacc.known.length, List.append_assoc _ _ _, (), hacc.known,
      h.version.number, _, number_lt _, List.append_assoc _ _ _, h.version, ⟨rfl, hacc.version⟩,
      Witness.Wire.fieldBn254Fr, _, by decide, List.append_assoc _ _ _, (), rfl,
      Witness.Wire.headerSize, _, by decide, List.append_assoc _ _ _, (), rfl,
      h.r1csSha256, _, hacc.digest, List.append_assoc _ _ _,
      h.nodeCount, _, hacc.nodes.1, List.append_assoc _ _ _, _, ⟨hacc.nodes.2, rfl⟩,
      h.signalCount, _, hacc.signals.1, List.append_assoc _ _ _, _, ⟨hacc.signals.2, rfl⟩,
      h.inputMappingCount, _, hacc.mappings.1, List.append_assoc _ _ _, _, ⟨hacc.mappings.2, rfl⟩,
      h.inputBufferLen, rest, hacc.inputs.1, rfl, _, ⟨hacc.inputs.2, rfl⟩, (), hacc.nonempty,
      rfl, rfl⟩

/-! ### The input table -/

/-- What the table reads to does not depend on the version. -/
theorem readMappingsFrom_retarget (header : Header) (version : FormatVersion) (count index : Nat)
    (hashes : List Nat) : Witness.readMappingsFrom { header with version } count index hashes =
      Witness.readMappingsFrom header count index hashes := by
  induction count generalizing index hashes with
  | zero => rfl
  | succ count ih =>
    rw [Witness.readMappingsFrom, Witness.readMappingsFrom]
    simp only [ih]
    rfl

theorem readInputMappings_retarget (header : Header) (version : FormatVersion) :
    Witness.readInputMappings { header with version } = Witness.readInputMappings header := by
  rw [Witness.readInputMappings, Witness.readInputMappings, readMappingsFrom_retarget]

theorem u64_exact : Exact u64 (fun value => value < 2 ^ 64) (leBytes 8) := leOr_exact _ 8

theorem readMapping_table {header : Header} {index : Nat} {hashes : List Nat} {m : InputMapping}
    {bytes rest : List UInt8} (h : Witness.readMapping header index hashes bytes = .ok (m, rest)) :
    bytes.length = inputMappingBytes + rest.length := by
  rw [Witness.readMapping, u64_exact.bind_ok] at h
  obtain ⟨hash, u, _, rfl, h₁⟩ := h
  obtain ⟨signalId, v, _, rfl, h₂⟩ := u32_exact.bind_ok.mp h₁
  obtain ⟨signalSize, w, _, rfl, h₃⟩ := u32_exact.bind_ok.mp h₂
  obtain ⟨_, _, h₄⟩ := lift_bind_ok.mp h₃
  obtain ⟨_, _, h₅⟩ := lift_bind_ok.mp h₄
  obtain ⟨_, rfl⟩ := pure_ok.mp h₅
  simp only [List.length_append, leBytes_length, inputMappingBytes]
  omega

theorem readMappingsFrom_table {header : Header} {count index : Nat} {hashes : List Nat}
    {mappings : List InputMapping} {bytes rest : List UInt8}
    (h : Witness.readMappingsFrom header count index hashes bytes = .ok (mappings, rest)) :
    bytes.length = count * inputMappingBytes + rest.length := by
  induction count generalizing index hashes mappings bytes with
  | zero =>
    obtain ⟨_, rfl⟩ := pure_ok.mp h
    rw [Nat.zero_mul, Nat.zero_add]
  | succ count ih =>
    rw [Witness.readMappingsFrom] at h
    obtain ⟨mapping, u, hmapping, h₁⟩ := Decoder.bind_ok.mp h
    obtain ⟨mappings', v, hmappings, h₂⟩ := Decoder.bind_ok.mp h₁
    obtain ⟨_, rfl⟩ := pure_ok.mp h₂
    rw [readMapping_table hmapping, ih hmappings, Nat.add_mul, Nat.one_mul]
    omega

theorem readInputMappings_table {header : Header} {mappings : List InputMapping}
    {bytes rest : List UInt8}
    (h : Witness.readInputMappings header bytes = .ok (mappings, rest)) :
    bytes.length = header.inputMappingCount * inputMappingBytes + rest.length := by
  obtain ⟨mappings', u, hmappings, h₁⟩ := Decoder.bind_ok.mp h
  obtain ⟨_, _, h₂⟩ := lift_bind_ok.mp h₁
  obtain ⟨_, rfl⟩ := pure_ok.mp h₂
  exact readMappingsFrom_table hmappings

/-! ### The size check before the body -/

theorem varBytes_pos (value : Nat) : 1 ≤ (varBytes 10 value).length := by
  rw [varBytes]
  split <;> simp

/-- The least length of a record and of an output reference. -/
def leastSizes : FormatVersion → Nat × Nat
  | .v1 => (5, 4)
  | .v2 => (2, 1)

theorem Record.spell_length {inputBufferLen index : Nat} {record : Record}
    (h : record.Canonical inputBufferLen index) (version : FormatVersion) :
    (leastSizes version).1 ≤ (record.spell version index).length := by
  rw [Record.spell, List.length_append, leBytes_length]
  cases record with
  | input i =>
    have := varBytes_pos i
    cases version <;> simp only [leastSizes, Record.payload, leBytes_length] <;> omega
  | constant value =>
    have hlength : value.length = 32 := h
    cases version <;> simp only [leastSizes, Record.payload, hlength] <;> omega
  | operation tag left right =>
    have := varBytes_pos (index - left)
    cases version <;>
      simp only [leastSizes, Record.payload, List.length_append, leBytes_length] <;> omega
  | inverse source =>
    have := varBytes_pos (index - source)
    cases version <;> simp only [leastSizes, Record.payload, leBytes_length] <;> omega

theorem spellRecords_length (version : FormatVersion) {inputBufferLen index : Nat}
    {records : List Record} (h : CanonicalFrom inputBufferLen index records) :
    records.length * (leastSizes version).1 ≤ (spellRecords version index records).length := by
  induction records generalizing index with
  | nil => simp
  | cons record records ih =>
    have hrecord := Record.spell_length h.1 version
    have hrecords := ih h.2
    rw [spellRecords, List.length_append, List.length_cons, Nat.add_mul, Nat.one_mul]
    omega

theorem spellSignals_length (version : FormatVersion) (previous : Nat) (signals : List Nat) :
    signals.length * (leastSizes version).2 ≤ (spellSignals version previous signals).length := by
  induction signals generalizing previous with
  | nil => simp
  | cons signal signals ih =>
    have hsignals := ih signal
    have hsignal : (leastSizes version).2 ≤ (spellSignal previous version signal).length := by
      cases version with
      | v1 => rw [spellSignal, leBytes_length, leastSizes]
      | v2 => exact varBytes_pos _
    rw [spellSignals, List.length_append, List.length_cons, Nat.add_mul, Nat.one_mul]
    omega

theorem checkedUsize_some {value : Nat} (h : value < 2 ^ 64) :
    Witness.checkedUsize value = some value := if_pos h

theorem preflightBodySize_ok {header : Header} {available : Nat} (hnodes : header.nodeCount < 2 ^ 32)
    (hsignals : header.signalCount < 2 ^ 32) (hmappings : header.inputMappingCount < 2 ^ 32)
    (h : header.nodeCount * (leastSizes header.version).1 +
      header.signalCount * (leastSizes header.version).2 +
      header.inputMappingCount * inputMappingBytes ≤ available) :
    Witness.preflightBodySize header available = .ok () := by
  have hminimum : Witness.minimumBodySize header =
      some (header.nodeCount * (leastSizes header.version).1 +
        header.signalCount * (leastSizes header.version).2 +
        header.inputMappingCount * inputMappingBytes) := by
    unfold Witness.minimumBodySize inputMappingBytes
    cases header.version <;>
      simp (disch := omega) only [leastSizes, checkedUsize_some, Option.bind_eq_bind,
        Option.bind_some]
  rw [Witness.preflightBodySize, hminimum]
  exact Witness.refuseIf_ok.mpr (Nat.not_lt.mpr h)

/-! ### Parsing -/

/-- What a parsed graph says about the header, the records and the table it came from; the
version is only in the last line. -/
structure Parsed (limits : Limits) (header : Header) (nodes : List NodeRecord)
    (table : List UInt8) (g : WitnessGraph) : Prop where
  counted : nodes.length = header.nodeCount
  canonical : CanonicalFrom header.inputBufferLen 0 (nodes.map toRecord)
  built : ∃ meter, Witness.foldRecords Witness.parseStep 0 nodes
    ([], Witness.CostMeter.new limits) = .ok (g.nodes, meter)
  signals : Witness.SignalsFit header.nodeCount header.signalCount g.signals
  mapping : Witness.readInputMappings header table = .ok (g.inputMapping, [])
  graph : g = ⟨limits, g.nodes, g.signals, g.inputMapping, header.inputBufferLen,
    header.r1csSha256, header.magic, header.version.number⟩

/-- A file in the version of the header. -/
def spellGraph (header : Header) (nodes : List NodeRecord) (signals : List Nat)
    (table : List UInt8) : List UInt8 :=
  headerBytes header ++ (spellRecords header.version 0 (nodes.map toRecord) ++
    (spellSignals header.version 0 signals ++ table))

section Parse
variable {signetV2 : Bool} {limits : Limits} {header : Header} {nodes : List NodeRecord}
variable {table bytes : List UInt8} {g : WitnessGraph}

theorem Parsed.fits (h : Parsed limits header nodes table g)
    (haccepted : Accepted signetV2 limits header) :
    Witness.preflightBodySize header (spellRecords header.version 0 (nodes.map toRecord) ++
      (spellSignals header.version 0 g.signals ++ table)).length = .ok () := by
  apply preflightBodySize_ok haccepted.nodes.1 haccepted.signals.1 haccepted.mappings.1
  have hrecords := spellRecords_length header.version h.canonical
  have hsignals := spellSignals_length header.version 0 g.signals
  have htable := readInputMappings_table h.mapping
  rw [List.length_map, h.counted] at hrecords
  rw [h.signals.length] at hsignals
  simp only [List.length_append, htable, List.length_nil]
  omega

/-- What the decoders of the parts accept is spelled by them. -/
theorem parsed_of_parts {body u : List UInt8} {built : List Witness.Node} {meter : Witness.CostMeter}
    {signals : List Nat} {mapping : List InputMapping}
    (hheader : Witness.readHeader signetV2 limits bytes = .ok (header, body))
    (hloop : Witness.forRecords header Witness.parseStep header.nodeCount 0
      ([], Witness.CostMeter.new limits) body = .ok ((built, meter), u))
    (hsignals : Witness.readOutputReferences header u = .ok (signals, table))
    (hmapping : Witness.readInputMappings header table = .ok (mapping, [])) :
    ∃ nodes, Accepted signetV2 limits header ∧
      Parsed limits header nodes table ⟨limits, built, signals, mapping, header.inputBufferLen,
        header.r1csSha256, header.magic, header.version.number⟩ ∧
      bytes = headerBytes header ++ body ∧
      body = spellRecords header.version 0 (nodes.map toRecord) ++
        (spellSignals header.version 0 signals ++ table) := by
  obtain ⟨haccepted, rfl⟩ := (readHeader_exact signetV2 limits _ _ _).mp hheader
  have hnodes := haccepted.nodes.1
  obtain ⟨nodes, hread, hfold⟩ := Witness.forRecords_ok.mp hloop
  obtain ⟨⟨hcount, hcanon⟩, rfl⟩ :=
    (readRecords_exact header haccepted.inputs.1.le (by omega) _ _ _).mp hread
  obtain ⟨hfit, rfl⟩ := (readOutputReferences_exact header hnodes.le _ _ _).mp hsignals
  exact ⟨nodes, haccepted, ⟨hcount, hcanon, ⟨meter, hfold⟩, hfit, hmapping, rfl⟩, rfl, rfl⟩

/-- The evaluator parses exactly the files in the spelling of their own version. -/
theorem parseGraph_ok : Witness.parseGraph signetV2 bytes limits = .ok g ↔
    ∃ header nodes table, Accepted signetV2 limits header ∧ Parsed limits header nodes table g ∧
      bytes = spellGraph header nodes g.signals table := by
  constructor
  · intro h
    obtain ⟨⟨header, body⟩, hheader, h₁⟩ := Fallible.bind_ok.mp h
    obtain ⟨_, _, h₂⟩ := Fallible.bind_ok.mp h₁
    obtain ⟨⟨⟨built, meter⟩, u⟩, hloop, h₃⟩ := Fallible.bind_ok.mp h₂
    obtain ⟨⟨signals, table⟩, hsignals, h₄⟩ := Fallible.bind_ok.mp h₃
    obtain ⟨⟨mapping, rest⟩, hmapping, h₅⟩ := Fallible.bind_ok.mp h₄
    obtain ⟨_, hrest, h₆⟩ := Fallible.bind_ok.mp h₅
    obtain rfl := Except.ok.inj h₆
    obtain rfl : rest = [] := not_not.mp (Witness.refuseIf_ok.mp hrest)
    obtain ⟨nodes, haccepted, hparsed, hbytes, hbody⟩ :=
      parsed_of_parts hheader hloop hsignals hmapping
    exact ⟨header, nodes, table, haccepted, hparsed, by rw [hbytes, hbody]; rfl⟩
  · rintro ⟨header, nodes, table, haccepted, hparsed, rfl⟩
    obtain ⟨meter, hfold⟩ := hparsed.built
    have hnodes := haccepted.nodes.1
    have hrecords := (readRecords_exact header haccepted.inputs.1.le
      (show 0 + header.nodeCount ≤ 2 ^ 32 by omega)).reads ⟨hparsed.counted, hparsed.canonical⟩
    refine Fallible.bind_ok.mpr ⟨_, (readHeader_exact signetV2 limits).reads haccepted _, ?_⟩
    refine Fallible.bind_ok.mpr ⟨(), hparsed.fits haccepted, ?_⟩
    refine Fallible.bind_ok.mpr
      ⟨⟨⟨g.nodes, meter⟩, _⟩, Witness.forRecords_ok.mpr ⟨nodes, hrecords _, hfold⟩, ?_⟩
    refine Fallible.bind_ok.mpr
      ⟨_, (readOutputReferences_exact header hnodes.le).reads hparsed.signals _, ?_⟩
    refine Fallible.bind_ok.mpr ⟨_, hparsed.mapping, ?_⟩
    refine Fallible.bind_ok.mpr ⟨(), Witness.refuseIf_ok.mpr (not_not.mpr rfl), ?_⟩
    exact congrArg Except.ok hparsed.graph.symm

/-- The artifact behind a parsed file. -/
def artifactOf (haccepted : Accepted signetV2 limits header)
    (hparsed : Parsed limits header nodes table g) : Artifact where
  magic := header.magic
  r1csSha256 := header.r1csSha256
  inputBufferLen := header.inputBufferLen
  records := nodes.map toRecord
  signals := g.signals
  mappingCount := header.inputMappingCount
  table
  known := haccepted.known
  digest := haccepted.digest
  buffered := haccepted.inputs.1
  counted := by
    rw [List.length_map, hparsed.counted]
    exact haccepted.nodes.1
  canonical := hparsed.canonical
  fit := by
    rw [List.length_map, hparsed.counted, hparsed.signals.length]
    exact hparsed.signals
  wide := by
    rw [hparsed.signals.length]
    exact haccepted.signals.1
  mapped := haccepted.mappings.1
  full := by
    rw [readInputMappings_table hparsed.mapping]
    rfl

theorem artifactOf_spell (haccepted : Accepted signetV2 limits header)
    (hparsed : Parsed limits header nodes table g) (version : FormatVersion) :
    (artifactOf haccepted hparsed).spell version =
      spellGraph { header with version } nodes g.signals table := by
  simp only [Artifact.spell, Artifact.header, Artifact.body, artifactOf, spellGraph, headerBytes,
    List.length_map, hparsed.counted, hparsed.signals.length]

theorem Parsed.retarget (h : Parsed limits header nodes table g) (version : FormatVersion) :
    Parsed limits { header with version } nodes table
      { g with formatVersion := version.number } where
  counted := h.counted
  canonical := h.canonical
  built := h.built
  signals := h.signals
  mapping := by
    rw [readInputMappings_retarget]
    exact h.mapping
  graph := congrArg (fun g => { g with formatVersion := version.number }) h.graph

/-- A graph that parses is transcoded to either version, and parses from there to the same
graph. -/
theorem parse_transcode {artifact : List UInt8}
    (hparse : Witness.parseGraph signetV2 artifact limits = .ok g) (target : FormatVersion) :
    ∃ transcoded, transcode artifact target = .ok transcoded ∧
      ∀ signetV2', (target = .v2 → signetV2' = true) →
        Witness.parseGraph signetV2' transcoded limits =
          .ok { g with formatVersion := target.number } := by
  obtain ⟨header, nodes, table, haccepted, hparsed, rfl⟩ := parseGraph_ok.mp hparse
  refine ⟨_, transcode_ok_iff.mpr
    ⟨artifactOf haccepted hparsed, header.version, (artifactOf_spell _ _ _).symm, rfl⟩, ?_⟩
  intro signetV2' hv2
  exact parseGraph_ok.mpr ⟨{ header with version := target }, nodes, table,
    { haccepted with version := hv2 }, hparsed.retarget target, artifactOf_spell _ _ _⟩

end Parse

/-! ### A small graph -/

def tinyHeader : Header where
  magic := Witness.Wire.magic
  version := .v1
  r1csSha256 := List.replicate 32 0
  nodeCount := 4
  signalCount := 3
  inputMappingCount := 1
  inputBufferLen := 2

def tinyNodes : List NodeRecord :=
  [.constant (leBytes 32 1), .input 1, .operation .mul 0 1, .inverse 2]

def tinyTable : List UInt8 := leBytes 8 7 ++ (leBytes 4 1 ++ leBytes 4 1)

def tinyGraph : WitnessGraph where
  limits := .client
  nodes := [.constant (1 : Nat), .input 1, .operation .mul 0 1, .inverse 2]
  signals := [0, 3, 1]
  inputMapping := [⟨7, 1, 1⟩]
  inputBufferLen := 2
  r1csSha256 := List.replicate 32 0
  magic := Witness.Wire.magic
  formatVersion := 1

theorem constantFromBytes_leBytes {value : Nat} (h : value < Witness.frModulus) (index : Nat) :
    Witness.constantFromBytes (leBytes 32 value) index = .ok (value : Witness.Fr) := by
  have hword : Witness.frModulus < 256 ^ 32 := by decide
  rw [Witness.constantFromBytes, leNat_leBytes (by omega), Witness.Fr.ofBigint, if_pos h]

theorem tiny_accepted : Accepted false .client tinyHeader where
  known := .inr rfl
  version := fun h => by cases h
  digest := rfl
  nodes := by decide
  signals := by decide
  mappings := by decide
  inputs := by decide
  nonempty := by decide

theorem tiny_parsed : Parsed .client tinyHeader tinyNodes tinyTable tinyGraph where
  counted := rfl
  canonical := by
    have hinput : 1 < 2 := by decide
    have htag : operationTag .mul < 23 := operationTag_lt .mul
    exact ⟨leBytes_length 32 1, hinput, ⟨htag, by decide, by decide⟩, (by decide : 2 < 3), trivial⟩
  built := by
    have hone := constantFromBytes_leBytes (show 1 < Witness.frModulus by decide) 0
    refine ⟨⟨259, 32000000⟩, ?_⟩
    simp [Witness.foldRecords, Witness.parseStep, Witness.materialize, Witness.CostMeter.new,
      Witness.CostMeter.chargeRecord, Witness.CostMeter.charge, Witness.CostMeter.recordCost,
      Witness.Operation.cost, Witness.loadCost, Witness.inverseCost, Witness.Limits.client,
      tinyNodes, tinyGraph, hone, pure, Except.pure]
  signals := ⟨rfl, by decide⟩
  mapping := by
    refine Decoder.bind_ok.mpr ⟨tinyGraph.inputMapping, [], by rfl, lift_bind_ok.mpr ⟨(), ?_, rfl⟩⟩
    simp [Witness.checkInputRanges, Witness.scanRanges, tinyGraph]
  graph := rfl

/-- A graph with a constant, an input, an operation and an inverse, and a reference that
goes back. -/
theorem parse_transcode_example : ∃ transcoded,
    transcode (spellGraph tinyHeader tinyNodes tinyGraph.signals tinyTable) .v2 = .ok transcoded ∧
      ∀ signetV2, (FormatVersion.v2 = .v2 → signetV2 = true) →
        Witness.parseGraph signetV2 transcoded .client = .ok { tinyGraph with formatVersion := 2 } :=
  parse_transcode (parseGraph_ok.mpr
    ⟨tinyHeader, tinyNodes, tinyTable, tiny_accepted, tiny_parsed, rfl⟩) .v2

end Curvy.Signet
