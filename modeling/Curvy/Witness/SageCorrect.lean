import Curvy.Witness.SageRefines

/-!
# Compilation refines parsing

The compiler accepts exactly what the parser accepts, and the compiled program computes
what the parsed graph computes.
-/

namespace Curvy.Witness

set_option autoImplicit false

open SlotAlloc Sage

/-! ## Decoded artifacts -/

/-- The parts of a witness graph that both evaluators decode, constants still encoded. -/
structure Artifact where
  header : Header
  records : List NodeRecord
  signals : List Nat
  inputMapping : List InputMapping
  /-- Bytes from the first record on, after the last record and after the outputs. -/
  body : List UInt8
  afterRecords : List UInt8
  afterSignals : List UInt8

/-- The bytes decode to the artifact within the limits. -/
structure Decodes (signetV2 : Bool) (bytes : List UInt8) (limits : Limits) (a : Artifact) :
    Prop where
  header : readHeader signetV2 limits bytes = .ok (a.header, a.body)
  preflight : preflightBodySize a.header a.body.length = .ok ()
  records : readRecords a.header a.header.nodeCount 0 a.body = .ok (a.records, a.afterRecords)
  charged : ∃ meter, chargeAll a.records (CostMeter.new limits) = .ok meter
  signals : readOutputReferences a.header a.afterRecords = .ok (a.signals, a.afterSignals)
  mapping : readInputMappings a.header a.afterSignals = .ok (a.inputMapping, [])

/-- What later stages rely on. -/
structure Artifact.Sound (a : Artifact) : Prop where
  sized : a.header.Sized
  length : a.records.length = a.header.nodeCount
  grounded : Grounded a.header.inputBufferLen 0 a.records
  signals : SignalsFit a.header.nodeCount a.header.signalCount a.signals
  mapping : MappingsFit a.inputMapping a.header.inputBufferLen

section Decoding

variable {signetV2 : Bool} {bytes : List UInt8} {limits : Limits} {a : Artifact}

theorem Decodes.sound (h : Decodes signetV2 bytes limits a) : a.Sound where
  sized := (readHeader_reads signetV2 limits).of_ok h.header
  length := readRecords_length h.records
  grounded := (readRecords_reads a.header.nodeCount 0).of_ok h.records
  signals := (readOutputReferences_reads a.header).of_ok h.signals
  mapping := (readInputMappings_reads a.header).of_ok h.mapping

/-- The bytes determine the artifact. -/
theorem Decodes.unique {b : Artifact} (h : Decodes signetV2 bytes limits a)
    (h' : Decodes signetV2 bytes limits b) : a = b := by
  obtain ⟨header, records, signals, mapping, body, afterRecords, afterSignals⟩ := a
  obtain ⟨header', records', signals', mapping', body', afterRecords', afterSignals'⟩ := b
  obtain ⟨rfl, rfl⟩ := Prod.mk.inj (Except.ok.inj (h.header.symm.trans h'.header))
  obtain ⟨rfl, rfl⟩ := Prod.mk.inj (Except.ok.inj (h.records.symm.trans h'.records))
  obtain ⟨rfl, rfl⟩ := Prod.mk.inj (Except.ok.inj (h.signals.symm.trans h'.signals))
  obtain ⟨rfl, -⟩ := Prod.mk.inj (Except.ok.inj (h.mapping.symm.trans h'.mapping))
  rfl

theorem foldRecords_parse {index : Nat} {records : List NodeRecord} {nodes nodes' : List Node}
    {meter meter' : CostMeter} :
    foldRecords parseStep index records (nodes, meter) = .ok (nodes', meter') ↔
      chargeAll records meter = .ok meter' ∧
        ∃ tail, materializeAll index records = .ok tail ∧ nodes' = nodes ++ tail := by
  induction records generalizing index nodes meter with
  | nil =>
    simp only [foldRecords, chargeAll, List.foldlM_nil, materializeAll, Except.ok.injEq,
      Prod.mk.injEq]
    constructor
    · rintro ⟨rfl, rfl⟩
      exact ⟨rfl, [], rfl, by simp⟩
    · rintro ⟨hmeter, tail, rfl, rfl⟩
      exact ⟨by simp, Except.ok.inj hmeter⟩
  | cons record records ih =>
    simp only [foldRecords, parseStep, materializeAll, chargeAll, List.foldlM_cons,
      Fallible.bind_ok]
    constructor
    · rintro ⟨_, ⟨cost, hcost, node, hnode, hpure⟩, hfold⟩
      cases hpure
      obtain ⟨hcharge, tail, htail, rfl⟩ := ih.mp hfold
      exact ⟨⟨cost, hcost, hcharge⟩, node :: tail, ⟨node, hnode, tail, htail, rfl⟩, by simp⟩
    · rintro ⟨⟨cost, hcost, hcharge⟩, _, ⟨node, hnode, tail, htail, hpure⟩, rfl⟩
      cases hpure
      refine ⟨(nodes ++ [node], cost), ⟨cost, hcost, node, hnode, rfl⟩, ?_⟩
      exact ih.mpr ⟨hcharge, tail, htail, by simp⟩

/-- The graph the parser builds from an artifact. -/
def Artifact.graph (a : Artifact) (limits : Limits) (nodes : List Node) : WitnessGraph where
  limits := limits
  nodes := nodes
  signals := a.signals
  inputMapping := a.inputMapping
  inputBufferLen := a.header.inputBufferLen
  r1csSha256 := a.header.r1csSha256
  magic := a.header.magic
  formatVersion := a.header.version.number

theorem parseGraph_ok {g : WitnessGraph} :
    parseGraph signetV2 bytes limits = .ok g ↔
      ∃ a nodes, Decodes signetV2 bytes limits a ∧ materializeAll 0 a.records = .ok nodes ∧
        g = a.graph limits nodes := by
  unfold parseGraph
  simp only [Fallible.bind_ok, Prod.exists, forRecords_ok, refuseIf_ok, Decidable.not_not]
  constructor
  · rintro ⟨header, body, hheader, _, hpreflight, nodes, meter, rest, ⟨records, hrecords, hfold⟩,
      signals, rest', hsignals, mapping, rest'', hmapping, _, rfl, hg⟩
    obtain ⟨hcharge, tail, htail, hnodes⟩ := foldRecords_parse.mp hfold
    rw [List.nil_append] at hnodes
    subst hnodes
    refine ⟨⟨header, records, signals, mapping, body, rest, rest'⟩, nodes, ?_, htail, ?_⟩
    · exact ⟨hheader, hpreflight, hrecords, ⟨meter, hcharge⟩, hsignals, hmapping⟩
    · exact (Except.ok.inj hg).symm
  · rintro ⟨a, nodes, h, hnodes, rfl⟩
    obtain ⟨meter, hcharge⟩ := h.charged
    refine ⟨a.header, a.body, h.header, (), h.preflight, nodes, meter, a.afterRecords,
      ⟨a.records, h.records, ?_⟩, a.signals, a.afterSignals, h.signals, a.inputMapping, [],
      h.mapping, (), rfl, rfl⟩
    exact foldRecords_parse.mpr ⟨hcharge, nodes, hnodes, by simp⟩

end Decoding

namespace Sage

/-! ## Outputs -/

theorem outputWrites_ok {signals : List Nat} {bound : Nat} (hnodes : ∀ node ∈ signals, node < bound)
    (hbound : bound ≤ 2 ^ 32) (signal : Nat) (hsignal : signal + signals.length < 2 ^ 32) :
    ∃ outputs, outputWrites signals signal = .ok outputs ∧
      ∀ o, o ∈ outputs ↔ ∃ i, o.signal = signal + i ∧ signals[i]? = some o.node := by
  induction signals generalizing signal with
  | nil => exact ⟨[], rfl, by simp⟩
  | cons node signals ih =>
    obtain ⟨hnode, hnodes⟩ := List.forall_mem_cons.mp hnodes
    rw [List.length_cons] at hsignal
    obtain ⟨outputs, houtputs, hmem⟩ := ih hnodes (signal + 1) (by omega)
    refine ⟨⟨node, signal⟩ :: outputs, ?_, ?_⟩
    · unfold outputWrites
      rw [indexU32_lt _ (by omega), Fallible.ok_bind, indexU32_lt _ (by omega), Fallible.ok_bind,
        houtputs]
      rfl
    · intro o
      rw [List.mem_cons, hmem]
      constructor
      · rintro (rfl | ⟨i, hi, ho⟩)
        · exact ⟨0, rfl, rfl⟩
        · exact ⟨i + 1, by omega, ho⟩
      · rintro ⟨i, hi, ho⟩
        cases i with
        | zero =>
          left
          cases o
          simp_all
        | succ i => exact .inr ⟨i, by omega, ho⟩

theorem outputBefore_trans (a b c : OutputWrite) (hab : outputBefore a b = true)
    (hbc : outputBefore b c = true) : outputBefore a c = true := by
  unfold outputBefore at *
  simp only [decide_eq_true_eq] at *
  omega

theorem outputBefore_total (a b : OutputWrite) : (outputBefore a b || outputBefore b a) = true := by
  unfold outputBefore
  simp only [Bool.or_eq_true, decide_eq_true_eq]
  omega

theorem sorted_outputs (outputs : List OutputWrite) :
    (outputs.mergeSort outputBefore).Pairwise fun a b => a.node ≤ b.node := by
  refine (List.pairwise_mergeSort outputBefore_trans outputBefore_total outputs).imp ?_
  intro a b h
  unfold outputBefore at h
  simp only [decide_eq_true_eq] at h
  omega

/-! ## The compiled program -/

/-- The program is what the two passes make of the artifact with those nodes. -/
structure CompiledFrom (limits : Limits) (sourceGraphSha256 : List UInt8) (a : Artifact)
    (nodes : List Node) (p : SageGraph) : Prop where
  passes : ∃ lastUse s t, Ready a.records.length lastUse 0 s ∧ s.instructions = [] ∧
    Compiled a.records.length a.header.inputBufferLen lastUse 0 s nodes p.instructions t ∧
    t.constants = p.constants ∧ t.slotOwner.length = p.slots
  outputs : ∃ outputs, outputWrites a.signals 0 = .ok outputs ∧
    p.outputs = outputs.mergeSort outputBefore
  outputs_sorted : p.outputs.Pairwise fun a b => a.node ≤ b.node
  outputs_mem : ∀ o, o ∈ p.outputs ↔ a.signals[o.signal]? = some o.node
  limits : p.limits = limits
  inputMapping : p.inputMapping = a.inputMapping
  inputBufferLen : p.inputBufferLen = a.header.inputBufferLen
  signalCount : p.signalCount = a.signals.length
  r1csSha256 : p.r1csSha256 = a.header.r1csSha256
  source : p.sourceGraphSha256 = sourceGraphSha256

/-- State of the compiler before its second pass. -/
def Slots.initial (n : Nat) : Slots := ⟨[], [], List.replicate n 0, [], []⟩

theorem Slots.initial_ready (n : Nat) (lastUse : List Nat) :
    Ready n lastUse 0 (Slots.initial n) where
  allocated := {
    owns := {
      owned := fun j hj => absurd hj.1 (Nat.not_lt_zero j)
      released := fun x hx => by cases hx
      nodup := List.nodup_nil
      before := fun x hx => absurd hx (Nat.not_lt_zero x) }
    nodeSlots := by simp [Slots.initial]
    minted := Nat.le_refl 0 }
  constants := Nat.le_refl 0

end Sage

section Compile

variable {signetV2 : Bool} {bytes : List UInt8} {limits : Limits} {a : Artifact}

/-- The liveness table pass one computes for an artifact. -/
def Artifact.lastUse (a : Artifact) : List Nat :=
  markRecords 0 a.records (List.range a.records.length)

theorem Artifact.Sound.liveness (h : a.Sound) : Liveness a.records a.lastUse where
  uses := lastUse_markRecords a.records [] rfl h.grounded (List.length_range) (by
    rw [useOf_range]
    exact LastUse.initial)
  length := by rw [Artifact.lastUse, markRecords_length, List.length_range]
  bits := h.length ▸ h.sized.nodes

theorem markPass (h : Decodes signetV2 bytes limits a) (meter : CostMeter)
    (hcharge : chargeAll a.records (CostMeter.new limits) = .ok meter) :
    forRecords a.header markStep a.header.nodeCount 0
      ((List.range a.header.nodeCount).map asU32, CostMeter.new limits) a.body =
      .ok ((a.lastUse, meter), a.afterRecords) := by
  have hbits := h.sound.sized.nodes
  have hlength := h.sound.length
  rw [forRecords_of_read h.records, range_map_asU32 hbits,
    foldRecords_mark h.sound.grounded (by simp [hlength]) (by simpa using hbits), hcharge, ← hlength]
  rfl

/-- The second pass over an artifact fails exactly where a constant is refused. -/
theorem assignPass (h : Decodes signetV2 bytes limits a) :
    (∀ e, materializeAll 0 a.records = .error e →
      forRecords a.header (assignStep a.lastUse) a.header.nodeCount 0
        (Slots.initial a.header.nodeCount) a.body = .error e) ∧
    ∀ nodes, materializeAll 0 a.records = .ok nodes → ∃ t,
      forRecords a.header (assignStep a.lastUse) a.header.nodeCount 0
        (Slots.initial a.header.nodeCount) a.body = .ok (t, a.afterRecords) ∧
      Compiled a.records.length a.header.inputBufferLen a.lastUse 0
        (Slots.initial a.header.nodeCount) nodes t.instructions t := by
  have hready : Ready a.records.length a.lastUse 0 (Slots.initial a.header.nodeCount) :=
    h.sound.length ▸ Slots.initial_ready _ _
  obtain ⟨herror, hok⟩ := foldRecords_assign h.sound.liveness h.sound.sized.inputs
    a.records [] rfl h.sound.grounded hready
  rw [forRecords_of_read h.records]
  constructor
  · intro e he
    rw [show 0 = ([] : List NodeRecord).length from rfl, herror e he]
    rfl
  · intro nodes hnodes
    obtain ⟨t, instructions, hfold, hcompiled⟩ := hok nodes hnodes
    refine ⟨t, ?_, ?_⟩
    · rw [show 0 = ([] : List NodeRecord).length from rfl, hfold]
      rfl
    · rw [hcompiled.instructions_eq]
      exact hcompiled

/-- The program assembled from the compiler's intermediate results. -/
def Artifact.program (a : Artifact) (limits : Limits) (sourceGraphSha256 : List UInt8)
    (outputs : List OutputWrite) (t : Slots) : SageGraph where
  limits := limits
  instructions := t.instructions
  constants := t.constants
  outputs := outputs.mergeSort outputBefore
  inputMapping := a.inputMapping
  inputBufferLen := a.header.inputBufferLen
  signalCount := a.header.signalCount
  slots := t.slotOwner.length
  r1csSha256 := a.header.r1csSha256
  sourceGraphSha256 := sourceGraphSha256

theorem Artifact.Sound.outputs (h : a.Sound) : ∃ outputs, outputWrites a.signals 0 = .ok outputs ∧
    ∀ o, o ∈ outputs ↔ a.signals[o.signal]? = some o.node := by
  have hsignals := h.sized.signals
  obtain ⟨outputs, houtputs, hmem⟩ := outputWrites_ok h.signals.bounded
    (Nat.le_of_lt h.sized.nodes) 0 (by rw [h.signals.length]; omega)
  refine ⟨outputs, houtputs, fun o => ?_⟩
  rw [hmem]
  constructor
  · rintro ⟨i, hi, ho⟩
    rw [hi, Nat.zero_add]
    exact ho
  · exact fun ho => ⟨o.signal, by omega, ho⟩

theorem Artifact.program_compiled (h : Decodes signetV2 bytes limits a)
    (sourceGraphSha256 : List UInt8) {outputs : List OutputWrite} {t : Slots} {nodes : List Node}
    (hwrites : outputWrites a.signals 0 = .ok outputs)
    (houtputs : ∀ o, o ∈ outputs ↔ a.signals[o.signal]? = some o.node)
    (hcompiled : Compiled a.records.length a.header.inputBufferLen a.lastUse 0
      (Slots.initial a.header.nodeCount) nodes t.instructions t) :
    CompiledFrom limits sourceGraphSha256 a nodes
      (a.program limits sourceGraphSha256 outputs t) where
  passes := ⟨a.lastUse, Slots.initial a.header.nodeCount, t,
    h.sound.length ▸ Slots.initial_ready _ _, rfl, hcompiled, rfl, rfl⟩
  outputs := ⟨outputs, hwrites, rfl⟩
  outputs_sorted := sorted_outputs outputs
  outputs_mem o := List.mem_mergeSort.trans (houtputs o)
  limits := rfl
  inputMapping := rfl
  inputBufferLen := rfl
  signalCount := h.sound.signals.length.symm
  r1csSha256 := rfl
  source := rfl

theorem compile_succeeds (h : Decodes signetV2 bytes limits a) (sourceGraphSha256 : List UInt8)
    {nodes : List Node} (hnodes : materializeAll 0 a.records = .ok nodes) :
    ∃ p, compile signetV2 bytes limits sourceGraphSha256 = .ok p := by
  obtain ⟨meter, hcharge⟩ := h.charged
  obtain ⟨outputs, houtputs, -⟩ := h.sound.outputs
  obtain ⟨t, hassign, -⟩ := (assignPass h).2 nodes hnodes
  refine ⟨a.program limits sourceGraphSha256 outputs t, ?_⟩
  unfold compile
  simp only [h.header, h.preflight, markPass h meter hcharge, h.signals, h.mapping, houtputs,
    Fallible.ok_bind]
  rw [(refuseIf_ok (u := ())).mpr (by simp), Fallible.ok_bind, ← Slots.initial, hassign,
    Fallible.ok_bind]
  dsimp only
  rw [(refuseIf_ok (u := ())).mpr (by simp)]
  rfl

/-- Once everything up to the trailing-byte check has succeeded, the bytes decode. -/
theorem decodes_of_markPass {header : Header} {body rest rest' : List UInt8}
    {lastUse : List Nat} {meter : CostMeter} {signals : List Nat} {mapping : List InputMapping}
    (hsized : header.Sized) (hheader : readHeader signetV2 limits bytes = .ok (header, body))
    (hpreflight : preflightBodySize header body.length = .ok ())
    (hmark : forRecords header markStep header.nodeCount 0
      ((List.range header.nodeCount).map asU32, CostMeter.new limits) body =
        .ok ((lastUse, meter), rest))
    (hsignals : readOutputReferences header rest = .ok (signals, rest'))
    (hmapping : readInputMappings header rest' = .ok (mapping, [])) :
    ∃ a : Artifact, Decodes signetV2 bytes limits a ∧ header = a.header ∧ body = a.body ∧
      rest = a.afterRecords ∧ lastUse = a.lastUse ∧ signals = a.signals ∧
      mapping = a.inputMapping := by
  obtain ⟨records, hrecords, hfold⟩ := forRecords_ok.mp hmark
  have hlength := readRecords_length hrecords
  have hground := (readRecords_reads header.nodeCount 0).of_ok hrecords
  have hbits := hsized.nodes
  rw [range_map_asU32 hbits, foldRecords_mark hground (by simp [hlength]) (by simpa using hbits)]
    at hfold
  obtain ⟨meter', hcharge, hpure⟩ := Fallible.bind_ok.mp hfold
  cases hpure
  refine ⟨⟨header, records, signals, mapping, body, rest, rest'⟩, ?_, rfl, rfl, rfl, ?_, rfl, rfl⟩
  · exact ⟨hheader, hpreflight, hrecords, ⟨meter, hcharge⟩, hsignals, hmapping⟩
  · rw [Artifact.lastUse, hlength]

/-- The compiler returns the artifact's program or blames the artifact. -/
theorem compile_checked (signetV2 : Bool) (bytes : List UInt8) (limits : Limits)
    (sourceGraphSha256 : List UInt8) :
    Checked (compile signetV2 bytes limits sourceGraphSha256) fun p =>
      ∃ a nodes, Decodes signetV2 bytes limits a ∧ materializeAll 0 a.records = .ok nodes ∧
        CompiledFrom limits sourceGraphSha256 a nodes p := by
  unfold compile
  refine (readHeader_reads signetV2 limits bytes).bind_eq fun ⟨header, body⟩ hheader hsized => ?_
  refine (preflightBodySize_checked header body.length).bind_eq fun _ hpreflight _ => ?_
  refine (markPass_reads hsized _ body).bind_eq fun ⟨⟨lastUse, meter⟩, rest⟩ hmark _ => ?_
  refine (readOutputReferences_reads header rest).bind_eq fun ⟨signals, rest'⟩ hsignals _ => ?_
  refine (readInputMappings_reads header rest').bind_eq fun ⟨mapping, rest''⟩ hmapping _ => ?_
  refine (refuseIf_checked (by rfl)).bind_eq fun _ _ hrest => ?_
  rw [Decidable.not_not.mp hrest] at hmapping
  obtain ⟨a, h, rfl, rfl, rfl, rfl, rfl, rfl⟩ :=
    decodes_of_markPass hsized hheader hpreflight hmark hsignals hmapping
  obtain ⟨outputs, houtputs, hmem⟩ := h.sound.outputs
  simp only [houtputs, hheader, Fallible.ok_bind]
  rw [← Slots.initial]
  cases hnodes : materializeAll 0 a.records with
  | error e =>
    rw [(assignPass h).1 e hnodes]
    exact .error ((materializeAll_checked 0 a.records).2 e hnodes)
  | ok nodes =>
    obtain ⟨t, hassign, hcompiled⟩ := (assignPass h).2 nodes hnodes
    rw [hassign, Fallible.ok_bind]
    dsimp only
    rw [(refuseIf_ok (u := ())).mpr (by simp)]
    exact .ok ⟨a, nodes, h, hnodes, a.program_compiled h sourceGraphSha256 houtputs hmem
      hcompiled⟩

/-! ## The two evaluators -/

theorem Sage.CompiledFrom.initial_outputs {limits : Limits} {source : List UInt8}
    {nodes : List Node} {p : SageGraph} (hp : CompiledFrom limits source a nodes p) :
    SageGraph.Outputs a.signals 0 0 [] p.outputs (List.replicate p.signalCount 0) where
  sorted := hp.outputs_sorted
  later o ho := ⟨Nat.zero_le _, (hp.outputs_mem o).mp ho⟩
  size := by rw [List.length_replicate, hp.signalCount]
  covered k node hk := .inl ((hp.outputs_mem ⟨node, k⟩).mpr hk)

/-- A program compiled from an artifact computes what the artifact's graph computes. -/
theorem calculateJson_eq (h : Decodes signetV2 bytes limits a) {source : List UInt8}
    {nodes : List Node} (hnodes : materializeAll 0 a.records = .ok nodes) {p : SageGraph}
    (hp : CompiledFrom limits source a nodes p) (serde : SerdeJson) (json : String) :
    ∃ r, p.calculateJson serde json = some r ∧
      (a.graph limits nodes).calculateJson serde json = some r ∧
      ∀ e, r = .error e → External e := by
  have hlength : nodes.length = a.header.nodeCount := by
    rw [materializeAll_length hnodes, h.sound.length]
  obtain ⟨inputs, hbuffer, hinputs, hexternal⟩ :=
    buildInputBuffer_returns serde h.sound.mapping h.sound.sized.inputs_ne json limits
  unfold SageGraph.calculateJson WitnessGraph.calculateJson
  rw [hp.inputMapping, hp.inputBufferLen, hp.limits]
  change ∃ r, Outcome.chain (buildInputBuffer serde a.inputMapping a.header.inputBufferLen json
    limits) _ = some r ∧ Outcome.chain (buildInputBuffer serde a.inputMapping
    a.header.inputBufferLen json limits) _ = some r ∧ _
  rw [hbuffer]
  cases inputs with
  | error e => exact ⟨.error e, rfl, rfl, hexternal⟩
  | ok inputs =>
    obtain ⟨lastUse, s, t, hready, -, hcompiled, hconstants, hslots⟩ := hp.passes
    have hstart : SageGraph.Simulates a.signals p.slots lastUse 0 s []
        ⟨List.replicate p.slots 0, List.replicate p.signalCount 0, p.outputs⟩ :=
      ⟨rfl, by simp, fun j hj => absurd hj.1 (Nat.not_lt_zero j), hp.initial_outputs⟩
    have hagree := SageGraph.executeAll_agrees (hinputs inputs rfl) hcompiled hready hconstants
      hslots hstart
    simp only [Outcome.chain_ok]
    change ∃ r, some (SageGraph.executeAll p.constants inputs p.instructions 0
      ⟨List.replicate p.slots 0, List.replicate p.signalCount 0, p.outputs⟩ >>= SageGraph.finish) =
        some r ∧ Outcome.chain (WitnessGraph.evaluateNodes inputs nodes 0 []) _ = some r ∧ _
    generalize SageGraph.executeAll p.constants inputs p.instructions 0 _ = executed at hagree ⊢
    generalize WitnessGraph.evaluateNodes inputs nodes 0 [] = evaluated at hagree ⊢
    cases hagree with
    | error he =>
      exact ⟨_, rfl, rfl, fun e' he' => Except.error.inj he' ▸ he⟩
    | @ok values run hsim =>
      rw [Nat.zero_add, hlength] at hsim
      obtain ⟨hpending, hassignment⟩ := hsim.outputs.complete h.sound.signals.bounded
      refine ⟨SageGraph.finish run, rfl, ?_, ?_⟩
      · rw [Outcome.chain_ok, Artifact.graph, hassignment, SageGraph.finish, if_neg (by simp [hpending])]
        exact (apply_ite some _ _ _).symm
      · intro e he
        unfold SageGraph.finish at he
        rw [if_neg (by simp [hpending])] at he
        split at he
        · cases he
          rfl
        · cases he

/-- Compilation succeeds exactly when parsing does, and then both evaluators return the
same assignment or the same error on every input. No error is one of the compiler's. -/
theorem compile_refines_parseGraph (signetV2 : Bool) (bytes : List UInt8) (limits : Limits)
    (sourceGraphSha256 : List UInt8) :
    ((∃ p, compile signetV2 bytes limits sourceGraphSha256 = .ok p) ↔
      ∃ g, parseGraph signetV2 bytes limits = .ok g) ∧
    (∀ e, compile signetV2 bytes limits sourceGraphSha256 = .error e → e.internal = false) ∧
    ∀ p g, compile signetV2 bytes limits sourceGraphSha256 = .ok p →
      parseGraph signetV2 bytes limits = .ok g → ∀ (serde : SerdeJson) (json : String),
      ∃ r, p.calculateJson serde json = some r ∧ g.calculateJson serde json = some r ∧
        ∀ e, r = .error e → e.internal = false := by
  have hchecked := compile_checked signetV2 bytes limits sourceGraphSha256
  refine ⟨⟨?_, ?_⟩, hchecked.2, ?_⟩
  · rintro ⟨p, hp⟩
    obtain ⟨a, nodes, h, hnodes, -⟩ := hchecked.1 p hp
    exact ⟨_, parseGraph_ok.mpr ⟨a, nodes, h, hnodes, rfl⟩⟩
  · rintro ⟨g, hg⟩
    obtain ⟨a, nodes, h, hnodes, -⟩ := parseGraph_ok.mp hg
    exact compile_succeeds h sourceGraphSha256 hnodes
  · intro p g hp hg serde json
    obtain ⟨a, nodes, h, hnodes, hcompiled⟩ := hchecked.1 p hp
    obtain ⟨a', nodes', h', hnodes', rfl⟩ := parseGraph_ok.mp hg
    obtain rfl := h.unique h'
    rw [hnodes, Except.ok.injEq] at hnodes'
    subst hnodes'
    exact calculateJson_eq h hnodes hcompiled serde json

end Compile

end Curvy.Witness
