import Curvy.Signet.ParseAgrees
import Curvy.Witness.SageCorrect
import Curvy.Witness.SageProgramExact

/-!
# Compiled graphs have programs

What the compiler builds passes every check of the program decoder, so a compiled graph
within the size limit is restored from its program.
-/

namespace Curvy.Witness

set_option autoImplicit false

open Decoder SlotAlloc Sage

/-! ### Instructions -/

section Compiled

variable {n inputLen index : Nat} {lastUse : List Nat} {s s₁ t : Slots} {node : Node}
  {nodes : List Node} {instruction : Instruction} {instructions : List Instruction}
  {header : ProgramHeader}

theorem loads_cost {live : Set Nat} {constants : List Fr}
    (h : Loads inputLen live s constants instruction node) :
    Kind.cost instruction.kind = node.cost := by
  cases node <;> rw [h.1] <;> rfl

/-- The header's counts are those of the whole compilation, which this step is part of. -/
structure Covers (header : ProgramHeader) (inputLen : Nat) (s : Slots) : Prop where
  inputs : header.inputBufferLen = inputLen
  constants : s.constants.length ≤ header.constantCount
  slots : s.slotOwner.length ≤ header.slots

/-- A compiled instruction passes the checks of its round. -/
theorem Sage.Step.admits (step : Step n inputLen lastUse index s s₁ node instruction)
    (hready : Ready n lastUse index s) (hfits : header.Fits) (hcovers : Covers header inputLen s₁)
    {meter meter' : CostMeter} (hcharge : meter.charge node.cost = .ok meter')
    {defined : List Bool} (hdefined : ∀ x, x < s.slotOwner.length → defined.getD x false = true) :
    Admits header ⟨index, meter, defined⟩ instruction
      ⟨index + 1, meter', defined.set instruction.destination true⟩ := by
  have hslots := hfits.slots
  have hinputs := hfits.inputs
  have hconstants := hfits.constants
  obtain ⟨hlength, hpool, hminted⟩ := hcovers
  have hgrows := step.minted
  have hdestination := step.destination
  -- a live result sits in a slot that was minted, hence written, before
  have hlive : ∀ j ∈ pending (useOf lastUse) index, s.alloc.slotOf j < s.slotOwner.length :=
    fun j hj => (hready.allocated.owns.owned j hj).1
  have hright : (∀ operation, instruction.kind ≠ .operation operation) → instruction.right = 0 := by
    intro hkind
    rcases step.right with h | ⟨operation, h⟩
    · exact h
    · exact absurd h (hkind operation)
  have hcost : meter.charge (Kind.cost instruction.kind) = .ok meter' := by
    rw [loads_cost step.loads]
    exact hcharge
  have hloads := step.loads
  cases node with
  | input i =>
    obtain ⟨hkind, hleft, hi⟩ := hloads
    have hzero := hright (by simp [hkind])
    exact ⟨by omega, by omega, by omega, by omega,
      by rw [hkind]; exact ⟨by omega, hzero⟩,
      by simp [Instruction.operands, hkind], hcost, rfl⟩
  | constant v =>
    obtain ⟨hkind, hget⟩ := hloads
    obtain ⟨hlt, -⟩ := List.getElem?_eq_some_iff.mp hget
    have hzero := hright (by simp [hkind])
    exact ⟨by omega, by omega, by omega, by omega,
      by rw [hkind]; exact ⟨by omega, hzero⟩,
      by simp [Instruction.operands, hkind], hcost, rfl⟩
  | operation operation left right =>
    obtain ⟨hkind, ⟨hl, hleft⟩, hr, hright'⟩ := hloads
    have hl' := hlive left hl
    have hr' := hlive right hr
    refine ⟨by omega, by omega, by omega, by omega, ?_, ?_, hcost, rfl⟩
    · rw [hkind]
      exact ⟨by omega, by omega⟩
    · intro x hx
      rw [Instruction.operands, hkind] at hx
      rcases List.mem_pair.mp hx with rfl | rfl
      · exact hdefined _ (by omega)
      · exact hdefined _ (by omega)
  | inverse source =>
    obtain ⟨hkind, hs, hleft⟩ := hloads
    have hs' := hlive source hs
    have hzero := hright (by simp [hkind])
    refine ⟨by omega, by omega, by omega, by omega, ?_, ?_, hcost, rfl⟩
    · rw [hkind]
      exact ⟨by omega, hzero⟩
    · intro x hx
      rw [Instruction.operands, hkind] at hx
      rw [List.mem_singleton.mp hx]
      exact hdefined _ (by omega)

theorem Sage.Compiled.ready (h : Compiled n inputLen lastUse index s nodes instructions t)
    (hready : Ready n lastUse index s) : Ready n lastUse (index + nodes.length) t := by
  induction h with
  | nil => exact hready
  | cons step _ ih =>
    rw [List.length_cons, Nat.add_comm _ 1, ← Nat.add_assoc]
    exact ih step.ready

theorem Sage.Compiled.length_eq (h : Compiled n inputLen lastUse index s nodes instructions t) :
    instructions.length = nodes.length := by
  induction h with
  | nil => rfl
  | cons _ _ ih => rw [List.length_cons, List.length_cons, ih]

theorem Sage.Compiled.slots_pos (h : Compiled n inputLen lastUse index s nodes instructions t)
    (hne : nodes ≠ []) : 0 < t.slotOwner.length := by
  cases h with
  | nil => exact absurd rfl hne
  | cons step rest =>
    have hgrows := rest.minted_le
    have hdestination := step.destination
    omega

theorem Sage.Compiled.threads (hfits : header.Fits)
    (h : Compiled n inputLen lastUse index s nodes instructions t)
    (hready : Ready n lastUse index s) (hcovers : Covers header inputLen t)
    {records : List NodeRecord} (hnodes : materializeAll index records = .ok nodes)
    {meter meter' : CostMeter} (hcharge : chargeAll records meter = .ok meter')
    {defined : List Bool} (hlength : defined.length = header.slots)
    (hdefined : ∀ x, x < s.slotOwner.length → defined.getD x false = true) :
    ∃ c, Threads (Admits header) ⟨index, meter, defined⟩ instructions c := by
  induction h generalizing records meter defined with
  | nil => exact ⟨_, .nil _⟩
  | @cons index s s₁ t node instruction nodes instructions step rest ih =>
    obtain ⟨hinputs, hpool, hminted⟩ := hcovers
    have hcovers₁ : Covers header inputLen s₁ :=
      ⟨hinputs, rest.constants_prefix.length_le.trans hpool, rest.minted_le.trans hminted⟩
    cases records with
    | nil => cases hnodes
    | cons record records =>
      obtain ⟨node', hnode, hnodes⟩ := Fallible.bind_ok.mp hnodes
      obtain ⟨nodes', htail, heq⟩ := Fallible.bind_ok.mp hnodes
      cases heq
      rw [chargeAll, List.foldlM_cons] at hcharge
      obtain ⟨meter₁, hcost, hcharge⟩ := Fallible.bind_ok.mp hcharge
      have hfirst : meter.charge node.cost = .ok meter₁ := by
        rw [materialize_cost hnode]
        exact hcost
      have hadmits := step.admits hready hfits hcovers₁ hfirst hdefined
      have hdestination : instruction.destination < defined.length := by
        rw [hlength]
        exact hadmits.slot
      have hdefined₁ : ∀ x, x < s₁.slotOwner.length →
          (defined.set instruction.destination true).getD x false = true := by
        intro x hx
        by_cases hsame : x = instruction.destination
        · subst hsame
          simp [hdestination]
        · rw [List.getD_eq_getElem?_getD, List.getElem?_set_ne (Ne.symm hsame),
            ← List.getD_eq_getElem?_getD]
          exact hdefined x ((step.fresh x hx).resolve_right hsame)
      obtain ⟨c, htail⟩ := ih step.ready ⟨hinputs, hpool, hminted⟩ htail hcharge
        (List.length_set.trans hlength) hdefined₁
      exact ⟨c, .cons hadmits htail⟩

end Compiled

/-! ### Outputs -/

theorem outputWrites_signals {signals : List Nat} {start : Nat} {outputs : List OutputWrite}
    (h : outputWrites signals start = .ok outputs) :
    outputs.map OutputWrite.signal = List.range' start signals.length := by
  induction signals generalizing start outputs with
  | nil =>
    cases h
    rfl
  | cons node signals ih =>
    obtain ⟨node', -, h⟩ := Fallible.bind_ok.mp h
    obtain ⟨signal, hsignal, h⟩ := Fallible.bind_ok.mp h
    obtain ⟨tail, htail, heq⟩ := Fallible.bind_ok.mp h
    cases heq
    have hsame : signal = start := by
      unfold indexU32 at hsignal
      split at hsignal
      · exact (Except.ok.inj hsignal).symm
      · cases hsignal
    rw [List.map_cons, ih htail, List.length_cons, List.range'_succ, hsame]

theorem sorted_outputBefore (outputs : List OutputWrite) :
    (outputs.mergeSort outputBefore).Pairwise fun a b => outputBefore a b = true :=
  List.pairwise_mergeSort outputBefore_trans outputBefore_total outputs

/-! ### Mappings -/

theorem readMappingsFrom_threads {header : Header} (programHeader : ProgramHeader)
    (hinputs : programHeader.inputBufferLen = header.inputBufferLen) {count index : Nat}
    {hashes : List Nat} {mappings : List InputMapping} {bytes rest : List UInt8}
    (h : readMappingsFrom header count index hashes bytes = .ok (mappings, rest)) :
    mappings.length = count ∧
      ∃ s, Threads (AdmitsMapping programHeader) ⟨index, hashes⟩ mappings s := by
  induction count generalizing index hashes mappings bytes with
  | zero =>
    obtain ⟨rfl, -⟩ := pure_ok.mp h
    exact ⟨rfl, _, .nil _⟩
  | succ count ih =>
    rw [readMappingsFrom] at h
    obtain ⟨mapping, u, hmapping, h⟩ := Decoder.bind_ok.mp h
    obtain ⟨tail, v, htail, h⟩ := Decoder.bind_ok.mp h
    obtain ⟨rfl, rfl⟩ := pure_ok.mp h
    rw [readMapping] at hmapping
    obtain ⟨hash, _, hhash, hmapping⟩ := Decoder.bind_ok.mp hmapping
    obtain ⟨signalId, _, hid, hmapping⟩ := Decoder.bind_ok.mp hmapping
    obtain ⟨signalSize, _, hsize, hmapping⟩ := Decoder.bind_ok.mp hmapping
    obtain ⟨_, hfresh, hmapping⟩ := lift_bind_ok.mp hmapping
    obtain ⟨_, hrange, hmapping⟩ := lift_bind_ok.mp hmapping
    obtain ⟨rfl, -⟩ := pure_ok.mp hmapping
    rw [refuseIf_ok] at hfresh hrange
    obtain ⟨hlength, s, hthreads⟩ := ih htail
    have hadmits : AdmitsMapping programHeader ⟨index, hashes⟩ ⟨hash, signalId, signalSize⟩
        ⟨index + 1, hash :: hashes⟩ := by
      refine ⟨Reader.u64_reads.of_ok hhash, Reader.u32_reads.of_ok hid, Reader.u32_reads.of_ok hsize,
        hfresh, fun hzero => hrange (.inl hzero), fun hzero => hrange (.inr (.inl hzero)), ?_, rfl⟩
      rw [hinputs]
      exact Nat.not_lt.mp fun hlarge => hrange (.inr (.inr hlarge))
    exact ⟨congrArg (· + 1) hlength, s, .cons hadmits hthreads⟩

theorem readInputMappings_ok {header : Header} {mappings : List InputMapping}
    {bytes rest : List UInt8} (h : readInputMappings header bytes = .ok (mappings, rest)) :
    readMappingsFrom header header.inputMappingCount 0 [] bytes = .ok (mappings, rest) ∧
      checkInputRanges (mappings.map fun m => (m.signalId, m.signalSize)) = .ok () := by
  obtain ⟨mappings', u, hmappings, h₁⟩ := Decoder.bind_ok.mp h
  obtain ⟨_, hranges, h₂⟩ := lift_bind_ok.mp h₁
  obtain ⟨rfl, rfl⟩ := pure_ok.mp h₂
  exact ⟨hmappings, hranges⟩

/-! ### Compiled graphs -/

theorem hexBytes_length {digits bytes : List UInt8} (h : hexBytes digits = .ok bytes) :
    bytes.length = digits.length / 2 := by
  induction digits using hexBytes.induct generalizing bytes with
  | case1 high low rest _ _ hlow hhigh ih =>
    rw [hexBytes, hlow, hhigh] at h
    obtain ⟨tail, htail, heq⟩ := Fallible.bind_ok.mp h
    cases heq
    rw [List.length_cons, ih htail, List.length_cons, List.length_cons]
    omega
  | case2 high low rest hnone =>
    rw [hexBytes] at h
    split at h
    · rename_i high' low' hhigh hlow
      exact (hnone high' low' hhigh hlow).elim
    · cases h
  | case3 digits hshort =>
    cases digits with
    | nil =>
      cases h
      rfl
    | cons high digits =>
      cases digits with
      | nil =>
        cases h
        simp
      | cons low rest => exact (hshort high low rest rfl).elim

theorem decodeSha256_length {value : String} {bytes : List UInt8}
    (h : decodeSha256 value = .ok bytes) : bytes.length = 32 := by
  obtain ⟨_, hvalid, hbytes⟩ := Fallible.bind_ok.mp h
  rw [refuseIf_ok, not_or, Decidable.not_not] at hvalid
  rw [hexBytes_length hbytes, hvalid.1]

section Programs

variable {signetV2 : Bool} {bytes source : List UInt8} {limits : Limits} {a : Artifact}
  {nodes : List Node} {g : SageGraph}

theorem Sage.CompiledFrom.instructions_length (hg : CompiledFrom limits source a nodes g) :
    g.instructions.length = nodes.length := by
  obtain ⟨_, _, _, _, -, hcompiled, -, -⟩ := hg.passes
  exact hcompiled.length_eq

/-- The outputs of a compiled graph are the signals, each once. -/
theorem Sage.CompiledFrom.output_signals (hg : CompiledFrom limits source a nodes g) :
    (g.outputs.map OutputWrite.signal).Perm (List.range a.signals.length) := by
  obtain ⟨outputs, hwrites, hsorted⟩ := hg.outputs
  rw [hsorted, List.range_eq_range', ← outputWrites_signals hwrites]
  exact (List.mergeSort_perm outputs outputBefore).map _

theorem Sage.CompiledFrom.outputs_length (hg : CompiledFrom limits source a nodes g) :
    g.outputs.length = a.signals.length := by
  have hlength := hg.output_signals.length_eq
  rwa [List.length_map, List.length_range] at hlength

theorem Sage.CompiledFrom.pool (hg : CompiledFrom limits source a nodes g) :
    g.constants.length ≤ g.instructions.length ∧ g.slots ≤ g.instructions.length := by
  obtain ⟨_, _, t, hready, -, hcompiled, hconstants, hslots⟩ := hg.passes
  have hlast := hcompiled.ready hready
  rw [Nat.zero_add] at hlast
  rw [hg.instructions_length, ← hconstants, ← hslots]
  exact ⟨hlast.constants, hlast.allocated.minted⟩

theorem Decodes.accepted (h : Decodes signetV2 bytes limits a) :
    Signet.Accepted signetV2 limits a.header :=
  ((Signet.readHeader_exact signetV2 limits _ _ _).mp h.header).1

theorem Decodes.mapping_table (h : Decodes signetV2 bytes limits a) :
    a.inputMapping.length = a.header.inputMappingCount :=
  (readMappingsFrom_threads ⟨[], [], 0, 0, 0, 0, a.header.inputBufferLen, 0, 0⟩ rfl
    (readInputMappings_ok h.mapping).1).1

theorem compiled_fits (h : Decodes signetV2 bytes limits a)
    (hnodes : materializeAll 0 a.records = .ok nodes) (hg : CompiledFrom limits source a nodes g)
    (hsource : source.length = 32) : g.programHeader.Fits := by
  have haccepted := h.accepted
  have hcount : g.instructions.length = a.header.nodeCount := by
    rw [hg.instructions_length, materializeAll_length hnodes, h.sound.length]
  have hsignals := h.sound.signals.length
  obtain ⟨hconstants, hslots⟩ := hg.pool
  have hnodeCount := haccepted.nodes.1
  have hsignalCount := haccepted.signals.1
  exact {
    source := by
      change g.sourceGraphSha256.length = 32
      rw [hg.source, hsource]
    r1cs := by
      change g.r1csSha256.length = 32
      rw [hg.r1csSha256, haccepted.digest]
    instructions := by
      change g.instructions.length < 2 ^ 32
      omega
    constants := by
      change g.constants.length < 2 ^ 32
      omega
    outputs := by
      change g.outputs.length < 2 ^ 32
      rw [hg.outputs_length, hsignals]
      exact hsignalCount
    mappings := by
      change g.inputMapping.length < 2 ^ 32
      rw [hg.inputMapping, h.mapping_table]
      exact haccepted.mappings.1
    inputs := by
      change g.inputBufferLen < 2 ^ 32
      rw [hg.inputBufferLen]
      exact haccepted.inputs.1
    signals := by
      change g.signalCount < 2 ^ 32
      rw [hg.signalCount, hsignals]
      exact hsignalCount
    slots := by
      change g.slots < 2 ^ 32
      omega }

theorem compiled_dimensions (h : Decodes signetV2 bytes limits a)
    (hnodes : materializeAll 0 a.records = .ok nodes) (hg : CompiledFrom limits source a nodes g) :
    g.programHeader.Dimensions g.limits := by
  have haccepted := h.accepted
  have hcount : nodes.length = a.header.nodeCount := by
    rw [materializeAll_length hnodes, h.sound.length]
  obtain ⟨hne, hsignals_ne, hinputs_ne⟩ := by
    have hempty := haccepted.nonempty
    rwa [not_or, not_or] at hempty
  have hinstructions := hg.instructions_length
  have hlimit := haccepted.nodes.2
  have houtputs := hg.outputs_length
  have hsignals := h.sound.signals.length
  have hsignalCount := hg.signalCount
  have hslots_pos : 0 < g.slots := by
    obtain ⟨_, _, t, -, -, hcompiled, -, hslots⟩ := hg.passes
    rw [← hslots]
    exact hcompiled.slots_pos fun hnil => hne (by rw [← hcount, hnil]; rfl)
  obtain ⟨hconstants, hslots⟩ := hg.pool
  rw [hg.limits]
  unfold SageGraph.programHeader
  refine ⟨by dsimp only; omega, by dsimp only; omega, ?_, ?_, ?_, ?_, by dsimp only; omega, ?_, ?_,
    Nat.ne_of_gt hslots_pos, hslots, hconstants, houtputs.trans hsignalCount.symm⟩
  · rw [houtputs, hsignals]
    exact haccepted.signals.2
  · rw [hg.inputMapping, h.mapping_table]
    exact haccepted.mappings.2
  · rw [hg.inputBufferLen]
    exact haccepted.inputs.2
  · rw [hsignalCount, hsignals]
    exact haccepted.signals.2
  · rw [hg.inputBufferLen]
    exact hinputs_ne
  · rw [hsignalCount, hsignals]
    exact hsignals_ne

theorem compiled_mappings (h : Decodes signetV2 bytes limits a)
    (hg : CompiledFrom limits source a nodes g) :
    ∃ s, Threads (AdmitsMapping g.programHeader) ⟨0, []⟩ g.inputMapping s := by
  rw [hg.inputMapping]
  exact (readMappingsFrom_threads _ hg.inputBufferLen (readInputMappings_ok h.mapping).1).2

/-- A compiled graph passes all checks of the decoder but perhaps the size limit. -/
theorem compiled_wellFormed (h : Decodes signetV2 bytes limits a)
    (hnodes : materializeAll 0 a.records = .ok nodes) (hg : CompiledFrom limits source a nodes g)
    (hsource : source.length = 32) (hsize : g.programBytes ≤ limits.sageProgramBytes) :
    g.WellFormed := by
  have hfits := compiled_fits h hnodes hg hsource
  have hdimensions := compiled_dimensions h hnodes hg
  have hcount : nodes.length = a.header.nodeCount := by
    rw [materializeAll_length hnodes, h.sound.length]
  refine ⟨hfits, hdimensions, SageGraph.programBytes_lt hfits, hg.limits ▸ hsize, ?_, ?_,
    compiled_mappings h hg, ?_⟩
  · obtain ⟨lastUse, s, t, hready, -, hcompiled, hconstants, hslots⟩ := hg.passes
    obtain ⟨meter, hcharge⟩ := h.charged
    have hcovers : Covers g.programHeader a.header.inputBufferLen t :=
      ⟨hg.inputBufferLen, Nat.le_of_eq (congrArg List.length hconstants), Nat.le_of_eq hslots⟩
    have hminted : s.slotOwner.length = 0 := Nat.le_zero.mp hready.allocated.minted
    rw [hg.limits]
    exact hcompiled.threads hfits hready hcovers hnodes hcharge List.length_replicate
      fun x hx => by omega
  · have hsignals := hg.output_signals
    have hlength : a.signals.length = g.signalCount := hg.signalCount.symm
    rw [hlength] at hsignals
    obtain ⟨outputs, hwrites, hsorted⟩ := hg.outputs
    have hbounds : ∀ o ∈ g.outputs,
        o.node < g.programHeader.instructionCount ∧ o.signal < g.programHeader.signalCount := by
      intro o ho
      have hnode := (hg.outputs_mem o).mp ho
      refine ⟨?_, List.mem_range.mp (hsignals.mem_iff.mp (List.mem_map_of_mem ho))⟩
      change o.node < g.instructions.length
      rw [hg.instructions_length, hcount]
      exact h.sound.signals.bounded _ (List.mem_of_getElem? hnode)
    obtain ⟨s, hthreads⟩ := outputs_admitted hfits (List.replicate g.signalCount false) none
      (by rw [hsorted]; exact sorted_outputBefore outputs) (fun p hp => by cases hp)
      (hsignals.nodup_iff.mpr List.nodup_range) hbounds (fun o _ => by simp)
    obtain ⟨hseenLength, hseen⟩ := outputs_seen hthreads List.length_replicate
    refine ⟨s, hthreads, fun b hb => ?_⟩
    obtain ⟨k, hk, rfl⟩ := List.getElem_of_mem hb
    have hmem : k ∈ g.outputs.map OutputWrite.signal := by
      rw [hsignals.mem_iff, List.mem_range]
      exact Nat.lt_of_lt_of_eq hk hseenLength
    have hmarked := (hseen k).mpr (.inr hmem)
    rwa [List.getD_eq_getElem _ _ hk] at hmarked
  · rw [hg.inputMapping]
    exact (readInputMappings_ok h.mapping).2

end Programs

/-! ### The codec -/

theorem spellHeader_inj {header header' : ProgramHeader} (h : header.Fits) (h' : header'.Fits)
    {expected : String} (hexpected : decodeSha256 expected = .ok header.sourceGraphSha256)
    (heq : spellHeader header = spellHeader header') : header = header' := by
  have hsource : header.sourceGraphSha256 = header'.sourceGraphSha256 := by
    unfold spellHeader at heq
    have hdigests := (List.append_inj' heq (by simp)).1
    have hfirst := (List.append_inj' hdigests (by rw [h.r1cs, h'.r1cs])).1
    exact (List.append_inj' hfirst (by rw [h.source, h'.source])).2
  have hread := ((decodeHeader_exact expected) (spellHeader header) header []).mpr
    ⟨⟨h, hexpected⟩, (List.append_nil _).symm⟩
  have hread' := ((decodeHeader_exact expected) (spellHeader header) header' []).mpr
    ⟨⟨h', hsource ▸ hexpected⟩, by rw [heq, List.append_nil]⟩
  exact (Prod.mk.inj (Except.ok.inj (hread.symm.trans hread'))).1

/-- The header of a program tells where it ends. -/
theorem SageGraph.WellFormed.no_trailing {g g' : SageGraph} (h : g.WellFormed)
    (h' : g'.WellFormed) {expected : String} (hexpected : decodeSha256 expected = .ok g.sourceGraphSha256)
    {extra : List UInt8} (heq : g.spell ++ extra = g'.spell) : extra = [] := by
  have hheader : spellHeader g.programHeader = spellHeader g'.programHeader := by
    have hparts := heq
    simp only [SageGraph.spell, List.append_assoc] at hparts
    exact (List.append_inj hparts (by rw [spellHeader_length h.fits, spellHeader_length h'.fits])).1
  have hsame := spellHeader_inj h.fits h'.fits hexpected hheader
  have hinstructions : g.instructions.length = g'.instructions.length :=
    congrArg ProgramHeader.instructionCount hsame
  have hconstants : g.constants.length = g'.constants.length :=
    congrArg ProgramHeader.constantCount hsame
  have houtputs : g.outputs.length = g'.outputs.length := congrArg ProgramHeader.outputCount hsame
  have hmappings : g.inputMapping.length = g'.inputMapping.length :=
    congrArg ProgramHeader.inputMappingCount hsame
  have hbytes : g.programBytes = g'.programBytes := by
    rw [SageGraph.programBytes, hinstructions, hconstants, houtputs, hmappings,
      SageGraph.programBytes]
  have hlength := congrArg List.length heq
  rw [List.length_append, SageGraph.spell_length h.fits, SageGraph.spell_length h'.fits, hbytes]
    at hlength
  exact List.eq_nil_of_length_eq_zero (by omega)

/-- Compiled graphs within the size limit are restored from their programs, and an accepted
program is the one encoding of a well-formed graph, with nothing behind it. -/
theorem program_codec_exact :
    (∀ signetV2 bytes limits expected source g, decodeSha256 expected = .ok source →
      compile signetV2 bytes limits source = .ok g →
      if g.programBytes ≤ limits.sageProgramBytes then
        ∃ program, encodeProgram g = .ok program ∧
          decodeProgram none expected limits program = .ok g ∧
          decodeProgram (some program.length) expected limits program = .ok g
      else encodeProgram g = .error (.sageProgramTooLarge limits.sageProgramBytes)) ∧
    ∀ declaredSize expected limits program g,
      decodeProgram declaredSize expected limits program = .ok g →
      g.WellFormed ∧ encodeProgram g = .ok program ∧
        ∀ declaredSize' expected' limits' extra g', extra ≠ [] →
          decodeProgram declaredSize' expected' limits' (program ++ extra) ≠ .ok g' := by
  constructor
  · intro signetV2 bytes limits expected source g hexpected hcompile
    obtain ⟨a, nodes, h, hnodes, hg⟩ := (compile_checked signetV2 bytes limits source).1 g hcompile
    have hsource := decodeSha256_length hexpected
    split
    · rename_i hsize
      have hwf := compiled_wellFormed h hnodes hg hsource hsize
      rw [← hg.source] at hexpected
      refine ⟨g.spell, hwf.encode, ?_, ?_⟩
      · exact SageGraph.decodeProgram_ok.mpr
          ⟨hwf, hg.limits, hexpected, fun _ hnone => (by cases hnone), rfl⟩
      · refine SageGraph.decodeProgram_ok.mpr ⟨hwf, hg.limits, hexpected, ?_, rfl⟩
        rintro declared ⟨⟩
        exact SageGraph.spell_length hwf.fits
    · rename_i hlarge
      obtain ⟨s, hthreads⟩ := compiled_mappings h hg
      have hmappings : ∀ m ∈ g.inputMapping, m.signalId < 2 ^ 32 ∧ m.signalSize < 2 ^ 32 := by
        intro m hm
        obtain ⟨s, s', hadmits⟩ := hthreads.of_mem hm
        exact ⟨hadmits.signalId_lt, hadmits.signalSize_lt⟩
      rw [SageGraph.encodeProgram_eq (compiled_fits h hnodes hg hsource) hmappings, hg.limits,
        if_pos (Nat.not_le.mp hlarge)]
  · intro declaredSize expected limits program g hdecode
    obtain ⟨hwf, -, hexpected, -, rfl⟩ := SageGraph.decodeProgram_ok.mp hdecode
    refine ⟨hwf, hwf.encode, fun declaredSize' expected' limits' extra g' hextra hdecode' => ?_⟩
    obtain ⟨hwf', -, -, -, heq⟩ := SageGraph.decodeProgram_ok.mp hdecode'
    exact hextra (hwf.no_trailing hwf' hexpected heq)

theorem program_codec_exact_example : ∃ g program,
    compile false (Signet.spellGraph Signet.tinyHeader Signet.tinyNodes Signet.tinyGraph.signals
      Signet.tinyTable) .client (List.replicate 32 0) = .ok g ∧ encodeProgram g = .ok program ∧
      decodeProgram none "0000000000000000000000000000000000000000000000000000000000000000" .client
        program = .ok g := by
  have hexpected : decodeSha256
      "0000000000000000000000000000000000000000000000000000000000000000" =
      .ok (List.replicate 32 0) := by decide
  have hparsed := Signet.parseGraph_ok.mpr ⟨Signet.tinyHeader, Signet.tinyNodes, Signet.tinyTable,
    Signet.tiny_accepted, Signet.tiny_parsed, rfl⟩
  obtain ⟨a, nodes, h, hnodes, hgraph⟩ := parseGraph_ok.mp hparsed
  obtain ⟨g, hcompile⟩ := compile_succeeds h (List.replicate 32 0) hnodes
  obtain ⟨a', nodes', h', hnodes', hg⟩ := (compile_checked false _ .client _).1 g hcompile
  obtain rfl := h.unique h'
  obtain rfl : nodes = nodes' := Except.ok.inj (hnodes.symm.trans hnodes')
  have hinstructions : g.instructions.length = 4 := by
    rw [hg.instructions_length]
    exact congrArg (fun graph => graph.nodes.length) hgraph.symm
  have houtputs : g.outputs.length = 3 := by
    rw [hg.outputs_length]
    exact congrArg (fun graph => graph.signals.length) hgraph.symm
  have hmappings : g.inputMapping.length = 1 := by
    rw [hg.inputMapping]
    exact congrArg (fun graph => graph.inputMapping.length) hgraph.symm
  obtain ⟨hconstants, -⟩ := hg.pool
  have hsize : g.programBytes ≤ Limits.client.sageProgramBytes := by
    unfold SageGraph.programBytes tableBytes programHeaderBytes programInstructionBytes
      programConstantBytes programOutputBytes programInputMappingBytes
    change _ ≤ 64 * 1024 * 1024
    omega
  have hcodec := program_codec_exact.1 _ _ _ _ _ g hexpected hcompile
  rw [if_pos hsize] at hcodec
  obtain ⟨program, hencode, hdecode, -⟩ := hcodec
  exact ⟨g, program, hcompile, hencode, hdecode⟩

end Curvy.Witness
