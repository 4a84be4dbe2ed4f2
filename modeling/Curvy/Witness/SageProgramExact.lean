import Curvy.Witness.Decoding
import Curvy.Witness.SageProgram

/-!
# The program codec is exact

A graph has a program exactly when it is well formed, and then one spelling. The decoder
accepts that spelling and nothing else.
-/

namespace Curvy.Witness

set_option autoImplicit false

open Decoder

namespace Sage

/-! ### The reader -/

namespace ProgramReader

theorem array_exact (length : Nat) :
    Exact (array length) (fun bytes => bytes.length = length) id := takeOr_exact _ length

theorem u8_exact : Exact u8 (fun value => value < 2 ^ 8) (leBytes 1) := leOr_exact _ 1
theorem u16_exact : Exact u16 (fun value => value < 2 ^ 16) (leBytes 2) := leOr_exact _ 2
theorem u32_exact : Exact u32 (fun value => value < 2 ^ 32) (leBytes 4) := leOr_exact _ 4
theorem u64_exact : Exact u64 (fun value => value < 2 ^ 64) (leBytes 8) := leOr_exact _ 8

end ProgramReader

open ProgramReader

/-! ### The header -/

def spellHeader (header : ProgramHeader) : List UInt8 :=
  programMagic ++ leBytes 4 programVersion ++ leBytes 4 programHeaderBytes ++
    header.sourceGraphSha256 ++ header.r1csSha256 ++
    [header.instructionCount, header.constantCount, header.outputCount, header.inputMappingCount,
      header.inputBufferLen, header.signalCount, header.slots].flatMap (leBytes 4)

/-- The fields of a header have their widths. -/
structure ProgramHeader.Fits (header : ProgramHeader) : Prop where
  source : header.sourceGraphSha256.length = 32
  r1cs : header.r1csSha256.length = 32
  instructions : header.instructionCount < 2 ^ 32
  constants : header.constantCount < 2 ^ 32
  outputs : header.outputCount < 2 ^ 32
  mappings : header.inputMappingCount < 2 ^ 32
  inputs : header.inputBufferLen < 2 ^ 32
  signals : header.signalCount < 2 ^ 32
  slots : header.slots < 2 ^ 32

theorem spellHeader_length {header : ProgramHeader} (h : header.Fits) :
    (spellHeader header).length = programHeaderBytes := by
  simp [spellHeader, h.source, h.r1cs, programMagic, programHeaderBytes]

theorem decodePreamble_exact : Exact decodePreamble (fun _ => True) fun _ =>
    programMagic ++ leBytes 4 programVersion ++ leBytes 4 programHeaderBytes := by
  intro bytes u rest
  simp only [decodePreamble, (array_exact 8).bind_ok, u32_exact.bind_ok, lift_bind_ok, lift_ok,
    refuseIf_ok, Decidable.not_not, id]
  constructor
  · rintro ⟨_, _, _, rfl, _, rfl, _, _, _, rfl, _, rfl, _, _, _, rfl, rfl, rfl⟩
    exact ⟨trivial, by simp⟩
  · rintro ⟨-, rfl⟩
    exact ⟨programMagic, _, rfl, by simp, (), rfl, programVersion, _, by decide, rfl, (), rfl,
      programHeaderBytes, rest, by decide, rfl, rfl, rfl⟩

theorem decodeHeader_exact (expected : String) : Exact (decodeHeader expected)
    (fun header => header.Fits ∧ decodeSha256 expected = .ok header.sourceGraphSha256)
    spellHeader := by
  intro bytes header rest
  obtain ⟨source, r1cs, instructions, constants, outputs, mappings, inputs, signals, slots⟩ := header
  simp only [decodeHeader, decodePreamble_exact.bind_ok, (array_exact 32).bind_ok,
    u32_exact.bind_ok, lift_bind_ok, refuseIf_ok, Decidable.not_not, pure_ok, id]
  constructor
  · rintro ⟨_, _, -, rfl, source', _, hsource, rfl, _, hexpected, _, rfl, r1cs', _, hr1cs, rfl,
      instructions', _, hinstructions, rfl, constants', _, hconstants, rfl, outputs', _, houtputs,
      rfl, mappings', _, hmappings, rfl, inputs', _, hinputs, rfl, signals', _, hsignals, rfl,
      slots', _, hslots, rfl, heq, rfl⟩
    cases heq
    exact ⟨⟨⟨hsource, hr1cs, hinstructions, hconstants, houtputs, hmappings, hinputs, hsignals,
      hslots⟩, hexpected⟩, by simp [spellHeader]⟩
  · rintro ⟨⟨⟨hsource, hr1cs, hinstructions, hconstants, houtputs, hmappings, hinputs, hsignals,
      hslots⟩, hexpected⟩, rfl⟩
    exact ⟨(), _, trivial, by simp [spellHeader], source, _, hsource, rfl, source, hexpected,
      (), rfl, r1cs, _, hr1cs, rfl, instructions, _, hinstructions, rfl, constants, _, hconstants,
      rfl, outputs, _, houtputs, rfl, mappings, _, hmappings, rfl, inputs, _, hinputs, rfl, signals,
      _, hsignals, rfl, slots, _, hslots, rfl, rfl, rfl⟩

/-! ### Sizes -/

def tableBytes (instructions constants outputs mappings : Nat) : Nat :=
  programHeaderBytes + instructions * programInstructionBytes +
    constants * programConstantBytes + outputs * programOutputBytes +
    mappings * programInputMappingBytes

theorem checkedUsize_ok {value size : Nat} :
    checkedUsize value = some size ↔ size = value ∧ value < 2 ^ 64 := by
  unfold checkedUsize
  split
  · rename_i hlt
    rw [Option.some.injEq, eq_comm]
    exact (and_iff_left hlt).symm
  · rename_i hlarge
    exact ⟨fun h => (by cases h), fun h => absurd h.2 hlarge⟩

theorem programSize_ok {instructions constants outputs mappings size : Nat} :
    programSize instructions constants outputs mappings = .ok size ↔
      size = tableBytes instructions constants outputs mappings ∧ size < 2 ^ 64 := by
  have hchecked : checkedProgramSize instructions constants outputs mappings = some size ↔
      size = tableBytes instructions constants outputs mappings ∧ size < 2 ^ 64 := by
    unfold checkedProgramSize tableBytes
    simp only [Option.bind_eq_bind, Option.bind_eq_some_iff, checkedUsize_ok]
    constructor
    · rintro ⟨_, ⟨rfl, _⟩, _, ⟨rfl, _⟩, _, ⟨rfl, _⟩, _, ⟨rfl, _⟩, _, ⟨rfl, _⟩, _, ⟨rfl, _⟩, _,
        ⟨rfl, _⟩, rfl, hsize⟩
      exact ⟨rfl, hsize⟩
    · rintro ⟨rfl, hsize⟩
      refine ⟨_, ⟨rfl, ?_⟩, _, ⟨rfl, ?_⟩, _, ⟨rfl, ?_⟩, _, ⟨rfl, ?_⟩, _, ⟨rfl, ?_⟩, _, ⟨rfl, ?_⟩,
        _, ⟨rfl, ?_⟩, rfl, hsize⟩
      all_goals omega
  unfold programSize
  cases hsize : checkedProgramSize instructions constants outputs mappings with
  | none =>
    rw [hsize] at hchecked
    simpa using hchecked
  | some size' =>
    rw [hsize, Option.some.injEq] at hchecked
    rw [Except.ok.injEq]
    exact hchecked

/-! ### Instructions -/

/-- The operands of an instruction are in the ranges its kind asks for. -/
def OperandsFit (header : ProgramHeader) (left right : Nat) : Kind → Prop
  | .input => left < header.inputBufferLen ∧ right = 0
  | .constant => left < header.constantCount ∧ right = 0
  | .inverse => left < header.slots ∧ right = 0
  | .operation _ => left < header.slots ∧ right < header.slots

theorem operationTag_lt (operation : Operation) : operationTag operation < 2 ^ 8 := by
  cases operation <;> decide

theorem fromTag_ok {tag index : Nat} {operation : Operation} :
    Operation.fromTag tag index = .ok operation ↔ tag = operationTag operation := by
  unfold Operation.fromTag
  constructor
  · intro h
    split at h
    · rename_i op hget
      cases h
      obtain ⟨hlt, rfl⟩ := List.getElem?_eq_some_iff.mp hget
      have htags : ∀ i, (h : i < Operation.all.length) → i = operationTag (Operation.all.get ⟨i, h⟩) := by
        decide
      exact htags tag hlt
    · cases h
  · rintro rfl
    cases operation <;> rfl

theorem decodeKind_ok {header : ProgramHeader} {index left right kindTag operationTag' : Nat}
    {kind : Kind} : decodeKind header index left right kindTag operationTag' = .ok kind ↔
      kindTag = (kindTags kind).1 ∧ operationTag' = (kindTags kind).2 ∧
        OperandsFit header left right kind := by
  constructor
  · intro h
    unfold decodeKind at h
    split at h
    · rename_i hinput
      cases h
      exact ⟨hinput.1, hinput.2.1, hinput.2.2⟩
    split at h
    · rename_i hconstant
      cases h
      exact ⟨hconstant.1, hconstant.2.1, hconstant.2.2⟩
    split at h
    · rename_i hinverse
      cases h
      exact ⟨hinverse.1, hinverse.2.1, hinverse.2.2⟩
    split at h
    · rename_i hoperation
      obtain ⟨operation, htag, hkind⟩ := Fallible.bind_ok.mp h
      cases hkind
      exact ⟨hoperation.1, fromTag_ok.mp htag, hoperation.2⟩
    · cases h
  · rintro ⟨rfl, rfl, hfit⟩
    unfold decodeKind
    cases kind with
    | input => rw [if_pos ⟨rfl, rfl, hfit⟩]
    | constant => rw [if_neg (by simp [kindTags]), if_pos ⟨rfl, rfl, hfit⟩]
    | inverse =>
      rw [if_neg (by simp [kindTags]), if_neg (by simp [kindTags]), if_pos ⟨rfl, rfl, hfit⟩]
    | operation operation =>
      rw [if_neg (by simp [kindTags]), if_neg (by simp [kindTags]), if_neg (by simp [kindTags]),
        if_pos ⟨rfl, hfit⟩, kindTags, fromTag_ok.mpr rfl]
      rfl

/-- One round of the instruction loop accepts the instruction. -/
structure Admits (header : ProgramHeader) (s : ProgramCheck) (instruction : Instruction)
    (s' : ProgramCheck) : Prop where
  left : instruction.left < 2 ^ 32
  right : instruction.right < 2 ^ 32
  destination : instruction.destination < 2 ^ 32
  slot : instruction.destination < header.slots
  operands : OperandsFit header instruction.left instruction.right instruction.kind
  defined : ∀ slot ∈ Instruction.operands instruction, s.definedSlots.getD slot false = true
  cost : s.cost.charge (Kind.cost instruction.kind) = .ok s'.cost
  next : s' = ⟨s.index + 1, s'.cost, s.definedSlots.set instruction.destination true⟩

theorem kindTags_lt (kind : Kind) : (kindTags kind).1 < 2 ^ 8 ∧ (kindTags kind).2 < 2 ^ 8 := by
  cases kind with
  | operation operation => exact ⟨(by decide : 3 < 2 ^ 8), operationTag_lt operation⟩
  | _ => exact ⟨by decide, by decide⟩

theorem operands_defined {instruction : Instruction} {defined : List Bool} :
    (¬ (Instruction.operands instruction).any fun slot => !defined.getD slot false) ↔
      ∀ slot ∈ Instruction.operands instruction, defined.getD slot false = true := by
  simp

theorem decodeInstruction_exact (header : ProgramHeader) (s : ProgramCheck) :
    Exact (decodeInstruction header s) (fun r => Admits header s r.1 r.2)
      fun r => pushInstruction r.1 := by
  intro bytes r rest
  obtain ⟨⟨left, right, destination, kind⟩, s'⟩ := r
  simp only [decodeInstruction, u32_exact.bind_ok, u8_exact.bind_ok, u16_exact.bind_ok,
    lift_bind_ok, refuseIf_ok, decodeKind_ok, operands_defined, pure_ok]
  constructor
  · rintro ⟨left', _, hleft, rfl, right', _, hright, rfl, destination', _, hdestination, rfl,
      kindTag, _, _, rfl, operationTag', _, _, rfl, padding, _, _, rfl, _, hencoding, kind',
      ⟨rfl, rfl, hfit⟩, cost, hcost, _, hdefined, heq, rfl⟩
    cases heq
    obtain ⟨rfl, hslot⟩ : padding = 0 ∧ destination < header.slots := by
      rw [not_or, Decidable.not_not, Nat.not_le] at hencoding
      exact hencoding
    exact ⟨⟨hleft, hright, hdestination, hslot, hfit, hdefined, hcost, rfl⟩,
      by simp [pushInstruction]⟩
  · rintro ⟨h, rfl⟩
    obtain ⟨hkind, hoperation⟩ := kindTags_lt kind
    refine ⟨left, _, h.left, by simp [pushInstruction], right, _, h.right, rfl, destination, _,
      h.destination, rfl, _, _, hkind, rfl, _, _, hoperation, rfl, 0, rest, by decide, rfl, (), ?_,
      kind, ⟨rfl, rfl, h.operands⟩, s'.cost, h.cost, (), h.defined, ?_, rfl⟩
    · rw [not_or, Decidable.not_not, Nat.not_le]
      exact ⟨rfl, h.slot⟩
    · exact Prod.ext rfl h.next.symm

/-! ### Constants, outputs and mappings -/

theorem constantFromBytes_ok {encoded : List UInt8} {index : Nat} {value : Fr}
    (hlength : encoded.length = 32) :
    constantFromBytes encoded index = .ok value ↔ encoded = leBytes 32 value.val := by
  have hword : frModulus < 256 ^ 32 := by decide
  unfold constantFromBytes Fr.ofBigint
  constructor
  · intro h
    split at h
    · rename_i value' hvalue
      cases h
      split at hvalue
      · rename_i hlt
        cases hvalue
        rw [ZMod.val_cast_of_lt hlt, ← hlength, leBytes_leNat]
      · cases hvalue
    · cases h
  · rintro rfl
    have hlt := ZMod.val_lt value
    rw [leNat_leBytes (by omega), if_pos hlt, ZMod.natCast_zmod_val]

theorem decodeConstant_exact (index : Nat) : Exact (decodeConstant index)
    (fun r => r.2 = index + 1) fun r => leBytes 32 r.1.val := by
  intro bytes r rest
  obtain ⟨value, next⟩ := r
  simp only [decodeConstant, (array_exact 32).bind_ok, lift_bind_ok, pure_ok, id]
  constructor
  · rintro ⟨encoded, _, hlength, rfl, value', hvalue, heq, rfl⟩
    cases heq
    exact ⟨rfl, by rw [(constantFromBytes_ok hlength).mp hvalue]⟩
  · rintro ⟨rfl, rfl⟩
    have hlength := leBytes_length 32 value.val
    exact ⟨_, rest, hlength, rfl, value, (constantFromBytes_ok hlength).mpr rfl, rfl, rfl⟩

theorem decodeConstants_exact (count index : Nat) :
    Exact (scan decodeConstant count index) (fun r => r.1.length = count ∧
      Threads (fun index (_ : Fr) next => next = index + 1) index r.1 r.2)
      fun r => r.1.flatMap fun constant => leBytes 32 constant.val :=
  scan_exact decodeConstant_exact count index

/-- One round of the output loop accepts the row. -/
structure AdmitsOutput (header : ProgramHeader) (s : OutputCheck) (output : OutputWrite)
    (s' : OutputCheck) : Prop where
  node_lt : output.node < 2 ^ 32
  signal_lt : output.signal < 2 ^ 32
  node : output.node < header.instructionCount
  signal : output.signal < header.signalCount
  fresh : s.seenSignals.getD output.signal false = false
  sorted : ∀ previous, s.previous = some previous →
    outputBefore ⟨previous.1, previous.2⟩ output = true
  next : s' = ⟨s.seenSignals.set output.signal true, some (output.node, output.signal)⟩

theorem decodeOutput_exact (header : ProgramHeader) (s : OutputCheck) :
    Exact (decodeOutput header s) (fun r => AdmitsOutput header s r.1 r.2)
      fun r => pushOutput r.1 := by
  intro bytes r rest
  obtain ⟨⟨node, signal⟩, s'⟩ := r
  have hsorted : ∀ node signal, (¬ s.previous.any fun previous => decide
      (previous.1 > node ∨ previous.1 = node ∧ previous.2 > signal)) ↔
      ∀ previous, s.previous = some previous →
        outputBefore ⟨previous.1, previous.2⟩ ⟨node, signal⟩ = true := by
    intro node signal
    cases s.previous with
    | none => simp
    | some previous =>
      simp only [Option.any_some, decide_eq_true_eq, Option.some.injEq, forall_eq', outputBefore]
      omega
  simp only [decodeOutput, u32_exact.bind_ok, lift_bind_ok, refuseIf_ok, not_or, hsorted,
    Bool.not_eq_true, Nat.not_le, pure_ok]
  constructor
  · rintro ⟨node', _, hnode, rfl, signal', _, hsignal, rfl, _, ⟨hrow, hcolumn, hfresh, hbefore⟩,
      heq, rfl⟩
    cases heq
    exact ⟨⟨hnode, hsignal, hrow, hcolumn, hfresh, hbefore, rfl⟩, by simp [pushOutput]⟩
  · rintro ⟨h, rfl⟩
    refine ⟨node, _, h.node_lt, by simp [pushOutput], signal, rest, h.signal_lt, rfl, (),
      ⟨h.node, h.signal, h.fresh, h.sorted⟩, ?_, rfl⟩
    exact Prod.ext rfl h.next.symm

section OutputTable

variable {header : ProgramHeader} {s s' : OutputCheck} {outputs : List OutputWrite}

theorem AdmitsOutput.marks {output : OutputWrite} (h : AdmitsOutput header s output s')
    (hlength : s.seenSignals.length = header.signalCount) (k : Nat) :
    s'.seenSignals.getD k false = true ↔
      s.seenSignals.getD k false = true ∨ output.signal = k := by
  rw [h.next]
  by_cases hk : k = output.signal
  · subst hk
    simp [hlength, h.signal]
  · dsimp only
    rw [List.getD_eq_getElem?_getD, List.getElem?_set_ne (Ne.symm hk),
      ← List.getD_eq_getElem?_getD]
    exact (or_iff_left (Ne.symm hk)).symm

theorem AdmitsOutput.seen_length {output : OutputWrite} (h : AdmitsOutput header s output s') :
    s'.seenSignals.length = s.seenSignals.length := by
  rw [h.next]
  exact List.length_set

/-- The signals seen at the end are those seen before and those of the table. -/
theorem outputs_seen (h : Threads (AdmitsOutput header) s outputs s')
    (hlength : s.seenSignals.length = header.signalCount) :
    s'.seenSignals.length = header.signalCount ∧ ∀ k, s'.seenSignals.getD k false = true ↔
      s.seenSignals.getD k false = true ∨ k ∈ outputs.map OutputWrite.signal := by
  induction h with
  | nil => exact ⟨hlength, fun k => by simp⟩
  | cons head _ ih =>
    obtain ⟨hlength', hseen⟩ := ih (head.seen_length.trans hlength)
    refine ⟨hlength', fun k => ?_⟩
    rw [hseen k, head.marks hlength k, List.map_cons, List.mem_cons, or_assoc, @eq_comm _ k]

/-- No signal of the table is repeated or was seen before. -/
theorem outputs_nodup (h : Threads (AdmitsOutput header) s outputs s')
    (hlength : s.seenSignals.length = header.signalCount) :
    (outputs.map OutputWrite.signal).Nodup ∧
      ∀ o ∈ outputs, s.seenSignals.getD o.signal false = false := by
  induction h with
  | nil => exact ⟨List.nodup_nil, fun o ho => by cases ho⟩
  | @cons s s₁ s₂ output outputs head tail ih =>
    obtain ⟨hnodup, hfresh⟩ := ih (head.seen_length.trans hlength)
    have hlater : ∀ o ∈ outputs, ¬ (s.seenSignals.getD o.signal false = true ∨
        output.signal = o.signal) := by
      intro o ho
      rw [← head.marks hlength, hfresh o ho]
      decide
    refine ⟨List.nodup_cons.mpr ⟨?_, hnodup⟩, List.forall_mem_cons.mpr ⟨head.fresh, ?_⟩⟩
    · intro hmem
      obtain ⟨o, ho, hsame⟩ := List.mem_map.mp hmem
      exact hlater o ho (.inr hsame.symm)
    · intro o ho
      exact Bool.not_eq_true _ ▸ fun hseen => hlater o ho (.inl hseen)

/-- The rows are in order. -/
theorem outputs_sorted (h : Threads (AdmitsOutput header) s outputs s') :
    outputs.Pairwise fun a b => a.node ≤ b.node := by
  have hchain : ∀ {s s' : OutputCheck} {outputs : List OutputWrite},
      Threads (AdmitsOutput header) s outputs s' → outputs.Pairwise (fun a b => a.node ≤ b.node) ∧
        ∀ previous, s.previous = some previous → ∀ o ∈ outputs, previous.1 ≤ o.node := by
    intro s s' outputs h
    induction h with
    | nil => exact ⟨.nil, fun _ _ o ho => by cases ho⟩
    | @cons s s₁ s₂ output outputs head _ ih =>
      obtain ⟨hsorted, hafter⟩ := ih
      have hlater := hafter (output.node, output.signal) (by rw [head.next])
      refine ⟨List.pairwise_cons.mpr ⟨hlater, hsorted⟩, fun previous hprevious => ?_⟩
      have hbefore := head.sorted previous hprevious
      have hle : previous.1 ≤ output.node := by
        unfold outputBefore at hbefore
        simp only [decide_eq_true_eq] at hbefore
        omega
      exact List.forall_mem_cons.mpr ⟨hle, fun o ho => hle.trans (hlater o ho)⟩
  exact (hchain h).1

/-- A table in order whose signals are new and distinct is accepted. -/
theorem outputs_admitted (hfits : header.Fits) (seen : List Bool) (previous : Option (Nat × Nat))
    (hsorted : outputs.Pairwise fun a b => outputBefore a b = true)
    (hprevious : ∀ p, previous = some p → ∀ o ∈ outputs, outputBefore ⟨p.1, p.2⟩ o = true)
    (hnodup : (outputs.map OutputWrite.signal).Nodup)
    (hbounds : ∀ o ∈ outputs, o.node < header.instructionCount ∧ o.signal < header.signalCount)
    (hfresh : ∀ o ∈ outputs, seen.getD o.signal false = false) :
    ∃ s, Threads (AdmitsOutput header) ⟨seen, previous⟩ outputs s := by
  have hinstructions := hfits.instructions
  have hsignals := hfits.signals
  induction outputs generalizing seen previous with
  | nil => exact ⟨_, .nil _⟩
  | cons output outputs ih =>
    obtain ⟨hfirst, hsorted⟩ := List.pairwise_cons.mp hsorted
    obtain ⟨hnotin, hnodup⟩ := List.nodup_cons.mp hnodup
    obtain ⟨⟨hnode, hsignal⟩, hbounds⟩ := List.forall_mem_cons.mp hbounds
    obtain ⟨hnew, hfresh⟩ := List.forall_mem_cons.mp hfresh
    have hadmits : AdmitsOutput header ⟨seen, previous⟩ output
        ⟨seen.set output.signal true, some (output.node, output.signal)⟩ :=
      ⟨by omega, by omega, hnode, hsignal, hnew,
        fun p hp => hprevious p hp output (by simp), rfl⟩
    have hkept : ∀ o ∈ outputs, (seen.set output.signal true).getD o.signal false = false := by
      intro o ho
      have hne : output.signal ≠ o.signal := fun hsame =>
        hnotin (List.mem_map.mpr ⟨o, ho, hsame.symm⟩)
      rw [List.getD_eq_getElem?_getD, List.getElem?_set_ne hne, ← List.getD_eq_getElem?_getD]
      exact hfresh o ho
    have hordered : ∀ p, some (output.node, output.signal) = some p →
        ∀ o ∈ outputs, outputBefore ⟨p.1, p.2⟩ o = true := by
      rintro p ⟨⟩ o ho
      exact hfirst o ho
    obtain ⟨s, htail⟩ := ih _ _ hsorted hordered hnodup hbounds hkept
    exact ⟨s, .cons hadmits htail⟩

end OutputTable

def spellMapping (mapping : InputMapping) : List UInt8 :=
  leBytes 8 mapping.hash ++ leBytes 4 mapping.signalId ++ leBytes 4 mapping.signalSize

/-- One round of the mapping loop accepts the row. -/
structure AdmitsMapping (header : ProgramHeader) (s : MappingCheck) (mapping : InputMapping)
    (s' : MappingCheck) : Prop where
  hash_lt : mapping.hash < 2 ^ 64
  signalId_lt : mapping.signalId < 2 ^ 32
  signalSize_lt : mapping.signalSize < 2 ^ 32
  fresh : mapping.hash ∉ s.hashes
  signalId_ne : mapping.signalId ≠ 0
  signalSize_ne : mapping.signalSize ≠ 0
  within : mapping.signalId + mapping.signalSize ≤ header.inputBufferLen
  next : s' = ⟨s.index + 1, mapping.hash :: s.hashes⟩

theorem decodeMapping_exact (header : ProgramHeader) (s : MappingCheck) :
    Exact (decodeMapping header s) (fun r => AdmitsMapping header s r.1 r.2)
      fun r => spellMapping r.1 := by
  intro bytes r rest
  obtain ⟨⟨hash, signalId, signalSize⟩, s'⟩ := r
  simp only [decodeMapping, u32_exact.bind_ok, u64_exact.bind_ok, lift_bind_ok, refuseIf_ok,
    not_or, Nat.not_lt, pure_ok]
  constructor
  · rintro ⟨hash', _, hhash, rfl, signalId', _, hid, rfl, signalSize', _, hsize, rfl, _, hfresh,
      _, ⟨hid_ne, hsize_ne, hwithin⟩, heq, rfl⟩
    cases heq
    exact ⟨⟨hhash, hid, hsize, hfresh, hid_ne, hsize_ne, hwithin, rfl⟩, by simp [spellMapping]⟩
  · rintro ⟨h, rfl⟩
    refine ⟨hash, _, h.hash_lt, by simp [spellMapping], signalId, _, h.signalId_lt, rfl, signalSize,
      rest, h.signalSize_lt, rfl, (), h.fresh, (), ⟨h.signalId_ne, h.signalSize_ne, h.within⟩, ?_,
      rfl⟩
    exact Prod.ext rfl h.next.symm

/-! ### Whole programs -/

/-- The counts are within the limits and agree with each other. -/
structure ProgramHeader.Dimensions (limits : Limits) (header : ProgramHeader) : Prop where
  instructions_le : header.instructionCount ≤ limits.nodes
  constants_le : header.constantCount ≤ limits.nodes
  outputs_le : header.outputCount ≤ limits.signals
  mappings_le : header.inputMappingCount ≤ limits.inputMappings
  inputs_le : header.inputBufferLen ≤ limits.inputValues
  signals_le : header.signalCount ≤ limits.signals
  instructions_ne : header.instructionCount ≠ 0
  inputs_ne : header.inputBufferLen ≠ 0
  signals_ne : header.signalCount ≠ 0
  slots_ne : header.slots ≠ 0
  slots_le : header.slots ≤ header.instructionCount
  pool_le : header.constantCount ≤ header.instructionCount
  outputs_eq : header.outputCount = header.signalCount

theorem checkDimensions_ok {limits : Limits} {header : ProgramHeader} {u : Unit} :
    checkDimensions limits header = .ok u ↔ header.Dimensions limits := by
  unfold checkDimensions checkCount
  simp only [Fallible.bind_ok, refuseIf_ok, not_or, Nat.not_lt, Decidable.not_not]
  constructor
  · rintro ⟨_, hi, _, hc, _, ho, _, hm, _, hb, _, hs, hi_ne, hb_ne, hs_ne, hx_ne, hx, hp, heq⟩
    exact ⟨hi, hc, ho, hm, hb, hs, hi_ne, hb_ne, hs_ne, hx_ne, hx, hp, heq⟩
  · rintro ⟨hi, hc, ho, hm, hb, hs, hi_ne, hb_ne, hs_ne, hx_ne, hx, hp, heq⟩
    exact ⟨(), hi, (), hc, (), ho, (), hm, (), hb, (), hs, hi_ne, hb_ne, hs_ne, hx_ne, hx, hp, heq⟩

theorem checkSize_ok {limits : Limits} {declaredSize : Option Nat} {header : ProgramHeader}
    {u : Unit} : checkSize limits declaredSize header = .ok u ↔
      ∃ size, programSize header.instructionCount header.constantCount header.outputCount
        header.inputMappingCount = .ok size ∧ size ≤ limits.sageProgramBytes ∧
        ∀ declared, declaredSize = some declared → declared = size := by
  unfold checkSize
  simp only [Fallible.bind_ok, refuseIf_ok, Nat.not_lt]
  constructor
  · rintro ⟨size, hsize, _, hle, hdeclared⟩
    refine ⟨size, hsize, hle, ?_⟩
    rintro declared rfl
    have hsame : ¬ size ≠ declared := by simpa using hdeclared
    exact (Decidable.not_not.mp hsame).symm
  · rintro ⟨size, hsize, hle, hdeclared⟩
    refine ⟨size, hsize, (), hle, ?_⟩
    cases declaredSize with
    | none => simp
    | some declared => simp [hdeclared declared rfl]

end Sage

namespace SageGraph

open Sage

/-- The header of the graph's program. -/
def programHeader (g : SageGraph) : ProgramHeader where
  sourceGraphSha256 := g.sourceGraphSha256
  r1csSha256 := g.r1csSha256
  instructionCount := g.instructions.length
  constantCount := g.constants.length
  outputCount := g.outputs.length
  inputMappingCount := g.inputMapping.length
  inputBufferLen := g.inputBufferLen
  signalCount := g.signalCount
  slots := g.slots

/-- The program of the graph. -/
def spell (g : SageGraph) : List UInt8 :=
  spellHeader g.programHeader ++ g.instructions.flatMap pushInstruction ++
    g.constants.flatMap (fun constant => leBytes 32 constant.val) ++
    g.outputs.flatMap pushOutput ++ g.inputMapping.flatMap spellMapping

def programBytes (g : SageGraph) : Nat :=
  tableBytes g.instructions.length g.constants.length g.outputs.length g.inputMapping.length

/-- The graphs that have a program. -/
structure WellFormed (g : SageGraph) : Prop where
  fits : g.programHeader.Fits
  dimensions : g.programHeader.Dimensions g.limits
  word : g.programBytes < 2 ^ 64
  size : g.programBytes ≤ g.limits.sageProgramBytes
  instructions : ∃ s, Threads (Admits g.programHeader)
    ⟨0, CostMeter.new g.limits, List.replicate g.slots false⟩ g.instructions s
  outputs : ∃ s, Threads (AdmitsOutput g.programHeader)
    ⟨List.replicate g.signalCount false, none⟩ g.outputs s ∧ ∀ seen ∈ s.seenSignals, seen = true
  mappings : ∃ s, Threads (AdmitsMapping g.programHeader) ⟨0, []⟩ g.inputMapping s
  ranges : checkInputRanges (g.inputMapping.map fun m => (m.signalId, m.signalSize)) = .ok ()

theorem length_flatMap_of_forall {α : Type} (spell : α → List UInt8) (width : Nat)
    (h : ∀ a, (spell a).length = width) (values : List α) :
    (values.flatMap spell).length = values.length * width := by
  simp [List.length_flatMap, h]

theorem spell_length {g : SageGraph} (h : g.programHeader.Fits) :
    g.spell.length = g.programBytes := by
  have hinstructions := length_flatMap_of_forall pushInstruction programInstructionBytes
    (fun i => by simp [pushInstruction, programInstructionBytes]) g.instructions
  have hconstants := length_flatMap_of_forall (fun c : Fr => leBytes 32 c.val)
    programConstantBytes (fun c => leBytes_length 32 c.val) g.constants
  have houtputs := length_flatMap_of_forall pushOutput programOutputBytes
    (fun o => by simp [pushOutput, programOutputBytes]) g.outputs
  have hmappings := length_flatMap_of_forall spellMapping programInputMappingBytes
    (fun m => by simp [spellMapping, programInputMappingBytes]) g.inputMapping
  unfold spell
  simp only [List.length_append, spellHeader_length h, hinstructions, hconstants, houtputs,
    hmappings]
  rfl

theorem threads_constants (constants : List Fr) (index : Nat) :
    Threads (fun index (_ : Fr) next => next = index + 1) index constants
      (index + constants.length) := by
  induction constants generalizing index with
  | nil => exact .nil index
  | cons constant constants ih =>
    refine .cons rfl ?_
    have htail := ih (index + 1)
    rw [Nat.add_assoc, Nat.add_comm 1] at htail
    exact htail

variable {declaredSize : Option Nat} {expected : String} {limits : Limits} {bytes : List UInt8}
  {g : SageGraph}

/-- The decoder accepts the spelling of a well-formed graph and nothing else. -/
theorem decodeProgram_ok : decodeProgram declaredSize expected limits bytes = .ok g ↔
    g.WellFormed ∧ g.limits = limits ∧ decodeSha256 expected = .ok g.sourceGraphSha256 ∧
      (∀ declared, declaredSize = some declared → declared = g.programBytes) ∧
      bytes = g.spell := by
  unfold decodeProgram
  simp only [Fallible.bind_ok, Prod.exists, decodeHeader_exact expected _ _ _, checkDimensions_ok,
    checkSize_ok, programSize_ok, scan_exact (decodeInstruction_exact _) _ _ _ _ _,
    decodeConstants_exact _ _ _ _ _, scan_exact (decodeOutput_exact _) _ _ _ _ _,
    scan_exact (decodeMapping_exact _) _ _ _ _ _, refuseIf_ok]
  constructor
  · rintro ⟨header, _, ⟨⟨hfits, hexpected⟩, rfl⟩, _, hdimensions, _,
      ⟨size, ⟨rfl, hword⟩, hsize, hdeclared⟩, instructions, check, _,
      ⟨⟨hinstructions, hthreads⟩, rfl⟩, constants, _, _, ⟨⟨hconstants, -⟩, rfl⟩, outputs, seen, _,
      ⟨⟨houtputs, houtputThreads⟩, rfl⟩, _, hseen, mappings, hashes, rest,
      ⟨⟨hmappings, hmappingThreads⟩, rfl⟩, _, hranges, isEmpty, _, hempty, _, htrailing, heq⟩
    obtain ⟨source, r1cs, _, _, _, _, inputs, signals, slots⟩ := header
    cases hinstructions
    cases hconstants
    cases houtputs
    cases hmappings
    cases hempty
    cases heq
    obtain rfl : rest = [] := by simpa using htrailing
    refine ⟨⟨hfits, hdimensions, hword, hsize, ⟨check, hthreads⟩, ⟨seen, houtputThreads, ?_⟩,
      ⟨hashes, hmappingThreads⟩, hranges⟩, rfl, hexpected, hdeclared, ?_⟩
    · simpa using hseen
    · simp [spell, programHeader]
  · rintro ⟨h, rfl, hexpected, hdeclared, rfl⟩
    obtain ⟨check, hthreads⟩ := h.instructions
    obtain ⟨seen, houtputThreads, hseen⟩ := h.outputs
    obtain ⟨hashes, hmappingThreads⟩ := h.mappings
    refine ⟨g.programHeader, _, ⟨⟨h.fits, hexpected⟩, by simp [spell]⟩, (), h.dimensions, (),
      ⟨_, ⟨rfl, h.word⟩, h.size, hdeclared⟩, g.instructions, check, _, ⟨⟨rfl, hthreads⟩, rfl⟩,
      g.constants, _, _, ⟨⟨rfl, threads_constants g.constants 0⟩, rfl⟩, g.outputs, seen,
      g.inputMapping.flatMap spellMapping, ⟨⟨rfl, houtputThreads⟩, rfl⟩, (), by simpa using hseen,
      g.inputMapping, hashes, [],
      ⟨⟨rfl, hmappingThreads⟩, by simp⟩, (), h.ranges, true, [], rfl, (), by simp, rfl⟩

/-! ### Encoding -/

theorem pushEach_eq {α : Type} {push : α → Except WitnessError (List UInt8)}
    {spell : α → List UInt8} {values : List α} (h : ∀ a ∈ values, push a = .ok (spell a)) :
    pushEach push values = .ok (values.flatMap spell) := by
  induction values with
  | nil => rfl
  | cons a values ih =>
    obtain ⟨ha, hvalues⟩ := List.forall_mem_cons.mp h
    rw [pushEach, ha, Fallible.ok_bind, ih hvalues]
    rfl

theorem pushConstant_eq (constant : Fr) :
    pushConstant constant = .ok (leBytes 32 constant.val) := by
  have hlength : (leBytes 32 constant.val).length = programConstantBytes := leBytes_length 32 _
  rw [pushConstant, (refuseIf_ok (u := ())).mpr (not_not.mpr hlength)]
  rfl

theorem indexU32_ok {value : Nat} (h : value < 2 ^ 32) (what : String) :
    indexU32 value what = .ok value := if_pos h

theorem pushMapping_eq {mapping : InputMapping} (hid : mapping.signalId < 2 ^ 32)
    (hsize : mapping.signalSize < 2 ^ 32) : pushMapping mapping = .ok (spellMapping mapping) := by
  rw [pushMapping, indexU32_ok hid, Fallible.ok_bind, indexU32_ok hsize]
  rfl

theorem programBytes_lt (h : g.programHeader.Fits) : g.programBytes < 2 ^ 64 := by
  have hinstructions : g.instructions.length < 2 ^ 32 := h.instructions
  have hconstants : g.constants.length < 2 ^ 32 := h.constants
  have houtputs : g.outputs.length < 2 ^ 32 := h.outputs
  have hmappings : g.inputMapping.length < 2 ^ 32 := h.mappings
  unfold programBytes tableBytes programHeaderBytes programInstructionBytes programConstantBytes
    programOutputBytes programInputMappingBytes
  omega

/-- A graph whose fields fit is encoded unless its program is too large. -/
theorem encodeProgram_eq (h : g.programHeader.Fits)
    (hmappings : ∀ m ∈ g.inputMapping, m.signalId < 2 ^ 32 ∧ m.signalSize < 2 ^ 32) :
    encodeProgram g = if g.programBytes > g.limits.sageProgramBytes then
      .error (.sageProgramTooLarge g.limits.sageProgramBytes) else .ok g.spell := by
  have hsize : programSize g.instructions.length g.constants.length g.outputs.length
      g.inputMapping.length = .ok g.programBytes := programSize_ok.mpr ⟨rfl, programBytes_lt h⟩
  have hmapped : pushEach pushMapping g.inputMapping = .ok (g.inputMapping.flatMap spellMapping) :=
    pushEach_eq fun m hm => pushMapping_eq (hmappings m hm).1 (hmappings m hm).2
  have hpool : pushEach pushConstant g.constants =
      .ok (g.constants.flatMap fun constant => leBytes 32 constant.val) :=
    pushEach_eq fun c _ => pushConstant_eq c
  have hinstructions : g.instructions.length < 2 ^ 32 := h.instructions
  have hconstants : g.constants.length < 2 ^ 32 := h.constants
  have houtputs : g.outputs.length < 2 ^ 32 := h.outputs
  have hcount : g.inputMapping.length < 2 ^ 32 := h.mappings
  have hinputs : g.inputBufferLen < 2 ^ 32 := h.inputs
  have hsignals : g.signalCount < 2 ^ 32 := h.signals
  have hslots : g.slots < 2 ^ 32 := h.slots
  have hspell : g.spell = programMagic ++ leBytes 4 programVersion ++ leBytes 4 programHeaderBytes ++
      g.sourceGraphSha256 ++ g.r1csSha256 ++ [g.instructions.length, g.constants.length,
        g.outputs.length, g.inputMapping.length, g.inputBufferLen, g.signalCount,
        g.slots].flatMap (leBytes 4) ++ g.instructions.flatMap pushInstruction ++
      g.constants.flatMap (fun constant => leBytes 32 constant.val) ++
      g.outputs.flatMap pushOutput ++ g.inputMapping.flatMap spellMapping := rfl
  have hlength := spell_length h
  unfold encodeProgram
  simp only [indexU32_ok hinstructions, indexU32_ok hconstants, indexU32_ok houtputs,
    indexU32_ok hcount, indexU32_ok hinputs, indexU32_ok hsignals, indexU32_ok hslots, hsize,
    Fallible.ok_bind]
  by_cases hlarge : g.programBytes > g.limits.sageProgramBytes
  · rw [if_pos hlarge, refuseIf, if_pos hlarge]
    rfl
  · rw [if_neg hlarge, (refuseIf_ok (u := ())).mpr hlarge, Fallible.ok_bind]
    rw [hpool, Fallible.ok_bind, hmapped, Fallible.ok_bind, ← hspell,
      (refuseIf_ok (u := ())).mpr (not_not.mpr hlength)]
    rfl

theorem WellFormed.encode (h : g.WellFormed) : encodeProgram g = .ok g.spell := by
  obtain ⟨s, hthreads⟩ := h.mappings
  have hmappings : ∀ m ∈ g.inputMapping, m.signalId < 2 ^ 32 ∧ m.signalSize < 2 ^ 32 := by
    intro m hm
    obtain ⟨s, s', hadmits⟩ := hthreads.of_mem hm
    exact ⟨hadmits.signalId_lt, hadmits.signalSize_lt⟩
  rw [encodeProgram_eq h.fits hmappings, if_neg (Nat.not_lt.mpr h.size)]

end SageGraph

end Curvy.Witness
