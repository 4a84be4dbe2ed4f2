import Curvy.Signet.ParseAgrees
import Curvy.Witness.MachineParse

/-!
# Parsing is safe

An accepted graph is grounded: evaluation finds every operand, input and output it names. The
size check before the body turns away nothing that the parse behind it accepts.
-/

namespace Curvy.Witness

set_option autoImplicit false

/-- Operands stand earlier and inputs in the buffer. -/
def Node.Within (inputBufferLen index : Nat) : Node → Prop
  | .input i => i < inputBufferLen
  | .constant _ => True
  | .operation _ left right => left < index ∧ right < index
  | .inverse source => source < index

/-- What evaluation relies on. -/
structure WitnessGraph.Sound (g : WitnessGraph) : Prop where
  nodes : ∀ (index : Nat) (node : Node), g.nodes[index]? = some node → node.Within g.inputBufferLen index
  signals : ∀ node ∈ g.signals, node < g.nodes.length
  mappings : MappingsFit g.inputMapping g.inputBufferLen
  inputs_ne : g.inputBufferLen ≠ 0

def totalCost (nodes : List Node) : Nat := (nodes.map Node.cost).sum

/-- `parse_graph` without the size check. -/
def parseGraphBody (signetV2 : Bool) (bytes : List UInt8) (limits : Limits) :
    Except WitnessError WitnessGraph := do
  let (header, body) ← readHeader signetV2 limits bytes
  let ((nodes, _), rest) ←
    forRecords header parseStep header.nodeCount 0 ([], CostMeter.new limits) body
  let (signals, rest) ← readOutputReferences header rest
  let (inputMapping, rest) ← readInputMappings header rest
  refuseIf (rest ≠ []) .trailingBytes
  return {
    limits, nodes, signals, inputMapping
    inputBufferLen := header.inputBufferLen
    r1csSha256 := header.r1csSha256
    magic := header.magic
    formatVersion := header.version.number }

/-! ### The loop over the records -/

/-- The nodes decoded so far and what they were charged. -/
structure Charged (inputBufferLen maximum : Nat) (s : List Node × CostMeter) : Prop where
  nodes : ∀ (index : Nat) (node : Node), s.1[index]? = some node → node.Within inputBufferLen index
  spent : s.2.spent = min (totalCost s.1) (2 ^ 64 - 1)
  within : s.2.spent ≤ maximum
  maximum : s.2.maximum = maximum

theorem Node.cost_le (node : Node) : node.cost ≤ 768 := by
  cases node with
  | input i => exact (by decide : loadCost ≤ 768)
  | constant value => exact (by decide : loadCost ≤ 768)
  | operation op left right =>
    have hcost : op.cost ≤ 768 := by cases op <;> decide
    exact hcost
  | inverse source => exact (by decide : inverseCost ≤ 768)

theorem totalCost_le (nodes : List Node) : totalCost nodes ≤ 768 * nodes.length := by
  induction nodes with
  | nil => exact Nat.zero_le _
  | cons node nodes ih =>
    have hnode := node.cost_le
    unfold totalCost at ih ⊢
    rw [List.map_cons, List.sum_cons, List.length_cons]
    omega

theorem totalCost_concat (nodes : List Node) (node : Node) :
    totalCost (nodes ++ [node]) = totalCost nodes + node.cost := by
  simp [totalCost]

theorem materialize_within {inputBufferLen index : Nat} {record : NodeRecord} {node : Node}
    (hvalid : record.Valid inputBufferLen index) (h : materialize index record = .ok node) :
    node.Within inputBufferLen index := by
  cases record with
  | input input =>
    obtain rfl := Except.ok.inj h
    exact hvalid.buffered input rfl
  | constant encoded =>
    obtain ⟨value, -, hvalue⟩ := Fallible.bind_ok.mp h
    obtain rfl := Except.ok.inj hvalue
    trivial
  | operation operation left right =>
    obtain rfl := Except.ok.inj h
    exact ⟨hvalid.earlier left (.inl rfl), hvalid.earlier right (.inr rfl)⟩
  | inverse source =>
    obtain rfl := Except.ok.inj h
    exact hvalid.earlier source rfl

theorem parseStep_charged {inputBufferLen maximum : Nat} {record : NodeRecord}
    {s t : List Node × CostMeter} (hs : Charged inputBufferLen maximum s)
    (hvalid : record.Valid inputBufferLen s.1.length)
    (h : parseStep s.1.length record s = .ok t) :
    Charged inputBufferLen maximum t ∧ t.1.length = s.1.length + 1 := by
  obtain ⟨meter, hcharge, h⟩ := Fallible.bind_ok.mp h
  obtain ⟨node, hnode, h⟩ := Fallible.bind_ok.mp h
  obtain rfl := Except.ok.inj h
  have hwithin := materialize_within hvalid hnode
  have hcost := materialize_cost hnode
  unfold CostMeter.chargeRecord CostMeter.charge at hcharge
  dsimp only at hcharge
  split at hcharge
  · cases hcharge
  rename_i hle
  obtain rfl := Except.ok.inj hcharge
  rw [hs.maximum] at hle
  refine ⟨⟨?_, ?_, Nat.le_of_not_lt hle, hs.maximum⟩, by rw [List.length_append, List.length_singleton]⟩
  · intro index other hget
    by_cases hlt : index < s.1.length
    · rw [List.getElem?_append_left hlt] at hget
      exact hs.nodes index other hget
    · rw [List.getElem?_append_right (by omega)] at hget
      obtain ⟨hzero, rfl⟩ : index - s.1.length = 0 ∧ node = other := by
        rw [List.getElem?_singleton] at hget
        split at hget
        · exact ⟨by assumption, Option.some.inj hget⟩
        · cases hget
      obtain rfl : index = s.1.length := by omega
      exact hwithin
  · have hspent := hs.spent
    rw [totalCost_concat, hcost]
    dsimp only
    omega

theorem foldRecords_charged {inputBufferLen maximum : Nat} {records : List NodeRecord}
    {s t : List Node × CostMeter} (hs : Charged inputBufferLen maximum s)
    (hgrounded : Grounded inputBufferLen s.1.length records)
    (h : foldRecords parseStep s.1.length records s = .ok t) :
    Charged inputBufferLen maximum t ∧ t.1.length = s.1.length + records.length := by
  induction records generalizing s with
  | nil =>
    obtain rfl := Except.ok.inj h
    exact ⟨hs, rfl⟩
  | cons record records ih =>
    obtain ⟨s', hstep, hrest⟩ := Fallible.bind_ok.mp h
    obtain ⟨hs', hlength⟩ := parseStep_charged hs hgrounded.1 hstep
    rw [← hlength] at hrest
    obtain ⟨ht, htlength⟩ := ih hs' (by rw [hlength]; exact hgrounded.2) hrest
    refine ⟨ht, ?_⟩
    rw [htlength, hlength, List.length_cons]
    omega

theorem charged_start (inputBufferLen : Nat) (limits : Limits) :
    Charged inputBufferLen limits.evaluationCost ([], CostMeter.new limits) :=
  ⟨fun _ _ h => by simp at h, rfl, Nat.zero_le _, rfl⟩

/-- After any number of records the limit holds, and nothing was lost to saturation. -/
theorem forRecords_charged {header : Header} {limits : Limits} {count : Nat} (hcount : count < 2 ^ 32)
    {body rest : List UInt8} {nodes : List Node} {meter : CostMeter}
    (h : forRecords header parseStep count 0 ([], CostMeter.new limits) body = .ok ((nodes, meter), rest)) :
    Charged header.inputBufferLen limits.evaluationCost (nodes, meter) ∧ nodes.length = count ∧
      totalCost nodes ≤ limits.evaluationCost := by
  obtain ⟨records, hread, hfold⟩ := forRecords_ok.mp h
  obtain ⟨hcharged, hlength⟩ := foldRecords_charged (charged_start header.inputBufferLen limits)
    ((readRecords_reads count 0).of_ok hread) hfold
  rw [readRecords_length hread, List.length_nil, Nat.zero_add] at hlength
  have hsum := totalCost_le nodes
  have hspent := hcharged.spent
  have hwithin := hcharged.within
  dsimp only at hspent hwithin hlength
  refine ⟨hcharged, hlength, ?_⟩
  omega

/-! ### Evaluation -/

namespace WitnessGraph

open Outcome

theorem evaluateNode_isSome {inputs values : List Fr} {node : Node}
    (h : node.Within inputs.length values.length) :
    (evaluateNode inputs values.length values node).isSome := by
  cases node with
  | input i =>
    have hi : i < inputs.length := h
    rw [evaluateNode, List.getElem?_eq_getElem hi]
    rfl
  | constant value => rfl
  | operation op left right =>
    obtain ⟨hleft, hright⟩ : left < values.length ∧ right < values.length := h
    rw [evaluateNode, List.getElem?_eq_getElem hleft, List.getElem?_eq_getElem hright]
    rfl
  | inverse source =>
    have hsource : source < values.length := h
    rw [evaluateNode, List.getElem?_eq_getElem hsource]
    rfl

theorem evaluateNodes_returns {inputs : List Fr} {nodes : List Node} {values : List Fr}
    (h : ∀ (k : Nat) (node : Node), nodes[k]? = some node →
      node.Within inputs.length (values.length + k)) :
    ∃ r, evaluateNodes inputs nodes values.length values = some r ∧
      ∀ all, r = .ok all → all.length = values.length + nodes.length := by
  induction nodes generalizing values with
  | nil => exact ⟨.ok values, rfl, fun all hall => by rw [← Except.ok.inj hall]; rfl⟩
  | cons node nodes ih =>
    obtain ⟨r, hr⟩ := Option.isSome_iff_exists.mp (evaluateNode_isSome (h 0 node rfl))
    rw [evaluateNodes, hr]
    cases r with
    | error e => exact ⟨.error e, rfl, fun all hall => by cases hall⟩
    | ok value =>
      have hlength : (values ++ [value]).length = values.length + 1 := by
        rw [List.length_append, List.length_singleton]
      rw [chain_ok, ← hlength]
      have hrest : ∀ (k : Nat) (other : Node), nodes[k]? = some other →
          other.Within inputs.length ((values ++ [value]).length + k) := by
        intro k other hk
        have hwithin := h (k + 1) other hk
        rw [hlength, Nat.add_assoc, Nat.add_comm 1 k]
        exact hwithin
      obtain ⟨r, hr, hall⟩ := ih hrest
      refine ⟨r, hr, fun all h => ?_⟩
      rw [hall all h, hlength, List.length_cons]
      omega

theorem mapM_isSome {values : List Fr} {signals : List Nat} (h : ∀ k ∈ signals, k < values.length) :
    (signals.mapM fun k => values[k]?).isSome := by
  induction signals with
  | nil => rfl
  | cons k signals ih =>
    obtain ⟨hk, hsignals⟩ := List.forall_mem_cons.mp h
    obtain ⟨rest, hrest⟩ := Option.isSome_iff_exists.mp (ih hsignals)
    rw [List.mapM_cons, List.getElem?_eq_getElem hk, hrest]
    rfl

/-- No lookup of an evaluation is out of range. -/
theorem Sound.calculateJson_isSome {g : WitnessGraph} (h : g.Sound) (serde : SerdeJson) (json : String) :
    (g.calculateJson serde json).isSome := by
  obtain ⟨inputs, hinputs, hlength, -⟩ :=
    buildInputBuffer_returns serde h.mappings h.inputs_ne json g.limits
  unfold calculateJson
  rw [hinputs]
  cases inputs with
  | error e => rfl
  | ok inputs =>
    rw [chain_ok]
    have hin := hlength inputs rfl
    have hnodes : ∀ (k : Nat) (node : Node), g.nodes[k]? = some node →
        node.Within inputs.length (([] : List Fr).length + k) := by
      intro k node hk
      rw [hin, List.length_nil, Nat.zero_add]
      exact h.nodes k node hk
    obtain ⟨values, hvalues, hcount⟩ := evaluateNodes_returns hnodes
    rw [List.length_nil] at hvalues
    rw [hvalues]
    cases values with
    | error e => rfl
    | ok values =>
      rw [chain_ok]
      have hall := hcount values rfl
      rw [List.length_nil, Nat.zero_add] at hall
      have hsignals : ∀ k ∈ g.signals, k < values.length := by
        rw [hall]
        exact h.signals
      obtain ⟨assignment, hassignment⟩ := Option.isSome_iff_exists.mp (mapM_isSome hsignals)
      simp only [hassignment, Option.bind_eq_bind, Option.bind_some]
      split <;> rfl

end WitnessGraph

/-! ### Accepted graphs -/

/-- The size check turns away no body that the rest of the parse accepts. -/
theorem parseGraphBody_iff {signetV2 : Bool} {bytes : List UInt8} {limits : Limits} {g : WitnessGraph} :
    parseGraphBody signetV2 bytes limits = .ok g ↔ parseGraph signetV2 bytes limits = .ok g := by
  constructor
  · intro h
    obtain ⟨⟨header, body⟩, hheader, h₁⟩ := Fallible.bind_ok.mp h
    obtain ⟨⟨⟨built, meter⟩, u⟩, hloop, h₂⟩ := Fallible.bind_ok.mp h₁
    obtain ⟨⟨signals, table⟩, hsignals, h₃⟩ := Fallible.bind_ok.mp h₂
    obtain ⟨⟨mapping, rest⟩, hmapping, h₄⟩ := Fallible.bind_ok.mp h₃
    obtain ⟨_, hrest, -⟩ := Fallible.bind_ok.mp h₄
    obtain rfl : rest = [] := not_not.mp (refuseIf_ok.mp hrest)
    obtain ⟨nodes, haccepted, hparsed, -, hbody⟩ :=
      Signet.parsed_of_parts hheader hloop hsignals hmapping
    have hpreflight := hparsed.fits haccepted
    rw [← hbody] at hpreflight
    exact Fallible.bind_ok.mpr ⟨_, hheader, Fallible.bind_ok.mpr ⟨(), hpreflight, h₁⟩⟩
  · intro h
    obtain ⟨⟨header, body⟩, hheader, h₁⟩ := Fallible.bind_ok.mp h
    obtain ⟨_, _, h₂⟩ := Fallible.bind_ok.mp h₁
    exact Fallible.bind_ok.mpr ⟨_, hheader, h₂⟩

theorem parseGraph_sound {signetV2 : Bool} {bytes : List UInt8} {limits : Limits} {g : WitnessGraph}
    (h : parseGraph signetV2 bytes limits = .ok g) :
    g.Sound ∧ totalCost g.nodes ≤ limits.evaluationCost := by
  obtain ⟨⟨header, body⟩, hheader, h₁⟩ := Fallible.bind_ok.mp h
  obtain ⟨_, _, h₂⟩ := Fallible.bind_ok.mp h₁
  obtain ⟨⟨⟨built, meter⟩, u⟩, hloop, h₃⟩ := Fallible.bind_ok.mp h₂
  obtain ⟨⟨signals, table⟩, hsignals, h₄⟩ := Fallible.bind_ok.mp h₃
  obtain ⟨⟨mapping, rest⟩, hmapping, h₅⟩ := Fallible.bind_ok.mp h₄
  obtain ⟨_, _, h₆⟩ := Fallible.bind_ok.mp h₅
  obtain rfl := Except.ok.inj h₆
  have hsized := (readHeader_reads signetV2 limits).of_ok hheader
  obtain ⟨hcharged, hlength, hcost⟩ := forRecords_charged hsized.nodes hloop
  refine ⟨⟨hcharged.nodes, ?_, (readInputMappings_reads header).of_ok hmapping, hsized.inputs_ne⟩, hcost⟩
  intro node hnode
  have hfit := ((readOutputReferences_reads header).of_ok hsignals).bounded node hnode
  dsimp only
  rw [hlength]
  exact hfit

/-- Parsing stops on no byte string and no limits: with every slice, index, shift and sum checked
the machine gives the same graph or error. An accepted graph is sound, so no evaluation of it
meets an index error; its charge is within the limit, as is that of any part of it while it is
read; and the size check rejects nothing that the parse alone accepts. -/
theorem graph_parsing_safe (signetV2 : Bool) (bytes : List UInt8) (limits : Limits) :
    Machine.parseGraph signetV2 bytes limits = Panic.total (parseGraph signetV2 bytes limits) ∧
    Machine.parseGraph signetV2 bytes limits ≠ .error .panic ∧
    (∀ g, parseGraph signetV2 bytes limits = .ok g → g.Sound ∧
      totalCost g.nodes ≤ limits.evaluationCost ∧
      ∀ serde json, (g.calculateJson serde json).isSome) ∧
    (∀ header body count nodes meter rest, readHeader signetV2 limits bytes = .ok (header, body) →
      count ≤ header.nodeCount →
      forRecords header parseStep count 0 ([], CostMeter.new limits) body = .ok ((nodes, meter), rest) →
      totalCost nodes ≤ limits.evaluationCost) ∧
    (∀ g, parseGraphBody signetV2 bytes limits = .ok g ↔ parseGraph signetV2 bytes limits = .ok g) := by
  have hmachine := Machine.parseGraph_eq signetV2 bytes limits
  refine ⟨hmachine, by rw [hmachine]; exact Panic.total_safe _, ?_, ?_, fun g => parseGraphBody_iff⟩
  · intro g h
    obtain ⟨hsound, hcost⟩ := parseGraph_sound h
    exact ⟨hsound, hcost, fun serde json => hsound.calculateJson_isSome serde json⟩
  · intro header body count nodes meter rest hheader hcount hloop
    have hsized := (readHeader_reads signetV2 limits).of_ok hheader
    exact (forRecords_charged (lt_of_le_of_lt hcount hsized.nodes) hloop).2.2

/-- One input `x`; the nodes `x`, `5`, `x * x`, the inverse of `5`, a division of the two and a
comparison with `x`. -/
def operandsGraph : List UInt8 :=
  Wire.magic ++ leBytes 2 2 ++ leBytes 2 1 ++ leBytes 4 64 ++ List.replicate 32 0 ++
    (leBytes 4 6 ++ leBytes 4 4 ++ leBytes 4 1 ++ leBytes 4 2) ++
    ([0x80, 1] ++ (0x81 :: leBytes 32 5) ++ [0, 2, 2] ++ [0x82, 2] ++ [16, 2, 1] ++ [8, 1, 5]) ++
    [10, 9, 8, 0] ++ (leBytes 8 7 ++ leBytes 4 1 ++ leBytes 4 1)

def operandsNodes : List Node :=
  [.input 1, .constant 5, .operation .mul 0 0, .inverse 1, .operation .div 2 3, .operation .leq 4 0]

theorem graph_parsing_safe_example :
    ∃ g, Machine.parseGraph true operandsGraph Limits.client = .ok g ∧ g.nodes = operandsNodes ∧
      g.signals = [5, 0, 4, 4] ∧ g.Sound ∧ totalCost g.nodes ≤ Limits.client.evaluationCost ∧
      ∀ serde json, (g.calculateJson serde json).isSome := by
  have hread : (parseGraph true operandsGraph Limits.client).map (fun g => (g.nodes, g.signals)) =
      .ok (operandsNodes, [5, 0, 4, 4]) := by
    decide +kernel
  obtain ⟨hmachine, -, haccepted, -⟩ := graph_parsing_safe true operandsGraph Limits.client
  cases h : parseGraph true operandsGraph Limits.client with
  | ok g =>
    rw [h] at hread hmachine
    obtain ⟨hnodes, hsignals⟩ := Prod.mk.inj (Except.ok.inj hread)
    exact ⟨g, hmachine, hnodes, hsignals, haccepted g h⟩
  | error e =>
    rw [h] at hread
    cases hread

end Curvy.Witness
