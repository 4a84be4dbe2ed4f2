import Curvy.Witness.SageCompile

/-!
# Pass two keeps the slot invariant

Releasing the operands, choosing a destination and releasing a result nobody reads are
the steps of slot allocation. An instruction of the result loads what its node reads.
-/

namespace Curvy.Witness.Sage

set_option autoImplicit false

open SlotAlloc

/-- The slot assignment a compiler state stands for. -/
def Slots.alloc (s : Slots) : State where
  slotOf j := s.nodeSlots.getD j 0
  owner x := s.slotOwner.getD x 0
  free := s.freeSlots
  minted := s.slotOwner.length

/-- The liveness table of a program short enough for 32-bit indices. -/
structure Liveness (records : List NodeRecord) (lastUse : List Nat) : Prop where
  uses : LastUse (readsOf records) records.length (useOf lastUse)
  length : lastUse.length = records.length
  bits : records.length < 2 ^ 32

/-- The compiler state before instruction `index` of `n`, with the results `live` in place. -/
structure Allocated (n index : Nat) (live : Set Nat) (s : Slots) : Prop where
  owns : Owns live index s.alloc
  nodeSlots : s.nodeSlots.length = n
  minted : s.slotOwner.length ≤ index

/-- The state at the start of round `index`. -/
structure Ready (n : Nat) (lastUse : List Nat) (index : Nat) (s : Slots) : Prop where
  allocated : Allocated n index (pending (useOf lastUse) index) s
  constants : s.constants.length ≤ index

/-- The fields that releasing slots leaves alone. -/
structure SameSlots (s s' : Slots) : Prop where
  instructions : s'.instructions = s.instructions
  constants : s'.constants = s.constants
  nodeSlots : s'.nodeSlots = s.nodeSlots
  slotOwner : s'.slotOwner = s.slotOwner

theorem SameSlots.refl (s : Slots) : SameSlots s s := ⟨rfl, rfl, rfl, rfl⟩

theorem SameSlots.trans {s t u : Slots} (h : SameSlots s t) (h' : SameSlots t u) :
    SameSlots s u :=
  ⟨h'.instructions.trans h.instructions, h'.constants.trans h.constants,
    h'.nodeSlots.trans h.nodeSlots, h'.slotOwner.trans h.slotOwner⟩

section Steps

variable {records : List NodeRecord} {lastUse : List Nat} {n index : Nat}

theorem useOf_lt {j : Nat} (h : j < lastUse.length) (what : String) :
    getAt lastUse j what = .ok (useOf lastUse j) := getAt_lt what j h

/-! ### Releasing operands -/

/-- Releasing a live operand; it stops being live when this is its last read. -/
theorem release_ok {live : Set Nat} {s : Slots} (h : Allocated n index live s)
    (hn : lastUse.length = n) (hindex : index < n) {j : Nat} (hj : j ∈ live) :
    ∃ s', release lastUse index s j = .ok s' ∧ SameSlots s s' ∧
      Allocated n index (live \ {k | k = j ∧ useOf lastUse k = index}) s' := by
  have hlt : j < n := Nat.lt_trans (h.owns.lt_bound hj) hindex
  have huse : getAt lastUse j "operand liveness" = .ok (useOf lastUse j) :=
    useOf_lt (by omega) _
  unfold release
  rw [huse, Fallible.ok_bind]
  split
  · rename_i hlast
    rw [getAt_lt _ 0 (by rw [h.nodeSlots]; exact hlt), Fallible.ok_bind]
    refine ⟨_, rfl, ⟨rfl, rfl, rfl, rfl⟩, ?_, h.nodeSlots, h.minted⟩
    refine (h.owns.release hj).congr (congrArg (live \ ·) ?_)
    ext k
    simp only [Set.mem_singleton_iff, Set.mem_ofPred_eq]
    exact ⟨fun hk => ⟨hk, hk ▸ hlast⟩, fun hk => hk.1⟩
  · rename_i hlast
    refine ⟨_, rfl, .refl s, ?_, h.nodeSlots, h.minted⟩
    refine h.owns.congr ?_
    ext k
    simp only [Set.mem_sdiff, Set.mem_ofPred_eq]
    exact ⟨fun hk => ⟨hk, fun hkj => hlast (hkj.1 ▸ hkj.2)⟩, fun hk => hk.1⟩

theorem releases_ok (hn : lastUse.length = n) (hindex : index < n) :
    ∀ {releases : List Nat} {live : Set Nat} {s : Slots}, Allocated n index live s →
      releases.Nodup → (∀ j ∈ releases, j ∈ live) →
      ∃ s', releases.foldlM (release lastUse index) s = .ok s' ∧ SameSlots s s' ∧
        Allocated n index (live \ {k | k ∈ releases ∧ useOf lastUse k = index}) s' := by
  intro releases
  induction releases with
  | nil =>
    intro live s h _ _
    refine ⟨s, rfl, .refl s, ?_, h.nodeSlots, h.minted⟩
    exact h.owns.congr (by simp)
  | cons j releases ih =>
    intro live s h hnodup hlive
    obtain ⟨hj, hnodup⟩ := List.nodup_cons.mp hnodup
    obtain ⟨s₁, hrelease, hsame, h₁⟩ := release_ok h hn hindex (hlive j (by simp))
    obtain ⟨s₂, hrest, hsame', h₂⟩ := ih h₁ hnodup fun k hk =>
      ⟨hlive k (by simp [hk]), fun hkj => hj (hkj.1 ▸ hk)⟩
    refine ⟨s₂, by rw [List.foldlM_cons, hrelease]; exact hrest, hsame.trans hsame', ?_⟩
    refine ⟨h₂.owns.congr ?_, h₂.nodeSlots, h₂.minted⟩
    ext k
    simp only [Set.mem_sdiff, Set.mem_ofPred_eq, List.mem_cons]
    tauto

/-! ### Operands -/

/-- The instruction loads what its node reads, from slots of live results. -/
def Loads (inputLen : Nat) (live : Set Nat) (s : Slots) (constants : List Fr)
    (instruction : Instruction) : Node → Prop
  | .input i => instruction.kind = .input ∧ instruction.left = i ∧ i < inputLen
  | .constant v => instruction.kind = .constant ∧ constants[instruction.left]? = some v
  | .operation op left right =>
    instruction.kind = .operation op ∧
      (left ∈ live ∧ instruction.left = s.alloc.slotOf left) ∧
      right ∈ live ∧ instruction.right = s.alloc.slotOf right
  | .inverse source =>
    instruction.kind = .inverse ∧ source ∈ live ∧ instruction.left = s.alloc.slotOf source

/-- What `operands` returns for a record that decodes to `node`. -/
structure OperandsFor (inputLen index : Nat) (live : Set Nat) (s : Slots) (record : NodeRecord)
    (node : Node) (ops : Operands) : Prop where
  loads : ∀ destination, Loads inputLen live s ops.constants
    ⟨ops.left, ops.right, destination, ops.kind⟩ node
  constants : s.constants <+: ops.constants
  constants_le : ops.constants.length ≤ index + 1
  nodup : ops.releases.Nodup
  releases : ∀ j, j ∈ ops.releases ↔ j ∈ record.reads
  right : ops.right = 0 ∨ ∃ operation, ops.kind = .operation operation

theorem materialize_constant (index : Nat) (encoded : List UInt8) :
    materialize index (.constant encoded) = (do
      return .constant (← constantFromBytes encoded index)) := rfl

theorem operands_constant (s : Slots) (index : Nat) (encoded : List UInt8) :
    operands s index (.constant encoded) = (do
      let constantIndex ← indexU32 s.constants.length "constant index"
      let value ← constantFromBytes encoded index
      return ⟨constantIndex, 0, .constant, s.constants ++ [value], []⟩) := rfl

theorem operands_error {s : Slots} {record : NodeRecord} {e : WitnessError}
    (hconst : s.constants.length < 2 ^ 32) (h : materialize index record = .error e) :
    operands s index record = .error e := by
  cases record with
  | constant encoded =>
    rw [materialize_constant] at h
    rw [operands_constant, indexU32_lt _ hconst, Fallible.ok_bind]
    cases hvalue : constantFromBytes encoded index with
    | ok v =>
      rw [hvalue] at h
      cases h
    | error e' =>
      rw [hvalue] at h
      cases h
      rfl
  | _ => cases h

theorem operands_ok {inputLen : Nat} {live : Set Nat} {s : Slots} {record : NodeRecord}
    {node : Node} (h : Allocated n index live s) (hconst : s.constants.length ≤ index)
    (hindex : index < n) (hn : n < 2 ^ 32) (hinput : inputLen < 2 ^ 32) (hvalid : record.Valid inputLen index)
    (hlive : ∀ j ∈ record.reads, j ∈ live) (hnode : materialize index record = .ok node) :
    ∃ ops, operands s index record = .ok ops ∧
      OperandsFor inputLen index live s record node ops := by
  have hslot : ∀ j ∈ live, ∀ what, getAt s.nodeSlots j what = .ok (s.alloc.slotOf j) :=
    fun j hj what => getAt_lt what 0 (by
      have := h.owns.lt_bound hj
      rw [h.nodeSlots]
      omega)
  cases record with
  | input i =>
    cases hnode
    have hi := hvalid.buffered i rfl
    refine ⟨⟨i, 0, .input, s.constants, []⟩, ?_, ?_⟩
    · change (indexU32 i "input index" >>= fun i => pure _) = _
      rw [indexU32_lt _ (by omega)]
      rfl
    · exact {
        loads := fun _ => ⟨rfl, rfl, hi⟩
        constants := List.prefix_rfl
        constants_le := Nat.le_succ_of_le hconst
        nodup := List.nodup_nil
        releases := fun j => ⟨fun hj => (by cases hj), fun hj => hj.elim⟩
        right := .inl rfl }
  | constant encoded =>
    rw [materialize_constant] at hnode
    obtain ⟨v, hv, hnode⟩ := Fallible.bind_ok.mp hnode
    cases hnode
    refine ⟨⟨s.constants.length, 0, .constant, s.constants ++ [v], []⟩, ?_, ?_⟩
    · rw [operands_constant, indexU32_lt _ (by omega), hv]
      rfl
    · exact {
        loads := fun _ => ⟨rfl, by simp⟩
        constants := List.prefix_append _ _
        constants_le := by simpa using hconst
        nodup := List.nodup_nil
        releases := fun j => ⟨fun hj => (by cases hj), fun hj => hj.elim⟩
        right := .inl rfl }
  | operation op left right =>
    cases hnode
    have hleft := hlive left (.inl rfl)
    have hright := hlive right (.inr rfl)
    refine ⟨⟨s.alloc.slotOf left, s.alloc.slotOf right, .operation op, s.constants,
      if left ≠ right then [left, right] else [left]⟩, ?_, ?_⟩
    · simp only [operands, hslot left hleft, hslot right hright]
      rfl
    · exact {
        loads := fun _ => ⟨rfl, ⟨hleft, rfl⟩, hright, rfl⟩
        constants := List.prefix_rfl
        constants_le := Nat.le_succ_of_le hconst
        nodup := by
          split
          · simpa
          · exact List.nodup_singleton left
        releases := by
          intro j
          split
          · simp [NodeRecord.reads]
          · rename_i heq
            simp [NodeRecord.reads, Decidable.not_not.mp heq]
        right := .inr ⟨op, rfl⟩ }
  | inverse source =>
    cases hnode
    have hsource := hlive source rfl
    refine ⟨⟨s.alloc.slotOf source, 0, .inverse, s.constants, [source]⟩, ?_, ?_⟩
    · simp only [operands, hslot source hsource]
      rfl
    · exact {
        loads := fun _ => ⟨rfl, hsource, rfl⟩
        constants := List.prefix_rfl
        constants_le := Nat.le_succ_of_le hconst
        nodup := List.nodup_singleton source
        releases := fun j => by simp [NodeRecord.reads]
        right := .inl rfl }

/-! ### Destinations -/

/-- What choosing a destination does: it places the new result. -/
structure Chosen (index : Nat) (s s' : Slots) (destination : Nat) : Prop where
  instructions : s'.instructions = s.instructions
  constants : s'.constants = s.constants
  nodeSlots : s'.nodeSlots = s.nodeSlots
  placed : { s' with nodeSlots := s.nodeSlots.set index destination : Slots }.alloc =
    s.alloc.place index
  bounded : destination < s'.slotOwner.length
  minted : s.slotOwner.length ≤ s'.slotOwner.length
  minted_le : s'.slotOwner.length ≤ s.slotOwner.length + 1
  fresh : ∀ x, x < s'.slotOwner.length → x < s.slotOwner.length ∨ x = destination

theorem chooseDestination_ok (hn : lastUse.length = n) (hbits : n < 2 ^ 32) (hindex : index < n)
    {s : Slots} (h : Allocated n index (surviving (useOf lastUse) index) s) :
    ∃ destination s', chooseDestination lastUse index s = .ok (destination, s') ∧
      Chosen index s s' destination := by
  have hasU32 : asU32 index = index := asU32_lt (by omega)
  have hset : index < s.nodeSlots.length := by rw [h.nodeSlots]; exact hindex
  unfold chooseDestination
  rw [hasU32]
  cases hfree : s.freeSlots with
  | nil =>
    have hminted := h.minted
    refine ⟨s.slotOwner.length,
      { s with freeSlots := [], slotOwner := s.slotOwner ++ [index] }, ?_, ?_⟩
    · dsimp only
      rw [indexU32_lt _ (by omega)]
      rfl
    · have hfresh : ∀ x, x < (s.slotOwner ++ [index]).length →
          x < s.slotOwner.length ∨ x = s.slotOwner.length := by
        intro x hx
        rw [List.length_append, List.length_singleton] at hx
        omega
      refine ⟨rfl, rfl, rfl, ?_, by simp, by simp, by simp, hfresh⟩
      have hfree' : s.alloc.free = [] := hfree
      unfold State.place
      rw [hfree']
      simp only [Slots.alloc, getD_set_eq_update _ _ _ hset, getD_append_eq_update,
        List.length_append, List.length_singleton, hfree]
  | cons slot freeSlots =>
    have hmem : slot ∈ s.alloc.free := by
      change slot ∈ s.freeSlots
      simp [hfree]
    obtain ⟨hslot, howner, hdead⟩ := h.owns.recycled hmem
    have hslot' : slot < s.slotOwner.length := hslot
    have howner' : s.slotOwner.getD slot 0 < index := howner
    have hexpired : ¬ useOf lastUse (s.slotOwner.getD slot 0) > index :=
      fun hlive => hdead ⟨howner', hlive⟩
    refine ⟨slot, { s with freeSlots, slotOwner := s.slotOwner.set slot index }, ?_, ?_⟩
    · dsimp only
      rw [getAt_lt _ 0 hslot', Fallible.ok_bind, useOf_lt (by omega), Fallible.ok_bind,
        (refuseIf_ok (u := ())).mpr hexpired, setAt_lt _ _ hslot']
      rfl
    · refine ⟨rfl, rfl, rfl, ?_, by simpa using hslot', by simp, by simp,
        fun x hx => .inl (by simpa using hx)⟩
      have hfree' : s.alloc.free = slot :: freeSlots := hfree
      unfold State.place
      rw [hfree']
      simp only [Slots.alloc, getD_set_eq_update _ _ _ hset, getD_set_eq_update _ _ _ hslot',
        List.length_set]

/-! ### One round -/

/-- Round `index` of pass two compiles `node` to `instruction`. -/
structure Step (n inputLen : Nat) (lastUse : List Nat) (index : Nat) (s s' : Slots) (node : Node)
    (instruction : Instruction) : Prop where
  ready : Ready n lastUse (index + 1) s'
  instructions : s'.instructions = s.instructions ++ [instruction]
  constants : s.constants <+: s'.constants
  minted : s.slotOwner.length ≤ s'.slotOwner.length
  loads : Loads inputLen (pending (useOf lastUse) index) s s'.constants instruction node
  destination : instruction.destination < s'.slotOwner.length
  fresh : ∀ x, x < s'.slotOwner.length → x < s.slotOwner.length ∨ x = instruction.destination
  right : instruction.right = 0 ∨ ∃ operation, instruction.kind = .operation operation
  /-- Writing the result to its destination keeps every pending result in its slot. -/
  writes : ∀ {V : Type} (memory value : Nat → V) (v : V),
    Holds (pending (useOf lastUse) index) s.alloc.slotOf memory value →
    Holds (pending (useOf lastUse) (index + 1)) s'.alloc.slotOf
      (Function.update memory instruction.destination v) (Function.update value index v)

theorem pending_diff_reads {record : NodeRecord} (live : Liveness records lastUse)
    (hrecord : records[index]? = some record) :
    pending (useOf lastUse) index \ {k | k ∈ record.reads ∧ useOf lastUse k = index} =
      surviving (useOf lastUse) index := by
  have hreads : readsOf records index = record.reads := by simp [readsOf, hrecord]
  ext k
  constructor
  · rintro ⟨hk, hnot⟩
    rcases live.uses.mem_surviving_or_read hk with hk | ⟨hlast, hread⟩
    · exact hk
    · exact absurd ⟨hreads ▸ hread, hlast⟩ hnot
  · intro hk
    exact ⟨surviving_subset_pending _ _ hk, fun hread => Nat.ne_of_gt hk.2 hread.2⟩

theorem assignStep_error {s : Slots} {record : NodeRecord} {e : WitnessError}
    (hbits : n < 2 ^ 32) (hindex : index < n) (h : Ready n lastUse index s)
    (herror : materialize index record = .error e) :
    assignStep lastUse index record s = .error e := by
  have hconst := h.constants
  unfold assignStep
  rw [operands_error (by omega) herror]
  rfl

/-- The end of a round: the result joins the live ones and leaves them if nobody reads it. -/
theorem place_or_release {s : State} (h : Owns (surviving (useOf lastUse) index) index s)
    (live : LastUse (readsOf records) n (useOf lastUse)) {s' : State}
    (hs' : s' = if useOf lastUse index = index then (s.place index).release index
      else s.place index) :
    Owns (pending (useOf lastUse) (index + 1)) (index + 1) s' := by
  subst hs'
  split
  · rename_i hunread
    exact (h.place.release (.inl rfl)).congr (pending_succ_of_eq hunread).symm
  · rename_i hread
    have hself := live.self_le index
    exact h.place.congr (pending_succ_of_lt (by omega)).symm

theorem assignStep_ok {inputLen : Nat} (live : Liveness records lastUse) {record : NodeRecord}
    (hrecord : records[index]? = some record) (hinput : inputLen < 2 ^ 32)
    (hvalid : record.Valid inputLen index) {s : Slots}
    (h : Ready records.length lastUse index s) {node : Node}
    (hnode : materialize index record = .ok node) :
    ∃ s' instruction, assignStep lastUse index record s = .ok s' ∧
      Step records.length inputLen lastUse index s s' node instruction := by
  obtain ⟨hindex, -⟩ := List.getElem?_eq_some_iff.mp hrecord
  have hreads : readsOf records index = record.reads := by simp [readsOf, hrecord]
  have hpending : ∀ j ∈ record.reads, j ∈ pending (useOf lastUse) index := fun j hj =>
    live.uses.mem_pending hindex (hreads ▸ hj) (hvalid.earlier j hj)
  obtain ⟨ops, hops, hfor⟩ :=
    operands_ok h.allocated h.constants hindex live.bits hinput hvalid hpending hnode
  -- the constant pool plays no part in slot allocation
  have hpool : Allocated records.length index (pending (useOf lastUse) index)
      { s with constants := ops.constants } :=
    ⟨h.allocated.owns, h.allocated.nodeSlots, h.allocated.minted⟩
  obtain ⟨s₁, hrelease, hsame, h₁⟩ := releases_ok live.length hindex hpool hfor.nodup
    fun j hj => hpending j ((hfor.releases j).mp hj)
  have hreleased : Allocated records.length index (surviving (useOf lastUse) index) s₁ := by
    refine ⟨h₁.owns.congr ?_, h₁.nodeSlots, h₁.minted⟩
    simp only [hfor.releases]
    exact pending_diff_reads live hrecord
  obtain ⟨destination, s₂, hchoose, hchosen⟩ :=
    chooseDestination_ok live.length live.bits hindex hreleased
  let instruction : Instruction := ⟨ops.left, ops.right, destination, ops.kind⟩
  let s₃ : Slots := { s₂ with
    instructions := s₂.instructions ++ [instruction]
    nodeSlots := s₂.nodeSlots.set index destination
    freeSlots := if useOf lastUse index = index then destination :: s₂.freeSlots
      else s₂.freeSlots }
  have hnodeSlots : s₂.nodeSlots = s₁.nodeSlots := hchosen.nodeSlots
  have hlength : s₁.nodeSlots.length = records.length := hreleased.nodeSlots
  have hslotOf : (s₁.alloc.place index).slotOf index = destination := by
    rw [← hchosen.placed]
    simp [Slots.alloc, hlength, hindex]
  have halloc : s₃.alloc = if useOf lastUse index = index
      then (s₁.alloc.place index).release index else s₁.alloc.place index := by
    rw [State.release, hslotOf, ← hchosen.placed]
    split
    · simp [s₃, Slots.alloc, *]
    · simp [s₃, Slots.alloc, *]
  have hslots : s₃.alloc.slotOf = (s₁.alloc.place index).slotOf := by
    rw [halloc]
    split <;> rfl
  refine ⟨s₃, instruction, ?_, ?_⟩
  · unfold assignStep
    rw [hops, Fallible.ok_bind, hrelease, Fallible.ok_bind, hchoose, Fallible.ok_bind]
    dsimp only
    rw [setAt_lt _ _ (by rw [hnodeSlots, hlength]; exact hindex), Fallible.ok_bind,
      useOf_lt (by rw [live.length]; exact hindex), Fallible.ok_bind]
    rfl
  · exact {
      ready := {
        allocated := {
          owns := place_or_release hreleased.owns live.uses halloc
          nodeSlots := by simp [s₃, hnodeSlots, hlength]
          minted := by
            have := hchosen.minted_le
            have := hreleased.minted
            change s₂.slotOwner.length ≤ index + 1
            omega }
        constants := by
          change s₂.constants.length ≤ index + 1
          rw [hchosen.constants, hsame.constants]
          exact hfor.constants_le }
      instructions := by
        change s₂.instructions ++ [instruction] = _
        rw [hchosen.instructions, hsame.instructions]
      constants := by
        change s.constants <+: s₂.constants
        rw [hchosen.constants, hsame.constants]
        exact hfor.constants
      minted := by
        change s.slotOwner.length ≤ s₂.slotOwner.length
        rw [← hsame.slotOwner]
        exact hchosen.minted
      loads := by
        change Loads _ _ s s₂.constants instruction node
        rw [hchosen.constants, hsame.constants]
        exact hfor.loads destination
      destination := hchosen.bounded
      fresh := by
        intro x hx
        rw [← hsame.slotOwner]
        exact hchosen.fresh x hx
      right := hfor.right
      writes := by
        intro V memory value v hholds
        have hsame' : s₁.alloc.slotOf = s.alloc.slotOf := by
          simp only [Slots.alloc, hsame.nodeSlots]
        have hsurviving := (hsame' ▸ hholds).mono (surviving_subset_pending (useOf lastUse) index)
        have hwrite := hsurviving.write hreleased.owns v
        rw [hslotOf, ← hslots] at hwrite
        refine hwrite.mono ?_
        by_cases hunread : useOf lastUse index = index
        · rw [pending_succ_of_eq hunread]
          exact Set.sdiff_subset
        · have hself := live.uses.self_le index
          rw [pending_succ_of_lt (by omega)] }

end Steps

/-! ## The whole pass -/

def materializeAll : Nat → List NodeRecord → Except WitnessError (List Node)
  | _, [] => .ok []
  | index, record :: records => do
    let node ← materialize index record
    return node :: (← materializeAll (index + 1) records)

theorem materialize_checked (index : Nat) (record : NodeRecord) :
    Checked (materialize index record) fun _ => True := by
  cases record with
  | constant encoded => exact (constantFromBytes_checked encoded index).bind fun _ _ => .ok trivial
  | _ => exact .ok trivial

theorem materializeAll_checked (index : Nat) (records : List NodeRecord) :
    Checked (materializeAll index records) fun _ => True := by
  induction records generalizing index with
  | nil => exact .ok trivial
  | cons record records ih =>
    unfold materializeAll
    refine (materialize_checked index record).bind fun node _ => ?_
    exact (ih (index + 1)).bind fun _ _ => .ok trivial

theorem materializeAll_length {index : Nat} {records : List NodeRecord} {nodes : List Node}
    (h : materializeAll index records = .ok nodes) : nodes.length = records.length := by
  induction records generalizing index nodes with
  | nil =>
    cases h
    rfl
  | cons record records ih =>
    obtain ⟨node, -, h⟩ := Fallible.bind_ok.mp h
    obtain ⟨tail, htail, h⟩ := Fallible.bind_ok.mp h
    cases h
    rw [List.length_cons, List.length_cons, ih htail]

/-- From state `s` at round `index` the nodes compile to the instructions, ending in `s'`. -/
inductive Compiled (n inputLen : Nat) (lastUse : List Nat) :
    Nat → Slots → List Node → List Instruction → Slots → Prop
  | nil (index : Nat) (s : Slots) : Compiled n inputLen lastUse index s [] [] s
  | cons {index : Nat} {s s₁ s' : Slots} {node : Node} {instruction : Instruction}
      {nodes : List Node} {instructions : List Instruction}
      (step : Step n inputLen lastUse index s s₁ node instruction)
      (rest : Compiled n inputLen lastUse (index + 1) s₁ nodes instructions s') :
      Compiled n inputLen lastUse index s (node :: nodes) (instruction :: instructions) s'

section Pass

variable {records : List NodeRecord} {lastUse : List Nat} {n inputLen index : Nat}

namespace Compiled

variable {s s' : Slots} {nodes : List Node} {instructions : List Instruction}

theorem instructions_eq (h : Compiled n inputLen lastUse index s nodes instructions s') :
    s'.instructions = s.instructions ++ instructions := by
  induction h with
  | nil index s => simp
  | cons step _ ih => rw [ih, step.instructions, List.append_assoc, List.singleton_append]

theorem constants_prefix (h : Compiled n inputLen lastUse index s nodes instructions s') :
    s.constants <+: s'.constants := by
  induction h with
  | nil index s => exact List.prefix_rfl
  | cons step _ ih => exact step.constants.trans ih

theorem minted_le (h : Compiled n inputLen lastUse index s nodes instructions s') :
    s.slotOwner.length ≤ s'.slotOwner.length := by
  induction h with
  | nil index s => exact Nat.le_refl _
  | cons step _ ih => exact Nat.le_trans step.minted ih

end Compiled

/-- Pass two fails exactly where the parser refuses a constant, with the same error. -/
theorem foldRecords_assign (live : Liveness records lastUse) (hinput : inputLen < 2 ^ 32) :
    ∀ (rest done : List NodeRecord) {s : Slots}, records = done ++ rest →
      Grounded inputLen done.length rest → Ready records.length lastUse done.length s →
      (∀ e, materializeAll done.length rest = .error e →
        foldRecords (assignStep lastUse) done.length rest s = .error e) ∧
      ∀ nodes, materializeAll done.length rest = .ok nodes → ∃ s' instructions,
        foldRecords (assignStep lastUse) done.length rest s = .ok s' ∧
        Compiled records.length inputLen lastUse done.length s nodes instructions s' := by
  intro rest
  induction rest with
  | nil =>
    intro done s _ _ _
    refine ⟨fun e he => (by cases he), fun nodes hnodes => ?_⟩
    cases hnodes
    exact ⟨s, [], rfl, .nil _ s⟩
  | cons record rest ih =>
    intro done s hsplit hground hready
    obtain ⟨hvalid, hground⟩ := hground
    have hrecord : records[done.length]? = some record := by simp [hsplit]
    have hindex : done.length < records.length := by simp [hsplit]
    rw [materializeAll, foldRecords]
    cases hnode : materialize done.length record with
    | error e =>
      rw [assignStep_error live.bits hindex hready hnode]
      exact ⟨fun e' he => (by cases he; rfl), fun nodes hnodes => (by cases hnodes)⟩
    | ok node =>
      obtain ⟨s₁, instruction, hstep, step⟩ :=
        assignStep_ok live hrecord hinput hvalid hready hnode
      have hlength : (done ++ [record]).length = done.length + 1 := by simp
      obtain ⟨herror, hok⟩ := ih (done ++ [record]) (s := s₁) (by simp [hsplit])
        (by rw [hlength]; exact hground) (by rw [hlength]; exact step.ready)
      rw [hlength] at herror hok
      rw [hstep, Fallible.ok_bind, Fallible.ok_bind]
      constructor
      · intro e he
        cases hrest : materializeAll (done.length + 1) rest with
        | error e' =>
          rw [hrest] at he
          cases he
          exact herror _ hrest
        | ok nodes =>
          rw [hrest] at he
          cases he
      · intro nodes hnodes
        obtain ⟨tail, htail, hcons⟩ := Fallible.bind_ok.mp hnodes
        cases hcons
        obtain ⟨s', instructions, hfold, hcompiled⟩ := hok tail htail
        exact ⟨s', instruction :: instructions, hfold, .cons step hcompiled⟩

end Pass

end Curvy.Witness.Sage
