import Curvy.Core.NotesFrontierInv
import Curvy.Core.SnapshotBytes

/-!
# Frontier snapshots

The bytes of a frontier and the decoder of arbitrary bytes. The decoder accepts exactly the
bytes of well-formed frontiers, each as the frontier it came from.
-/

namespace Curvy.NotesFrontier

set_option autoImplicit false

open Decoder
open Snapshot
open Witness (Fr)

section Definitions
variable (poseidon : Fr → Fr → Fr)

def snapshotMagic : List UInt8 := [0x43, 0x56, 0x59, 0x46, 0x52, 0x4f, 0x4e, 0x54]
def snapshotVersion : UInt8 := 1
def snapshotHeaderLen : Nat := 24

def encodeSlot : Option Fr → List UInt8
  | some field => 1 :: frToBe32 field
  | none => [0]

def encodeSnapshot (f : NotesFrontier Fr) : List UInt8 :=
  snapshotMagic ++ [snapshotVersion, UInt8.ofNat f.depth, UInt8.ofNat f.shardHeight, 0] ++
    beBytes 8 f.leafCount ++ beBytes 4 f.frontier.length ++ f.frontier.flatMap encodeSlot

def slotOf (flag : UInt8) : Body (Option Fr) :=
  if flag = 0 then return none
  else if flag = 1 then some <$> readField
  else throw (invalid s!"invalid frontier slot flag {flag}")

def readSlot : Body (Option Fr) := do
  let flag ← readByte "truncated frontier slot flag"
  slotOf flag

/-- `leaf_count >> level`. -/
def shiftRight (leafCount level : Nat) : Call Nat := do
  Panic.require (level < usizeBits)
  return leafCount >>> level

/-- The slot loop over the remaining levels. -/
def readSlots (leafCount : Nat) : List Nat → List (Option Fr) → Body (List (Option Fr))
  | [], frontier => return frontier
  | level :: levels, frontier => do
    let slot ← readSlot
    let frontier ← (Panic.expect (frontier.put level slot) : Call _)
    let shifted ← shiftRight leafCount level
    refuseIf (slot.isSome ≠ (shifted &&& 1 == 1))
      s!"frontier slot {level} does not match leaf count {leafCount}"
    readSlots leafCount levels frontier

def fromSnapshotBytes (bytes : List UInt8) : Call (NotesFrontier Fr) := do
  refuseIf (bytes.length < snapshotHeaderLen) "frontier snapshot header is truncated"
  refuseIf (bytes.take 8 ≠ snapshotMagic) "invalid frontier snapshot magic"
  let version ← byteAt bytes 8
  refuseIf (version ≠ snapshotVersion) s!"unsupported frontier snapshot version {version}"
  let reserved ← byteAt bytes 11
  refuseIf (reserved ≠ 0) "frontier snapshot reserved byte is non-zero"
  let depth ← byteAt bytes 9
  let shardHeight ← byteAt bytes 10
  let leafCount ← beAt bytes 12 8
  let slotCount ← beAt bytes 20 4
  let tree ← Snapshot.tree (new poseidon depth.toNat shardHeight.toNat)
  let capacity ← Snapshot.tree (treeCapacity depth.toNat)
  refuseIf (leafCount > capacity)
    s!"frontier leaf count {leafCount} exceeds capacity {capacity}"
  refuseIf (slotCount ≠ depth.toNat + 1)
    s!"frontier snapshot has {slotCount} slots; expected {depth.toNat + 1}"
  let (frontier, rest) ← readSlots leafCount (List.range slotCount) tree.frontier
    (bytes.drop snapshotHeaderLen)
  refuseIf (rest ≠ []) "trailing frontier snapshot bytes"
  return { tree with frontier, leafCount }

end Definitions

/-! ### Slots -/

theorem readSlot_computes : Computes readSlot fun piece slot => piece = encodeSlot slot := by
  refine ((readByte_computes _).bind (S := fun flag back slot =>
    [flag] ++ back = encodeSlot slot) fun _ flag _ => ?_).congr ?_
  · unfold slotOf
    split
    · rename_i hflag
      subst hflag
      refine (Computes.pure none).congr fun back slot => ?_
      cases slot with
      | none => simp [encodeSlot]
      | some x => simp [encodeSlot]
    split
    · rename_i hflag
      subst hflag
      rw [map_eq_pure_bind]
      refine (readField_computes.bind fun _ x _ => Computes.pure (some x)).congr fun back slot => ?_
      constructor
      · rintro ⟨_, x, _, rfl, ⟨rfl, rfl⟩, rfl⟩
        simp [encodeSlot]
      · intro h
        cases slot with
        | none => simp [encodeSlot] at h
        | some x =>
          obtain rfl : back = frToBe32 x := by simpa [encodeSlot] using h
          exact ⟨_, x, [], rfl, ⟨rfl, rfl⟩, (List.append_nil _).symm⟩
    · rename_i hzero hone
      refine ⟨fun _ h => (by cases h), fun bytes slot rest => ?_⟩
      constructor
      · exact fun h => by cases h
      · rintro ⟨back, h, _⟩
        cases slot with
        | none => exact absurd (List.cons.inj h).1 hzero
        | some x => exact absurd (List.cons.inj h).1 hone
  · intro piece slot
    constructor
    · rintro ⟨_, flag, back, rfl, hslot, rfl⟩
      exact hslot
    · rintro rfl
      cases slot with
      | none => exact ⟨[0], 0, [], rfl, rfl, rfl⟩
      | some x => exact ⟨[1], 1, frToBe32 x, rfl, rfl, rfl⟩

/-- The slots from level `k` on that a leaf count asks for. -/
def SlotsFit (leafCount k : Nat) (slots : List (Option Fr)) : Prop :=
  ∀ j slot, slots[j]? = some slot → (slot.isSome ↔ leafCount / 2 ^ (k + j) % 2 = 1)

theorem slotsFit_cons {leafCount k : Nat} {slot : Option Fr} {slots : List (Option Fr)} :
    SlotsFit leafCount k (slot :: slots) ↔
      (slot.isSome ↔ leafCount / 2 ^ k % 2 = 1) ∧ SlotsFit leafCount (k + 1) slots := by
  constructor
  · intro h
    refine ⟨h 0 slot rfl, fun j s hs => ?_⟩
    have := h (j + 1) s hs
    rwa [show k + 1 + j = k + (j + 1) by omega]
  · rintro ⟨hslot, hslots⟩ j s hs
    cases j with
    | zero =>
      obtain rfl := Option.some.inj hs
      exact hslot
    | succ j =>
      have := hslots j s hs
      rwa [show k + (j + 1) = k + 1 + j by omega]

theorem readSlots_computes (leafCount : Nat) {k m : Nat} (hm : k + m ≤ usizeBits)
    {frontier : List (Option Fr)} (hlength : frontier.length = k + m) :
    Computes (readSlots leafCount (List.range' k m) frontier) fun piece out =>
      ∃ slots, slots.length = m ∧ SlotsFit leafCount k slots ∧ piece = slots.flatMap encodeSlot ∧
        out = frontier.take k ++ slots := by
  induction m generalizing k frontier with
  | zero =>
    refine (Computes.pure frontier).congr fun piece out => ?_
    have htake : frontier.take k = frontier := List.take_of_length_le (by omega)
    constructor
    · rintro ⟨rfl, rfl⟩
      exact ⟨[], rfl, fun j slot h => (by cases h), rfl, by rw [htake, List.append_nil]⟩
    · rintro ⟨slots, hslots, _, rfl, rfl⟩
      obtain rfl := List.eq_nil_of_length_eq_zero hslots
      exact ⟨rfl, by rw [htake, List.append_nil]⟩
  | succ m ih =>
    have hk : k < frontier.length := by omega
    have hput : ∀ slot : Option Fr, (Panic.expect (frontier.put k slot) : Call _) =
        .ok (frontier.set k slot) := by
      intro slot
      rw [List.put, if_pos hk]
      rfl
    have hshift : shiftRight leafCount k = .ok (leafCount >>> k) := by
      rw [shiftRight, Panic.require, if_pos (by omega)]
      rfl
    have hbit : ∀ slot : Option Fr, (¬ slot.isSome ≠ (leafCount >>> k &&& 1 == 1)) ↔
        (slot.isSome ↔ leafCount / 2 ^ k % 2 = 1) := by
      intro slot
      rw [not_not, Bool.eq_iff_iff, beq_iff_eq, Nat.shiftRight_eq_div_pow, Nat.and_one_is_mod]
    have hset : ∀ slot : Option Fr, (frontier.set k slot).take (k + 1) = frontier.take k ++ [slot] := by
      intro slot
      rw [List.take_add_one, List.take_set_of_le (Nat.le_refl k),
        List.getElem?_set_self hk, Option.toList_some]
    rw [List.range'_succ, readSlots]
    refine (readSlot_computes.bind fun _ slot _ => .value (hput slot) (.value hshift
      (Computes.refuse fun _ => ih (by omega) (by rw [List.length_set]; omega)))).congr ?_
    intro piece out
    constructor
    · rintro ⟨_, slot, _, rfl, ⟨hok, slots, hlen, hfit, rfl, rfl⟩, rfl⟩
      refine ⟨slot :: slots, by rw [List.length_cons, hlen],
        slotsFit_cons.mpr ⟨(hbit slot).mp hok, hfit⟩, List.flatMap_cons.symm, ?_⟩
      rw [hset, List.append_assoc, List.singleton_append]
    · rintro ⟨all, hlen, hfit, rfl, rfl⟩
      obtain ⟨slot, slots, rfl⟩ := List.exists_cons_of_length_eq_add_one hlen
      obtain ⟨hslot, hslots⟩ := slotsFit_cons.mp hfit
      refine ⟨_, slot, _, rfl, ⟨(hbit slot).mpr hslot, slots, by simpa using hlen, hslots, rfl, ?_⟩,
        List.flatMap_cons⟩
      rw [hset, List.append_assoc, List.singleton_append]

/-! ### Snapshots -/

section Snapshots
variable {poseidon : Fr → Fr → Fr} {bytes : List UInt8} {f : NotesFrontier Fr}

/-- The fields of a snapshot header, by offset. -/
theorem header_split (bytes : List UInt8) : bytes = bytes.take 8 ++ (bytes.drop 8).take 4 ++
    (bytes.drop 12).take 8 ++ (bytes.drop 20).take 4 ++ bytes.drop 24 := by
  have hmagic := List.take_append_drop 8 bytes
  have hbytes := List.take_append_drop 4 (bytes.drop 8)
  have hcount := List.take_append_drop 8 (bytes.drop 12)
  have hslots := List.take_append_drop 4 (bytes.drop 20)
  rw [List.drop_drop] at hbytes hcount hslots
  rw [List.append_assoc, hslots, List.append_assoc, hcount, List.append_assoc, hbytes, hmagic]

theorem fromSnapshotBytes_sound (h : fromSnapshotBytes poseidon bytes = .ok f) :
    WellFormed poseidon f ∧ bytes = encodeSnapshot f := by
  obtain ⟨_, hlength, h₁⟩ := Fallible.bind_ok.mp h
  obtain ⟨_, hmagic, h₂⟩ := Fallible.bind_ok.mp h₁
  obtain ⟨version, hversion, h₃⟩ := Fallible.bind_ok.mp h₂
  obtain ⟨_, hone, h₄⟩ := Fallible.bind_ok.mp h₃
  obtain ⟨reserved, hreserved, h₅⟩ := Fallible.bind_ok.mp h₄
  obtain ⟨_, hzero, h₆⟩ := Fallible.bind_ok.mp h₅
  obtain ⟨depth, hdepth, h₇⟩ := Fallible.bind_ok.mp h₆
  obtain ⟨shardHeight, hheight, h₈⟩ := Fallible.bind_ok.mp h₇
  obtain ⟨leafCount, hcount, h₉⟩ := Fallible.bind_ok.mp h₈
  obtain ⟨slotCount, hslotCount, h₁₀⟩ := Fallible.bind_ok.mp h₉
  obtain ⟨tree, hnew, h₁₁⟩ := Fallible.bind_ok.mp h₁₀
  obtain ⟨capacity, hcapacity, h₁₂⟩ := Fallible.bind_ok.mp h₁₁
  obtain ⟨_, hfits, h₁₃⟩ := Fallible.bind_ok.mp h₁₂
  obtain ⟨_, hslots, h₁₄⟩ := Fallible.bind_ok.mp h₁₃
  obtain ⟨⟨frontier, rest⟩, hread, h₁₅⟩ := Fallible.bind_ok.mp h₁₄
  obtain ⟨_, hrest, h₁₆⟩ := Fallible.bind_ok.mp h₁₅
  obtain rfl := Except.ok.inj h₁₆
  have hlen := Nat.not_lt.mp (refuseIf_ok.mp hlength)
  rw [snapshotHeaderLen] at hlen
  obtain rfl := not_not.mp (refuseIf_ok.mp hone)
  obtain rfl := not_not.mp (refuseIf_ok.mp hzero)
  obtain rfl := not_not.mp (refuseIf_ok.mp hslots)
  obtain rfl := not_not.mp (refuseIf_ok.mp hrest)
  obtain ⟨hpos, hlt, hwidth, rfl⟩ := new_eq_ok poseidon (tree_ok.mp hnew)
  rw [treeCapacity_ok hwidth] at hcapacity
  obtain rfl := Except.ok.inj hcapacity
  rw [beAt_of_le (by omega)] at hcount hslotCount
  obtain rfl := Except.ok.inj hcount
  have hslotCount := Except.ok.inj hslotCount
  rw [List.range_eq_range'] at hread
  obtain ⟨piece, ⟨slots, hslotsLength, hfit, rfl, hfrontier⟩, hpayload⟩ :=
    ((readSlots_computes _ (by omega) (by rw [Nat.zero_add]; exact List.tabulate_length _ _)).ok
      _ _ _).mp hread
  rw [List.take_zero, List.nil_append] at hfrontier
  subst hfrontier
  refine ⟨⟨hpos, hlt, hwidth, rfl, Nat.not_lt.mp (refuseIf_ok.mp hfits),
    (Imt.zeroRoots_eq poseidon _).symm, hslotsLength, ?_⟩, ?_⟩
  · intro level slot hslot
    have := hfit level slot hslot
    rwa [Nat.zero_add] at this
  · have hcut : ((bytes.drop 12).take 8).length = 8 := by
      rw [List.length_take, List.length_drop]
      omega
    have hcut' : ((bytes.drop 20).take 4).length = 4 := by
      rw [List.length_take, List.length_drop]
      omega
    have hcountBytes := beBytes_beNat ((bytes.drop 12).take 8)
    have hslotBytes := beBytes_beNat ((bytes.drop 20).take 4)
    rw [hcut] at hcountBytes
    rw [hcut', hslotCount] at hslotBytes
    rw [List.append_nil] at hpayload
    conv_lhs => rw [header_split bytes]
    rw [not_not.mp (refuseIf_ok.mp hmagic), four_bytes hversion hdepth hheight hreserved,
      encodeSnapshot, hcountBytes]
    dsimp only [ofLeaves]
    rw [hslotsLength, hslotBytes, UInt8.ofNat_toNat, UInt8.ofNat_toNat]
    exact congrArg _ hpayload

theorem fromSnapshotBytes_complete (h : WellFormed poseidon f) :
    fromSnapshotBytes poseidon (encodeSnapshot f) = .ok f := by
  obtain ⟨depth, shardHeight, shardSize, leafCount, frontier, zeroes⟩ := f
  obtain ⟨hpos, hlt, hwidth, hsize, hfits, hzeroes, hslots, hpresent⟩ := h
  dsimp only at hpos hlt hwidth hsize hfits hzeroes hslots hpresent
  have hbits : usizeBits = 64 := rfl
  have hbyte : UInt8.size = 256 := rfl
  have hd : (UInt8.ofNat depth).toNat = depth := UInt8.toNat_ofNat_of_lt' (by omega)
  have hs : (UInt8.ofNat shardHeight).toNat = shardHeight := UInt8.toNat_ofNat_of_lt' (by omega)
  have hcount : leafCount < 256 ^ 8 := by
    refine hfits.trans_lt (lt_of_le_of_lt (Nat.pow_le_pow_right (by decide)
      (show depth ≤ 63 by omega)) (by decide))
  have hslotCount : frontier.length < 256 ^ 4 := by omega
  generalize hbytes : encodeSnapshot _ = bytes
  have hcountAt : bytes.drop 12 = beBytes 8 leafCount ++
      (beBytes 4 frontier.length ++ frontier.flatMap encodeSlot) := by
    rw [← hbytes, encodeSnapshot, List.append_assoc, List.append_assoc]
    rfl
  have hslotsAt : bytes.drop 20 = beBytes 4 frontier.length ++ frontier.flatMap encodeSlot := by
    rw [show 20 = 12 + 8 from rfl, ← List.drop_drop, hcountAt, List.drop_left' (beBytes_length _ _)]
  have hpayload : bytes.drop snapshotHeaderLen = frontier.flatMap encodeSlot := by
    rw [show snapshotHeaderLen = 20 + 4 from rfl, ← List.drop_drop, hslotsAt,
      List.drop_left' (beBytes_length _ _)]
  have hlen : snapshotHeaderLen ≤ bytes.length := by
    rw [← hbytes, encodeSnapshot]
    simp only [List.length_append, beBytes_length]
    exact Nat.le_add_right _ _
  have hfixed : bytes.take 8 = snapshotMagic ∧ byteAt bytes 8 = .ok snapshotVersion ∧
      byteAt bytes 11 = .ok 0 ∧ byteAt bytes 9 = .ok (UInt8.ofNat depth) ∧
      byteAt bytes 10 = .ok (UInt8.ofNat shardHeight) := by
    rw [← hbytes]
    exact ⟨rfl, rfl, rfl, rfl, rfl⟩
  obtain ⟨hmagic, hversion, hreserved, hdepth, hheight⟩ := hfixed
  have hreadCount : beAt bytes 12 8 = .ok leafCount := by
    rw [beAt_of_le (by rw [snapshotHeaderLen] at hlen; omega), hcountAt,
      List.take_left' (beBytes_length _ _), beNat_beBytes hcount]
  have hreadSlots : beAt bytes 20 4 = .ok frontier.length := by
    rw [beAt_of_le (by rw [snapshotHeaderLen] at hlen; omega), hslotsAt,
      List.take_left' (beBytes_length _ _), beNat_beBytes hslotCount]
  have hfrontier : readSlots leafCount (List.range frontier.length)
      (ofLeaves poseidon depth shardHeight []).frontier (bytes.drop snapshotHeaderLen) =
      .ok (frontier, []) := by
    rw [List.range_eq_range', hpayload]
    refine ((readSlots_computes leafCount (by omega) ?_).ok _ _ _).mpr
      ⟨_, ⟨frontier, rfl, ?_, rfl, ?_⟩, (List.append_nil _).symm⟩
    · rw [Nat.zero_add, hslots]
      exact List.tabulate_length _ _
    · intro j slot hslot
      rw [Nat.zero_add]
      exact hpresent j slot hslot
    · rw [List.take_zero, List.nil_append]
  refine Fallible.bind_ok.mpr ⟨(), refuseIf_ok.mpr (Nat.not_lt.mpr hlen), ?_⟩
  refine Fallible.bind_ok.mpr ⟨(), refuseIf_ok.mpr (not_not.mpr hmagic), ?_⟩
  refine Fallible.bind_ok.mpr ⟨_, hversion, ?_⟩
  refine Fallible.bind_ok.mpr ⟨(), refuseIf_ok.mpr (not_not.mpr rfl), ?_⟩
  refine Fallible.bind_ok.mpr ⟨_, hreserved, ?_⟩
  refine Fallible.bind_ok.mpr ⟨(), refuseIf_ok.mpr (not_not.mpr rfl), ?_⟩
  refine Fallible.bind_ok.mpr ⟨_, hdepth, Fallible.bind_ok.mpr ⟨_, hheight, ?_⟩⟩
  refine Fallible.bind_ok.mpr ⟨_, hreadCount, Fallible.bind_ok.mpr ⟨_, hreadSlots, ?_⟩⟩
  rw [hd, hs]
  refine Fallible.bind_ok.mpr ⟨_, tree_ok.mpr (new_eq poseidon hpos hlt hwidth), ?_⟩
  refine Fallible.bind_ok.mpr ⟨_, tree_ok.mpr (treeCapacity_ok hwidth), ?_⟩
  refine Fallible.bind_ok.mpr ⟨(), refuseIf_ok.mpr (Nat.not_lt.mpr hfits), ?_⟩
  refine Fallible.bind_ok.mpr ⟨(), refuseIf_ok.mpr (not_not.mpr hslots), ?_⟩
  refine Fallible.bind_ok.mpr ⟨_, hfrontier, ?_⟩
  refine Fallible.bind_ok.mpr ⟨(), refuseIf_ok.mpr (not_not.mpr rfl), ?_⟩
  rw [hsize, hzeroes, Imt.zeroRoots_eq]
  rfl

theorem fromSnapshotBytes_safe (poseidon : Fr → Fr → Fr) (bytes : List UInt8) :
    fromSnapshotBytes poseidon bytes ≠ .error .panic := by
  refine Panic.bind_safe refuseIf_safe fun _ hlength => ?_
  have hlen := Nat.not_lt.mp (refuseIf_ok.mp hlength)
  have hbyte : ∀ i, i < snapshotHeaderLen → byteAt bytes i ≠ .error .panic := by
    intro i hi
    rw [byteAt_of_lt (by omega)]
    exact fun h => by cases h
  have hslice : ∀ offset width, offset + width ≤ snapshotHeaderLen →
      beAt bytes offset width ≠ .error .panic := by
    intro offset width hend
    rw [beAt_of_le (by omega)]
    exact fun h => by cases h
  refine Panic.bind_safe refuseIf_safe fun _ _ => ?_
  refine Panic.bind_safe (hbyte 8 (by decide)) fun _ _ => ?_
  refine Panic.bind_safe refuseIf_safe fun _ _ => ?_
  refine Panic.bind_safe (hbyte 11 (by decide)) fun _ _ => ?_
  refine Panic.bind_safe refuseIf_safe fun _ _ => ?_
  refine Panic.bind_safe (hbyte 9 (by decide)) fun depth _ => ?_
  refine Panic.bind_safe (hbyte 10 (by decide)) fun shardHeight _ => ?_
  refine Panic.bind_safe (hslice 12 8 (by decide)) fun leafCount _ => ?_
  refine Panic.bind_safe (hslice 20 4 (by decide)) fun slotCount _ => ?_
  refine Panic.bind_safe tree_safe fun tree hnew => ?_
  obtain ⟨_, _, hwidth, rfl⟩ := new_eq_ok poseidon (tree_ok.mp hnew)
  refine Panic.bind_safe tree_safe fun _ _ => ?_
  refine Panic.bind_safe refuseIf_safe fun _ _ => ?_
  refine Panic.bind_safe refuseIf_safe fun _ hslots => ?_
  rw [not_not.mp (refuseIf_ok.mp hslots), List.range_eq_range']
  refine Panic.bind_safe ((readSlots_computes _ (by omega) ?_).safe _) fun _ _ => ?_
  · rw [Nat.zero_add]
    exact List.tabulate_length _ _
  · exact Panic.bind_safe refuseIf_safe fun _ _ h => by cases h

end Snapshots

/-! ### Reachable frontiers -/

section Reachable
variable {poseidon : Fr → Fr → Fr} {f f' : NotesFrontier Fr}

/-- New frontiers, restored ones, and what any call leaves behind. -/
inductive Reachable (poseidon : Fr → Fr → Fr) : NotesFrontier Fr → Prop where
  | new {depth shardHeight : Nat} {f : NotesFrontier Fr} (h : new poseidon depth shardHeight = .ok f) :
      Reachable poseidon f
  | restored {bytes : List UInt8} {f : NotesFrontier Fr}
      (h : fromSnapshotBytes poseidon bytes = .ok f) : Reachable poseidon f
  | step {f f' : NotesFrontier Fr} {op : Op Fr} {result : Except TreeError (Reply Fr)}
      (hf : Reachable poseidon f) (h : step poseidon f op = some (result, f')) :
      Reachable poseidon f'

theorem Reachable.wellFormed (h : Reachable poseidon f) : WellFormed poseidon f := by
  induction h with
  | new h => exact new_wellFormed h
  | restored h => exact (fromSnapshotBytes_sound h).1
  | step _ h ih => exact ih.step h

/-- Reachable frontiers survive their bytes; any other bytes are refused by an error. -/
theorem snapshot_exact (poseidon : Fr → Fr → Fr) :
    (∀ f, Reachable poseidon f → WellFormed poseidon f ∧
      fromSnapshotBytes poseidon (encodeSnapshot f) = .ok f) ∧
    (∀ bytes f, fromSnapshotBytes poseidon bytes = .ok f →
      encodeSnapshot f = bytes ∧ WellFormed poseidon f) ∧
    ∀ bytes, (∀ f, fromSnapshotBytes poseidon bytes ≠ .ok f) →
      ∃ e, fromSnapshotBytes poseidon bytes = .error (.error e) := by
  refine ⟨fun f hf => ⟨hf.wellFormed, fromSnapshotBytes_complete hf.wellFormed⟩, ?_, ?_⟩
  · intro bytes f h
    obtain ⟨hwf, rfl⟩ := fromSnapshotBytes_sound h
    exact ⟨rfl, hwf⟩
  · intro bytes hrejected
    have hsafe := fromSnapshotBytes_safe poseidon bytes
    rcases hdecoded : fromSnapshotBytes poseidon bytes with (_ | e) | f
    · exact absurd hdecoded hsafe
    · exact ⟨e, rfl⟩
    · exact absurd hdecoded (hrejected f)

/-- A full tree of depth two, whose only node is in the slot above the levels, and a cut header. -/
theorem snapshot_exact_example :
    fromSnapshotBytes (· + ·) (encodeSnapshot (ofLeaves (· + ·) 2 1 [5, 6, 7, 8])) =
      .ok (ofLeaves (· + ·) 2 1 [5, 6, 7, 8]) ∧
    WellFormed (F := Fr) (· + ·) (ofLeaves (· + ·) 2 1 [5, 6, 7, 8]) ∧
    ∃ e, fromSnapshotBytes (· + ·) [0x43] = .error (.error e) := by
  obtain ⟨hreach, hbytes, hother⟩ := snapshot_exact (· + ·)
  have hnew : Reachable (· + ·) (ofLeaves (F := Fr) (· + ·) 2 1 []) :=
    .new (new_eq _ (by decide) (by decide) (by decide))
  have hfull : step (· + ·) (ofLeaves (F := Fr) (· + ·) 2 1 []) (.appendAll [5, 6, 7, 8]) =
      some (.ok .done, ofLeaves (· + ·) 2 1 [5, 6, 7, 8]) := by
    rw [step, appendAll_ofLeaves _ (by decide) (by decide) _ (by decide)]
    rfl
  have hread := (hreach _ (hnew.step hfull)).2
  refine ⟨hread, (hbytes _ _ hread).2, hother _ fun f hf => ?_⟩
  obtain ⟨_, hlength, _⟩ := Fallible.bind_ok.mp hf
  exact absurd (by decide) (refuseIf_ok.mp hlength)

end Reachable

end Curvy.NotesFrontier
