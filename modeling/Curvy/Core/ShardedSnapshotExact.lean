import Curvy.Core.ShardedSnapshot

/-!
# The sharded-tree snapshot codec is exact

A snapshot has bytes exactly when it fits, and then one spelling. The decoder accepts that
spelling and nothing else, under any allocator that grants what the input pays for.
-/

namespace Curvy.ShardedTreeSnapshot

set_option autoImplicit false

open Decoder
open Snapshot
open Witness (Fr)

/-! ### The checks -/

theorem checkGeometry_ok {depth shardHeight : Nat} {u : Unit} :
    checkGeometry depth shardHeight = .ok u ↔ 0 < shardHeight ∧ shardHeight < depth := by
  rw [checkGeometry, Panic.refuse_ok]
  omega

theorem treeCapacity_eq {depth capacity : Nat} :
    treeCapacity depth = .ok capacity ↔ depth < usizeBits ∧ capacity = 2 ^ depth := by
  unfold treeCapacity
  split
  · simp only [Except.ok.injEq, true_and, *]
    exact eq_comm
  · simp [*]

/-- What both directions ask of the counts. -/
structure CountsFit (depth shardHeight completedCount liveCount : Nat) : Prop where
  shardWidth : shardHeight < usizeBits
  capWidth : depth - shardHeight < usizeBits
  completed : completedCount ≤ 2 ^ (depth - shardHeight)
  live : liveCount < 2 ^ shardHeight
  room : completedCount = 2 ^ (depth - shardHeight) → liveCount = 0

theorem checkCounts_ok {depth shardHeight completedCount liveCount : Nat} {u : Unit} :
    checkCounts depth shardHeight completedCount liveCount = .ok u ↔
      CountsFit depth shardHeight completedCount liveCount := by
  constructor
  · intro h
    obtain ⟨shardSize, hsize, h₁⟩ := Fallible.bind_ok.mp h
    obtain ⟨maxShards, hmax, h₂⟩ := Fallible.bind_ok.mp h₁
    obtain ⟨_, hcompleted, h₃⟩ := Fallible.bind_ok.mp h₂
    obtain ⟨_, hlive, h₄⟩ := Fallible.bind_ok.mp h₃
    obtain ⟨hshardWidth, rfl⟩ := treeCapacity_eq.mp (tree_ok.mp hsize)
    obtain ⟨hcapWidth, rfl⟩ := treeCapacity_eq.mp (tree_ok.mp hmax)
    refine ⟨hshardWidth, hcapWidth, Nat.not_lt.mp (refuseIf_ok.mp hcompleted),
      Nat.not_le.mp (refuseIf_ok.mp hlive), fun hall => ?_⟩
    exact not_not.mp fun hlive => refuseIf_ok.mp h₄ ⟨hall, hlive⟩
  · intro h
    refine Fallible.bind_ok.mpr ⟨_, tree_ok.mpr (treeCapacity_ok h.shardWidth), ?_⟩
    refine Fallible.bind_ok.mpr ⟨_, tree_ok.mpr (treeCapacity_ok h.capWidth), ?_⟩
    refine Fallible.bind_ok.mpr ⟨(), refuseIf_ok.mpr (Nat.not_lt.mpr h.completed), ?_⟩
    refine Fallible.bind_ok.mpr ⟨(), refuseIf_ok.mpr (Nat.not_le.mpr h.live), ?_⟩
    exact refuseIf_ok.mpr fun hbad => hbad.2 (h.room hbad.1)

theorem checkCounts_safe {depth shardHeight completedCount liveCount : Nat} :
    checkCounts depth shardHeight completedCount liveCount ≠ .error .panic :=
  Panic.bind_safe tree_safe fun _ _ => Panic.bind_safe tree_safe fun _ _ =>
    Panic.bind_safe refuseIf_safe fun _ _ => Panic.bind_safe refuseIf_safe fun _ _ => refuseIf_safe

theorem checked_ok {value n : Nat} {message : String} :
    checked value message = .ok n ↔ value < 2 ^ 64 ∧ n = value := by
  rw [checked, Fallible.bind_ok]
  constructor
  · rintro ⟨_, hfits, hn⟩
    exact ⟨Nat.not_le.mp (refuseIf_ok.mp hfits), (Except.ok.inj hn).symm⟩
  · rintro ⟨hfits, rfl⟩
    exact ⟨(), refuseIf_ok.mpr (Nat.not_le.mpr hfits), rfl⟩

theorem checked_safe {value : Nat} {message : String} : checked value message ≠ .error .panic :=
  Panic.bind_safe refuseIf_safe fun _ _ h => by cases h

theorem narrow_ok {width value : Nat} {message : String} {bytes : List UInt8} :
    narrow width value message = .ok bytes ↔ value < 256 ^ width ∧ bytes = beBytes width value := by
  rw [narrow, Fallible.bind_ok]
  constructor
  · rintro ⟨_, hfits, hbytes⟩
    exact ⟨Nat.not_le.mp (refuseIf_ok.mp hfits), (Except.ok.inj hbytes).symm⟩
  · rintro ⟨hfits, rfl⟩
    exact ⟨(), refuseIf_ok.mpr (Nat.not_le.mpr hfits), rfl⟩

/-! ### Spellings -/

structure OwnedFits (shardHeight : Nat) (owned : OwnedNoteWitness Fr) : Prop where
  leafIndex : owned.leafIndex < 256 ^ 4
  path : ∀ siblings, owned.withinShardSiblings = some siblings → siblings.length = shardHeight

def spellOwned (owned : OwnedNoteWitness Fr) : List UInt8 :=
  frToBe32 owned.noteId ++ beBytes 4 owned.leafIndex ++
    [flagOf owned.withinShardSiblings, 0, 0, 0] ++
    appendFields (owned.withinShardSiblings.getD [])

/-- The snapshots that have bytes. -/
structure Fits (s : ShardedTreeSnapshot Fr) : Prop where
  shardHeight_pos : 0 < s.shardHeight
  shardHeight_lt : s.shardHeight < s.depth
  counts : CountsFit s.depth s.shardHeight s.completedRoots.length s.liveLeaves.length
  completedCount : s.completedRoots.length < 256 ^ 4
  liveCount : s.liveLeaves.length < 256 ^ 4
  ownedCount : s.ownedNotes.length < 256 ^ 4
  owned : ∀ owned ∈ s.ownedNotes, OwnedFits s.shardHeight owned

def spellBody (s : ShardedTreeSnapshot Fr) : List UInt8 :=
  appendFields s.completedRoots ++ appendFields s.liveLeaves ++ s.ownedNotes.flatMap spellOwned

def spell (s : ShardedTreeSnapshot Fr) : List UInt8 :=
  snapshotMagic ++ ([snapshotVersion] ++ beBytes 1 s.depth ++ beBytes 1 s.shardHeight ++ [0]) ++
    beBytes 4 s.completedRoots.length ++ beBytes 4 s.liveLeaves.length ++
    beBytes 4 s.ownedNotes.length ++ spellBody s

theorem Fits.depth_lt {s : ShardedTreeSnapshot Fr} (h : Fits s) : s.depth < 2 * usizeBits := by
  have := h.counts.shardWidth
  have := h.counts.capWidth
  omega

/-! ### Encoding -/

section Encode
variable {s : ShardedTreeSnapshot Fr} {bytes : List UInt8} {shardHeight : Nat}

theorem encodePath_ok {path : Option (List Fr)} :
    encodePath shardHeight path = .ok bytes ↔
      (∀ siblings, path = some siblings → siblings.length = shardHeight) ∧
        bytes = appendFields (path.getD []) := by
  cases path with
  | none =>
    constructor
    · exact fun h => ⟨fun _ hpath => (by cases hpath), (Except.ok.inj h).symm⟩
    · rintro ⟨_, rfl⟩
      rfl
  | some siblings =>
    rw [encodePath, Fallible.bind_ok]
    constructor
    · rintro ⟨_, hlength, hbytes⟩
      refine ⟨?_, (Except.ok.inj hbytes).symm⟩
      intro _ hpath
      obtain rfl := Option.some.inj hpath
      exact not_not.mp (Panic.refuse_ok.mp hlength)
    · rintro ⟨hlength, rfl⟩
      exact ⟨(), Panic.refuse_ok.mpr (not_not.mpr (hlength siblings rfl)), rfl⟩

theorem encodeOwned_ok {owned : OwnedNoteWitness Fr} :
    encodeOwned shardHeight owned = .ok bytes ↔
      OwnedFits shardHeight owned ∧ bytes = spellOwned owned := by
  constructor
  · intro h
    obtain ⟨_, hindex, h₁⟩ := Fallible.bind_ok.mp h
    obtain ⟨_, hpath, h₂⟩ := Fallible.bind_ok.mp h₁
    obtain ⟨hfits, rfl⟩ := narrow_ok.mp hindex
    obtain ⟨hlength, rfl⟩ := encodePath_ok.mp hpath
    exact ⟨⟨hfits, hlength⟩, (Except.ok.inj h₂).symm⟩
  · rintro ⟨⟨hfits, hlength⟩, rfl⟩
    refine Fallible.bind_ok.mpr ⟨_, narrow_ok.mpr ⟨hfits, rfl⟩, ?_⟩
    exact Fallible.bind_ok.mpr ⟨_, encodePath_ok.mpr ⟨hlength, rfl⟩, rfl⟩

theorem encodeEach_ok {owned : List (OwnedNoteWitness Fr)} :
    encodeEach shardHeight owned = .ok bytes ↔
      (∀ note ∈ owned, OwnedFits shardHeight note) ∧ bytes = owned.flatMap spellOwned := by
  induction owned generalizing bytes with
  | nil =>
    constructor
    · exact fun h => ⟨fun _ hmem => (by cases hmem), (Except.ok.inj h).symm⟩
    · rintro ⟨_, rfl⟩
      rfl
  | cons note owned ih =>
    rw [List.forall_mem_cons, List.flatMap_cons]
    constructor
    · intro h
      obtain ⟨_, hnote, h₁⟩ := Fallible.bind_ok.mp h
      obtain ⟨_, howned, h₂⟩ := Fallible.bind_ok.mp h₁
      obtain ⟨hfits, rfl⟩ := encodeOwned_ok.mp hnote
      obtain ⟨hall, rfl⟩ := ih.mp howned
      exact ⟨⟨hfits, hall⟩, (Except.ok.inj h₂).symm⟩
    · rintro ⟨⟨hfits, hall⟩, rfl⟩
      refine Fallible.bind_ok.mpr ⟨_, encodeOwned_ok.mpr ⟨hfits, rfl⟩, ?_⟩
      exact Fallible.bind_ok.mpr ⟨_, ih.mpr ⟨hall, rfl⟩, rfl⟩

theorem siblingsCount_le {owned : List (OwnedNoteWitness Fr)}
    (h : ∀ note ∈ owned, OwnedFits shardHeight note) :
    siblingsCount owned ≤ owned.length * shardHeight := by
  induction owned with
  | nil => exact Nat.zero_le _
  | cons note owned ih =>
    obtain ⟨hnote, howned⟩ := List.forall_mem_cons.mp h
    have hcount : note.withinShardSiblings.elim 0 List.length ≤ shardHeight := by
      cases hpath : note.withinShardSiblings with
      | none => exact Nat.zero_le _
      | some siblings => exact (hnote.path siblings hpath).le
    have := ih howned
    rw [siblingsCount, List.map_cons, List.sum_cons, ← siblingsCount, List.length_cons, Nat.succ_mul]
    omega

theorem Fits.byteCapacity (h : Fits s) : ∃ size, byteCapacity s = .ok size := by
  have hsiblings := siblingsCount_le h.owned
  have hwidth : s.shardHeight ≤ 63 := Nat.le_of_lt_succ h.counts.shardWidth
  have hbound := Nat.mul_le_mul_left s.ownedNotes.length hwidth
  have hcompleted := h.completedCount
  have hlive := h.liveCount
  have howned := h.ownedCount
  have hheader : snapshotHeaderLen = 20 := rfl
  refine ⟨snapshotHeaderLen + (s.completedRoots.length + s.liveLeaves.length +
    s.ownedNotes.length + siblingsCount s.ownedNotes) * 32 + s.ownedNotes.length * 8, ?_⟩
  refine Fallible.bind_ok.mpr ⟨_, Panic.word_ok.mpr ⟨by omega, rfl⟩, ?_⟩
  refine Fallible.bind_ok.mpr ⟨_, checked_ok.mpr ⟨by omega, rfl⟩, ?_⟩
  refine Fallible.bind_ok.mpr ⟨_, checked_ok.mpr ⟨by omega, rfl⟩, ?_⟩
  refine Fallible.bind_ok.mpr ⟨_, checked_ok.mpr ⟨by omega, rfl⟩, ?_⟩
  refine Fallible.bind_ok.mpr ⟨_, checked_ok.mpr ⟨by omega, rfl⟩, ?_⟩
  exact Fallible.bind_ok.mpr ⟨(), Panic.require_ok.mpr (by omega), rfl⟩

theorem encode_ok : encode s = .ok bytes ↔ Fits s ∧ bytes = spell s := by
  constructor
  · intro h
    obtain ⟨_, hgeometry, h₁⟩ := Fallible.bind_ok.mp h
    obtain ⟨_, hcounts, h₂⟩ := Fallible.bind_ok.mp h₁
    obtain ⟨_, hdepth, h₃⟩ := Fallible.bind_ok.mp h₂
    obtain ⟨_, hheight, h₄⟩ := Fallible.bind_ok.mp h₃
    obtain ⟨_, hcompleted, h₅⟩ := Fallible.bind_ok.mp h₄
    obtain ⟨_, hlive, h₆⟩ := Fallible.bind_ok.mp h₅
    obtain ⟨_, howned, h₇⟩ := Fallible.bind_ok.mp h₆
    obtain ⟨_, _, h₈⟩ := Fallible.bind_ok.mp h₇
    obtain ⟨_, hrecords, h₉⟩ := Fallible.bind_ok.mp h₈
    obtain ⟨hpos, hlt⟩ := checkGeometry_ok.mp hgeometry
    obtain ⟨_, rfl⟩ := narrow_ok.mp hdepth
    obtain ⟨_, rfl⟩ := narrow_ok.mp hheight
    obtain ⟨hcompletedCount, rfl⟩ := narrow_ok.mp hcompleted
    obtain ⟨hliveCount, rfl⟩ := narrow_ok.mp hlive
    obtain ⟨hownedCount, rfl⟩ := narrow_ok.mp howned
    obtain ⟨hall, rfl⟩ := encodeEach_ok.mp hrecords
    refine ⟨⟨hpos, hlt, checkCounts_ok.mp hcounts, hcompletedCount, hliveCount, hownedCount, hall⟩,
      ?_⟩
    rw [← Except.ok.inj h₉]
    simp only [spell, spellBody, List.append_assoc]
  · rintro ⟨h, rfl⟩
    have hbits : usizeBits = 64 := rfl
    have hwidth := h.counts.shardWidth
    have hdepth := h.depth_lt
    obtain ⟨size, hsize⟩ := h.byteCapacity
    refine Fallible.bind_ok.mpr
      ⟨(), checkGeometry_ok.mpr ⟨h.shardHeight_pos, h.shardHeight_lt⟩, ?_⟩
    refine Fallible.bind_ok.mpr ⟨(), checkCounts_ok.mpr h.counts, ?_⟩
    refine Fallible.bind_ok.mpr ⟨_, narrow_ok.mpr ⟨by omega, rfl⟩, ?_⟩
    refine Fallible.bind_ok.mpr ⟨_, narrow_ok.mpr ⟨by omega, rfl⟩, ?_⟩
    refine Fallible.bind_ok.mpr ⟨_, narrow_ok.mpr ⟨h.completedCount, rfl⟩, ?_⟩
    refine Fallible.bind_ok.mpr ⟨_, narrow_ok.mpr ⟨h.liveCount, rfl⟩, ?_⟩
    refine Fallible.bind_ok.mpr ⟨_, narrow_ok.mpr ⟨h.ownedCount, rfl⟩, ?_⟩
    refine Fallible.bind_ok.mpr ⟨size, hsize, ?_⟩
    refine Fallible.bind_ok.mpr ⟨_, encodeEach_ok.mpr ⟨h.owned, rfl⟩, ?_⟩
    simp only [spell, spellBody, List.append_assoc]
    rfl

end Encode

/-! ### Decoding -/

section Decode
variable {s : ShardedTreeSnapshot Fr} {bytes : List UInt8}
variable {depth shardHeight completedCount liveCount ownedCount : Nat}

theorem readU32AtCursor_computes : Computes readU32AtCursor fun piece value =>
    value < 256 ^ 4 ∧ piece = beBytes 4 value := by
  unfold readU32AtCursor
  refine ((Computes.take 4).bind (S := fun raw back value => back = [] ∧ value = beNat raw)
    fun _ _ _ => .pure _).congr ?_
  intro piece value
  constructor
  · rintro ⟨_, raw, _, ⟨hlength, rfl⟩, ⟨rfl, rfl⟩, rfl⟩
    have hlt := beNat_lt raw
    have hraw := beBytes_beNat raw
    rw [hlength] at hlt hraw
    exact ⟨hlt, by rw [hraw, List.append_nil]⟩
  · rintro ⟨hlt, rfl⟩
    exact ⟨_, _, [], ⟨beBytes_length 4 value, rfl⟩, ⟨rfl, (beNat_beBytes hlt).symm⟩,
      (List.append_nil _).symm⟩

theorem readFields_computes (count : Nat) :
    Computes (readFields anyReservation count) fun piece fields =>
      fields.length = count ∧ piece = appendFields fields := by
  have hfield : Computes readField fun piece x => True ∧ piece = frToBe32 x :=
    readField_computes.congr fun _ _ => by rw [true_and]
  refine Computes.congr (x := readFields anyReservation count) (hfield.times count) ?_
  intro piece fields
  simp [appendFields]

theorem readPath_computes (shardHeight : Nat) (flag : UInt8) :
    Computes (readPath anyReservation shardHeight flag) fun piece path =>
      flag = flagOf path ∧ (∀ siblings, path = some siblings → siblings.length = shardHeight) ∧
        piece = appendFields (path.getD []) := by
  unfold readPath
  split
  · rename_i hflag
    subst hflag
    refine (Computes.pure none).congr fun piece path => ?_
    cases path with
    | none => simp [flagOf, appendFields]
    | some siblings => simp [flagOf]
  split
  · rename_i hflag
    subst hflag
    rw [map_eq_pure_bind]
    refine ((readFields_computes shardHeight).bind fun _ fields _ =>
      Computes.pure (some fields)).congr fun piece path => ?_
    constructor
    · rintro ⟨_, fields, _, ⟨hlength, rfl⟩, ⟨rfl, rfl⟩, rfl⟩
      refine ⟨rfl, fun siblings hpath => ?_, List.append_nil _⟩
      obtain rfl := Option.some.inj hpath
      exact hlength
    · rintro ⟨hflag, hlength, rfl⟩
      cases path with
      | none => cases hflag
      | some siblings =>
        exact ⟨_, siblings, [], ⟨hlength siblings rfl, rfl⟩, ⟨rfl, rfl⟩, (List.append_nil _).symm⟩
  · rename_i hzero hone
    refine ⟨fun _ h => (by cases h), fun bytes path rest => ?_⟩
    constructor
    · exact fun h => by cases h
    · rintro ⟨_, ⟨hflag, _⟩, _⟩
      cases path with
      | none => exact absurd hflag hzero
      | some siblings => exact absurd hflag hone

theorem readOwned_computes (shardHeight : Nat) :
    Computes (readOwned anyReservation shardHeight) fun piece owned =>
      OwnedFits shardHeight owned ∧ piece = spellOwned owned := by
  unfold readOwned
  refine (readField_computes.bind fun _ noteId _ => readU32AtCursor_computes.bind
    fun _ leafIndex _ => (readByte_computes _).bind fun _ flag _ => (Computes.take 3).bind
      fun _ reserved _ => Computes.refuse fun _ => (readPath_computes shardHeight flag).bind
        fun _ path _ => Computes.pure _).congr ?_
  intro piece owned
  constructor
  · rintro ⟨_, noteId, _, rfl, ⟨_, leafIndex, _, ⟨hindex, rfl⟩, ⟨_, flag, _, rfl, ⟨_, reserved, _,
      ⟨_, rfl⟩, ⟨hreserved, _, path, _, ⟨rfl, hpath, rfl⟩, ⟨rfl, rfl⟩, rfl⟩, rfl⟩, rfl⟩, rfl⟩, rfl⟩
    obtain rfl := not_not.mp hreserved
    refine ⟨⟨hindex, hpath⟩, ?_⟩
    simp only [spellOwned, List.append_assoc, List.append_nil]
    rfl
  · rintro ⟨⟨hindex, hpath⟩, rfl⟩
    refine ⟨_, owned.noteId, _, rfl, ⟨_, owned.leafIndex, _, ⟨hindex, rfl⟩, ⟨_, _, _, rfl,
      ⟨_, [0, 0, 0], _, ⟨rfl, rfl⟩, ⟨not_not.mpr rfl, _, owned.withinShardSiblings, [],
        ⟨rfl, hpath, rfl⟩, ⟨rfl, rfl⟩, rfl⟩, rfl⟩, rfl⟩, rfl⟩, ?_⟩
    simp only [spellOwned, List.append_assoc, List.append_nil]
    rfl

theorem readBody_computes (depth shardHeight completedCount liveCount ownedCount : Nat) :
    Computes (readBody anyReservation depth shardHeight completedCount liveCount ownedCount)
      fun piece s => s.depth = depth ∧ s.shardHeight = shardHeight ∧
        s.completedRoots.length = completedCount ∧ s.liveLeaves.length = liveCount ∧
        s.ownedNotes.length = ownedCount ∧ (∀ owned ∈ s.ownedNotes, OwnedFits shardHeight owned) ∧
        piece = spellBody s := by
  have hbody : Computes (readBody anyReservation depth shardHeight completedCount liveCount ownedCount) _ :=
    (readFields_computes completedCount).bind fun _ completedRoots _ =>
      (readFields_computes liveCount).bind fun _ liveLeaves _ =>
        ((readOwned_computes shardHeight).times ownedCount).bind fun _ ownedNotes _ =>
          Computes.pure (⟨depth, shardHeight, completedRoots, liveLeaves, ownedNotes⟩ :
            ShardedTreeSnapshot Fr)
  refine hbody.congr fun piece s => ?_
  constructor
  · rintro ⟨_, completedRoots, _, ⟨hcompleted, rfl⟩, ⟨_, liveLeaves, _, ⟨hlive, rfl⟩, ⟨_, ownedNotes,
      _, ⟨howned, hall, rfl⟩, ⟨rfl, rfl⟩, rfl⟩, rfl⟩, rfl⟩
    refine ⟨rfl, rfl, hcompleted, hlive, howned, hall, ?_⟩
    simp only [spellBody, List.append_assoc, List.append_nil]
  · rintro ⟨rfl, rfl, hcompleted, hlive, howned, hall, rfl⟩
    refine ⟨_, s.completedRoots, _, ⟨hcompleted, rfl⟩, ⟨_, s.liveLeaves, _, ⟨hlive, rfl⟩, ⟨_,
      s.ownedNotes, [], ⟨howned, hall, rfl⟩, ⟨rfl, rfl⟩, rfl⟩, rfl⟩, ?_⟩
    simp only [spellBody, List.append_assoc, List.append_nil]

/-- The fields of a snapshot header, by offset. -/
theorem header_split (bytes : List UInt8) : bytes = bytes.take 4 ++ (bytes.drop 4).take 4 ++
    (bytes.drop 8).take 4 ++ (bytes.drop 12).take 4 ++ (bytes.drop 16).take 4 ++ bytes.drop 20 := by
  have hmagic := List.take_append_drop 4 bytes
  have hbytes := List.take_append_drop 4 (bytes.drop 4)
  have hcompleted := List.take_append_drop 4 (bytes.drop 8)
  have hlive := List.take_append_drop 4 (bytes.drop 12)
  have howned := List.take_append_drop 4 (bytes.drop 16)
  rw [List.drop_drop] at hbytes hcompleted hlive howned
  rw [List.append_assoc, howned, List.append_assoc, hlive, List.append_assoc, hcompleted,
    List.append_assoc, hbytes, hmagic]

theorem readU32_ok {offset value : Nat} : readU32 bytes offset = .ok value ↔
    offset + 4 ≤ bytes.length ∧ value = beNat ((bytes.drop offset).take 4) := by
  rw [readU32, Fallible.bind_ok]
  constructor
  · rintro ⟨_, hlength, hvalue⟩
    exact ⟨Nat.not_lt.mp (refuseIf_ok.mp hlength), (Except.ok.inj hvalue).symm⟩
  · rintro ⟨hlength, rfl⟩
    exact ⟨(), refuseIf_ok.mpr (Nat.not_lt.mpr hlength), rfl⟩

theorem readU32_safe {offset : Nat} : readU32 bytes offset ≠ .error .panic :=
  Panic.bind_safe refuseIf_safe fun _ _ h => by cases h

/-- A count of the header and its four bytes. -/
theorem readU32_bytes {offset value : Nat} (h : readU32 bytes offset = .ok value) :
    value < 256 ^ 4 ∧ (bytes.drop offset).take 4 = beBytes 4 value := by
  obtain ⟨hlength, rfl⟩ := readU32_ok.mp h
  have hcut : ((bytes.drop offset).take 4).length = 4 := by
    rw [List.length_take, List.length_drop]
    omega
  have hlt := beNat_lt ((bytes.drop offset).take 4)
  have hbytes := beBytes_beNat ((bytes.drop offset).take 4)
  rw [hcut] at hlt hbytes
  exact ⟨hlt, hbytes.symm⟩

theorem checkBytes_ok {available : Nat} {u : Unit} (hcompleted : completedCount < 256 ^ 4)
    (hlive : liveCount < 256 ^ 4) (howned : ownedCount < 256 ^ 4)
    (havailable : snapshotHeaderLen ≤ available) :
    checkBytes available completedCount liveCount ownedCount = .ok u ↔
      snapshotHeaderLen + (completedCount + liveCount) * 32 + ownedCount * 40 ≤ available := by
  constructor
  · intro h
    obtain ⟨_, hcount, h₁⟩ := Fallible.bind_ok.mp h
    obtain ⟨_, hbytes, h₂⟩ := Fallible.bind_ok.mp h₁
    obtain ⟨_, hbody, h₃⟩ := Fallible.bind_ok.mp h₂
    obtain ⟨_, hfields, h₄⟩ := Fallible.bind_ok.mp h₃
    obtain ⟨_, hrecords, h₅⟩ := Fallible.bind_ok.mp h₄
    obtain ⟨_, hleft, h₆⟩ := Fallible.bind_ok.mp h₅
    obtain ⟨_, rfl⟩ := checked_ok.mp hcount
    obtain ⟨_, rfl⟩ := checked_ok.mp hbytes
    obtain ⟨_, _, hbody⟩ := Fallible.bind_ok.mp hbody
    obtain rfl := Except.ok.inj hbody
    obtain ⟨_, rfl⟩ := checked_ok.mp hrecords
    obtain ⟨_, hle, hleft⟩ := Fallible.bind_ok.mp hleft
    obtain rfl := Except.ok.inj hleft
    have hle := Panic.require_ok.mp hle
    have hlast := Nat.not_lt.mp (refuseIf_ok.mp h₆)
    omega
  · intro h
    refine Fallible.bind_ok.mpr ⟨_, checked_ok.mpr ⟨by omega, rfl⟩, ?_⟩
    refine Fallible.bind_ok.mpr ⟨_, checked_ok.mpr ⟨by omega, rfl⟩, ?_⟩
    refine Fallible.bind_ok.mpr ⟨available - snapshotHeaderLen,
      Fallible.bind_ok.mpr ⟨(), Panic.require_ok.mpr (by omega), rfl⟩, ?_⟩
    refine Fallible.bind_ok.mpr ⟨(), refuseIf_ok.mpr (by omega), ?_⟩
    refine Fallible.bind_ok.mpr ⟨_, checked_ok.mpr ⟨by omega, rfl⟩, ?_⟩
    refine Fallible.bind_ok.mpr ⟨available - snapshotHeaderLen - (completedCount + liveCount) * 32,
      Fallible.bind_ok.mpr ⟨(), Panic.require_ok.mpr (by omega), rfl⟩, ?_⟩
    exact refuseIf_ok.mpr (by omega)

theorem checkBytes_safe {available : Nat} (havailable : snapshotHeaderLen ≤ available) :
    checkBytes available completedCount liveCount ownedCount ≠ .error .panic := by
  refine Panic.bind_safe checked_safe fun _ _ => Panic.bind_safe checked_safe fun _ _ => ?_
  rw [minus, Panic.require, if_pos havailable, Fallible.ok_bind]
  refine Panic.bind_safe (fun h => by cases h) fun body hbody => ?_
  refine Panic.bind_safe refuseIf_safe fun _ hfields => Panic.bind_safe checked_safe fun _ _ => ?_
  rw [minus, Panic.require, if_pos (Nat.not_lt.mp (refuseIf_ok.mp hfields)), Fallible.ok_bind]
  exact Panic.bind_safe (fun h => by cases h) fun _ _ => refuseIf_safe

theorem decode_sound (h : decode anyReservation bytes = .ok s) : Fits s ∧ bytes = spell s := by
  obtain ⟨_, hlength, h₁⟩ := Fallible.bind_ok.mp h
  obtain ⟨_, hmagic, h₂⟩ := Fallible.bind_ok.mp h₁
  obtain ⟨version, hversion, h₃⟩ := Fallible.bind_ok.mp h₂
  obtain ⟨_, hone, h₄⟩ := Fallible.bind_ok.mp h₃
  obtain ⟨reserved, hreserved, h₅⟩ := Fallible.bind_ok.mp h₄
  obtain ⟨_, hzero, h₆⟩ := Fallible.bind_ok.mp h₅
  obtain ⟨depth, hdepth, h₇⟩ := Fallible.bind_ok.mp h₆
  obtain ⟨shardHeight, hheight, h₈⟩ := Fallible.bind_ok.mp h₇
  obtain ⟨_, hgeometry, h₉⟩ := Fallible.bind_ok.mp h₈
  obtain ⟨completedCount, hcompleted, h₁₀⟩ := Fallible.bind_ok.mp h₉
  obtain ⟨liveCount, hlive, h₁₁⟩ := Fallible.bind_ok.mp h₁₀
  obtain ⟨ownedCount, howned, h₁₂⟩ := Fallible.bind_ok.mp h₁₁
  obtain ⟨_, hcounts, h₁₃⟩ := Fallible.bind_ok.mp h₁₂
  obtain ⟨_, _, h₁₄⟩ := Fallible.bind_ok.mp h₁₃
  obtain ⟨⟨s', rest⟩, hbody, h₁₅⟩ := Fallible.bind_ok.mp h₁₄
  obtain ⟨_, hrest, h₁₆⟩ := Fallible.bind_ok.mp h₁₅
  obtain rfl := Except.ok.inj h₁₆
  obtain rfl := not_not.mp (refuseIf_ok.mp hone)
  obtain rfl := not_not.mp (refuseIf_ok.mp hzero)
  obtain rfl := not_not.mp (refuseIf_ok.mp hrest)
  obtain ⟨hpos, hlt⟩ := checkGeometry_ok.mp hgeometry
  obtain ⟨hcompletedFits, hcompletedBytes⟩ := readU32_bytes hcompleted
  obtain ⟨hliveFits, hliveBytes⟩ := readU32_bytes hlive
  obtain ⟨hownedFits, hownedBytes⟩ := readU32_bytes howned
  obtain ⟨_, ⟨hd, hs, rfl, rfl, rfl, hall, rfl⟩, hpayload⟩ :=
    ((readBody_computes _ _ _ _ _).ok _ _ _).mp hbody
  rw [← hs] at hall
  refine ⟨⟨by rwa [hs], by rwa [hs, hd], ?_, hcompletedFits, hliveFits, hownedFits, hall⟩, ?_⟩
  · rw [hd, hs]
    exact checkCounts_ok.mp hcounts
  · rw [List.append_nil] at hpayload
    conv_lhs => rw [header_split bytes]
    rw [not_not.mp (refuseIf_ok.mp hmagic), four_bytes hversion hdepth hheight hreserved,
      hcompletedBytes, hliveBytes, hownedBytes, show bytes.drop 20 = _ from hpayload, spell, hd, hs]
    rw [show beBytes 1 depth.toNat = [depth] from beBytes_beNat [depth],
      show beBytes 1 shardHeight.toNat = [shardHeight] from beBytes_beNat [shardHeight]]
    rfl

theorem appendFields_length (fields : List Fr) : (appendFields fields).length = fields.length * 32 := by
  induction fields with
  | nil => rfl
  | cons x fields ih =>
    rw [appendFields, List.flatMap_cons, List.length_append, ← appendFields, ih, frToBe32_length,
      List.length_cons, Nat.succ_mul, Nat.add_comm]

theorem records_length_le (owned : List (OwnedNoteWitness Fr)) :
    owned.length * 40 ≤ (owned.flatMap spellOwned).length := by
  induction owned with
  | nil => exact Nat.zero_le _
  | cons note owned ih =>
    have hnote : 40 ≤ (spellOwned note).length := by
      simp only [spellOwned, List.length_append, frToBe32_length, beBytes_length, List.length_cons,
        List.length_nil]
      omega
    rw [List.flatMap_cons, List.length_append, List.length_cons, Nat.succ_mul]
    omega

theorem spellBody_length_le (s : ShardedTreeSnapshot Fr) :
    (s.completedRoots.length + s.liveLeaves.length) * 32 + s.ownedNotes.length * 40 ≤
      (spellBody s).length := by
  have hrecords := records_length_le s.ownedNotes
  rw [spellBody, List.length_append, List.length_append, appendFields_length, appendFields_length]
  omega

theorem decode_complete (h : Fits s) : decode anyReservation (spell s) = .ok s := by
  have hbits : usizeBits = 64 := rfl
  have hbyte : UInt8.size = 256 := rfl
  have hheader : snapshotHeaderLen = 20 := rfl
  have hdepth := h.depth_lt
  have hwidth := h.counts.shardWidth
  generalize hdepthByte : UInt8.ofNat s.depth = depth
  generalize hheightByte : UInt8.ofNat s.shardHeight = shardHeight
  have hd : depth.toNat = s.depth := by
    rw [← hdepthByte]
    exact UInt8.toNat_ofNat_of_lt' (by omega)
  have hs : shardHeight.toNat = s.shardHeight := by
    rw [← hheightByte]
    exact UInt8.toNat_ofNat_of_lt' (by omega)
  have hspell : spell s = snapshotMagic ++ [snapshotVersion, depth, shardHeight, 0] ++
      (beBytes 4 s.completedRoots.length ++ (beBytes 4 s.liveLeaves.length ++
        (beBytes 4 s.ownedNotes.length ++ spellBody s))) := by
    simp only [spell, List.append_assoc, ← hd, ← hs]
    rw [show beBytes 1 depth.toNat = [depth] from beBytes_beNat [depth],
      show beBytes 1 shardHeight.toNat = [shardHeight] from beBytes_beNat [shardHeight]]
    rfl
  generalize spell s = bytes at hspell
  have hlen : bytes.length = snapshotHeaderLen + (spellBody s).length := by
    rw [hspell]
    simp only [List.length_append, beBytes_length]
    change 8 + _ = 20 + _
    omega
  have hbody := spellBody_length_le s
  have hat₈ : bytes.drop 8 = beBytes 4 s.completedRoots.length ++ (beBytes 4 s.liveLeaves.length ++
      (beBytes 4 s.ownedNotes.length ++ spellBody s)) := by
    rw [hspell]
    rfl
  have hat₁₂ : bytes.drop 12 = beBytes 4 s.liveLeaves.length ++
      (beBytes 4 s.ownedNotes.length ++ spellBody s) := by
    rw [show 12 = 8 + 4 from rfl, ← List.drop_drop, hat₈, List.drop_left' (beBytes_length _ _)]
  have hat₁₆ : bytes.drop 16 = beBytes 4 s.ownedNotes.length ++ spellBody s := by
    rw [show 16 = 12 + 4 from rfl, ← List.drop_drop, hat₁₂, List.drop_left' (beBytes_length _ _)]
  have hpayload : bytes.drop snapshotHeaderLen = spellBody s := by
    rw [show snapshotHeaderLen = 16 + 4 from rfl, ← List.drop_drop, hat₁₆,
      List.drop_left' (beBytes_length _ _)]
  have hfixed : bytes.take 4 = snapshotMagic ∧ byteAt bytes 4 = .ok snapshotVersion ∧
      byteAt bytes 7 = .ok 0 ∧ byteAt bytes 5 = .ok depth ∧ byteAt bytes 6 = .ok shardHeight := by
    rw [hspell]
    exact ⟨rfl, rfl, rfl, rfl, rfl⟩
  obtain ⟨hmagic, hversion, hreserved, hfive, hsix⟩ := hfixed
  refine Fallible.bind_ok.mpr ⟨(), refuseIf_ok.mpr (by omega), ?_⟩
  refine Fallible.bind_ok.mpr ⟨(), refuseIf_ok.mpr (not_not.mpr hmagic), ?_⟩
  refine Fallible.bind_ok.mpr ⟨_, hversion, ?_⟩
  refine Fallible.bind_ok.mpr ⟨(), refuseIf_ok.mpr (not_not.mpr rfl), ?_⟩
  refine Fallible.bind_ok.mpr ⟨_, hreserved, ?_⟩
  refine Fallible.bind_ok.mpr ⟨(), refuseIf_ok.mpr (not_not.mpr rfl), ?_⟩
  refine Fallible.bind_ok.mpr ⟨_, hfive, Fallible.bind_ok.mpr ⟨_, hsix, ?_⟩⟩
  rw [hd, hs]
  refine Fallible.bind_ok.mpr ⟨(), checkGeometry_ok.mpr ⟨h.shardHeight_pos, h.shardHeight_lt⟩, ?_⟩
  refine Fallible.bind_ok.mpr ⟨s.completedRoots.length, readU32_ok.mpr ⟨by omega, ?_⟩, ?_⟩
  · rw [hat₈, List.take_left' (beBytes_length _ _), beNat_beBytes h.completedCount]
  refine Fallible.bind_ok.mpr ⟨s.liveLeaves.length, readU32_ok.mpr ⟨by omega, ?_⟩, ?_⟩
  · rw [hat₁₂, List.take_left' (beBytes_length _ _), beNat_beBytes h.liveCount]
  refine Fallible.bind_ok.mpr ⟨s.ownedNotes.length, readU32_ok.mpr ⟨by omega, ?_⟩, ?_⟩
  · rw [hat₁₆, List.take_left' (beBytes_length _ _), beNat_beBytes h.ownedCount]
  refine Fallible.bind_ok.mpr ⟨(), checkCounts_ok.mpr h.counts, ?_⟩
  refine Fallible.bind_ok.mpr ⟨(), (checkBytes_ok h.completedCount h.liveCount h.ownedCount
    (by omega)).mpr (by omega), ?_⟩
  refine Fallible.bind_ok.mpr ⟨(s, []), ?_, ?_⟩
  · rw [hpayload]
    exact ((readBody_computes _ _ _ _ _).ok _ _ _).mpr
      ⟨_, ⟨rfl, rfl, rfl, rfl, rfl, h.owned, rfl⟩, (List.append_nil _).symm⟩
  · exact Fallible.bind_ok.mpr ⟨(), refuseIf_ok.mpr (not_not.mpr rfl), rfl⟩

theorem decode_ok : decode anyReservation bytes = .ok s ↔ Fits s ∧ bytes = spell s := by
  constructor
  · exact decode_sound
  · rintro ⟨h, rfl⟩
    exact decode_complete h

theorem decode_safe (bytes : List UInt8) : decode anyReservation bytes ≠ .error .panic := by
  refine Panic.bind_safe refuseIf_safe fun _ hlength => ?_
  have hlen := Nat.not_lt.mp (refuseIf_ok.mp hlength)
  have hbyte : ∀ i, i < snapshotHeaderLen → byteAt bytes i ≠ .error .panic := by
    intro i hi
    rw [byteAt_of_lt (by omega)]
    exact fun h => by cases h
  refine Panic.bind_safe refuseIf_safe fun _ _ => ?_
  refine Panic.bind_safe (hbyte 4 (by decide)) fun _ _ => ?_
  refine Panic.bind_safe refuseIf_safe fun _ _ => ?_
  refine Panic.bind_safe (hbyte 7 (by decide)) fun _ _ => ?_
  refine Panic.bind_safe refuseIf_safe fun _ _ => ?_
  refine Panic.bind_safe (hbyte 5 (by decide)) fun depth _ => ?_
  refine Panic.bind_safe (hbyte 6 (by decide)) fun shardHeight _ => ?_
  refine Panic.bind_safe Panic.refuse_safe fun _ _ => ?_
  refine Panic.bind_safe readU32_safe fun _ _ => ?_
  refine Panic.bind_safe readU32_safe fun _ _ => ?_
  refine Panic.bind_safe readU32_safe fun _ _ => ?_
  refine Panic.bind_safe checkCounts_safe fun _ _ => ?_
  refine Panic.bind_safe (checkBytes_safe hlen) fun _ _ => ?_
  refine Panic.bind_safe ((readBody_computes _ _ _ _ _).safe _) fun _ _ => ?_
  exact Panic.bind_safe refuseIf_safe fun _ _ h => by cases h

end Decode

/-! ### Reservations -/

section Allocators
variable {grants : Allocator} {bytes : List UInt8}

/-- An allocator that grants what the input pays for, and the up to 63 elements of one path. -/
structure Sufficient (grants : Allocator) : Prop where
  justified : ∀ r : Reservation, r.Justified → grants r = true
  path : ∀ r : Reservation, r.width = 32 → r.count < usizeBits → grants r = true

theorem reserve_granted {count width : Nat} (h : grants ⟨count, width, bytes.length⟩ = true) :
    reserve grants count width bytes = .ok ((), bytes) := if_pos h

theorem readFields_granted {count : Nat} (h : grants ⟨count, 32, bytes.length⟩ = true) :
    readFields grants count bytes = readFields anyReservation count bytes := by
  rw [readFields, bind_apply, reserve_granted h]
  rfl

theorem readOwned_granted (h : Sufficient grants) {shardHeight : Nat} (hs : shardHeight < usizeBits) :
    readOwned grants shardHeight = readOwned anyReservation shardHeight := by
  have hfields : readFields grants shardHeight = readFields anyReservation shardHeight :=
    funext fun _ => readFields_granted (h.path _ rfl hs)
  have hpath : readPath grants shardHeight = readPath anyReservation shardHeight := by
    funext flag
    rw [readPath, hfields, readPath]
  rw [readOwned, hpath, readOwned]

/-- The counts of the header are reserved against bytes that are there. -/
theorem readBody_granted (h : Sufficient grants)
    {depth shardHeight completedCount liveCount ownedCount : Nat} (hs : shardHeight < usizeBits)
    (hbytes : (completedCount + liveCount) * 32 + ownedCount * 40 ≤ bytes.length) :
    readBody grants depth shardHeight completedCount liveCount ownedCount bytes =
      readBody anyReservation depth shardHeight completedCount liveCount ownedCount bytes := by
  have hcompleted : Reservation.Justified ⟨completedCount, 32, bytes.length⟩ := by
    change completedCount * 32 ≤ bytes.length
    omega
  rw [readBody, readBody, bind_apply, bind_apply, readFields_granted (h.justified _ hcompleted),
    readOwned_granted h hs]
  refine Fallible.bind_congr fun ⟨roots, behind⟩ hroots => ?_
  obtain ⟨_, ⟨hrootsLength, rfl⟩, rfl⟩ := ((readFields_computes _).ok _ _ _).mp hroots
  rw [List.length_append, appendFields_length] at hbytes
  have hlive : Reservation.Justified ⟨liveCount, 32, behind.length⟩ := by
    change liveCount * 32 ≤ behind.length
    omega
  rw [bind_apply, bind_apply, readFields_granted (h.justified _ hlive)]
  refine Fallible.bind_congr fun ⟨leaves, rest⟩ hleaves => ?_
  obtain ⟨_, ⟨hleavesLength, rfl⟩, rfl⟩ := ((readFields_computes _).ok _ _ _).mp hleaves
  rw [List.length_append, appendFields_length] at hbytes
  have howned : Reservation.Justified ⟨ownedCount, 40, rest.length⟩ := by
    change ownedCount * 40 ≤ rest.length
    omega
  rw [bind_apply, reserve_granted (h.justified _ howned), bind_apply]
  rfl

theorem decode_granted (h : Sufficient grants) (bytes : List UInt8) :
    decode grants bytes = decode anyReservation bytes := by
  refine Fallible.bind_congr fun _ hlength => Fallible.bind_congr fun _ _ => ?_
  have hlen := Nat.not_lt.mp (refuseIf_ok.mp hlength)
  refine Fallible.bind_congr fun _ _ => Fallible.bind_congr fun _ _ => ?_
  refine Fallible.bind_congr fun _ _ => Fallible.bind_congr fun _ _ => ?_
  refine Fallible.bind_congr fun depth _ => Fallible.bind_congr fun shardHeight _ => ?_
  refine Fallible.bind_congr fun _ _ => ?_
  refine Fallible.bind_congr fun completedCount hcompleted => ?_
  refine Fallible.bind_congr fun liveCount hlive => ?_
  refine Fallible.bind_congr fun ownedCount howned => ?_
  refine Fallible.bind_congr fun _ hcounts => Fallible.bind_congr fun _ hbytes => ?_
  have hfits := (checkBytes_ok (readU32_bytes hcompleted).1 (readU32_bytes hlive).1
    (readU32_bytes howned).1 hlen).mp hbytes
  rw [readBody_granted h (checkCounts_ok.mp hcounts).shardWidth]
  rw [List.length_drop]
  omega

/-- Bytes and snapshots correspond one to one, and no bytes reach a panic: neither an access out
of range nor a reservation that a sufficient allocator refuses. -/
theorem codec_exact (h : Sufficient grants) :
    (∀ s bytes, encode s = .ok bytes → decode grants bytes = .ok s) ∧
    (∀ bytes s, decode grants bytes = .ok s → encode s = .ok bytes) ∧
    ∀ bytes, decode grants bytes ≠ .error .panic := by
  simp only [decode_granted h]
  exact ⟨fun s bytes henc => decode_ok.mpr (encode_ok.mp henc),
    fun bytes s hdec => encode_ok.mpr (decode_ok.mp hdec), decode_safe⟩

/-- What the input pays for, and fewer than 64 field elements. -/
def boundedOnly : Allocator := fun r => decide (r.Justified ∨ r.width = 32 ∧ r.count < usizeBits)

theorem boundedOnly_sufficient : Sufficient boundedOnly where
  justified _ h := decide_eq_true (.inl h)
  path _ hwidth hcount := decide_eq_true (.inr ⟨hwidth, hcount⟩)

/-- A tree of depth two with a frozen note. -/
def frozenNote : ShardedTreeSnapshot Fr where
  depth := 2
  shardHeight := 1
  completedRoots := [((7 : ℕ) : Fr)]
  liveLeaves := [((9 : ℕ) : Fr)]
  ownedNotes := [⟨((3 : ℕ) : Fr), 0, some [((4 : ℕ) : Fr)]⟩, ⟨((9 : ℕ) : Fr), 2, none⟩]

theorem frozenNote_fits : Fits frozenNote where
  shardHeight_pos := by decide
  shardHeight_lt := by decide
  counts := ⟨by decide, by decide, by decide, by decide, by decide⟩
  completedCount := by decide
  liveCount := by decide
  ownedCount := by decide
  owned := by
    intro owned howned
    rcases List.mem_pair.mp howned with rfl | rfl
    · exact ⟨by decide, fun siblings hpath => by rw [← Option.some.inj hpath]; rfl⟩
    · exact ⟨by decide, fun siblings hpath => by cases hpath⟩

theorem codec_exact_example :
    decode boundedOnly (spell frozenNote) = .ok frozenNote ∧
      encode frozenNote = .ok (spell frozenNote) ∧
      decode boundedOnly [] ≠ .error .panic := by
  obtain ⟨hread, hwrite, hsafe⟩ := codec_exact boundedOnly_sufficient
  have hdecoded := hread _ _ (encode_ok.mpr ⟨frozenNote_fits, rfl⟩)
  exact ⟨hdecoded, hwrite _ _ hdecoded, hsafe []⟩

/-- One record with a frozen path of one element, cut before the path. -/
def cutPath : List UInt8 :=
  snapshotMagic ++ [snapshotVersion, 2, 1, 0] ++ beBytes 4 0 ++ beBytes 4 0 ++ beBytes 4 1 ++
    List.replicate 36 0 ++ [1, 0, 0, 0]

/-- The element is reserved with no byte left; only then is the input found to be cut. -/
theorem cutPath_reserved : decode justifiedOnly cutPath = .error .panic ∧
    decode anyReservation cutPath = .error (invalid "truncated field element") := ⟨rfl, rfl⟩

end Allocators

end Curvy.ShardedTreeSnapshot
