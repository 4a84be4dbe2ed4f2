import Curvy.Core.PendingWitness

/-!
# The pending-commitment adapter

One builder over the two tree forms of the Node binding. A tree is a history of leaves to it:
it takes a note or refuses it, and a note it took has its path among the leaves so far.
-/

namespace Curvy.Node

set_option autoImplicit false

open Witness (Fr)
open PerfectTree

/-- An error of the binding, with the text it is reported under. -/
inductive NodeError where
  | invalidArg (message : String)
  | native (context : String) (error : TreeError)
  deriving DecidableEq, Repr

structure CircuitInput where
  currentNoteIndex : String
  inputHash : String
  currentNotesRoot : String
  pendingNoteIds : List String
  siblings : List (List String)
  deriving DecidableEq, Repr

structure PendingCommitmentInput where
  circuitInput : CircuitInput
  inputHash : String
  paddedNoteIds : List String
  newNotesRoot : String
  deriving DecidableEq, Repr

/-- The trait of the trees; a Rust panic is `none`. -/
structure PendingNotesTree (T : Type) where
  depth : T → Nat
  root : T → Option Fr
  leafCount : T → Nat
  insertWithSiblings : T → Fr → Option (Except NodeError (List Fr) × T)

section Definitions
variable (poseidon : Fr → Fr → Fr) (sha256 : List UInt8 → List UInt8)

/-- `IndexedMerkleTree::create_proof`. -/
def createProof (t : IndexedMerkleTree Fr) (leaf : Fr) :
    Option (Except TreeError (InclusionProof Fr)) :=
  match t.getIndex leaf with
  | none => some (.error .leafNotFound)
  | some index => (t.tree.createProof index).map .ok

def indexedNotesTree : PendingNotesTree (IndexedMerkleTree Fr) where
  depth t := t.tree.depth
  root := IndexedMerkleTree.root
  leafCount := IndexedMerkleTree.leafCount
  insertWithSiblings t noteId := do
    let (r, t) ← t.insert poseidon noteId
    match r with
    | .error e => some (.error (.native "insert pending note" e), t)
    | .ok _ =>
      match ← createProof t noteId with
      | .error e => some (.error (.native "create pending note proof" e), t)
      | .ok proof => some (.ok proof.siblings, t)

def frontierNotesTree : PendingNotesTree (NotesFrontier Fr) where
  depth := NotesFrontier.depth
  root := NotesFrontier.root poseidon
  leafCount := NotesFrontier.leafCount
  insertWithSiblings f noteId := do
    let (r, f) ← f.appendWithSiblings poseidon noteId
    match r with
    | .error e => some (.error (.native "insert pending note" e), f)
    | .ok (_, siblings) => some (.ok siblings, f)

/-- The loop over the padded batch; `depth` is that of the tree the batch is for. -/
def insertSlots {T : Type} (ops : PendingNotesTree T) (depth : Nat) :
    List Fr → T → List (List String) → Option (Except NodeError (List (List String)) × T)
  | [], work, siblings => some (.ok siblings, work)
  | noteId :: noteIds, work, siblings =>
    if noteId = 0 then insertSlots ops depth noteIds work (siblings ++ [List.replicate depth "0"])
    else do
      let (r, work) ← ops.insertWithSiblings work noteId
      match r with
      | .error e => some (.error e, work)
      | .ok row => insertSlots ops depth noteIds work (siblings ++ [row.map frToDec])

/-- The tree changes only once everything has succeeded. -/
def buildPendingCommitmentInput {T : Type} (ops : PendingNotesTree T) (tree : T) (batchSize : Nat)
    (pendingNoteIds : List Fr) : Option (Except NodeError PendingCommitmentInput × T) :=
  if pendingNoteIds.isEmpty then some (.error (.invalidArg "pending note ids must not be empty"), tree)
  else if batchSize < pendingNoteIds.length then
    some (.error (.invalidArg
      s!"pending note id count {pendingNoteIds.length} exceeds batch size {batchSize}"), tree)
  else do
    let currentNotesRoot ← ops.root tree
    let currentNoteIndex := ops.leafCount tree
    let padded := padNoteIds batchSize pendingNoteIds
    let (r, work) ← insertSlots ops (ops.depth tree) padded tree []
    match r with
    | .error e => some (.error e, tree)
    | .ok siblings =>
      let newNotesRoot ← ops.root work
      let newNoteIndex := ops.leafCount work
      let inputHash ← sha256Bigint sha256
        (pendingHashInputs padded currentNotesRoot newNotesRoot currentNoteIndex newNoteIndex)
      some (.ok {
        circuitInput := {
          currentNoteIndex := toString currentNoteIndex
          inputHash := toString inputHash
          currentNotesRoot := frToDec currentNotesRoot
          pendingNoteIds := padded.map frToDec
          siblings }
        inputHash := toString inputHash
        paddedNoteIds := padded.map frToDec
        newNotesRoot := frToDec newNotesRoot }, work)

/-- A JavaScript number; one that is not finite is no batch size either. -/
def batchSizeFromJs (batchSize : Option Rat) : Except NodeError Nat :=
  match batchSize with
  | none => .error (.invalidArg s!"batchSize must be an integer between 1 and {maxPendingBatchSize}")
  | some value =>
    if value.den = 1 ∧ 1 ≤ value.num ∧ value.num ≤ maxPendingBatchSize then .ok value.num.toNat
    else .error (.invalidArg s!"batchSize must be an integer between 1 and {maxPendingBatchSize}")

/-- The check of the frontier, which holds no earlier note to compare with. -/
def checkRepeats : List Fr → List Fr → Except NodeError Unit
  | [], _ => .ok ()
  | noteId :: noteIds, seen =>
    if noteId = 0 then checkRepeats noteIds seen
    else if noteId ∈ seen then .error (.native "insert pending note" .duplicateLeaf)
    else checkRepeats noteIds (noteId :: seen)

namespace IndexedMerkleTree

def buildPendingCommitment (tree : IndexedMerkleTree Fr) (batchSize : Option Rat)
    (pendingNoteIds : List Fr) : Option (Except NodeError PendingCommitmentInput × IndexedMerkleTree Fr) :=
  match batchSizeFromJs batchSize with
  | .error e => some (.error e, tree)
  | .ok batchSize =>
    buildPendingCommitmentInput sha256 (indexedNotesTree poseidon) tree batchSize pendingNoteIds

end IndexedMerkleTree

namespace NotesFrontier

def buildPendingCommitment (frontier : NotesFrontier Fr) (batchSize : Option Rat)
    (pendingNoteIds : List Fr) : Option (Except NodeError PendingCommitmentInput × NotesFrontier Fr) :=
  match batchSizeFromJs batchSize with
  | .error e => some (.error e, frontier)
  | .ok batchSize =>
    match checkRepeats pendingNoteIds [] with
    | .error e => some (.error e, frontier)
    | .ok () =>
      buildPendingCommitmentInput sha256 (frontierNotesTree poseidon) frontier batchSize pendingNoteIds

end NotesFrontier

end Definitions

/-! ## Trees with a history -/

section History
variable (poseidon : Fr → Fr → Fr) (sha256 : List UInt8 → List UInt8)

/-- A tree with history `leaves` takes the notes `Takes` allows as long as there is room. -/
structure Serves {T : Type} (ops : PendingNotesTree T) (depth : Nat) (Holds : List Fr → T → Prop)
    (Takes : List Fr → Fr → Prop) : Prop where
  same_depth : ∀ leaves t, Holds leaves t → ops.depth t = depth
  root : ∀ leaves t, Holds leaves t → ops.root t = some (historyRoot poseidon 0 depth leaves)
  leafCount : ∀ leaves t, Holds leaves t → ops.leafCount t = leaves.length
  fits : ∀ leaves t, Holds leaves t → leaves.length ≤ 2 ^ depth
  takes : ∀ leaves t id, Holds leaves t → Takes leaves id → leaves.length < 2 ^ depth →
    ∃ t', ops.insertWithSiblings t id =
        some (.ok (path poseidon 0 (leaves ++ [id]) depth leaves.length), t') ∧ Holds (leaves ++ [id]) t'
  refuses : ∀ leaves t id, Holds leaves t → ¬ (Takes leaves id ∧ leaves.length < 2 ^ depth) →
    ∃ e t', ops.insertWithSiblings t id = some (.error e, t')

/-- All of the ids are taken, one after the other. -/
def TakesAll (Takes : List Fr → Fr → Prop) : List Fr → List Fr → Prop
  | _, [] => True
  | leaves, id :: ids => Takes leaves id ∧ TakesAll Takes (leaves ++ [id]) ids

/-- The batch can be appended behind `leaves`. -/
def Appends (depth : Nat) (Takes : List Fr → Fr → Prop) (leaves noteIds : List Fr) : Prop :=
  TakesAll Takes leaves (insertedIds noteIds) ∧
    leaves.length + (insertedIds noteIds).length ≤ 2 ^ depth

variable {poseidon sha256} {T : Type} {ops : PendingNotesTree T} {depth : Nat}
variable {Holds : List Fr → T → Prop} {Takes : List Fr → Fr → Prop}

theorem appends_zero {leaves noteIds : List Fr} :
    Appends depth Takes leaves (0 :: noteIds) ↔ Appends depth Takes leaves noteIds := by
  unfold Appends
  rw [insertedIds_cons_zero]

theorem appends_cons {leaves noteIds : List Fr} {id : Fr} (hid : id ≠ 0) :
    Appends depth Takes leaves (id :: noteIds) ↔
      (Takes leaves id ∧ leaves.length < 2 ^ depth) ∧ Appends depth Takes (leaves ++ [id]) noteIds := by
  unfold Appends
  rw [insertedIds_cons hid, TakesAll, List.length_cons, List.length_append, List.length_singleton]
  constructor
  · intro ⟨⟨htakes, hall⟩, hroom⟩
    exact ⟨⟨htakes, by omega⟩, hall, by omega⟩
  · intro ⟨⟨htakes, _⟩, hall, hroom⟩
    exact ⟨⟨htakes, hall⟩, by omega⟩

/-- The literal zeros of a skipped slot are the texts of zero elements. -/
theorem zeroRow_texts (depth : Nat) :
    List.replicate depth "0" = (List.replicate depth (0 : Fr)).map frToDec := by
  rw [List.map_replicate]
  rfl

theorem insertSlots_spec (hserves : Serves poseidon ops depth Holds Takes) (noteIds : List Fr) :
    ∀ (leaves : List Fr) (t : T) (siblings : List (List String)), Holds leaves t →
      (Appends depth Takes leaves noteIds ∧ ∃ t', insertSlots ops depth noteIds t siblings =
          some (.ok (siblings ++ (slotRows poseidon 0 depth leaves noteIds).map fun row => row.map frToDec),
            t') ∧
          Holds (leaves ++ insertedIds noteIds) t') ∨
      (¬ Appends depth Takes leaves noteIds ∧
        ∃ e t', insertSlots ops depth noteIds t siblings = some (.error e, t')) := by
  induction noteIds with
  | nil =>
    intro leaves t siblings h
    refine .inl ⟨⟨trivial, hserves.fits leaves t h⟩, t, ?_, ?_⟩
    · rw [insertSlots, slotRows, List.map_nil, List.append_nil]
    · rw [insertedIds, List.filter_nil, List.append_nil]
      exact h
  | cons id noteIds ih =>
    intro leaves t siblings h
    by_cases hid : id = 0
    · subst hid
      have hzero : slotRows poseidon 0 depth leaves (0 :: noteIds) =
          List.replicate depth 0 :: slotRows poseidon 0 depth leaves noteIds := by
        rw [slotRows, if_pos rfl]
      rw [appends_zero, insertSlots, if_pos rfl, hzero, List.map_cons, ← zeroRow_texts,
        insertedIds_cons_zero]
      have hrest := ih leaves t (siblings ++ [List.replicate depth "0"]) h
      rw [List.append_assoc] at hrest
      exact hrest
    · have hslot : slotRows poseidon 0 depth leaves (id :: noteIds) =
          path poseidon 0 (leaves ++ [id]) depth leaves.length ::
            slotRows poseidon 0 depth (leaves ++ [id]) noteIds := by
        rw [slotRows, if_neg hid]
      rw [appends_cons hid, insertSlots, if_neg hid, hslot, insertedIds_cons hid]
      by_cases htakes : Takes leaves id ∧ leaves.length < 2 ^ depth
      · obtain ⟨t', hinsert, h'⟩ := hserves.takes leaves t id h htakes.1 htakes.2
        have hrest := ih (leaves ++ [id]) t' (siblings ++
          [(path poseidon 0 (leaves ++ [id]) depth leaves.length).map frToDec]) h'
        rw [List.append_assoc, List.append_assoc] at hrest
        rw [hinsert]
        rcases hrest with ⟨hall, hdone⟩ | ⟨hnot, hfailed⟩
        · exact .inl ⟨⟨htakes, hall⟩, hdone⟩
        · exact .inr ⟨fun hall => hnot hall.2, hfailed⟩
      · obtain ⟨e, t', hinsert⟩ := hserves.refuses leaves t id h htakes
        rw [hinsert]
        exact .inr ⟨fun hall => htakes hall.1, e, t', rfl⟩

/-- The input of the binding, from the witness of the core. -/
def inputOf (w : PendingCommitmentWitness) : PendingCommitmentInput where
  circuitInput := ⟨w.currentNoteIndex, w.inputHash, w.currentNotesRoot, w.pendingNoteIds, w.siblings⟩
  inputHash := w.inputHash
  paddedNoteIds := w.pendingNoteIds
  newNotesRoot := w.newNotesRoot

/-- What a request needs of a tree with history `leaves`. -/
structure Fits (depth : Nat) (Takes : List Fr → Fr → Prop) (leaves : List Fr) (batchSize : Nat)
    (noteIds : List Fr) : Prop where
  nonempty : noteIds ≠ []
  size : noteIds.length ≤ batchSize
  appends : Appends depth Takes leaves noteIds

variable (sha256) in
/-- A failed build returns the tree it was given. -/
theorem build_spec (hserves : Serves poseidon ops depth Holds Takes) (hd : depth < usizeBits)
    {leaves : List Fr} {t : T} (h : Holds leaves t) (batchSize : Nat) (noteIds : List Fr) :
    (Fits depth Takes leaves batchSize noteIds ∧ ∃ t',
        buildPendingCommitmentInput sha256 ops t batchSize noteIds =
          some (.ok (inputOf (historyWitness poseidon sha256 0 depth leaves (padNoteIds batchSize noteIds))),
            t') ∧
        Holds (leaves ++ insertedIds noteIds) t') ∨
      (¬ Fits depth Takes leaves batchSize noteIds ∧ ∃ e,
        buildPendingCommitmentInput sha256 ops t batchSize noteIds = some (.error e, t)) := by
  unfold buildPendingCommitmentInput
  by_cases hempty : noteIds = []
  · subst hempty
    exact .inr ⟨fun hfits => hfits.nonempty rfl, _, rfl⟩
  · rw [if_neg (by rwa [List.isEmpty_iff])]
    by_cases hlong : batchSize < noteIds.length
    · rw [if_pos hlong]
      exact .inr ⟨fun hfits => absurd hfits.size (by omega), _, rfl⟩
    · rw [if_neg hlong]
      have hsize : noteIds.length ≤ batchSize := Nat.le_of_not_lt hlong
      have hinserted := insertedIds_padded hsize
      have hpadded : Appends depth Takes leaves (padNoteIds batchSize noteIds) ↔
          Appends depth Takes leaves noteIds := by
        unfold Appends
        rw [hinserted]
      simp only [hserves.root leaves t h, hserves.same_depth leaves t h, Option.bind_eq_bind,
        Option.bind_some]
      rcases insertSlots_spec hserves (padNoteIds batchSize noteIds) leaves t [] h with
        ⟨happends, t', hslots, h'⟩ | ⟨hnot, e, t', hslots⟩
      · have hhash := historyHash_eq poseidon sha256 0 leaves hd (padNoteIds batchSize noteIds) happends.2
        rw [← hserves.leafCount _ _ h', ← hserves.leafCount leaves t h] at hhash
        rw [hslots]
        simp only [Option.bind_some, hserves.root _ _ h', historyRoot, hhash]
        refine .inl ⟨⟨hempty, hsize, hpadded.mp happends⟩, t', ?_, by rw [← hinserted]; exact h'⟩
        rw [hserves.leafCount leaves t h]
        rfl
      · rw [hslots]
        exact .inr ⟨fun hfits => hnot (hpadded.mpr hfits.appends), e, rfl⟩

/-! ## The two tree forms -/

variable (poseidon) in
theorem frontier_serves {shardHeight : Nat} (hd : depth < usizeBits) (hpos : 0 < shardHeight) :
    Serves poseidon (frontierNotesTree poseidon) depth
      (fun leaves f => f = NotesFrontier.ofLeaves poseidon depth shardHeight leaves ∧
        leaves.length ≤ 2 ^ depth) fun _ _ => True where
  same_depth := fun _ _ ⟨hf, _⟩ => by rw [hf]; rfl
  root := fun _ _ ⟨hf, hle⟩ => by
    rw [hf]
    exact NotesFrontier.root_ofLeaves poseidon hd hle
  leafCount := fun _ _ ⟨hf, _⟩ => by rw [hf]; rfl
  fits := fun _ _ ⟨_, hle⟩ => hle
  takes := by
    intro leaves f id ⟨hf, hle⟩ _ hroom
    refine ⟨NotesFrontier.ofLeaves poseidon depth shardHeight (leaves ++ [id]), ?_, rfl, ?_⟩
    · simp only [frontierNotesTree, hf, NotesFrontier.appendWithSiblings_ofLeaves poseidon hd hpos,
        if_neg (Nat.not_le.mpr hroom)]
      rfl
    · rw [List.length_append, List.length_singleton]
      exact hroom
  refuses := by
    intro leaves f id ⟨hf, hle⟩ hfull
    have hroom : 2 ^ depth ≤ leaves.length := Nat.le_of_not_lt fun hroom => hfull ⟨trivial, hroom⟩
    refine ⟨.native "insert pending note" (.treeFull depth), f, ?_⟩
    simp only [frontierNotesTree, hf, NotesFrontier.appendWithSiblings_ofLeaves poseidon hd hpos,
      if_pos hroom]
    rfl

variable (poseidon depth) in
theorem indexed_serves :
    Serves poseidon (indexedNotesTree poseidon) depth (IndexedMerkleTree.Holds poseidon depth)
      fun leaves id => id ∉ leaves where
  same_depth := fun _ _ h => by
    simp only [indexedNotesTree, h.tree]
    rfl
  root := fun _ _ h => h.root
  leafCount := fun _ _ h => h.leafCount
  fits := fun _ _ h => h.fits
  takes := by
    intro leaves t id h hfresh hroom
    have hinsert := IndexedMerkleTree.insert_spec h id
    rw [if_neg hfresh, if_neg (Nat.not_le.mpr hroom)] at hinsert
    obtain ⟨t', hinsert, h'⟩ := hinsert
    have hindex : t'.getIndex id = some leaves.length :=
      (h'.indices id leaves.length).mpr (by simp)
    have hproof := Imt.createProof_canon poseidon 0 h'.fits
      (show leaves.length < (leaves ++ [id]).length by simp)
    rw [← h'.tree] at hproof
    refine ⟨t', ?_, h'⟩
    simp only [indexedNotesTree, hinsert, createProof, Option.bind_eq_bind, Option.bind_some, hindex,
      hproof, Option.map_some]
  refuses := by
    intro leaves t id h hrefused
    have hinsert := IndexedMerkleTree.insert_spec h id
    by_cases hmem : id ∈ leaves
    · rw [if_pos hmem] at hinsert
      refine ⟨.native "insert pending note" .duplicateLeaf, t, ?_⟩
      simp only [indexedNotesTree, hinsert]
      rfl
    · have hfull : 2 ^ depth ≤ leaves.length := Nat.le_of_not_lt fun hroom => hrefused ⟨hmem, hroom⟩
      rw [if_neg hmem, if_pos hfull] at hinsert
      refine ⟨.native "insert pending note" (.treeFull depth), t, ?_⟩
      simp only [indexedNotesTree, hinsert]
      rfl

theorem takesAll_fresh (ids : List Fr) : ∀ leaves : List Fr,
    TakesAll (fun leaves id => id ∉ leaves) leaves ids ↔ ids.Nodup ∧ ∀ id ∈ ids, id ∉ leaves := by
  induction ids with
  | nil => exact fun leaves => ⟨fun _ => ⟨List.nodup_nil, fun _ h => (by cases h)⟩, fun _ => trivial⟩
  | cons id ids ih =>
    intro leaves
    rw [TakesAll, ih, List.nodup_cons, List.forall_mem_cons]
    constructor
    · intro ⟨hid, hnodup, hall⟩
      refine ⟨⟨fun hmem => hall id hmem (by simp), hnodup⟩, hid, fun x hx hleaf => ?_⟩
      exact hall x hx (List.mem_append_left _ hleaf)
    · intro ⟨⟨hnot, hnodup⟩, hid, hall⟩
      refine ⟨hid, hnodup, fun x hx hmem => ?_⟩
      rcases List.mem_append.mp hmem with hmem | hmem
      · exact hall x hx hmem
      · rw [List.mem_singleton.mp hmem] at hx
        exact hnot hx

theorem takesAll_true (ids : List Fr) : ∀ leaves : List Fr, TakesAll (fun _ _ => True) leaves ids := by
  induction ids with
  | nil => exact fun _ => trivial
  | cons id ids ih => exact fun leaves => ⟨trivial, ih _⟩

theorem checkRepeats_cases (noteIds : List Fr) : ∀ seen : List Fr,
    ((insertedIds noteIds).Nodup ∧ (∀ id ∈ insertedIds noteIds, id ∉ seen) ∧
        checkRepeats noteIds seen = .ok ()) ∨
      (¬ ((insertedIds noteIds).Nodup ∧ ∀ id ∈ insertedIds noteIds, id ∉ seen) ∧
        ∃ e, checkRepeats noteIds seen = .error e) := by
  induction noteIds with
  | nil => exact fun _ => .inl ⟨List.nodup_nil, fun _ h => (by cases h), rfl⟩
  | cons id noteIds ih =>
    intro seen
    unfold checkRepeats
    by_cases hid : id = 0
    · subst hid
      rw [if_pos rfl, insertedIds_cons_zero]
      exact ih seen
    · rw [if_neg hid, insertedIds_cons hid, List.nodup_cons, List.forall_mem_cons]
      by_cases hseen : id ∈ seen
      · rw [if_pos hseen]
        exact .inr ⟨fun h => h.2.1 hseen, _, rfl⟩
      · rw [if_neg hseen]
        rcases ih (id :: seen) with ⟨hnodup, hfresh, hok⟩ | ⟨hnot, hfailed⟩
        · refine .inl ⟨⟨fun hmem => hfresh id hmem List.mem_cons_self, hnodup⟩, ⟨hseen, ?_⟩, hok⟩
          exact fun x hx hmem => hfresh x hx (List.mem_cons_of_mem _ hmem)
        · refine .inr ⟨fun ⟨⟨hfirst, hnodup⟩, _, hall⟩ => hnot ⟨hnodup, fun x hx hmem => ?_⟩, hfailed⟩
          rcases List.mem_cons.mp hmem with rfl | hmem
          · exact hfirst hx
          · exact hall x hx hmem

theorem batchSizeFromJs_le {batchSize : Option Rat} {n : Nat} (h : batchSizeFromJs batchSize = .ok n) :
    n ≤ maxPendingBatchSize := by
  unfold batchSizeFromJs at h
  split at h
  · cases h
  · split at h
    · rename_i hvalid
      cases h
      omega
    · cases h

variable (poseidon sha256) in
/-- What both builds return where they succeed. -/
def builtInput (depth : Nat) (leaves : List Fr) (batchSize : Nat) (noteIds : List Fr) :
    PendingCommitmentInput :=
  inputOf (historyWitness poseidon sha256 0 depth leaves (padNoteIds batchSize noteIds))

/-- A batch of size `n` that has room behind `leaves` and no note twice. -/
structure Request (depth : Nat) (leaves : List Fr) (batchSize : Option Rat) (noteIds : List Fr)
    (n : Nat) : Prop where
  batch : batchSizeFromJs batchSize = .ok n
  nonempty : noteIds ≠ []
  size : noteIds.length ≤ n
  nodup : (insertedIds noteIds).Nodup
  room : leaves.length + (insertedIds noteIds).length ≤ 2 ^ depth

theorem Request.unique {leaves noteIds : List Fr} {batchSize : Option Rat} {n n' : Nat}
    (h : Request depth leaves batchSize noteIds n) (h' : Request depth leaves batchSize noteIds n') :
    n = n' := by
  cases h.batch.symm.trans h'.batch
  rfl

theorem request_iff_fits {leaves noteIds : List Fr} {batchSize : Option Rat} {n : Nat}
    (hn : batchSizeFromJs batchSize = .ok n) : Request depth leaves batchSize noteIds n ↔
      (insertedIds noteIds).Nodup ∧ Fits depth (fun _ _ => True) leaves n noteIds := by
  constructor
  · intro h
    exact ⟨h.nodup, h.nonempty, h.size, takesAll_true _ _, h.room⟩
  · intro ⟨hnodup, h⟩
    exact ⟨hn, h.nonempty, h.size, hnodup, h.appends.2⟩

/-- The tree's check is that of the frontier, and that no note is among the leaves. -/
theorem request_fresh_iff_fits {leaves noteIds : List Fr} {batchSize : Option Rat} {n : Nat}
    (hn : batchSizeFromJs batchSize = .ok n) :
    (Request depth leaves batchSize noteIds n ∧ ∀ id ∈ insertedIds noteIds, id ∉ leaves) ↔
      Fits depth (fun leaves id => id ∉ leaves) leaves n noteIds := by
  constructor
  · intro ⟨h, hfresh⟩
    exact ⟨h.nonempty, h.size, (takesAll_fresh _ _).mpr ⟨h.nodup, hfresh⟩, h.room⟩
  · intro h
    obtain ⟨hall, hroom⟩ := h.appends
    obtain ⟨hnodup, hfresh⟩ := (takesAll_fresh _ _).mp hall
    exact ⟨⟨hn, h.nonempty, h.size, hnodup, hroom⟩, hfresh⟩

variable (poseidon sha256) in
/-- A build answers a request it can serve and moves on to a grown tree, or fails and keeps its
tree. -/
structure Answers (depth : Nat) (leaves : List Fr) (batchSize : Option Rat) (noteIds : List Fr) (Fresh : Prop)
    (Grown : T → Prop) (t : T) (r : Except NodeError PendingCommitmentInput) (t' : T) : Prop where
  ok : (∃ input, r = .ok input) ↔ (∃ n, Request depth leaves batchSize noteIds n) ∧ Fresh
  input : ∀ input, r = .ok input → ∃ n, Request depth leaves batchSize noteIds n ∧
    input = builtInput poseidon sha256 depth leaves n noteIds
  grown : ∀ input, r = .ok input → Grown t'
  kept : ∀ e, r = .error e → t' = t

variable (poseidon sha256) in
theorem Answers.of_ok {leaves noteIds : List Fr} {batchSize : Option Rat} {Fresh : Prop}
    {Grown : T → Prop} {t t' : T} {n : Nat} (hrequest : Request depth leaves batchSize noteIds n)
    (hfresh : Fresh) (hgrown : Grown t') :
    Answers poseidon sha256 depth leaves batchSize noteIds Fresh Grown t
      (.ok (builtInput poseidon sha256 depth leaves n noteIds)) t' where
  ok := ⟨fun _ => ⟨⟨n, hrequest⟩, hfresh⟩, fun _ => ⟨_, rfl⟩⟩
  input := fun _ hinput => ⟨n, hrequest, (Except.ok.inj hinput).symm⟩
  grown := fun _ _ => hgrown
  kept := fun _ herror => (by cases herror)

variable (poseidon sha256) in
theorem Answers.of_error {leaves noteIds : List Fr} {batchSize : Option Rat} {Fresh : Prop}
    {Grown : T → Prop} {t : T} {e : NodeError}
    (hnot : ∀ n, Request depth leaves batchSize noteIds n → ¬ Fresh) :
    Answers poseidon sha256 depth leaves batchSize noteIds Fresh Grown t (.error e) t where
  ok := ⟨fun ⟨_, h⟩ => (by cases h), fun ⟨⟨n, hrequest⟩, hfresh⟩ => absurd hfresh (hnot n hrequest)⟩
  input := fun _ hinput => (by cases hinput)
  grown := fun _ hinput => (by cases hinput)
  kept := fun _ _ => rfl

variable (poseidon sha256) in
theorem frontier_answers {shardHeight : Nat} (hd : depth < usizeBits) (hpos : 0 < shardHeight)
    {leaves : List Fr} (hle : leaves.length ≤ 2 ^ depth) (batchSize : Option Rat) (noteIds : List Fr) :
    let f := NotesFrontier.ofLeaves poseidon depth shardHeight leaves
    ∃ r f', NotesFrontier.buildPendingCommitment poseidon sha256 f batchSize noteIds = some (r, f') ∧
      Answers poseidon sha256 depth leaves batchSize noteIds True
        (fun f' => f' = NotesFrontier.ofLeaves poseidon depth shardHeight (leaves ++ insertedIds noteIds))
        f r f' := by
  intro f
  unfold NotesFrontier.buildPendingCommitment
  cases hbatch : batchSizeFromJs batchSize with
  | error e =>
    refine ⟨.error e, f, rfl, .of_error poseidon sha256 fun n hrequest => ?_⟩
    cases hbatch.symm.trans hrequest.batch
  | ok n =>
    rcases checkRepeats_cases noteIds [] with ⟨hnodup, -, hok⟩ | ⟨hrepeat, e, herror⟩
    · rw [hok]
      rcases build_spec sha256 (frontier_serves poseidon hd hpos) hd ⟨rfl, hle⟩ n noteIds with
        ⟨hfits, f', hbuild, hgrown, -⟩ | ⟨hnot, e, hbuild⟩
      · exact ⟨_, f', hbuild,
          .of_ok poseidon sha256 ((request_iff_fits hbatch).mpr ⟨hnodup, hfits⟩) trivial hgrown⟩
      · refine ⟨.error e, f, hbuild, .of_error poseidon sha256 fun n' hrequest _ => ?_⟩
        cases hbatch.symm.trans hrequest.batch
        exact hnot ((request_iff_fits hbatch).mp hrequest).2
    · rw [herror]
      refine ⟨.error e, f, rfl, .of_error poseidon sha256 fun n' hrequest _ => ?_⟩
      exact hrepeat ⟨hrequest.nodup, fun _ _ => List.not_mem_nil⟩

variable (poseidon sha256) in
theorem indexed_answers (hd : depth < usizeBits) {leaves : List Fr} {t : IndexedMerkleTree Fr}
    (h : IndexedMerkleTree.Holds poseidon depth leaves t) (batchSize : Option Rat) (noteIds : List Fr) :
    ∃ r t', IndexedMerkleTree.buildPendingCommitment poseidon sha256 t batchSize noteIds = some (r, t') ∧
      Answers poseidon sha256 depth leaves batchSize noteIds (∀ id ∈ insertedIds noteIds, id ∉ leaves)
        (IndexedMerkleTree.Holds poseidon depth (leaves ++ insertedIds noteIds)) t r t' := by
  unfold IndexedMerkleTree.buildPendingCommitment
  cases hbatch : batchSizeFromJs batchSize with
  | error e =>
    refine ⟨.error e, t, rfl, .of_error poseidon sha256 fun n hrequest => ?_⟩
    cases hbatch.symm.trans hrequest.batch
  | ok n =>
    rcases build_spec sha256 (indexed_serves poseidon depth) hd h n noteIds with
      ⟨hfits, t', hbuild, hgrown⟩ | ⟨hnot, e, hbuild⟩
    · obtain ⟨hrequest, hfresh⟩ := (request_fresh_iff_fits hbatch).mpr hfits
      exact ⟨_, t', hbuild, .of_ok poseidon sha256 hrequest hfresh hgrown⟩
    · refine ⟨.error e, t, hbuild, .of_error poseidon sha256 fun n' hrequest hfresh => ?_⟩
      cases hbatch.symm.trans hrequest.batch
      exact hnot ((request_fresh_iff_fits hbatch).mp ⟨hrequest, hfresh⟩)

variable (poseidon sha256) in
theorem builtInput_core {flat : Imt Fr} {leaves : List Fr} (hd : depth < usizeBits)
    (hle : leaves.length ≤ 2 ^ depth) (hflat : Imt.fromLeaves poseidon depth leaves = some flat)
    {batchSize : Option Rat} {n : Nat} {noteIds : List Fr} (h : Request depth leaves batchSize noteIds n) :
    ∃ w, Curvy.buildPendingCommitment poseidon sha256 flat depth n noteIds = some w ∧
      builtInput poseidon sha256 depth leaves n noteIds = inputOf w := by
  have hcanon : flat = Imt.canon poseidon depth 0 leaves :=
    Option.some.inj (hflat.symm.trans (Imt.fromLeavesWithZero_eq poseidon hd 0 hle))
  rw [hcanon]
  exact ⟨_, buildPendingCommitment_canon hd hle (batchSizeFromJs_le h.batch) h.size h.room, rfl⟩

variable (poseidon sha256) in
/-- The pending commitment over the frontier and over the indexed tree of one leaf history, and
the builder of the core over the flat tree. -/
structure Agree (depth shardHeight : Nat) (leaves : List Fr) (f : NotesFrontier Fr)
    (t : IndexedMerkleTree Fr) (flat : Imt Fr) (batchSize : Option Rat) (noteIds : List Fr)
    (rf rt : Except NodeError PendingCommitmentInput) (f' : NotesFrontier Fr)
    (t' : IndexedMerkleTree Fr) : Prop where
  frontier : NotesFrontier.buildPendingCommitment poseidon sha256 f batchSize noteIds = some (rf, f')
  indexed : IndexedMerkleTree.buildPendingCommitment poseidon sha256 t batchSize noteIds = some (rt, t')
  frontier_kept : ∀ e, rf = .error e → f' = f
  indexed_kept : ∀ e, rt = .error e → t' = t
  core : ∀ input, rf = .ok input ∨ rt = .ok input → ∃ n w, batchSizeFromJs batchSize = .ok n ∧
    Curvy.buildPendingCommitment poseidon sha256 flat depth n noteIds = some w ∧ input = inputOf w
  same : (∀ id ∈ noteIds, id ≠ 0 → id ∉ leaves) →
    (∃ input, rf = .ok input ∧ rt = .ok input) ∨ ∃ e e', rf = .error e ∧ rt = .error e'
  frontier_ok : (∃ input, rf = .ok input) ↔ ∃ n, Request depth leaves batchSize noteIds n
  indexed_ok : (∃ input, rt = .ok input) ↔
    (∃ n, Request depth leaves batchSize noteIds n) ∧ ∀ id ∈ insertedIds noteIds, id ∉ leaves
  frontier_grown : ∀ input, rf = .ok input →
    f' = NotesFrontier.ofLeaves poseidon depth shardHeight (leaves ++ insertedIds noteIds)
  indexed_grown : ∀ input, rt = .ok input →
    IndexedMerkleTree.Holds poseidon depth (leaves ++ insertedIds noteIds) t'

/-- Both forms build the same input or both fail where no id is in the tree yet, what they
build is what the core builds, and a failed build changes nothing. A build fails only for a batch
that is none, a note that is twice in it or in the tree, or want of room. -/
theorem pending_commitment_agrees (poseidon : Fr → Fr → Fr) (sha256 : List UInt8 → List UInt8)
    {depth shardHeight : Nat} {f₀ f : NotesFrontier Fr} {ops : List (NotesFrontier.Op Fr)}
    {log : List (CompletedShard Fr)} {t : IndexedMerkleTree Fr} {flat : Imt Fr}
    (hnew : Curvy.NotesFrontier.new poseidon depth shardHeight = .ok f₀)
    (hrun : Curvy.NotesFrontier.run poseidon f₀ ops = some (log, f))
    (ht : IndexedMerkleTree.Reachable poseidon depth (ops.foldl (NotesFrontier.Op.leaves depth) []) t)
    (hflat : Imt.fromLeaves poseidon depth (ops.foldl (NotesFrontier.Op.leaves depth) []) = some flat)
    (batchSize : Option Rat) (noteIds : List Fr) :
    ∃ rf rt f' t', Agree poseidon sha256 depth shardHeight
      (ops.foldl (NotesFrontier.Op.leaves depth) []) f t flat batchSize noteIds rf rt f' t' := by
  obtain ⟨hpos, hlt, hd, rfl⟩ := NotesFrontier.new_eq_ok poseidon hnew
  obtain ⟨hrun', hle⟩ := NotesFrontier.run_ofLeaves poseidon hd hpos (by omega) ops
  have hholds := ht.holds
  generalize ops.foldl (NotesFrontier.Op.leaves depth) [] = leaves at *
  cases hrun.symm.trans hrun'
  obtain ⟨rf, f', hf, hanswers⟩ := frontier_answers poseidon sha256 hd hpos hle batchSize noteIds
  obtain ⟨rt, t', ht', hanswers'⟩ := indexed_answers poseidon sha256 hd hholds batchSize noteIds
  have hcore : ∀ input, (∃ n, Request depth leaves batchSize noteIds n ∧
      input = builtInput poseidon sha256 depth leaves n noteIds) → ∃ n w,
        batchSizeFromJs batchSize = .ok n ∧
        Curvy.buildPendingCommitment poseidon sha256 flat depth n noteIds = some w ∧ input = inputOf w := by
    rintro input ⟨n, hrequest, rfl⟩
    obtain ⟨w, hw, hinput⟩ := builtInput_core poseidon sha256 hd hle hflat hrequest
    exact ⟨n, w, hrequest.batch, hw, hinput⟩
  have hok : (∃ input, rf = .ok input) ↔ ∃ n, Request depth leaves batchSize noteIds n :=
    hanswers.ok.trans (and_iff_left trivial)
  refine ⟨rf, rt, f', t', hf, ht', hanswers.kept, hanswers'.kept, ?_, ?_, hok, hanswers'.ok,
    hanswers.grown, hanswers'.grown⟩
  · intro input hinput
    rcases hinput with h | h
    · exact hcore input (hanswers.input input h)
    · exact hcore input (hanswers'.input input h)
  · intro hfresh
    have hids : ∀ id ∈ insertedIds noteIds, id ∉ leaves := by
      intro id hid
      obtain ⟨hmem, hne⟩ := List.mem_filter.mp hid
      exact hfresh id hmem (by simpa using hne)
    have hboth : (∃ input, rf = .ok input) ↔ ∃ input, rt = .ok input :=
      hok.trans ((hanswers'.ok.trans (and_iff_left hids)).symm)
    cases rf with
    | ok input =>
      obtain ⟨input', rfl⟩ := hboth.mp ⟨input, rfl⟩
      obtain ⟨n, hrequest, rfl⟩ := hanswers.input input rfl
      obtain ⟨n', hrequest', rfl⟩ := hanswers'.input input' rfl
      cases hrequest.unique hrequest'
      exact .inl ⟨_, rfl, rfl⟩
    | error e =>
      cases rt with
      | ok input =>
        obtain ⟨_, h⟩ := hboth.mpr ⟨input, rfl⟩
        cases h
      | error e' => exact .inr ⟨e, e', rfl, rfl⟩

/-- One leaf in the history, a batch with a skipped slot. -/
theorem pending_commitment_agrees_example :
    ∃ log f t flat rf rt f' t',
      Curvy.NotesFrontier.run (fun a b : Fr => 2 * a + 3 * b + 1)
          (NotesFrontier.ofLeaves (fun a b => 2 * a + 3 * b + 1) 3 1 []) [.append 4] = some (log, f) ∧
        IndexedMerkleTree.Reachable (fun a b : Fr => 2 * a + 3 * b + 1) 3 [4] t ∧
        Agree (fun a b => 2 * a + 3 * b + 1) (List.take 32) 3 1 [4] f t flat (some 4) [5, 0, 6]
          rf rt f' t' := by
  have hnew := NotesFrontier.new_eq (fun a b : Fr => 2 * a + 3 * b + 1) (show 0 < 1 by decide)
    (show 1 < 3 by decide) (by decide)
  have hrun := (NotesFrontier.run_ofLeaves (fun a b : Fr => 2 * a + 3 * b + 1) (show 3 < usizeBits by decide)
    (show 0 < 1 by decide) (by decide) [.append 4]).1
  have ht : IndexedMerkleTree.Reachable (fun a b : Fr => 2 * a + 3 * b + 1) 3 [4] _ := .fromLeaves
    (t := ⟨Imt.canon (fun a b : Fr => 2 * a + 3 * b + 1) 3 0 [4], AList.singleton 4 0⟩) rfl
  have hflat : Imt.fromLeaves (fun a b : Fr => 2 * a + 3 * b + 1) 3 [4] = some _ :=
    Imt.fromLeavesWithZero_eq _ (by decide) 0 (by decide)
  obtain ⟨rf, rt, f', t', hagree⟩ :=
    pending_commitment_agrees _ _ hnew hrun ht hflat (some 4) [5, 0, 6]
  exact ⟨_, _, _, _, rf, rt, f', t', hrun, ht, hagree⟩

end History

end Curvy.Node
