import Curvy.Core.Calldata
import Curvy.Core.IndexedTree
import Curvy.Core.NotesFrontierInv

/-!
# The calldata-bound pending commitment

`AppendableNotesTree` is the trait of the trees a batch is appended to. The builder is
proved once against `Lawful` trees, and its two results over one leaf history are equal.
-/

namespace Curvy

set_option autoImplicit false

/-- `T` as a tree of notes; a Rust panic is `none`. -/
structure AppendableNotesTree (F T : Type) where
  leafCount : T → Nat
  root : T → Option F
  nextLeafFrontier : T → Option (Except TreeError (List F))
  appendAll : T → List F → Option (Except TreeError Unit × T)

def IndexedMerkleTree.appendable {F : Type} [DecidableEq F] [Zero F] (poseidon : F → F → F) :
    AppendableNotesTree F (IndexedMerkleTree F) where
  leafCount := leafCount
  root := root
  nextLeafFrontier := nextLeafFrontier
  appendAll := insertMany poseidon

def NotesFrontier.appendable {F : Type} [Zero F] (poseidon : F → F → F) :
    AppendableNotesTree F (NotesFrontier F) where
  leafCount := leafCount
  root := root poseidon
  nextLeafFrontier := nextLeafFrontier
  appendAll := appendAll poseidon

def maxPendingBatchSize : Nat := 4096

inductive PendingCommitmentError where
  | invalidBatchSize (batchSize : Nat)
  | noNotes
  | batchTooLarge (count batchSize : Nat)
  | zeroNoteId
  | duplicateNoteId
  | tree (error : TreeError)
  | binding (error : CalldataError)
  deriving DecidableEq, Repr

structure BoundPendingCommitment (F : Type) where
  currentNoteIndex : Nat
  currentNotesRoot : F
  pendingNoteIds : List F
  frontier : List F
  newNotesRoot : F
  newNoteIndex : Nat
  binding : CalldataBinding F
  deriving DecidableEq, Repr

section Definitions
variable {F T : Type} [CommRing F] [DecidableEq F]

def boundPendingCommitmentWords (pendingNoteIds : List F) (currentNotesRoot newNotesRoot : F)
    (currentNoteIndex newNoteIndex : Nat) : List F :=
  pendingNoteIds ++
    [currentNotesRoot, newNotesRoot, (currentNoteIndex : F), (newNoteIndex : F)]

/-- Panics when the index runs backwards or past the batch. -/
def BoundPendingCommitment.noteIds {F : Type} (c : BoundPendingCommitment F) : Option (List F) :=
  if c.newNoteIndex < c.currentNoteIndex then none
  else if c.pendingNoteIds.length < c.newNoteIndex - c.currentNoteIndex then none
  else some (c.pendingNoteIds.take (c.newNoteIndex - c.currentNoteIndex))

def BoundPendingCommitment.words (c : BoundPendingCommitment F) : List F :=
  boundPendingCommitmentWords c.pendingNoteIds c.currentNotesRoot c.newNotesRoot
    c.currentNoteIndex c.newNoteIndex

def checkBatchSize (batchSize : Nat) : Except PendingCommitmentError Unit :=
  if 1 ≤ batchSize ∧ batchSize ≤ maxPendingBatchSize then .ok ()
  else .error (.invalidBatchSize batchSize)

/-- The checks on the ids; a repeat is an id the set of earlier ones already holds. -/
def checkNoteIds (batchSize : Nat) (noteIds : List F) : Except PendingCommitmentError Unit :=
  if noteIds.isEmpty then .error .noNotes
  else if batchSize < noteIds.length then .error (.batchTooLarge noteIds.length batchSize)
  else if 0 ∈ noteIds then .error .zeroNoteId
  else if noteIds.Nodup then .ok () else .error .duplicateNoteId

/-- The rest of the builder, with the padded batch. -/
def appendBatch (H : Primitives F) (ops : AppendableNotesTree F T) (tree : T)
    (pendingNoteIds noteIds : List F) :
    Option (Except PendingCommitmentError (BoundPendingCommitment F) × T) := do
  let currentNotesRoot ← ops.root tree
  let currentNoteIndex := ops.leafCount tree
  match ← ops.nextLeafFrontier tree with
  | .error e => some (.error (.tree e), tree)
  | .ok frontier =>
    let (r, tree) ← ops.appendAll tree noteIds
    match r with
    | .error e => some (.error (.tree e), tree)
    | .ok () =>
      let newNotesRoot ← ops.root tree
      let newNoteIndex := ops.leafCount tree
      match bindCalldata H (boundPendingCommitmentWords pendingNoteIds currentNotesRoot
          newNotesRoot currentNoteIndex newNoteIndex) with
      | .error e => some (.error (.binding e), tree)
      | .ok binding =>
        some (.ok ⟨currentNoteIndex, currentNotesRoot, pendingNoteIds, frontier,
          newNotesRoot, newNoteIndex, binding⟩, tree)

def buildBoundPendingCommitment (H : Primitives F) (ops : AppendableNotesTree F T) (tree : T)
    (batchSize : Nat) (noteIds : List F) :
    Option (Except PendingCommitmentError (BoundPendingCommitment F) × T) :=
  match checkBatchSize batchSize, checkNoteIds batchSize noteIds with
  | .error e, _ => some (.error e, tree)
  | .ok (), .error e => some (.error e, tree)
  | .ok (), .ok () =>
    appendBatch H ops tree (noteIds ++ List.replicate (batchSize - noteIds.length) 0) noteIds

end Definitions

/-! ### Trees that append all or nothing -/

/-- On a tree with `Inv` nothing panics, `appendAll` takes exactly the batches `Takes`
allows, and then leaves what `appended` leaves one id at a time. -/
structure Lawful {F T : Type} (ops : AppendableNotesTree F T) (Inv : T → Prop)
    (Takes : T → List F → Prop) (appended : T → List F → Option T) : Prop where
  root : ∀ t, Inv t → ∃ r, ops.root t = some r
  frontier : ∀ t, Inv t → (∃ frontier, ops.nextLeafFrontier t = some (.ok frontier)) ∨
    ∃ e, ops.nextLeafFrontier t = some (.error e) ∧ ∀ ids, ids ≠ [] → ¬ Takes t ids
  refuses : ∀ t ids, Inv t → ¬ Takes t ids → ∃ e, ops.appendAll t ids = some (.error e, t)
  takes : ∀ t ids, Inv t → Takes t ids → ∃ t', ops.appendAll t ids = some (.ok (), t') ∧
    Inv t' ∧ appended t ids = some t' ∧ ops.leafCount t' = ops.leafCount t + ids.length

/-- What a request needs apart from the tree. -/
structure ValidBatch {F : Type} [Zero F] (batchSize : Nat) (noteIds : List F) : Prop where
  size : 1 ≤ batchSize ∧ batchSize ≤ maxPendingBatchSize
  nonempty : noteIds ≠ []
  fits : noteIds.length ≤ batchSize
  nonzero : 0 ∉ noteIds
  nodup : noteIds.Nodup

/-- `c` describes the step from `t` to `t'` that appends `ids`. -/
structure Commits {F T : Type} [CommRing F] (H : Primitives F) (ops : AppendableNotesTree F T)
    (t t' : T) (batchSize : Nat) (ids : List F) (c : BoundPendingCommitment F) : Prop where
  noteIds : c.noteIds = some ids
  pendingNoteIds : c.pendingNoteIds = ids ++ List.replicate (batchSize - ids.length) 0
  padded : c.pendingNoteIds.length = batchSize
  currentNotesRoot : ops.root t = some c.currentNotesRoot
  newNotesRoot : ops.root t' = some c.newNotesRoot
  currentNoteIndex : c.currentNoteIndex = ops.leafCount t
  newNoteIndex : c.newNoteIndex = ops.leafCount t'
  advance : c.newNoteIndex = c.currentNoteIndex + ids.length
  frontier : ops.nextLeafFrontier t = some (.ok c.frontier)
  words : c.words = c.pendingNoteIds ++ [c.currentNotesRoot, c.newNotesRoot,
    (c.currentNoteIndex : F), (c.newNoteIndex : F)]
  binding : Binds H c.words c.binding

/-- All or nothing: the commitment and the tree with the ids, or an error and the tree as
it was. -/
def BuildsAtomically {F T : Type} [CommRing F] [DecidableEq F] (H : Primitives F)
    (ops : AppendableNotesTree F T) (Takes : T → List F → Prop)
    (appended : T → List F → Option T) (t : T) (batchSize : Nat) (noteIds : List F) : Prop :=
  (ValidBatch batchSize noteIds ∧ Takes t noteIds ∧
    ∃ c t', buildBoundPendingCommitment H ops t batchSize noteIds = some (.ok c, t') ∧
      appended t noteIds = some t' ∧ Commits H ops t t' batchSize noteIds c) ∨
  (¬ (ValidBatch batchSize noteIds ∧ Takes t noteIds) ∧
    ∃ e, buildBoundPendingCommitment H ops t batchSize noteIds = some (.error e, t))

section Build
variable {F T : Type} [CommRing F] [DecidableEq F] {H : Primitives F}
variable {ops : AppendableNotesTree F T} {batchSize : Nat} {noteIds : List F}

/-- The checks that do not read the tree: a refusal leaves it alone. -/
theorem build_cases (batchSize : Nat) (noteIds : List F) :
    (¬ ValidBatch batchSize noteIds ∧ ∃ e, ∀ {T : Type} (ops : AppendableNotesTree F T) (t : T),
      buildBoundPendingCommitment H ops t batchSize noteIds = some (.error e, t)) ∨
    (ValidBatch batchSize noteIds ∧ ∀ {T : Type} (ops : AppendableNotesTree F T) (t : T),
      buildBoundPendingCommitment H ops t batchSize noteIds = appendBatch H ops t
        (noteIds ++ List.replicate (batchSize - noteIds.length) 0) noteIds) := by
  unfold buildBoundPendingCommitment
  by_cases hsize : 1 ≤ batchSize ∧ batchSize ≤ maxPendingBatchSize
  · have hchecked : checkBatchSize batchSize = .ok () := if_pos hsize
    rw [hchecked, checkNoteIds]
    by_cases hempty : noteIds = []
    · exact .inl ⟨fun h => h.nonempty hempty, .noNotes, fun _ _ => by simp [hempty]⟩
    rw [if_neg (by simpa using hempty)]
    by_cases hfits : batchSize < noteIds.length
    · rw [if_pos hfits]
      exact .inl ⟨fun h => Nat.not_lt.mpr h.fits hfits, _, fun _ _ => rfl⟩
    rw [if_neg hfits]
    by_cases hzero : 0 ∈ noteIds
    · rw [if_pos hzero]
      exact .inl ⟨fun h => h.nonzero hzero, _, fun _ _ => rfl⟩
    rw [if_neg hzero]
    by_cases hnodup : noteIds.Nodup
    · rw [if_pos hnodup]
      exact .inr ⟨⟨hsize, hempty, Nat.not_lt.mp hfits, hzero, hnodup⟩, fun _ _ => rfl⟩
    · rw [if_neg hnodup]
      exact .inl ⟨fun h => hnodup h.nodup, _, fun _ _ => rfl⟩
  · have hchecked : checkBatchSize batchSize = .error (.invalidBatchSize batchSize) := if_neg hsize
    rw [hchecked]
    exact .inl ⟨fun h => hsize h.size, _, fun _ _ => rfl⟩

omit [CommRing F] [DecidableEq F] in
theorem noteIds_eq [Zero F] {c : BoundPendingCommitment F} {ids : List F} (hpadded :
    c.pendingNoteIds = ids ++ List.replicate (batchSize - ids.length) 0)
    (hadvance : c.newNoteIndex = c.currentNoteIndex + ids.length) : c.noteIds = some ids := by
  have hcount : c.newNoteIndex - c.currentNoteIndex = ids.length := by omega
  rw [BoundPendingCommitment.noteIds, if_neg (by omega), hcount, hpadded,
    if_neg (by simp), List.take_left]

omit [DecidableEq F] in
/-- The words are the padded batch and four values, within the binding's bound. -/
theorem words_bind (hvalid : ValidBatch batchSize noteIds) (root root' : F) (count count' : Nat) :
    ∃ b, bindCalldata H (boundPendingCommitmentWords
        (noteIds ++ List.replicate (batchSize - noteIds.length) 0) root root' count count') =
          .ok b ∧
      Binds H (boundPendingCommitmentWords
        (noteIds ++ List.replicate (batchSize - noteIds.length) 0) root root' count count') b := by
  have hfits := hvalid.fits
  have hsize := hvalid.size.2
  unfold maxPendingBatchSize at hsize
  apply bindCalldata_spec
  · simp [boundPendingCommitmentWords]
  · simp only [boundPendingCommitmentWords, List.length_append, List.length_replicate,
      List.length_cons, List.length_nil, maxCalldataWords]
    omega

theorem build_atomic (H : Primitives F) (batchSize : Nat) (noteIds : List F) {Inv : T → Prop}
    {Takes : T → List F → Prop} {appended : T → List F → Option T}
    (law : Lawful ops Inv Takes appended) {t : T} (h : Inv t) :
    BuildsAtomically H ops Takes appended t batchSize noteIds := by
  rcases build_cases (H := H) batchSize noteIds with ⟨hinvalid, e, hbuild⟩ | ⟨hvalid, hbuild⟩
  · exact .inr ⟨fun hboth => hinvalid hboth.1, e, hbuild ops t⟩
  obtain ⟨root, hroot⟩ := law.root t h
  rcases law.frontier t h with ⟨frontier, hfrontier⟩ | ⟨e, hfrontier, hfull⟩
  · by_cases htakes : Takes t noteIds
    · obtain ⟨t', happend, hinv, happended, hcount⟩ := law.takes t noteIds h htakes
      obtain ⟨root', hroot'⟩ := law.root t' hinv
      obtain ⟨binding, hbind, hbinds⟩ :=
        words_bind (H := H) hvalid root root' (ops.leafCount t) (ops.leafCount t')
      refine .inl ⟨hvalid, htakes, ⟨ops.leafCount t, root,
        noteIds ++ List.replicate (batchSize - noteIds.length) 0, frontier, root',
        ops.leafCount t', binding⟩, t', ?_, happended, ?_⟩
      · simp only [hbuild, appendBatch, hroot, hfrontier, happend, hroot', hbind,
          Option.bind_eq_bind, Option.bind_some]
      · have hfits := hvalid.fits
        exact ⟨noteIds_eq rfl hcount, rfl, by simp; omega, hroot, hroot', rfl, rfl, hcount,
          hfrontier, rfl, hbinds⟩
    · obtain ⟨e, happend⟩ := law.refuses t noteIds h htakes
      refine .inr ⟨fun hboth => htakes hboth.2, .tree e, ?_⟩
      simp only [hbuild, appendBatch, hroot, hfrontier, happend, Option.bind_eq_bind,
        Option.bind_some]
  · refine .inr ⟨fun hboth => hfull noteIds hvalid.nonempty hboth.2, .tree e, ?_⟩
    simp only [hbuild, appendBatch, hroot, hfrontier, Option.bind_eq_bind, Option.bind_some]

/-- Two trees that answer alike before and after the append build alike. -/
theorem build_congr {T₁ T₂ : Type} (ops₁ : AppendableNotesTree F T₁)
    (ops₂ : AppendableNotesTree F T₂) {t₁ t₁' : T₁} {t₂ t₂' : T₂} {r : Except TreeError Unit}
    (hcount : ops₁.leafCount t₁ = ops₂.leafCount t₂) (hroot : ops₁.root t₁ = ops₂.root t₂)
    (hfrontier : ops₁.nextLeafFrontier t₁ = ops₂.nextLeafFrontier t₂)
    (happend₁ : ops₁.appendAll t₁ noteIds = some (r, t₁'))
    (happend₂ : ops₂.appendAll t₂ noteIds = some (r, t₂'))
    (hcount' : ops₁.leafCount t₁' = ops₂.leafCount t₂')
    (hroot' : ops₁.root t₁' = ops₂.root t₂') :
    (buildBoundPendingCommitment H ops₁ t₁ batchSize noteIds).map Prod.fst =
      (buildBoundPendingCommitment H ops₂ t₂ batchSize noteIds).map Prod.fst := by
  rcases build_cases (H := H) batchSize noteIds with ⟨_, e, hbuild⟩ | ⟨_, hbuild⟩
  · simp only [hbuild, Option.map_some]
  · simp only [hbuild, appendBatch, hroot, hcount, hfrontier, happend₁, happend₂, hcount', hroot',
      Option.bind_eq_bind, Option.bind_some, Option.map_bind]
    refine Option.bind_congr fun root _ => ?_
    simp only [Function.comp_apply, Option.map_bind]
    refine Option.bind_congr fun answer _ => ?_
    rcases answer with e | frontier
    · rfl
    rcases r with e | ⟨⟩
    · rfl
    simp only [Function.comp_apply, Option.map_bind]
    refine Option.bind_congr fun root' _ => ?_
    split <;> rfl

end Build

/-! ### The two trees -/

namespace IndexedMerkleTree

variable {F : Type} [DecidableEq F]

/-- The batches an indexed tree takes: they fit and bring no leaf twice. -/
def Takes (t : IndexedMerkleTree F) (ids : List F) : Prop :=
  t.leafCount + ids.length ≤ 2 ^ t.tree.depth ∧ Fresh t.leaves ids

variable [Zero F] {poseidon : F → F → F} {depth : Nat} {leaves : List F}
variable {t : IndexedMerkleTree F}

theorem Holds.takes_iff (h : Holds poseidon depth leaves t) (ids : List F) :
    t.Takes ids ↔ leaves.length + ids.length ≤ 2 ^ depth ∧ Fresh leaves ids := by
  rw [Takes, h.leafCount, h.leaves_eq, h.tree, Imt.canon_depth]

theorem Holds.nextLeafFrontier (h : Holds poseidon depth leaves t) :
    t.nextLeafFrontier =
      if 2 ^ depth ≤ leaves.length then some (.error (.treeFull depth))
      else some (.ok (List.tabulate depth fun level =>
        (PerfectTree.slot poseidon 0 leaves level).getD 0)) := by
  rw [IndexedMerkleTree.nextLeafFrontier, h.tree,
    NotesFrontier.imt_nextLeafFrontier poseidon h.width]

theorem lawful : Lawful (appendable poseidon) (fun t => ∃ leaves, Holds poseidon depth leaves t)
    Takes (inserted poseidon) where
  root := by
    rintro t ⟨leaves, h⟩
    exact ⟨_, h.root⟩
  frontier := by
    rintro t ⟨leaves, h⟩
    have hfrontier := h.nextLeafFrontier
    split at hfrontier
    · rename_i hfull
      refine .inr ⟨_, hfrontier, fun ids hne htakes => ?_⟩
      have hpos := List.length_pos_of_ne_nil hne
      have hfits := ((h.takes_iff ids).mp htakes).1
      omega
    · exact .inl ⟨_, hfrontier⟩
  refuses := by
    rintro t ids ⟨leaves, h⟩ hrefused
    rw [h.takes_iff] at hrefused
    have hspec := insertMany_spec h ids
    split at hspec
    · exact ⟨_, hspec⟩
    · rename_i hfits
      rw [if_neg fun hfresh => hrefused ⟨Nat.not_lt.mp hfits, hfresh⟩] at hspec
      exact ⟨_, hspec⟩
  takes := by
    rintro t ids ⟨leaves, h⟩ htakes
    obtain ⟨hfits, hfresh⟩ := (h.takes_iff ids).mp htakes
    obtain ⟨t', hmany, hholds⟩ := insertMany_eq h ids hfits hfresh
    refine ⟨t', hmany.1, ⟨_, hholds⟩, hmany.2, ?_⟩
    exact hholds.leafCount.trans (by rw [List.length_append, ← h.leafCount]; rfl)

theorem Reachable.inserted {t' : IndexedMerkleTree F} (ids : List F)
    (h : Reachable poseidon depth leaves t) (hins : t.inserted poseidon ids = some t') :
    Reachable poseidon depth (leaves ++ ids) t' := by
  induction ids generalizing leaves t with
  | nil =>
    cases hins
    rwa [List.append_nil]
  | cons id ids ih =>
    rw [IndexedMerkleTree.inserted, List.foldlM_cons, Option.bind_eq_bind,
      Option.bind_eq_some_iff] at hins
    obtain ⟨t₁, hcall, hrest⟩ := hins
    obtain ⟨⟨r, t₂⟩, hinsert, hok⟩ := Option.bind_eq_some_iff.mp hcall
    rcases r with e | index
    · cases hok
    cases hok
    have hstep := Reachable.insert h hinsert
    have hsplit : leaves ++ id :: ids = leaves ++ [id] ++ ids := by simp
    rw [hsplit]
    exact ih hstep hrest

end IndexedMerkleTree

namespace NotesFrontier

variable {F : Type} [Zero F] {poseidon : F → F → F}

/-- The batches a frontier takes: they fit. -/
def Takes (f : NotesFrontier F) (ids : List F) : Prop := f.leafCount + ids.length ≤ 2 ^ f.depth

theorem lawful : Lawful (appendable poseidon) (WellFormed poseidon) Takes (appended poseidon) where
  root := fun _ h => h.root
  frontier := by
    intro f h
    have hfrontier := h.nextLeafFrontier
    split at hfrontier
    · rename_i hfull
      refine .inr ⟨_, hfrontier, fun ids hne htakes => ?_⟩
      have hpos := List.length_pos_of_ne_nil hne
      unfold Takes at htakes
      omega
    · exact .inl ⟨_, hfrontier⟩
  refuses := by
    intro f ids h hrefused
    have hspec := h.appendAll ids
    rw [if_neg (show ¬ f.leafCount + ids.length ≤ 2 ^ f.depth from hrefused)] at hspec
    exact ⟨_, hspec⟩
  takes := by
    intro f ids h htakes
    have hspec := h.appendAll ids
    rw [if_pos (show f.leafCount + ids.length ≤ 2 ^ f.depth from htakes)] at hspec
    obtain ⟨f', happend, happended, hwf, hcount⟩ := hspec
    exact ⟨f', happend, hwf, happended, hcount⟩

theorem WellFormed.of_appended {f f' : NotesFrontier F} {ids : List F} (h : WellFormed poseidon f)
    (htakes : f.Takes ids) (happended : f.appended poseidon ids = some f') :
    WellFormed poseidon f' := by
  obtain ⟨f₁, _, hwf, happended₁, _⟩ := lawful.takes f ids h htakes
  rw [happended₁, Option.some.injEq] at happended
  exact happended ▸ hwf

end NotesFrontier

/-! ### The builder over either tree -/

section Trees
variable {F : Type} [CommRing F] [DecidableEq F] {H : Primitives F} {depth shardHeight : Nat}
variable {leaves noteIds : List F} {t : IndexedMerkleTree F}

/-- Over one history of leaves, none of them in the batch, both trees build the same and
end over the same leaves. -/
theorem build_agrees (batchSize : Nat) (hpos : 0 < shardHeight) (hlt : shardHeight < depth)
    (h : IndexedMerkleTree.Holds H.poseidonPair depth leaves t)
    (hnew : ∀ id ∈ noteIds, id ∉ leaves) :
    ∃ r t' f', buildBoundPendingCommitment H (IndexedMerkleTree.appendable H.poseidonPair) t
          batchSize noteIds = some (r, t') ∧
      buildBoundPendingCommitment H (NotesFrontier.appendable H.poseidonPair)
          (NotesFrontier.ofLeaves H.poseidonPair depth shardHeight leaves) batchSize noteIds =
        some (r, f') ∧
      (r.isOk → f' = NotesFrontier.ofLeaves H.poseidonPair depth shardHeight
        (leaves ++ noteIds)) := by
  have hwf := NotesFrontier.ofLeaves_wellFormed H.poseidonPair hpos hlt h.width h.fits
  rcases build_cases (H := H) batchSize noteIds with ⟨_, e, hbuild⟩ | ⟨hvalid, _⟩
  · exact ⟨.error e, t, _, hbuild _ t, hbuild _ _, fun hok => by cases hok⟩
  have hfresh : IndexedMerkleTree.Fresh leaves noteIds := ⟨hvalid.nodup, hnew⟩
  -- both appends answer alike, and alike trees follow
  have hsame : (buildBoundPendingCommitment H (IndexedMerkleTree.appendable H.poseidonPair) t
        batchSize noteIds).map Prod.fst =
      (buildBoundPendingCommitment H (NotesFrontier.appendable H.poseidonPair)
        (NotesFrontier.ofLeaves H.poseidonPair depth shardHeight leaves) batchSize
        noteIds).map Prod.fst := by
    have hroot : t.root = (NotesFrontier.ofLeaves H.poseidonPair depth shardHeight leaves).root
        H.poseidonPair := by
      rw [h.root, NotesFrontier.root_ofLeaves _ h.width h.fits]
    have hfrontier : t.nextLeafFrontier =
        (NotesFrontier.ofLeaves H.poseidonPair depth shardHeight leaves).nextLeafFrontier := by
      rw [h.nextLeafFrontier, NotesFrontier.nextLeafFrontier_ofLeaves _ h.width]
    have hall := NotesFrontier.appendAll_ofLeaves H.poseidonPair h.width hpos noteIds
      h.fits
    have hmany := IndexedMerkleTree.insertMany_spec h noteIds
    by_cases hfits : leaves.length + noteIds.length ≤ 2 ^ depth
    · rw [if_pos hfits] at hall
      rw [if_neg (Nat.not_lt.mpr hfits), if_pos hfresh] at hmany
      obtain ⟨t', hmany, hholds⟩ := hmany
      have hlen : (leaves ++ noteIds).length ≤ 2 ^ depth := by simpa using hfits
      have hroot' : t'.root = (NotesFrontier.ofLeaves H.poseidonPair depth shardHeight
          (leaves ++ noteIds)).root H.poseidonPair := by
        rw [hholds.root, NotesFrontier.root_ofLeaves _ h.width hlen]
      exact build_congr _ _ h.leafCount hroot hfrontier hmany hall hholds.leafCount hroot'
    · rw [if_neg hfits] at hall
      rw [if_pos (Nat.not_le.mp hfits)] at hmany
      exact build_congr (IndexedMerkleTree.appendable H.poseidonPair)
        (NotesFrontier.appendable H.poseidonPair) h.leafCount hroot hfrontier hmany hall
        h.leafCount hroot
  have hatomic := build_atomic H batchSize noteIds NotesFrontier.lawful hwf
  rcases hatomic with ⟨_, htakes, c, f', hbuild, happended, _⟩ | ⟨_, e, hbuild⟩
  · have happended' := NotesFrontier.appended_ofLeaves H.poseidonPair h.width hpos
      noteIds htakes
    rw [happended', Option.some.injEq] at happended
    rw [hbuild, Option.map_some, Option.map_eq_some_iff] at hsame
    obtain ⟨⟨r, t'⟩, hbuild', rfl⟩ := hsame
    exact ⟨.ok c, t', f', hbuild', hbuild, fun _ => happended.symm⟩
  · rw [hbuild, Option.map_some, Option.map_eq_some_iff] at hsame
    obtain ⟨⟨r, t'⟩, hbuild', rfl⟩ := hsame
    exact ⟨.error e, t', _, hbuild', hbuild, fun hok => by cases hok⟩

/-- A build is all or nothing on every tree of either kind, and its result does not
depend on the kind. -/
theorem build_refines_append (H : Primitives F) (batchSize : Nat) (noteIds : List F) :
    (∀ depth leaves t, IndexedMerkleTree.Reachable H.poseidonPair depth leaves t →
      BuildsAtomically H (IndexedMerkleTree.appendable H.poseidonPair) IndexedMerkleTree.Takes
        (IndexedMerkleTree.inserted H.poseidonPair) t batchSize noteIds ∧
      ∀ c t', buildBoundPendingCommitment H (IndexedMerkleTree.appendable H.poseidonPair) t
          batchSize noteIds = some (.ok c, t') →
        IndexedMerkleTree.Reachable H.poseidonPair depth (leaves ++ noteIds) t') ∧
    (∀ f, NotesFrontier.WellFormed H.poseidonPair f →
      BuildsAtomically H (NotesFrontier.appendable H.poseidonPair) NotesFrontier.Takes
        (NotesFrontier.appended H.poseidonPair) f batchSize noteIds ∧
      ∀ c f', buildBoundPendingCommitment H (NotesFrontier.appendable H.poseidonPair) f
          batchSize noteIds = some (.ok c, f') → NotesFrontier.WellFormed H.poseidonPair f') ∧
    (∀ depth shardHeight t f₀ ops log f,
      NotesFrontier.new H.poseidonPair depth shardHeight = .ok f₀ →
      NotesFrontier.run H.poseidonPair f₀ ops = some (log, f) →
      IndexedMerkleTree.Reachable H.poseidonPair depth
        (ops.foldl (NotesFrontier.Op.leaves depth) []) t →
      (∀ id ∈ noteIds, id ∉ ops.foldl (NotesFrontier.Op.leaves depth) []) →
      ∃ r t' f', buildBoundPendingCommitment H (IndexedMerkleTree.appendable H.poseidonPair) t
            batchSize noteIds = some (r, t') ∧
        buildBoundPendingCommitment H (NotesFrontier.appendable H.poseidonPair) f
            batchSize noteIds = some (r, f') ∧
        (r.isOk → NotesFrontier.Simulates H.poseidonPair depth shardHeight
          (ops.foldl (NotesFrontier.Op.leaves depth) [] ++ noteIds) f' t'.tree)) := by
  have hindexed : ∀ depth leaves t, IndexedMerkleTree.Reachable H.poseidonPair depth leaves t →
      BuildsAtomically H (IndexedMerkleTree.appendable H.poseidonPair) IndexedMerkleTree.Takes
        (IndexedMerkleTree.inserted H.poseidonPair) t batchSize noteIds ∧
      ∀ c t', buildBoundPendingCommitment H (IndexedMerkleTree.appendable H.poseidonPair) t
          batchSize noteIds = some (.ok c, t') →
        IndexedMerkleTree.Reachable H.poseidonPair depth (leaves ++ noteIds) t' := by
    intro depth leaves t h
    have hatomic := build_atomic H batchSize noteIds IndexedMerkleTree.lawful ⟨leaves, h.holds⟩
    refine ⟨hatomic, fun c t' hbuild => ?_⟩
    rcases hatomic with ⟨_, _, c', t₁, hbuild', hins, _⟩ | ⟨_, e, hbuild'⟩
    · rw [hbuild', Option.some.injEq, Prod.mk.injEq] at hbuild
      exact hbuild.2 ▸ h.inserted noteIds hins
    · rw [hbuild'] at hbuild
      cases hbuild
  refine ⟨hindexed, fun f h => ?_, ?_⟩
  · have hatomic := build_atomic H batchSize noteIds NotesFrontier.lawful h
    refine ⟨hatomic, fun c f' hbuild => ?_⟩
    rcases hatomic with ⟨_, htakes, c', f₁, hbuild', happended, _⟩ | ⟨_, e, hbuild'⟩
    · rw [hbuild', Option.some.injEq, Prod.mk.injEq] at hbuild
      exact hbuild.2 ▸ h.of_appended htakes happended
    · rw [hbuild'] at hbuild
      cases hbuild
  · intro depth shardHeight t f₀ ops log f hnew hrun h hfresh
    obtain ⟨hpos, hlt, hd, rfl⟩ := NotesFrontier.new_eq_ok _ hnew
    have hrun' := (NotesFrontier.run_ofLeaves H.poseidonPair hd hpos (by omega) ops).1
    rw [hrun, Option.some.injEq, Prod.mk.injEq] at hrun'
    obtain ⟨_, rfl⟩ := hrun'
    obtain ⟨r, t', f', hbuild, hbuild', hleaves⟩ :=
      build_agrees batchSize hpos hlt h.holds hfresh
    refine ⟨r, t', f', hbuild, hbuild', fun hok => ?_⟩
    rcases r with e | c
    · cases hok
    have hholds := ((hindexed depth _ t h).2 c t' hbuild).holds
    rw [hleaves rfl, hholds.tree]
    exact NotesFrontier.ofLeaves_simulates _ hd hpos (by omega) hholds.fits

def examplePrimitives : Primitives Int where
  poseidon := fun inputs => inputs.foldl (fun a b => 3 * a + 2 * b + 1) 0
  sha256 := id
  keccak256 := id
  frToBe32 := fun x => [UInt8.ofNat x.toNat]
  frFromBeBytesMod := fun bytes => bytes.foldl (fun a b => a * 256 + b.toNat) 0

theorem build_refines_append_example :
    ∃ t log f, IndexedMerkleTree.fromLeaves examplePrimitives.poseidonPair 3 [4] =
        some (.ok t) ∧
      NotesFrontier.run examplePrimitives.poseidonPair
        (NotesFrontier.ofLeaves examplePrimitives.poseidonPair 3 1 []) [.append 4] =
        some (log, f) ∧
      ∃ r t' f', buildBoundPendingCommitment examplePrimitives
            (IndexedMerkleTree.appendable examplePrimitives.poseidonPair) t 4 [5, 6] =
          some (r, t') ∧
        buildBoundPendingCommitment examplePrimitives
            (NotesFrontier.appendable examplePrimitives.poseidonPair) f 4 [5, 6] =
          some (r, f') := by
  have hnew := NotesFrontier.new_eq examplePrimitives.poseidonPair (show 0 < 1 by decide)
    (show 1 < 3 by decide) (by decide)
  have hrun := (NotesFrontier.run_ofLeaves examplePrimitives.poseidonPair (show 3 < usizeBits by decide)
    (show 0 < 1 by decide) (by decide) [.append 4]).1
  have hfrom : IndexedMerkleTree.fromLeaves examplePrimitives.poseidonPair 3 [4] =
      some (.ok ⟨Imt.canon examplePrimitives.poseidonPair 3 0 [4], AList.singleton 4 0⟩) := rfl
  obtain ⟨r, t', f', hbuild, hbuild', _⟩ :=
    (build_refines_append examplePrimitives 4 [5, 6]).2.2 3 1 _ _ _ _ _ hnew hrun
      (.fromLeaves hfrom) (by decide)
  exact ⟨_, _, _, hfrom, hrun, r, t', f', hbuild, hbuild'⟩

end Trees

end Curvy
