import Curvy.Core.ShardedTreeAtomic
import Curvy.Core.ShardedTreeAlike

/-!
# A batch is its leaves, one at a time

Pouring a segment into the live shard is decided by the leaves the shard ends up with. So is
appending the segment leaf by leaf, and the two agree up to the layout of the maps.
-/

namespace Curvy.ShardedNotesTree

set_option autoImplicit false

open PerfectTree List Outcome

variable {F : Type} [Zero F] [DecidableEq F] (poseidon : F → F → F)

/-- The caller's loop of single appends; the first refusal ends it. -/
def appendEach (t : ShardedNotesTree F) : List F →
    Option (Except TreeError Unit × ShardedNotesTree F)
  | [] => some (.ok (), t)
  | noteId :: noteIds => andThen (t.append poseidon noteId) fun _ t => t.appendEach noteIds

/-- Equal trees, hash maps and sets by their contents. -/
structure SameTree (t t' : ShardedNotesTree F) : Prop where
  leafCount : t'.leafCount = t.leafCount
  liveLeaves : t'.liveLeaves = t.liveLeaves
  live : t'.live = t.live
  completedRoots : t'.completedRoots = t.completedRoots
  cap : t'.cap = t.cap
  ownedNotes : AList.Same t.ownedNotes t'.ownedNotes
  ownedLeaves : AList.Same t.ownedLeaves t'.ownedLeaves
  records : t'.ownedNoteRecords = t.ownedNoteRecords
  dirty : ∀ noteId, noteId ∈ t'.dirtyOwnedNotes ↔ noteId ∈ t.dirtyOwnedNotes

variable {depth shardHeight : Nat} {t t' : ShardedNotesTree F}

theorem Alike.sameTree (h : WellFormed poseidon depth shardHeight t)
    (h' : WellFormed poseidon depth shardHeight t') (ha : Alike True t t') : SameTree t t' := by
  obtain ⟨roots, live, notes, leaves, dirty, room, fits, owned⟩ := h
  obtain ⟨roots', live', notes', leaves', dirty', room', _, owned'⟩ := h'
  obtain ⟨hroots, hlive, hnotes, hdirty⟩ := ha
  obtain rfl : roots' = roots := hroots
  obtain rfl : live' = live := hlive
  exact ⟨rfl, rfl, rfl, rfl, rfl, hnotes, owned.same_leaves owned' hnotes, owned.same_records hnotes,
    (hdirty trivial).mem⟩

theorem appendEach_append (t : ShardedNotesTree F) (noteIds rest : List F) :
    t.appendEach poseidon (noteIds ++ rest) =
      andThen (t.appendEach poseidon noteIds) fun _ t => t.appendEach poseidon rest := by
  induction noteIds generalizing t with
  | nil => rfl
  | cons noteId noteIds ih =>
    rw [List.cons_append, appendEach, appendEach]
    cases t.append poseidon noteId with
    | none => rfl
    | some p =>
      obtain ⟨r, u⟩ := p
      cases r with
      | error e => rfl
      | ok _ => exact ih u

/-! ### One segment -/

section Segment
variable {roots live : List F} {notes : OwnedNotes F} {leaves : OwnedLeaves F}
  {dirty : DirtyNotes F}

omit [DecidableEq F] in
theorem ensureRoom_of_fits (g : Geometry depth shardHeight) {n : Nat}
    (hfits : roots.length * 2 ^ shardHeight + live.length + n ≤ 2 ^ depth) :
    (build poseidon depth shardHeight roots live notes leaves dirty).ensureRoom n = .ok () := by
  simp only [ensureRoom, build_leafCount, show (build poseidon depth shardHeight roots live notes
    leaves dirty).depth = depth from rfl, treeCapacity_ok g.fits]
  apply if_neg
  omega

omit [Zero F] in
theorem validate_of_expects {leafIndex : Nat} {noteId : F}
    (h : Expects t.ownedLeaves leafIndex [noteId]) :
    t.validateIncomingOwnedNote leafIndex noteId = .ok () := by
  unfold validateIncomingOwnedNote
  cases hid : t.ownedLeaves.lookup leafIndex with
  | none => rfl
  | some id =>
    have hleaf := h 0 id hid (by simp)
    rw [List.getElem?_cons_zero] at hleaf
    exact if_neg (not_not.mpr (Option.some.inj hleaf).symm)

omit [Zero F] [DecidableEq F] in
theorem expects_cons {first : Nat} {noteId : F} {rest : List F} :
    Expects leaves first (noteId :: rest) ↔
      Expects leaves first [noteId] ∧ Expects leaves (first + 1) rest :=
  (expects_append : Expects leaves first ([noteId] ++ rest) ↔ _)

variable (dirty) in
theorem append_poured (g : Geometry depth shardHeight) {noteId : F}
    (room : live.length < 2 ^ shardHeight)
    (hfits : roots.length * 2 ^ shardHeight + live.length + 1 ≤ 2 ^ depth)
    (owned : Owned poseidon shardHeight roots live notes leaves)
    (hexpects : Expects leaves (roots.length * 2 ^ shardHeight + live.length) [noteId]) :
    ∃ roots' live' notes' dirty',
      (build poseidon depth shardHeight roots live notes leaves dirty).append poseidon noteId =
        some (.ok (), build poseidon depth shardHeight roots' live' notes' leaves dirty') ∧
      Poured poseidon shardHeight roots (live ++ [noteId]) notes dirty roots' live' notes' dirty' := by
  have hs : shardHeight < usizeBits := g.lt.trans g.fits
  obtain ⟨roots', live', notes', dirty', hpour, hpoured⟩ :=
    pour_build poseidon dirty g (List.cons_ne_nil noteId []) room hfits owned hexpects
  refine ⟨roots', live', notes', dirty', ?_, hpoured⟩
  unfold append
  rw [ensureRoom_of_fits poseidon g hfits, guarded_ok, build_leafCount,
    validate_of_expects (t := build poseidon depth shardHeight roots live notes leaves dirty) hexpects,
    guarded_ok, show (build poseidon depth shardHeight roots live notes leaves dirty).live =
      Imt.canon poseidon shardHeight 0 live from rfl, Imt.insert_canon poseidon hs 0 noteId room]
  exact hpour

variable (dirty) in
/-- Leaf by leaf, only the last one can fill the shard. -/
theorem appendEach_poured (g : Geometry depth shardHeight) {seg : List F} (hne : seg ≠ [])
    (hroom : live.length + seg.length ≤ 2 ^ shardHeight)
    (hfits : roots.length * 2 ^ shardHeight + live.length + seg.length ≤ 2 ^ depth)
    (owned : Owned poseidon shardHeight roots live notes leaves)
    (hexpects : Expects leaves (roots.length * 2 ^ shardHeight + live.length) seg) :
    ∃ roots' live' notes' dirty',
      (build poseidon depth shardHeight roots live notes leaves dirty).appendEach poseidon seg =
        some (.ok (), build poseidon depth shardHeight roots' live' notes' leaves dirty') ∧
      Poured poseidon shardHeight roots (live ++ seg) notes dirty roots' live' notes' dirty' := by
  induction seg generalizing live with
  | nil => exact absurd rfl hne
  | cons noteId seg ih =>
    rw [List.length_cons] at hroom hfits
    obtain ⟨hfirst, hrest⟩ := expects_cons.mp hexpects
    obtain ⟨roots₁, live₁, notes₁, dirty₁, happend, hpoured⟩ :=
      append_poured poseidon dirty g (by omega) (by omega) owned hfirst
    rw [appendEach, happend, andThen_ok]
    by_cases hnil : seg = []
    · subst hnil
      exact ⟨_, _, _, _, rfl, hpoured⟩
    have hpos : 0 < seg.length := List.length_pos_iff.mpr hnil
    have hlen : (live ++ [noteId]).length = live.length + 1 := List.length_append
    cases hpoured with
    | completed full _ => omega
    | grown _ =>
      rw [Nat.add_assoc, ← hlen] at hrest
      obtain ⟨roots', live', notes', dirty', heach, hpoured⟩ :=
        ih hnil (by omega) (by omega) (owned.pour hfirst) hrest
      rw [List.append_assoc] at hpoured
      exact ⟨roots', live', notes', dirty', heach, hpoured⟩

end Segment

/-! ### A batch -/

/-- The induction is on the rounds of the batch; both trees grow by the round's segment. -/
theorem appendSegments_eq_each (g : Geometry depth shardHeight) (rounds : Nat) (remaining : List F)
    (h : WellFormed poseidon depth shardHeight t) (h' : WellFormed poseidon depth shardHeight t')
    (ha : Alike True t t') (hrounds : remaining.length ≤ rounds)
    (hfits : t.leafCount + remaining.length ≤ 2 ^ depth)
    (hexpects : Expects t.ownedLeaves t.leafCount remaining) :
    ∃ u u', appendSegments poseidon rounds remaining t = some (.ok (), u) ∧
      t'.appendEach poseidon remaining = some (.ok (), u') ∧
      Extends poseidon depth shardHeight t' remaining u' ∧
      WellFormed poseidon depth shardHeight u ∧ Alike True u u' := by
  induction rounds generalizing remaining t t' with
  | zero =>
    obtain rfl : remaining = [] := List.length_eq_zero_iff.mp (by omega)
    exact ⟨t, t', rfl, rfl, .refl poseidon h', h, ha⟩
  | succ rounds ih =>
    by_cases hnil : remaining = []
    · subst hnil
      exact ⟨t, t', rfl, rfl, .refl poseidon h', h, ha⟩
    obtain ⟨roots, live, notes, leaves, dirty, room, fits, owned⟩ := h
    obtain ⟨roots', live', notes', leaves', dirty', room', _, owned'⟩ := h'
    obtain ⟨hroots, hlive, hnotes, hdirty⟩ := ha
    obtain rfl : roots' = roots := hroots
    obtain rfl : live' = live := hlive
    change AList.Same notes notes' at hnotes
    change True → AList.Same dirty dirty' at hdirty
    obtain ⟨seg, rest, rfl, hne, hle, hround⟩ :=
      appendSegments_round poseidon depth roots' room rounds hnil
    have hpos : 0 < seg.length := List.length_pos_iff.mpr hne
    rw [List.length_append] at hrounds hfits
    rw [build_leafCount] at hfits hexpects
    obtain ⟨hexpects₁, hexpects₂⟩ := expects_append.mp hexpects
    have hexpects₁' : Expects leaves' (roots'.length * 2 ^ shardHeight + live'.length) seg := by
      intro j id hid
      rw [owned.same_leaves owned' hnotes] at hid
      exact hexpects₁ j id hid
    obtain ⟨_, _, _, _, hpour, hpoured⟩ :=
      pour_build poseidon dirty g hne hle (by omega) owned hexpects₁
    obtain ⟨_, _, _, _, heach, hpoured'⟩ :=
      appendEach_poured poseidon dirty' g hne hle (by omega) owned' hexpects₁'
    have hext := hpoured.extends (show _ ≤ 2 ^ depth by omega) owned hexpects₁
    have hext' := hpoured'.extends (show _ ≤ 2 ^ depth by omega) owned' hexpects₁'
    obtain ⟨hroots, hlive, hsame, hdirt⟩ := hpoured.alike poseidon hpoured' hnotes hdirty
    obtain ⟨v, v', hrest, hrest', hextends, hv, halike⟩ := ih rest hext.wellFormed hext'.wellFormed
      ⟨hroots, hlive, hsame, hdirt⟩ (by omega) (by rw [hext.count, build_leafCount]; omega)
      (by rw [hext.leaves, hext.count, build_leafCount]; exact hexpects₂)
    refine ⟨v, v', ?_, ?_, hext'.trans poseidon hextends, hv, halike⟩
    · rw [hround, appendSegment_eq poseidon g seg hle, hpour, andThen_ok, hrest]
    · rw [appendEach_append, heach, andThen_ok, hrest']

theorem WellFormed.ensureRoom (g : Geometry depth shardHeight)
    (h : WellFormed poseidon depth shardHeight t) {n : Nat} (hfits : t.leafCount + n ≤ 2 ^ depth) :
    t.ensureRoom n = .ok () := by
  obtain ⟨roots, live, notes, leaves, dirty, room, fits, owned⟩ := h
  exact ensureRoom_of_fits poseidon g hfits

omit [Zero F] in
/-- The check loop stops at the first note an owned mark contradicts. -/
theorem validateBatch_cases (t : ShardedNotesTree F) (first : Nat) (noteIds : List F) :
    (t.validateBatch first noteIds = .ok () ∧ Expects t.ownedLeaves first noteIds) ∨
    ∃ seg noteId rest, noteIds = seg ++ noteId :: rest ∧ Expects t.ownedLeaves first seg ∧
      t.validateBatch first seg = .ok () ∧ ¬ Expects t.ownedLeaves first noteIds ∧
      t.validateBatch first noteIds = .error (.ownedLeafMismatch (first + seg.length)) ∧
      t.validateIncomingOwnedNote (first + seg.length) noteId =
        .error (.ownedLeafMismatch (first + seg.length)) := by
  induction noteIds generalizing first with
  | nil => exact Or.inl ⟨rfl, validateBatch_ok rfl⟩
  | cons noteId noteIds ih =>
    by_cases hfirst : Expects t.ownedLeaves first [noteId]
    · have hvalid := validate_of_expects hfirst
      rcases ih (first + 1) with ⟨hok, hrest⟩ | ⟨seg, refused, rest, rfl, hseg, hok, hnot, herr, hrefused⟩
      · refine Or.inl ⟨?_, expects_cons.mpr ⟨hfirst, hrest⟩⟩
        rw [validateBatch, hvalid]
        exact hok
      · have hlen : first + 1 + seg.length = first + (noteId :: seg).length := by
          rw [List.length_cons]
          omega
        rw [hlen] at herr hrefused
        refine Or.inr ⟨noteId :: seg, refused, rest, rfl,
          expects_cons.mpr ⟨hfirst, hseg⟩, ?_, ?_, ?_, hrefused⟩
        · rw [validateBatch, hvalid]
          exact hok
        · exact fun h => hnot (expects_cons.mp h).2
        · rw [validateBatch, hvalid]
          exact herr
    · have hrefused : t.validateIncomingOwnedNote first noteId = .error (.ownedLeafMismatch first) := by
        unfold validateIncomingOwnedNote
        cases hid : t.ownedLeaves.lookup first with
        | none =>
          refine absurd (fun j id hj hlt => ?_) hfirst
          obtain rfl : j = 0 := by simpa using hlt
          rw [Nat.add_zero, hid] at hj
          cases hj
        | some id =>
          apply if_pos
          rintro rfl
          refine hfirst fun j x hj hlt => ?_
          obtain rfl : j = 0 := by simpa using hlt
          rw [Nat.add_zero, hid] at hj
          exact hj
      refine Or.inr ⟨[], noteId, noteIds, rfl, validateBatch_ok rfl, rfl, ?_, ?_, hrefused⟩
      · exact fun h => hfirst (expects_cons.mp h).1
      · rw [validateBatch, hrefused]
        rfl

/-- A list that agrees with the owned marks is taken alike by a batch and by single appends. -/
theorem appendMany_eq_each (g : Geometry depth shardHeight)
    (h : WellFormed poseidon depth shardHeight t) {noteIds : List F}
    (hfits : t.leafCount + noteIds.length ≤ 2 ^ depth)
    (hvalid : t.validateBatch t.leafCount noteIds = .ok ()) :
    ∃ u v, t.appendMany poseidon noteIds = some (.ok (), u) ∧
      t.appendEach poseidon noteIds = some (.ok (), v) ∧
      Extends poseidon depth shardHeight t noteIds v ∧ SameTree u v := by
  obtain ⟨u, v, hmany, heach, hext, hu, halike⟩ := appendSegments_eq_each poseidon g noteIds.length
    noteIds h h ⟨rfl, rfl, .refl _, fun _ => .refl _⟩ le_rfl hfits (validateBatch_ok hvalid)
  refine ⟨u, v, ?_, heach, hext, halike.sameTree poseidon hu hext.wellFormed⟩
  rw [appendMany, h.ensureRoom poseidon g hfits, guarded_ok, hvalid, guarded_ok, hmany]

/-- From every reachable tree, for every list of leaves that fits: where the owned marks agree
with the list, the batch and the single appends end in the same tree; where one does not, the
batch changes nothing and the single appends keep what came before the refused leaf. -/
theorem batch_eq_single_appends (h : Reachable poseidon depth shardHeight t) (noteIds : List F)
    (hfits : t.leafCount + noteIds.length ≤ 2 ^ depth) :
    (Expects t.ownedLeaves t.leafCount noteIds ∧
      ∃ u v, t.appendMany poseidon noteIds = some (.ok (), u) ∧
        t.appendEach poseidon noteIds = some (.ok (), v) ∧ SameTree u v) ∨
    (¬ Expects t.ownedLeaves t.leafCount noteIds ∧
      ∃ seg noteId rest u v, noteIds = seg ++ noteId :: rest ∧
        Expects t.ownedLeaves t.leafCount seg ∧
        t.appendMany poseidon noteIds =
          some (.error (.ownedLeafMismatch (t.leafCount + seg.length)), t) ∧
        t.appendEach poseidon noteIds =
          some (.error (.ownedLeafMismatch (t.leafCount + seg.length)), v) ∧
        t.appendMany poseidon seg = some (.ok (), u) ∧ SameTree u v) := by
  obtain ⟨g, hwf⟩ := h.wellFormed poseidon
  rcases t.validateBatch_cases t.leafCount noteIds with ⟨hvalid, hexpects⟩ |
    ⟨seg, noteId, rest, rfl, hseg, hok, hnot, herr, hrefused⟩
  · obtain ⟨u, v, hmany, heach, _, hsame⟩ := appendMany_eq_each poseidon g hwf hfits hvalid
    exact Or.inl ⟨hexpects, u, v, hmany, heach, hsame⟩
  · have hroom := hfits
    rw [List.length_append, List.length_cons] at hfits
    obtain ⟨u, v, hmany, heach, hext, hsame⟩ := appendMany_eq_each poseidon g hwf (by omega) hok
    refine Or.inr ⟨hnot, seg, noteId, rest, u, v, rfl, hseg, ?_, ?_, hmany, hsame⟩
    · rw [appendMany, hwf.ensureRoom poseidon g hroom, guarded_ok, herr, guarded_error]
    · have hlast : v.append poseidon noteId =
          some (.error (.ownedLeafMismatch (t.leafCount + seg.length)), v) := by
        have hroom₁ := hext.wellFormed.ensureRoom poseidon g (n := 1) (by rw [hext.count]; omega)
        rw [append, hroom₁, guarded_ok, hext.count, validateIncomingOwnedNote, hext.leaves]
        rw [validateIncomingOwnedNote] at hrefused
        rw [hrefused, guarded_error]
      rw [appendEach_append, heach, andThen_ok, appendEach, hlast, andThen_error]

/-- Three leaves over a shard boundary. -/
theorem batch_eq_single_appends_example :
    ∃ u v, (build (fun a b : Nat => 2 * a + 3 * b + 1) 2 1 [] [] ∅ ∅ ∅).appendMany
        (fun a b : Nat => 2 * a + 3 * b + 1) [5, 7, 9] = some (.ok (), u) ∧
      (build (fun a b : Nat => 2 * a + 3 * b + 1) 2 1 [] [] ∅ ∅ ∅).appendEach
        (fun a b : Nat => 2 * a + 3 * b + 1) [5, 7, 9] = some (.ok (), v) ∧ SameTree u v := by
  have hnew := new_eq (fun a b : Nat => 2 * a + 3 * b + 1)
    (⟨by decide, by decide, by decide⟩ : Geometry 2 1)
  rcases batch_eq_single_appends _ (.new hnew) [5, 7, 9] (by decide) with ⟨_, htaken⟩ | ⟨hnot, _⟩
  · exact htaken
  · refine absurd (fun j id hid _ => ?_) hnot
    change (∅ : OwnedLeaves Nat).lookup _ = some id at hid
    rw [AList.lookup_empty] at hid
    cases hid

/-- A mark on the second leaf: the batch is refused whole, the first single append stays. -/
theorem mark_splits_batch :
    ∃ t u v : ShardedNotesTree Nat, Reachable (fun a b : Nat => 2 * a + 3 * b + 1) 2 1 t ∧
      t.leafCount + [5, 7].length ≤ 2 ^ 2 ∧
      t.appendMany (fun a b : Nat => 2 * a + 3 * b + 1) [5, 7] =
        some (.error (.ownedLeafMismatch 1), u) ∧
      t.appendEach (fun a b : Nat => 2 * a + 3 * b + 1) [5, 7] =
        some (.error (.ownedLeafMismatch 1), v) ∧
      u.leafCount = 0 ∧ v.leafCount = 1 ∧ ¬ SameTree u v := by
  have hnew := new_eq (fun a b : Nat => 2 * a + 3 * b + 1)
    (⟨by decide, by decide, by decide⟩ : Geometry 2 1)
  obtain ⟨t, r, hmark, hcount, hmany, v, heach, hv⟩ : ∃ (t : ShardedNotesTree Nat) (r : _),
      step (fun a b : Nat => 2 * a + 3 * b + 1)
        (build (fun a b : Nat => 2 * a + 3 * b + 1) 2 1 [] [] ∅ ∅ ∅) (.markOwned 6 1) = some (r, t) ∧
      t.leafCount = 0 ∧
      t.appendMany (fun a b : Nat => 2 * a + 3 * b + 1) [5, 7] =
        some (.error (.ownedLeafMismatch 1), t) ∧
      ∃ v, t.appendEach (fun a b : Nat => 2 * a + 3 * b + 1) [5, 7] =
        some (.error (.ownedLeafMismatch 1), v) ∧ v.leafCount = 1 := by
    with_unfolding_all exact ⟨_, _, rfl, rfl, rfl, _, rfl, rfl⟩
  refine ⟨t, t, v, .step (.new hnew) hmark, ?_, hmany, heach, hcount, hv, ?_⟩
  · rw [hcount]
    decide
  · intro hsame
    rw [hsame.leafCount, hcount] at hv
    cases hv

end Curvy.ShardedNotesTree
