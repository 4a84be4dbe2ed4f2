import Curvy.Core.ShardedTreeRuns
import Curvy.Lib.SameMaps

/-!
# Trees alike up to the layout of their maps

Two trees with the same leaves and the same lookups answer every call alike and stay alike.
Their dirty sets may differ; then the records of a drain may, and nothing else.
-/

namespace Curvy.ShardedNotesTree

set_option autoImplicit false

open PerfectTree List Outcome

variable {F : Type} [Zero F] [DecidableEq F] (poseidon : F → F → F)

/-- The same leaves and lookups, and the same dirt where it is tracked. -/
structure Alike (tracked : Prop) (t t' : ShardedNotesTree F) : Prop where
  roots : t'.completedRoots = t.completedRoots
  live : t'.liveLeaves = t.liveLeaves
  notes : AList.Same t.ownedNotes t'.ownedNotes
  dirty : tracked → AList.Same t.dirtyOwnedNotes t'.dirtyOwnedNotes

/-- The reply without the records of a drain. -/
def Reply.withoutDrained {F : Type} : Reply F → Reply F
  | .drained _ => .drained []
  | reply => reply

structure SameReply (tracked : Prop) (r r' : Except TreeError (Reply F)) : Prop where
  same : tracked → r' = r
  shape : r'.map Reply.withoutDrained = r.map Reply.withoutDrained

omit [Zero F] [DecidableEq F] in
theorem SameReply.of_eq {tracked : Prop} (r : Except TreeError (Reply F)) :
    SameReply tracked r r := ⟨fun _ => rfl, rfl⟩

section Records
variable {tracked : Prop} {depth shardHeight : Nat} {roots live : List F}
  {notes notes' : OwnedNotes F} {leaves leaves' : OwnedLeaves F}

omit [Zero F] in
/-- The position map follows from the records. -/
theorem Owned.same_leaves {poseidon : F → F → F}
    (owned : Owned poseidon shardHeight roots live notes leaves)
    (owned' : Owned poseidon shardHeight roots live notes' leaves') (h : AList.Same notes notes') :
    AList.Same leaves leaves' := by
  intro i
  ext id
  rw [owned'.mirror, owned.mirror, h id]

omit [Zero F] in
/-- Records at one position are one record. -/
theorem Owned.leafIndex_inj {poseidon : F → F → F}
    (owned : Owned poseidon shardHeight roots live notes leaves) {id id' : F}
    {w w' : OwnedNoteWitness F} (hw : notes.lookup id = some w) (hw' : notes.lookup id' = some w')
    (hindex : w.leafIndex = w'.leafIndex) : w = w' := by
  have hleaf := (owned.mirror id _).mpr ⟨w, hw, rfl⟩
  have hleaf' := (owned.mirror id' _).mpr ⟨w', hw', rfl⟩
  rw [hindex, hleaf'] at hleaf
  obtain rfl := Option.some.inj hleaf
  exact Option.some.inj (hw.symm.trans hw')

omit [Zero F] in
theorem Owned.same_records {poseidon : F → F → F}
    (owned : Owned poseidon shardHeight roots live notes leaves) (h : AList.Same notes notes') :
    byLeafIndex (notes'.entries.map Sigma.snd) = byLeafIndex (notes.entries.map Sigma.snd) := by
  symm
  refine List.mergeSort_key_eq OwnedNoteWitness.leafIndex (h.perm.map _) ?_
  intro w hw w' hw' hindex
  obtain ⟨⟨id, v⟩, hmem, rfl⟩ := List.mem_map.mp hw
  obtain ⟨⟨id', v'⟩, hmem', rfl⟩ := List.mem_map.mp hw'
  exact owned.leafIndex_inj (AList.mem_lookup_iff.mpr hmem) (AList.mem_lookup_iff.mpr hmem') hindex

omit [Zero F] in
theorem Owned.same_drained {poseidon : F → F → F} {dirty dirty' : DirtyNotes F}
    (owned : Owned poseidon shardHeight roots live notes leaves) (h : AList.Same notes notes')
    (hdirty : AList.Same dirty dirty') :
    byLeafIndex (dirty'.keys.filterMap notes'.lookup) =
      byLeafIndex (dirty.keys.filterMap notes.lookup) := by
  symm
  rw [show notes'.lookup = notes.lookup from funext h]
  refine List.mergeSort_key_eq OwnedNoteWitness.leafIndex
    ((hdirty.perm.map Sigma.fst).filterMap _) ?_
  intro w hw w' hw' hindex
  obtain ⟨id, _, hid⟩ := List.mem_filterMap.mp hw
  obtain ⟨id', _, hid'⟩ := List.mem_filterMap.mp hw'
  exact owned.leafIndex_inj hid hid' hindex

end Records

section Calls
variable {tracked : Prop} {depth shardHeight : Nat} {t t' : ShardedNotesTree F}

/-! ### Appends -/

theorem Poured.alike {roots live roots₁ live₁ roots₂ live₂ : List F}
    {notes notes' notes₁ notes₂ : OwnedNotes F} {dirty dirty' dirty₁ dirty₂ : DirtyNotes F}
    (h : Poured poseidon shardHeight roots live notes dirty roots₁ live₁ notes₁ dirty₁)
    (h' : Poured poseidon shardHeight roots live notes' dirty' roots₂ live₂ notes₂ dirty₂)
    (hnotes : AList.Same notes notes') (hdirty : tracked → AList.Same dirty dirty') :
    roots₂ = roots₁ ∧ live₂ = live₁ ∧ AList.Same notes₁ notes₂ ∧
      (tracked → AList.Same dirty₁ dirty₂) := by
  cases h with
  | grown room =>
    cases h' with
    | grown _ => exact ⟨rfl, rfl, hnotes, hdirty⟩
    | completed full _ => omega
  | completed full frozen =>
    cases h' with
    | grown room => omega
    | completed _ frozen' =>
      have hsame : AList.Same notes₁ notes₂ := by
        intro id
        rw [frozen.lookup, frozen'.lookup, hnotes id]
        have hmem := hnotes.mem id
        rw [AList.mem_keys, AList.mem_keys] at hmem
        simp only [hmem]
      refine ⟨rfl, rfl, hsame, fun htracked => AList.Same.of_mem fun id => ?_⟩
      have hmem := (hdirty htracked).mem id
      constructor
      · intro hid
        rcases frozen'.exact id hid with hold | hdiff
        · exact frozen.keeps id (hmem.mp hold)
        · rw [hsame id, hnotes id] at hdiff
          exact frozen.marks id hdiff
      · intro hid
        rcases frozen.exact id hid with hold | hdiff
        · exact frozen'.keeps id (hmem.mpr hold)
        · rw [← hsame id, ← hnotes id] at hdiff
          exact frozen'.marks id hdiff

/-- The tail of an append on both trees. -/
theorem pour_alike (g : Geometry depth shardHeight) {roots live seg : List F}
    {notes notes' : OwnedNotes F} {leaves leaves' : OwnedLeaves F} {dirty dirty' : DirtyNotes F}
    (hne : seg ≠ []) (hroom : live.length + seg.length ≤ 2 ^ shardHeight)
    (hfits : roots.length * 2 ^ shardHeight + live.length + seg.length ≤ 2 ^ depth)
    (owned : Owned poseidon shardHeight roots live notes leaves)
    (owned' : Owned poseidon shardHeight roots live notes' leaves')
    (hnotes : AList.Same notes notes') (hdirty : tracked → AList.Same dirty dirty')
    (hexpects : Expects leaves (roots.length * 2 ^ shardHeight + live.length) seg) :
    ∃ u u', andThen (syncLiveRoot poseidon
        { build poseidon depth shardHeight roots live notes leaves dirty with
          live := Imt.canon poseidon shardHeight 0 (live ++ seg), liveLeaves := live ++ seg })
        (fun _ t => if t.liveLeaves.length = t.shardSize then rollOver poseidon t
          else some (.ok (), t)) = some (.ok (), u) ∧
      andThen (syncLiveRoot poseidon
        { build poseidon depth shardHeight roots live notes' leaves' dirty' with
          live := Imt.canon poseidon shardHeight 0 (live ++ seg), liveLeaves := live ++ seg })
        (fun _ t => if t.liveLeaves.length = t.shardSize then rollOver poseidon t
          else some (.ok (), t)) = some (.ok (), u') ∧
      Extends poseidon depth shardHeight
        (build poseidon depth shardHeight roots live notes leaves dirty) seg u ∧
      Extends poseidon depth shardHeight
        (build poseidon depth shardHeight roots live notes' leaves' dirty') seg u' ∧
      Alike tracked u u' := by
  have hexpects' : Expects leaves' (roots.length * 2 ^ shardHeight + live.length) seg := by
    intro j id hid
    rw [owned.same_leaves owned' hnotes] at hid
    exact hexpects j id hid
  obtain ⟨_, _, _, _, hpour, hpoured⟩ := pour_build poseidon dirty g hne hroom hfits owned hexpects
  obtain ⟨_, _, _, _, hpour', hpoured'⟩ :=
    pour_build poseidon dirty' g hne hroom hfits owned' hexpects'
  obtain ⟨u, heq, hext⟩ := pour_eq poseidon dirty g hne hroom hfits owned hexpects
  obtain ⟨u', heq', hext'⟩ := pour_eq poseidon dirty' g hne hroom hfits owned' hexpects'
  obtain ⟨-, rfl⟩ := Prod.mk.inj (Option.some.inj (hpour.symm.trans heq))
  obtain ⟨-, rfl⟩ := Prod.mk.inj (Option.some.inj (hpour'.symm.trans heq'))
  obtain ⟨hroots, hlive, hsame, hdirt⟩ := hpoured.alike poseidon hpoured' hnotes hdirty
  exact ⟨_, _, hpour, hpour', hext, hext', hroots, hlive, hsame, hdirt⟩

omit [Zero F] in
theorem validate_same (h : AList.Same t.ownedLeaves t'.ownedLeaves) (leafIndex : Nat) (noteId : F) :
    t'.validateIncomingOwnedNote leafIndex noteId = t.validateIncomingOwnedNote leafIndex noteId := by
  rw [validateIncomingOwnedNote, h leafIndex, validateIncomingOwnedNote]

omit [Zero F] in
theorem validateBatch_same (h : AList.Same t.ownedLeaves t'.ownedLeaves) (first : Nat)
    (noteIds : List F) : t'.validateBatch first noteIds = t.validateBatch first noteIds := by
  induction noteIds generalizing first with
  | nil => rfl
  | cons noteId noteIds ih =>
    rw [validateBatch, validateBatch, validate_same h]
    cases t.validateIncomingOwnedNote first noteId with
    | error e => rfl
    | ok _ => exact ih (first + 1)

theorem append_alike (g : Geometry depth shardHeight) (h : WellFormed poseidon depth shardHeight t)
    (h' : WellFormed poseidon depth shardHeight t') (ha : Alike tracked t t') (noteId : F) :
    ∃ r u u', t.append poseidon noteId = some (r, u) ∧ t'.append poseidon noteId = some (r, u') ∧
      Alike tracked u u' := by
  have halike := ha
  obtain ⟨roots, live, notes, leaves, dirty, room, fits, owned⟩ := h
  obtain ⟨roots', live', notes', leaves', dirty', room', _, owned'⟩ := h'
  obtain ⟨hroots, hlive, hnotes, hdirty⟩ := ha
  obtain rfl : roots' = roots := hroots
  obtain rfl : live' = live := hlive
  have hleaves := owned.same_leaves owned' hnotes
  have hvalidate :
      (build poseidon depth shardHeight roots' live' notes' leaves' dirty').validateIncomingOwnedNote
          (roots'.length * 2 ^ shardHeight + live'.length) noteId =
        (build poseidon depth shardHeight roots' live' notes leaves dirty).validateIncomingOwnedNote
          (roots'.length * 2 ^ shardHeight + live'.length) noteId :=
    validate_same hleaves _ noteId
  unfold append
  rw [show (build poseidon depth shardHeight roots' live' notes' leaves' dirty').ensureRoom 1 =
    (build poseidon depth shardHeight roots' live' notes leaves dirty).ensureRoom 1 from rfl]
  cases hroom : (build poseidon depth shardHeight roots' live' notes leaves dirty).ensureRoom 1 with
  | error e => exact ⟨_, _, _, rfl, rfl, halike⟩
  | ok _ =>
    simp only [guarded_ok, build_leafCount, hvalidate]
    cases hvalid : (build poseidon depth shardHeight roots' live' notes leaves
        dirty).validateIncomingOwnedNote (roots'.length * 2 ^ shardHeight + live'.length) noteId with
    | error e => exact ⟨_, _, _, rfl, rfl, halike⟩
    | ok _ =>
      have hs : shardHeight < usizeBits := g.lt.trans g.fits
      have hexpects : Expects leaves (roots'.length * 2 ^ shardHeight + live'.length) [noteId] := by
        intro j id hid hj
        obtain rfl : j = 0 := by simpa using hj
        rw [validate_ok hvalid id hid, List.getElem?_cons_zero]
      obtain ⟨u, u', hpour, hpour', _, _, hu⟩ := pour_alike poseidon g (List.cons_ne_nil noteId [])
        room (ensureRoom_ok poseidon g fits hroom) owned owned' hnotes hdirty hexpects
      refine ⟨.ok (), u, u', ?_, ?_, hu⟩
      · simp only [guarded_ok, show (build poseidon depth shardHeight roots' live' notes leaves dirty).live =
          Imt.canon poseidon shardHeight 0 live' from rfl, Imt.insert_canon poseidon hs 0 noteId room]
        exact hpour
      · simp only [guarded_ok,
          show (build poseidon depth shardHeight roots' live' notes' leaves' dirty').live =
            Imt.canon poseidon shardHeight 0 live' from rfl,
          Imt.insert_canon poseidon hs 0 noteId room]
        exact hpour'

theorem appendSegments_alike (g : Geometry depth shardHeight) (rounds : Nat) (remaining : List F)
    (h : WellFormed poseidon depth shardHeight t) (h' : WellFormed poseidon depth shardHeight t')
    (ha : Alike tracked t t') (hrounds : remaining.length ≤ rounds)
    (hfits : t.leafCount + remaining.length ≤ 2 ^ depth)
    (hexpects : Expects t.ownedLeaves t.leafCount remaining) :
    ∃ u u', appendSegments poseidon rounds remaining t = some (.ok (), u) ∧
      appendSegments poseidon rounds remaining t' = some (.ok (), u') ∧ Alike tracked u u' := by
  induction rounds generalizing remaining t t' with
  | zero =>
    obtain rfl : remaining = [] := List.length_eq_zero_iff.mp (by omega)
    exact ⟨t, t', rfl, rfl, ha⟩
  | succ rounds ih =>
    by_cases hnil : remaining = []
    · subst hnil
      exact ⟨t, t', rfl, rfl, ha⟩
    obtain ⟨roots, live, notes, leaves, dirty, room, fits, owned⟩ := h
    obtain ⟨roots', live', notes', leaves', dirty', room', _, owned'⟩ := h'
    obtain ⟨hroots, hlive, hnotes, hdirty⟩ := ha
    obtain rfl : roots' = roots := hroots
    obtain rfl : live' = live := hlive
    change AList.Same notes notes' at hnotes
    change tracked → AList.Same dirty dirty' at hdirty
    obtain ⟨seg, rest, rfl, hne, hle, hround⟩ :=
      appendSegments_round poseidon depth roots' room rounds hnil
    have hpos : 0 < seg.length := List.length_pos_iff.mpr hne
    rw [List.length_append] at hrounds hfits
    rw [build_leafCount] at hfits hexpects
    obtain ⟨hexpects₁, hexpects₂⟩ := expects_append.mp hexpects
    obtain ⟨u, u', hpour, hpour', hext, hext', hu⟩ := pour_alike poseidon g hne hle (by omega) owned
      owned' hnotes hdirty hexpects₁
    have hcount := hext.count
    rw [build_leafCount] at hcount
    obtain ⟨v, v', hrest, hrest', hv⟩ := ih rest hext.wellFormed hext'.wellFormed hu (by omega)
      (by omega) (by rw [hext.leaves, hcount]; exact hexpects₂)
    refine ⟨v, v', ?_, ?_, hv⟩
    · rw [hround, appendSegment_eq poseidon g seg hle, hpour, andThen_ok, hrest]
    · rw [hround, appendSegment_eq poseidon g seg hle, hpour', andThen_ok, hrest']

theorem appendMany_alike (g : Geometry depth shardHeight)
    (h : WellFormed poseidon depth shardHeight t) (h' : WellFormed poseidon depth shardHeight t')
    (ha : Alike tracked t t') (noteIds : List F) :
    ∃ r u u', t.appendMany poseidon noteIds = some (r, u) ∧
      t'.appendMany poseidon noteIds = some (r, u') ∧ Alike tracked u u' := by
  have hrun := appendSegments_alike poseidon g noteIds.length noteIds h h' ha le_rfl
  have hfull : t.leafCount + noteIds.length ≤ 2 ^ depth ∨
      ∃ e, t.ensureRoom noteIds.length = .error e := by
    obtain ⟨roots, live, notes, leaves, dirty, room, fits, owned⟩ := h
    cases hroom : (build poseidon depth shardHeight roots live notes leaves dirty).ensureRoom
      noteIds.length with
    | error e => exact Or.inr ⟨e, rfl⟩
    | ok _ => exact Or.inl (ensureRoom_ok poseidon g fits hroom)
  have hroom : t'.ensureRoom noteIds.length = t.ensureRoom noteIds.length := by
    obtain ⟨roots, live, notes, leaves, dirty, room, fits, owned⟩ := h
    obtain ⟨roots', live', notes', leaves', dirty', room', _, owned'⟩ := h'
    obtain rfl : roots' = roots := ha.roots
    obtain rfl : live' = live := ha.live
    rfl
  have hvalidate : t'.validateBatch t'.leafCount noteIds = t.validateBatch t.leafCount noteIds := by
    obtain ⟨roots, live, notes, leaves, dirty, room, fits, owned⟩ := h
    obtain ⟨roots', live', notes', leaves', dirty', room', _, owned'⟩ := h'
    obtain rfl : roots' = roots := ha.roots
    obtain rfl : live' = live := ha.live
    exact validateBatch_same (owned.same_leaves owned' ha.notes) _ noteIds
  unfold appendMany
  rw [hroom, hvalidate]
  cases hchecked : t.ensureRoom noteIds.length with
  | error e => exact ⟨_, _, _, rfl, rfl, ha⟩
  | ok _ =>
    simp only [guarded_ok]
    cases hvalid : t.validateBatch t.leafCount noteIds with
    | error e => exact ⟨_, _, _, rfl, rfl, ha⟩
    | ok _ =>
      rcases hfull with hfits | ⟨e, he⟩
      · obtain ⟨u, u', hu, hu', halike⟩ := hrun hfits (validateBatch_ok hvalid)
        exact ⟨_, u, u', hu, hu', halike⟩
      · rw [hchecked] at he
        cases he

/-! ### Owned notes -/

omit [Zero F] in
theorem unmarkOwned_alike (ha : Alike tracked t t') (noteId : F) :
    (t'.unmarkOwned noteId).1 = (t.unmarkOwned noteId).1 ∧
      Alike tracked (t.unmarkOwned noteId).2 (t'.unmarkOwned noteId).2 := by
  obtain ⟨hroots, hlive, hnotes, hdirty⟩ := ha
  have herased := fun htracked => (hdirty htracked).erase noteId
  unfold unmarkOwned
  dsimp only
  rw [hnotes noteId]
  cases t.ownedNotes.lookup noteId with
  | none => exact ⟨rfl, hroots, hlive, hnotes, herased⟩
  | some w => exact ⟨rfl, hroots, hlive, hnotes.erase noteId, herased⟩

theorem markOwned_alike (h : WellFormed poseidon depth shardHeight t)
    (h' : WellFormed poseidon depth shardHeight t') (ha : Alike tracked t t') (noteId : F)
    (leafIndex : Nat) :
    ∃ r u u', t.markOwned noteId leafIndex = some (r, u) ∧
      t'.markOwned noteId leafIndex = some (r, u') ∧ Alike tracked u u' := by
  have halike := ha
  obtain ⟨roots, live, notes, leaves, dirty, room, fits, owned⟩ := h
  obtain ⟨roots', live', notes', leaves', dirty', room', _, owned'⟩ := h'
  obtain ⟨hroots, hlive, hnotes, hdirty⟩ := ha
  obtain rfl : roots' = roots := hroots
  obtain rfl : live' = live := hlive
  have hleaves := owned.same_leaves owned' hnotes
  have hmarked : Alike tracked
      { build poseidon depth shardHeight roots' live' notes leaves dirty with
        ownedLeaves := leaves.insert leafIndex noteId
        ownedNotes := notes.insert noteId ⟨noteId, leafIndex, none⟩
        dirtyOwnedNotes := dirty.insert noteId () }
      { build poseidon depth shardHeight roots' live' notes' leaves' dirty' with
        ownedLeaves := leaves'.insert leafIndex noteId
        ownedNotes := notes'.insert noteId ⟨noteId, leafIndex, none⟩
        dirtyOwnedNotes := dirty'.insert noteId () } :=
    ⟨rfl, rfl, hnotes.insert noteId _, fun htracked => (hdirty htracked).insert noteId ()⟩
  unfold markOwned
  rw [show (build poseidon depth shardHeight roots' live' notes' leaves' dirty').ownedNotes.lookup
      noteId = (build poseidon depth shardHeight roots' live' notes leaves dirty).ownedNotes.lookup
      noteId from hnotes noteId,
    show (build poseidon depth shardHeight roots' live' notes' leaves' dirty').ownedLeaves.lookup
      leafIndex = (build poseidon depth shardHeight roots' live' notes leaves dirty).ownedLeaves.lookup
      leafIndex from hleaves leafIndex]
  generalize (build poseidon depth shardHeight roots' live' notes leaves dirty).ownedNotes.lookup
    noteId = existing
  generalize (build poseidon depth shardHeight roots' live' notes leaves dirty).ownedLeaves.lookup
    leafIndex = holder
  change ∃ r u u', guarded (treeCapacity depth) _ _ = some (r, u) ∧
    guarded (treeCapacity depth) _ _ = some (r, u') ∧ _
  cases treeCapacity depth with
  | error e => exact ⟨_, _, _, rfl, rfl, halike⟩
  | ok capacity =>
    simp only [guarded_ok]
    by_cases hcap : capacity ≤ leafIndex
    · rw [if_pos hcap, if_pos hcap]
      exact ⟨_, _, _, rfl, rfl, halike⟩
    rw [if_neg hcap, if_neg hcap]
    by_cases hdone : leafIndex >>> shardHeight < roots'.length
    · exact ⟨_, _, _, if_pos hdone, if_pos hdone, halike⟩
    cases existing with
    | some existing =>
      by_cases hsame : existing.leafIndex = leafIndex
      · exact ⟨_, _, _, (if_neg hdone).trans (if_pos hsame), (if_neg hdone).trans (if_pos hsame),
          halike⟩
      · exact ⟨_, _, _, (if_neg hdone).trans (if_neg hsame), (if_neg hdone).trans (if_neg hsame),
          halike⟩
    | none =>
      by_cases hany : (holder.any fun x => decide (x ≠ noteId)) = true
      · exact ⟨_, _, _, (if_neg hdone).trans (if_pos hany), (if_neg hdone).trans (if_pos hany),
          halike⟩
      by_cases hlive : leafIndex < roots'.length * 2 ^ shardHeight + live'.length ∧
          (Imt.canon poseidon shardHeight 0 live').leaf (leafIndex &&& (2 ^ shardHeight - 1)) ≠
            some noteId
      · exact ⟨_, _, _, (if_neg hdone).trans ((if_neg hany).trans (if_pos hlive)),
          (if_neg hdone).trans ((if_neg hany).trans (if_pos hlive)), halike⟩
      · exact ⟨_, _, _, (if_neg hdone).trans ((if_neg hany).trans (if_neg hlive)),
          (if_neg hdone).trans ((if_neg hany).trans (if_neg hlive)), hmarked⟩

theorem adoptFrozenWitness_alike (h : WellFormed poseidon depth shardHeight t)
    (h' : WellFormed poseidon depth shardHeight t') (ha : Alike tracked t t') (noteId : F)
    (leafIndex : Nat) (siblings : List F) :
    ∃ r u u', t.adoptFrozenWitness poseidon noteId leafIndex siblings = some (r, u) ∧
      t'.adoptFrozenWitness poseidon noteId leafIndex siblings = some (r, u') ∧
      Alike tracked u u' := by
  have halike := ha
  obtain ⟨roots, live, notes, leaves, dirty, room, fits, owned⟩ := h
  obtain ⟨roots', live', notes', leaves', dirty', room', _, owned'⟩ := h'
  obtain ⟨hroots, hlive, hnotes, hdirty⟩ := ha
  obtain rfl : roots' = roots := hroots
  obtain rfl : live' = live := hlive
  have hleaves := owned.same_leaves owned' hnotes
  have hadopted : Alike tracked
      { build poseidon depth shardHeight roots' live' notes leaves dirty with
        ownedLeaves := leaves.insert leafIndex noteId
        ownedNotes := notes.insert noteId ⟨noteId, leafIndex, some siblings⟩
        dirtyOwnedNotes := dirty.insert noteId () }
      { build poseidon depth shardHeight roots' live' notes' leaves' dirty' with
        ownedLeaves := leaves'.insert leafIndex noteId
        ownedNotes := notes'.insert noteId ⟨noteId, leafIndex, some siblings⟩
        dirtyOwnedNotes := dirty'.insert noteId () } :=
    ⟨rfl, rfl, hnotes.insert noteId _, fun htracked => (hdirty htracked).insert noteId ()⟩
  unfold adoptFrozenWitness
  rw [show (build poseidon depth shardHeight roots' live' notes' leaves' dirty').ownedNotes.lookup
      noteId = (build poseidon depth shardHeight roots' live' notes leaves dirty).ownedNotes.lookup
      noteId from hnotes noteId,
    show (build poseidon depth shardHeight roots' live' notes' leaves' dirty').ownedLeaves.lookup
      leafIndex = (build poseidon depth shardHeight roots' live' notes leaves dirty).ownedLeaves.lookup
      leafIndex from hleaves leafIndex,
    show verifyFrozenPath poseidon (build poseidon depth shardHeight roots' live' notes' leaves' dirty')
      noteId leafIndex siblings = verifyFrozenPath poseidon
      (build poseidon depth shardHeight roots' live' notes leaves dirty) noteId leafIndex siblings
      from rfl]
  generalize (build poseidon depth shardHeight roots' live' notes leaves dirty).ownedLeaves.lookup
    leafIndex = holder
  by_cases hdone : roots'.length ≤ leafIndex >>> shardHeight
  · exact ⟨_, _, _, if_pos hdone, if_pos hdone, halike⟩
  generalize hfilter : Option.filter (fun w : OwnedNoteWitness F => decide (w.leafIndex ≠ leafIndex))
    ((build poseidon depth shardHeight roots' live' notes leaves dirty).ownedNotes.lookup noteId) =
    existing
  cases existing with
  | some existing => exact ⟨_, _, _, if_neg hdone, if_neg hdone, halike⟩
  | none =>
    by_cases hany : (holder.any fun x => decide (x ≠ noteId)) = true
    · exact ⟨_, _, _, (if_neg hdone).trans (if_pos hany), (if_neg hdone).trans (if_pos hany), halike⟩
    generalize verifyFrozenPath poseidon (build poseidon depth shardHeight roots' live' notes leaves
      dirty) noteId leafIndex siblings = checked
    cases checked with
    | error e => exact ⟨_, _, _, (if_neg hdone).trans (if_neg hany),
        (if_neg hdone).trans (if_neg hany), halike⟩
    | ok _ => exact ⟨_, _, _, (if_neg hdone).trans (if_neg hany),
        (if_neg hdone).trans (if_neg hany), hadopted⟩

omit [Zero F] [DecidableEq F] in
/-- The ids from a leaf count on, by position. -/
theorem ownedFrom_same (h : AList.Same t.ownedLeaves t'.ownedLeaves) (leafCount : Nat) :
    t'.ownedFrom leafCount = t.ownedFrom leafCount := by
  unfold ownedFrom
  congr 1
  symm
  refine List.mergeSort_key_eq Sigma.fst (h.perm.filter _) ?_
  intro e he e' he' hkey
  have hmem := (List.mem_filter.mp he).1
  have hmem' := (List.mem_filter.mp he').1
  obtain ⟨i, id⟩ := e
  obtain ⟨i', id'⟩ := e'
  obtain rfl : i = i' := hkey
  exact congrArg _ (t.ownedLeaves.nodupKeys.eq_of_mk_mem hmem hmem')

theorem rewindLiveTo_alike (g : Geometry depth shardHeight)
    (h : WellFormed poseidon depth shardHeight t) (h' : WellFormed poseidon depth shardHeight t')
    (ha : Alike tracked t t') (leafCount : Nat) :
    ∃ r u u', t.rewindLiveTo poseidon leafCount = some (r, u) ∧
      t'.rewindLiveTo poseidon leafCount = some (r, u') ∧ Alike tracked u u' := by
  have hleaves : AList.Same t.ownedLeaves t'.ownedLeaves ∧ t'.shardSize = t.shardSize ∧
      t'.leafCount = t.leafCount := by
    obtain ⟨roots, live, notes, leaves, dirty, room, fits, owned⟩ := h
    obtain ⟨roots', live', notes', leaves', dirty', room', _, owned'⟩ := h'
    obtain rfl : roots' = roots := ha.roots
    obtain rfl : live' = live := ha.live
    exact ⟨owned.same_leaves owned' ha.notes, rfl, rfl⟩
  obtain ⟨hleaves, hsize, hcount⟩ := hleaves
  by_cases hlo : leafCount < t.completedRoots.length * t.shardSize
  · refine ⟨_, t, t', if_pos hlo, ?_, ha⟩
    rw [← ha.roots, ← hsize] at hlo
    rw [← ha.roots, ← hsize]
    exact if_pos hlo
  by_cases hhi : t.leafCount < leafCount
  · refine ⟨_, t, t', (if_neg hlo).trans (if_pos hhi), ?_, ha⟩
    rw [← ha.roots, ← hsize] at hlo
    rw [← hcount] at hhi
    rw [← hcount]
    exact (if_neg hlo).trans (if_pos hhi)
  obtain ⟨u, heq, hforget, ⟨_, hroots, hlive⟩, _⟩ := rewindLiveTo_ok poseidon g h hlo hhi
  obtain ⟨u', heq', hforget', ⟨_, hroots', hlive'⟩, _⟩ := rewindLiveTo_ok poseidon g h'
    (by rwa [ha.roots, hsize]) (by rwa [hcount])
  have hfrom := ownedFrom_same hleaves leafCount
  rw [hfrom] at heq' hforget'
  refine ⟨_, u, u', heq, heq', ?_, ?_, ?_, ?_⟩
  · rw [hroots, hroots', ha.roots]
  · rw [hlive, hlive', ha.live, ha.roots, hsize]
  · intro id
    rw [hforget.notes, hforget'.notes, ha.notes id]
  · intro htracked
    refine AList.Same.of_mem fun id => ?_
    rw [hforget.dirty, hforget'.dirty, (ha.dirty htracked).mem id]

theorem drain_alike (h : WellFormed poseidon depth shardHeight t) (ha : Alike tracked t t') :
    (tracked → t'.drainDirtyOwnedNotes.1 = t.drainDirtyOwnedNotes.1) ∧
      Alike tracked t.drainDirtyOwnedNotes.2 t'.drainDirtyOwnedNotes.2 := by
  obtain ⟨roots, live, notes, leaves, dirty, room, fits, owned⟩ := h
  exact ⟨fun htracked => owned.same_drained ha.notes (ha.dirty htracked),
    ha.roots, ha.live, ha.notes, fun _ => AList.Same.refl ∅⟩

/-! ### Runs -/

theorem step_alike (g : Geometry depth shardHeight) (h : WellFormed poseidon depth shardHeight t)
    (h' : WellFormed poseidon depth shardHeight t') (ha : Alike tracked t t') (op : Op F) :
    ∃ r r' u u', step poseidon t op = some (r, u) ∧ step poseidon t' op = some (r', u') ∧
      SameReply tracked r r' ∧ Alike tracked u u' := by
  cases op with
  | append noteId =>
    obtain ⟨r, u, u', heq, heq', hu⟩ := append_alike poseidon g h h' ha noteId
    exact ⟨_, _, _, _, congrArg (Option.map _) heq, congrArg (Option.map _) heq', .of_eq _, hu⟩
  | appendMany noteIds =>
    obtain ⟨r, u, u', heq, heq', hu⟩ := appendMany_alike poseidon g h h' ha noteIds
    exact ⟨_, _, _, _, congrArg (Option.map _) heq, congrArg (Option.map _) heq', .of_eq _, hu⟩
  | markOwned noteId leafIndex =>
    obtain ⟨r, u, u', heq, heq', hu⟩ := markOwned_alike poseidon h h' ha noteId leafIndex
    exact ⟨_, _, _, _, congrArg (Option.map _) heq, congrArg (Option.map _) heq', .of_eq _, hu⟩
  | unmarkOwned noteId =>
    obtain ⟨hfound, hu⟩ := unmarkOwned_alike ha noteId
    refine ⟨.ok (.unmarked (t.unmarkOwned noteId).1), .ok (.unmarked (t'.unmarkOwned noteId).1), _, _,
      rfl, rfl, ?_, hu⟩
    rw [hfound]
    exact .of_eq _
  | adoptFrozenWitness noteId leafIndex siblings =>
    obtain ⟨r, u, u', heq, heq', hu⟩ :=
      adoptFrozenWitness_alike poseidon h h' ha noteId leafIndex siblings
    exact ⟨_, _, _, _, congrArg (Option.map _) heq, congrArg (Option.map _) heq', .of_eq _, hu⟩
  | rewindLiveTo leafCount =>
    obtain ⟨r, u, u', heq, heq', hu⟩ := rewindLiveTo_alike poseidon g h h' ha leafCount
    exact ⟨_, _, _, _, congrArg (Option.map _) heq, congrArg (Option.map _) heq', .of_eq _, hu⟩
  | drainDirtyOwnedNotes =>
    obtain ⟨hsame, hu⟩ := drain_alike poseidon h ha
    exact ⟨.ok (.drained t.drainDirtyOwnedNotes.1), .ok (.drained t'.drainDirtyOwnedNotes.1), _, _,
      rfl, rfl, ⟨fun htracked => by rw [hsame htracked], rfl⟩, hu⟩

/-- A sequence of calls with their replies. -/
def calls (t : ShardedNotesTree F) :
    List (Op F) → Option (List (Except TreeError (Reply F)) × ShardedNotesTree F)
  | [] => some ([], t)
  | op :: ops => do
    let (r, t) ← step poseidon t op
    let (rest, t) ← t.calls ops
    some (r :: rest, t)

theorem calls_alike (g : Geometry depth shardHeight) (ops : List (Op F))
    (h : WellFormed poseidon depth shardHeight t) (h' : WellFormed poseidon depth shardHeight t')
    (ha : Alike tracked t t') :
    ∃ rs rs' u u', t.calls poseidon ops = some (rs, u) ∧ t'.calls poseidon ops = some (rs', u') ∧
      List.Forall₂ (SameReply tracked) rs rs' ∧ WellFormed poseidon depth shardHeight u ∧
      WellFormed poseidon depth shardHeight u' ∧ Alike tracked u u' := by
  induction ops generalizing t t' with
  | nil => exact ⟨[], [], t, t', rfl, rfl, .nil, h, h', ha⟩
  | cons op ops ih =>
    obtain ⟨r, r', u, u', heq, heq', hr, hu⟩ := step_alike poseidon g h h' ha op
    obtain ⟨_, _, hstep, hsteps⟩ := step_spec poseidon g h op
    obtain ⟨_, _, hstep', hsteps'⟩ := step_spec poseidon g h' op
    obtain ⟨-, rfl⟩ := Prod.mk.inj (Option.some.inj (heq.symm.trans hstep))
    obtain ⟨-, rfl⟩ := Prod.mk.inj (Option.some.inj (heq'.symm.trans hstep'))
    obtain ⟨rs, rs', v, v', hrs, hrs', hall, hrest⟩ := ih hsteps.wellFormed hsteps'.wellFormed hu
    refine ⟨r :: rs, r' :: rs', v, v', ?_, ?_, .cons hr hall, hrest⟩
    · rw [calls, heq, Option.bind_eq_bind, Option.bind_some]
      exact congrArg (fun x => Option.bind x _) hrs
    · rw [calls, heq', Option.bind_eq_bind, Option.bind_some]
      exact congrArg (fun x => Option.bind x _) hrs'

/-! ### Queries -/

/-- The public reads agree. -/
structure SameAnswers (t t' : ShardedNotesTree F) : Prop where
  root : t'.root = t.root
  leafCount : t'.leafCount = t.leafCount
  records : t'.ownedNoteRecords = t.ownedNoteRecords
  witness : ∀ noteId, t'.witness noteId = t.witness noteId

theorem Alike.answers (h : WellFormed poseidon depth shardHeight t)
    (h' : WellFormed poseidon depth shardHeight t') (ha : Alike tracked t t') : SameAnswers t t' := by
  obtain ⟨roots, live, notes, leaves, dirty, room, fits, owned⟩ := h
  obtain ⟨roots', live', notes', leaves', dirty', room', _, owned'⟩ := h'
  obtain ⟨hroots, hlive, hnotes, _⟩ := ha
  obtain rfl : roots' = roots := hroots
  obtain rfl : live' = live := hlive
  refine ⟨rfl, rfl, owned.same_records hnotes, fun noteId => ?_⟩
  unfold witness
  rw [hnotes noteId]
  rfl

end Calls

end Curvy.ShardedNotesTree
