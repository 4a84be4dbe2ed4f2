import Curvy.Core.ShardedTreeInv

/-!
# One specification for each call on the sharded tree

On a well-formed tree every call returns; an error leaves the tree as it was, and the
errors of the appends are those of their opening checks.
-/

namespace Curvy.ShardedNotesTree

set_option autoImplicit false

open PerfectTree List Outcome

variable {F : Type} [Zero F] [DecidableEq F] (poseidon : F → F → F)

/-! ### Appends -/

section Appends
variable {depth shardHeight : Nat} {t : ShardedNotesTree F}

omit [DecidableEq F] in
theorem ensureRoom_ok {roots live : List F} {notes : OwnedNotes F} {leaves : OwnedLeaves F}
    {dirty : DirtyNotes F} {n : Nat} (g : Geometry depth shardHeight)
    (fits : roots.length * 2 ^ shardHeight + live.length ≤ 2 ^ depth)
    (h : (build poseidon depth shardHeight roots live notes leaves dirty).ensureRoom n = .ok ()) :
    roots.length * 2 ^ shardHeight + live.length + n ≤ 2 ^ depth := by
  by_contra hfull
  simp only [ensureRoom, build_leafCount, show (build poseidon depth shardHeight roots live notes
    leaves dirty).depth = depth from rfl, treeCapacity_ok g.fits] at h
  rw [if_pos (by omega)] at h
  cases h

omit [Zero F] in
theorem validate_ok {leafIndex : Nat} {noteId : F}
    (h : t.validateIncomingOwnedNote leafIndex noteId = .ok ()) :
    ∀ id, t.ownedLeaves.lookup leafIndex = some id → id = noteId := by
  intro id hid
  by_contra hne
  simp [validateIncomingOwnedNote, hid, hne] at h

omit [Zero F] in
theorem validateBatch_ok {first : Nat} {noteIds : List F}
    (h : t.validateBatch first noteIds = .ok ()) : Expects t.ownedLeaves first noteIds := by
  induction noteIds generalizing first with
  | nil =>
    intro j id _ hj
    simp at hj
  | cons noteId noteIds ih =>
    rw [validateBatch] at h
    cases hv : t.validateIncomingOwnedNote first noteId with
    | error e => simp [hv] at h
    | ok _ =>
      simp only [hv] at h
      intro j id hid hj
      cases j with
      | zero => rw [validate_ok hv id hid, List.getElem?_cons_zero]
      | succ j =>
        rw [List.getElem?_cons_succ]
        refine ih h j id ?_ (by simpa using hj)
        rw [← hid]
        congr 1
        omega

theorem Extends.refl (h : WellFormed poseidon depth shardHeight t) :
    Extends poseidon depth shardHeight t [] t where
  wellFormed := h
  leaves := rfl
  count := rfl
  log := fun log hlog => by rwa [List.append_nil]
  provenance := fun adopted log _ hprov => by rwa [List.append_nil]
  dirtied := ⟨fun h => h, fun _ hid => hid, fun _ hdiff => absurd rfl hdiff⟩

/-- An append is refused by one of its two checks or takes the note. -/
theorem append_spec (g : Geometry depth shardHeight) (h : WellFormed poseidon depth shardHeight t)
    (noteId : F) :
    (∃ e, t.append poseidon noteId = some (.error e, t) ∧
      (t.ensureRoom 1 = .error e ∨ t.validateIncomingOwnedNote t.leafCount noteId = .error e)) ∨
    ∃ t', t.append poseidon noteId = some (.ok (), t') ∧
      Extends poseidon depth shardHeight t [noteId] t' := by
  cases hroom : t.ensureRoom 1 with
  | error e => exact Or.inl ⟨e, by simp [append, hroom], Or.inl rfl⟩
  | ok _ =>
    cases hvalid : t.validateIncomingOwnedNote t.leafCount noteId with
    | error e => exact Or.inl ⟨e, by simp [append, hroom, hvalid], Or.inr rfl⟩
    | ok _ =>
      refine Or.inr ?_
      simp only [append, hroom, hvalid, guarded_ok]
      obtain ⟨roots, live, notes, leaves, dirty, room, fits, owned⟩ := h
      have hs : shardHeight < usizeBits := g.lt.trans g.fits
      have hexpects : Expects leaves (roots.length * 2 ^ shardHeight + live.length) [noteId] := by
        intro j id hid hj
        obtain rfl : j = 0 := by simpa using hj
        rw [validate_ok hvalid id hid, List.getElem?_cons_zero]
      obtain ⟨t', hpour, hext⟩ := pour_eq poseidon dirty g (List.cons_ne_nil noteId [])
        room (ensureRoom_ok poseidon g fits hroom) owned hexpects
      refine ⟨t', ?_, hext⟩
      rw [show (build poseidon depth shardHeight roots live notes leaves dirty).live =
        Imt.canon poseidon shardHeight 0 live from rfl, Imt.insert_canon poseidon hs 0 noteId room]
      exact hpour

theorem appendSegment_eq (g : Geometry depth shardHeight) {roots live : List F}
    {notes : OwnedNotes F} {leaves : OwnedLeaves F} {dirty : DirtyNotes F} (segment : List F)
    (hle : live.length + segment.length ≤ 2 ^ shardHeight) :
    appendSegment poseidon (build poseidon depth shardHeight roots live notes leaves dirty) segment =
      andThen (syncLiveRoot poseidon
        { build poseidon depth shardHeight roots live notes leaves dirty with
          live := Imt.canon poseidon shardHeight 0 (live ++ segment)
          liveLeaves := live ++ segment })
        (fun _ t => if t.liveLeaves.length = t.shardSize then rollOver poseidon t
          else some (.ok (), t)) := by
  have hs : shardHeight < usizeBits := g.lt.trans g.fits
  have hbulk : Imt.fromLeaves poseidon shardHeight (live ++ segment) =
      some (Imt.canon poseidon shardHeight 0 (live ++ segment)) :=
    Imt.fromLeavesWithZero_eq poseidon hs 0 (by rwa [List.length_append])
  have hincremental := Imt.foldlM_insert_canon poseidon hs 0 live segment hle
  simp only [appendSegment, build, hbulk, hincremental, ite_self, Option.bind_eq_bind,
    Option.bind_some]

/-- A round of the batch loop takes a nonempty segment that fits the live shard. -/
theorem appendSegments_round (depth : Nat) (roots : List F) {live : List F}
    (room : live.length < 2 ^ shardHeight) (rounds : Nat) {remaining : List F}
    (hne : remaining ≠ []) :
    ∃ seg rest, remaining = seg ++ rest ∧ seg ≠ [] ∧ live.length + seg.length ≤ 2 ^ shardHeight ∧
      ∀ (notes : OwnedNotes F) (leaves : OwnedLeaves F) (dirty : DirtyNotes F),
        appendSegments poseidon (rounds + 1) remaining
          (build poseidon depth shardHeight roots live notes leaves dirty) =
        andThen (appendSegment poseidon
            (build poseidon depth shardHeight roots live notes leaves dirty) seg)
          fun _ t => appendSegments poseidon rounds rest t := by
  have hpos : 0 < remaining.length := List.length_pos_iff.mpr hne
  obtain ⟨take, htake⟩ : ∃ take, take = min (2 ^ shardHeight - live.length) remaining.length :=
    ⟨_, rfl⟩
  have hseg : (remaining.take take).length = take := by
    rw [List.length_take]
    omega
  refine ⟨remaining.take take, remaining.drop take, (List.take_append_drop _ _).symm, ?_, ?_, ?_⟩
  · rw [← List.length_pos_iff, hseg]
    omega
  · rw [hseg]
    omega
  · intro notes leaves dirty
    rw [appendSegments, if_neg (by simpa using hne)]
    refine (if_neg (Nat.not_lt.mpr room.le)).trans ?_
    simp only [show min ((build poseidon depth shardHeight roots live notes leaves dirty).shardSize -
      (build poseidon depth shardHeight roots live notes leaves dirty).liveLeaves.length)
      remaining.length = take from htake.symm]

theorem appendSegments_spec (g : Geometry depth shardHeight) (rounds : Nat) (remaining : List F)
    (h : WellFormed poseidon depth shardHeight t) (hrounds : remaining.length ≤ rounds)
    (hfits : t.leafCount + remaining.length ≤ 2 ^ depth)
    (hexpects : Expects t.ownedLeaves t.leafCount remaining) :
    ∃ t', appendSegments poseidon rounds remaining t = some (.ok (), t') ∧
      Extends poseidon depth shardHeight t remaining t' := by
  induction rounds generalizing remaining t with
  | zero =>
    obtain rfl : remaining = [] := List.length_eq_zero_iff.mp (by omega)
    exact ⟨t, rfl, Extends.refl poseidon h⟩
  | succ rounds ih =>
    by_cases hnil : remaining = []
    · subst hnil
      exact ⟨t, rfl, Extends.refl poseidon h⟩
    obtain ⟨roots, live, notes, leaves, dirty, room, fits, owned⟩ := h
    obtain ⟨seg, rest, rfl, hne, hle, hround⟩ := appendSegments_round poseidon depth roots
      room rounds hnil
    have hpos : 0 < seg.length := List.length_pos_iff.mpr hne
    rw [List.length_append] at hrounds hfits
    rw [build_leafCount] at hfits hexpects
    obtain ⟨hexpects₁, hexpects₂⟩ := expects_append.mp hexpects
    obtain ⟨t₁, hpour, hext₁⟩ := pour_eq poseidon dirty g hne hle (by omega) owned hexpects₁
    have hcount := hext₁.count
    rw [build_leafCount] at hcount
    obtain ⟨t', hrest, hext₂⟩ := ih rest hext₁.wellFormed (by omega) (by omega)
      (by rw [hext₁.leaves, hcount]; exact hexpects₂)
    refine ⟨t', ?_, hext₁.trans poseidon hext₂⟩
    rw [hround, appendSegment_eq poseidon g seg hle, hpour, andThen_ok, hrest]

/-- A batch is refused by one of its two checks or is taken whole. -/
theorem appendMany_spec (g : Geometry depth shardHeight)
    (h : WellFormed poseidon depth shardHeight t) (noteIds : List F) :
    (∃ e, t.appendMany poseidon noteIds = some (.error e, t) ∧
      (t.ensureRoom noteIds.length = .error e ∨ t.validateBatch t.leafCount noteIds = .error e)) ∨
    ∃ t', t.appendMany poseidon noteIds = some (.ok (), t') ∧
      Extends poseidon depth shardHeight t noteIds t' := by
  cases hroom : t.ensureRoom noteIds.length with
  | error e => exact Or.inl ⟨e, by simp [appendMany, hroom], Or.inl rfl⟩
  | ok _ =>
    cases hvalid : t.validateBatch t.leafCount noteIds with
    | error e => exact Or.inl ⟨e, by simp [appendMany, hroom, hvalid], Or.inr rfl⟩
    | ok _ =>
      refine Or.inr ?_
      simp only [appendMany, hroom, hvalid, guarded_ok]
      refine appendSegments_spec poseidon g _ _ h le_rfl ?_ (validateBatch_ok hvalid)
      obtain ⟨roots, live, notes, leaves, dirty, room, fits, owned⟩ := h
      exact ensureRoom_ok poseidon g fits hroom

end Appends
/-! ### Owned records -/

section Records
variable {depth shardHeight : Nat} {roots live : List F} {notes : OwnedNotes F}
  {leaves : OwnedLeaves F} {t : ShardedNotesTree F}

omit [Zero F] in
/-- Writing the record `w` of a note whose position is its own or free. -/
theorem Owned.insert {poseidon : F → F → F} {w : OwnedNoteWitness F}
    (owned : Owned poseidon shardHeight roots live notes leaves)
    (hnote : ∀ v, notes.lookup w.noteId = some v → v.leafIndex = w.leafIndex)
    (hleaf : ∀ id, leaves.lookup w.leafIndex = some id → id = w.noteId)
    (hfrozen : w.withinShardSiblings.isSome ↔ w.leafIndex / 2 ^ shardHeight < roots.length)
    (hopens : ∀ s, w.withinShardSiblings = some s → s.length = shardHeight ∧
      roots[w.leafIndex / 2 ^ shardHeight]? =
        some (climb poseidon w.noteId (w.leafIndex % 2 ^ shardHeight) s))
    (hposition : w.leafIndex / 2 ^ shardHeight = roots.length →
      w.leafIndex % 2 ^ shardHeight < live.length →
      live[w.leafIndex % 2 ^ shardHeight]? = some w.noteId) :
    Owned poseidon shardHeight roots live (notes.insert w.noteId w)
      (leaves.insert w.leafIndex w.noteId) := by
  have hcases : ∀ {id v}, (notes.insert w.noteId w).lookup id = some v →
      (id = w.noteId ∧ v = w) ∨ (id ≠ w.noteId ∧ notes.lookup id = some v) := by
    intro id v hv
    by_cases hid : id = w.noteId
    · subst hid
      rw [AList.lookup_insert] at hv
      exact Or.inl ⟨rfl, (Option.some.inj hv).symm⟩
    · rw [AList.lookup_insert_ne hid] at hv
      exact Or.inr ⟨hid, hv⟩
  refine ⟨?_, ?_, ?_, ?_, ?_⟩
  · intro id v hv
    rcases hcases hv with ⟨rfl, rfl⟩ | ⟨_, hv⟩
    · rfl
    · exact owned.key id v hv
  · intro id i
    by_cases hi : i = w.leafIndex
    · subst hi
      rw [AList.lookup_insert]
      constructor
      · intro hid
        obtain rfl := Option.some.inj hid
        exact ⟨w, AList.lookup_insert _, rfl⟩
      · rintro ⟨v, hv, hvi⟩
        rcases hcases hv with ⟨rfl, _⟩ | ⟨hne, hv⟩
        · rfl
        · exact absurd (hleaf id ((owned.mirror id _).mpr ⟨v, hv, hvi⟩)) hne
    · rw [AList.lookup_insert_ne hi, owned.mirror]
      constructor
      · rintro ⟨v, hv, hvi⟩
        have hne : id ≠ w.noteId := by
          rintro rfl
          exact hi (hvi.symm.trans (hnote v hv))
        exact ⟨v, (AList.lookup_insert_ne hne).trans hv, hvi⟩
      · rintro ⟨v, hv, hvi⟩
        rcases hcases hv with ⟨_, rfl⟩ | ⟨_, hv⟩
        · exact absurd hvi.symm hi
        · exact ⟨v, hv, hvi⟩
  · intro id v hv
    rcases hcases hv with ⟨_, rfl⟩ | ⟨_, hv⟩
    · exact hfrozen
    · exact owned.frozen id v hv
  · intro id v s hv hs
    rcases hcases hv with ⟨rfl, rfl⟩ | ⟨_, hv⟩
    · exact hopens s hs
    · exact owned.opens id v s hv hs
  · intro id v hv
    rcases hcases hv with ⟨rfl, rfl⟩ | ⟨_, hv⟩
    · exact hposition
    · exact owned.position id v hv

omit [Zero F] in
theorem Owned.erase {poseidon : F → F → F} {id : F} {w : OwnedNoteWitness F}
    (owned : Owned poseidon shardHeight roots live notes leaves)
    (hw : notes.lookup id = some w) :
    Owned poseidon shardHeight roots live (notes.erase id) (leaves.erase w.leafIndex) := by
  have hcases : ∀ {x v}, (notes.erase id).lookup x = some v → x ≠ id ∧ notes.lookup x = some v := by
    intro x v hv
    by_cases hx : x = id
    · subst hx
      rw [AList.lookup_erase] at hv
      cases hv
    · rw [AList.lookup_erase_ne hx] at hv
      exact ⟨hx, hv⟩
  refine ⟨?_, ?_, ?_, ?_, ?_⟩
  · exact fun x v hv => owned.key x v (hcases hv).2
  · intro x i
    by_cases hi : i = w.leafIndex
    · subst hi
      rw [AList.lookup_erase]
      constructor
      · intro h
        cases h
      · rintro ⟨v, hv, hvi⟩
        obtain ⟨hne, hv⟩ := hcases hv
        have h1 := (owned.mirror x _).mpr ⟨v, hv, hvi⟩
        have h2 := (owned.mirror id _).mpr ⟨w, hw, rfl⟩
        rw [h1] at h2
        exact absurd (Option.some.inj h2) hne
    · rw [AList.lookup_erase_ne hi, owned.mirror]
      constructor
      · rintro ⟨v, hv, hvi⟩
        have hne : x ≠ id := by
          rintro rfl
          rw [hw] at hv
          obtain rfl := Option.some.inj hv
          exact hi hvi.symm
        exact ⟨v, (AList.lookup_erase_ne hne).trans hv, hvi⟩
      · rintro ⟨v, hv, hvi⟩
        exact ⟨v, (hcases hv).2, hvi⟩
  · exact fun x v hv => owned.frozen x v (hcases hv).2
  · exact fun x v s hv => owned.opens x v s (hcases hv).2
  · exact fun x v hv => owned.position x v (hcases hv).2

omit [Zero F] in
theorem Owned.truncate {poseidon : F → F → F} (n : Nat)
    (owned : Owned poseidon shardHeight roots live notes leaves) :
    Owned poseidon shardHeight roots (live.take n) notes leaves where
  key := owned.key
  mirror := owned.mirror
  frozen := owned.frozen
  opens := owned.opens
  position := by
    intro id w hw hshard hlt
    rw [List.length_take] at hlt
    rw [List.getElem?_take_of_lt (by omega)]
    exact owned.position id w hw hshard (by omega)

/-- The tree with the record `w` written. -/
structure Records (depth shardHeight : Nat) (t : ShardedNotesTree F) (w : OwnedNoteWitness F)
    (t' : ShardedNotesTree F) : Prop where
  wellFormed : WellFormed poseidon depth shardHeight t'
  roots : t'.completedRoots = t.completedRoots
  live : t'.liveLeaves = t.liveLeaves
  notes : t'.ownedNotes = t.ownedNotes.insert w.noteId w
  dirty : t'.dirtyOwnedNotes = t.dirtyOwnedNotes.insert w.noteId ()

/-- The tree with the records of `ids` gone. -/
structure Forgets (depth shardHeight : Nat) (t : ShardedNotesTree F) (ids : List F)
    (t' : ShardedNotesTree F) : Prop where
  wellFormed : WellFormed poseidon depth shardHeight t'
  notes : ∀ id, t'.ownedNotes.lookup id = if id ∈ ids then none else t.ownedNotes.lookup id
  dirty : ∀ id, id ∈ t'.dirtyOwnedNotes ↔ id ∈ t.dirtyOwnedNotes ∧ id ∉ ids

omit [Zero F] in
theorem any_ne_iff {o : Option F} {id : F} :
    ¬ (o.any fun x => decide (x ≠ id)) = true ↔ ∀ x, o = some x → x = id := by
  cases o <;> simp

omit [Zero F] in
theorem markOwned_cases (noteId : F) (leafIndex : Nat) :
    (∃ e, t.markOwned noteId leafIndex = some (.error e, t)) ∨
    t.markOwned noteId leafIndex = some (.ok (), t) ∨
    (t.completedRoots.length ≤ leafIndex >>> t.shardHeight ∧ t.ownedNotes.lookup noteId = none ∧
      (∀ id, t.ownedLeaves.lookup leafIndex = some id → id = noteId) ∧
      (leafIndex < t.leafCount →
        t.live.leaf (leafIndex &&& (t.shardSize - 1)) = some noteId) ∧
      t.markOwned noteId leafIndex = some (.ok (), { t with
        ownedLeaves := t.ownedLeaves.insert leafIndex noteId
        ownedNotes := t.ownedNotes.insert noteId ⟨noteId, leafIndex, none⟩
        dirtyOwnedNotes := t.dirtyOwnedNotes.insert noteId () })) := by
  unfold markOwned
  cases treeCapacity t.depth with
  | error e => exact Or.inl ⟨e, rfl⟩
  | ok capacity =>
    rw [guarded_ok]
    dsimp only
    split
    · exact Or.inl ⟨_, rfl⟩
    split
    · exact Or.inl ⟨_, rfl⟩
    rename_i hdone
    cases hnote : t.ownedNotes.lookup noteId with
    | some existing =>
      by_cases hsame : existing.leafIndex = leafIndex
      · exact Or.inr (Or.inl (if_pos hsame))
      · exact Or.inl ⟨_, if_neg hsame⟩
    | none =>
      dsimp only
      split
      · exact Or.inl ⟨_, rfl⟩
      rename_i hany
      split
      · exact Or.inl ⟨_, rfl⟩
      rename_i hmatch
      refine Or.inr (Or.inr ⟨Nat.not_lt.mp hdone, rfl, any_ne_iff.mp hany, ?_, rfl⟩)
      intro hlt
      by_contra hne
      exact hmatch ⟨hlt, hne⟩

theorem markOwned_spec (h : WellFormed poseidon depth shardHeight t) (noteId : F)
    (leafIndex : Nat) :
    (∃ e, t.markOwned noteId leafIndex = some (.error e, t)) ∨
    t.markOwned noteId leafIndex = some (.ok (), t) ∨
    ∃ t', t.markOwned noteId leafIndex = some (.ok (), t') ∧
      Records poseidon depth shardHeight t ⟨noteId, leafIndex, none⟩ t' := by
  rcases t.markOwned_cases noteId leafIndex with herr | hsame | ⟨hdone, hnote, hleaf, hlive, hmark⟩
  · exact Or.inl herr
  · exact Or.inr (Or.inl hsame)
  refine Or.inr (Or.inr ⟨_, hmark, ?_, rfl, rfl, rfl, rfl⟩)
  obtain ⟨roots, live, notes, leaves, dirty, room, fits, owned⟩ := h
  refine .mk roots live _ _ _ room fits
    (owned.insert (w := ⟨noteId, leafIndex, none⟩) ?_ hleaf ?_ ?_ ?_)
  · intro v hv
    rw [show notes.lookup noteId = none from hnote] at hv
    cases hv
  · have hge : roots.length ≤ leafIndex / 2 ^ shardHeight := by
      rw [← Nat.shiftRight_eq_div_pow]
      exact hdone
    simpa using hge
  · intro s hs
    cases hs
  · intro hshard hlt
    have hsplit := Nat.div_add_mod leafIndex (2 ^ shardHeight)
    change leafIndex / 2 ^ shardHeight = roots.length at hshard
    change leafIndex % 2 ^ shardHeight < live.length at hlt
    rw [hshard, Nat.mul_comm] at hsplit
    have hcount : leafIndex < roots.length * 2 ^ shardHeight + live.length := by omega
    have := hlive hcount
    simpa only [build, and_shardSize, Imt.leaf, Imt.canon_leaves] using this

omit [Zero F] [DecidableEq F] in
theorem climbFrozen_eq (node : F) (index : Nat) (siblings : List F) :
    climbFrozen poseidon (node, index) siblings = climb poseidon node index siblings := by
  induction siblings generalizing node index with
  | nil => rfl
  | cons s siblings ih =>
    rw [climbFrozen, ih, climb_cons, Nat.shiftRight_one]
    rfl

omit [Zero F] in
theorem verifyFrozenPath_ok {noteId : F} {leafIndex : Nat} {siblings : List F}
    (h : verifyFrozenPath poseidon t noteId leafIndex siblings = .ok ()) :
    siblings.length = t.shardHeight ∧
      t.completedRoots[leafIndex >>> t.shardHeight]? =
        some (climb poseidon noteId (leafIndex &&& (t.shardSize - 1)) siblings) := by
  unfold verifyFrozenPath at h
  split at h
  · cases h
  rename_i hlen
  refine ⟨not_not.mp hlen, ?_⟩
  cases hroot : t.completedRoots[leafIndex >>> t.shardHeight]? with
  | none => simp [hroot] at h
  | some root =>
    simp only [hroot] at h
    split at h
    · cases h
    · rename_i heq
      rw [← climbFrozen_eq, not_not.mp heq]

omit [Zero F] in
theorem adoptFrozenWitness_cases (noteId : F) (leafIndex : Nat) (siblings : List F) :
    (∃ e, t.adoptFrozenWitness poseidon noteId leafIndex siblings = some (.error e, t)) ∨
    (leafIndex >>> t.shardHeight < t.completedRoots.length ∧
      (∀ v, t.ownedNotes.lookup noteId = some v → v.leafIndex = leafIndex) ∧
      (∀ id, t.ownedLeaves.lookup leafIndex = some id → id = noteId) ∧
      verifyFrozenPath poseidon t noteId leafIndex siblings = .ok () ∧
      t.adoptFrozenWitness poseidon noteId leafIndex siblings = some (.ok (), { t with
        ownedLeaves := t.ownedLeaves.insert leafIndex noteId
        ownedNotes := t.ownedNotes.insert noteId ⟨noteId, leafIndex, some siblings⟩
        dirtyOwnedNotes := t.dirtyOwnedNotes.insert noteId () })) := by
  unfold adoptFrozenWitness
  dsimp only
  split
  · exact Or.inl ⟨_, rfl⟩
  rename_i hdone
  cases hfilter : (t.ownedNotes.lookup noteId).filter (·.leafIndex ≠ leafIndex) with
  | some existing => exact Or.inl ⟨_, rfl⟩
  | none =>
    dsimp only
    split
    · exact Or.inl ⟨_, rfl⟩
    rename_i hany
    cases hverify : verifyFrozenPath poseidon t noteId leafIndex siblings with
    | error e => exact Or.inl ⟨e, rfl⟩
    | ok _ =>
      refine Or.inr ⟨Nat.not_le.mp hdone, ?_, any_ne_iff.mp hany, rfl, rfl⟩
      intro v hv
      by_contra hne
      simp [hv, hne] at hfilter

theorem adoptFrozenWitness_spec (h : WellFormed poseidon depth shardHeight t) (noteId : F)
    (leafIndex : Nat) (siblings : List F) :
    (∃ e, t.adoptFrozenWitness poseidon noteId leafIndex siblings = some (.error e, t)) ∨
    ∃ t', t.adoptFrozenWitness poseidon noteId leafIndex siblings = some (.ok (), t') ∧
      Records poseidon depth shardHeight t ⟨noteId, leafIndex, some siblings⟩ t' := by
  rcases t.adoptFrozenWitness_cases poseidon noteId leafIndex siblings with
    herr | ⟨hdone, hnote, hleaf, hverify, hadopt⟩
  · exact Or.inl herr
  refine Or.inr ⟨_, hadopt, ?_, rfl, rfl, rfl, rfl⟩
  obtain ⟨roots, live, notes, leaves, dirty, room, fits, owned⟩ := h
  obtain ⟨hlen, hroot⟩ := verifyFrozenPath_ok poseidon hverify
  have hshard : leafIndex / 2 ^ shardHeight < roots.length := by
    rw [← Nat.shiftRight_eq_div_pow]
    exact hdone
  refine .mk roots live _ _ _ room fits
    (owned.insert (w := ⟨noteId, leafIndex, some siblings⟩) hnote hleaf ?_ ?_ ?_)
  · simpa using hshard
  · intro s hs
    obtain rfl := Option.some.inj hs
    refine ⟨hlen, ?_⟩
    simpa only [build, Nat.shiftRight_eq_div_pow, and_shardSize] using hroot
  · intro hlast
    exact absurd hlast (Nat.ne_of_lt hshard)

theorem unmarkOwned_spec (h : WellFormed poseidon depth shardHeight t) (noteId : F) :
    Forgets poseidon depth shardHeight t [noteId] (t.unmarkOwned noteId).2 ∧
      (t.unmarkOwned noteId).2.completedRoots = t.completedRoots ∧
      (t.unmarkOwned noteId).2.liveLeaves = t.liveLeaves := by
  obtain ⟨roots, live, notes, leaves, dirty, room, fits, owned⟩ := h
  have hdirty : ∀ id, id ∈ dirty.erase noteId ↔ id ∈ dirty ∧ id ∉ [noteId] := by
    intro id
    rw [AList.mem_erase, List.mem_singleton, and_comm]
  cases hw : notes.lookup noteId with
  | none =>
    have hres : unmarkOwned (build poseidon depth shardHeight roots live notes leaves dirty) noteId =
        (false, build poseidon depth shardHeight roots live notes leaves (dirty.erase noteId)) := by
      simp [unmarkOwned, build, hw]
    rw [hres]
    refine ⟨⟨.mk _ _ _ _ _ room fits owned, ?_, hdirty⟩, rfl, rfl⟩
    intro id
    change notes.lookup id = if id ∈ [noteId] then none else notes.lookup id
    simp only [List.mem_singleton]
    split
    · rename_i hid
      rw [hid, hw]
    · rfl
  | some w =>
    have hres : unmarkOwned (build poseidon depth shardHeight roots live notes leaves dirty) noteId =
        (true, build poseidon depth shardHeight roots live (notes.erase noteId)
          (leaves.erase w.leafIndex) (dirty.erase noteId)) := by
      simp [unmarkOwned, build, hw]
    rw [hres]
    refine ⟨⟨.mk _ _ _ _ _ room fits (owned.erase hw), ?_, hdirty⟩, rfl, rfl⟩
    intro id
    change (notes.erase noteId).lookup id = if id ∈ [noteId] then none else notes.lookup id
    simp only [List.mem_singleton]
    split
    · rename_i hid
      rw [hid, AList.lookup_erase]
    · rename_i hid
      rw [AList.lookup_erase_ne hid]

theorem unmarkAll_spec (h : WellFormed poseidon depth shardHeight t) (ids : List F) :
    Forgets poseidon depth shardHeight t ids (ids.foldl (fun t id => (t.unmarkOwned id).2) t) ∧
      (ids.foldl (fun t id => (t.unmarkOwned id).2) t).completedRoots = t.completedRoots ∧
      (ids.foldl (fun t id => (t.unmarkOwned id).2) t).liveLeaves = t.liveLeaves := by
  induction ids generalizing t with
  | nil => exact ⟨⟨h, by simp, by simp⟩, rfl, rfl⟩
  | cons id ids ih =>
    obtain ⟨hforget, hroots, hlive⟩ := unmarkOwned_spec poseidon h id
    obtain ⟨hforget', hroots', hlive'⟩ := ih hforget.wellFormed
    rw [List.foldl_cons]
    refine ⟨⟨hforget'.wellFormed, ?_, ?_⟩, hroots'.trans hroots, hlive'.trans hlive⟩
    · intro x
      rw [hforget'.notes, hforget.notes]
      by_cases hx : x = id
      · simp [hx]
      · simp [hx]
    · intro x
      rw [hforget'.dirty, hforget.dirty]
      simp [and_assoc]

omit [DecidableEq F] in
theorem Logged.truncate {log : List F} {n : Nat} (hlog : Logged poseidon shardHeight log roots live)
    (hlo : roots.length * 2 ^ shardHeight ≤ n)
    (hhi : n ≤ roots.length * 2 ^ shardHeight + live.length) :
    Logged poseidon shardHeight (log.take n) roots
      (live.take (n - roots.length * 2 ^ shardHeight)) where
  length := by
    have := hlog.length
    rw [List.length_take, List.length_take]
    omega
  nodes := by
    conv_lhs => rw [hlog.nodes]
    apply tabulate_congr
    intro s hs
    have hmul := Nat.mul_le_mul_right (2 ^ shardHeight) (show s + 1 ≤ roots.length from hs)
    have hle : (s + 1) * 2 ^ shardHeight ≤ (log.take n).length := by
      have := hlog.length
      rw [List.length_take]
      omega
    conv_lhs => rw [← List.take_append_drop n log]
    rw [node_append_of_lt]
    exact (Nat.le_div_iff_mul_le (Nat.two_pow_pos shardHeight)).mpr hle
  suffix := by rw [List.drop_take, ← hlog.suffix]

theorem Provenance.truncate {poseidon : F → F → F} {adopted : F → Nat → List F → Prop}
    {log : List F} {n : Nat} (owned : Owned poseidon shardHeight roots live notes leaves)
    (hlog : Logged poseidon shardHeight log roots live)
    (hlo : roots.length * 2 ^ shardHeight ≤ n)
    (hprov : Provenance poseidon shardHeight adopted log notes) :
    Provenance poseidon shardHeight adopted (log.take n) notes := by
  intro id w s hw hs
  rcases hprov id w s hw hs with ⟨hleaf, rfl⟩ | hadopted
  · have hshard := (owned.frozen id w hw).mp (by simp [hs])
    have hmul := Nat.mul_le_mul_right (2 ^ shardHeight)
      (show w.leafIndex / 2 ^ shardHeight + 1 ≤ roots.length from hshard)
    have hend := Nat.lt_div_mul_add (a := w.leafIndex) (Nat.two_pow_pos shardHeight)
    rw [Nat.succ_mul] at hmul
    refine Or.inl ⟨?_, ?_⟩
    · rw [List.getElem?_take_of_lt (by omega), hleaf]
    · rw [← path_in_shard, ← path_in_shard poseidon (log.take n)]
      conv_lhs => rw [← List.take_append_drop n log]
      rw [slice_append]
      have := hlog.length
      rw [List.length_take, Nat.succ_mul]
      omega
  · exact Or.inr hadopted

/-- A rewind inside the live shard drops the owned records at and above the new leaf count. -/
theorem rewindLiveTo_ok (g : Geometry depth shardHeight)
    (h : WellFormed poseidon depth shardHeight t) {leafCount : Nat}
    (hlo : ¬ leafCount < t.completedRoots.length * t.shardSize) (hhi : ¬ t.leafCount < leafCount) :
    ∃ t', t.rewindLiveTo poseidon leafCount = some (.ok (t.ownedFrom leafCount), t') ∧
      Forgets poseidon depth shardHeight t (t.ownedFrom leafCount) t' ∧
      (t'.leafCount = leafCount ∧ t'.completedRoots = t.completedRoots ∧ t'.liveLeaves =
        t.liveLeaves.take (leafCount - t.completedRoots.length * t.shardSize)) ∧
      (∀ log, Logged poseidon shardHeight log t.completedRoots t.liveLeaves →
        Logged poseidon shardHeight (log.take leafCount) t'.completedRoots t'.liveLeaves) ∧
      ∀ adopted log, Logged poseidon shardHeight log t.completedRoots t.liveLeaves →
        Provenance poseidon shardHeight adopted log t.ownedNotes →
        Provenance poseidon shardHeight adopted (log.take leafCount) t'.ownedNotes := by
  unfold rewindLiveTo
  dsimp only
  rw [if_neg hlo, if_neg hhi]
  obtain ⟨hforget, hroots, hlive⟩ := unmarkAll_spec poseidon h (t.ownedFrom leafCount)
  generalize (t.ownedFrom leafCount).foldl (fun t id => (t.unmarkOwned id).2) t = t₁
    at hforget hroots hlive ⊢
  obtain ⟨hwf, hnotes, hdirty⟩ := hforget
  have howned : ∀ id w, t₁.ownedNotes.lookup id = some w → t.ownedNotes.lookup id = some w := by
    intro id w hw
    rw [hnotes] at hw
    split at hw
    · cases hw
    · exact hw
  obtain ⟨roots, live, notes, leaves, dirty, room, fits, owned⟩ := h
  obtain ⟨roots₁, live₁, notes₁, leaves₁, dirty₁, room₁, fits₁, owned₁⟩ := hwf
  obtain rfl : roots₁ = roots := hroots
  obtain rfl : live₁ = live := hlive
  replace hlo : roots₁.length * 2 ^ shardHeight ≤ leafCount := Nat.not_lt.mp hlo
  replace hhi : leafCount ≤ roots₁.length * 2 ^ shardHeight + live₁.length := Nat.not_lt.mp hhi
  have hs : shardHeight < usizeBits := g.lt.trans g.fits
  obtain ⟨live', hlive'⟩ : ∃ live', live' =
      live₁.take (leafCount - roots₁.length * 2 ^ shardHeight) := ⟨_, rfl⟩
  have hlen : live'.length = leafCount - roots₁.length * 2 ^ shardHeight := by
    rw [hlive', List.length_take]
    omega
  refine ⟨build poseidon depth shardHeight roots₁ live' notes₁ leaves₁ dirty₁, ?_, ?_, ?_, ?_, ?_⟩
  · have hbulk := Imt.fromLeavesWithZero_eq poseidon hs 0 (show live'.length ≤ 2 ^ shardHeight by omega)
    have hcap := rebuildCap_eq poseidon notes₁ leaves₁ dirty₁ g
      (Imt.canon poseidon (depth - shardHeight) (empty poseidon 0 shardHeight)
        (capRoots poseidon shardHeight roots₁ live₁)) (show live'.length ≤ 2 ^ shardHeight by omega)
      (capRoots_length_le poseidon g
        (show roots₁.length * 2 ^ shardHeight + live'.length ≤ 2 ^ depth by omega))
    simp only [show (build poseidon depth shardHeight roots₁ live₁ notes₁ leaves₁
      dirty₁).liveLeaves.take (leafCount - (build poseidon depth shardHeight roots₁ live₁ notes
      leaves dirty).completedRoots.length * (build poseidon depth shardHeight roots₁ live₁ notes
      leaves dirty).shardSize) = live' from hlive'.symm,
      show (build poseidon depth shardHeight roots₁ live₁ notes₁ leaves₁ dirty₁).shardHeight =
      shardHeight from rfl, Imt.fromLeaves, hbulk, Option.bind_eq_bind, Option.bind_some]
    exact congrArg (fun x => Option.bind x _) hcap
  · refine ⟨.mk _ _ _ _ _ (by omega) (by omega) ?_, hnotes, hdirty⟩
    rw [hlive']
    exact owned₁.truncate _
  · refine ⟨?_, rfl, hlive'⟩
    rw [build_leafCount]
    omega
  · intro log hlog
    have htrunc := hlog.truncate poseidon (n := leafCount) hlo hhi
    change Logged poseidon shardHeight (log.take leafCount) roots₁ live'
    rw [hlive']
    exact htrunc
  · intro adopted log hlog hprov
    refine Provenance.truncate owned₁ hlog hlo ?_
    exact fun id w s hw hsib => hprov id w s (howned id w hw) hsib

/-- A rewind is refused or drops the owned records at and above the new leaf count. -/
theorem rewindLiveTo_spec (g : Geometry depth shardHeight)
    (h : WellFormed poseidon depth shardHeight t) (leafCount : Nat) :
    (∃ e, t.rewindLiveTo poseidon leafCount = some (.error e, t)) ∨
    ∃ t', t.rewindLiveTo poseidon leafCount = some (.ok (t.ownedFrom leafCount), t') ∧
      Forgets poseidon depth shardHeight t (t.ownedFrom leafCount) t' ∧
      (t'.leafCount = leafCount ∧ t'.completedRoots = t.completedRoots ∧ t'.liveLeaves =
        t.liveLeaves.take (leafCount - t.completedRoots.length * t.shardSize)) ∧
      (∀ log, Logged poseidon shardHeight log t.completedRoots t.liveLeaves →
        Logged poseidon shardHeight (log.take leafCount) t'.completedRoots t'.liveLeaves) ∧
      ∀ adopted log, Logged poseidon shardHeight log t.completedRoots t.liveLeaves →
        Provenance poseidon shardHeight adopted log t.ownedNotes →
        Provenance poseidon shardHeight adopted (log.take leafCount) t'.ownedNotes := by
  by_cases hlo : leafCount < t.completedRoots.length * t.shardSize
  · exact Or.inl ⟨_, if_pos hlo⟩
  by_cases hhi : t.leafCount < leafCount
  · exact Or.inl ⟨_, (if_neg hlo).trans (if_pos hhi)⟩
  exact Or.inr (rewindLiveTo_ok poseidon g h hlo hhi)

/-- A witness answers without a panic, with the frozen or the live path below the cap. -/
theorem witness_spec (g : Geometry depth shardHeight) (dirty : DirtyNotes F)
    (fits : roots.length * 2 ^ shardHeight + live.length ≤ 2 ^ depth)
    (room : live.length < 2 ^ shardHeight)
    (owned : Owned poseidon shardHeight roots live notes leaves) (noteId : F) :
    ∃ r, (build poseidon depth shardHeight roots live notes leaves dirty).witness noteId = some r ∧
      (∀ p, r = .ok p → ∃ w s, notes.lookup noteId = some w ∧
        p = ⟨noteId, w.leafIndex, s ++ path poseidon (empty poseidon 0 shardHeight)
            (capRoots poseidon shardHeight roots live) (depth - shardHeight)
            (w.leafIndex / 2 ^ shardHeight),
          node poseidon (empty poseidon 0 shardHeight) (capRoots poseidon shardHeight roots live)
            (depth - shardHeight) 0⟩ ∧
        (w.withinShardSiblings = some s ∨
          (w.leafIndex / 2 ^ shardHeight = roots.length ∧
            live[w.leafIndex % 2 ^ shardHeight]? = some noteId ∧
            s = path poseidon 0 live shardHeight (w.leafIndex % 2 ^ shardHeight)))) ∧
      ∀ e w, r = .error e → notes.lookup noteId = some w → w.withinShardSiblings = none ∧
        (w.leafIndex / 2 ^ shardHeight = roots.length →
          live[w.leafIndex % 2 ^ shardHeight]? ≠ some noteId) := by
  have hcap := capRoots_length_le poseidon g fits
  cases hw : notes.lookup noteId with
  | none =>
    exact ⟨.error .noteNotMarked, by simp only [witness, build, hw], fun p hp => (by cases hp),
      fun e w _ hw => (by cases hw)⟩
  | some w =>
    have hroot := Imt.canon_root poseidon (depth - shardHeight) (empty poseidon 0 shardHeight) _ hcap
    cases hsib : w.withinShardSiblings with
    | some s =>
      have hshard := (owned.frozen noteId w hw).mp (by simp [hsib])
      have hindex : w.leafIndex / 2 ^ shardHeight <
          (capRoots poseidon shardHeight roots live).length := by
        unfold capRoots
        split
        · exact hshard
        · rw [List.length_append]
          omega
      refine ⟨_, by
        simp only [witness, root, build, hw, hsib, Nat.shiftRight_eq_div_pow,
          Imt.createProof_canon poseidon _ hcap hindex, hroot, Option.bind_eq_bind,
          Option.bind_some]
        rfl, ?_, fun e w he => (by cases he)⟩
      rintro p hp
      obtain rfl := Except.ok.inj hp
      exact ⟨w, s, rfl, rfl, Or.inl hsib⟩
    | none =>
      by_cases hbad : w.leafIndex / 2 ^ shardHeight ≠ roots.length ∨
          live[w.leafIndex % 2 ^ shardHeight]? ≠ some noteId
      · refine ⟨.error (.ownedLeafMismatch w.leafIndex), ?_, fun p hp => (by cases hp), ?_⟩
        · simp only [witness, build, hw, hsib, Nat.shiftRight_eq_div_pow, and_shardSize, Imt.leaf,
            Imt.canon_leaves, hbad, if_true, Option.bind_eq_bind, Option.bind_some]
        · intro e w' _ hw'
          obtain rfl := Option.some.inj hw'
          exact ⟨hsib, fun hshard => hbad.resolve_left (not_not.mpr hshard)⟩
      · obtain ⟨hshard, hleaf⟩ : w.leafIndex / 2 ^ shardHeight = roots.length ∧
            live[w.leafIndex % 2 ^ shardHeight]? = some noteId := by
          simpa [not_or] using hbad
        have hwithin : w.leafIndex % 2 ^ shardHeight < live.length :=
          (List.getElem?_eq_some_iff.mp hleaf).1
        have hne : live ≠ [] := by
          rintro rfl
          simp at hwithin
        have hindex : w.leafIndex / 2 ^ shardHeight <
            (capRoots poseidon shardHeight roots live).length := by
          rw [capRoots_of_ne_nil poseidon hne, List.length_append, List.length_singleton]
          omega
        refine ⟨_, by
          simp only [witness, root, build, hw, hsib, Nat.shiftRight_eq_div_pow, and_shardSize,
            Imt.leaf, Imt.canon_leaves, hbad, if_false,
            Imt.createProof_canon poseidon 0 room.le hwithin, Option.map_some,
            Imt.createProof_canon poseidon _ hcap hindex, hroot, Option.bind_eq_bind,
            Option.bind_some]
          rfl, ?_, fun e w he => (by cases he)⟩
        rintro p hp
        obtain rfl := Except.ok.inj hp
        exact ⟨w, _, rfl, rfl, Or.inr ⟨hshard, hleaf, rfl⟩⟩

end Records

/-! ### Restoring a snapshot -/

section Restore
variable {depth shardHeight : Nat} {t t' : ShardedNotesTree F}

theorem restoreOwned_spec {w : OwnedNoteWitness F} {capacity : Nat}
    (h : WellFormed poseidon depth shardHeight t)
    (hok : restoreOwned poseidon t capacity w = .ok t') :
    WellFormed poseidon depth shardHeight t' ∧ t'.dirtyOwnedNotes = t.dirtyOwnedNotes := by
  unfold restoreOwned at hok
  split at hok
  · cases hok
  split at hok
  · cases hok
  rename_i hdup
  simp only [not_or, Option.not_isSome_iff_eq_none] at hdup
  obtain ⟨hnote, hleaf⟩ := hdup
  cases hcheck : checkRestored poseidon t w with
  | error e => simp [hcheck] at hok
  | ok _ =>
    simp only [hcheck, Except.ok.injEq] at hok
    subst hok
    refine ⟨?_, rfl⟩
    obtain ⟨roots, live, notes, leaves, dirty, room, fits, owned⟩ := h
    change notes.lookup w.noteId = none at hnote
    change leaves.lookup w.leafIndex = none at hleaf
    refine .mk roots live _ _ _ room fits (owned.insert (w := w) (by simp [hnote]) (by simp [hleaf])
      ?_ ?_ ?_)
    all_goals
      unfold checkRestored at hcheck
      split at hcheck
    · -- the shard is completed
      rename_i hshard
      change w.leafIndex >>> shardHeight < roots.length at hshard
      rw [Nat.shiftRight_eq_div_pow] at hshard
      cases hsib : w.withinShardSiblings with
      | none => simp [hsib] at hcheck
      | some s => simpa using hshard
    · rename_i hshard
      change ¬ w.leafIndex >>> shardHeight < roots.length at hshard
      rw [Nat.shiftRight_eq_div_pow] at hshard
      split at hcheck
      · cases hcheck
      · rename_i hsib
        exact ⟨fun h => absurd h hsib, fun h => absurd h hshard⟩
    · intro s hs
      simp only [hs] at hcheck
      obtain ⟨hlen, hroot⟩ := verifyFrozenPath_ok poseidon hcheck
      refine ⟨hlen, ?_⟩
      simpa only [build, Nat.shiftRight_eq_div_pow, and_shardSize] using hroot
    · intro s hs
      simp [hs] at hcheck
    · rename_i hshard
      change w.leafIndex >>> shardHeight < roots.length at hshard
      rw [Nat.shiftRight_eq_div_pow] at hshard
      exact fun hlast => absurd hlast (Nat.ne_of_lt hshard)
    · intro hshard hlt
      split at hcheck
      · cases hcheck
      split at hcheck
      · cases hcheck
      rename_i hmatch
      have hsplit := Nat.div_add_mod w.leafIndex (2 ^ shardHeight)
      rw [hshard, Nat.mul_comm] at hsplit
      have hcount : w.leafIndex < roots.length * 2 ^ shardHeight + live.length := by omega
      by_contra hne
      refine hmatch ⟨hcount, ?_⟩
      simpa only [build, and_shardSize, Imt.leaf, Imt.canon_leaves] using hne

theorem restoreAll_spec {capacity : Nat} (records : List (OwnedNoteWitness F))
    (h : WellFormed poseidon depth shardHeight t)
    (hok : records.foldlM (fun t owned => restoreOwned poseidon t capacity owned) t = .ok t') :
    WellFormed poseidon depth shardHeight t' ∧ t'.dirtyOwnedNotes = t.dirtyOwnedNotes := by
  induction records generalizing t with
  | nil =>
    obtain rfl : t = t' := Except.ok.inj hok
    exact ⟨h, rfl⟩
  | cons w records ih =>
    rw [List.foldlM_cons] at hok
    cases hw : restoreOwned poseidon t capacity w with
    | error e =>
      rw [hw] at hok
      cases hok
    | ok t₁ =>
      rw [hw] at hok
      obtain ⟨h₁, hdirty₁⟩ := restoreOwned_spec poseidon h hw
      obtain ⟨h', hdirty'⟩ := ih h₁ hok
      exact ⟨h', hdirty'.trans hdirty₁⟩

omit [Zero F] in
theorem owned_empty (roots live : List F) : Owned poseidon shardHeight roots live ∅ ∅ := by
  refine ⟨?_, ?_, ?_, ?_, ?_⟩ <;> simp

/-- Past the checks on the counts a snapshot restores its records one by one. -/
theorem fromSnapshot_eq (g : Geometry depth shardHeight) {roots live : List F}
    (room : live.length < 2 ^ shardHeight)
    (fits : roots.length * 2 ^ shardHeight + live.length ≤ 2 ^ depth)
    (records : List (OwnedNoteWitness F)) :
    fromSnapshot poseidon ⟨depth, shardHeight, roots, live, records⟩ =
      some (records.foldlM (fun t owned => restoreOwned poseidon t (2 ^ depth) owned)
        (build poseidon depth shardHeight roots live ∅ ∅ ∅)) := by
  have hs : shardHeight < usizeBits := g.lt.trans g.fits
  have hcap : depth - shardHeight < usizeBits := (Nat.sub_le _ _).trans_lt g.fits
  obtain ⟨hshards, hlive⟩ := shards_le g fits
  have hfull : ¬ (roots.length = 2 ^ (depth - shardHeight) ∧ ¬ live.isEmpty) := by
    rintro ⟨hall, hne⟩
    have := hlive (List.length_pos_iff.mpr fun hnil => hne (by rw [hnil]; rfl))
    omega
  have hbulk := Imt.fromLeavesWithZero_eq poseidon hs 0 room.le
  have hrebuild := rebuildCap_eq poseidon ∅ ∅ ∅ g
    (build poseidon depth shardHeight [] [] ∅ ∅ ∅).cap room.le (capRoots_length_le poseidon g fits)
  simp only [fromSnapshot, new_eq poseidon g, Option.bind_eq_bind, Option.bind_some,
    show (build poseidon depth shardHeight [] [] ∅ ∅ ∅).capDepth = depth - shardHeight from rfl,
    show (build poseidon depth shardHeight [] [] ∅ ∅ ∅).depth = depth from rfl,
    show (build poseidon depth shardHeight [] [] ∅ ∅ ∅).shardHeight = shardHeight from rfl,
    show (build poseidon depth shardHeight [] [] ∅ ∅ ∅).shardSize = 2 ^ shardHeight from rfl,
    treeCapacity_ok hcap, treeCapacity_ok g.fits, if_neg (Nat.not_lt.mpr hshards),
    if_neg (Nat.not_le.mpr room), if_neg hfull, Imt.fromLeaves, hbulk]
  exact congrArg (fun x => Option.bind x fun t => some (records.foldlM
    (fun t owned => restoreOwned poseidon t (2 ^ depth) owned) t)) hrebuild

theorem fromSnapshot_fits {roots live : List F} {records : List (OwnedNoteWitness F)}
    (hok : fromSnapshot poseidon ⟨depth, shardHeight, roots, live, records⟩ = some (.ok t)) :
    Geometry depth shardHeight ∧ live.length < 2 ^ shardHeight ∧
      roots.length * 2 ^ shardHeight + live.length ≤ 2 ^ depth := by
  unfold fromSnapshot at hok
  cases hnew : new poseidon depth shardHeight with
  | none => simp [hnew] at hok
  | some r =>
    cases r with
    | error e => simp [hnew] at hok
    | ok t₀ =>
      obtain ⟨g, rfl⟩ := new_ok poseidon hnew
      have hcap : depth - shardHeight < usizeBits := (Nat.sub_le _ _).trans_lt g.fits
      simp only [hnew, Option.bind_eq_bind, Option.bind_some,
        show (build poseidon depth shardHeight [] [] ∅ ∅ ∅).capDepth = depth - shardHeight from rfl,
        treeCapacity_ok hcap] at hok
      split at hok
      · cases hok
      rename_i hshards
      split at hok
      · cases hok
      rename_i hroom
      split at hok
      · cases hok
      rename_i hfull
      refine ⟨g, Nat.not_le.mp hroom, ?_⟩
      have hroom : live.length < 2 ^ shardHeight := Nat.not_le.mp hroom
      have hpow : 2 ^ depth = 2 ^ (depth - shardHeight) * 2 ^ shardHeight := by
        rw [← pow_add, Nat.sub_add_cancel g.lt.le]
      rw [hpow]
      rcases Nat.lt_or_eq_of_le (Nat.not_lt.mp hshards) with hlt | heq
      · have := Nat.mul_le_mul_right (2 ^ shardHeight) (show roots.length + 1 ≤ _ from hlt)
        rw [Nat.succ_mul] at this
        omega
      · have hlive : live = [] := by simpa [heq] using hfull
        subst hlive
        rw [heq, List.length_nil, Nat.add_zero]

/-- An accepted snapshot is a well-formed tree without dirt. -/
theorem fromSnapshot_spec {snapshot : ShardedTreeSnapshot F}
    (hok : fromSnapshot poseidon snapshot = some (.ok t)) :
    Geometry snapshot.depth snapshot.shardHeight ∧
      WellFormed poseidon snapshot.depth snapshot.shardHeight t ∧ t.dirtyOwnedNotes = ∅ := by
  obtain ⟨depth, shardHeight, roots, live, records⟩ := snapshot
  obtain ⟨g, room, fits⟩ := fromSnapshot_fits poseidon hok
  rw [fromSnapshot_eq poseidon g room fits] at hok
  obtain ⟨hwf, hdirty⟩ := restoreAll_spec poseidon records
    (.mk roots live ∅ ∅ ∅ room fits (owned_empty poseidon roots live)) (Option.some.inj hok)
  exact ⟨g, hwf, hdirty⟩

theorem new_wellFormed :
    WellFormed poseidon depth shardHeight (build poseidon depth shardHeight [] [] ∅ ∅ ∅) :=
  .mk [] [] ∅ ∅ ∅ (Nat.two_pow_pos _) (by simp) (owned_empty poseidon [] [])

end Restore
end Curvy.ShardedNotesTree
