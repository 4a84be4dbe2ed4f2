import Curvy.Core.ImtProofs
import Curvy.Core.ShardedTreeAlike
import Curvy.Core.ShardedTreeStore

/-!
# Restoring a sharded tree

The snapshot of a reachable tree is accepted, and restores a tree alike but without dirt.
Whatever snapshot is accepted, the tree is as healthy as every reachable one.
-/

namespace Curvy.ShardedNotesTree

set_option autoImplicit false

open PerfectTree List Outcome

variable {F : Type} [Zero F] [DecidableEq F] (poseidon : F → F → F)

section Bounds
variable {depth shardHeight : Nat} {t t' : ShardedNotesTree F}

/-! ### Positions stay inside the tree -/

def Bounded (depth : Nat) (t : ShardedNotesTree F) : Prop :=
  ∀ id w, t.ownedNotes.lookup id = some w → w.leafIndex < 2 ^ depth

theorem Extends.bounded {seg : List F} (h : WellFormed poseidon depth shardHeight t)
    (hext : Extends poseidon depth shardHeight t seg t') (hb : Bounded depth t) : Bounded depth t' := by
  intro id w hw
  have hleaf := ((hext.wellFormed.consistent poseidon).mirror id _).mpr ⟨w, hw, rfl⟩
  rw [hext.leaves] at hleaf
  obtain ⟨v, hv, hindex⟩ := ((h.consistent poseidon).mirror id _).mp hleaf
  rw [← hindex]
  exact hb id v hv

theorem Records.bounded {w : OwnedNoteWitness F}
    (hrec : Records poseidon depth shardHeight t w t') (hw : w.leafIndex < 2 ^ depth)
    (hb : Bounded depth t) : Bounded depth t' := by
  intro id v hv
  rw [hrec.notes] at hv
  by_cases hid : id = w.noteId
  · subst hid
    rw [AList.lookup_insert] at hv
    rwa [← Option.some.inj hv]
  · rw [AList.lookup_insert_ne hid] at hv
    exact hb id v hv

theorem Forgets.bounded {ids : List F} (hforget : Forgets poseidon depth shardHeight t ids t')
    (hb : Bounded depth t) : Bounded depth t' :=
  fun id w hw => hb id w (hforget.lookup poseidon hw)

omit [Zero F] in
theorem markOwned_lt {noteId : F} {leafIndex capacity : Nat}
    (hcapacity : treeCapacity t.depth = .ok capacity)
    (h : t.markOwned noteId leafIndex = some (.ok (), t')) : leafIndex < capacity := by
  unfold markOwned at h
  rw [hcapacity, guarded_ok] at h
  split at h
  · cases h
  · exact Nat.not_le.mp ‹_›

theorem step_bounded (g : Geometry depth shardHeight) (h : WellFormed poseidon depth shardHeight t)
    (hb : Bounded depth t) {op : Op F} {r : Except TreeError (Reply F)}
    (hstep : step poseidon t op = some (r, t')) : Bounded depth t' := by
  cases op with
  | append noteId =>
    obtain ⟨⟨r₁, t₁⟩, happ, hpair⟩ := Option.map_eq_some_iff.mp hstep
    obtain ⟨-, rfl⟩ := Prod.mk.inj hpair
    rcases append_spec poseidon g h noteId with ⟨e, heq, _⟩ | ⟨t₂, heq, hext⟩
    · obtain ⟨-, rfl⟩ := Prod.mk.inj (Option.some.inj (heq.symm.trans happ))
      exact hb
    · obtain ⟨-, rfl⟩ := Prod.mk.inj (Option.some.inj (heq.symm.trans happ))
      exact hext.bounded poseidon h hb
  | appendMany noteIds =>
    obtain ⟨⟨r₁, t₁⟩, happ, hpair⟩ := Option.map_eq_some_iff.mp hstep
    obtain ⟨-, rfl⟩ := Prod.mk.inj hpair
    rcases appendMany_spec poseidon g h noteIds with ⟨e, heq, _⟩ | ⟨t₂, heq, hext⟩
    · obtain ⟨-, rfl⟩ := Prod.mk.inj (Option.some.inj (heq.symm.trans happ))
      exact hb
    · obtain ⟨-, rfl⟩ := Prod.mk.inj (Option.some.inj (heq.symm.trans happ))
      exact hext.bounded poseidon h hb
  | markOwned noteId leafIndex =>
    obtain ⟨⟨r₁, t₁⟩, hmark, hpair⟩ := Option.map_eq_some_iff.mp hstep
    obtain ⟨-, rfl⟩ := Prod.mk.inj hpair
    have hdepth : treeCapacity t.depth = .ok (2 ^ depth) := by
      obtain ⟨roots, live, notes, leaves, dirty, room, fits, owned⟩ := h
      exact treeCapacity_ok g.fits
    rcases markOwned_spec poseidon h noteId leafIndex with ⟨e, heq⟩ | heq | ⟨t₂, heq, hrec⟩
    · obtain ⟨-, rfl⟩ := Prod.mk.inj (Option.some.inj (heq.symm.trans hmark))
      exact hb
    · obtain ⟨-, rfl⟩ := Prod.mk.inj (Option.some.inj (heq.symm.trans hmark))
      exact hb
    · obtain ⟨-, rfl⟩ := Prod.mk.inj (Option.some.inj (heq.symm.trans hmark))
      exact hrec.bounded poseidon (markOwned_lt hdepth heq) hb
  | unmarkOwned noteId =>
    obtain ⟨-, rfl⟩ := Prod.mk.inj (Option.some.inj hstep)
    exact (unmarkOwned_spec poseidon h noteId).1.bounded poseidon hb
  | adoptFrozenWitness noteId leafIndex siblings =>
    obtain ⟨⟨r₁, t₁⟩, hadopt, hpair⟩ := Option.map_eq_some_iff.mp hstep
    obtain ⟨-, rfl⟩ := Prod.mk.inj hpair
    rcases adoptFrozenWitness_spec poseidon h noteId leafIndex siblings with
      ⟨e, heq⟩ | ⟨t₂, heq, hrec⟩
    · obtain ⟨-, rfl⟩ := Prod.mk.inj (Option.some.inj (heq.symm.trans hadopt))
      exact hb
    · obtain ⟨-, rfl⟩ := Prod.mk.inj (Option.some.inj (heq.symm.trans hadopt))
      refine hrec.bounded poseidon ?_ hb
      -- the position lies in a completed shard
      have hframe := (hrec.wellFormed.consistent poseidon).frozen noteId _
        (by rw [hrec.notes, AList.lookup_insert])
      have hshard := hframe.mp rfl
      obtain ⟨roots, live, notes, leaves, dirty, room, fits, owned⟩ := hrec.wellFormed
      have hlt := (Nat.div_lt_iff_lt_mul (Nat.two_pow_pos shardHeight)).mp hshard
      change leafIndex < roots.length * 2 ^ shardHeight at hlt
      change leafIndex < 2 ^ depth
      omega
  | rewindLiveTo leafCount =>
    obtain ⟨⟨r₁, t₁⟩, hrewind, hpair⟩ := Option.map_eq_some_iff.mp hstep
    obtain ⟨-, rfl⟩ := Prod.mk.inj hpair
    rcases rewindLiveTo_spec poseidon g h leafCount with ⟨e, heq⟩ | ⟨t₂, heq, hforget, _⟩
    · obtain ⟨-, rfl⟩ := Prod.mk.inj (Option.some.inj (heq.symm.trans hrewind))
      exact hb
    · obtain ⟨-, rfl⟩ := Prod.mk.inj (Option.some.inj (heq.symm.trans hrewind))
      exact hforget.bounded poseidon hb
  | drainDirtyOwnedNotes =>
    obtain ⟨-, rfl⟩ := Prod.mk.inj (Option.some.inj hstep)
    exact hb

omit [Zero F] in
theorem restoreOwned_bounded {w : OwnedNoteWitness F} (hb : Bounded depth t)
    (hok : restoreOwned poseidon t (2 ^ depth) w = .ok t') : Bounded depth t' := by
  unfold restoreOwned at hok
  split at hok
  · cases hok
  rename_i hindex
  split at hok
  · cases hok
  split at hok
  · cases hok
  obtain rfl := Except.ok.inj hok
  intro id v hv
  change (t.ownedNotes.insert w.noteId w).lookup id = some v at hv
  by_cases hid : id = w.noteId
  · subst hid
    rw [AList.lookup_insert] at hv
    rw [← Option.some.inj hv]
    exact Nat.not_le.mp hindex
  · rw [AList.lookup_insert_ne hid] at hv
    exact hb id v hv

omit [Zero F] in
theorem restoreAll_bounded (records : List (OwnedNoteWitness F)) (hb : Bounded depth t)
    (hok : records.foldlM (fun t owned => restoreOwned poseidon t (2 ^ depth) owned) t = .ok t') :
    Bounded depth t' := by
  induction records generalizing t with
  | nil =>
    obtain rfl := Except.ok.inj hok
    exact hb
  | cons w records ih =>
    rw [List.foldlM_cons] at hok
    cases hw : restoreOwned poseidon t (2 ^ depth) w with
    | error e =>
      rw [hw] at hok
      cases hok
    | ok t₁ =>
      rw [hw] at hok
      exact ih (restoreOwned_bounded poseidon hb hw) hok

theorem Reachable.bounded (h : Reachable poseidon depth shardHeight t) : Bounded depth t := by
  induction h with
  | new h =>
    obtain ⟨_, rfl⟩ := new_ok poseidon h
    intro id w hw
    cases hw
  | restored h =>
    obtain ⟨g, room, fits⟩ := fromSnapshot_fits poseidon h
    rw [fromSnapshot_eq poseidon g room fits] at h
    exact restoreAll_bounded poseidon _ (fun id w hw => (by cases hw)) (Option.some.inj h)
  | step h hstep ih =>
    obtain ⟨g, hwf⟩ := h.wellFormed poseidon
    exact step_bounded poseidon g hwf ih hstep

end Bounds

/-! ### Restoring what a tree wrote -/

section Restore
variable {depth shardHeight : Nat} {roots live : List F} {notes : OwnedNotes F}
  {leaves : OwnedLeaves F} {dirty : DirtyNotes F} {t t' : ShardedNotesTree F}

/-- What the checks on a record ask beyond its being new. -/
structure Restorable (depth shardHeight : Nat) (roots live : List F) (w : OwnedNoteWitness F) :
    Prop where
  index : w.leafIndex < 2 ^ depth
  frozen : w.withinShardSiblings.isSome ↔ w.leafIndex / 2 ^ shardHeight < roots.length
  opens : ∀ s, w.withinShardSiblings = some s → s.length = shardHeight ∧
    roots[w.leafIndex / 2 ^ shardHeight]? =
      some (climb poseidon w.noteId (w.leafIndex % 2 ^ shardHeight) s)
  position : w.leafIndex / 2 ^ shardHeight = roots.length →
    w.leafIndex % 2 ^ shardHeight < live.length →
    live[w.leafIndex % 2 ^ shardHeight]? = some w.noteId

omit [Zero F] in
theorem verifyFrozenPath_of {noteId : F} {leafIndex : Nat} {siblings : List F}
    (hlength : siblings.length = t.shardHeight)
    (hroot : t.completedRoots[leafIndex >>> t.shardHeight]? =
      some (climb poseidon noteId (leafIndex &&& (t.shardSize - 1)) siblings)) :
    verifyFrozenPath poseidon t noteId leafIndex siblings = .ok () := by
  unfold verifyFrozenPath
  rw [if_neg (not_not.mpr hlength)]
  simp only [hroot, climbFrozen_eq, ne_eq, not_true_eq_false, if_false]

theorem checkRestored_ok {w : OwnedNoteWitness F} (room : live.length < 2 ^ shardHeight)
    (hw : Restorable poseidon depth shardHeight roots live w) :
    checkRestored poseidon (build poseidon depth shardHeight roots live notes leaves dirty) w =
      .ok () := by
  have hshift : w.leafIndex >>> shardHeight = w.leafIndex / 2 ^ shardHeight :=
    Nat.shiftRight_eq_div_pow _ _
  unfold checkRestored
  by_cases hshard : w.leafIndex / 2 ^ shardHeight < roots.length
  · obtain ⟨s, hs⟩ := Option.isSome_iff_exists.mp (hw.frozen.mpr hshard)
    obtain ⟨hlength, hroot⟩ := hw.opens s hs
    have hverify : verifyFrozenPath poseidon (build poseidon depth shardHeight roots live notes
        leaves dirty) w.noteId w.leafIndex s = .ok () := by
      refine verifyFrozenPath_of poseidon hlength ?_
      simp only [build, hshift, and_shardSize]
      exact hroot
    refine (if_pos ?_).trans ?_
    · change w.leafIndex >>> shardHeight < roots.length
      rwa [hshift]
    · rw [hs]
      exact hverify
  · have hnone : ¬ w.withinShardSiblings.isSome = true := mt hw.frozen.mp hshard
    refine (if_neg ?_).trans ((if_neg hnone).trans (if_neg ?_))
    · change ¬ w.leafIndex >>> shardHeight < roots.length
      rwa [hshift]
    · rintro ⟨hcount, hleaf⟩
      change w.leafIndex < roots.length * 2 ^ shardHeight + live.length at hcount
      simp only [build, and_shardSize, Imt.leaf, Imt.canon_leaves] at hleaf
      have hsplit := Nat.div_add_mod w.leafIndex (2 ^ shardHeight)
      rw [Nat.mul_comm] at hsplit
      have hge := Nat.mul_le_mul_right (2 ^ shardHeight) (Nat.not_lt.mp hshard)
      by_cases heq : w.leafIndex / 2 ^ shardHeight = roots.length
      · rw [heq] at hsplit
        exact hleaf (hw.position heq (by omega))
      · -- a shard past the live one starts past the end
        have := Nat.mul_le_mul_right (2 ^ shardHeight)
          (show roots.length + 1 ≤ w.leafIndex / 2 ^ shardHeight by omega)
        rw [Nat.succ_mul] at this
        omega

theorem restoreOwned_eq {w : OwnedNoteWitness F} (room : live.length < 2 ^ shardHeight)
    (hw : Restorable poseidon depth shardHeight roots live w) (hnote : notes.lookup w.noteId = none)
    (hleaf : leaves.lookup w.leafIndex = none) :
    restoreOwned poseidon (build poseidon depth shardHeight roots live notes leaves dirty)
        (2 ^ depth) w =
      .ok (build poseidon depth shardHeight roots live (notes.insert w.noteId w)
        (leaves.insert w.leafIndex w.noteId) dirty) := by
  have hnew : ¬ ((notes.lookup w.noteId).isSome = true ∨ (leaves.lookup w.leafIndex).isSome = true) := by
    rw [hnote, hleaf]
    simp
  unfold restoreOwned
  refine (if_neg (Nat.not_le.mpr hw.index)).trans ((if_neg hnew).trans ?_)
  rw [checkRestored_ok poseidon room hw]
  rfl

variable (dirty) in
/-- Records at distinct positions of distinct notes are restored one after the other. -/
theorem restoreAll_eq (room : live.length < 2 ^ shardHeight) (records : List (OwnedNoteWitness F))
    (owned : Owned poseidon shardHeight roots live notes leaves)
    (hrecords : ∀ w ∈ records, Restorable poseidon depth shardHeight roots live w)
    (hdistinct : records.Pairwise fun v w => v.noteId ≠ w.noteId ∧ v.leafIndex ≠ w.leafIndex)
    (hnew : ∀ w ∈ records, ∀ id v, notes.lookup id = some v →
      id ≠ w.noteId ∧ v.leafIndex ≠ w.leafIndex) :
    ∃ notes' leaves', records.foldlM (fun t owned => restoreOwned poseidon t (2 ^ depth) owned)
        (build poseidon depth shardHeight roots live notes leaves dirty) =
        .ok (build poseidon depth shardHeight roots live notes' leaves' dirty) ∧
      ∀ id, notes'.lookup id = (records.find? fun w => w.noteId = id).or (notes.lookup id) := by
  induction records generalizing notes leaves with
  | nil => exact ⟨notes, leaves, rfl, fun id => by rw [List.find?_nil, Option.none_or]⟩
  | cons w records ih =>
    obtain ⟨hw, hrecords⟩ := List.forall_mem_cons.mp hrecords
    obtain ⟨hhead, hdistinct⟩ := List.pairwise_cons.mp hdistinct
    obtain ⟨hfresh, hnew⟩ := List.forall_mem_cons.mp hnew
    have hnote : notes.lookup w.noteId = none := by
      cases hlookup : notes.lookup w.noteId with
      | none => rfl
      | some v => exact absurd rfl (hfresh _ v hlookup).1
    have hleaf : leaves.lookup w.leafIndex = none := by
      cases hlookup : leaves.lookup w.leafIndex with
      | none => rfl
      | some id =>
        obtain ⟨v, hv, hindex⟩ := (owned.mirror id _).mp hlookup
        exact absurd hindex (hfresh id v hv).2
    have howned := owned.insert (w := w) (by simp [hnote]) (by simp [hleaf]) hw.frozen hw.opens
      hw.position
    obtain ⟨notes', leaves', hfold, hlookup⟩ := ih howned hrecords hdistinct (by
      intro x hx id v hv
      by_cases hid : id = w.noteId
      · subst hid
        rw [AList.lookup_insert] at hv
        rw [← Option.some.inj hv]
        exact hhead x hx
      · rw [AList.lookup_insert_ne hid] at hv
        exact hnew x hx id v hv)
    refine ⟨notes', leaves', ?_, ?_⟩
    · rw [List.foldlM_cons, restoreOwned_eq poseidon room hw hnote hleaf]
      exact hfold
    · intro id
      rw [hlookup, List.find?_cons]
      by_cases hid : w.noteId = id
      · have hlater : (records.find? fun x => decide (x.noteId = id)) = none := by
          rw [List.find?_eq_none]
          intro x hx
          have := (hhead x hx).1
          rw [hid] at this
          simpa using this.symm
        rw [hlater, Option.none_or, ← hid, AList.lookup_insert]
        simp
      · rw [AList.lookup_insert_ne (Ne.symm hid)]
        simp [hid]

/-- A tree's own records, in leaf order. -/
theorem ownedNoteRecords_distinct (h : WellFormed poseidon depth shardHeight t) :
    t.ownedNoteRecords.Pairwise fun v w => v.noteId ≠ w.noteId ∧ v.leafIndex ≠ w.leafIndex := by
  have hkey := h.key poseidon
  obtain ⟨roots, live, notes, leaves, dirty, room, fits, owned⟩ := h
  have hperm : (byLeafIndex (notes.entries.map Sigma.snd)).Perm (notes.entries.map Sigma.snd) :=
    List.mergeSort_perm _ _
  have hentries : (notes.entries.map Sigma.snd).Pairwise
      fun v w => v.noteId ≠ w.noteId ∧ v.leafIndex ≠ w.leafIndex := by
    rw [List.pairwise_map]
    refine (List.pairwise_map.mp notes.nodupKeys).imp_of_mem ?_
    intro e e' he he' hne
    have hv := AList.mem_lookup_iff.mpr he
    have hv' := AList.mem_lookup_iff.mpr he'
    constructor
    · rw [owned.key _ _ hv, owned.key _ _ hv']
      exact hne
    · intro hindex
      have hsame := owned.leafIndex_inj hv hv' hindex
      have hid := owned.key _ _ hv'
      rw [← hsame, owned.key _ _ hv] at hid
      exact hne hid
  exact (hperm.pairwise_iff fun h => ⟨h.1.symm, h.2.symm⟩).mpr hentries

/-- The snapshot of a well-formed tree restores its leaves and lookups without its dirt. -/
theorem fromSnapshot_snapshot (g : Geometry depth shardHeight)
    (h : WellFormed poseidon depth shardHeight t) (hb : Bounded depth t) :
    ∃ t', fromSnapshot poseidon t.snapshot = some (.ok t') ∧
      WellFormed poseidon depth shardHeight t' ∧ t'.dirtyOwnedNotes = ∅ ∧
      t'.completedRoots = t.completedRoots ∧ t'.liveLeaves = t.liveLeaves ∧
      AList.Same t.ownedNotes t'.ownedNotes := by
  have hkey := h.key poseidon
  have hdistinct := ownedNoteRecords_distinct poseidon h
  have hstore := store_of_records hkey
  obtain ⟨roots, live, notes, leaves, dirty, room, fits, owned⟩ := h
  have hrecords : ∀ w ∈ (build poseidon depth shardHeight roots live notes leaves
      dirty).ownedNoteRecords, Restorable poseidon depth shardHeight roots live w := by
    intro w hw
    have hlookup := (mem_ownedNoteRecords hkey).mp hw
    exact ⟨hb _ w hlookup, owned.frozen _ w hlookup, fun s => owned.opens _ w s hlookup,
      owned.position _ w hlookup⟩
  obtain ⟨notes', leaves', hfold, hlookup⟩ := restoreAll_eq poseidon ∅ room _
    (owned_empty poseidon roots live) hrecords hdistinct (fun _ _ id v hv => (by cases hv))
  have hok : fromSnapshot poseidon (build poseidon depth shardHeight roots live notes leaves
      dirty).snapshot = some (.ok (build poseidon depth shardHeight roots live notes' leaves' ∅)) :=
    (fromSnapshot_eq poseidon g room fits _).trans (congrArg some hfold)
  obtain ⟨_, hwf, hdirty⟩ := fromSnapshot_spec poseidon hok
  refine ⟨_, hok, hwf, hdirty, rfl, rfl, fun id => ?_⟩
  have hfind := congrFun hstore id
  change notes'.lookup id = notes.lookup id
  rw [hlookup, AList.lookup_empty, Option.or_none]
  exact hfind

end Restore

/-! ### Healthy trees -/

section Health
variable {depth shardHeight : Nat} {t t' : ShardedNotesTree F}

/-- Every call returns and is all or nothing, appends fail on their opening checks only, and
a witness verifies against the root; it is refused for notes that are not in the tree only. -/
structure Healthy (depth shardHeight : Nat) (t : ShardedNotesTree F) : Prop where
  wellFormed : WellFormed poseidon depth shardHeight t
  bounded : Bounded depth t
  consistent : Consistent poseidon shardHeight t
  returns : ∀ op, ∃ r t', step poseidon t op = some (r, t') ∧ ∀ e, r = .error e → t' = t
  append : ∀ noteId e t', t.append poseidon noteId = some (.error e, t') →
    t.ensureRoom 1 = .error e ∨ t.validateIncomingOwnedNote t.leafCount noteId = .error e
  appendMany : ∀ noteIds e t', t.appendMany poseidon noteIds = some (.error e, t') →
    t.ensureRoom noteIds.length = .error e ∨ t.validateBatch t.leafCount noteIds = .error e
  root : ∃ root, t.root = some root
  witness : ∀ id, ∃ r, t.witness id = some r ∧
    (∀ p, r = .ok p → p.leaf = id ∧ t.root = some p.root ∧
      verifyProofAtDepth poseidon p depth = true) ∧
    ∀ e, r = .error e → ∀ w, t.ownedNotes.lookup id = some w → t.leafCount ≤ w.leafIndex

/-- A witness climbs through its shard to a leaf of the cap, and from there to the root. -/
theorem witness_verifies (g : Geometry depth shardHeight) {roots live : List F}
    {notes : OwnedNotes F} {leaves : OwnedLeaves F}
    (room : live.length < 2 ^ shardHeight)
    (fits : roots.length * 2 ^ shardHeight + live.length ≤ 2 ^ depth)
    (owned : Owned poseidon shardHeight roots live notes leaves) {id : F} {w : OwnedNoteWitness F}
    {s : List F} (hw : notes.lookup id = some w) (hindex : w.leafIndex < 2 ^ depth)
    (hs : w.withinShardSiblings = some s ∨ (w.leafIndex / 2 ^ shardHeight = roots.length ∧
      live[w.leafIndex % 2 ^ shardHeight]? = some id ∧
      s = path poseidon 0 live shardHeight (w.leafIndex % 2 ^ shardHeight))) :
    verifyProofAtDepth poseidon ⟨id, w.leafIndex, s ++ path poseidon (empty poseidon 0 shardHeight)
      (capRoots poseidon shardHeight roots live) (depth - shardHeight)
      (w.leafIndex / 2 ^ shardHeight),
      node poseidon (empty poseidon 0 shardHeight) (capRoots poseidon shardHeight roots live)
        (depth - shardHeight) 0⟩ depth = true := by
  have hshard : s.length = shardHeight ∧ climb poseidon id w.leafIndex s =
      (capRoots poseidon shardHeight roots live).getD (w.leafIndex / 2 ^ shardHeight)
        (empty poseidon 0 shardHeight) := by
    rcases hs with hs | ⟨hlast, hleaf, rfl⟩
    · obtain ⟨hlength, hroot⟩ := owned.opens id w s hw hs
      refine ⟨hlength, ?_⟩
      have hcap : (capRoots poseidon shardHeight roots live)[w.leafIndex / 2 ^ shardHeight]? =
          roots[w.leafIndex / 2 ^ shardHeight]? := by
        unfold capRoots
        split
        · rfl
        · exact List.getElem?_append_left (List.getElem?_eq_some_iff.mp hroot).1
      rw [List.getD_eq_getElem?_getD, hcap, hroot, Option.getD_some, ← hlength, climb_mod]
    · have hlength : (path poseidon 0 live shardHeight (w.leafIndex % 2 ^ shardHeight)).length =
          shardHeight := path_length _ _ _ _ _
      have hne : live ≠ [] := by
        rintro rfl
        cases hleaf
      have hid : live.getD (w.leafIndex % 2 ^ shardHeight) 0 = id := by
        rw [List.getD_eq_getElem?_getD, hleaf, Option.getD_some]
      refine ⟨hlength, ?_⟩
      have hclimb := climb_path poseidon 0 live shardHeight (w.leafIndex % 2 ^ shardHeight)
      rw [hid, Nat.div_eq_of_lt (Nat.mod_lt _ (Nat.two_pow_pos shardHeight))] at hclimb
      have hmod := climb_mod poseidon id w.leafIndex
        (path poseidon 0 live shardHeight (w.leafIndex % 2 ^ shardHeight))
      rw [hlength] at hmod
      rw [← hmod, hclimb, hlast, capRoots_of_ne_nil poseidon hne, List.getD_eq_getElem?_getD,
        List.getElem?_append_right le_rfl, Nat.sub_self]
      rfl
  obtain ⟨hlength, hclimb⟩ := hshard
  refine verifyProofAtDepth_eq.mpr ⟨g.fits, ?_, hindex, ?_⟩
  · rw [List.length_append, hlength, path_length]
    exact Nat.add_sub_cancel' g.lt.le
  · have hquotient : w.leafIndex / 2 ^ shardHeight / 2 ^ (depth - shardHeight) = 0 := by
      rw [Nat.div_div_eq_div_mul, ← pow_add, Nat.add_sub_cancel' g.lt.le]
      exact Nat.div_eq_of_lt hindex
    rw [climb_append, hlength, hclimb, climb_path, hquotient]

theorem Reachable.healthy (h : Reachable poseidon depth shardHeight t) :
    Healthy poseidon depth shardHeight t := by
  obtain ⟨g, hwf⟩ := h.wellFormed poseidon
  have hconsistent := hwf.consistent poseidon
  have hb := h.bounded poseidon
  have hwell := hwf
  obtain ⟨roots, live, notes, leaves, dirty, room, fits, owned⟩ := hwf
  have hroot : (build poseidon depth shardHeight roots live notes leaves dirty).root = _ :=
    root_eq poseidon (capRoots_length_le poseidon g fits)
  refine ⟨hwell, hb, hconsistent, hwell.returns poseidon g,
    fun _ _ _ => hwell.append_error poseidon g, fun _ _ _ => hwell.appendMany_error poseidon g,
    ⟨_, hroot⟩, fun id => ?_⟩
  obtain ⟨r, hr, hok, herr⟩ := witness_spec poseidon g dirty fits room owned id
  refine ⟨r, hr, ?_, ?_⟩
  · intro p hp
    obtain ⟨w, s, hw, rfl, hcase⟩ := hok p hp
    exact ⟨rfl, hroot, witness_verifies poseidon g room fits owned hw (hb id w hw) hcase⟩
  · intro e he w hw
    obtain ⟨hnone, hlive⟩ := herr e w he hw
    rw [build_leafCount]
    by_contra hlt
    have hshard : roots.length ≤ w.leafIndex / 2 ^ shardHeight :=
      Nat.not_lt.mp fun hshard => by
        have := (owned.frozen id w hw).mpr hshard
        rw [hnone] at this
        cases this
    have hlo := (Nat.le_div_iff_mul_le (Nat.two_pow_pos shardHeight)).mp hshard
    have hposition := hconsistent.position id w hw hlo (Nat.not_le.mp hlt)
    simp only [build, Imt.leaf, Imt.canon_leaves] at hposition
    have hquotient : w.leafIndex / 2 ^ shardHeight = roots.length := by
      rw [Nat.div_eq_iff (Nat.two_pow_pos shardHeight)]
      omega
    exact hlive hquotient hposition

theorem Reachable.calls (h : Reachable poseidon depth shardHeight t) (ops : List (Op F)) :
    ∃ rs u, t.calls poseidon ops = some (rs, u) ∧ Reachable poseidon depth shardHeight u := by
  induction ops generalizing t with
  | nil => exact ⟨[], t, rfl, h⟩
  | cons op ops ih =>
    obtain ⟨r, t', hstep, _⟩ := (h.healthy poseidon).returns op
    obtain ⟨rs, u, hrest, hu⟩ := ih (h.step hstep)
    refine ⟨r :: rs, u, ?_, hu⟩
    rw [ShardedNotesTree.calls, hstep, Option.bind_eq_bind, Option.bind_some]
    exact congrArg (fun x => Option.bind x _) hrest

end Health

/-! ### Exact and safe -/

section Exact
variable {depth shardHeight : Nat} {t t' : ShardedNotesTree F}

/-- The restored tree `t'` of `t`: clean, and otherwise not to be told from `t`. Its replies
are those of `t` once drained, and those of `t` itself but for the records of a drain. -/
structure Restores (t t' : ShardedNotesTree F) : Prop where
  clean : t'.dirtyOwnedNotes = ∅
  owned : ∀ noteId, t'.ownedNotes.lookup noteId = t.ownedNotes.lookup noteId
  answers : SameAnswers t t'
  drained : ∀ ops, ∃ rs u u', t.drainDirtyOwnedNotes.2.calls poseidon ops = some (rs, u) ∧
    t'.calls poseidon ops = some (rs, u') ∧ SameAnswers u u'
  later : ∀ ops, ∃ rs rs' u u', t.calls poseidon ops = some (rs, u) ∧
    t'.calls poseidon ops = some (rs', u') ∧ SameAnswers u u' ∧
    rs'.map (Except.map Reply.withoutDrained) = rs.map (Except.map Reply.withoutDrained)

omit [Zero F] [DecidableEq F] in
theorem forall₂_same {rs rs' : List (Except TreeError (Reply F))}
    (h : List.Forall₂ (SameReply True) rs rs') : rs' = rs := by
  induction h with
  | nil => rfl
  | cons hr _ ih => rw [hr.same trivial, ih]

omit [Zero F] [DecidableEq F] in
theorem forall₂_shape {tracked : Prop} {rs rs' : List (Except TreeError (Reply F))}
    (h : List.Forall₂ (SameReply tracked) rs rs') :
    rs'.map (Except.map Reply.withoutDrained) = rs.map (Except.map Reply.withoutDrained) := by
  induction h with
  | nil => rfl
  | cons hr _ ih => rw [List.map_cons, hr.shape, ih, List.map_cons]

theorem fromSnapshot_restores (g : Geometry depth shardHeight)
    (h : WellFormed poseidon depth shardHeight t) (hb : Bounded depth t) :
    ∃ t', fromSnapshot poseidon t.snapshot = some (.ok t') ∧ Restores poseidon t t' := by
  obtain ⟨t', hok, hwf, hclean, hroots, hlive, hnotes⟩ := fromSnapshot_snapshot poseidon g h hb
  have hdrained : Alike True t.drainDirtyOwnedNotes.2 t' := by
    refine ⟨hroots, hlive, hnotes, fun _ => ?_⟩
    rw [hclean]
    exact AList.Same.refl ∅
  have halike : Alike False t t' := ⟨hroots, hlive, hnotes, False.elim⟩
  refine ⟨t', hok, hclean, hnotes, halike.answers poseidon h hwf, fun ops => ?_, fun ops => ?_⟩
  · obtain ⟨rs, rs', u, u', hrs, hrs', hall, hu, hu', ha⟩ :=
      calls_alike poseidon g ops (h.drain poseidon) hwf hdrained
    obtain rfl := forall₂_same hall
    exact ⟨_, u, u', hrs, hrs', ha.answers poseidon hu hu'⟩
  · obtain ⟨rs, rs', u, u', hrs, hrs', hall, hu, hu', ha⟩ :=
      calls_alike poseidon g ops h hwf halike
    exact ⟨rs, rs', u, u', hrs, hrs', ha.answers poseidon hu hu', forall₂_shape hall⟩

/-- Reachable trees survive their snapshots, and any accepted snapshot is a tree that stays
as healthy as a reachable one under every sequence of calls. -/
theorem restore_exact_and_safe :
    (∀ depth shardHeight t, Reachable poseidon depth shardHeight t →
      Healthy poseidon depth shardHeight t ∧
      ∃ t', fromSnapshot poseidon t.snapshot = some (.ok t') ∧ Restores poseidon t t') ∧
    ∀ snapshot t, fromSnapshot poseidon snapshot = some (.ok t) → ∀ ops, ∃ rs u,
      t.calls poseidon ops = some (rs, u) ∧
        Healthy poseidon snapshot.depth snapshot.shardHeight u := by
  constructor
  · intro depth shardHeight t h
    obtain ⟨g, hwf⟩ := h.wellFormed poseidon
    exact ⟨h.healthy poseidon, fromSnapshot_restores poseidon g hwf (h.bounded poseidon)⟩
  · intro snapshot t h ops
    obtain ⟨depth, shardHeight, roots, live, records⟩ := snapshot
    obtain ⟨rs, u, hcalls, hu⟩ := (Reachable.restored h).calls poseidon ops
    exact ⟨rs, u, hcalls, hu.healthy poseidon⟩

/-- A mark frozen by the roll-over, an adopted path and a marked live leaf survive. -/
theorem restore_exact_and_safe_example : ∃ t t' : ShardedNotesTree Nat,
    run (fun a b => 2 * a + 3 * b + 1) [] (build (fun a b => 2 * a + 3 * b + 1) 2 1 [] [] ∅ ∅ ∅)
      [.markOwned 5 1, .append 4, .append 5, .append 6, .adoptFrozenWitness 4 0 [5], .markOwned 6 2] =
        some ([4, 5, 6], t) ∧
    t.completedRoots = [24] ∧ t.liveLeaves = [6] ∧ t.dirtyOwnedNotes.keys = [6, 4, 5] ∧
    fromSnapshot (fun a b => 2 * a + 3 * b + 1) t.snapshot = some (.ok t') ∧
    t'.dirtyOwnedNotes = ∅ ∧ t'.root = t.root ∧
    t'.ownedNotes.lookup 5 = some ⟨5, 1, some [4]⟩ ∧
    t'.ownedNotes.lookup 4 = some ⟨4, 0, some [5]⟩ ∧ t'.ownedNotes.lookup 6 = some ⟨6, 2, none⟩ ∧
    Healthy (fun a b => 2 * a + 3 * b + 1) 2 1 t' := by
  obtain ⟨hexact, hsafe⟩ := restore_exact_and_safe (fun a b : Nat => 2 * a + 3 * b + 1)
  obtain ⟨t, hrun, hgeometry, hroots, hlive, hdirty, hfive, hfour, hsix⟩ : ∃ t : ShardedNotesTree Nat,
      run (fun a b => 2 * a + 3 * b + 1) [] (build (fun a b => 2 * a + 3 * b + 1) 2 1 [] [] ∅ ∅ ∅)
        [.markOwned 5 1, .append 4, .append 5, .append 6, .adoptFrozenWitness 4 0 [5],
          .markOwned 6 2] = some ([4, 5, 6], t) ∧
      (t.depth = 2 ∧ t.shardHeight = 1) ∧ t.completedRoots = [24] ∧ t.liveLeaves = [6] ∧
      t.dirtyOwnedNotes.keys = [6, 4, 5] ∧
      t.ownedNotes.lookup 5 = some ⟨5, 1, some [4]⟩ ∧
      t.ownedNotes.lookup 4 = some ⟨4, 0, some [5]⟩ ∧ t.ownedNotes.lookup 6 = some ⟨6, 2, none⟩ :=
    ⟨_, rfl, ⟨rfl, rfl⟩, rfl, rfl, rfl, rfl, rfl, rfl⟩
  have hnew := Reachable.new (new_eq (fun a b : Nat => 2 * a + 3 * b + 1)
    (⟨by decide, by decide, by decide⟩ : Geometry 2 1))
  obtain ⟨_, t', hok, hrestores⟩ := hexact 2 1 t (hnew.run _ hrun)
  obtain ⟨_, _, hcalls, hhealthy⟩ := hsafe t.snapshot t' hok []
  obtain ⟨-, rfl⟩ := Prod.mk.inj (Option.some.inj hcalls)
  refine ⟨t, t', hrun, hroots, hlive, hdirty, hok, hrestores.clean, hrestores.answers.root,
    (hrestores.owned 5).trans hfive, (hrestores.owned 4).trans hfour, (hrestores.owned 6).trans hsix, ?_⟩
  rwa [snapshot, hgeometry.1, hgeometry.2] at hhealthy

end Exact

end Curvy.ShardedNotesTree
