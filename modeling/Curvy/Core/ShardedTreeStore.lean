import Curvy.Core.ShardedTreeAtomic

/-!
# Incremental persistence of owned notes

A store outside the tree takes the drained records and drops what an unmark or a rewind
removes. Away from the dirty set it agrees with the tree, so a drain makes them equal.
-/

namespace Curvy.ShardedNotesTree

set_option autoImplicit false

open PerfectTree List Outcome

/-- Stored records by note id. -/
abbrev Store (F : Type) := F → Option (OwnedNoteWitness F)

section Stores
variable {F : Type} [DecidableEq F]

def Store.of (records : List (OwnedNoteWitness F)) : Store F :=
  fun id => records.find? fun w => w.noteId = id

def Store.upsert (store : Store F) (records : List (OwnedNoteWitness F)) : Store F :=
  records.foldl (fun store w => Function.update store w.noteId (some w)) store

def Store.delete (store : Store F) (ids : List F) : Store F :=
  fun id => if id ∈ ids then none else store id

/-- What a call and its result do to the store. -/
def Store.persist (store : Store F) : Op F → Except TreeError (Reply F) → Store F
  | .unmarkOwned noteId, .ok (.unmarked true) => store.delete [noteId]
  | .rewindLiveTo _, .ok (.removed noteIds) => store.delete noteIds
  | .drainDirtyOwnedNotes, .ok (.drained records) => store.upsert records
  | _, _ => store

theorem Store.upsert_of_notMem {id : F} (store : Store F) (records : List (OwnedNoteWitness F))
    (h : ∀ w ∈ records, w.noteId ≠ id) : store.upsert records id = store id := by
  induction records generalizing store with
  | nil => rfl
  | cons w records ih =>
    rw [Store.upsert, List.foldl_cons]
    refine (ih _ fun v hv => h v (List.mem_cons_of_mem _ hv)).trans ?_
    exact Function.update_of_ne (h w (List.mem_cons_self ..)).symm _ _

theorem Store.upsert_of_mem {w : OwnedNoteWitness F} (store : Store F)
    (records : List (OwnedNoteWitness F)) (hw : w ∈ records)
    (hunique : ∀ v ∈ records, v.noteId = w.noteId → v = w) :
    store.upsert records w.noteId = some w := by
  induction records generalizing store with
  | nil => simp at hw
  | cons v records ih =>
    rw [Store.upsert, List.foldl_cons]
    by_cases hmem : w ∈ records
    · exact ih _ hmem fun u hu => hunique u (List.mem_cons_of_mem _ hu)
    · obtain rfl : w = v := by
        rcases List.mem_cons.mp hw with h | h
        · exact h
        · exact absurd h hmem
      refine (Store.upsert_of_notMem _ records ?_).trans (Function.update_self ..)
      intro u hu heq
      exact hmem (hunique u (List.mem_cons_of_mem _ hu) heq ▸ hu)

end Stores

variable {F : Type} [Zero F] [DecidableEq F] (poseidon : F → F → F)

/-- A run together with a store. -/
def runStore (store : Store F) (t : ShardedNotesTree F) (ops : List (Op F)) :
    Option (Store F × ShardedNotesTree F) :=
  ops.foldlM (fun s op => do
    let (r, t) ← step poseidon s.2 op
    some (s.1.persist op r, t)) (store, t)

/-- The store is right about every clean note, and dirt is about records. -/
structure Synced (store : Store F) (t : ShardedNotesTree F) : Prop where
  clean : ∀ id, id ∉ t.dirtyOwnedNotes → store id = t.ownedNotes.lookup id
  tracked : ∀ id, id ∈ t.dirtyOwnedNotes → id ∈ t.ownedNotes

variable {depth shardHeight : Nat} {t t' : ShardedNotesTree F} {store : Store F}

omit [Zero F] in
theorem mem_ownedNoteRecords {w : OwnedNoteWitness F}
    (hkey : ∀ id w, t.ownedNotes.lookup id = some w → w.noteId = id) :
    w ∈ t.ownedNoteRecords ↔ t.ownedNotes.lookup w.noteId = some w := by
  rw [ownedNoteRecords, byLeafIndex, List.mem_mergeSort, List.mem_map]
  constructor
  · rintro ⟨⟨id, v⟩, hmem, rfl⟩
    have hv : t.ownedNotes.lookup id = some v := AList.mem_lookup_iff.mpr hmem
    rw [hkey id v hv]
    exact hv
  · intro hw
    exact ⟨⟨w.noteId, w⟩, AList.mem_lookup_iff.mp hw, rfl⟩

omit [Zero F] in
theorem store_of_records
    (hkey : ∀ id w, t.ownedNotes.lookup id = some w → w.noteId = id) :
    Store.of t.ownedNoteRecords = t.ownedNotes.lookup := by
  funext id
  unfold Store.of
  cases hfind : t.ownedNoteRecords.find? fun w => w.noteId = id with
  | some w =>
    have hid : w.noteId = id := by simpa using List.find?_some hfind
    have hw := (mem_ownedNoteRecords hkey).mp (List.mem_of_find?_eq_some hfind)
    rw [← hid, hw]
  | none =>
    cases hlookup : t.ownedNotes.lookup id with
    | none => rfl
    | some w =>
      have hid := hkey id w hlookup
      have hmem := (mem_ownedNoteRecords hkey (w := w)).mpr (by rw [hid, hlookup])
      simpa [hid] using List.find?_eq_none.mp hfind w hmem

omit [Zero F] in
theorem Synced.of_dirtied (hsynced : Synced store t) (hdirtied : Dirtied t t') :
    Synced store t' where
  clean := by
    intro id hid
    rw [hsynced.clean id fun h => hid (hdirtied.keeps id h)]
    by_contra hdiff
    exact hid (hdirtied.marks id fun h => hdiff h.symm)
  tracked := hdirtied.tracked hsynced.tracked

theorem Synced.of_records {w : OwnedNoteWitness F} (hsynced : Synced store t)
    (hrec : Records poseidon depth shardHeight t w t') : Synced store t' where
  clean := by
    intro id hid
    rw [hrec.dirty, AList.mem_insert, not_or] at hid
    rw [hrec.notes, AList.lookup_insert_ne hid.1]
    exact hsynced.clean id hid.2
  tracked := by
    intro id hid
    rw [hrec.dirty, AList.mem_insert] at hid
    rw [hrec.notes, AList.mem_insert]
    exact hid.imp_right (hsynced.tracked id)

theorem Synced.of_forgets {ids : List F} (hsynced : Synced store t)
    (hforget : Forgets poseidon depth shardHeight t ids t') : Synced (store.delete ids) t' where
  clean := by
    intro id hid
    rw [hforget.notes, Store.delete]
    split
    · rfl
    · rename_i hmem
      exact hsynced.clean id fun h => hid ((hforget.dirty id).mpr ⟨h, hmem⟩)
  tracked := by
    intro id hid
    obtain ⟨hdirty, hmem⟩ := (hforget.dirty id).mp hid
    rw [← AList.lookup_isSome, hforget.notes, if_neg hmem, AList.lookup_isSome]
    exact hsynced.tracked id hdirty

omit [Zero F] in
/-- A drain hands over exactly the dirty records. -/
theorem Synced.drain (hsynced : Synced store t)
    (hkey : ∀ id w, t.ownedNotes.lookup id = some w → w.noteId = id) :
    store.upsert t.drainDirtyOwnedNotes.1 = t.ownedNotes.lookup := by
  have hmem : ∀ w, w ∈ t.drainDirtyOwnedNotes.1 ↔
      w.noteId ∈ t.dirtyOwnedNotes ∧ t.ownedNotes.lookup w.noteId = some w := by
    intro w
    rw [drainDirtyOwnedNotes, byLeafIndex, List.mem_mergeSort, List.mem_filterMap]
    constructor
    · rintro ⟨id, hid, hw⟩
      have hwid := hkey id w hw
      rw [hwid]
      exact ⟨AList.mem_keys.mpr hid, hw⟩
    · rintro ⟨hid, hw⟩
      exact ⟨w.noteId, AList.mem_keys.mp hid, hw⟩
  funext id
  by_cases hdirty : id ∈ t.dirtyOwnedNotes
  · obtain ⟨w, hw⟩ := Option.isSome_iff_exists.mp (AList.lookup_isSome.mpr (hsynced.tracked id hdirty))
    have hid := hkey id w hw
    rw [hw]
    subst hid
    refine Store.upsert_of_mem store _ ((hmem w).mpr ⟨hdirty, hw⟩) ?_
    intro v hv heq
    have hv := ((hmem v).mp hv).2
    rw [heq, hw] at hv
    exact (Option.some.inj hv).symm
  · rw [Store.upsert_of_notMem]
    · exact hsynced.clean id hdirty
    · rintro w hw rfl
      exact hdirty ((hmem w).mp hw).1

theorem Synced.unmark (hsynced : Synced store t) (h : WellFormed poseidon depth shardHeight t)
    (noteId : F) :
    Synced (store.persist (.unmarkOwned noteId) (.ok (.unmarked (t.unmarkOwned noteId).1)))
      (t.unmarkOwned noteId).2 := by
  have hdeleted := hsynced.of_forgets poseidon (unmarkOwned_spec poseidon h noteId).1
  cases hfound : (t.unmarkOwned noteId).1 with
  | true => exact hdeleted
  | false =>
    -- nothing is stored under a note that is not owned
    have hnone : t.ownedNotes.lookup noteId = none := by
      cases hw : t.ownedNotes.lookup noteId with
      | none => rfl
      | some w => simp [unmarkOwned, hw] at hfound
    have hclean : noteId ∉ t.dirtyOwnedNotes := fun hdirty =>
      AList.lookup_eq_none.mp hnone (hsynced.tracked noteId hdirty)
    have hsame : store.delete [noteId] = store := by
      funext id
      rw [Store.delete]
      split
      · rename_i hid
        obtain rfl := List.mem_singleton.mp hid
        rw [hsynced.clean id hclean, hnone]
      · rfl
    rwa [hsame] at hdeleted

theorem WellFormed.key (h : WellFormed poseidon depth shardHeight t) :
    ∀ id w, t.ownedNotes.lookup id = some w → w.noteId = id := by
  obtain ⟨roots, live, notes, leaves, dirty, room, fits, owned⟩ := h
  exact owned.key

/-- One call keeps the store in step, and a drain brings it up to date. -/
theorem step_synced (g : Geometry depth shardHeight) (h : WellFormed poseidon depth shardHeight t)
    (hsynced : Synced store t) {op : Op F} {r : Except TreeError (Reply F)}
    (hstep : step poseidon t op = some (r, t')) :
    Synced (store.persist op r) t' ∧
      (op = .drainDirtyOwnedNotes → store.persist op r = t'.ownedNotes.lookup) := by
  have hreturn : ∀ {r₀ t₀}, step poseidon t op = some (r₀, t₀) → r₀ = r ∧ t₀ = t' := by
    intro r₀ t₀ heq
    rw [hstep] at heq
    exact ⟨(Prod.mk.inj (Option.some.inj heq)).1.symm, (Prod.mk.inj (Option.some.inj heq)).2.symm⟩
  cases op with
  | append noteId =>
    refine ⟨?_, fun h => by cases h⟩
    rcases append_spec poseidon g h noteId with ⟨e, heq, _⟩ | ⟨t₁, heq, hext⟩
    · obtain ⟨rfl, rfl⟩ := hreturn (congrArg (Option.map _) heq)
      exact hsynced
    · obtain ⟨rfl, rfl⟩ := hreturn (congrArg (Option.map _) heq)
      exact hsynced.of_dirtied hext.dirtied
  | appendMany noteIds =>
    refine ⟨?_, fun h => by cases h⟩
    rcases appendMany_spec poseidon g h noteIds with ⟨e, heq, _⟩ | ⟨t₁, heq, hext⟩
    · obtain ⟨rfl, rfl⟩ := hreturn (congrArg (Option.map _) heq)
      exact hsynced
    · obtain ⟨rfl, rfl⟩ := hreturn (congrArg (Option.map _) heq)
      exact hsynced.of_dirtied hext.dirtied
  | markOwned noteId leafIndex =>
    refine ⟨?_, fun h => by cases h⟩
    rcases markOwned_spec poseidon h noteId leafIndex with ⟨e, heq⟩ | heq | ⟨t₁, heq, hrec⟩
    · obtain ⟨rfl, rfl⟩ := hreturn (congrArg (Option.map _) heq)
      exact hsynced
    · obtain ⟨rfl, rfl⟩ := hreturn (congrArg (Option.map _) heq)
      exact hsynced
    · obtain ⟨rfl, rfl⟩ := hreturn (congrArg (Option.map _) heq)
      exact hsynced.of_records poseidon hrec
  | unmarkOwned noteId =>
    refine ⟨?_, fun h => by cases h⟩
    obtain ⟨rfl, rfl⟩ := hreturn (show step poseidon t (.unmarkOwned noteId) =
      some (.ok (.unmarked (t.unmarkOwned noteId).1), (t.unmarkOwned noteId).2) from rfl)
    exact hsynced.unmark poseidon h noteId
  | adoptFrozenWitness noteId leafIndex siblings =>
    refine ⟨?_, fun h => by cases h⟩
    rcases adoptFrozenWitness_spec poseidon h noteId leafIndex siblings with
      ⟨e, heq⟩ | ⟨t₁, heq, hrec⟩
    · obtain ⟨rfl, rfl⟩ := hreturn (congrArg (Option.map _) heq)
      exact hsynced
    · obtain ⟨rfl, rfl⟩ := hreturn (congrArg (Option.map _) heq)
      exact hsynced.of_records poseidon hrec
  | rewindLiveTo leafCount =>
    refine ⟨?_, fun h => by cases h⟩
    rcases rewindLiveTo_spec poseidon g h leafCount with ⟨e, heq⟩ | ⟨t₁, heq, hforget, _⟩
    · obtain ⟨rfl, rfl⟩ := hreturn (congrArg (Option.map _) heq)
      exact hsynced
    · obtain ⟨rfl, rfl⟩ := hreturn (congrArg (Option.map _) heq)
      exact hsynced.of_forgets poseidon hforget
  | drainDirtyOwnedNotes =>
    obtain ⟨rfl, rfl⟩ := hreturn rfl
    have hdrain := hsynced.drain (h.key poseidon)
    refine ⟨⟨fun id _ => congrFun hdrain id, ?_⟩, fun _ => hdrain⟩
    intro id hid
    exact absurd hid (AList.notMem_empty id)

theorem runStore_synced (g : Geometry depth shardHeight) (ops : List (Op F))
    (h : WellFormed poseidon depth shardHeight t) (hsynced : Synced store t) :
    ∃ store' t', runStore poseidon store t ops = some (store', t') ∧
      WellFormed poseidon depth shardHeight t' ∧ Synced store' t' := by
  induction ops generalizing t store with
  | nil => exact ⟨store, t, rfl, h, hsynced⟩
  | cons op ops ih =>
    obtain ⟨r, t₁, hstep, hsteps⟩ := step_spec poseidon g h op
    obtain ⟨store', t', hrun, hres⟩ :=
      ih hsteps.wellFormed (step_synced poseidon g h hsynced hstep).1
    refine ⟨store', t', ?_, hres⟩
    rw [runStore, List.foldlM_cons, hstep]
    exact hrun

theorem Reachable.tracked (h : Reachable poseidon depth shardHeight t) :
    ∀ id, id ∈ t.dirtyOwnedNotes → id ∈ t.ownedNotes := by
  induction h with
  | new h =>
    obtain ⟨_, rfl⟩ := new_ok poseidon h
    intro id hid
    exact absurd hid (AList.notMem_empty id)
  | restored h =>
    obtain ⟨_, _, hdirty⟩ := fromSnapshot_spec poseidon h
    intro id hid
    rw [hdirty] at hid
    exact absurd hid (AList.notMem_empty id)
  | @step t t' op r h hstep ih =>
    obtain ⟨g, hwf⟩ := h.wellFormed poseidon
    have hsynced : Synced t.ownedNotes.lookup t := ⟨fun _ _ => rfl, ih⟩
    exact (step_synced poseidon g hwf hsynced hstep).1.tracked

/-- From any reachable tree, with a store equal to its records: after every run that ends
in a drain the store equals the tree's records again. -/
theorem store_equals_records_after_drain (h : Reachable poseidon depth shardHeight t)
    (ops : List (Op F)) :
    ∃ store t', runStore poseidon (Store.of t.ownedNoteRecords) t (ops ++ [.drainDirtyOwnedNotes]) =
        some (store, t') ∧ store = Store.of t'.ownedNoteRecords ∧
      ∀ w, w ∈ t'.ownedNoteRecords ↔ store w.noteId = some w := by
  obtain ⟨g, hwf⟩ := h.wellFormed poseidon
  have hstart : Synced (Store.of t.ownedNoteRecords) t :=
    ⟨fun id _ => congrFun (store_of_records (hwf.key poseidon)) id, h.tracked poseidon⟩
  obtain ⟨store, t₁, hrun, hwf₁, hsynced⟩ := runStore_synced poseidon g ops hwf hstart
  obtain ⟨r, t', hstep, hsteps⟩ := step_spec poseidon g hwf₁ .drainDirtyOwnedNotes
  have hdrain := (step_synced poseidon g hwf₁ hsynced hstep).2 rfl
  have hkey := hsteps.wellFormed.key poseidon
  refine ⟨_, t', ?_, hdrain.trans (store_of_records hkey).symm, ?_⟩
  · rw [runStore] at hrun
    rw [runStore, List.foldlM_append, hrun]
    simp only [List.foldlM_cons, List.foldlM_nil, Option.bind_eq_bind, Option.bind_some, hstep]
    rfl
  · intro w
    rw [mem_ownedNoteRecords hkey, hdrain]

theorem store_equals_records_after_drain_example : ∃ store t',
    runStore (fun a b : Nat => 2 * a + 3 * b + 1)
      (Store.of (build (fun a b : Nat => 2 * a + 3 * b + 1) 2 1 [] [] ∅ ∅ ∅).ownedNoteRecords)
      (build (fun a b => 2 * a + 3 * b + 1) 2 1 [] [] ∅ ∅ ∅)
      ([.markOwned 5 1, .appendMany [4, 5, 6], .markOwned 6 2, .rewindLiveTo 2] ++
        [.drainDirtyOwnedNotes]) = some (store, t') ∧ store = Store.of t'.ownedNoteRecords := by
  obtain ⟨store, t', hrun, heq, _⟩ := store_equals_records_after_drain
    (fun a b : Nat => 2 * a + 3 * b + 1) (.new (new_eq _ (⟨by decide, by decide, by decide⟩ : Geometry 2 1)))
    [.markOwned 5 1, .appendMany [4, 5, 6], .markOwned 6 2, .rewindLiveTo 2]
  exact ⟨store, t', hrun, heq⟩

end Curvy.ShardedNotesTree
