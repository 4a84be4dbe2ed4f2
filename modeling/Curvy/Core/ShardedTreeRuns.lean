import Curvy.Core.ShardedTreeOps

/-!
# Runs of the sharded tree

The abstract tree is the log of appended and not rewound leaves. Runs keep the invariant,
the root is the flat tree's root, and witnesses are the flat tree's proofs up to adopted
paths that collide with the log's own.
-/

namespace Curvy.ShardedNotesTree

set_option autoImplicit false

open PerfectTree List Outcome

inductive Op (F : Type) where
  | append (noteId : F)
  | appendMany (noteIds : List F)
  | markOwned (noteId : F) (leafIndex : Nat)
  | unmarkOwned (noteId : F)
  | adoptFrozenWitness (noteId : F) (leafIndex : Nat) (withinShardSiblings : List F)
  | rewindLiveTo (leafCount : Nat)
  | drainDirtyOwnedNotes

inductive Reply (F : Type) where
  | done
  | unmarked (found : Bool)
  | removed (noteIds : List F)
  | drained (records : List (OwnedNoteWitness F))

/-- What a call makes of the leaf log, by its result. -/
def Op.log {F : Type} (log : List F) : Op F → Except TreeError (Reply F) → List F
  | .append noteId, .ok _ => log ++ [noteId]
  | .appendMany noteIds, .ok _ => log ++ noteIds
  | .rewindLiveTo leafCount, .ok _ => log.take leafCount
  | _, _ => log

variable {F : Type} [Zero F] [DecidableEq F] (poseidon : F → F → F)

def step (t : ShardedNotesTree F) :
    Op F → Option (Except TreeError (Reply F) × ShardedNotesTree F)
  | .append noteId => (t.append poseidon noteId).map fun (r, t) => (r.map fun _ => .done, t)
  | .appendMany noteIds => (t.appendMany poseidon noteIds).map fun (r, t) => (r.map fun _ => .done, t)
  | .markOwned noteId leafIndex =>
    (t.markOwned noteId leafIndex).map fun (r, t) => (r.map fun _ => .done, t)
  | .unmarkOwned noteId =>
    let (found, t) := t.unmarkOwned noteId
    some (.ok (.unmarked found), t)
  | .adoptFrozenWitness noteId leafIndex siblings =>
    (t.adoptFrozenWitness poseidon noteId leafIndex siblings).map fun (r, t) =>
      (r.map fun _ => .done, t)
  | .rewindLiveTo leafCount =>
    (t.rewindLiveTo poseidon leafCount).map fun (r, t) => (r.map .removed, t)
  | .drainDirtyOwnedNotes =>
    let (records, t) := t.drainDirtyOwnedNotes
    some (.ok (.drained records), t)

/-- A run from `t` over the log so far. -/
def run (log : List F) (t : ShardedNotesTree F) (ops : List (Op F)) :
    Option (List F × ShardedNotesTree F) :=
  ops.foldlM (fun s op => do
    let (r, t) ← step poseidon s.2 op
    some (op.log s.1 r, t)) (log, t)

section Steps
variable {depth shardHeight : Nat} {t t' : ShardedNotesTree F}

/-- What one call does, for every log of the tree it is made on. -/
structure Steps (depth shardHeight : Nat) (t : ShardedNotesTree F) (op : Op F)
    (r : Except TreeError (Reply F)) (t' : ShardedNotesTree F) : Prop where
  wellFormed : WellFormed poseidon depth shardHeight t'
  unchanged : ∀ e, r = .error e → t' = t
  log : ∀ log, Logged poseidon shardHeight log t.completedRoots t.liveLeaves →
    Logged poseidon shardHeight (op.log log r) t'.completedRoots t'.liveLeaves
  provenance : ∀ (adopted : F → Nat → List F → Prop) log,
    (∀ id i s, op = .adoptFrozenWitness id i s → adopted id i s) →
    Logged poseidon shardHeight log t.completedRoots t.liveLeaves →
    Provenance poseidon shardHeight adopted log t.ownedNotes →
    Provenance poseidon shardHeight adopted (op.log log r) t'.ownedNotes

theorem Op.log_error {F : Type} (log : List F) (op : Op F) (e : TreeError) :
    op.log log (.error e) = log := by cases op <;> rfl

theorem steps_error (h : WellFormed poseidon depth shardHeight t) (op : Op F) (e : TreeError) :
    Steps poseidon depth shardHeight t op (.error e) t where
  wellFormed := h
  unchanged := fun _ _ => rfl
  log := fun log hlog => by rwa [op.log_error]
  provenance := fun adopted log _ _ hprov => by rwa [op.log_error]

theorem steps_extends {op : Op F} {seg : List F} {reply : Reply F}
    (hext : Extends poseidon depth shardHeight t seg t')
    (hop : ∀ log, op.log log (.ok reply) = log ++ seg) :
    Steps poseidon depth shardHeight t op (.ok reply) t' where
  wellFormed := hext.wellFormed
  unchanged := fun _ h => by cases h
  log := fun log hlog => by
    rw [hop]
    exact hext.log log hlog
  provenance := fun adopted log _ hlog hprov => by
    rw [hop]
    exact hext.provenance adopted log hlog hprov

theorem steps_records {op : Op F} {w : OwnedNoteWitness F} {reply : Reply F}
    (hrec : Records poseidon depth shardHeight t w t') (hop : ∀ log, op.log log (.ok reply) = log)
    (hw : ∀ s, w.withinShardSiblings = some s → op = .adoptFrozenWitness w.noteId w.leafIndex s) :
    Steps poseidon depth shardHeight t op (.ok reply) t' where
  wellFormed := hrec.wellFormed
  unchanged := fun _ h => by cases h
  log := fun log hlog => by
    rw [hop, hrec.roots, hrec.live]
    exact hlog
  provenance := by
    intro adopted log hadopted _ hprov id v s hv hs
    rw [hop]
    rw [hrec.notes] at hv
    by_cases hid : id = w.noteId
    · subst hid
      rw [AList.lookup_insert] at hv
      obtain rfl := Option.some.inj hv
      exact Or.inr (hadopted _ _ _ (hw s hs))
    · rw [AList.lookup_insert_ne hid] at hv
      exact hprov id v s hv hs

/-- A call that neither touches the leaves nor adds records. -/
theorem steps_quiet {op : Op F} {reply : Reply F} (h : WellFormed poseidon depth shardHeight t')
    (hop : ∀ log, op.log log (.ok reply) = log) (hroots : t'.completedRoots = t.completedRoots)
    (hlive : t'.liveLeaves = t.liveLeaves)
    (hnotes : ∀ id w, t'.ownedNotes.lookup id = some w → t.ownedNotes.lookup id = some w) :
    Steps poseidon depth shardHeight t op (.ok reply) t' where
  wellFormed := h
  unchanged := fun _ h => by cases h
  log := fun log hlog => by
    rw [hop, hroots, hlive]
    exact hlog
  provenance := by
    intro adopted log _ _ hprov
    rw [hop]
    exact fun id w s hw hs => hprov id w s (hnotes id w hw) hs

theorem Forgets.lookup {ids : List F} (hforget : Forgets poseidon depth shardHeight t ids t')
    {id : F} {w : OwnedNoteWitness F} (hw : t'.ownedNotes.lookup id = some w) :
    t.ownedNotes.lookup id = some w := by
  rw [hforget.notes] at hw
  split at hw
  · cases hw
  · exact hw

theorem WellFormed.drain (h : WellFormed poseidon depth shardHeight t) :
    WellFormed poseidon depth shardHeight t.drainDirtyOwnedNotes.2 := by
  obtain ⟨roots, live, notes, leaves, dirty, room, fits, owned⟩ := h
  exact .mk roots live notes leaves ∅ room fits owned

/-- Every call on a well-formed tree returns. -/
theorem step_spec (g : Geometry depth shardHeight) (h : WellFormed poseidon depth shardHeight t)
    (op : Op F) :
    ∃ r t', step poseidon t op = some (r, t') ∧ Steps poseidon depth shardHeight t op r t' := by
  cases op with
  | append noteId =>
    rcases append_spec poseidon g h noteId with ⟨e, heq, _⟩ | ⟨t', heq, hext⟩
    · exact ⟨_, _, congrArg (Option.map _) heq, steps_error poseidon h _ e⟩
    · exact ⟨_, _, congrArg (Option.map _) heq, steps_extends poseidon hext fun _ => rfl⟩
  | appendMany noteIds =>
    rcases appendMany_spec poseidon g h noteIds with ⟨e, heq, _⟩ | ⟨t', heq, hext⟩
    · exact ⟨_, _, congrArg (Option.map _) heq, steps_error poseidon h _ e⟩
    · exact ⟨_, _, congrArg (Option.map _) heq, steps_extends poseidon hext fun _ => rfl⟩
  | markOwned noteId leafIndex =>
    rcases markOwned_spec poseidon h noteId leafIndex with ⟨e, heq⟩ | heq | ⟨t', heq, hrec⟩
    · exact ⟨_, _, congrArg (Option.map _) heq, steps_error poseidon h _ e⟩
    · exact ⟨_, _, congrArg (Option.map _) heq,
        steps_quiet poseidon h (fun _ => rfl) rfl rfl fun _ _ hw => hw⟩
    · exact ⟨_, _, congrArg (Option.map _) heq,
        steps_records poseidon hrec (fun _ => rfl) fun _ hs => (by cases hs)⟩
  | unmarkOwned noteId =>
    obtain ⟨hforget, hroots, hlive⟩ := unmarkOwned_spec poseidon h noteId
    exact ⟨_, _, rfl, steps_quiet poseidon hforget.wellFormed (fun _ => rfl) hroots hlive
      fun _ _ hw => hforget.lookup poseidon hw⟩
  | adoptFrozenWitness noteId leafIndex siblings =>
    rcases adoptFrozenWitness_spec poseidon h noteId leafIndex siblings with
      ⟨e, heq⟩ | ⟨t', heq, hrec⟩
    · exact ⟨_, _, congrArg (Option.map _) heq, steps_error poseidon h _ e⟩
    · refine ⟨_, _, congrArg (Option.map _) heq, steps_records poseidon hrec (fun _ => rfl) ?_⟩
      intro s hs
      rw [Option.some.inj hs]
  | rewindLiveTo leafCount =>
    rcases rewindLiveTo_spec poseidon g h leafCount with
      ⟨e, heq⟩ | ⟨t', heq, hforget, _, hlog, hprov⟩
    · exact ⟨_, _, congrArg (Option.map _) heq, steps_error poseidon h _ e⟩
    · exact ⟨_, _, congrArg (Option.map _) heq, hforget.wellFormed, fun _ h => (by cases h), hlog,
        fun adopted log _ => hprov adopted log⟩
  | drainDirtyOwnedNotes =>
    exact ⟨_, _, rfl, steps_quiet poseidon (h.drain poseidon) (fun _ => rfl) rfl rfl
      fun _ _ hw => hw⟩

omit [DecidableEq F] in
theorem logged_empty : Logged poseidon shardHeight [] [] [] :=
  ⟨by simp, rfl, List.drop_nil.symm⟩

theorem run_spec (g : Geometry depth shardHeight) (adopted : F → Nat → List F → Prop)
    (ops : List (Op F)) (log : List F) (h : WellFormed poseidon depth shardHeight t)
    (hlog : Logged poseidon shardHeight log t.completedRoots t.liveLeaves)
    (hadopted : ∀ id i s, .adoptFrozenWitness id i s ∈ ops → adopted id i s)
    (hprov : Provenance poseidon shardHeight adopted log t.ownedNotes) :
    ∃ log' t', run poseidon log t ops = some (log', t') ∧ WellFormed poseidon depth shardHeight t' ∧
      Logged poseidon shardHeight log' t'.completedRoots t'.liveLeaves ∧
      Provenance poseidon shardHeight adopted log' t'.ownedNotes := by
  induction ops generalizing t log with
  | nil => exact ⟨log, t, rfl, h, hlog, hprov⟩
  | cons op ops ih =>
    obtain ⟨r, t₁, hstep, hsteps⟩ := step_spec poseidon g h op
    have hprov₁ := hsteps.provenance adopted log
      (fun id i s hop => hadopted id i s (hop ▸ List.mem_cons_self ..)) hlog hprov
    obtain ⟨log', t', hrun, hres⟩ := ih _ hsteps.wellFormed (hsteps.log log hlog)
      (fun id i s hmem => hadopted id i s (List.mem_cons_of_mem _ hmem)) hprov₁
    refine ⟨log', t', ?_, hres⟩
    rw [run, List.foldlM_cons, hstep]
    exact hrun

end Steps

/-! ### Against the flat tree -/

section Flat
variable {depth shardHeight : Nat} {roots live log : List F} {notes : OwnedNotes F}
  {leaves : OwnedLeaves F}

omit [DecidableEq F] in
/-- The cap's leaves are the row of the flat tree at the cut. -/
theorem Logged.row_eq (hlog : Logged poseidon shardHeight log roots live)
    (room : live.length < 2 ^ shardHeight) :
    row poseidon 0 log shardHeight = capRoots poseidon shardHeight roots live := by
  have hlen := hlog.length
  have hwidth : (capRoots poseidon shardHeight roots live).length =
      width log.length shardHeight := by
    apply eq_width
    intro i
    have hpos := Nat.two_pow_pos shardHeight
    unfold capRoots
    split
    · rename_i hlive
      rw [hlen, hlive, List.length_nil, Nat.add_zero]
      exact (Nat.mul_lt_mul_right hpos).symm
    · rename_i hlive
      have hlive := List.length_pos_iff.mpr hlive
      rw [List.length_append, List.length_singleton, hlen]
      constructor
      · intro hi
        have := Nat.mul_le_mul_right (2 ^ shardHeight) (show i ≤ roots.length by omega)
        omega
      · intro hi
        by_contra hge
        have := Nat.mul_le_mul_right (2 ^ shardHeight) (show roots.length + 1 ≤ i by omega)
        rw [Nat.succ_mul] at this
        omega
  have hroots : tabulate roots.length (node poseidon 0 log shardHeight) = roots := hlog.nodes.symm
  rw [show row poseidon 0 log shardHeight = tabulate (width log.length shardHeight)
    (node poseidon 0 log shardHeight) from rfl, ← hwidth]
  unfold capRoots
  split
  · exact hroots
  · rw [List.length_append, List.length_singleton, tabulate_succ, hroots,
      ← node_slice_root poseidon 0 log, hlog.slice_eq poseidon room.le]

omit [DecidableEq F] in
theorem Logged.root_eq (g : Geometry depth shardHeight)
    (hlog : Logged poseidon shardHeight log roots live) (room : live.length < 2 ^ shardHeight) :
    node poseidon (empty poseidon 0 shardHeight) (capRoots poseidon shardHeight roots live)
      (depth - shardHeight) 0 = node poseidon 0 log depth 0 := by
  rw [← hlog.row_eq poseidon room, ← node_add, Nat.add_sub_cancel' g.lt.le]

omit [DecidableEq F] in
theorem Logged.path_eq (g : Geometry depth shardHeight)
    (hlog : Logged poseidon shardHeight log roots live) (room : live.length < 2 ^ shardHeight)
    (i : Nat) :
    path poseidon 0 log shardHeight i ++ path poseidon (empty poseidon 0 shardHeight)
      (capRoots poseidon shardHeight roots live) (depth - shardHeight) (i / 2 ^ shardHeight) =
    path poseidon 0 log depth i := by
  rw [← hlog.row_eq poseidon room, ← path_add, Nat.add_sub_cancel' g.lt.le]

omit [DecidableEq F] in
/-- The log's own path inside a shard climbs to the shard's root. -/
theorem climb_in_shard (log : List F) (i : Nat) :
    climb poseidon (log.getD i 0) (i % 2 ^ shardHeight) (path poseidon 0 log shardHeight i) =
      node poseidon 0 log shardHeight (i / 2 ^ shardHeight) := by
  have hmod := Nat.mod_lt i (Nat.two_pow_pos shardHeight)
  have hleaf : (slice log shardHeight (i / 2 ^ shardHeight)).getD (i % 2 ^ shardHeight) 0 =
      log.getD i 0 := by
    rw [slice, getD_take _ _ _ _ hmod, getD_drop, Nat.div_add_mod']
  rw [← path_in_shard, ← hleaf, climb_path, Nat.div_eq_of_lt hmod, node_slice_root]

/-- A frozen path and the log's own path of the same index open one shard root. -/
theorem frozen_binding (owned : Owned poseidon shardHeight roots live notes leaves)
    (hlog : Logged poseidon shardHeight log roots live) {id : F} {w : OwnedNoteWitness F}
    {s : List F} (hw : notes.lookup id = some w) (hs : w.withinShardSiblings = some s) :
    (log.getD w.leafIndex 0 = id ∧ s = path poseidon 0 log shardHeight w.leafIndex) ∨
      Collision poseidon (w.leafIndex % 2 ^ shardHeight) id s (log.getD w.leafIndex 0)
        (path poseidon 0 log shardHeight w.leafIndex) := by
  obtain ⟨hlen, hroot⟩ := owned.opens id w s hw hs
  have hshard := (owned.frozen id w hw).mp (by simp [hs])
  rw [hlog.nodes, tabulate_getElem? _ hshard, ← climb_in_shard] at hroot
  rcases climb_binding poseidon _ _ _ _ _ (by rw [hlen, path_length]) (Option.some.inj hroot).symm
    with ⟨hleaf, hpath⟩ | hcol
  · exact Or.inl ⟨hleaf.symm, hpath⟩
  · exact Or.inr hcol

omit [DecidableEq F] in
/-- The position of a completed or live leaf is inside the log. -/
theorem lt_of_shard {i : Nat} (hlog : Logged poseidon shardHeight log roots live)
    (hi : i / 2 ^ shardHeight < roots.length ∨
      (i / 2 ^ shardHeight = roots.length ∧ i % 2 ^ shardHeight < live.length)) :
    i < log.length := by
  have hsplit := Nat.div_add_mod i (2 ^ shardHeight)
  have hmod := Nat.mod_lt i (Nat.two_pow_pos shardHeight)
  have hlen := hlog.length
  rw [Nat.mul_comm] at hsplit
  rcases hi with hlt | ⟨heq, hlt⟩
  · have := Nat.mul_le_mul_right (2 ^ shardHeight) (show i / 2 ^ shardHeight + 1 ≤ _ from hlt)
    rw [Nat.succ_mul] at this
    omega
  · rw [heq] at hsplit
    omega

omit [DecidableEq F] in
theorem Logged.length_le (hlog : Logged poseidon shardHeight log roots live)
    (fits : roots.length * 2 ^ shardHeight + live.length ≤ 2 ^ depth) : log.length ≤ 2 ^ depth := by
  rw [hlog.length]
  exact fits

/-- A returned witness is the flat proof, or its frozen part was adopted and collides with
the flat proof below the cut. -/
theorem witness_flat (g : Geometry depth shardHeight) {dirty : DirtyNotes F}
    {adopted : F → Nat → List F → Prop}
    (fits : roots.length * 2 ^ shardHeight + live.length ≤ 2 ^ depth)
    (room : live.length < 2 ^ shardHeight)
    (owned : Owned poseidon shardHeight roots live notes leaves)
    (hlog : Logged poseidon shardHeight log roots live)
    (hprov : Provenance poseidon shardHeight adopted log notes) (noteId : F) :
    ∃ r, (build poseidon depth shardHeight roots live notes leaves dirty).witness noteId = some r ∧
      ∀ p, r = .ok p → ∃ w q, notes.lookup noteId = some w ∧
        (Imt.canon poseidon depth 0 log).createProof w.leafIndex = some q ∧
        (p = q ∨ ∃ s, adopted noteId w.leafIndex s ∧ w.withinShardSiblings = some s ∧
          p.leaf = noteId ∧ p.index = q.index ∧ p.siblings = s ++ q.siblings.drop shardHeight ∧
          p.root = q.root ∧ Collision poseidon (w.leafIndex % 2 ^ shardHeight) noteId s q.leaf
            (q.siblings.take shardHeight)) := by
  obtain ⟨r, hr, hok, _⟩ := witness_spec poseidon g dirty fits room owned noteId
  refine ⟨r, hr, ?_⟩
  intro p hp
  obtain ⟨w, s, hw, rfl, hcase⟩ := hok p hp
  have hindex : w.leafIndex < log.length := by
    apply lt_of_shard poseidon hlog
    rcases hcase with hs | ⟨hshard, hleaf, _⟩
    · exact Or.inl ((owned.frozen noteId w hw).mp (by simp [hs]))
    · exact Or.inr ⟨hshard, (List.getElem?_eq_some_iff.mp hleaf).1⟩
  refine ⟨w, _, hw, Imt.createProof_canon poseidon 0 (hlog.length_le poseidon fits) hindex, ?_⟩
  have hpath := hlog.path_eq poseidon g room w.leafIndex
  have hroot := hlog.root_eq poseidon g room
  have hexact : ∀ {id : F}, log[w.leafIndex]? = some id → log.getD w.leafIndex 0 = id := by
    intro id hid
    rw [List.getD_eq_getElem?_getD, hid, Option.getD_some]
  rcases hcase with hs | ⟨hshard, hleaf, rfl⟩
  · rcases hprov noteId w s hw hs with ⟨hleaf, rfl⟩ | hadopted
    · exact Or.inl (by rw [hexact hleaf, hpath, hroot])
    · rcases frozen_binding poseidon owned hlog hw hs with ⟨hleaf, rfl⟩ | hcol
      · exact Or.inl (by rw [hleaf, hpath, hroot])
      · have hlen : (path poseidon 0 log shardHeight w.leafIndex).length = shardHeight :=
          path_length _ _ _ _ _
        refine Or.inr ⟨s, hadopted, hs, rfl, rfl, ?_, hroot, ?_⟩
        · rw [← hpath, List.drop_left' hlen]
        · rw [← hpath, List.take_left' hlen]
          exact hcol
  · have hmod := (List.getElem?_eq_some_iff.mp hleaf).1
    have hlive : log[w.leafIndex]? = some noteId := by
      rw [hlog.suffix, List.getElem?_drop, ← hshard, Nat.div_add_mod'] at hleaf
      exact hleaf
    refine Or.inl ?_
    rw [hexact hlive, ← hpath, ← hroot, ← path_in_shard poseidon log, hshard,
      hlog.slice_eq poseidon room.le]

end Flat

/-- From an empty tree every run keeps the root of the flat tree over the log, never
panics in a witness, and answers with the flat proofs up to adopted collisions. -/
theorem run_refines_flat {depth shardHeight : Nat} {t₀ : ShardedNotesTree F}
    (hnew : new poseidon depth shardHeight = some (.ok t₀)) (ops : List (Op F)) :
    ∃ log t flat, run poseidon [] t₀ ops = some (log, t) ∧
      Imt.fromLeaves poseidon depth log = some flat ∧ t.root = flat.root ∧
      flat.root = some (node poseidon 0 log depth 0) ∧
      ∀ noteId, ∃ r, t.witness noteId = some r ∧ ∀ p, r = .ok p →
        ∃ w q, t.ownedNotes.lookup noteId = some w ∧ flat.createProof w.leafIndex = some q ∧
          (p = q ∨ ∃ s, .adoptFrozenWitness noteId w.leafIndex s ∈ ops ∧
            w.withinShardSiblings = some s ∧ p.leaf = noteId ∧ p.index = q.index ∧
            p.siblings = s ++ q.siblings.drop shardHeight ∧ p.root = q.root ∧
            Collision poseidon (w.leafIndex % 2 ^ shardHeight) noteId s q.leaf
              (q.siblings.take shardHeight)) := by
  obtain ⟨g, rfl⟩ := new_ok poseidon hnew
  obtain ⟨log, t, hrun, hwf, hlog, hprov⟩ := run_spec poseidon g
    (fun id i s => .adoptFrozenWitness id i s ∈ ops) ops [] (new_wellFormed poseidon)
    (logged_empty poseidon) (fun _ _ _ h => h) (fun id w s hw _ => by simp [build] at hw)
  obtain ⟨roots, live, notes, leaves, dirty, room, fits, owned⟩ := hwf
  change Logged poseidon shardHeight log roots live at hlog
  have hle := hlog.length_le poseidon fits
  have hflat := Imt.canon_root poseidon depth 0 log hle
  refine ⟨log, _, _, hrun, Imt.fromLeavesWithZero_eq poseidon g.fits 0 hle, ?_, hflat,
    witness_flat poseidon g fits room owned hlog hprov⟩
  rw [hflat, root_eq poseidon (capRoots_length_le poseidon g fits), hlog.root_eq poseidon g room]

theorem run_refines_flat_example : ∃ log t flat,
    run (fun a b : Nat => 2 * a + 3 * b + 1) []
      (build (fun a b => 2 * a + 3 * b + 1) 2 1 [] [] ∅ ∅ ∅)
      [.markOwned 5 1, .appendMany [4, 5, 6], .adoptFrozenWitness 4 0 [5], .append 9,
        .unmarkOwned 5, .rewindLiveTo 2, .drainDirtyOwnedNotes] = some (log, t) ∧
    Imt.fromLeaves (fun a b => 2 * a + 3 * b + 1) 2 log = some flat ∧ t.root = flat.root := by
  obtain ⟨log, t, flat, hrun, hflat, hroot, _⟩ := run_refines_flat
    (fun a b : Nat => 2 * a + 3 * b + 1)
    (new_eq _ (⟨by decide, by decide, by decide⟩ : Geometry 2 1))
    [.markOwned 5 1, .appendMany [4, 5, 6], .adoptFrozenWitness 4 0 [5], .append 9,
      .unmarkOwned 5, .rewindLiveTo 2, .drainDirtyOwnedNotes]
  exact ⟨log, t, flat, hrun, hflat, hroot⟩

/-- Under a hash with collisions an adopted path need not be the flat tree's. -/
theorem witness_differs_from_flat : ∃ t₀ t flat p q,
    new (fun _ _ : Nat => 0) 2 1 = some (.ok t₀) ∧
    run (fun _ _ => 0) [] t₀ [.append 1, .append 2, .adoptFrozenWitness 7 0 [9]] =
      some ([1, 2], t) ∧
    Imt.fromLeaves (fun _ _ => 0) 2 [1, 2] = some flat ∧
    t.witness 7 = some (.ok p) ∧ flat.createProof p.index = some q ∧ p ≠ q :=
  ⟨_, _, _, _, _, new_eq _ ⟨by decide, by decide, by decide⟩, rfl, rfl, rfl, rfl, by decide⟩

end Curvy.ShardedNotesTree
