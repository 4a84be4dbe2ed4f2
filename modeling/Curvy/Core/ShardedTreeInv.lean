import Curvy.Core.ShardedTreeShape

/-!
# The invariant of the sharded tree

Well-formed trees are built trees whose maps are `Owned`. `Extends` is what an accepted
append does to one, also in terms of the leaf log and of where frozen paths come from.
-/

namespace Curvy.ShardedNotesTree

set_option autoImplicit false

open PerfectTree List Outcome

variable {F : Type} [Zero F] [DecidableEq F] (poseidon : F → F → F)

/-- The owned maps against completed roots and live leaves. -/
structure Owned (shardHeight : Nat) (roots live : List F) (notes : OwnedNotes F)
    (leaves : OwnedLeaves F) : Prop where
  key : ∀ id w, notes.lookup id = some w → w.noteId = id
  mirror : ∀ id i, leaves.lookup i = some id ↔ ∃ w, notes.lookup id = some w ∧ w.leafIndex = i
  frozen : ∀ id w, notes.lookup id = some w →
    (w.withinShardSiblings.isSome ↔ w.leafIndex / 2 ^ shardHeight < roots.length)
  opens : ∀ id w s, notes.lookup id = some w → w.withinShardSiblings = some s →
    s.length = shardHeight ∧ roots[w.leafIndex / 2 ^ shardHeight]? =
      some (climb poseidon id (w.leafIndex % 2 ^ shardHeight) s)
  position : ∀ id w, notes.lookup id = some w → w.leafIndex / 2 ^ shardHeight = roots.length →
    w.leafIndex % 2 ^ shardHeight < live.length →
    live[w.leafIndex % 2 ^ shardHeight]? = some id

inductive WellFormed (depth shardHeight : Nat) : ShardedNotesTree F → Prop where
  | mk (roots live : List F) (notes : OwnedNotes F) (leaves : OwnedLeaves F)
      (dirty : DirtyNotes F) (room : live.length < 2 ^ shardHeight)
      (fits : roots.length * 2 ^ shardHeight + live.length ≤ 2 ^ depth)
      (owned : Owned poseidon shardHeight roots live notes leaves) :
      WellFormed depth shardHeight (build poseidon depth shardHeight roots live notes leaves dirty)

/-- `log` is the list of all leaves under completed roots and live leaves. -/
structure Logged (shardHeight : Nat) (log roots live : List F) : Prop where
  length : log.length = roots.length * 2 ^ shardHeight + live.length
  nodes : roots = tabulate roots.length (node poseidon 0 log shardHeight)
  suffix : live = log.drop (roots.length * 2 ^ shardHeight)

/-- Every frozen path is the log's own path or was adopted. -/
def Provenance (shardHeight : Nat) (adopted : F → Nat → List F → Prop) (log : List F)
    (notes : OwnedNotes F) : Prop :=
  ∀ id w s, notes.lookup id = some w → w.withinShardSiblings = some s →
    (log[w.leafIndex]? = some id ∧ s = path poseidon 0 log shardHeight w.leafIndex) ∨
      adopted id w.leafIndex s

/-- Records that differ are dirty, dirt stays, and no dirt is left without its record. -/
structure Dirtied (t t' : ShardedNotesTree F) : Prop where
  tracked : (∀ id, id ∈ t.dirtyOwnedNotes → id ∈ t.ownedNotes) →
    ∀ id, id ∈ t'.dirtyOwnedNotes → id ∈ t'.ownedNotes
  keeps : ∀ id, id ∈ t.dirtyOwnedNotes → id ∈ t'.dirtyOwnedNotes
  marks : ∀ id, t'.ownedNotes.lookup id ≠ t.ownedNotes.lookup id → id ∈ t'.dirtyOwnedNotes

omit [Zero F] in
theorem Dirtied.trans {t t' t'' : ShardedNotesTree F} (h : Dirtied t t') (h' : Dirtied t' t'') :
    Dirtied t t'' where
  tracked := fun htracked => h'.tracked (h.tracked htracked)
  keeps := fun id hid => h'.keeps id (h.keeps id hid)
  marks := by
    intro id hdiff
    by_cases hsame : t''.ownedNotes.lookup id = t'.ownedNotes.lookup id
    · rw [hsame] at hdiff
      exact h'.keeps id (h.marks id hdiff)
    · exact h'.marks id hsame

/-- The effect of appending `seg`. -/
structure Extends (depth shardHeight : Nat) (t : ShardedNotesTree F) (seg : List F)
    (t' : ShardedNotesTree F) : Prop where
  wellFormed : WellFormed poseidon depth shardHeight t'
  leaves : t'.ownedLeaves = t.ownedLeaves
  count : t'.leafCount = t.leafCount + seg.length
  log : ∀ log, Logged poseidon shardHeight log t.completedRoots t.liveLeaves →
    Logged poseidon shardHeight (log ++ seg) t'.completedRoots t'.liveLeaves
  provenance : ∀ adopted log, Logged poseidon shardHeight log t.completedRoots t.liveLeaves →
    Provenance poseidon shardHeight adopted log t.ownedNotes →
    Provenance poseidon shardHeight adopted (log ++ seg) t'.ownedNotes
  dirtied : Dirtied t t'

theorem Extends.trans {depth shardHeight : Nat} {t t' t'' : ShardedNotesTree F} {seg seg' : List F}
    (h : Extends poseidon depth shardHeight t seg t')
    (h' : Extends poseidon depth shardHeight t' seg' t'') :
    Extends poseidon depth shardHeight t (seg ++ seg') t'' where
  wellFormed := h'.wellFormed
  leaves := h'.leaves.trans h.leaves
  count := by rw [h'.count, h.count, List.length_append, Nat.add_assoc]
  log := by
    intro log hlog
    rw [← List.append_assoc]
    exact h'.log _ (h.log log hlog)
  provenance := by
    intro adopted log hlog hprov
    rw [← List.append_assoc]
    exact h'.provenance adopted _ (h.log log hlog) (h.provenance adopted log hlog hprov)
  dirtied := h.dirtied.trans h'.dirtied

/-! ### Appending a segment that fits the live shard -/

section Pour
variable {depth shardHeight : Nat} {roots live : List F} {notes : OwnedNotes F}
  {leaves : OwnedLeaves F} {dirty : DirtyNotes F}

theorem shards_le {n k : Nat} (g : Geometry depth shardHeight)
    (h : n * 2 ^ shardHeight + k ≤ 2 ^ depth) :
    n ≤ 2 ^ (depth - shardHeight) ∧ (0 < k → n < 2 ^ (depth - shardHeight)) := by
  have hpow : 2 ^ depth = 2 ^ (depth - shardHeight) * 2 ^ shardHeight := by
    rw [← pow_add, Nat.sub_add_cancel g.lt.le]
  have hpos := Nat.two_pow_pos shardHeight
  constructor
  · exact Nat.le_of_mul_le_mul_right (by omega : n * 2 ^ shardHeight ≤ _ * 2 ^ shardHeight) hpos
  · intro hk
    exact Nat.lt_of_mul_lt_mul_right (a := 2 ^ shardHeight) (by omega)

omit [DecidableEq F] in
theorem capRoots_length_le (g : Geometry depth shardHeight)
    (fits : roots.length * 2 ^ shardHeight + live.length ≤ 2 ^ depth) :
    (capRoots poseidon shardHeight roots live).length ≤ 2 ^ (depth - shardHeight) := by
  obtain ⟨hle, hlt⟩ := shards_le g fits
  by_cases hne : live = []
  · rw [hne, capRoots_nil]
    exact hle
  · rw [capRoots_of_ne_nil poseidon hne, List.length_append, List.length_singleton]
    exact hlt (List.length_pos_iff.mpr hne)

/-- The owned positions the segment covers expect exactly its notes. -/
def Expects (leaves : OwnedLeaves F) (first : Nat) (seg : List F) : Prop :=
  ∀ j id, leaves.lookup (first + j) = some id → j < seg.length → seg[j]? = some id

omit [Zero F] [DecidableEq F] in
theorem expects_append {first : Nat} {seg rest : List F} :
    Expects leaves first (seg ++ rest) ↔
      Expects leaves first seg ∧ Expects leaves (first + seg.length) rest := by
  constructor
  · intro h
    constructor
    · intro j id hid hj
      have hleaf := h j id hid (by rw [List.length_append]; omega)
      rwa [List.getElem?_append_left hj] at hleaf
    · intro j id hid hj
      rw [Nat.add_assoc] at hid
      have hleaf := h _ id hid (by rw [List.length_append]; omega)
      rwa [List.getElem?_append_right (by omega), Nat.add_sub_cancel_left] at hleaf
  · intro ⟨hseg, hrest⟩ j id hid hj
    rw [List.length_append] at hj
    by_cases hlt : j < seg.length
    · rw [List.getElem?_append_left hlt]
      exact hseg j id hid hlt
    · rw [List.getElem?_append_right (by omega)]
      apply hrest _ id _ (by omega)
      rwa [show first + seg.length + (j - seg.length) = first + j by omega]

omit [Zero F] in
theorem Owned.pour {poseidon : F → F → F} {seg : List F}
    (owned : Owned poseidon shardHeight roots live notes leaves)
    (hexpects : Expects leaves (roots.length * 2 ^ shardHeight + live.length) seg) :
    Owned poseidon shardHeight roots (live ++ seg) notes leaves where
  key := owned.key
  mirror := owned.mirror
  frozen := owned.frozen
  opens := owned.opens
  position := by
    intro id w hw hshard hlt
    by_cases hold : w.leafIndex % 2 ^ shardHeight < live.length
    · rw [List.getElem?_append_left hold]
      exact owned.position id w hw hshard hold
    · have hsplit := Nat.div_add_mod w.leafIndex (2 ^ shardHeight)
      rw [hshard, Nat.mul_comm] at hsplit
      rw [List.length_append] at hlt
      rw [List.getElem?_append_right (Nat.not_lt.mp hold)]
      refine hexpects _ id ((owned.mirror id _).mpr ⟨w, hw, ?_⟩) (by omega)
      omega

/-- The owned maps after the live shard completed. -/
theorem Owned.complete {poseidon : F → F → F} {notes' : OwnedNotes F} {dirty' : DirtyNotes F}
    (owned : Owned poseidon shardHeight roots live notes leaves)
    (hlive : live.length = 2 ^ shardHeight)
    (hfrozen : Frozen poseidon shardHeight roots.length live notes.keys notes notes' dirty dirty') :
    Owned poseidon shardHeight (roots ++ [node poseidon 0 live shardHeight 0]) [] notes' leaves := by
  have hlookup : ∀ id, notes'.lookup id =
      (notes.lookup id).map (freeze poseidon shardHeight roots.length live) := by
    intro id
    rw [hfrozen.lookup]
    split
    · rfl
    · rename_i hid
      rw [← AList.mem_keys, ← AList.lookup_eq_none] at hid
      simp [hid]
  have hfrom : ∀ {id w}, notes'.lookup id = some w →
      ∃ v, notes.lookup id = some v ∧ freeze poseidon shardHeight roots.length live v = w := by
    intro id w hw
    rw [hlookup] at hw
    exact Option.map_eq_some_iff.mp hw
  refine ⟨?_, ?_, ?_, ?_, ?_⟩
  · intro id w hw
    obtain ⟨v, hv, rfl⟩ := hfrom hw
    rw [freeze_noteId, owned.key id v hv]
  · intro id i
    rw [owned.mirror]
    constructor
    · rintro ⟨w, hw, rfl⟩
      exact ⟨_, (hlookup id).trans (congrArg _ hw), freeze_leafIndex poseidon _ _⟩
    · rintro ⟨w, hw, rfl⟩
      obtain ⟨v, hv, rfl⟩ := hfrom hw
      exact ⟨v, hv, (freeze_leafIndex poseidon _ _).symm⟩
  · intro id w hw
    obtain ⟨v, hv, rfl⟩ := hfrom hw
    rw [freeze_leafIndex, List.length_append, List.length_singleton]
    have hold := owned.frozen id v hv
    unfold freeze
    split
    · rename_i hcond
      simp [hcond.1]
    · rename_i hcond
      rw [hold]
      constructor
      · intro h
        omega
      · intro h
        by_contra hge
        have hshard : v.leafIndex / 2 ^ shardHeight = roots.length := by omega
        refine hcond ⟨hshard, ?_⟩
        rw [← Option.not_isSome_iff_eq_none, hold]
        exact hge
  · intro id w s hw hs
    obtain ⟨v, hv, rfl⟩ := hfrom hw
    rw [freeze_leafIndex]
    unfold freeze at hs
    split at hs
    · rename_i hcond
      obtain rfl := Option.some.inj hs
      refine ⟨path_length _ _ _ _ _, ?_⟩
      have hmod := Nat.mod_lt v.leafIndex (Nat.two_pow_pos shardHeight)
      have hid := owned.position id v hv hcond.1 (by omega)
      have hleaf : live.getD (v.leafIndex % 2 ^ shardHeight) 0 = id := by
        rw [List.getD_eq_getElem?_getD, hid, Option.getD_some]
      rw [hcond.1, List.getElem?_append_right le_rfl, Nat.sub_self, ← hleaf, climb_path,
        Nat.div_eq_of_lt hmod]
      rfl
    · obtain ⟨hlen, hroot⟩ := owned.opens id v s hv hs
      refine ⟨hlen, ?_⟩
      rw [List.getElem?_append_left (List.getElem?_eq_some_iff.mp hroot).1]
      exact hroot
  · intro id w _ _ hlt
    simp at hlt

omit [DecidableEq F] in
theorem Logged.shard_lt {log : List F} {s : Nat}
    (hlog : Logged poseidon shardHeight log roots live) (hs : s < roots.length) :
    (s + 1) * 2 ^ shardHeight ≤ log.length := by
  have := Nat.mul_le_mul_right (2 ^ shardHeight) (show s + 1 ≤ roots.length from hs)
  have := hlog.length
  omega

omit [DecidableEq F] in
theorem Logged.pour {log seg : List F} (hlog : Logged poseidon shardHeight log roots live) :
    Logged poseidon shardHeight (log ++ seg) roots (live ++ seg) where
  length := by
    have := hlog.length
    simp only [List.length_append]
    omega
  nodes := by
    conv_lhs => rw [hlog.nodes]
    apply tabulate_congr
    intro s hs
    have hle := hlog.shard_lt poseidon hs
    rw [node_append_of_lt]
    exact (Nat.le_div_iff_mul_le (Nat.two_pow_pos shardHeight)).mpr hle
  suffix := by
    have := hlog.length
    rw [List.drop_append_of_le_length (by omega), ← hlog.suffix]

omit [DecidableEq F] in
/-- The live leaves of a shard are a slice of the log. -/
theorem Logged.slice_eq {log : List F} (hlog : Logged poseidon shardHeight log roots live)
    (hlive : live.length ≤ 2 ^ shardHeight) : slice log shardHeight roots.length = live := by
  rw [slice, ← hlog.suffix, List.take_of_length_le hlive]

omit [DecidableEq F] in
theorem Logged.complete {log : List F} (hlog : Logged poseidon shardHeight log roots live)
    (hlive : live.length = 2 ^ shardHeight) :
    Logged poseidon shardHeight log (roots ++ [node poseidon 0 live shardHeight 0]) [] where
  length := by
    have := hlog.length
    simp only [List.length_append, List.length_singleton, List.length_nil, Nat.succ_mul]
    omega
  nodes := by
    rw [List.length_append, List.length_singleton, tabulate_succ, ← hlog.nodes,
      ← node_slice_root poseidon 0 log, hlog.slice_eq poseidon hlive.le]
  suffix := by
    have := hlog.length
    rw [List.length_append, List.length_singleton, List.drop_eq_nil_of_le]
    rw [Nat.succ_mul]
    omega

omit [DecidableEq F] in
/-- Inside a slice, positions and paths are those of the whole list. -/
theorem path_in_shard (log : List F) (i : Nat) :
    path poseidon 0 (slice log shardHeight (i / 2 ^ shardHeight)) shardHeight (i % 2 ^ shardHeight) =
      path poseidon 0 log shardHeight i := by
  rw [path_slice poseidon 0 log (Nat.mod_lt i (Nat.two_pow_pos shardHeight)), Nat.div_add_mod']

theorem Provenance.pour {poseidon : F → F → F} {adopted : F → Nat → List F → Prop}
    {log seg : List F} (owned : Owned poseidon shardHeight roots live notes leaves)
    (hlog : Logged poseidon shardHeight log roots live)
    (hprov : Provenance poseidon shardHeight adopted log notes) :
    Provenance poseidon shardHeight adopted (log ++ seg) notes := by
  intro id w s hw hs
  rcases hprov id w s hw hs with ⟨hleaf, rfl⟩ | hadopted
  · have hshard := (owned.frozen id w hw).mp (by simp [hs])
    refine Or.inl ⟨?_, ?_⟩
    · rw [List.getElem?_append_left (List.getElem?_eq_some_iff.mp hleaf).1, hleaf]
    · rw [← path_in_shard, ← path_in_shard poseidon (log ++ seg),
        slice_append _ (hlog.shard_lt poseidon hshard)]
  · exact Or.inr hadopted

theorem Provenance.complete {poseidon : F → F → F} {adopted : F → Nat → List F → Prop}
    {log : List F} {notes' : OwnedNotes F} {dirty' : DirtyNotes F}
    (owned : Owned poseidon shardHeight roots live notes leaves)
    (hlog : Logged poseidon shardHeight log roots live) (hlive : live.length = 2 ^ shardHeight)
    (hfrozen : Frozen poseidon shardHeight roots.length live notes.keys notes notes' dirty dirty')
    (hprov : Provenance poseidon shardHeight adopted log notes) :
    Provenance poseidon shardHeight adopted log notes' := by
  intro id w s hw hs
  rw [hfrozen.lookup] at hw
  split at hw
  · obtain ⟨v, hv, rfl⟩ := Option.map_eq_some_iff.mp hw
    unfold freeze at hs
    split at hs
    · rename_i hcond
      obtain rfl := Option.some.inj hs
      have hmod := Nat.mod_lt v.leafIndex (Nat.two_pow_pos shardHeight)
      have hid := owned.position id v hv hcond.1 (by omega)
      rw [freeze_leafIndex]
      refine Or.inl ⟨?_, ?_⟩
      · rw [hlog.suffix, List.getElem?_drop, ← hcond.1, Nat.div_add_mod'] at hid
        exact hid
      · rw [← path_in_shard poseidon log, hcond.1, hlog.slice_eq poseidon hlive.le]
    · rw [freeze_leafIndex]
      exact hprov id v s hv hs
  · exact hprov id w s hw hs

/-- What becomes of a tree whose live shard has just grown to `live`. -/
inductive Poured (shardHeight : Nat) (roots live : List F) (notes : OwnedNotes F)
    (dirty : DirtyNotes F) : List F → List F → OwnedNotes F → DirtyNotes F → Prop where
  | grown (room : live.length < 2 ^ shardHeight) :
    Poured shardHeight roots live notes dirty roots live notes dirty
  | completed (full : live.length = 2 ^ shardHeight) {notes' : OwnedNotes F} {dirty' : DirtyNotes F}
    (frozen : Frozen poseidon shardHeight roots.length live notes.keys notes notes' dirty dirty') :
    Poured shardHeight roots live notes dirty (roots ++ [node poseidon 0 live shardHeight 0]) []
      notes' dirty'

variable (dirty) in
/-- The tail of an append: the live root goes to the cap and a full shard rolls over. -/
theorem pour_build (g : Geometry depth shardHeight) {seg : List F} (hne : seg ≠ [])
    (hroom : live.length + seg.length ≤ 2 ^ shardHeight)
    (hfits : roots.length * 2 ^ shardHeight + live.length + seg.length ≤ 2 ^ depth)
    (owned : Owned poseidon shardHeight roots live notes leaves)
    (hexpects : Expects leaves (roots.length * 2 ^ shardHeight + live.length) seg) :
    ∃ roots' live' notes' dirty', andThen (syncLiveRoot poseidon
        { build poseidon depth shardHeight roots live notes leaves dirty with
          live := Imt.canon poseidon shardHeight 0 (live ++ seg), liveLeaves := live ++ seg })
        (fun _ t => if t.liveLeaves.length = t.shardSize then rollOver poseidon t
          else some (.ok (), t)) =
        some (.ok (), build poseidon depth shardHeight roots' live' notes' leaves dirty') ∧
      Poured poseidon shardHeight roots (live ++ seg) notes dirty roots' live' notes' dirty' := by
  have hne' : live ++ seg ≠ [] := by simp [hne]
  have hlen : (live ++ seg).length = live.length + seg.length := List.length_append
  have hshard := (shards_le g (k := live.length + seg.length) (by rw [← Nat.add_assoc]; exact hfits)).2
    (by rw [← hlen]; exact List.length_pos_iff.mpr hne')
  rw [syncLiveRoot_eq poseidon g hne' (by omega) hshard, andThen_ok]
  by_cases hfull : (live ++ seg).length = 2 ^ shardHeight
  · have hplaced : Placed shardHeight roots (live ++ seg) notes := by
      intro id w hw hat _
      rw [owned.key id w hw]
      exact (owned.pour hexpects).position id w hw hat (by
        rw [hfull]
        exact Nat.mod_lt _ (Nat.two_pow_pos shardHeight))
    obtain ⟨notes', dirty', hroll, hfrozen⟩ := rollOver_eq poseidon leaves dirty g hfull owned.key hplaced
    exact ⟨_, _, _, _, (if_pos hfull).trans hroll, .completed hfull hfrozen⟩
  · exact ⟨_, _, _, _, if_neg hfull, .grown (by omega)⟩

theorem Poured.extends {poseidon : F → F → F} {seg roots' live' : List F} {notes' : OwnedNotes F}
    {dirty' : DirtyNotes F}
    (hfits : roots.length * 2 ^ shardHeight + live.length + seg.length ≤ 2 ^ depth)
    (owned : Owned poseidon shardHeight roots live notes leaves)
    (hexpects : Expects leaves (roots.length * 2 ^ shardHeight + live.length) seg)
    (h : Poured poseidon shardHeight roots (live ++ seg) notes dirty roots' live' notes' dirty') :
    Extends poseidon depth shardHeight (build poseidon depth shardHeight roots live notes leaves dirty)
      seg (build poseidon depth shardHeight roots' live' notes' leaves dirty') := by
  have hlen : (live ++ seg).length = live.length + seg.length := List.length_append
  have owned' := owned.pour hexpects
  cases h with
  | completed hfull hfrozen =>
    refine ⟨?_, rfl, ?_, ?_, ?_, ?_, hfrozen.keeps, hfrozen.marks⟩
    · refine .mk _ _ _ _ _ (Nat.two_pow_pos shardHeight) ?_ (owned'.complete hfull hfrozen)
      simp only [List.length_append, List.length_singleton, List.length_nil, Nat.succ_mul]
      omega
    · simp only [build_leafCount, List.length_append, List.length_singleton, List.length_nil,
        Nat.succ_mul]
      omega
    · intro log hlog
      exact (hlog.pour poseidon).complete poseidon hfull
    · intro adopted log hlog hprov
      exact Provenance.complete owned' (hlog.pour poseidon) hfull hfrozen
        (Provenance.pour owned hlog hprov)
    · intro htracked id hid
      have hmem : id ∈ notes := (hfrozen.only id hid).elim (htracked id) fun h => h
      change id ∈ notes'
      rw [← AList.lookup_isSome, hfrozen.lookup, if_pos (AList.mem_keys.mp hmem), Option.isSome_map]
      exact AList.lookup_isSome.mpr hmem
  | grown hroom' =>
    refine ⟨?_, rfl, ?_, ?_, ?_, fun h => h, fun _ h => h, fun _ h => absurd rfl h⟩
    · exact .mk _ _ _ _ _ hroom' (by omega) owned'
    · simp only [build_leafCount, hlen]
      omega
    · exact fun log hlog => hlog.pour poseidon
    · exact fun adopted log hlog hprov => Provenance.pour owned hlog hprov

variable (dirty) in
theorem pour_eq (g : Geometry depth shardHeight) {seg : List F} (hne : seg ≠ [])
    (hroom : live.length + seg.length ≤ 2 ^ shardHeight)
    (hfits : roots.length * 2 ^ shardHeight + live.length + seg.length ≤ 2 ^ depth)
    (owned : Owned poseidon shardHeight roots live notes leaves)
    (hexpects : Expects leaves (roots.length * 2 ^ shardHeight + live.length) seg) :
    ∃ t', andThen (syncLiveRoot poseidon
        { build poseidon depth shardHeight roots live notes leaves dirty with
          live := Imt.canon poseidon shardHeight 0 (live ++ seg), liveLeaves := live ++ seg })
        (fun _ t => if t.liveLeaves.length = t.shardSize then rollOver poseidon t
          else some (.ok (), t)) = some (.ok (), t') ∧
      Extends poseidon depth shardHeight
        (build poseidon depth shardHeight roots live notes leaves dirty) seg t' := by
  obtain ⟨roots', live', notes', dirty', hpour, hpoured⟩ :=
    pour_build poseidon dirty g hne hroom hfits owned hexpects
  exact ⟨_, hpour, hpoured.extends hfits owned hexpects⟩

end Pour
end Curvy.ShardedNotesTree
