import Curvy.Core.ShardedTreeRuns
import Mathlib.Data.Fintype.Pigeonhole
import Mathlib.Data.Fintype.Prod

/-!
# All-or-nothing calls on the sharded tree

Over every state reachable from a fresh tree or an accepted snapshot: an error changes
nothing, the errors inside a roll-over never surface, and the owned maps stay consistent
with each other and with the completed shards.
-/

namespace Curvy.ShardedNotesTree

set_option autoImplicit false

open PerfectTree List Outcome

variable {F : Type} [Zero F] [DecidableEq F] (poseidon : F → F → F)

inductive Reachable (depth shardHeight : Nat) : ShardedNotesTree F → Prop where
  | new {t : ShardedNotesTree F} (h : new poseidon depth shardHeight = some (.ok t)) :
    Reachable depth shardHeight t
  | restored {roots live : List F} {records : List (OwnedNoteWitness F)} {t : ShardedNotesTree F}
    (h : fromSnapshot poseidon ⟨depth, shardHeight, roots, live, records⟩ = some (.ok t)) :
    Reachable depth shardHeight t
  | step {t t' : ShardedNotesTree F} {op : Op F} {r : Except TreeError (Reply F)}
    (h : Reachable depth shardHeight t) (hstep : step poseidon t op = some (r, t')) :
    Reachable depth shardHeight t'

variable {depth shardHeight : Nat} {t : ShardedNotesTree F}

theorem Reachable.wellFormed (h : Reachable poseidon depth shardHeight t) :
    Geometry depth shardHeight ∧ WellFormed poseidon depth shardHeight t := by
  induction h with
  | new h =>
    obtain ⟨g, rfl⟩ := new_ok poseidon h
    exact ⟨g, new_wellFormed poseidon⟩
  | restored h =>
    obtain ⟨g, hwf, _⟩ := fromSnapshot_spec poseidon h
    exact ⟨g, hwf⟩
  | @step t t' op r _ hstep ih =>
    obtain ⟨g, hwf⟩ := ih
    obtain ⟨r', t'', hstep', hsteps⟩ := step_spec poseidon g hwf op
    rw [hstep] at hstep'
    obtain ⟨rfl, rfl⟩ := Prod.mk.inj (Option.some.inj hstep')
    exact ⟨g, hsteps.wellFormed⟩

/-- A run leads from a reachable tree to a reachable one. -/
theorem Reachable.run {ops : List (Op F)} {log log' : List F} {t' : ShardedNotesTree F}
    (h : Reachable poseidon depth shardHeight t)
    (hrun : ShardedNotesTree.run poseidon log t ops = some (log', t')) :
    Reachable poseidon depth shardHeight t' := by
  induction ops generalizing log t with
  | nil =>
    cases hrun
    exact h
  | cons op ops ih =>
    rw [ShardedNotesTree.run, List.foldlM_cons] at hrun
    obtain ⟨next, hnext, hrest⟩ := Option.bind_eq_some_iff.mp hrun
    obtain ⟨⟨r, t₁⟩, hstep, heq⟩ := Option.bind_eq_some_iff.mp hnext
    cases heq
    exact ih (h.step hstep) hrest

/-- What holds of the owned maps of every reachable tree. `position` speaks of the live
shard and `opens` of completed ones, whose leaves are known only through their roots. -/
structure Consistent (shardHeight : Nat) (t : ShardedNotesTree F) : Prop where
  mirror : ∀ id i, t.ownedLeaves.lookup i = some id ↔
    ∃ w, t.ownedNotes.lookup id = some w ∧ w.leafIndex = i
  frozen : ∀ id w, t.ownedNotes.lookup id = some w →
    (w.withinShardSiblings.isSome ↔ w.leafIndex / 2 ^ shardHeight < t.completedRoots.length)
  position : ∀ id w, t.ownedNotes.lookup id = some w →
    t.completedRoots.length * 2 ^ shardHeight ≤ w.leafIndex → w.leafIndex < t.leafCount →
    t.live.leaf (w.leafIndex % 2 ^ shardHeight) = some id
  opens : ∀ id w s, t.ownedNotes.lookup id = some w → w.withinShardSiblings = some s →
    s.length = shardHeight ∧ t.completedRoots[w.leafIndex / 2 ^ shardHeight]? =
      some (climb poseidon id (w.leafIndex % 2 ^ shardHeight) s)
  leaf : ∀ log, Logged poseidon shardHeight log t.completedRoots t.liveLeaves →
    ∀ id w, t.ownedNotes.lookup id = some w → w.leafIndex < t.leafCount →
      log[w.leafIndex]? = some id ∨ ∃ s, w.withinShardSiblings = some s ∧
        Collision poseidon (w.leafIndex % 2 ^ shardHeight) id s (log.getD w.leafIndex 0)
          (path poseidon 0 log shardHeight w.leafIndex)

theorem WellFormed.consistent (h : WellFormed poseidon depth shardHeight t) :
    Consistent poseidon shardHeight t := by
  obtain ⟨roots, live, notes, leaves, dirty, room, fits, owned⟩ := h
  have hlive : ∀ {i}, roots.length * 2 ^ shardHeight ≤ i →
      i < roots.length * 2 ^ shardHeight + live.length →
      i / 2 ^ shardHeight = roots.length ∧ i % 2 ^ shardHeight < live.length := by
    intro i hlo hhi
    have hdiv : i / 2 ^ shardHeight = roots.length := by
      rw [Nat.div_eq_iff (Nat.two_pow_pos shardHeight)]
      omega
    have hsplit := Nat.div_add_mod i (2 ^ shardHeight)
    rw [hdiv, Nat.mul_comm] at hsplit
    exact ⟨hdiv, by omega⟩
  have hposition : ∀ id w, notes.lookup id = some w → roots.length * 2 ^ shardHeight ≤ w.leafIndex →
      w.leafIndex < roots.length * 2 ^ shardHeight + live.length →
      live[w.leafIndex % 2 ^ shardHeight]? = some id := by
    intro id w hw hlo hhi
    obtain ⟨hshard, hlt⟩ := hlive hlo hhi
    exact owned.position id w hw hshard hlt
  refine ⟨owned.mirror, owned.frozen, ?_, owned.opens, ?_⟩
  · intro id w hw hlo hhi
    simp only [build, Imt.leaf, Imt.canon_leaves]
    exact hposition id w hw hlo hhi
  · intro log hlog id w hw hhi
    change Logged poseidon shardHeight log roots live at hlog
    by_cases hlo : roots.length * 2 ^ shardHeight ≤ w.leafIndex
    · have hleaf := hposition id w hw hlo hhi
      rw [hlog.suffix, List.getElem?_drop, ← (hlive hlo hhi).1, Nat.div_add_mod'] at hleaf
      exact Or.inl hleaf
    · have hshard : w.leafIndex / 2 ^ shardHeight < roots.length :=
        (Nat.div_lt_iff_lt_mul (Nat.two_pow_pos shardHeight)).mpr (Nat.not_le.mp hlo)
      obtain ⟨s, hs⟩ := Option.isSome_iff_exists.mp ((owned.frozen id w hw).mpr hshard)
      rcases frozen_binding poseidon owned hlog hw hs with ⟨hleaf, _⟩ | hcol
      · have hindex := lt_of_shard poseidon hlog (Or.inl hshard)
        refine Or.inl ?_
        rw [← hleaf, List.getD_eq_getElem?_getD, List.getElem?_eq_getElem hindex, Option.getD_some]
      · exact Or.inr ⟨s, hs, hcol⟩

theorem WellFormed.returns (g : Geometry depth shardHeight)
    (h : WellFormed poseidon depth shardHeight t) (op : Op F) :
    ∃ r t', step poseidon t op = some (r, t') ∧ ∀ e, r = .error e → t' = t := by
  obtain ⟨r, t', hstep, hsteps⟩ := step_spec poseidon g h op
  exact ⟨r, t', hstep, hsteps.unchanged⟩

theorem WellFormed.append_error (g : Geometry depth shardHeight)
    (h : WellFormed poseidon depth shardHeight t) {noteId : F} {e : TreeError}
    {t' : ShardedNotesTree F} (herr : t.append poseidon noteId = some (.error e, t')) :
    t.ensureRoom 1 = .error e ∨ t.validateIncomingOwnedNote t.leafCount noteId = .error e := by
  rcases append_spec poseidon g h noteId with ⟨e', heq, hcheck⟩ | ⟨t'', heq, _⟩
  · rw [heq] at herr
    obtain ⟨he, _⟩ := Prod.mk.inj (Option.some.inj herr)
    rwa [Except.error.inj he] at hcheck
  · rw [heq] at herr
    cases herr

theorem WellFormed.appendMany_error (g : Geometry depth shardHeight)
    (h : WellFormed poseidon depth shardHeight t) {noteIds : List F} {e : TreeError}
    {t' : ShardedNotesTree F} (herr : t.appendMany poseidon noteIds = some (.error e, t')) :
    t.ensureRoom noteIds.length = .error e ∨ t.validateBatch t.leafCount noteIds = .error e := by
  rcases appendMany_spec poseidon g h noteIds with ⟨e', heq, hcheck⟩ | ⟨t'', heq, _⟩
  · rw [heq] at herr
    obtain ⟨he, _⟩ := Prod.mk.inj (Option.some.inj herr)
    rwa [Except.error.inj he] at hcheck
  · rw [heq] at herr
    cases herr

/-- In every reachable state each call returns, an error leaves the whole state as it was,
the appends fail only on their opening checks, and the owned maps are consistent. -/
theorem reachable_atomic (h : Reachable poseidon depth shardHeight t) :
    (∀ op, ∃ r t', step poseidon t op = some (r, t') ∧ ∀ e, r = .error e → t' = t) ∧
    (∀ noteId e t', t.append poseidon noteId = some (.error e, t') →
      t.ensureRoom 1 = .error e ∨ t.validateIncomingOwnedNote t.leafCount noteId = .error e) ∧
    (∀ noteIds e t', t.appendMany poseidon noteIds = some (.error e, t') →
      t.ensureRoom noteIds.length = .error e ∨ t.validateBatch t.leafCount noteIds = .error e) ∧
    Consistent poseidon shardHeight t := by
  obtain ⟨g, hwf⟩ := h.wellFormed poseidon
  refine ⟨hwf.returns poseidon g, ?_, ?_, hwf.consistent poseidon⟩
  · intro noteId e t' herr
    exact hwf.append_error poseidon g herr
  · intro noteIds e t' herr
    exact hwf.appendMany_error poseidon g herr

/-- A mark is frozen by the roll-over, a path of the completed shard is adopted and a live leaf
is marked. The batch that no longer fits changes nothing. -/
theorem reachable_atomic_example : ∃ t : ShardedNotesTree Nat,
    run (fun a b => 2 * a + 3 * b + 1) [] (build (fun a b => 2 * a + 3 * b + 1) 2 1 [] [] ∅ ∅ ∅)
      [.markOwned 5 1, .append 4, .append 5, .append 6, .adoptFrozenWitness 4 0 [5], .markOwned 6 2] =
        some ([4, 5, 6], t) ∧
    t.completedRoots = [24] ∧ t.ownedNotes.lookup 5 = some ⟨5, 1, some [4]⟩ ∧
    t.ownedNotes.lookup 4 = some ⟨4, 0, some [5]⟩ ∧ t.ownedNotes.lookup 6 = some ⟨6, 2, none⟩ ∧
    step (fun a b => 2 * a + 3 * b + 1) t (.appendMany [7, 8]) = some (.error (.treeFull 2), t) ∧
    Consistent (fun a b => 2 * a + 3 * b + 1) 1 t := by
  obtain ⟨t, hrun, hroots, hfive, hfour, hsix, hroom⟩ : ∃ t : ShardedNotesTree Nat,
      run (fun a b => 2 * a + 3 * b + 1) [] (build (fun a b => 2 * a + 3 * b + 1) 2 1 [] [] ∅ ∅ ∅)
        [.markOwned 5 1, .append 4, .append 5, .append 6, .adoptFrozenWitness 4 0 [5], .markOwned 6 2] =
          some ([4, 5, 6], t) ∧
      t.completedRoots = [24] ∧ t.ownedNotes.lookup 5 = some ⟨5, 1, some [4]⟩ ∧
      t.ownedNotes.lookup 4 = some ⟨4, 0, some [5]⟩ ∧ t.ownedNotes.lookup 6 = some ⟨6, 2, none⟩ ∧
      t.ensureRoom 2 = .error (.treeFull 2) :=
    ⟨_, rfl, rfl, rfl, rfl, rfl, rfl⟩
  have hrefused : (step (fun a b => 2 * a + 3 * b + 1) t (.appendMany [7, 8])).map Prod.fst =
      some (.error (.treeFull 2)) := by
    simp [step, appendMany, hroom, Except.map]
  have hnew := Reachable.new (new_eq (fun a b : Nat => 2 * a + 3 * b + 1)
    (⟨by decide, by decide, by decide⟩ : Geometry 2 1))
  obtain ⟨hcalls, _, _, hconsistent⟩ := reachable_atomic _ (hnew.run _ hrun)
  obtain ⟨r, t', hstep, hunchanged⟩ := hcalls (.appendMany [7, 8])
  rw [hstep] at hrefused
  obtain rfl := Option.some.inj hrefused
  rw [hunchanged _ rfl] at hstep
  exact ⟨t, hrun, hroots, hfive, hfour, hsix, hstep, hconsistent⟩

/-! ### A record off its leaf -/

section Collide
variable {a b : F}

/-- Two appends complete the first shard of a tree with shards of two. -/
theorem two_appends (a b : F) : run poseidon [] (build poseidon 2 1 [] [] ∅ ∅ ∅)
    [.append a, .append b] = some ([a, b], build poseidon 2 1 [poseidon a b] [] ∅ ∅ ∅) := by
  have hfirst : append poseidon (build poseidon 2 1 [] [] ∅ ∅ ∅) a =
      some (.ok (), build poseidon 2 1 [] [a] ∅ ∅ ∅) := by with_unfolding_all rfl
  have hsecond : append poseidon (build poseidon 2 1 [] [a] ∅ ∅ ∅) b =
      some (.ok (), build poseidon 2 1 [poseidon a b] [] ∅ ∅ ∅) := by with_unfolding_all rfl
  simp [run, step, hfirst, hsecond, Op.log, Except.map]

/-- Adopting a path that hashes to the completed root needs no relation to its leaf. -/
theorem adopt_after {leafIndex : Nat} (id s : F) (hindex : leafIndex < 2)
    (hhash : climb poseidon id leafIndex [s] = poseidon a b) :
    ∃ t, run poseidon [] (build poseidon 2 1 [] [] ∅ ∅ ∅)
        [.append a, .append b, .adoptFrozenWitness id leafIndex [s]] = some ([a, b], t) ∧
      t.ownedNotes.lookup id = some ⟨id, leafIndex, some [s]⟩ ∧ t.leafCount = 2 := by
  obtain ⟨t, hrun, hcount, hheight, hsize, hroots, hnotes, hleaves⟩ : ∃ t,
      run poseidon [] (build poseidon 2 1 [] [] ∅ ∅ ∅) [.append a, .append b] = some ([a, b], t) ∧
        t.leafCount = 2 ∧ t.shardHeight = 1 ∧ t.shardSize = 2 ∧
        t.completedRoots = [poseidon a b] ∧ t.ownedNotes = ∅ ∧ t.ownedLeaves = ∅ :=
    ⟨_, two_appends poseidon a b, rfl, rfl, rfl, rfl, rfl, rfl⟩
  have hshard : leafIndex >>> 1 = 0 := by omega
  have hmod : leafIndex &&& (2 - 1) = leafIndex := by
    rw [Nat.and_one_is_mod]
    omega
  have hverify : verifyFrozenPath poseidon t id leafIndex [s] = .ok () := by
    simp [verifyFrozenPath, hheight, hsize, hroots, hshard, climbFrozen_eq, hmod, hhash]
  have hadopt : t.adoptFrozenWitness poseidon id leafIndex [s] = some (.ok (), { t with
      ownedLeaves := t.ownedLeaves.insert leafIndex id
      ownedNotes := t.ownedNotes.insert id ⟨id, leafIndex, some [s]⟩
      dirtyOwnedNotes := t.dirtyOwnedNotes.insert id () }) := by
    simp [adoptFrozenWitness, hverify, hheight, hroots, hshard, hnotes, hleaves]
  refine ⟨{ t with
    ownedLeaves := t.ownedLeaves.insert leafIndex id
    ownedNotes := t.ownedNotes.insert id ⟨id, leafIndex, some [s]⟩
    dirtyOwnedNotes := t.dirtyOwnedNotes.insert id () }, ?_, AList.lookup_insert _, hcount⟩
  rw [show [Op.append a, .append b, .adoptFrozenWitness id leafIndex [s]] =
    [.append a, .append b] ++ [.adoptFrozenWitness id leafIndex [s]] from rfl, run,
    List.foldlM_append]
  rw [run] at hrun
  rw [hrun]
  simp [step, hadopt, Op.log]

end Collide

/-- Every owned index below the leaf count is the position of its leaf, in every run. -/
def OwnedOnLeaves (poseidon : F → F → F) : Prop :=
  ∀ depth shardHeight t₀ ops log t id w, new poseidon depth shardHeight = some (.ok t₀) →
    run poseidon [] t₀ ops = some (log, t) → t.ownedNotes.lookup id = some w →
    w.leafIndex < t.leafCount → log[w.leafIndex]? = some id

/-- No hash over a finite field prevents an adoption from putting a note off its leaf. -/
theorem adopted_note_off_its_leaf :
    ¬ ∃ (F : Type) (_ : Zero F) (_ : DecidableEq F) (_ : Fintype F) (_ : Nontrivial F)
      (poseidon : F → F → F), OwnedOnLeaves poseidon := by
  rintro ⟨F, _, _, _, _, poseidon, honLeaves⟩
  have hcard : Fintype.card F < Fintype.card (F × F) := by
    rw [Fintype.card_prod]
    exact Nat.lt_mul_self_iff.mpr Fintype.one_lt_card
  obtain ⟨⟨a, b⟩, ⟨c, d⟩, hne, hhash⟩ :=
    Fintype.exists_ne_map_eq_of_card_lt (fun p : F × F => poseidon p.1 p.2) hcard
  have hnew := new_eq poseidon (⟨by decide, by decide, by decide⟩ : Geometry 2 1)
  by_cases hac : a = c
  · have hbd : b ≠ d := fun h => hne (Prod.ext hac h)
    obtain ⟨t, hrun, hnote, hcount⟩ := adopt_after poseidon (a := a) (b := b) d c
      (show 1 < 2 by decide) hhash.symm
    have := honLeaves 2 1 _ _ _ t d _ hnew hrun hnote (by simp [hcount])
    exact hbd (by simpa using this)
  · obtain ⟨t, hrun, hnote, hcount⟩ := adopt_after poseidon (a := a) (b := b) c d
      (show 0 < 2 by decide) hhash.symm
    have := honLeaves 2 1 _ _ _ t c _ hnew hrun hnote (by simp [hcount])
    exact hac (by simpa using this)

end Curvy.ShardedNotesTree
