import Curvy.Core.NotesFrontierRuns

/-!
# The invariant of a notes frontier

A slot is present exactly at the set bits of the leaf count. Nothing is said about the
nodes in the slots, so a restored frontier qualifies like one built by appends. No
operation panics on such a frontier, and only a full tree refuses leaves.
-/

namespace Curvy.NotesFrontier

set_option autoImplicit false

open PerfectTree List

variable {F : Type} [Zero F] {poseidon : F → F → F} {f : NotesFrontier F}

structure WellFormed (poseidon : F → F → F) (f : NotesFrontier F) : Prop where
  shardHeight_pos : 0 < f.shardHeight
  shardHeight_lt : f.shardHeight < f.depth
  width : f.depth < usizeBits
  shardSize : f.shardSize = 2 ^ f.shardHeight
  fits : f.leafCount ≤ 2 ^ f.depth
  zeroes : f.zeroes = zeroRoots poseidon f.depth
  slots : f.frontier.length = f.depth + 1
  present : ∀ level slot, f.frontier[level]? = some slot →
    (slot.isSome ↔ f.leafCount / 2 ^ level % 2 = 1)

theorem ofLeaves_wellFormed (poseidon : F → F → F) {depth shardHeight : Nat} {leaves : List F}
    (hpos : 0 < shardHeight) (hlt : shardHeight < depth) (hd : depth < usizeBits)
    (hle : leaves.length ≤ 2 ^ depth) :
    WellFormed poseidon (ofLeaves poseidon depth shardHeight leaves) where
  shardHeight_pos := hpos
  shardHeight_lt := hlt
  width := hd
  shardSize := rfl
  fits := hle
  zeroes := (Imt.zeroRoots_eq poseidon depth).symm
  slots := tabulate_length _ _
  present := by
    intro level s hs
    have hlevel : level < depth + 1 := by
      have := (List.getElem?_eq_some_iff.mp hs).1
      simpa [ofLeaves] using this
    have hslot : s = slot poseidon 0 leaves level :=
      (Option.some.inj ((tabulate_getElem? _ hlevel).symm.trans hs)).symm
    rw [hslot, slot]
    split <;> simp_all [ofLeaves]

theorem new_wellFormed {depth shardHeight : Nat} (h : new poseidon depth shardHeight = .ok f) :
    WellFormed poseidon f := by
  obtain ⟨hpos, hlt, hd, rfl⟩ := new_eq_ok poseidon h
  exact ofLeaves_wellFormed poseidon hpos hlt hd (Nat.zero_le _)

theorem WellFormed.zeroes_getElem? (h : WellFormed poseidon f) {level : Nat}
    (hle : level ≤ f.depth) : f.zeroes[level]? = some (empty poseidon 0 level) := by
  rw [h.zeroes, Imt.zeroRoots_eq]
  exact tabulate_getElem? _ (by omega)

theorem WellFormed.slot_getElem? (h : WellFormed poseidon f) {level : Nat}
    (hle : level ≤ f.depth) : ∃ slot, f.frontier[level]? = some slot :=
  ⟨_, List.getElem?_eq_getElem (by rw [h.slots]; omega)⟩

theorem WellFormed.capacity (h : WellFormed poseidon f) : treeCapacity f.depth = .ok (2 ^ f.depth) :=
  treeCapacity_ok h.width

/-! ### Queries -/

theorem WellFormed.root (h : WellFormed poseidon f) : ∃ node, f.root poseidon = some node := by
  unfold NotesFrontier.root
  simp only [h.capacity, Except.toOption, Option.getD_some, h.zeroes_getElem? le_rfl,
    h.zeroes_getElem? (Nat.zero_le _), Option.bind_eq_bind, Option.bind_some]
  split
  · obtain ⟨slot, hslot⟩ := h.slot_getElem? le_rfl
    exact ⟨_, by rw [hslot]; rfl⟩
  · obtain ⟨s, hs, -⟩ := Loop.foldlM_range (n := f.depth) (f := rootLevel poseidon f)
      (s := (empty poseidon 0 0, f.leafCount)) (P := fun _ _ => True) trivial
      (by
        rintro level hlevel ⟨node, occupied⟩ -
        obtain ⟨slot, hslot⟩ := h.slot_getElem? hlevel.le
        simp only [rootLevel, h.zeroes_getElem? hlevel.le, hslot, Option.bind_eq_bind,
          Option.bind_some]
        split
        · exact ⟨_, rfl, trivial⟩
        · exact ⟨_, rfl, trivial⟩)
    rw [hs]
    exact ⟨s.1, rfl⟩

theorem WellFormed.frontierAt (h : WellFormed poseidon f) {level : Nat} (hlt : level < f.depth) :
    f.frontierAt level = some (.ok ((f.frontier[level]?.bind id).getD 0)) := by
  obtain ⟨slot, hslot⟩ := h.slot_getElem? hlt.le
  have hbit := h.present level slot hslot
  rw [NotesFrontier.frontierAt, hslot, Nat.shiftRight_eq_div_pow]
  rcases slot with _ | node
  · have hclear : f.leafCount / 2 ^ level % 2 = 0 := by
      simp only [Option.isSome_none, Bool.false_eq_true, false_iff] at hbit
      omega
    rw [if_pos (and_one_eq_zero.mpr hclear)]
    rfl
  · have hset : ¬ f.leafCount / 2 ^ level % 2 = 0 := by
      simp only [Option.isSome_some, true_iff] at hbit
      omega
    rw [if_neg (mt and_one_eq_zero.mp hset)]
    rfl

theorem WellFormed.nextLeafFrontier (h : WellFormed poseidon f) :
    f.nextLeafFrontier =
      if 2 ^ f.depth ≤ f.leafCount then some (.error (.treeFull f.depth))
      else some (.ok (tabulate f.depth fun level => (f.frontier[level]?.bind id).getD 0)) := by
  have hitem := collect_eq fun level (hlevel : level < f.depth) => h.frontierAt hlevel
  simp only [NotesFrontier.nextLeafFrontier, h.capacity, hitem]

/-! ### Appends -/

omit [Zero F] in
/-- From level `k` on the loop stops at the first clear bit, with the slots of the
incremented count. -/
theorem carry_present (poseidon : F → F → F) (shardHeight : Nat) {n depth k m : Nat} (hn : n < 2 ^ depth)
    (hkm : k + m = depth + 1) (hk : k ≤ depth) (hc : Carries n k) (s : Carry F)
    (hcursor : s.cursor = n / 2 ^ k) (hslots : s.frontier.length = depth + 1)
    (hpresent : ∀ level slot, s.frontier[level]? = some slot →
      (slot.isSome ↔ k ≤ level ∧ n / 2 ^ level % 2 = 1)) :
    ∃ s', carry poseidon shardHeight n (List.range' k m) s = some (.ok (), s') ∧
      s'.frontier.length = depth + 1 ∧
      ∀ level slot, s'.frontier[level]? = some slot →
        (slot.isSome ↔ (n + 1) / 2 ^ level % 2 = 1) := by
  induction m generalizing k s with
  | zero => omega
  | succ m ih =>
    have hklen : k < s.frontier.length := by omega
    rw [List.range'_succ, carry, hcursor]
    by_cases heven : n / 2 ^ k % 2 = 0
    · rw [if_pos (and_one_eq_zero.mpr heven), put_of_lt hklen]
      refine ⟨_, rfl, by simpa using hslots, ?_⟩
      intro level slot hslot
      rw [List.getElem?_set] at hslot
      rcases Nat.lt_trichotomy level k with hlt | rfl | hgt
      · rw [if_neg (by omega)] at hslot
        rw [hpresent level slot hslot, hc.div_lt hlt]
        omega
      · rw [if_pos rfl, if_pos hklen, Option.some.injEq] at hslot
        rw [← hslot, hc.div_eq]
        simp only [Option.isSome_some, true_iff]
        omega
      · rw [if_neg (by omega)] at hslot
        rw [hpresent level slot hslot, hc.div_gt heven hgt]
        omega
    · have hodd : n / 2 ^ k % 2 = 1 := by omega
      have hlt : k < depth := by
        rcases Nat.lt_or_eq_of_le hk with hlt | rfl
        · exact hlt
        · rw [Nat.div_eq_of_lt hn] at hodd
          omega
      have hget : s.frontier[k]? = some s.frontier[k] := List.getElem?_eq_getElem hklen
      obtain ⟨left, hleft⟩ := Option.isSome_iff_exists.mp
        ((hpresent k _ hget).mpr ⟨le_rfl, hodd⟩)
      rw [hleft] at hget
      rw [if_neg (mt and_one_eq_zero.mp heven), hget]
      refine ih (by omega) (by omega) (hc.succ hodd) _ (div_two_pow_shiftRight _ _)
        (by simpa using hslots) ?_
      intro level slot hslot
      rw [List.getElem?_set] at hslot
      by_cases hlevel : k = level
      · subst hlevel
        rw [if_pos rfl, if_pos hklen, Option.some.injEq] at hslot
        simp [← hslot]
      · rw [if_neg hlevel] at hslot
        rw [hpresent level slot hslot]
        omega

theorem WellFormed.append (h : WellFormed poseidon f) (leaf : F)
    (hroom : f.leafCount < 2 ^ f.depth) :
    ∃ result f', f.append poseidon leaf = some (.ok result, f') ∧ WellFormed poseidon f' ∧
      f'.depth = f.depth ∧ f'.leafCount = f.leafCount + 1 := by
  obtain ⟨s, hs, hslots, hpresent⟩ := carry_present poseidon f.shardHeight hroom
    (k := 0) (m := f.depth + 1) (by omega) (Nat.zero_le _) (carries_zero _)
    ⟨f.frontier, f.leafCount, leaf, none⟩ (by simp) h.slots
    (fun level slot hslot => by rw [h.present level slot hslot]; simp)
  rw [← List.range_eq_range'] at hs
  refine ⟨⟨f.leafCount, s.completedShard⟩,
    { f with frontier := s.frontier, leafCount := f.leafCount + 1 }, ?_, ?_, rfl, rfl⟩
  · simp only [NotesFrontier.append, h.capacity, if_neg (Nat.not_le.mpr hroom), hs,
      Option.bind_eq_bind, Option.bind_some]
  · exact ⟨h.shardHeight_pos, h.shardHeight_lt, h.width, h.shardSize, hroom, h.zeroes, hslots,
      hpresent⟩

/-- The frontier after appending `leaves` one call at a time. -/
def appended (poseidon : F → F → F) (f : NotesFrontier F) (leaves : List F) :
    Option (NotesFrontier F) :=
  leaves.foldlM (fun f leaf => (f.append poseidon leaf).bind fun (r, f) =>
    r.toOption.map fun _ => f) f

theorem WellFormed.appendEach (h : WellFormed poseidon f) (leaves : List F)
    (done : List (CompletedShard F)) (hfit : f.leafCount + leaves.length ≤ 2 ^ f.depth) :
    ∃ completed f', NotesFrontier.appendEach poseidon leaves f done = some (.ok completed, f') ∧
      f.appended poseidon leaves = some f' ∧ WellFormed poseidon f' ∧
      f'.leafCount = f.leafCount + leaves.length := by
  induction leaves generalizing f done with
  | nil => exact ⟨done, f, rfl, rfl, h, rfl⟩
  | cons leaf leaves ih =>
    rw [List.length_cons] at hfit
    obtain ⟨result, f₁, happ, hwf, hdepth, hcount⟩ := h.append leaf (by omega)
    obtain ⟨completed, f₂, heach, happended, hwf₂, hcount₂⟩ :=
      ih hwf (done ++ result.completedShard.toList) (by rw [hdepth]; omega)
    refine ⟨completed, f₂, ?_, ?_, hwf₂, by rw [hcount₂, hcount, List.length_cons]; omega⟩
    · simp only [NotesFrontier.appendEach, happ, Option.bind_eq_bind, Option.bind_some, heach]
    · rw [appended, List.foldlM_cons, happ]
      exact happended

/-- All of the leaves or none; the only refusal is a lack of room. -/
theorem WellFormed.appendAll (h : WellFormed poseidon f) (leaves : List F) :
    if f.leafCount + leaves.length ≤ 2 ^ f.depth then
      ∃ f', f.appendAll poseidon leaves = some (.ok (), f') ∧
        f.appended poseidon leaves = some f' ∧ WellFormed poseidon f' ∧
        f'.leafCount = f.leafCount + leaves.length
    else f.appendAll poseidon leaves = some (.error (.treeFull f.depth), f) := by
  have hfits := h.fits
  simp only [NotesFrontier.appendAll, appendMany, h.capacity]
  split
  · rename_i hfit
    obtain ⟨completed, f', heach, happended, hwf, hcount⟩ := h.appendEach leaves [] hfit
    refine ⟨f', ?_, happended, hwf, hcount⟩
    rw [if_neg (by omega), heach]
    rfl
  · rename_i hfull
    rw [if_pos (by omega)]
    rfl

theorem WellFormed.append_keeps (h : WellFormed poseidon f) {leaf : F}
    {result : Except TreeError (FrontierAppend F)} {f' : NotesFrontier F}
    (happ : f.append poseidon leaf = some (result, f')) : WellFormed poseidon f' := by
  by_cases hroom : f.leafCount < 2 ^ f.depth
  · obtain ⟨_, f'', happ', hwf, _⟩ := h.append leaf hroom
    obtain ⟨-, rfl⟩ := Prod.mk.inj (Option.some.inj (happ'.symm.trans happ))
    exact hwf
  · have hfull : f.append poseidon leaf = some (.error (.treeFull f.depth), f) := by
      simp only [NotesFrontier.append, h.capacity, if_pos (Nat.not_lt.mp hroom)]
    obtain ⟨-, rfl⟩ := Prod.mk.inj (Option.some.inj (hfull.symm.trans happ))
    exact h

theorem WellFormed.appendMany_keeps (h : WellFormed poseidon f) {leaves : List F}
    {result : Except TreeError (List (CompletedShard F))} {f' : NotesFrontier F}
    (happ : f.appendMany poseidon leaves = some (result, f')) : WellFormed poseidon f' := by
  have hfits := h.fits
  simp only [appendMany, h.capacity] at happ
  split at happ
  · obtain ⟨-, rfl⟩ := Prod.mk.inj (Option.some.inj happ)
    exact h
  · obtain ⟨_, f'', heach, _, hwf, _⟩ := h.appendEach leaves [] (by omega)
    obtain ⟨-, rfl⟩ := Prod.mk.inj (Option.some.inj (heach.symm.trans happ))
    exact hwf

/-- Every call, also a refused one, leaves a well-formed frontier behind. -/
theorem WellFormed.step (h : WellFormed poseidon f) {op : Op F}
    {result : Except TreeError (Reply F)} {f' : NotesFrontier F}
    (hstep : NotesFrontier.step poseidon f op = some (result, f')) : WellFormed poseidon f' := by
  cases op with
  | append leaf =>
    obtain ⟨⟨r, f''⟩, happ, heq⟩ := Option.map_eq_some_iff.mp hstep
    obtain ⟨-, rfl⟩ := Prod.mk.inj heq
    exact h.append_keeps happ
  | appendMany leaves =>
    obtain ⟨⟨r, f''⟩, happ, heq⟩ := Option.map_eq_some_iff.mp hstep
    obtain ⟨-, rfl⟩ := Prod.mk.inj heq
    exact h.appendMany_keeps happ
  | appendWithSiblings leaf =>
    obtain ⟨⟨r, f''⟩, happ, heq⟩ := Option.map_eq_some_iff.mp hstep
    obtain ⟨-, rfl⟩ := Prod.mk.inj heq
    obtain ⟨siblings, _, hrest⟩ := Option.bind_eq_some_iff.mp happ
    cases siblings with
    | error e =>
      obtain ⟨-, rfl⟩ := Prod.mk.inj (Option.some.inj hrest)
      exact h
    | ok siblings =>
      obtain ⟨⟨_, f''⟩, happ', hdone⟩ := Option.bind_eq_some_iff.mp hrest
      obtain ⟨-, rfl⟩ := Prod.mk.inj (Option.some.inj hdone)
      exact h.append_keeps happ'
  | appendAll leaves =>
    obtain ⟨⟨r, f''⟩, happ, heq⟩ := Option.map_eq_some_iff.mp hstep
    obtain ⟨-, rfl⟩ := Prod.mk.inj heq
    obtain ⟨⟨r, work⟩, happ', hdone⟩ := Option.bind_eq_some_iff.mp happ
    cases r with
    | error e =>
      obtain ⟨-, rfl⟩ := Prod.mk.inj (Option.some.inj hdone)
      exact h
    | ok _ =>
      obtain ⟨-, rfl⟩ := Prod.mk.inj (Option.some.inj hdone)
      exact h.appendMany_keeps happ'

theorem appended_ofLeaves (poseidon : F → F → F) {depth shardHeight : Nat} {leaves : List F}
    (hd : depth < usizeBits) (hpos : 0 < shardHeight) (batch : List F)
    (hfit : leaves.length + batch.length ≤ 2 ^ depth) :
    (ofLeaves poseidon depth shardHeight leaves).appended poseidon batch =
      some (ofLeaves poseidon depth shardHeight (leaves ++ batch)) := by
  induction batch generalizing leaves with
  | nil => simp [appended]
  | cons leaf batch ih =>
    rw [List.length_cons] at hfit
    have hfit' : (leaves ++ [leaf]).length + batch.length ≤ 2 ^ depth := by
      simp
      omega
    have hrest := ih hfit'
    rw [appended, List.foldlM_cons, append_ofLeaves poseidon hd hpos, if_neg (by omega)]
    rw [List.append_assoc, List.singleton_append] at hrest
    exact hrest

theorem appendAll_ofLeaves (poseidon : F → F → F) {depth shardHeight : Nat} {leaves : List F}
    (hd : depth < usizeBits) (hpos : 0 < shardHeight) (batch : List F) (hle : leaves.length ≤ 2 ^ depth) :
    (ofLeaves poseidon depth shardHeight leaves).appendAll poseidon batch =
      if leaves.length + batch.length ≤ 2 ^ depth then
        some (.ok (), ofLeaves poseidon depth shardHeight (leaves ++ batch))
      else some (.error (.treeFull depth), ofLeaves poseidon depth shardHeight leaves) := by
  rw [NotesFrontier.appendAll, appendMany_ofLeaves poseidon hd hpos batch hle]
  split <;> rfl

end Curvy.NotesFrontier
