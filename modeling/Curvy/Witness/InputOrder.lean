import Curvy.Witness.SageProgramCompiled
import Mathlib.Data.List.Perm.Basic
import Mathlib.Data.List.TakeWhile

/-!
# Placement of named inputs

Each member of the input object fills the range its name is mapped to. Which objects are
accepted does not depend on the order of the members. Ranges may nest, and a slot covered
twice holds the value of the later member.
-/

namespace Curvy.Witness

set_option autoImplicit false

/-! ### Values of a member -/

namespace Fields

mutual
/-- The field elements in a value, in order. -/
def leaves : Json → Option (List Fr)
  | .str value => (parseField value).map fun field => [field]
  | .u64 value => some [(value : Fr)]
  | .i64 value => some [if value < 0 then -(value.natAbs : Fr) else (value.natAbs : Fr)]
  | .f64 isZero => if isZero then some [0] else none
  | .bool _ => none
  | .null => none
  | .seq elements stop => leavesSeq elements stop
  | .map _ _ => none
  | .broken _ => none

def leavesSeq : List Json → Option JsonError → Option (List Fr)
  | [], none => some []
  | [], some _ => none
  | element :: elements, stop =>
    match leaves element, leavesSeq elements stop with
    | some first, some rest => some (first ++ rest)
    | _, _ => none
end

/-- What a successful visit does to an output of which `done` is filled. -/
def Fills (done tail values : List Fr) (out : Output) : Prop :=
  values.length ≤ tail.length ∧
    out = (done ++ values ++ tail.drop values.length, (done ++ values).length)

theorem push_ok {done tail : List Fr} {value : Fr} {out : Output} :
    push (done ++ tail, done.length) value = .ok out ↔ Fills done tail [value] out := by
  unfold push Fills
  cases tail with
  | nil => simp
  | cons first tail => simp [eq_comm]

theorem fills_nil {done tail : List Fr} {out : Output} :
    Fills done tail [] out ↔ out = (done ++ tail, done.length) := by
  simp [Fills]

theorem fills_append {done tail first rest : List Fr} {out : Output} :
    Fills done tail (first ++ rest) out ↔ first.length ≤ tail.length ∧
      Fills (done ++ first) (tail.drop first.length) rest out := by
  unfold Fills
  rw [List.length_append, List.length_drop, List.drop_drop, List.append_assoc, List.append_assoc,
    List.append_assoc]
  constructor
  · rintro ⟨hle, hout⟩
    exact ⟨by omega, by omega, by simpa [List.append_assoc] using hout⟩
  · rintro ⟨hfirst, hrest, hout⟩
    exact ⟨by omega, by simpa [List.append_assoc] using hout⟩

mutual
/-- A visit succeeds on the well-formed values that fit and appends them. -/
theorem visit_ok : ∀ (json : Json) (done tail : List Fr) (out : Output),
    visit json (done ++ tail, done.length) = .ok out ↔
      ∃ values, leaves json = some values ∧ Fills done tail values out
  | .str value, done, tail, out => by
    unfold visit leaves
    cases parseField value with
    | none => simp
    | some field => simpa using push_ok
  | .u64 value, done, tail, out => by
    unfold visit leaves
    simpa using push_ok
  | .i64 value, done, tail, out => by
    unfold visit leaves
    simpa using push_ok
  | .f64 isZero, done, tail, out => by
    unfold visit leaves
    cases isZero with
    | false => simp
    | true => simpa using push_ok
  | .bool _, done, tail, out => by simp [visit, leaves]
  | .null, done, tail, out => by simp [visit, leaves]
  | .seq elements stop, done, tail, out => by
    unfold visit leaves
    exact visitSeq_ok elements stop done tail out
  | .map _ _, done, tail, out => by simp [visit, leaves]
  | .broken _, done, tail, out => by simp [visit, leaves]

theorem visitSeq_ok : ∀ (elements : List Json) (stop : Option JsonError) (done tail : List Fr)
    (out : Output), visitSeq elements stop (done ++ tail, done.length) = .ok out ↔
      ∃ values, leavesSeq elements stop = some values ∧ Fills done tail values out
  | [], none, done, tail, out => by
    simp [visitSeq, leavesSeq, fills_nil, eq_comm]
  | [], some _, done, tail, out => by simp [visitSeq, leavesSeq]
  | element :: elements, stop, done, tail, out => by
    have hhead := visit_ok element done tail
    unfold visitSeq leavesSeq
    cases hvisit : visit element (done ++ tail, done.length) with
    | error e =>
      constructor
      · intro h
        cases h
      · rintro ⟨values, hleaves, hfills⟩
        split at hleaves
        · rename_i first rest hfirst hrest
          cases hleaves
          have hread := (hhead _).mpr ⟨first, hfirst, (fills_append.mp hfills).1, rfl⟩
          rw [hvisit] at hread
          cases hread
        · cases hleaves
    | ok out₁ =>
      obtain ⟨first, hfirst, hle, rfl⟩ := (hhead _).mp hvisit
      rw [visitSeq_ok elements stop (done ++ first) (tail.drop first.length) out, hfirst]
      constructor
      · rintro ⟨rest, hrest, hfills⟩
        exact ⟨first ++ rest, by rw [hrest], fills_append.mpr ⟨hle, hfills⟩⟩
      · rintro ⟨values, hleaves, hfills⟩
        split at hleaves
        · rename_i first' rest hfirst' hrest
          cases hfirst'
          cases hleaves
          exact ⟨rest, hrest, (fills_append.mp hfills).2⟩
        · cases hleaves
end

/-- A visit of a fresh range that fills it leaves just the values. -/
theorem visit_fills {json : Json} {range output : List Fr} {count : Nat} :
    (visit json (range, 0) = .ok (output, count) ∧ count = range.length) ↔
      leaves json = some output ∧ output.length = range.length ∧ count = range.length := by
  have hvisit := visit_ok json [] range (output, count)
  rw [List.nil_append, List.length_nil] at hvisit
  rw [hvisit]
  constructor
  · rintro ⟨⟨values, hleaves, -, heq⟩, hcount⟩
    obtain ⟨houtput, hlength⟩ := Prod.mk.inj heq
    rw [List.nil_append] at houtput hlength
    rw [List.drop_eq_nil_of_le (by omega), List.append_nil] at houtput
    subst houtput
    exact ⟨hleaves, by omega, hcount⟩
  · rintro ⟨hleaves, hlength, hcount⟩
    refine ⟨⟨output, hleaves, Nat.le_of_eq hlength, ?_⟩, hcount⟩
    rw [List.drop_eq_nil_of_le (by omega), List.append_nil, List.nil_append, hlength, hcount]

end Fields

/-! ### Placements -/

namespace InputObject

/-- Values for the range of one mapping. -/
structure Placement where
  index : Nat
  start : Nat
  values : List Fr

def Placement.Covers (p : Placement) (k : Nat) : Prop :=
  p.start ≤ k ∧ k < p.start + p.values.length

/-- Where the values of a member go, if its name is mapped and they fill the range. -/
def place (mappings : List InputMapping) (member : String × Json) : Option Placement :=
  match mappings.findIdx? (fun m => m.hash = fnv1a member.1) with
  | none => none
  | some index =>
    match mappings[index]?, Fields.leaves member.2 with
    | some mapping, some values =>
      if values.length = mapping.signalSize then some ⟨index, mapping.signalId, values⟩ else none
    | _, _ => none

def overwrite (buffer : List Fr) (p : Placement) : List Fr :=
  buffer.take p.start ++ p.values ++ buffer.drop (p.start + p.values.length)

theorem place_ok {mappings : List InputMapping} {name : String} {value : Json} {p : Placement} :
    place mappings (name, value) = some p ↔ ∃ mapping,
      mappings.findIdx? (fun m => m.hash = fnv1a name) = some p.index ∧
      mappings[p.index]? = some mapping ∧ Fields.leaves value = some p.values ∧
      p.values.length = mapping.signalSize ∧ p.start = mapping.signalId := by
  obtain ⟨index, start, values⟩ := p
  unfold place
  dsimp only
  constructor
  · intro h
    split at h
    · cases h
    rename_i index' hindex
    split at h
    · rename_i mapping values' hmapping hleaves
      split at h
      · rename_i hlength
        cases h
        exact ⟨mapping, hindex, hmapping, hleaves, hlength, rfl⟩
      · cases h
    · cases h
  · rintro ⟨mapping, hindex, hmapping, hleaves, hlength, rfl⟩
    simp only [hindex, hmapping, hleaves, if_pos hlength]

section Members

variable {mappings : List InputMapping} {length : Nat} {s t : State}

/-- A member that succeeds has a placement, and takes effect through it. -/
theorem visitMember_sound {name : String} {value : Json}
    (h : visitMember mappings s name value = some (.ok t)) :
    ∃ p, place mappings (name, value) = some p ∧ s.matched[p.index]? = some false ∧
      t = ⟨overwrite s.values p, s.matched.set p.index true⟩ := by
  unfold visitMember at h
  split at h
  · cases h
  rename_i index hindex
  obtain ⟨mapping, hmapping, h⟩ := Option.bind_eq_some_iff.mp h
  obtain ⟨flag, hflag, h⟩ := Option.bind_eq_some_iff.mp h
  cases flag with
  | true => cases h
  | false =>
    rw [if_neg (by simp)] at h
    dsimp only at h
    split at h
    · cases h
    rename_i hlong
    have hrange : ((s.values.drop mapping.signalId).take mapping.signalSize).length =
        mapping.signalSize := by
      rw [List.length_take, List.length_drop]
      omega
    split at h
    · cases h
    rename_i output count hvisit
    split at h
    · cases h
    rename_i hcount
    rw [Decidable.not_not, ← hrange] at hcount
    obtain ⟨hleaves, hlength, -⟩ := Fields.visit_fills.mp ⟨hvisit, hcount⟩
    rw [hrange] at hlength
    cases h
    refine ⟨⟨index, mapping.signalId, output⟩,
      place_ok.mpr ⟨mapping, hindex, hmapping, hleaves, hlength, rfl⟩, hflag, ?_⟩
    rw [overwrite, hlength]

theorem visitMember_complete (hfit : MappingsFit mappings length)
    (hvalues : s.values.length = length) {name : String} {value : Json} {p : Placement}
    (hp : place mappings (name, value) = some p) (hfree : s.matched[p.index]? = some false) :
    visitMember mappings s name value =
      some (.ok ⟨overwrite s.values p, s.matched.set p.index true⟩) := by
  obtain ⟨mapping, hindex, hmapping, hleaves, hlength, hstart⟩ := place_ok.mp hp
  have hbound := hfit mapping (List.mem_of_getElem? hmapping)
  have hrange : ((s.values.drop mapping.signalId).take mapping.signalSize).length =
      mapping.signalSize := by
    rw [List.length_take, List.length_drop]
    omega
  obtain ⟨hvisit, -⟩ := Fields.visit_fills.mpr ⟨hleaves, hlength.trans hrange.symm, rfl⟩
  unfold visitMember
  simp only [hindex, hmapping, hfree, Option.bind_eq_bind, Option.bind_some]
  rw [if_neg (by simp), if_neg (by omega), hvisit]
  dsimp only
  rw [if_neg (not_not.mpr hrange), overwrite, hstart, hlength]

/-- The placements of the members, in order. -/
def Placed (mappings : List InputMapping) (members : List (String × Json))
    (ps : List Placement) : Prop :=
  List.Forall₂ (fun member p => place mappings member = some p) members ps

theorem place_bounds (hfit : MappingsFit mappings length) {member : String × Json} {p : Placement}
    (h : place mappings member = some p) :
    p.index < mappings.length ∧ p.start + p.values.length ≤ length := by
  obtain ⟨mapping, -, hmapping, -, hlength, hstart⟩ := place_ok.mp h
  obtain ⟨hlt, -⟩ := List.getElem?_eq_some_iff.mp hmapping
  have hbound := hfit mapping (List.mem_of_getElem? hmapping)
  exact ⟨hlt, by omega⟩

theorem overwrite_length {buffer : List Fr} {p : Placement}
    (h : p.start + p.values.length ≤ buffer.length) :
    (overwrite buffer p).length = buffer.length := by
  simp only [overwrite, List.length_append, List.length_take, List.length_drop]
  omega

/-- The members succeed exactly when each has a placement and no two use one mapping; the
placements then take effect in order. -/
theorem visitMap_ok (hfit : MappingsFit mappings length) {members : List (String × Json)}
    {stop : Option JsonError} (hvalues : s.values.length = length)
    (hmatched : s.matched.length = mappings.length) {values : List Fr} :
    (∃ matched, visitMap mappings members stop s = some (.ok ⟨values, matched⟩)) ↔
      stop = none ∧ ∃ ps, Placed mappings members ps ∧ (ps.map Placement.index).Nodup ∧
        (∀ p ∈ ps, s.matched[p.index]? = some false) ∧ values = ps.foldl overwrite s.values := by
  induction members generalizing s with
  | nil =>
    cases stop with
    | some error =>
      constructor
      · rintro ⟨_, h⟩
        cases h
      · rintro ⟨h, -⟩
        cases h
    | none =>
      constructor
      · rintro ⟨_, h⟩
        cases h
        exact ⟨rfl, [], .nil, List.nodup_nil, fun p hp => (by cases hp), rfl⟩
      · rintro ⟨-, ps, hps, -, -, rfl⟩
        cases hps
        exact ⟨s.matched, rfl⟩
  | cons member members ih =>
    obtain ⟨name, value⟩ := member
    -- the state after the first member
    have hafter : ∀ p, place mappings (name, value) = some p →
        (overwrite s.values p).length = length ∧
          (s.matched.set p.index true).length = mappings.length := by
      intro p hp
      have hbound := (place_bounds hfit hp).2
      exact ⟨(overwrite_length (by omega)).trans hvalues, List.length_set.trans hmatched⟩
    have hothers : ∀ p q : Placement, s.matched[p.index]? = some false →
        ((s.matched.set p.index true)[q.index]? = some false ↔
          p.index ≠ q.index ∧ s.matched[q.index]? = some false) := by
      intro p q hp
      obtain ⟨hlt, -⟩ := List.getElem?_eq_some_iff.mp hp
      by_cases hsame : p.index = q.index
      · rw [← hsame, List.getElem?_set_self hlt]
        simp
      · rw [List.getElem?_set_ne hsame]
        exact (and_iff_right hsame).symm
    constructor
    · rintro ⟨matched, h⟩
      unfold visitMap at h
      cases hmember : visitMember mappings s name value with
      | none =>
        rw [hmember] at h
        cases h
      | some r =>
        rw [hmember] at h
        cases r with
        | error e => cases h
        | ok t =>
          obtain ⟨p, hp, hfree, rfl⟩ := visitMember_sound hmember
          obtain ⟨hlength, hlength'⟩ := hafter p hp
          obtain ⟨rfl, ps, hps, hnodup, hall, rfl⟩ := (ih hlength hlength').mp ⟨matched, h⟩
          refine ⟨rfl, p :: ps, .cons hp hps, List.nodup_cons.mpr ⟨?_, hnodup⟩,
            List.forall_mem_cons.mpr ⟨hfree, fun q hq => ((hothers p q hfree).mp (hall q hq)).2⟩, rfl⟩
          intro hmem
          obtain ⟨q, hq, hsame⟩ := List.mem_map.mp hmem
          exact ((hothers p q hfree).mp (hall q hq)).1 hsame.symm
    · rintro ⟨rfl, _, hps, hnodup, hall, rfl⟩
      cases hps with
      | @cons _ p _ ps hp hps =>
        obtain ⟨hnotin, hnodup⟩ := List.nodup_cons.mp hnodup
        obtain ⟨hfree, hall⟩ := List.forall_mem_cons.mp hall
        obtain ⟨hlength, hlength'⟩ := hafter p hp
        obtain ⟨matched, hrest⟩ := (ih (s := ⟨overwrite s.values p, s.matched.set p.index true⟩)
          hlength hlength').mpr ⟨rfl, ps, hps, hnodup,
          fun q hq => (hothers p q hfree).mpr
            ⟨fun hsame => hnotin (List.mem_map.mpr ⟨q, hq, hsame.symm⟩), hall q hq⟩, rfl⟩
        refine ⟨matched, ?_⟩
        rw [visitMap, visitMember_complete hfit hvalues hp hfree]
        exact hrest

end Members

/-! ### What a slot holds -/

theorem getElem?_overwrite {buffer : List Fr} {p : Placement}
    (h : p.start + p.values.length ≤ buffer.length) (k : Nat) :
    (overwrite buffer p)[k]? = if p.start ≤ k ∧ k < p.start + p.values.length then
      p.values[k - p.start]? else buffer[k]? := by
  have htake : (buffer.take p.start).length = p.start := List.length_take_of_le (by omega)
  unfold overwrite
  by_cases hlow : p.start ≤ k
  · by_cases hhigh : k < p.start + p.values.length
    · rw [if_pos ⟨hlow, hhigh⟩, List.getElem?_append_left (by rw [List.length_append]; omega),
        List.getElem?_append_right (by omega), htake]
    · rw [if_neg (fun hin => hhigh hin.2),
        List.getElem?_append_right (by rw [List.length_append]; omega), List.getElem?_drop,
        List.length_append, htake]
      congr 1
      omega
  · rw [if_neg (fun hin => hlow hin.1), List.getElem?_append_left (by rw [List.length_append]; omega),
      List.getElem?_append_left (by omega), List.getElem?_take_of_lt (by omega)]

theorem foldl_overwrite_uncovered {ps : List Placement} {buffer : List Fr}
    (hbounds : ∀ p ∈ ps, p.start + p.values.length ≤ buffer.length) {k : Nat}
    (h : ∀ p ∈ ps, ¬ p.Covers k) : (ps.foldl overwrite buffer)[k]? = buffer[k]? := by
  induction ps generalizing buffer with
  | nil => rfl
  | cons p ps ih =>
    obtain ⟨hp, hbounds⟩ := List.forall_mem_cons.mp hbounds
    obtain ⟨hout, h⟩ := List.forall_mem_cons.mp h
    rw [List.foldl_cons, ih (by rw [overwrite_length hp]; exact hbounds) h, getElem?_overwrite hp]
    exact if_neg hout

/-- A covered slot holds the value of the last placement that covers it. -/
theorem foldl_overwrite_last {before after : List Placement} {p : Placement} {buffer : List Fr}
    (hbounds : ∀ q ∈ before ++ p :: after, q.start + q.values.length ≤ buffer.length) {k : Nat}
    (hp : p.Covers k) (hafter : ∀ q ∈ after, ¬ q.Covers k) :
    ((before ++ p :: after).foldl overwrite buffer)[k]? = p.values[k - p.start]? := by
  induction before generalizing buffer with
  | nil =>
    obtain ⟨hbound, hbounds⟩ := List.forall_mem_cons.mp hbounds
    rw [List.nil_append, List.foldl_cons, foldl_overwrite_uncovered
      (by rw [overwrite_length hbound]; exact hbounds) hafter, getElem?_overwrite hbound]
    exact if_pos hp
  | cons q before ih =>
    obtain ⟨hbound, hbounds⟩ := List.forall_mem_cons.mp hbounds
    exact ih (by rw [overwrite_length hbound]; exact hbounds)

theorem foldl_overwrite_length {ps : List Placement} {buffer : List Fr}
    (hbounds : ∀ p ∈ ps, p.start + p.values.length ≤ buffer.length) :
    (ps.foldl overwrite buffer).length = buffer.length := by
  induction ps generalizing buffer with
  | nil => rfl
  | cons p ps ih =>
    obtain ⟨hp, hbounds⟩ := List.forall_mem_cons.mp hbounds
    rw [List.foldl_cons, ih (by rw [overwrite_length hp]; exact hbounds), overwrite_length hp]

/-- A slot that at most one placement covers does not depend on their order. -/
theorem foldl_overwrite_perm {ps ps' : List Placement} {buffer : List Fr} (hperm : ps.Perm ps')
    (hbounds : ∀ p ∈ ps, p.start + p.values.length ≤ buffer.length) {k : Nat}
    (hapart : ps.Pairwise fun p q => ¬ (p.Covers k ∧ q.Covers k)) :
    (ps.foldl overwrite buffer)[k]? = (ps'.foldl overwrite buffer)[k]? := by
  have hbounds' : ∀ p ∈ ps', p.start + p.values.length ≤ buffer.length :=
    fun p hp => hbounds p (hperm.mem_iff.mpr hp)
  have hapart' : ps'.Pairwise fun p q => ¬ (p.Covers k ∧ q.Covers k) :=
    (hperm.pairwise_iff fun hpq hqp => hpq hqp.symm).mp hapart
  by_cases hcovered : ∃ p ∈ ps, p.Covers k
  · obtain ⟨p, hp, hk⟩ := hcovered
    have hlast : ∀ {qs : List Placement}, p ∈ qs →
        (∀ q ∈ qs, q.start + q.values.length ≤ buffer.length) →
        (qs.Pairwise fun p q => ¬ (p.Covers k ∧ q.Covers k)) →
        (qs.foldl overwrite buffer)[k]? = p.values[k - p.start]? := by
      intro qs hmem hb ha
      obtain ⟨before, after, rfl⟩ := List.append_of_mem hmem
      have hsuffix := (List.pairwise_append.mp ha).2.1
      exact foldl_overwrite_last hb hk fun q hq hq' =>
        (List.pairwise_cons.mp hsuffix).1 q hq ⟨hk, hq'⟩
    rw [hlast hp hbounds hapart, hlast (hperm.mem_iff.mp hp) hbounds' hapart']
  · have hnone : ∀ p ∈ ps, ¬ p.Covers k := fun p hp hk => hcovered ⟨p, hp, hk⟩
    rw [foldl_overwrite_uncovered hbounds hnone, foldl_overwrite_uncovered hbounds'
      fun p hp => hnone p (hperm.mem_iff.mpr hp)]

end InputObject

/-! ### Accepted tables -/

/-- The table of a graph whose input buffer has `length` slots. -/
structure InputTable (mappings : List InputMapping) (length : Nat) : Prop where
  length_ne : length ≠ 0
  hashes : (mappings.map InputMapping.hash).Nodup
  id_ne : ∀ m ∈ mappings, m.signalId ≠ 0
  size_ne : ∀ m ∈ mappings, m.signalSize ≠ 0
  within : MappingsFit mappings length
  ranges : checkInputRanges (mappings.map fun m => (m.signalId, m.signalSize)) = .ok ()

section Tables

open Decoder Sage

theorem hashes_nodup {header : ProgramHeader} {s s' : MappingCheck} {mappings : List InputMapping}
    (h : Threads (AdmitsMapping header) s mappings s') :
    (mappings.map InputMapping.hash).Nodup ∧ ∀ m ∈ mappings, m.hash ∉ s.hashes := by
  induction h with
  | nil => exact ⟨List.nodup_nil, fun m hm => by cases hm⟩
  | @cons s s₁ s₂ mapping mappings head _ ih =>
    obtain ⟨hnodup, hfresh⟩ := ih
    rw [head.next] at hfresh
    have hlater : ∀ m ∈ mappings, m.hash ≠ mapping.hash ∧ m.hash ∉ s.hashes := by
      intro m hm
      have hnotin := hfresh m hm
      dsimp only at hnotin
      rwa [List.mem_cons, not_or] at hnotin
    refine ⟨List.nodup_cons.mpr ⟨?_, hnodup⟩, List.forall_mem_cons.mpr
      ⟨head.fresh, fun m hm => (hlater m hm).2⟩⟩
    intro hmem
    obtain ⟨m, hm, hsame⟩ := List.mem_map.mp hmem
    exact (hlater m hm).1 hsame

theorem InputTable.of_threads {header : ProgramHeader} {s' : MappingCheck}
    {mappings : List InputMapping} (h : Threads (AdmitsMapping header) ⟨0, []⟩ mappings s')
    (hlength : header.inputBufferLen ≠ 0)
    (hranges : checkInputRanges (mappings.map fun m => (m.signalId, m.signalSize)) = .ok ()) :
    InputTable mappings header.inputBufferLen where
  length_ne := hlength
  hashes := (hashes_nodup h).1
  id_ne m hm := by
    obtain ⟨_, _, hadmits⟩ := h.of_mem hm
    exact hadmits.signalId_ne
  size_ne m hm := by
    obtain ⟨_, _, hadmits⟩ := h.of_mem hm
    exact hadmits.signalSize_ne
  within m hm := by
    obtain ⟨_, _, hadmits⟩ := h.of_mem hm
    exact hadmits.within
  ranges := hranges

/-- Graphs and programs are loaded with such a table only. -/
theorem parseGraph_table {signetV2 : Bool} {bytes : List UInt8} {limits : Limits}
    {g : WitnessGraph} (h : parseGraph signetV2 bytes limits = .ok g) :
    InputTable g.inputMapping g.inputBufferLen := by
  obtain ⟨a, nodes, ha, -, rfl⟩ := parseGraph_ok.mp h
  obtain ⟨hmappings, hranges⟩ := readInputMappings_ok ha.mapping
  obtain ⟨-, s, hthreads⟩ := readMappingsFrom_threads
    ⟨[], [], 0, 0, 0, 0, a.header.inputBufferLen, 0, 0⟩ rfl hmappings
  exact .of_threads hthreads ha.sound.sized.inputs_ne hranges

theorem decodeProgram_table {declaredSize : Option Nat} {expected : String} {limits : Limits}
    {program : List UInt8} {g : SageGraph}
    (h : decodeProgram declaredSize expected limits program = .ok g) :
    InputTable g.inputMapping g.inputBufferLen := by
  obtain ⟨hwf, -⟩ := SageGraph.decodeProgram_ok.mp h
  obtain ⟨s, hthreads⟩ := hwf.mappings
  exact .of_threads hthreads hwf.dimensions.inputs_ne hwf.ranges

end Tables

/-! ### Nested ranges -/

/-- Two ranges `(start, size)` have no common slot or one lies inside the other. -/
def Laminar (a b : Nat × Nat) : Prop :=
  a.1 + a.2 ≤ b.1 ∨ b.1 + b.2 ≤ a.1 ∨ (b.1 ≤ a.1 ∧ a.1 + a.2 ≤ b.1 + b.2) ∨
    (a.1 ≤ b.1 ∧ b.1 + b.2 ≤ a.1 + a.2)

theorem Laminar.symm {a b : Nat × Nat} (h : Laminar a b) : Laminar b a := by
  unfold Laminar at *
  omega

/-- The scan accepts ranges that are laminar, and that no enclosing end cuts. -/
theorem scanRanges_laminar {order : List (Nat × Nat × Nat)} {enclosing : List Nat}
    (h : scanRanges order enclosing = .ok ())
    (horder : order.Pairwise fun a b => rangeBefore a b = true)
    (hends : enclosing.Pairwise fun a b => a ≤ b) :
    (order.Pairwise fun a b => Laminar a.2 b.2) ∧
      ∀ outerEnd ∈ enclosing, ∀ range ∈ order,
        outerEnd ≤ range.2.1 ∨ range.2.1 + range.2.2 ≤ outerEnd := by
  induction order generalizing enclosing with
  | nil => exact ⟨.nil, fun _ _ range hrange => by cases hrange⟩
  | cons first order ih =>
    obtain ⟨index, start, size⟩ := first
    obtain ⟨hfirst, horder⟩ := List.pairwise_cons.mp horder
    unfold scanRanges at h
    dsimp only at h
    generalize hopen : enclosing.dropWhile (fun outerEnd => decide (outerEnd ≤ start)) = open' at h
    have hsorted : open'.Pairwise fun a b => a ≤ b := by
      rw [← hopen]
      exact hends.sublist (List.dropWhile_sublist _)
    split at h
    · cases h
    rename_i hfits
    -- every end still open lies at or behind the end of this range
    have hinside : ∀ outerEnd ∈ open', start + size ≤ outerEnd := by
      intro outerEnd hmem
      cases open' with
      | nil => cases hmem
      | cons top rest =>
        have htop : start + size ≤ top := by simpa using hfits
        rcases List.mem_cons.mp hmem with rfl | hmem
        · exact htop
        · exact htop.trans ((List.pairwise_cons.mp hsorted).1 _ hmem)
    obtain ⟨hlaminar, hcut⟩ := ih h horder (List.pairwise_cons.mpr ⟨hinside, hsorted⟩)
    have hstart : ∀ range ∈ order, start ≤ range.2.1 := by
      intro range hrange
      have hbefore := hfirst range hrange
      unfold rangeBefore at hbefore
      simp only [decide_eq_true_eq] at hbefore
      omega
    refine ⟨List.pairwise_cons.mpr ⟨fun range hrange => ?_, hlaminar⟩, ?_⟩
    · have hown := hcut (start + size) List.mem_cons_self range hrange
      have hafter := hstart range hrange
      unfold Laminar
      dsimp only
      omega
    · intro outerEnd hmem
      rw [← List.takeWhile_append_dropWhile (p := fun outerEnd => decide (outerEnd ≤ start))
        (l := enclosing), hopen, List.mem_append] at hmem
      rcases hmem with hclosed | hopened
      · have hle : outerEnd ≤ start := by simpa using List.mem_takeWhile_imp hclosed
        refine List.forall_mem_cons.mpr ⟨.inl hle, fun range hrange => .inl ?_⟩
        exact hle.trans (hstart range hrange)
      · exact List.forall_mem_cons.mpr ⟨.inr (hinside outerEnd hopened), fun range hrange =>
          hcut outerEnd (List.mem_cons_of_mem _ hopened) range hrange⟩

theorem rangeBefore_trans (a b c : Nat × Nat × Nat) (hab : rangeBefore a b = true)
    (hbc : rangeBefore b c = true) : rangeBefore a c = true := by
  unfold rangeBefore at *
  simp only [decide_eq_true_eq] at *
  omega

theorem rangeBefore_total (a b : Nat × Nat × Nat) :
    (rangeBefore a b || rangeBefore b a) = true := by
  unfold rangeBefore
  simp only [Bool.or_eq_true, decide_eq_true_eq]
  omega

theorem checkInputRanges_laminar {ranges : List (Nat × Nat)}
    (h : checkInputRanges ranges = .ok ()) : ranges.Pairwise Laminar := by
  unfold checkInputRanges at h
  obtain ⟨hlaminar, -⟩ := scanRanges_laminar h
    (List.pairwise_mergeSort rangeBefore_trans rangeBefore_total _) .nil
  rw [(List.mergeSort_perm _ _).pairwise_iff fun hab => hab.symm, List.pairwise_map] at hlaminar
  have hranges : (ranges.zipIdx.map Prod.fst).Pairwise Laminar := List.pairwise_map.mpr hlaminar
  rwa [List.zipIdx_map_fst] at hranges

/-! ### The buffer of an object -/

section Buffer

variable {serde : SerdeJson} {mappings : List InputMapping} {length : Nat} {limits : Limits}

def mappingOf (mappings : List InputMapping) (name : String) : Option InputMapping :=
  mappings.find? fun m => m.hash = fnv1a name

/-- The range a member's name is mapped to contains slot `k`. -/
def Supplies (mappings : List InputMapping) (k : Nat) (member : String × Json) : Prop :=
  ∃ m, mappingOf mappings member.1 = some m ∧ m.signalId ≤ k ∧ k < m.signalId + m.signalSize

/-- No two members supply slot `k`. -/
def SuppliedOnce (mappings : List InputMapping) (members : List (String × Json)) (k : Nat) : Prop :=
  members.Pairwise fun a b => ¬ (Supplies mappings k a ∧ Supplies mappings k b)

namespace InputObject

theorem place_mapping {member : String × Json} {p : Placement}
    (h : place mappings member = some p) : ∃ m, mappingOf mappings member.1 = some m ∧
      Fields.leaves member.2 = some p.values ∧ p.start = m.signalId ∧
      p.values.length = m.signalSize := by
  obtain ⟨mapping, hindex, hmapping, hleaves, hlength, hstart⟩ := place_ok.mp h
  refine ⟨mapping, ?_, hleaves, hstart, hlength⟩
  rw [mappingOf, List.find?_eq_bind_findIdx?_getElem?, hindex]
  exact hmapping

theorem covers_iff {member : String × Json} {p : Placement} (h : place mappings member = some p)
    {k : Nat} : p.Covers k ↔ Supplies mappings k member := by
  obtain ⟨m, hm, -, hstart, hlength⟩ := place_mapping h
  unfold Placement.Covers Supplies
  rw [hm, hstart, hlength]
  simp

theorem Placed.mem {members : List (String × Json)} {ps : List Placement}
    (h : Placed mappings members ps) {p : Placement} (hp : p ∈ ps) :
    ∃ member ∈ members, place mappings member = some p := by
  induction h with
  | nil => cases hp
  | cons head _ ih =>
    rcases List.mem_cons.mp hp with rfl | hp
    · exact ⟨_, List.mem_cons_self, head⟩
    · obtain ⟨member, hmember, hplace⟩ := ih hp
      exact ⟨member, List.mem_cons_of_mem _ hmember, hplace⟩

theorem Placed.split {before after : List (String × Json)} {member : String × Json}
    {ps : List Placement} (h : Placed mappings (before ++ member :: after) ps) :
    ∃ psBefore p psAfter, ps = psBefore ++ p :: psAfter ∧ place mappings member = some p ∧
      Placed mappings after psAfter := by
  induction before generalizing ps with
  | nil =>
    cases h with
    | @cons _ p _ psAfter head rest => exact ⟨[], p, psAfter, rfl, head, rest⟩
  | cons _ before ih =>
    cases h with
    | @cons _ q _ _ _ rest =>
      obtain ⟨psBefore, p, psAfter, rfl, hplace, hafter⟩ := ih rest
      exact ⟨q :: psBefore, p, psAfter, rfl, hplace, hafter⟩

theorem Placed.apart {members : List (String × Json)} {ps : List Placement} {k : Nat}
    (h : Placed mappings members ps) (honce : SuppliedOnce mappings members k) :
    ps.Pairwise fun p q => ¬ (p.Covers k ∧ q.Covers k) := by
  induction h with
  | nil => exact .nil
  | cons head rest ih =>
    obtain ⟨hfirst, honce⟩ := List.pairwise_cons.mp honce
    refine List.pairwise_cons.mpr ⟨fun q hq hboth => ?_, ih honce⟩
    obtain ⟨member, hmember, hplace⟩ := Placed.mem rest hq
    exact hfirst member hmember ⟨(covers_iff head).mp hboth.1, (covers_iff hplace).mp hboth.2⟩

/-- Distinct mappings mean distinct names. -/
theorem Placed.hashes_nodup {members : List (String × Json)} {ps : List Placement}
    (h : Placed mappings members ps) (hnodup : (ps.map Placement.index).Nodup) :
    (members.map fun member => fnv1a member.1).Nodup := by
  have hindices : (members.map fun member => fnv1a member.1).map
      (fun hash => mappings.findIdx? fun m => m.hash = hash) =
        (ps.map Placement.index).map some := by
    induction h with
    | nil => rfl
    | cons head _ ih =>
      obtain ⟨_, hindex, -⟩ := place_ok.mp head
      rw [List.map_cons, List.map_cons, List.map_cons, List.map_cons, hindex,
        ih (List.nodup_cons.mp hnodup).2]
  refine List.Nodup.of_map (fun hash => mappings.findIdx? fun m => m.hash = hash) ?_
  rw [hindices]
  exact hnodup.map (Option.some_injective _)

end InputObject

open InputObject

def initialValues (length : Nat) : List Fr := (List.replicate length (0 : Fr)).set 0 1

theorem initialValues_length : (initialValues length).length = length := by simp [initialValues]

/-- The objects that are accepted, and the buffer they give. -/
theorem buildInputBuffer_ok (hfit : MappingsFit mappings length) (hlength : length ≠ 0)
    {json : String} {members : List (String × Json)} {stop : Option JsonError}
    (hvalue : serde.value json = .map members stop) (values : List Fr) :
    buildInputBuffer serde mappings length json limits = some (.ok values) ↔
      json.utf8ByteSize ≤ limits.inputJsonBytes ∧ serde.finish json = .ok () ∧ stop = none ∧
      ∃ ps, Placed mappings members ps ∧ (ps.map Placement.index).Nodup ∧
        values = ps.foldl overwrite (initialValues length) := by
  have hmap := @visitMap_ok mappings length
    ⟨initialValues length, List.replicate mappings.length false⟩ hfit members stop
    initialValues_length List.length_replicate values
  have hfree : ∀ ps, Placed mappings members ps → ∀ p ∈ ps,
      (List.replicate mappings.length false)[p.index]? = some false := by
    intro ps hps p hp
    obtain ⟨member, -, hplace⟩ := hps.mem hp
    exact List.getElem?_replicate_of_lt (place_bounds hfit hplace).1
  unfold buildInputBuffer
  by_cases hsize : json.utf8ByteSize > limits.inputJsonBytes
  · rw [if_pos hsize]
    exact ⟨fun h => (by cases h), fun h => absurd h.1 (by omega)⟩
  rw [if_neg hsize, if_neg hlength, hvalue]
  dsimp only [visit]
  rw [← initialValues]
  constructor
  · intro h
    split at h
    · cases h
    · cases h
    rename_i s hvisit
    split at h
    · cases h
    rename_i hfinish
    cases h
    obtain ⟨hstop, ps, hps, hnodup, -, hvalues⟩ := hmap.mp ⟨s.matched, hvisit⟩
    exact ⟨by omega, hfinish, hstop, ps, hps, hnodup, hvalues⟩
  · rintro ⟨-, hfinish, hstop, ps, hps, hnodup, hvalues⟩
    obtain ⟨matched, hvisit⟩ := hmap.mpr ⟨hstop, ps, hps, hnodup, hfree ps hps, hvalues⟩
    rw [hvisit, hfinish]

/-- What the buffer of an accepted object holds. -/
structure PlacedByName (mappings : List InputMapping) (length : Nat)
    (members : List (String × Json)) (values : List Fr) : Prop where
  length_eq : values.length = length
  names : (members.map fun member => fnv1a member.1).Nodup
  one : values[0]? = some 1
  zero : ∀ k, 0 < k → k < length → (∀ member ∈ members, ¬ Supplies mappings k member) →
    values[k]? = some 0
  last : ∀ before name value after, members = before ++ (name, value) :: after →
    ∀ m, mappingOf mappings name = some m → ∀ k, m.signalId ≤ k → k < m.signalId + m.signalSize →
    (∀ member ∈ after, ¬ Supplies mappings k member) →
    ∃ fields, Fields.leaves value = some fields ∧ fields.length = m.signalSize ∧
      values[k]? = fields[k - m.signalId]?

theorem getElem?_initialValues {k : Nat} (h : k < length) :
    (initialValues length)[k]? = some (if k = 0 then 1 else 0) := by
  unfold initialValues
  rw [List.getElem?_set, List.length_replicate, List.getElem?_replicate_of_lt h]
  by_cases hk : k = 0
  · rw [hk, if_pos rfl, if_pos rfl, if_pos (by omega)]
  · rw [if_neg (fun h0 => hk h0.symm), if_neg hk]

theorem Supplies.id_le {k : Nat} {member : String × Json} (htable : InputTable mappings length)
    (h : Supplies mappings k member) : 0 < k := by
  obtain ⟨m, hm, hle, -⟩ := h
  have hne := htable.id_ne m (List.mem_of_find?_eq_some hm)
  omega

theorem InputObject.Placed.bounds (hfit : MappingsFit mappings length) {members : List (String × Json)}
    {ps : List Placement} (hps : Placed mappings members ps) :
    ∀ p ∈ ps, p.start + p.values.length ≤ (initialValues length).length := by
  intro p hp
  obtain ⟨member, -, hplace⟩ := hps.mem hp
  rw [initialValues_length]
  exact (place_bounds hfit hplace).2

theorem InputObject.Placed.placedByName (htable : InputTable mappings length) {members : List (String × Json)}
    {ps : List Placement} (hps : Placed mappings members ps)
    (hnodup : (ps.map Placement.index).Nodup) :
    PlacedByName mappings length members (ps.foldl overwrite (initialValues length)) := by
  have hbounds := hps.bounds htable.within
  have huncovered : ∀ k, (∀ member ∈ members, ¬ Supplies mappings k member) →
      (ps.foldl overwrite (initialValues length))[k]? = (initialValues length)[k]? := by
    intro k hk
    refine foldl_overwrite_uncovered hbounds fun p hp hcovers => ?_
    obtain ⟨member, hmember, hplace⟩ := hps.mem hp
    exact hk member hmember ((covers_iff hplace).mp hcovers)
  constructor
  · rw [foldl_overwrite_length hbounds, initialValues_length]
  · exact hps.hashes_nodup hnodup
  · rw [huncovered 0 fun member _ h => Nat.lt_irrefl 0 (h.id_le htable),
      getElem?_initialValues (Nat.pos_of_ne_zero htable.length_ne), if_pos rfl]
  · intro k hk hlt hnone
    rw [huncovered k hnone, getElem?_initialValues hlt, if_neg (by omega)]
  · rintro before name value after rfl m hm k hle hlt hafter
    -- the placements split where the members do
    obtain ⟨psBefore, p, psAfter, rfl, hplace, hpsAfter⟩ := hps.split
    obtain ⟨m', hm', hleaves, hstart, hlength⟩ := place_mapping hplace
    obtain rfl : m = m' := Option.some.inj (hm.symm.trans hm')
    refine ⟨p.values, hleaves, hlength, ?_⟩
    rw [← hstart]
    refine foldl_overwrite_last hbounds ⟨by omega, by omega⟩ fun q hq hcovers => ?_
    obtain ⟨member, hmember, hplace⟩ := Placed.mem hpsAfter hq
    exact hafter member hmember ((covers_iff hplace).mp hcovers)

/-- The order of the members decides neither which objects are accepted nor the value of a
slot that one member supplies. Two ranges with a common slot are nested, and such a slot
holds the value of the last member. -/
theorem inputs_placed_by_name (htable : InputTable mappings length) {json json' : String}
    {members members' : List (String × Json)} {stop : Option JsonError}
    (hvalue : serde.value json = .map members stop)
    (hvalue' : serde.value json' = .map members' stop) (hperm : members.Perm members')
    (hsize : json.utf8ByteSize = json'.utf8ByteSize)
    (hfinish : serde.finish json = .ok () ↔ serde.finish json' = .ok ()) :
    (mappings.Pairwise fun m n =>
      Laminar (m.signalId, m.signalSize) (n.signalId, n.signalSize)) ∧
    ((∃ e e', buildInputBuffer serde mappings length json limits = some (.error e) ∧
        buildInputBuffer serde mappings length json' limits = some (.error e')) ∨
      ∃ values values',
        buildInputBuffer serde mappings length json limits = some (.ok values) ∧
        buildInputBuffer serde mappings length json' limits = some (.ok values') ∧
        PlacedByName mappings length members values ∧
        PlacedByName mappings length members' values' ∧
        (∀ k, SuppliedOnce mappings members k → values[k]? = values'[k]?) ∧
        ((∀ k, SuppliedOnce mappings members k) → values = values')) := by
  refine ⟨List.pairwise_map.mp (checkInputRanges_laminar htable.ranges), ?_⟩
  have hok := @buildInputBuffer_ok serde mappings length limits htable.within htable.length_ne
    json members stop hvalue
  have hok' := @buildInputBuffer_ok serde mappings length limits htable.within htable.length_ne
    json' members' stop hvalue'
  obtain ⟨r, hr, -⟩ := buildInputBuffer_returns serde htable.within htable.length_ne json limits
  obtain ⟨r', hr', -⟩ := buildInputBuffer_returns serde htable.within htable.length_ne json' limits
  cases r with
  | ok values =>
    obtain ⟨hbytes, hend, hstop, ps, hps, hnodup, rfl⟩ := (hok _).mp hr
    obtain ⟨ps', hps', hpsPerm⟩ := List.perm_comp_forall₂ hperm.symm hps
    have hnodup' : (ps'.map Placement.index).Nodup :=
      (hpsPerm.map Placement.index).nodup_iff.mpr hnodup
    have hslots : ∀ k, SuppliedOnce mappings members k →
        (ps.foldl overwrite (initialValues length))[k]? =
          (ps'.foldl overwrite (initialValues length))[k]? := fun k hk =>
      foldl_overwrite_perm hpsPerm.symm (hps.bounds htable.within) (hps.apart hk)
    refine .inr ⟨_, ps'.foldl overwrite (initialValues length), hr,
      (hok' _).mpr ⟨hsize ▸ hbytes, hfinish.mp hend, hstop, ps', hps', hnodup', rfl⟩,
      hps.placedByName htable hnodup, Placed.placedByName htable hps' hnodup', hslots,
      fun honce => List.ext_getElem? fun k => hslots k (honce k)⟩
  | error e =>
    cases r' with
    | error e' => exact .inl ⟨e, e', hr, hr'⟩
    | ok values' =>
      obtain ⟨hbytes, hend, hstop, ps', hps', hnodup', -⟩ := (hok' _).mp hr'
      obtain ⟨ps, hps, hpsPerm⟩ := List.perm_comp_forall₂ hperm hps'
      have hnodup : (ps.map Placement.index).Nodup :=
        (hpsPerm.map Placement.index).nodup_iff.mpr hnodup'
      have haccepted := (hok _).mpr ⟨hsize ▸ hbytes, hfinish.mpr hend, hstop, ps, hps, hnodup, rfl⟩
      rw [hr] at haccepted
      cases haccepted

end Buffer

/-! ### A bus and one of its fields -/

def nestedMappings : List InputMapping := [⟨fnv1a "bus", 1, 2⟩, ⟨fnv1a "bus.a", 1, 1⟩]

def nestedMembers : List (String × Json) :=
  [("bus", .seq [.u64 5, .u64 6] none), ("bus.a", .u64 7)]

/-- Reads the object in the order of its two members. -/
def nestedReader : SerdeJson where
  value json :=
    if json = "\x7b\"bus\":[5,6],\"bus.a\":7\x7d" then .map nestedMembers none
    else .map nestedMembers.reverse none
  finish _ := .ok ()

theorem nested_computed : (nestedMappings.map InputMapping.hash).Nodup ∧
    buildInputBuffer nestedReader nestedMappings 3
      "\x7b\"bus\":[5,6],\"bus.a\":7\x7d" .client = some (.ok [1, 7, 6]) ∧
    buildInputBuffer nestedReader nestedMappings 3
      "\x7b\"bus.a\":7,\"bus\":[5,6]\x7d" .client = some (.ok [1, 5, 6]) ∧
    mappingOf nestedMappings "bus" = some ⟨fnv1a "bus", 1, 2⟩ ∧
    mappingOf nestedMappings "bus.a" = some ⟨fnv1a "bus.a", 1, 1⟩ := by
  decide +kernel

theorem nestedMappings_table : InputTable nestedMappings 3 where
  length_ne := by decide
  hashes := nested_computed.1
  id_ne := by decide
  size_ne := by decide
  within := by
    unfold MappingsFit
    decide
  ranges := by
    have hsorted := @List.mergeSort_of_pairwise _ rangeBefore [(0, 1, 2), (1, 1, 1)] (by decide)
    exact (congrArg (fun order => scanRanges order []) hsorted).trans rfl

theorem nestedReader_parent :
    nestedReader.value "\x7b\"bus\":[5,6],\"bus.a\":7\x7d" = .map nestedMembers none := by
  simp [nestedReader]

theorem nestedReader_field :
    nestedReader.value "\x7b\"bus.a\":7,\"bus\":[5,6]\x7d" = .map nestedMembers.reverse none := by
  simp [nestedReader]

theorem inputs_placed_by_name_example : PlacedByName nestedMappings 3 nestedMembers [1, 7, 6] := by
  have hbuffer := nested_computed.2.1
  obtain ⟨-, ⟨e, -, herror, -⟩ | ⟨values, -, hvalues, -, hplaced, -⟩⟩ :=
    @inputs_placed_by_name _ _ _ .client nestedMappings_table _ _ _ _ _ nestedReader_parent
      nestedReader_field nestedMembers.reverse_perm.symm (by decide) Iff.rfl
  · cases herror.symm.trans hbuffer
  · cases hvalues.symm.trans hbuffer
    exact hplaced

theorem parent_and_field_collide : ∃ (serde : SerdeJson) (mappings : List InputMapping)
    (members members' : List (String × Json)) (json json' : String),
    InputTable mappings 3 ∧ serde.value json = .map members none ∧
      serde.value json' = .map members' none ∧ members.Perm members' ∧
      json.utf8ByteSize = json'.utf8ByteSize ∧ serde.finish json = serde.finish json' ∧
      buildInputBuffer serde mappings 3 json .client = some (.ok [1, 7, 6]) ∧
      buildInputBuffer serde mappings 3 json' .client = some (.ok [1, 5, 6]) ∧
      ¬ SuppliedOnce mappings members 1 := by
  obtain ⟨-, hforward, hbackward, hbus, hfield⟩ := nested_computed
  refine ⟨nestedReader, nestedMappings, nestedMembers, nestedMembers.reverse, _, _,
    nestedMappings_table, nestedReader_parent, nestedReader_field,
    nestedMembers.reverse_perm.symm, by decide, rfl, hforward, hbackward, ?_⟩
  intro honce
  refine (List.pairwise_cons.mp honce).1 ("bus.a", .u64 7) List.mem_cons_self ⟨?_, ?_⟩
  · exact ⟨⟨fnv1a "bus", 1, 2⟩, hbus, by decide, by decide⟩
  · exact ⟨⟨fnv1a "bus.a", 1, 1⟩, hfield, by decide, by decide⟩

end Curvy.Witness
