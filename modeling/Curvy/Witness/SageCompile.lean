import Curvy.Lib.SlotAlloc
import Curvy.Witness.Decoding

/-!
# The compiler's two passes

Pass one computes the last use of every node. Pass two keeps the invariant of slot
allocation for it, so none of its self-checks fires: it fails exactly where the resident
parser refuses a constant. Every instruction is related to the node it was compiled from.
-/

namespace Curvy.Witness.Sage

set_option autoImplicit false

open SlotAlloc

/-! ## Checked accesses -/

section Access

variable {α : Type} {values : List α} {i : Nat}

theorem getAt_ok {a : α} (what : String) (h : values[i]? = some a) :
    getAt values i what = .ok a := by simp [getAt, h]

theorem getAt_lt (what : String) (d : α) (h : i < values.length) :
    getAt values i what = .ok (values.getD i d) :=
  getAt_ok what (by simp [h])

theorem setAt_lt (what : String) (a : α) (h : i < values.length) :
    setAt values i a what = .ok (values.set i a) := by simp [setAt, List.put_of_lt h]

theorem indexU32_lt {value : Nat} (what : String) (h : value < 2 ^ 32) :
    indexU32 value what = .ok value := if_pos h

theorem asU32_lt {value : Nat} (h : value < 2 ^ 32) : asU32 value = value := Nat.mod_eq_of_lt h

theorem getD_set_eq_update (values : List α) (a d : α) (h : i < values.length) :
    (fun j => (values.set i a).getD j d) = Function.update (fun j => values.getD j d) i a := by
  funext j
  rw [Function.update_apply, List.getD_eq_getElem?_getD, List.getElem?_set,
    List.getD_eq_getElem?_getD]
  by_cases hj : j = i
  · simp [hj, h]
  · simp [hj, Ne.symm hj]

theorem getD_append_eq_update (values : List α) (a d : α) :
    (fun j => (values ++ [a]).getD j d) =
      Function.update (fun j => values.getD j d) values.length a := by
  funext j
  rw [Function.update_apply, List.getD_eq_getElem?_getD, List.getD_eq_getElem?_getD]
  rcases Nat.lt_trichotomy j values.length with hj | hj | hj
  · rw [List.getElem?_append_left hj, if_neg (by omega)]
  · simp [hj]
  · rw [List.getElem?_eq_none (by rw [List.length_append, List.length_singleton]; omega),
      List.getElem?_eq_none (by omega), if_neg (by omega)]

end Access

/-! ## Pass one -/

def chargeAll (records : List NodeRecord) (meter : CostMeter) : Except WitnessError CostMeter :=
  records.foldlM CostMeter.chargeRecord meter

/-- The liveness table after record `index`. -/
def markRecord (index : Nat) (lastUse : List Nat) : NodeRecord → List Nat
  | .operation _ left right => (lastUse.set left index).set right index
  | .inverse source => lastUse.set source index
  | .input _ | .constant _ => lastUse

def markRecords : Nat → List NodeRecord → List Nat → List Nat
  | _, [], lastUse => lastUse
  | index, record :: records, lastUse =>
    markRecords (index + 1) records (markRecord index lastUse record)

theorem markRecord_length (index : Nat) (lastUse : List Nat) (record : NodeRecord) :
    (markRecord index lastUse record).length = lastUse.length := by
  cases record <;> simp [markRecord]

theorem markRecords_length (index : Nat) (records : List NodeRecord) (lastUse : List Nat) :
    (markRecords index records lastUse).length = lastUse.length := by
  induction records generalizing index lastUse with
  | nil => rfl
  | cons record records ih => rw [markRecords, ih, markRecord_length]

theorem markStep_eq {inputLen index : Nat} {record : NodeRecord} {lastUse : List Nat}
    (hvalid : record.Valid inputLen index) (hlen : index < lastUse.length)
    (hbits : lastUse.length < 2 ^ 32) (meter : CostMeter) :
    markStep index record (lastUse, meter) = (do
      let meter ← meter.chargeRecord record
      return (markRecord index lastUse record, meter)) := by
  have hindex : asU32 index = index := asU32_lt (by omega)
  unfold markStep
  cases record with
  | input i => rfl
  | constant encoded => rfl
  | operation op left right =>
    have hleft := hvalid.earlier left (.inl rfl)
    have hright := hvalid.earlier right (.inr rfl)
    have hmark : mark index left lastUse = .ok (lastUse.set left index) := by
      rw [mark, hindex, setAt_lt _ _ (by omega)]
    have hmark' : mark index right (lastUse.set left index) =
        .ok ((lastUse.set left index).set right index) := by
      rw [mark, hindex, setAt_lt _ _ (by rw [List.length_set]; omega)]
    cases meter.chargeRecord (.operation op left right) with
    | error e => rfl
    | ok meter' =>
      change (mark index left lastUse >>= fun l => mark index right l >>= fun l =>
        pure (l, meter')) = _
      rw [hmark, Fallible.ok_bind, hmark']
      rfl
  | inverse source =>
    have hsource := hvalid.earlier source rfl
    have hmark : mark index source lastUse = .ok (lastUse.set source index) := by
      rw [mark, hindex, setAt_lt _ _ (by omega)]
    simp only [hmark]
    rfl

/-- Pass one charges the records and otherwise never fails. -/
theorem foldRecords_mark {inputLen index : Nat} {records : List NodeRecord} {lastUse : List Nat}
    (hground : Grounded inputLen index records)
    (hlen : index + records.length = lastUse.length) (hbits : lastUse.length < 2 ^ 32)
    (meter : CostMeter) :
    foldRecords markStep index records (lastUse, meter) = (do
      let meter ← chargeAll records meter
      return (markRecords index records lastUse, meter)) := by
  induction records generalizing index lastUse meter with
  | nil => rfl
  | cons record records ih =>
    obtain ⟨hvalid, hground⟩ := hground
    rw [List.length_cons] at hlen
    rw [foldRecords, markStep_eq hvalid (by omega) hbits, chargeAll, List.foldlM_cons]
    cases hcharge : meter.chargeRecord record with
    | error e => rfl
    | ok meter' =>
      exact ih hground (by rw [markRecord_length]; omega) (by rwa [markRecord_length]) meter'

/-- The reads of instruction `i` of a program. -/
def readsOf (records : List NodeRecord) (i : Nat) : Set Nat :=
  (records[i]?.map NodeRecord.reads).getD ∅

/-- The table as a function; an index beyond it is its own last use. -/
def useOf (lastUse : List Nat) (j : Nat) : Nat := lastUse.getD j j

theorem useOf_set {lastUse : List Nat} {i : Nat} (h : i < lastUse.length) (v j : Nat) :
    useOf (lastUse.set i v) j = if j = i then v else useOf lastUse j := by
  unfold useOf
  rw [List.getD_eq_getElem?_getD, List.getElem?_set, List.getD_eq_getElem?_getD]
  by_cases hj : j = i
  · simp [hj, h]
  · simp [hj, Ne.symm hj]

theorem useOf_markRecord {inputLen index : Nat} {record : NodeRecord} {lastUse : List Nat}
    (hvalid : record.Valid inputLen index) (hlen : index < lastUse.length) (j : Nat) :
    (j ∈ record.reads → useOf (markRecord index lastUse record) j = index) ∧
      (j ∉ record.reads → useOf (markRecord index lastUse record) j = useOf lastUse j) := by
  cases record with
  | input i => exact ⟨fun h => h.elim, fun _ => rfl⟩
  | constant encoded => exact ⟨fun h => h.elim, fun _ => rfl⟩
  | operation op left right =>
    have hleft := hvalid.earlier left (.inl rfl)
    have hright := hvalid.earlier right (.inr rfl)
    have huse : useOf (markRecord index lastUse (.operation op left right)) j =
        if j = right then index else if j = left then index else useOf lastUse j := by
      rw [markRecord, useOf_set (by rw [List.length_set]; omega), useOf_set (by omega)]
    rw [huse]
    constructor
    · rintro (rfl | rfl) <;> simp
    · intro hnot
      have hne : j ≠ left ∧ j ≠ right := by simpa [NodeRecord.reads] using hnot
      rw [if_neg hne.2, if_neg hne.1]
  | inverse source =>
    have hsource := hvalid.earlier source rfl
    rw [markRecord, useOf_set (by omega)]
    constructor
    · rintro rfl
      simp
    · intro hnot
      rw [if_neg (by simpa [NodeRecord.reads] using hnot)]

theorem lastUse_markRecords {inputLen : Nat} {records : List NodeRecord} :
    ∀ (rest done : List NodeRecord) {lastUse : List Nat}, records = done ++ rest →
      Grounded inputLen done.length rest → lastUse.length = records.length →
      LastUse (readsOf records) done.length (useOf lastUse) →
      LastUse (readsOf records) records.length (useOf (markRecords done.length rest lastUse)) := by
  intro rest
  induction rest with
  | nil =>
    intro done lastUse hsplit _ _ huse
    rw [List.append_nil] at hsplit
    rw [hsplit] at huse ⊢
    exact huse
  | cons record rest ih =>
    intro done lastUse hsplit hground hlen huse
    obtain ⟨hvalid, hground⟩ := hground
    have hlt : done.length < lastUse.length := by simp [hlen, hsplit]
    have hreads : readsOf records done.length = record.reads := by simp [readsOf, hsplit]
    have hstep : LastUse (readsOf records) (done ++ [record]).length
        (useOf (markRecord done.length lastUse record)) := by
      rw [List.length_append, List.length_singleton]
      apply huse.mark
      · rw [hreads]
        exact hvalid.earlier
      · rw [hreads]
        exact fun j => (useOf_markRecord hvalid hlt j).1
      · rw [hreads]
        exact fun j => (useOf_markRecord hvalid hlt j).2
    have := ih (done ++ [record]) (by simp [hsplit])
      (by rw [List.length_append]; exact hground) (by rw [markRecord_length, hlen]) hstep
    rwa [List.length_append] at this

theorem useOf_range (n : Nat) : useOf (List.range n) = id := by
  funext j
  unfold useOf
  by_cases h : j < n
  · simp [h]
  · simp [Nat.le_of_not_lt h]

/-- Pass one fails only on account of the artifact. -/
theorem markPass_reads {header : Header} (hsized : header.Sized) (meter : CostMeter) :
    Reads (forRecords header markStep header.nodeCount 0
      ((List.range header.nodeCount).map asU32, meter)) fun s => s.1.length = header.nodeCount := by
  have hbits := hsized.nodes
  apply forRecords_reads
  · intro i record s hi hvalid hs
    rw [markStep_eq hvalid (by omega) (by omega)]
    refine (charge_checked s.2 _).bind fun meter' _ => .ok ?_
    rw [markRecord_length, hs]
  · simp

theorem range_map_asU32 {n : Nat} (h : n < 2 ^ 32) : (List.range n).map asU32 = List.range n := by
  rw [← List.map_id (List.range n), List.map_map]
  apply List.map_congr_left
  intro i hi
  exact asU32_lt (Nat.lt_trans (List.mem_range.mp hi) h)

end Curvy.Witness.Sage
