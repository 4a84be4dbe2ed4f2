import Mathlib.Algebra.Ring.Nat
import Mathlib.Data.List.Forall2
import Mathlib.Data.List.Induction
import Mathlib.Tactic.Common

/-!
# Rows stored one behind the other

Elements are sorted into rows by a key, each row in the order of arrival. A table holds the
rows in one list with the offsets where they start. It is filled through one cursor a row.
-/

set_option autoImplicit false

namespace Csr

variable {α β : Type}

/-! ### Rows by key -/

/-- The values of the elements with key 0, 1 and so on below `n`. -/
def bucket (key : α → Nat) (value : α → β) (n : Nat) (xs : List α) : List (List β) :=
  (List.range n).map fun row => (xs.filter fun x => key x = row).map value

section Bucket

variable {key : α → Nat} {value : α → β} {n : Nat}

@[simp] theorem bucket_length (xs : List α) : (bucket key value n xs).length = n := by
  rw [bucket, List.length_map, List.length_range]

theorem getElem?_bucket {xs : List α} {row : Nat} (h : row < n) :
    (bucket key value n xs)[row]? = some ((xs.filter fun x => key x = row).map value) := by
  rw [bucket, List.getElem?_map, List.getElem?_range h, Option.map_some]

theorem bucket_nil : bucket key value n [] = List.replicate n [] := by
  simp [bucket]

/-- A new element goes to the end of its row. -/
theorem bucket_concat (xs : List α) (x : α) : bucket key value n (xs ++ [x]) =
    (bucket key value n xs).modify (key x) fun row => row ++ [value x] := by
  refine List.ext_getElem? fun row => ?_
  rw [List.getElem?_modify]
  by_cases hrow : row < n
  · rw [getElem?_bucket hrow, getElem?_bucket hrow, List.filter_append]
    by_cases hkey : key x = row
    · simp [hkey]
    · simp [hkey]
  · rw [List.getElem?_eq_none (by rw [bucket_length]; omega),
      List.getElem?_eq_none (by rw [bucket_length]; omega)]
    rfl

theorem take_bucket {k : Nat} (h : k ≤ n) (xs : List α) :
    (bucket key value n xs).take k = bucket key value k xs := by
  rw [bucket, bucket, ← List.map_take, List.take_range, Nat.min_eq_left h]

theorem sum_modify_le (rows : List (List β)) (r : Nat) (v : β) :
    ((rows.modify r (· ++ [v])).map List.length).sum ≤ (rows.map List.length).sum + 1 := by
  induction rows generalizing r with
  | nil => rw [List.modify_nil]; exact Nat.le_succ _
  | cons row rows ih =>
    cases r with
    | zero =>
      rw [List.modify_zero_cons, List.map_cons, List.map_cons, List.sum_cons, List.sum_cons,
        List.length_append, List.length_singleton]
      omega
    | succ r =>
      have htail := ih r
      rw [List.modify_succ_cons, List.map_cons, List.map_cons, List.sum_cons, List.sum_cons]
      omega

theorem sum_bucket_le (xs : List α) : ((bucket key value n xs).map List.length).sum ≤ xs.length := by
  induction xs using List.reverseRecOn with
  | nil => simp [bucket_nil]
  | append_singleton xs x ih =>
    have hstep := sum_modify_le (bucket key value n xs) (key x) (value x)
    rw [bucket_concat, List.length_append, List.length_singleton]
    omega

end Bucket

/-! ### Offsets -/

/-- Where rows of these lengths start behind `base`, and where the last one ends. -/
def offsets (base : Nat) (lengths : List Nat) : List Nat := lengths.scanl (· + ·) base

@[simp] theorem offsets_nil (base : Nat) : offsets base [] = [base] := List.scanl_nil

@[simp] theorem offsets_cons (base length : Nat) (lengths : List Nat) :
    offsets base (length :: lengths) = base :: offsets (base + length) lengths := List.scanl_cons

@[simp] theorem offsets_length (base : Nat) (lengths : List Nat) :
    (offsets base lengths).length = lengths.length + 1 := List.length_scanl

theorem offsets_cons_tail (base : Nat) (lengths : List Nat) :
    offsets base lengths = base :: (offsets base lengths).tail := by
  cases lengths with
  | nil => rw [offsets_nil, List.tail_cons]
  | cons length lengths => rw [offsets_cons, List.tail_cons]

theorem offsets_getLast? (base : Nat) (lengths : List Nat) :
    (offsets base lengths).getLast? = some (base + lengths.sum) := by
  induction lengths generalizing base with
  | nil => rw [offsets_nil, List.sum_nil]; rfl
  | cons length lengths ih =>
    rw [offsets_cons, offsets_cons_tail, List.getLast?_cons_cons, ← offsets_cons_tail, ih,
      List.sum_cons, Nat.add_assoc]

theorem offsets_pairwise (base : Nat) (lengths : List Nat) :
    (offsets base lengths).Pairwise (· ≤ ·) ∧ ∀ offset ∈ offsets base lengths, base ≤ offset := by
  induction lengths generalizing base with
  | nil =>
    rw [offsets_nil]
    exact ⟨List.pairwise_singleton _ _, fun offset h => Nat.le_of_eq (List.mem_singleton.mp h).symm⟩
  | cons length lengths ih =>
    obtain ⟨hpairs, hbase⟩ := ih (base + length)
    rw [offsets_cons]
    have hlater : ∀ offset ∈ offsets (base + length) lengths, base ≤ offset :=
      fun offset h => Nat.le_trans (Nat.le_add_right base length) (hbase offset h)
    exact ⟨List.pairwise_cons.mpr ⟨hlater, hpairs⟩, List.forall_mem_cons.mpr ⟨Nat.le_refl base, hlater⟩⟩

/-- The slice between two offsets is the row. -/
theorem slice_flatten {rows : List (List α)} {r : Nat} {row : List α} (h : rows[r]? = some row)
    (base : Nat) : ∃ start, (offsets base (rows.map List.length))[r]? = some (base + start) ∧
      (offsets base (rows.map List.length))[r + 1]? = some (base + start + row.length) ∧
      start + row.length ≤ rows.flatten.length ∧
      (rows.flatten.drop start).take row.length = row := by
  induction rows generalizing r base with
  | nil => cases h
  | cons first rows ih =>
    rw [List.map_cons, offsets_cons, List.flatten_cons, List.length_append]
    cases r with
    | zero =>
      obtain rfl : first = row := Option.some.inj h
      refine ⟨0, rfl, ?_, by omega, ?_⟩
      · rw [List.getElem?_cons_succ, offsets_cons_tail]
        rfl
      · rw [List.drop_zero, List.take_left]
    | succ r =>
      obtain ⟨start, hstart, hend, hle, hslice⟩ := ih h (base + first.length)
      refine ⟨first.length + start, ?_, ?_, by omega, ?_⟩
      · rw [List.getElem?_cons_succ, hstart, Nat.add_assoc]
      · rw [List.getElem?_cons_succ, hend, Nat.add_assoc base]
      · rw [List.drop_append, List.drop_eq_nil_of_le (Nat.le_add_right _ _), List.nil_append,
          Nat.add_sub_cancel_left]
        exact hslice

/-! ### Filling -/

/-- The next free slot of every row. -/
def cursors (base : Nat) : List Nat → List (List α) → List Nat
  | length :: lengths, row :: rows => (base + row.length) :: cursors (base + length) lengths rows
  | _, _ => []

/-- Rows that are not complete, filled up with `d`. -/
def padded (d : α) : List Nat → List (List α) → List α
  | length :: lengths, row :: rows =>
    row ++ List.replicate (length - row.length) d ++ padded d lengths rows
  | _, _ => []

/-- No row is longer than planned. -/
abbrev Fits (lengths : List Nat) (rows : List (List α)) : Prop :=
  List.Forall₂ (fun length row => row.length ≤ length) lengths rows

theorem fits_cons {length : Nat} {lengths : List Nat} {row : List α} {rows : List (List α)} :
    Fits (length :: lengths) (row :: rows) ↔ row.length ≤ length ∧ Fits lengths rows :=
  List.forall₂_cons

variable {lengths : List Nat} {rows : List (List α)} {d : α}

theorem fits_empty (lengths : List Nat) :
    Fits lengths (List.replicate lengths.length ([] : List α)) := by
  induction lengths with
  | nil => exact .nil
  | cons length lengths ih => exact .cons (Nat.zero_le length) ih

theorem fits_lengths (rows : List (List α)) : Fits (rows.map List.length) rows := by
  induction rows with
  | nil => exact .nil
  | cons row rows ih => exact .cons (Nat.le_refl _) ih

theorem cursors_empty (base : Nat) (lengths : List Nat) :
    cursors base lengths (List.replicate lengths.length ([] : List α)) =
      (offsets base lengths).dropLast := by
  induction lengths generalizing base with
  | nil => rw [offsets_nil]; rfl
  | cons length lengths ih =>
    rw [List.length_cons, List.replicate_succ, cursors, ih, offsets_cons, offsets_cons_tail,
      List.dropLast_cons_cons, ← offsets_cons_tail]
    rfl

theorem padded_empty (d : α) (lengths : List Nat) :
    padded d lengths (List.replicate lengths.length []) = List.replicate lengths.sum d := by
  induction lengths with
  | nil => rfl
  | cons length lengths ih =>
    rw [List.length_cons, List.replicate_succ, padded, ih, List.sum_cons, List.replicate_add]
    rfl

theorem Fits.padded_length (h : Fits lengths rows) :
    (padded d lengths rows).length = lengths.sum := by
  induction h with
  | nil => rfl
  | cons hle _ ih =>
    rw [padded, List.length_append, List.length_append, List.length_replicate, ih, List.sum_cons]
    omega

/-- What one more value for a row does, with the row's cursor at `position` and its end at
`limit`. -/
structure Accepts (base : Nat) (d : α) (lengths : List Nat) (rows : List (List α)) (r : Nat)
    (position limit : Nat) (v : α) : Prop where
  fits : position < limit ↔ Fits lengths (rows.modify r (· ++ [v]))
  cursors : (cursors base lengths rows).set r (position + 1) =
    cursors base lengths (rows.modify r (· ++ [v]))
  slots : position < limit → (padded d lengths rows).set (position - base) v =
    padded d lengths (rows.modify r (· ++ [v]))

theorem Fits.accepts (h : Fits lengths rows) {r : Nat} (hr : r < lengths.length) (base : Nat) :
    ∃ position limit, (cursors base lengths rows)[r]? = some position ∧
      (offsets base lengths).tail[r]? = some limit ∧ base ≤ position ∧
      limit ≤ base + lengths.sum ∧ ∀ v, Accepts base d lengths rows r position limit v := by
  induction h generalizing r base with
  | nil => exact absurd hr (Nat.not_lt_zero r)
  | @cons length row lengths rows hle hrest ih =>
    rw [cursors, offsets_cons, List.tail_cons, List.sum_cons]
    cases r with
    | zero =>
      refine ⟨base + row.length, base + length, rfl, ?_, by omega, by omega, fun v => ⟨?_, ?_, ?_⟩⟩
      · rw [offsets_cons_tail]
        rfl
      · rw [List.modify_zero_cons, fits_cons, List.length_append, List.length_singleton]
        constructor
        · exact fun hlt => ⟨by omega, hrest⟩
        · exact fun hfits => by omega
      · rw [List.modify_zero_cons, Csr.cursors, Csr.cursors, List.set_cons_zero,
          List.length_append, List.length_singleton, Nat.add_assoc]
      · intro hlt
        obtain ⟨room, hroom⟩ : ∃ room, length - row.length = room + 1 :=
          ⟨length - row.length - 1, by omega⟩
        have hnext : length - (row ++ [v]).length = room := by
          rw [List.length_append, List.length_singleton]
          omega
        rw [List.modify_zero_cons, padded, padded, hnext, hroom, Nat.add_sub_cancel_left,
          List.append_assoc, List.set_append_right _ _ (Nat.le_refl _), Nat.sub_self,
          List.replicate_succ, List.cons_append, List.set_cons_zero, List.append_assoc row,
          List.append_assoc row]
        rfl
    | succ r =>
      obtain ⟨position, limit, hposition, hlimit, hbase, hle', haccepts⟩ :=
        ih (Nat.lt_of_succ_lt_succ hr) (base + length)
      refine ⟨position, limit, hposition, ?_, by omega, by omega, fun v => ⟨?_, ?_, ?_⟩⟩
      · rw [offsets_cons_tail, List.getElem?_cons_succ]
        exact hlimit
      · rw [List.modify_succ_cons, fits_cons, (haccepts v).fits]
        exact (and_iff_right hle).symm
      · rw [List.modify_succ_cons, Csr.cursors, Csr.cursors, List.set_cons_succ,
          (haccepts v).cursors]
      · intro hlt
        have hfirst : (row ++ List.replicate (length - row.length) d).length = length := by
          rw [List.length_append, List.length_replicate]
          omega
        rw [List.modify_succ_cons, padded, padded, ← (haccepts v).slots hlt,
          List.set_append_right _ _ (by omega), hfirst, Nat.sub_sub]

theorem Fits.of_modify {r : Nat} {v : α} (h : Fits lengths (rows.modify r (· ++ [v]))) :
    Fits lengths rows := by
  induction lengths generalizing rows r with
  | nil =>
    have hempty := List.forall₂_nil_left_iff.mp h
    rw [List.modify_eq_nil_iff] at hempty
    rw [hempty]
    exact .nil
  | cons length lengths ih =>
    cases rows with
    | nil => rwa [List.modify_nil] at h
    | cons row rows =>
      cases r with
      | zero =>
        rw [List.modify_zero_cons, fits_cons, List.length_append] at h
        exact fits_cons.mpr ⟨by omega, h.2⟩
      | succ r =>
        rw [List.modify_succ_cons, fits_cons] at h
        exact fits_cons.mpr ⟨h.1, ih h.2⟩

/-- The cursors are at the ends exactly when every row is as long as planned. -/
theorem Fits.complete (h : Fits lengths rows) (base : Nat) :
    cursors base lengths rows = (offsets base lengths).tail ↔ rows.map List.length = lengths := by
  induction h generalizing base with
  | nil => simp [cursors]
  | @cons length row lengths rows hle _ ih =>
    rw [cursors, offsets_cons, List.tail_cons, offsets_cons_tail, List.cons.injEq, ih,
      List.map_cons, List.cons.injEq, Nat.add_left_cancel_iff]

theorem padded_complete (d : α) (rows : List (List α)) :
    padded d (rows.map List.length) rows = rows.flatten := by
  induction rows with
  | nil => rfl
  | cons row rows ih =>
    rw [List.map_cons, padded, ih, Nat.sub_self, List.replicate_zero, List.append_nil,
      List.flatten_cons]

end Csr
