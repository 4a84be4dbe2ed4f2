import Curvy.Prover.ZkeySweeps

/-!
# The parsers agree

On the same bytes both parsers accept the same sections and build the same rows. When the
second sweep reads other bytes, the compact parser accepts them only if every row keeps its
length, and the matrices are those of the second sweep.
-/

namespace Curvy.Prover.ZkeyMatrices

set_option autoImplicit false

open Decoder Csr
open Witness (Fr frModulus)

/-! ### Compact matrices of rows -/

namespace CompactMatrix

def ofRows (rows : Matrix) : CompactMatrix where
  rowOffsets := offsets 0 (rows.map List.length)
  coefficients := rows.flatten.map Prod.fst
  signals := rows.flatten.map Prod.snd

/-- The offsets fit the entries, and every row reads as given. -/
structure Holds (m : CompactMatrix) (rows : Matrix) : Prop where
  offsets_length : m.rowOffsets.length = rows.length + 1
  first : m.rowOffsets.head? = some 0
  monotone : m.rowOffsets.Pairwise (· ≤ ·)
  last : m.rowOffsets.getLast? = some m.coefficients.length
  signals_length : m.signals.length = m.coefficients.length
  toArkworks : m.toArkworks = some rows
  evaluate : ∀ row entries, rows[row]? = some entries → ∀ assignment,
    m.evaluateRow row assignment = evaluateChecked entries assignment

theorem slices_ofRows {rows : Matrix} {row : Nat} {entries : List (Fr × Nat)}
    (h : rows[row]? = some entries) : (ofRows rows).slices row = some entries := by
  obtain ⟨start, hstart, hstop, hle, hslice⟩ := slice_flatten h 0
  rw [Nat.zero_add] at hstart hstop
  unfold slices ofRows
  simp only [hstart, hstop, Option.bind_eq_bind, Option.bind_some, List.length_map]
  rw [if_pos ⟨by omega, hle, hle⟩, Nat.add_sub_cancel_left, ← List.map_drop, ← List.map_take,
    ← List.map_drop, ← List.map_take, hslice, List.zip_map', List.map_id'']
  · rfl
  · exact fun _ => rfl

theorem mapM_range {α : Type} {f : Nat → Option α} {l : List α}
    (h : ∀ i a, l[i]? = some a → f i = some a) : (List.range l.length).mapM f = some l := by
  induction l using List.reverseRecOn with
  | nil => rfl
  | append_singleton l a ih =>
    have hinit := ih fun i b hb => h i b (by
      rw [List.getElem?_append_left (List.getElem?_eq_some_iff.mp hb).1]
      exact hb)
    have hlast : f l.length = some a := h _ _ List.getElem?_concat_length
    rw [List.length_append, List.length_singleton, List.range_succ, List.mapM_append, hinit]
    simp [hlast]

theorem ofRows_holds (rows : Matrix) : (ofRows rows).Holds rows where
  offsets_length := by rw [ofRows, offsets_length, List.length_map]
  first := by rw [ofRows, offsets_cons_tail, List.head?_cons]
  monotone := (offsets_pairwise 0 _).1
  last := by rw [ofRows, offsets_getLast?, Nat.zero_add, List.length_map, List.length_flatten]
  signals_length := by rw [ofRows, List.length_map, List.length_map]
  toArkworks := by
    have hrows : (ofRows rows).numRows = rows.length := by
      rw [numRows, ofRows, offsets_length, List.length_map, Nat.add_sub_cancel]
    rw [CompactMatrix.toArkworks, hrows]
    exact mapM_range fun _ _ h => slices_ofRows h
  evaluate row entries h assignment := by
    unfold evaluateRow evaluateChecked
    rw [slices_ofRows h, Option.bind_eq_bind, Option.bind_some]
    refine congrArg (fun step => List.foldlM step 0 entries) ?_
    funext sum cell
    obtain ⟨coefficient, signal⟩ := cell
    dsimp only
    cases assignment[signal]? <;> rfl

theorem Holds.fromParts {m : CompactMatrix} {rows : Matrix} (h : m.Holds rows) :
    CompactMatrix.fromParts m.rowOffsets m.coefficients m.signals = .ok m := by
  rw [CompactMatrix.fromParts, Panic.require, if_pos h.signals_length.symm, Fallible.ok_bind,
    h.last, Panic.require, if_pos (Option.getD_some ..), Fallible.ok_bind]
  rfl

end CompactMatrix

/-! ### Constraints -/

section Constraints

variable {header : HeaderGroth} {records : List Record} {n : Nat}

theorem maxOf_lt {bound : Nat} (h : ∀ r ∈ records, r.entry.constraint < bound) {index : Nat}
    (hmax : maxOf records = some index) : index < bound := by
  induction records using List.reverseRecOn generalizing index with
  | nil => cases hmax
  | append_singleton records r ih =>
    have hr := h r (List.mem_append_right _ (List.mem_singleton_self r))
    rw [maxOf_concat, maxIndex] at hmax
    cases hrest : maxOf records with
    | none =>
      rw [hrest] at hmax
      cases hmax
      exact hr
    | some current =>
      have hcurrent := ih (fun s hs => h s (List.mem_append_left _ hs)) hrest
      rw [hrest] at hmax
      cases hmax
      exact Nat.max_lt.mpr ⟨hcurrent, hr⟩

theorem constraintCount_ok {current : Option Nat} : constraintCount header current = .ok n ↔
    ∃ index, current = some index ∧ header.nPublic % 2 ^ 32 ≤ index ∧
      n = index - header.nPublic % 2 ^ 32 := by
  unfold constraintCount checkedSub
  cases current with
  | none => exact ⟨fun h => (by cases h), fun ⟨_, h, _⟩ => (by cases h)⟩
  | some index =>
    rw [someOr, Fallible.ok_bind]
    split
    · rename_i hle
      constructor
      · intro h
        cases h
        exact ⟨index, rfl, hle, rfl⟩
      · rintro ⟨_, hindex, -, rfl⟩
        cases hindex
        rfl
    · rename_i hlt
      constructor
      · exact fun h => (by cases h)
      · rintro ⟨_, hindex, hle, -⟩
        cases hindex
        exact absurd hle hlt

theorem constraintCount_safe (current : Option Nat) :
    constraintCount header current ≠ .error .panic := by
  unfold constraintCount checkedSub
  cases current with
  | none => exact fun h => (by cases h)
  | some index =>
    rw [someOr, Fallible.ok_bind]
    split <;> exact fun h => (by cases h)

/-- The constraints are among the rows. -/
theorem constraintCount_le (hadmitted : ∀ r ∈ records, r.Admitted header)
    (h : constraintCount header (maxOf records) = .ok n) : n ≤ header.domainSize := by
  obtain ⟨index, hindex, -, rfl⟩ := constraintCount_ok.mp h
  have hlt := maxOf_lt (fun r hr => (hadmitted r hr).entry.constraint_lt) hindex
  omega

end Constraints

/-! ### The nested rows -/

section Nested

variable {usize : Nat} {ending : IoError} {header : HeaderGroth} {sectionSize : Nat}

def nestedMatrices (header : HeaderGroth) (n : Nat) (records : List Record) : Matrices Matrix where
  numInstanceVariables := header.nPublic + 1
  numConstraints := n
  matrices := Matrices.both (rowsOf records n) ++ [[]]

theorem sectionBytes_eq {count : Nat} :
    (checked usize (count * 44)).bind (fun bytes => checked usize (bytes + 4)) = some sectionSize ↔
      count * coefficientBytes + 4 < usize ∧ sectionSize = count * coefficientBytes + 4 := by
  unfold checked coefficientBytes fieldBytes
  by_cases hmul : count * 44 < usize
  · rw [if_pos hmul, Option.bind_some]
    split
    · rw [Option.some.injEq]
      omega
    · constructor
      · exact fun h => (by cases h)
      · omega
  · rw [if_neg hmul]
    constructor
    · exact fun h => (by cases h)
    · omega

theorem computes_parseMatrices : Computes (parseMatrices usize ending header sectionSize)
    fun piece m => ∃ records n, Spells usize header sectionSize records piece ∧
      (∀ r ∈ records, r.Canonical) ∧ constraintCount header (maxOf records) = .ok n ∧
      m = nestedMatrices header n records := by
  unfold parseMatrices
  refine ((computes_readU32 ending).bind fun _ count _ => Computes.refuse
    fun (_ : ¬ (checked usize (count * 44)).bind (fun bytes => checked usize (bytes + 4)) ≠
        some sectionSize) => (computes_nested count).bind fun _ s _ =>
      Computes.call (constraintCount_safe s.maxConstraintIndex) fun n _ =>
        Computes.pure (Matrices.mk (header.nPublic + 1) n
          [(s.matrices 0).take n, (s.matrices 1).take n, []])).congr ?_
  have hmatrices : ∀ {records : List Record} {n : Nat}, (∀ r ∈ records, r.Admitted header) →
      constraintCount header (maxOf records) = .ok n →
      Matrices.mk (header.nPublic + 1) n [((nested header records).matrices 0).take n,
        ((nested header records).matrices 1).take n, []] = nestedMatrices header n records := by
    intro records n hadmitted hn
    have hle := constraintCount_le hadmitted hn
    rw [nestedMatrices, nested, take_rowsOf hle, take_rowsOf hle]
    rfl
  intro piece m
  constructor
  · rintro ⟨_, count, _, ⟨hcount, rfl⟩, ⟨hsize, _, s, _, ⟨records, rfl, hrecords, rfl, -, rfl⟩,
      ⟨n, hn, rfl, rfl⟩, rfl⟩, rfl⟩
    obtain ⟨hlt, heq⟩ := sectionBytes_eq.mp (not_not.mp hsize)
    have hadmitted := fun r hr => (hrecords r hr).1
    exact ⟨records, n, ⟨hcount, hlt, heq, hadmitted, by rw [List.append_nil]⟩,
      fun r hr => (hrecords r hr).2, hn, hmatrices hadmitted hn⟩
  · rintro ⟨records, n, hspells, hcanonical, hn, rfl⟩
    refine ⟨_, records.length, _, ⟨hspells.count_lt, rfl⟩, ⟨not_not.mpr (sectionBytes_eq.mpr
      ⟨hspells.size_lt, hspells.size_eq⟩), _, nested header records, [], ⟨records, rfl,
      fun r hr => ⟨hspells.admitted r hr, hcanonical r hr⟩, rfl, trivial, rfl⟩, ⟨n, hn, rfl, ?_⟩,
      (List.append_nil _).symm⟩, hspells.piece_eq⟩
    exact (hmatrices hspells.admitted hn).symm

end Nested

/-! ### The two sweeps -/

section Sweeps

variable {usize : Nat} {ending : IoError} {header : HeaderGroth} {sectionSize n : Nat}
  {lengths : Fin 2 → List Nat} {records : List Record}

theorem someOr_ok {α : Type} {x : Option α} {a : α} : someOr x = .ok a ↔ x = some a := by
  cases x with
  | none => exact ⟨fun h => (by cases h), fun h => (by cases h)⟩
  | some b => rw [someOr, Except.ok.injEq, Option.some.injEq]

theorem someOr_safe {α : Type} (x : Option α) : someOr x ≠ .error .panic := by
  cases x <;> exact fun h => (by cases h)

theorem checked_eq {size value a : Nat} : checked size value = some a ↔ value < size ∧ a = value := by
  unfold checked
  split
  · rw [Option.some.injEq, and_iff_right (by assumption), eq_comm]
  · exact ⟨fun h => (by cases h), fun h => absurd h.1 (by assumption)⟩

theorem computes_countSweep (ending : IoError) :
    Computes (countSweep usize ending header sectionSize) fun piece p => ∃ records,
      Spells usize header sectionSize records piece ∧
        p = (records.length, counted header records) := by
  unfold countSweep
  refine ((computes_readU32 ending).bind fun _ count hcount => Computes.call (someOr_safe _)
    fun bytes _ => Computes.call (someOr_safe _) fun expected _ =>
      Computes.refuse fun (_ : ¬ sectionSize ≠ expected) =>
        (computes_counted hcount.1).bind fun _ s _ => Computes.pure (count, s)).congr ?_
  intro piece p
  simp only [someOr_ok, checked_eq]
  constructor
  · rintro ⟨_, count, _, ⟨hcount, rfl⟩, ⟨_, ⟨-, rfl⟩, _, ⟨hlt, rfl⟩, hsize, _, s, _,
      ⟨records, rfl, hrecords, rfl, -, rfl⟩, ⟨rfl, rfl⟩, rfl⟩, rfl⟩
    exact ⟨records, ⟨hcount, by omega, (not_not.mp hsize).trans (Nat.add_comm _ _), hrecords,
      by rw [List.append_nil]⟩, rfl⟩
  · rintro ⟨records, hspells, rfl⟩
    have hlt := hspells.size_lt
    have heq := hspells.size_eq
    exact ⟨_, records.length, _, ⟨hspells.count_lt, rfl⟩, ⟨_, ⟨by omega, rfl⟩, _, ⟨by omega, rfl⟩,
      not_not.mpr (by omega), _, counted header records, [], ⟨records, rfl, hspells.admitted, rfl,
      trivial, rfl⟩, ⟨rfl, rfl⟩, (List.append_nil _).symm⟩, hspells.piece_eq⟩

theorem turnOffsets_eq {total : Nat} {counts : List Nat} (h : total + counts.sum < 2 ^ 32) :
    turnOffsets total counts = .ok ((offsets total counts).dropLast, total + counts.sum) := by
  induction counts generalizing total with
  | nil => rfl
  | cons count counts ih =>
    rw [List.sum_cons] at h
    rw [turnOffsets, checked, if_pos (by omega), someOr, Fallible.ok_bind, ih (by omega),
      Fallible.ok_bind, offsets_cons, offsets_cons_tail (total + count), List.dropLast_cons_cons,
      ← offsets_cons_tail, List.sum_cons, Nat.add_assoc]
    rfl

theorem vec_two {α : Type} (f : Fin 2 → α) : ![f 0, f 1] = f := by
  funext m
  cases m using Fin.cases with
  | zero => rfl
  | succ m =>
    obtain rfl : m = 0 := Subsingleton.elim m 0
    rfl

def lengthsOf (records : List Record) (n : Nat) (m : Fin 2) : List Nat :=
  (rowsOf records n m).map List.length

theorem lengthsOf_length (m : Fin 2) : (lengthsOf records n m).length = n := by
  rw [lengthsOf, List.length_map, rowsOf_length]

theorem lengthsOf_sum (records : List Record) (n : Nat) (m : Fin 2) :
    (lengthsOf records n m).sum ≤ records.length :=
  (sum_bucket_le _).trans (List.length_filter_le _ _)

theorem offsets_split (lengths : List Nat) :
    (offsets 0 lengths).dropLast ++ [lengths.sum] = offsets 0 lengths := by
  have hlast := offsets_getLast? 0 lengths
  rw [Nat.zero_add] at hlast
  exact List.dropLast_append_getLast? _ hlast

theorem filled_nil (hlength : ∀ m, (lengths m).length = n) : filled n lengths [] =
    ⟨fun m => offsets 0 (lengths m), fun m => List.replicate (lengths m).sum 0,
      fun m => List.replicate (lengths m).sum 0⟩ := by
  have hrows : ∀ m, rowsOf [] n m = List.replicate (lengths m).length [] := by
    intro m
    rw [rowsOf_nil, hlength]
  unfold filled
  simp only [hrows, cursors_empty, padded_empty, offsets_split, List.map_replicate]

theorem planOffsets_eq (hcount : records.length < 2 ^ 32) (hle : n ≤ header.domainSize) :
    planOffsets n (counted header records) = .ok (filled n (lengthsOf records n) []) := by
  have hturn : ∀ m, turnOffsets 0 (((counted header records).rowOffsets m).take n) =
      .ok ((offsets 0 (lengthsOf records n m)).dropLast, (lengthsOf records n m).sum) := by
    intro m
    have hsum := lengthsOf_sum records n m
    have htake : ((counted header records).rowOffsets m).take n = lengthsOf records n m := by
      rw [counted, ← List.map_take, take_rowsOf hle]
      rfl
    rw [htake, turnOffsets_eq (by omega), Nat.zero_add]
  rw [planOffsets, hturn 0, Fallible.ok_bind, filled_nil fun m => lengthsOf_length m]
  dsimp only
  rw [hturn 1, Fallible.ok_bind]
  dsimp only
  rw [offsets_split, offsets_split]
  refine congrArg Except.ok ?_
  rw [Filling.mk.injEq]
  exact ⟨vec_two fun m => offsets 0 (lengthsOf records n m),
    vec_two fun m => List.replicate (lengthsOf records n m).sum 0,
    vec_two fun m => List.replicate (lengthsOf records n m).sum 0⟩

theorem computes_fillSweep {numCoeffs : Nat} (hlength : ∀ m, (lengths m).length = n)
    (hsum : ∀ m, (lengths m).sum < 2 ^ 32) :
    Computes (fillSweep ending header numCoeffs n (endsOf lengths) (filled n lengths []))
      fun piece s => ∃ records, records.length = numCoeffs ∧ records.length < 2 ^ 32 ∧
        (∀ r ∈ records, r.Admitted header ∧ r.Canonical) ∧
        piece = leBytes 4 records.length ++ records.flatMap Record.spell ∧
        Within n lengths records ∧ s = filled n lengths records := by
  unfold fillSweep
  refine ((computes_readU32 ending).bind fun _ count _ => Computes.refuse
    fun (_ : ¬ count ≠ numCoeffs) => computes_filled numCoeffs hlength hsum).congr ?_
  intro piece s
  constructor
  · rintro ⟨_, count, _, ⟨hcount, rfl⟩, ⟨hsame, records, hrecords, hall, rfl, hwithin, rfl⟩, rfl⟩
    obtain rfl := not_not.mp hsame
    exact ⟨records, hrecords, by rwa [hrecords], hall, by rw [hrecords], hwithin, rfl⟩
  · rintro ⟨records, rfl, hcount, hall, rfl, hwithin, rfl⟩
    exact ⟨_, _, _, ⟨hcount, rfl⟩, ⟨not_not.mpr rfl, records, rfl, hall, rfl, hwithin, rfl⟩, rfl⟩

theorem restoreOffsets_eq (current ends : List Nat) (last : Nat) :
    restoreOffsets (current ++ [last]) ends =
      if current = ends then .ok (0 :: current) else invalid := by
  have hrows : (current ++ [last]).length - 1 = current.length := by
    rw [List.length_append, List.length_singleton, Nat.add_sub_cancel]
  have hfirst : ((current ++ [last]).take 1 ++ current).set 0 0 = 0 :: current := by
    cases current <;> rfl
  unfold restoreOffsets
  rw [Panic.require, if_pos (by rw [List.length_append]; exact Nat.succ_pos _), Fallible.ok_bind]
  dsimp only
  rw [hrows, List.take_left, hfirst]
  unfold refuse Panic.refuse
  by_cases hsame : current = ends
  · rw [if_pos hsame, if_neg (not_not.mpr hsame)]
    rfl
  · rw [if_neg hsame, if_pos hsame]
    rfl

/-- The cursors can be moved back only when every row got what was planned. -/
theorem restoreOffsets_filled (hwithin : Within n lengths records) (m : Fin 2) :
    restoreOffsets ((filled n lengths records).rowOffsets m) (endsOf lengths m) =
      if lengthsOf records n m = lengths m then .ok (offsets 0 (lengths m)) else invalid := by
  have hcomplete := (hwithin m).complete 0
  rw [filled_rowOffsets, restoreOffsets_eq, endsOf, List.drop_one]
  by_cases hsame : lengthsOf records n m = lengths m
  · have htail := hcomplete.mpr hsame
    rw [if_pos hsame, if_pos htail, htail, ← offsets_cons_tail]
  · rw [if_neg hsame, if_neg fun h => hsame (hcomplete.mp h)]

def compactMatrices (header : HeaderGroth) (n : Nat) (records : List Record) :
    Matrices CompactMatrix where
  numInstanceVariables := header.nPublic + 1
  numConstraints := n
  matrices := Matrices.both fun m => .ofRows (rowsOf records n m)

theorem fromParts_filled (m : Fin 2) :
    CompactMatrix.fromParts (offsets 0 (lengthsOf records n m))
      ((filled n (lengthsOf records n) records).coefficients m)
      ((filled n (lengthsOf records n) records).signals m) =
        .ok (.ofRows (rowsOf records n m)) := by
  have hflatten : padded (0, 0) (lengthsOf records n m) (rowsOf records n m) =
      (rowsOf records n m).flatten := padded_complete _ _
  rw [filled_coefficients, filled_signals, hflatten]
  exact (CompactMatrix.ofRows_holds (rowsOf records n m)).fromParts

/-- The matrices of the second sweep, when every row has the length the first one counted. -/
theorem finish_filled (hwithin : Within n lengths records) :
    finish header n (endsOf lengths) (filled n lengths records) =
      if lengthsOf records n = lengths then .ok (compactMatrices header n records) else invalid := by
  have hrestore := restoreOffsets_filled hwithin
  unfold finish
  by_cases hsame : lengthsOf records n = lengths
  · subst hsame
    rw [if_pos rfl, hrestore 0, hrestore 1, if_pos rfl, if_pos rfl, Fallible.ok_bind,
      Fallible.ok_bind, fromParts_filled, fromParts_filled]
    rfl
  · rw [if_neg hsame, hrestore 0]
    by_cases hfirst : lengthsOf records n 0 = lengths 0
    · rw [if_pos hfirst, Fallible.ok_bind, hrestore 1, if_neg]
      · rfl
      · intro hsecond
        refine hsame ?_
        rw [← vec_two (lengthsOf records n), hfirst, hsecond, vec_two]
    · rw [if_neg hfirst]
      rfl

end Sweeps

/-! ### The compact parser -/

section Compact

variable {usize : Nat} {header : HeaderGroth} {sectionSize n : Nat} {first second : Sweep}
  {planned records : List Record}

theorem seek_ok {sweep : Sweep} : seek sweep = .ok () ↔ sweep.seek = none := by
  unfold seek
  cases sweep.seek with
  | none => exact ⟨fun _ => rfl, fun _ => rfl⟩
  | some error => exact ⟨fun h => (by cases h), fun h => (by cases h)⟩

theorem seek_safe (sweep : Sweep) : seek sweep ≠ .error .panic := by
  unfold seek
  cases sweep.seek <;> exact fun h => (by cases h)

/-- What the two sweeps read when the parser succeeds: records that were counted, and records
that were stored. -/
structure Accepted (usize : Nat) (header : HeaderGroth) (sectionSize : Nat) (first second : Sweep)
    (planned records : List Record) (n : Nat) : Prop where
  first_seek : first.seek = none
  second_seek : second.seek = none
  first_bytes : ∃ piece rest, Spells usize header sectionSize planned piece ∧
    first.bytes = piece ++ rest
  second_bytes : ∃ piece rest, Spells usize header sectionSize records piece ∧
    second.bytes = piece ++ rest
  canonical : ∀ r ∈ records, r.Canonical
  constraints : constraintCount header (maxOf planned) = .ok n
  lengths : lengthsOf records n = lengthsOf planned n

/-- From the end of the first sweep on. -/
theorem parseCompact_eq (hseek : first.seek = none) {piece rest : List UInt8}
    (hspells : Spells usize header sectionSize planned piece) (hbytes : first.bytes = piece ++ rest)
    (hn : constraintCount header (maxOf planned) = .ok n) :
    parseCompactMatrices usize header sectionSize first second =
      (seek second >>= fun _ => fillSweep second.ending header planned.length n
        (endsOf (lengthsOf planned n)) (filled n (lengthsOf planned n) []) second.bytes >>= fun p =>
          finish header n (endsOf (lengthsOf planned n)) p.1) := by
  have hcount : countSweep usize first.ending header sectionSize first.bytes =
      .ok ((planned.length, counted header planned), rest) := by
    rw [hbytes]
    exact (computes_countSweep _).reads ⟨planned, hspells, rfl⟩ rest
  have hplan := planOffsets_eq hspells.count_lt (constraintCount_le hspells.admitted hn)
  have hends : (fun matrix => ((filled n (lengthsOf planned n) []).rowOffsets matrix).drop 1) =
      endsOf (lengthsOf planned n) := by
    rw [filled_nil fun m => lengthsOf_length m]
    rfl
  unfold parseCompactMatrices
  rw [seek_ok.mpr hseek, Fallible.ok_bind, hcount, Fallible.ok_bind]
  dsimp only
  rw [show (counted header planned).maxConstraintIndex = maxOf planned from rfl, hn,
    Fallible.ok_bind, hplan, Fallible.ok_bind, hends]

/-- The parser fails with an error, or the first sweep succeeds. -/
theorem parseCompact_first (usize : Nat) (header : HeaderGroth) (sectionSize : Nat)
    (first second : Sweep) :
    (∃ e, parseCompactMatrices usize header sectionSize first second = .error (.error e)) ∨
    first.seek = none ∧ ∃ planned n piece rest, Spells usize header sectionSize planned piece ∧
      first.bytes = piece ++ rest ∧ constraintCount header (maxOf planned) = .ok n := by
  unfold parseCompactMatrices
  cases hseek : seek first with
  | error stop =>
    cases stop with
    | panic => exact absurd hseek (seek_safe first)
    | error e => exact .inl ⟨e, rfl⟩
  | ok u =>
    rw [Fallible.ok_bind]
    cases hcount : countSweep usize first.ending header sectionSize first.bytes with
    | error stop =>
      cases stop with
      | panic => exact absurd hcount ((computes_countSweep _).safe _)
      | error e => exact .inl ⟨e, rfl⟩
    | ok p =>
      obtain ⟨piece, ⟨planned, hspells, hp⟩, hbytes⟩ := ((computes_countSweep _).ok _ _ _).mp hcount
      obtain ⟨_, rest⟩ := p
      cases hp
      rw [Fallible.ok_bind]
      dsimp only
      cases hn : constraintCount header (counted header planned).maxConstraintIndex with
      | error stop =>
        cases stop with
        | panic => exact absurd hn (constraintCount_safe _)
        | error e => exact .inl ⟨e, rfl⟩
      | ok n => exact .inr ⟨seek_ok.mp hseek, planned, n, piece, rest, hspells, hbytes, hn⟩

/-- The second sweep, planned for the records of the first. -/
theorem computes_second (header : HeaderGroth) (n : Nat) (hspells : records.length < 2 ^ 32)
    (ending : IoError) :
    Computes (fillSweep ending header records.length n (endsOf (lengthsOf records n))
      (filled n (lengthsOf records n) [])) fun piece s => ∃ stored : List Record,
        stored.length = records.length ∧ stored.length < 2 ^ 32 ∧
        (∀ r ∈ stored, r.Admitted header ∧ r.Canonical) ∧
        piece = leBytes 4 stored.length ++ stored.flatMap Record.spell ∧
        Within n (lengthsOf records n) stored ∧ s = filled n (lengthsOf records n) stored :=
  computes_fillSweep (fun m => lengthsOf_length m)
    fun m => Nat.lt_of_le_of_lt (lengthsOf_sum records n m) hspells

theorem parseCompact_safe (usize : Nat) (header : HeaderGroth) (sectionSize : Nat)
    (first second : Sweep) :
    parseCompactMatrices usize header sectionSize first second ≠ .error .panic := by
  rcases parseCompact_first usize header sectionSize first second with
    ⟨e, he⟩ | ⟨hseek, planned, n, piece, rest, hspells, hbytes, hn⟩
  · rw [he]
    exact fun h => (by cases h)
  rw [parseCompact_eq hseek hspells hbytes hn]
  have hsecond := computes_second header n hspells.count_lt second.ending
  refine Panic.bind_safe (seek_safe second) fun _ _ => Panic.bind_safe (hsecond.safe _) ?_
  rintro ⟨s, rest⟩ hfill
  obtain ⟨_, ⟨stored, -, -, -, -, hwithin, rfl⟩, -⟩ := (hsecond.ok _ _ _).mp hfill
  rw [finish_filled hwithin]
  split <;> exact fun h => (by cases h)

theorem parseCompact_ok {c : Matrices CompactMatrix} :
    parseCompactMatrices usize header sectionSize first second = .ok c ↔ ∃ planned records n,
      Accepted usize header sectionSize first second planned records n ∧
      c = compactMatrices header n records := by
  constructor
  · intro h
    rcases parseCompact_first usize header sectionSize first second with
      ⟨e, he⟩ | ⟨hseek, planned, n, piece, rest, hspells, hbytes, hn⟩
    · rw [he] at h
      cases h
    have hsecond := computes_second header n hspells.count_lt second.ending
    rw [parseCompact_eq hseek hspells hbytes hn] at h
    obtain ⟨_, hseek', h⟩ := Fallible.bind_ok.mp h
    obtain ⟨⟨s, rest'⟩, hfill, h⟩ := Fallible.bind_ok.mp h
    obtain ⟨piece', ⟨stored, hlength, hcount, hstored, hpiece, hwithin, rfl⟩, hbytes'⟩ :=
      (hsecond.ok _ _ _).mp hfill
    rw [finish_filled hwithin] at h
    split at h
    · rename_i hlengths
      cases h
      refine ⟨planned, stored, n, ⟨hseek, seek_ok.mp hseek', ⟨piece, rest, hspells, hbytes⟩,
        ⟨piece', rest', ⟨hcount, ?_, ?_, fun r hr => (hstored r hr).1, hpiece⟩, hbytes'⟩,
        fun r hr => (hstored r hr).2, hn, hlengths⟩, rfl⟩
      · rw [hlength]
        exact hspells.size_lt
      · rw [hlength]
        exact hspells.size_eq
    · cases h
  · rintro ⟨planned, stored, n, haccepted, rfl⟩
    obtain ⟨piece, rest, hspells, hbytes⟩ := haccepted.first_bytes
    obtain ⟨piece', rest', hspells', hbytes'⟩ := haccepted.second_bytes
    have hsecond := computes_second header n hspells.count_lt second.ending
    have hlength : stored.length = planned.length := by
      have hsize := hspells.size_eq.symm.trans hspells'.size_eq
      unfold coefficientBytes fieldBytes at hsize
      omega
    have hwithin : Within n (lengthsOf planned n) stored := by
      rw [← haccepted.lengths]
      exact fun m => fits_lengths _
    rw [parseCompact_eq haccepted.first_seek hspells hbytes haccepted.constraints,
      seek_ok.mpr haccepted.second_seek, Fallible.ok_bind, hbytes', hsecond.reads
        ⟨stored, hlength, hspells'.count_lt,
          fun r hr => ⟨hspells'.admitted r hr, haccepted.canonical r hr⟩, hspells'.piece_eq, hwithin,
          rfl⟩, Fallible.ok_bind, finish_filled hwithin, if_pos haccepted.lengths]

/-! ### The same bytes twice -/

section Same

variable {ending : IoError} {bytes : List UInt8}

theorem same_of_nested {m : Matrices Matrix} {rest : List UInt8}
    (h : parseMatrices usize ending header sectionSize bytes = .ok (m, rest)) :
    ∃ records n, Accepted usize header sectionSize ⟨none, bytes, ending⟩ ⟨none, bytes, ending⟩
      records records n := by
  obtain ⟨piece, ⟨records, n, hspells, hcanonical, hn, -⟩, hbytes⟩ :=
    (computes_parseMatrices.ok _ _ _).mp h
  exact ⟨records, n, rfl, rfl, ⟨piece, rest, hspells, hbytes⟩, ⟨piece, rest, hspells, hbytes⟩,
    hcanonical, hn, rfl⟩

/-- Two sweeps over the same bytes see the same records. -/
theorem Accepted.nested (h : Accepted usize header sectionSize ⟨none, bytes, ending⟩
    ⟨none, bytes, ending⟩ planned records n) :
    ∃ rest, parseMatrices usize ending header sectionSize bytes =
      .ok (nestedMatrices header n records, rest) := by
  obtain ⟨piece, rest, hspells, hbytes⟩ := h.first_bytes
  obtain ⟨piece', rest', hspells', hbytes'⟩ := h.second_bytes
  dsimp only at hbytes hbytes'
  have hplanned := (computes_countSweep ending).reads ⟨planned, hspells, rfl⟩ rest
  have hstored := (computes_countSweep ending).reads ⟨records, hspells', rfl⟩ rest'
  rw [← hbytes] at hplanned
  rw [← hbytes', hplanned] at hstored
  obtain ⟨hcounts, -⟩ := Prod.mk.inj (Except.ok.inj hstored)
  have hmax : maxOf planned = maxOf records :=
    congrArg (fun p : Nat × Counts => p.2.maxConstraintIndex) hcounts
  have hn := h.constraints
  rw [hmax] at hn
  refine ⟨rest', ?_⟩
  rw [hbytes']
  exact computes_parseMatrices.reads ⟨records, n, hspells', h.canonical, hn, rfl⟩ rest'

end Same

theorem evaluateChecked_isSome {entries : List (Fr × Nat)} {assignment : List Fr}
    (h : ∀ cell ∈ entries, cell.2 < assignment.length) :
    (evaluateChecked entries assignment).isSome := by
  unfold evaluateChecked
  generalize (0 : Fr) = sum
  induction entries generalizing sum with
  | nil => rfl
  | cons cell entries ih =>
    obtain ⟨hcell, hrest⟩ := List.forall_mem_cons.mp h
    obtain ⟨coefficient, signal⟩ := cell
    rw [List.foldlM_cons]
    dsimp only at hcell ⊢
    rw [List.getElem?_eq_getElem hcell, Option.map_some, Option.bind_eq_bind, Option.bind_some]
    exact ih hrest _

theorem signal_lt (hadmitted : ∀ r ∈ records, r.Admitted header) {m : Fin 2}
    {entries : List (Fr × Nat)} (hentries : entries ∈ rowsOf records n m) :
    ∀ cell ∈ entries, cell.2 < header.nVars := by
  intro cell hcell
  unfold rowsOf bucket at hentries
  obtain ⟨row, -, rfl⟩ := List.mem_map.mp hentries
  obtain ⟨r, hr, rfl⟩ := List.mem_map.mp hcell
  exact (hadmitted r (List.mem_of_mem_filter (List.mem_of_mem_filter hr))).entry.signal_lt

theorem compactMatrices_hold : List.Forall₂ CompactMatrix.Holds
    (compactMatrices header n records).matrices [rowsOf records n 0, rowsOf records n 1] :=
  .cons (CompactMatrix.ofRows_holds _) (.cons (CompactMatrix.ofRows_holds _) .nil)

/-- Over the same bytes the compact parser accepts what the other one does and builds the same
rows. Over changing bytes it never panics, and what it builds holds the rows of the second
sweep. -/
theorem compact_parser_agrees (usize : Nat) (header : HeaderGroth) (sectionSize : Nat) :
    (∀ (bytes : List UInt8) (ending : IoError),
      ((∃ m rest, parseMatrices usize ending header sectionSize bytes = .ok (m, rest)) ↔
        ∃ c, parseCompactMatrices usize header sectionSize ⟨none, bytes, ending⟩
          ⟨none, bytes, ending⟩ = .ok c) ∧
      ∀ m rest c, parseMatrices usize ending header sectionSize bytes = .ok (m, rest) →
        parseCompactMatrices usize header sectionSize ⟨none, bytes, ending⟩
          ⟨none, bytes, ending⟩ = .ok c →
        c.numInstanceVariables = m.numInstanceVariables ∧ c.numConstraints = m.numConstraints ∧
        ∃ a b, m.matrices = [a, b, []] ∧ List.Forall₂ CompactMatrix.Holds c.matrices [a, b] ∧
          ∀ rows ∈ [a, b], ∀ entries ∈ rows, ∀ assignment : List Fr,
            header.nVars ≤ assignment.length → (evaluateChecked entries assignment).isSome) ∧
    ∀ first second : Sweep,
      parseCompactMatrices usize header sectionSize first second ≠ .error .panic ∧
      ∀ c, parseCompactMatrices usize header sectionSize first second = .ok c →
        ∃ records piece rest, Spells usize header sectionSize records piece ∧
          second.bytes = piece ++ rest ∧ List.Forall₂ CompactMatrix.Holds c.matrices
            [rowsOf records c.numConstraints 0, rowsOf records c.numConstraints 1] := by
  refine ⟨fun bytes ending => ⟨⟨?_, ?_⟩, ?_⟩, fun first second =>
    ⟨parseCompact_safe usize header sectionSize first second, ?_⟩⟩
  · rintro ⟨m, rest, hm⟩
    obtain ⟨records, n, haccepted⟩ := same_of_nested hm
    exact ⟨_, parseCompact_ok.mpr ⟨records, records, n, haccepted, rfl⟩⟩
  · rintro ⟨c, hc⟩
    obtain ⟨planned, records, n, haccepted, -⟩ := parseCompact_ok.mp hc
    obtain ⟨rest, hrest⟩ := haccepted.nested
    exact ⟨_, rest, hrest⟩
  · intro m rest c hm hc
    obtain ⟨planned, records, n, haccepted, rfl⟩ := parseCompact_ok.mp hc
    obtain ⟨rest', hrest⟩ := haccepted.nested
    obtain ⟨piece, -, hspells, -⟩ := haccepted.second_bytes
    rw [hrest] at hm
    cases hm
    refine ⟨rfl, rfl, rowsOf records n 0, rowsOf records n 1, rfl, compactMatrices_hold, ?_⟩
    have hsome : ∀ m : Fin 2, ∀ entries ∈ rowsOf records n m, ∀ assignment : List Fr,
        header.nVars ≤ assignment.length → (evaluateChecked entries assignment).isSome :=
      fun m entries hentries assignment hvars => evaluateChecked_isSome fun cell hcell =>
        Nat.lt_of_lt_of_le (signal_lt hspells.admitted hentries cell hcell) hvars
    exact List.forall_mem_cons.mpr ⟨hsome 0, List.forall_mem_singleton.mpr (hsome 1)⟩
  · intro c hc
    obtain ⟨planned, records, n, haccepted, rfl⟩ := parseCompact_ok.mp hc
    obtain ⟨piece, rest, hspells, hbytes⟩ := haccepted.second_bytes
    exact ⟨records, piece, rest, hspells, hbytes, compactMatrices_hold⟩

/-- Two coefficients, one of them in a row that is left out. -/
def sampleSection : List UInt8 :=
  leBytes 4 2 ++ (leBytes 4 0 ++ leBytes 4 0 ++ leBytes 4 1 ++ leBytes 32 5) ++
    (leBytes 4 1 ++ leBytes 4 1 ++ leBytes 4 0 ++ leBytes 32 7)

theorem compact_parser_agrees_example :
    ∃ c, parseCompactMatrices (2 ^ 64) ⟨2, 0, 2⟩ 92 ⟨none, sampleSection, ⟨.unexpectedEof, ""⟩⟩
      ⟨none, sampleSection, ⟨.unexpectedEof, ""⟩⟩ = .ok c ∧ c.numConstraints = 1 := by
  obtain ⟨hiff, hsame⟩ :=
    (compact_parser_agrees (2 ^ 64) ⟨2, 0, 2⟩ 92).1 sampleSection ⟨.unexpectedEof, ""⟩
  have hnested : ∃ m rest, parseMatrices (2 ^ 64) ⟨.unexpectedEof, ""⟩ ⟨2, 0, 2⟩ 92 sampleSection =
      .ok (m, rest) ∧ m.numConstraints = 1 := ⟨_, _, rfl, rfl⟩
  obtain ⟨m, rest, hm, hcount⟩ := hnested
  obtain ⟨c, hc⟩ := hiff.mp ⟨m, rest, hm⟩
  obtain ⟨-, hconstraints, -⟩ := hsame m rest c hm hc
  exact ⟨c, hc, hconstraints.trans hcount⟩

end Compact

end Curvy.Prover.ZkeyMatrices
