import Curvy.Lib.Csr
import Curvy.Prover.ZkeyMatrices

/-!
# What the sweeps make of a section

A section spells a list of records. After some records, the state of every loop is a function
of the rows these records make.
-/

namespace Curvy.Prover.ZkeyMatrices

set_option autoImplicit false

open Decoder Csr
open Witness (Fr frModulus)

/-! ### Records -/

/-- A coefficient as stored. -/
structure Record where
  entry : Entry
  bytes : List UInt8

def Entry.spell (e : Entry) : List UInt8 :=
  leBytes 4 e.matrix ++ (leBytes 4 e.constraint ++ leBytes 4 e.signal)

namespace Record

def spell (r : Record) : List UInt8 := r.entry.spell ++ r.bytes

def value (r : Record) : Fr := frNewUnchecked (frNewUnchecked (leNat r.bytes)).val

def cell (r : Record) : Fr × Nat := (r.value, r.entry.signal)

end Record

structure Entry.Admitted (header : HeaderGroth) (e : Entry) : Prop where
  constraint_lt : e.constraint < header.domainSize
  constraint_u32 : e.constraint < 2 ^ 32
  signal_lt : e.signal < header.nVars
  signal_u32 : e.signal < 2 ^ 32

structure Record.Admitted (header : HeaderGroth) (r : Record) : Prop where
  entry : r.entry.Admitted header
  length_eq : r.bytes.length = fieldBytes

def Record.Canonical (r : Record) : Prop := leNat r.bytes < frModulus

/-- The first `n` rows of a matrix, each in the order of the records. -/
def rowsOf (records : List Record) (n : Nat) (matrix : Fin 2) : Matrix :=
  bucket (fun r => r.entry.constraint) Record.cell n (records.filter fun r => r.entry.matrix = matrix)

def maxOf (records : List Record) : Option Nat :=
  records.foldl (fun current r => maxIndex current r.entry.constraint) none

section Rows

variable {records : List Record} {n : Nat} {matrix : Fin 2}

@[simp] theorem rowsOf_length : (rowsOf records n matrix).length = n := bucket_length _

theorem rowsOf_nil : rowsOf [] n matrix = List.replicate n [] := bucket_nil

theorem take_rowsOf {k : Nat} (h : k ≤ n) :
    (rowsOf records n matrix).take k = rowsOf records k matrix := take_bucket h _

theorem rowsOf_concat_self (r : Record) : rowsOf (records ++ [r]) n r.entry.matrix =
    (rowsOf records n r.entry.matrix).modify r.entry.constraint (· ++ [r.cell]) := by
  have hkept : [r].filter (fun s => s.entry.matrix = r.entry.matrix) = [r] :=
    List.filter_cons_of_pos (decide_eq_true rfl)
  rw [rowsOf, List.filter_append, hkept, bucket_concat]
  rfl

theorem rowsOf_concat_ne {r : Record} (h : r.entry.matrix ≠ matrix) :
    rowsOf (records ++ [r]) n matrix = rowsOf records n matrix := by
  have hdropped : [r].filter (fun s => s.entry.matrix = matrix) = [] :=
    List.filter_cons_of_neg (by simpa using h)
  rw [rowsOf, List.filter_append, hdropped, List.append_nil]
  rfl

/-- A record outside the rows changes nothing. -/
theorem rowsOf_concat_outside {r : Record} (h : n ≤ r.entry.constraint) :
    rowsOf (records ++ [r]) n matrix = rowsOf records n matrix := by
  by_cases hmatrix : r.entry.matrix = matrix
  · rw [← hmatrix, rowsOf_concat_self, List.modify_eq_self (by rwa [rowsOf_length])]
  · exact rowsOf_concat_ne hmatrix

theorem maxOf_concat (r : Record) :
    maxOf (records ++ [r]) = maxIndex (maxOf records) r.entry.constraint := by
  rw [maxOf, List.foldl_append]
  rfl

/-- A family of lists, one for each matrix, that follows the rows. -/
theorem update_rowsOf (records : List Record) {α : Type} (f : Matrix → Fin 2 → List α) (r : Record)
    {changed : List α} (h : f (rowsOf (records ++ [r]) n r.entry.matrix) r.entry.matrix = changed) :
    Function.update (fun m => f (rowsOf records n m) m) r.entry.matrix changed =
      fun m => f (rowsOf (records ++ [r]) n m) m := by
  funext m
  by_cases hm : m = r.entry.matrix
  · subst hm
    rw [Function.update_self, h]
  · rw [Function.update_of_ne hm, rowsOf_concat_ne (Ne.symm hm)]

end Rows

/-! ### Reading one record -/

section Reading

variable (ending : IoError) (header : HeaderGroth)

theorem computes_readU32 :
    Computes (readU32 ending) fun piece value => value < 2 ^ 32 ∧ piece = leBytes 4 value := by
  unfold readU32 readExact
  rw [map_eq_pure_bind]
  refine ((Computes.take 4).bind fun _ bytes _ => Computes.pure (leNat bytes)).congr ?_
  intro piece value
  constructor
  · rintro ⟨_, bytes, _, ⟨hlength, rfl⟩, ⟨rfl, rfl⟩, rfl⟩
    have hlt := leNat_lt bytes
    rw [hlength] at hlt
    rw [List.append_nil, ← hlength, leBytes_leNat]
    exact ⟨hlt, rfl⟩
  · rintro ⟨hlt, rfl⟩
    exact ⟨_, _, [], ⟨leBytes_length 4 value, rfl⟩, ⟨rfl, (leNat_leBytes hlt).symm⟩,
      (List.append_nil _).symm⟩

theorem checkEntry_ok {matrix constraint signal : Nat} {e : Entry} :
    checkEntry header matrix constraint signal = .ok e ↔
      e.matrix.val = matrix ∧ e.constraint = constraint ∧ e.signal = signal ∧
        constraint < header.domainSize ∧ signal < header.nVars := by
  unfold checkEntry
  split
  · rename_i hbad
    constructor
    · exact fun h => (by cases h)
    · rintro ⟨rfl, rfl, rfl, hconstraint, hsignal⟩
      have hmatrix := e.matrix.isLt
      omega
  · rename_i hfine
    obtain ⟨matrix', constraint', signal'⟩ := e
    constructor
    · intro h
      cases h
      exact ⟨rfl, rfl, rfl, by omega, by omega⟩
    · rintro ⟨rfl, rfl, rfl, -, -⟩
      rfl

theorem checkEntry_safe (matrix constraint signal : Nat) :
    checkEntry header matrix constraint signal ≠ .error .panic := by
  unfold checkEntry
  split <;> exact fun h => (by cases h)

theorem computes_readEntry : Computes (readEntry ending header) fun piece e =>
    e.Admitted header ∧ piece = e.spell := by
  unfold readEntry
  refine ((computes_readU32 ending).bind fun _ matrix _ => (computes_readU32 ending).bind
    fun _ constraint _ => (computes_readU32 ending).bind fun _ signal _ =>
      Computes.lift (checkEntry_safe header matrix constraint signal)).congr ?_
  intro piece e
  simp only [checkEntry_ok]
  constructor
  · rintro ⟨_, _, _, ⟨-, rfl⟩, ⟨_, _, _, ⟨hconstraint, rfl⟩, ⟨_, _, _, ⟨hsignal, rfl⟩,
      ⟨⟨rfl, rfl, rfl, hdomain, hvars⟩, rfl⟩, rfl⟩, rfl⟩, rfl⟩
    exact ⟨⟨hdomain, hconstraint, hvars, hsignal⟩, by rw [List.append_nil, Entry.spell]⟩
  · rintro ⟨hadmitted, rfl⟩
    have hmatrix := e.matrix.isLt
    exact ⟨_, _, _, ⟨by omega, rfl⟩, ⟨_, _, _, ⟨hadmitted.constraint_u32, rfl⟩, ⟨_, _, _,
      ⟨hadmitted.signal_u32, rfl⟩, ⟨⟨rfl, rfl, rfl, hadmitted.constraint_lt, hadmitted.signal_lt⟩,
        rfl⟩, (List.append_nil _).symm⟩, rfl⟩, rfl⟩

theorem computes_deserializeFieldFr : Computes (deserializeFieldFr ending) fun piece value =>
    piece.length = fieldBytes ∧ leNat piece < frModulus ∧
      value = frNewUnchecked (frNewUnchecked (leNat piece)).val := by
  unfold deserializeFieldFr
  refine ((Computes.take fieldBytes).bind fun _ bytes _ =>
    Computes.refuse fun (_ : ¬ leNat bytes ≥ frModulus) =>
      Computes.pure (frNewUnchecked (frNewUnchecked (leNat bytes)).val)).congr ?_
  intro piece value
  constructor
  · rintro ⟨_, _, _, ⟨hlength, rfl⟩, ⟨hsmall, rfl, rfl⟩, rfl⟩
    rw [List.append_nil]
    exact ⟨hlength, Nat.not_le.mp hsmall, rfl⟩
  · rintro ⟨hlength, hsmall, rfl⟩
    exact ⟨piece, piece, [], ⟨hlength, rfl⟩, ⟨Nat.not_le.mpr hsmall, rfl, rfl⟩,
      (List.append_nil _).symm⟩

/-- A record with its value. -/
theorem computes_record {σ : Type} (f : Entry → Fr → Call σ)
    (hsafe : ∀ r : Record, r.Admitted header → f r.entry r.value ≠ .error .panic) :
    Computes (do
      let entry ← readEntry ending header
      let value ← deserializeFieldFr ending
      f entry value : Parser σ) fun piece s => ∃ r : Record,
        (r.Admitted header ∧ r.Canonical) ∧ piece = r.spell ∧ f r.entry r.value = .ok s := by
  refine ((computes_readEntry ending header).bind fun _ e he =>
    (computes_deserializeFieldFr ending).bind fun bytes value hvalue => Computes.lift ?_).congr ?_
  · obtain ⟨hlength, -, rfl⟩ := hvalue
    exact hsafe ⟨e, bytes⟩ ⟨he.1, hlength⟩
  intro piece s
  constructor
  · rintro ⟨_, e, _, ⟨he, rfl⟩, ⟨bytes, _, _, ⟨hlength, hcanonical, rfl⟩, ⟨hs, rfl⟩, rfl⟩, rfl⟩
    exact ⟨⟨e, bytes⟩, ⟨⟨he, hlength⟩, hcanonical⟩, by rw [List.append_nil]; rfl, hs⟩
  · rintro ⟨r, ⟨hadmitted, hcanonical⟩, rfl, hs⟩
    exact ⟨_, _, _, ⟨hadmitted.entry, rfl⟩, ⟨_, _, _, ⟨hadmitted.length_eq, hcanonical, rfl⟩,
      ⟨hs, rfl⟩, (List.append_nil _).symm⟩, rfl⟩

/-- A record whose value is skipped. -/
theorem computes_skipped {σ : Type} (f : Entry → Call σ)
    (hsafe : ∀ r : Record, r.Admitted header → f r.entry ≠ .error .panic) :
    Computes (do
      let entry ← readEntry ending header
      let _ ← readExact ending fieldBytes
      f entry : Parser σ) fun piece s => ∃ r : Record,
        r.Admitted header ∧ piece = r.spell ∧ f r.entry = .ok s := by
  refine ((computes_readEntry ending header).bind fun _ e he =>
    (Computes.take fieldBytes).bind fun bytes _ hbytes => Computes.lift ?_).congr ?_
  · exact hsafe ⟨e, bytes⟩ ⟨he.1, hbytes.1⟩
  intro piece s
  constructor
  · rintro ⟨_, e, _, ⟨he, rfl⟩, ⟨bytes, _, _, ⟨hlength, rfl⟩, ⟨hs, rfl⟩, rfl⟩, rfl⟩
    exact ⟨⟨e, _⟩, ⟨he, hlength⟩, by rw [List.append_nil]; rfl, hs⟩
  · rintro ⟨r, hadmitted, rfl, hs⟩
    exact ⟨_, _, _, ⟨hadmitted.entry, rfl⟩, ⟨_, _, _, ⟨hadmitted.length_eq, rfl⟩, ⟨hs, rfl⟩,
      (List.append_nil _).symm⟩, rfl⟩

end Reading

/-! ### The loops -/

theorem modify_eq_set {α : Type} {l : List α} {i : Nat} {a : α} (h : l[i]? = some a) (f : α → α) :
    l.modify i f = l.set i (f a) := by
  rw [List.modify_eq_set_getElem?, h]
  rfl

section Loops

variable {ending : IoError} {header : HeaderGroth} {done : List Record}

theorem getElem?_rowsOf (records : List Record) {n k : Nat} (matrix : Fin 2) (h : k < n) :
    ∃ row, (rowsOf records n matrix)[k]? = some row ∧ row.length ≤ records.length := by
  refine ⟨_, getElem?_bucket h, ?_⟩
  rw [List.length_map]
  exact (List.length_filter_le _ _).trans (List.length_filter_le _ _)

/-- The nested rows after some records. -/
def nested (header : HeaderGroth) (records : List Record) : Rows where
  matrices := rowsOf records header.domainSize
  maxConstraintIndex := maxOf records

theorem push_nested {r : Record} (h : r.entry.constraint < header.domainSize) :
    (nested header done).push r.entry r.value = .ok (nested header (done ++ [r])) := by
  obtain ⟨row, hrow, -⟩ := getElem?_rowsOf done r.entry.matrix h
  have hrows := update_rowsOf done (fun rows _ => rows) r
    ((rowsOf_concat_self r).trans (modify_eq_set hrow _))
  unfold Rows.push nested
  dsimp only
  rw [hrow, Panic.expect, Fallible.ok_bind, maxOf_concat]
  exact congrArg (fun rows => Except.ok (Rows.mk rows _)) hrows

theorem computes_readRow (done : List Record) :
    Computes (readRow ending header (nested header done)) fun piece s => ∃ r : Record,
      (r.Admitted header ∧ r.Canonical) ∧ piece = r.spell ∧ True ∧
        s = nested header (done ++ [r]) := by
  have hpush : ∀ r : Record, r.Admitted header → (nested header done).push r.entry r.value =
      .ok (nested header (done ++ [r])) := fun r hr => push_nested hr.entry.constraint_lt
  refine (computes_record ending header (nested header done).push
    fun r hr h => by rw [hpush r hr] at h; cases h).congr ?_
  intro piece s
  constructor
  · rintro ⟨r, hr, rfl, hs⟩
    rw [hpush r hr.1] at hs
    exact ⟨r, hr, rfl, trivial, (Except.ok.inj hs).symm⟩
  · rintro ⟨r, hr, rfl, -, rfl⟩
    exact ⟨r, hr, rfl, hpush r hr.1⟩

/-- The counts after some records. -/
def counted (header : HeaderGroth) (records : List Record) : Counts where
  rowOffsets matrix := (rowsOf records header.domainSize matrix).map List.length
  maxConstraintIndex := maxOf records

theorem count_counted {r : Record} (h : r.entry.constraint < header.domainSize)
    (hroom : done.length + 1 < 2 ^ 32) :
    (counted header done).count r.entry = .ok (counted header (done ++ [r])) := by
  obtain ⟨row, hrow, hlength⟩ := getElem?_rowsOf done r.entry.matrix h
  have hcount : ((rowsOf done header.domainSize r.entry.matrix).map List.length)[
      r.entry.constraint]? = some row.length := by
    rw [List.getElem?_map, hrow, Option.map_some]
  have hcounts := update_rowsOf done (fun rows _ => rows.map List.length) r (by
    rw [rowsOf_concat_self, modify_eq_set hrow, List.map_set, List.length_append,
      List.length_singleton])
  unfold Counts.count counted
  dsimp only
  rw [hcount, Panic.expect, Fallible.ok_bind, checked, if_pos (by omega), someOr, Fallible.ok_bind,
    maxOf_concat]
  exact congrArg (fun counts => Except.ok (Counts.mk counts _)) hcounts

theorem computes_readCount (hroom : done.length + 1 < 2 ^ 32) :
    Computes (readCount ending header (counted header done)) fun piece s => ∃ r : Record,
      r.Admitted header ∧ piece = r.spell ∧ True ∧ s = counted header (done ++ [r]) := by
  have hcount : ∀ r : Record, r.Admitted header → (counted header done).count r.entry =
      .ok (counted header (done ++ [r])) :=
    fun r hr => count_counted hr.entry.constraint_lt hroom
  refine (computes_skipped ending header (counted header done).count
    fun r hr h => by rw [hcount r hr] at h; cases h).congr ?_
  intro piece s
  constructor
  · rintro ⟨r, hr, rfl, hs⟩
    rw [hcount r hr] at hs
    exact ⟨r, hr, rfl, trivial, (Except.ok.inj hs).symm⟩
  · rintro ⟨r, hr, rfl, -, rfl⟩
    exact ⟨r, hr, rfl, hcount r hr⟩

end Loops

/-! ### The second sweep -/

section Fill

variable {ending : IoError} {header : HeaderGroth} {done : List Record} {n : Nat}
  {lengths : Fin 2 → List Nat}

/-- The tables of rows of planned lengths after some records. -/
def filled (n : Nat) (lengths : Fin 2 → List Nat) (records : List Record) : Filling where
  rowOffsets m := cursors 0 (lengths m) (rowsOf records n m) ++ [(lengths m).sum]
  coefficients m := (padded (0, 0) (lengths m) (rowsOf records n m)).map Prod.fst
  signals m := (padded (0, 0) (lengths m) (rowsOf records n m)).map Prod.snd

theorem filled_rowOffsets (records : List Record) (m : Fin 2) :
    (filled n lengths records).rowOffsets m =
      cursors 0 (lengths m) (rowsOf records n m) ++ [(lengths m).sum] := rfl

theorem filled_coefficients (records : List Record) (m : Fin 2) :
    (filled n lengths records).coefficients m =
      (padded (0, 0) (lengths m) (rowsOf records n m)).map Prod.fst := rfl

theorem filled_signals (records : List Record) (m : Fin 2) :
    (filled n lengths records).signals m =
      (padded (0, 0) (lengths m) (rowsOf records n m)).map Prod.snd := rfl

/-- No row has more records than planned. -/
def Within (n : Nat) (lengths : Fin 2 → List Nat) (records : List Record) : Prop :=
  ∀ m, Fits (lengths m) (rowsOf records n m)

def endsOf (lengths : Fin 2 → List Nat) (m : Fin 2) : List Nat := (offsets 0 (lengths m)).drop 1

theorem put_outside {r : Record} (h : n ≤ r.entry.constraint) (hwithin : Within n lengths done) :
    Within n lengths (done ++ [r]) ∧
      (filled n lengths done).put n (endsOf lengths) r.entry r.value =
        .ok (filled n lengths (done ++ [r])) := by
  constructor
  · intro m
    rw [rowsOf_concat_outside h]
    exact hwithin m
  · rw [Filling.put, if_pos h, filled, filled]
    simp only [rowsOf_concat_outside h]
    rfl

theorem put_inside {r : Record} (h : r.entry.constraint < n) (hwithin : Within n lengths done)
    (hlength : ∀ m, (lengths m).length = n) (hsum : ∀ m, (lengths m).sum < 2 ^ 32) :
    (Within n lengths (done ++ [r]) ∧
      (filled n lengths done).put n (endsOf lengths) r.entry r.value =
        .ok (filled n lengths (done ++ [r]))) ∨
    (¬ Within n lengths (done ++ [r]) ∧
      (filled n lengths done).put n (endsOf lengths) r.entry r.value = invalid) := by
  obtain ⟨position, limit, hposition, hlimit, -, hle, haccepts⟩ :=
    (hwithin r.entry.matrix).accepts (d := ((0, 0) : Fr × Nat)) (by rwa [hlength]) 0
  obtain ⟨hfits, hcursors, hslots⟩ := haccepts r.cell
  have hsum := hsum r.entry.matrix
  have hrow := (List.getElem?_eq_some_iff.mp hposition).1
  have hpadded := (hwithin r.entry.matrix).padded_length (d := ((0, 0) : Fr × Nat))
  rw [← rowsOf_concat_self] at hfits hcursors hslots
  have hcoefficients : position < limit →
      (padded (0, 0) (lengths r.entry.matrix) (rowsOf (done ++ [r]) n r.entry.matrix)).map Prod.fst =
        ((padded (0, 0) (lengths r.entry.matrix) (rowsOf done n r.entry.matrix)).map Prod.fst).set
          position r.value := fun hlt => by
    rw [← hslots hlt, List.map_set]
    rfl
  have hsignals : position < limit →
      (padded (0, 0) (lengths r.entry.matrix) (rowsOf (done ++ [r]) n r.entry.matrix)).map Prod.snd =
        ((padded (0, 0) (lengths r.entry.matrix) (rowsOf done n r.entry.matrix)).map Prod.snd).set
          position r.entry.signal := fun hlt => by
    rw [← hslots hlt, List.map_set]
    rfl
  have hread : ((filled n lengths done).rowOffsets r.entry.matrix)[r.entry.constraint]? =
      some position := by
    rw [filled_rowOffsets, List.getElem?_append_left hrow, hposition]
  have hend : (endsOf lengths r.entry.matrix)[r.entry.constraint]? = some limit := by
    rw [endsOf, List.drop_one]
    exact hlimit
  unfold Filling.put
  rw [if_neg (by omega)]
  dsimp only
  rw [hread, hend, Panic.expect, Fallible.ok_bind, Panic.expect, Fallible.ok_bind]
  by_cases hlt : position < limit
  · refine .inl ⟨fun m => ?_, ?_⟩
    · by_cases hm : r.entry.matrix = m
      · rw [← hm]
        exact hfits.mp hlt
      · rw [rowsOf_concat_ne hm]
        exact hwithin m
    · rw [refuse, Panic.refuse, if_neg (by omega), Fallible.ok_bind, Panic.require, if_pos ?_,
        Fallible.ok_bind, Panic.require, if_pos ?_, Fallible.ok_bind, checked, if_pos (by omega),
        someOr, Fallible.ok_bind]
      · refine congrArg Except.ok ?_
        unfold filled
        dsimp only
        rw [List.set_append_left _ _ hrow]
        rw [Filling.mk.injEq]
        exact ⟨update_rowsOf done (fun rows m => cursors 0 (lengths m) rows ++ [(lengths m).sum]) r
            (by rw [hcursors]),
          update_rowsOf done (fun rows m => (padded (0, 0) (lengths m) rows).map Prod.fst) r
            (hcoefficients hlt),
          update_rowsOf done (fun rows m => (padded (0, 0) (lengths m) rows).map Prod.snd) r
            (hsignals hlt)⟩
      · rw [filled_signals, List.length_map, hpadded]
        omega
      · rw [filled_coefficients, List.length_map, hpadded]
        omega
  · refine .inr ⟨fun h => hlt (hfits.mpr (h r.entry.matrix)), ?_⟩
    rw [refuse, Panic.refuse, if_pos (by omega)]
    rfl

theorem put_filled (r : Record) (hwithin : Within n lengths done)
    (hlength : ∀ m, (lengths m).length = n) (hsum : ∀ m, (lengths m).sum < 2 ^ 32) :
    (Within n lengths (done ++ [r]) ∧
      (filled n lengths done).put n (endsOf lengths) r.entry r.value =
        .ok (filled n lengths (done ++ [r]))) ∨
    (¬ Within n lengths (done ++ [r]) ∧
      (filled n lengths done).put n (endsOf lengths) r.entry r.value = invalid) := by
  rcases Nat.lt_or_ge r.entry.constraint n with h | h
  · exact put_inside h hwithin hlength hsum
  · exact .inl (put_outside h hwithin)

theorem computes_readFill (hwithin : Within n lengths done)
    (hlength : ∀ m, (lengths m).length = n) (hsum : ∀ m, (lengths m).sum < 2 ^ 32) :
    Computes (readFill ending header n (endsOf lengths) (filled n lengths done)) fun piece s =>
      ∃ r : Record, (r.Admitted header ∧ r.Canonical) ∧ piece = r.spell ∧
        Within n lengths (done ++ [r]) ∧ s = filled n lengths (done ++ [r]) := by
  have hput := fun r => put_filled r hwithin hlength hsum
  refine (computes_record ending header ((filled n lengths done).put n (endsOf lengths))
    fun r _ h => ?_).congr ?_
  · rcases hput r with ⟨-, hok⟩ | ⟨-, herror⟩
    · rw [hok] at h
      cases h
    · rw [herror] at h
      cases h
  intro piece s
  constructor
  · rintro ⟨r, hr, rfl, hs⟩
    rcases hput r with ⟨hwithin', hok⟩ | ⟨-, herror⟩
    · rw [hok] at hs
      exact ⟨r, hr, rfl, hwithin', (Except.ok.inj hs).symm⟩
    · rw [herror] at hs
      cases hs
  · rintro ⟨r, hr, rfl, hwithin', rfl⟩
    rcases hput r with ⟨-, hok⟩ | ⟨hnot, -⟩
    · exact ⟨r, hr, rfl, hok⟩
    · exact absurd hwithin' hnot

theorem Within.of_append {rest : List Record} (h : Within n lengths (done ++ rest)) :
    Within n lengths done := by
  induction rest using List.reverseRecOn with
  | nil => rwa [List.append_nil] at h
  | append_singleton rest r ih =>
    refine ih fun m => ?_
    have hm := h m
    rw [← List.append_assoc] at hm
    by_cases hmatrix : r.entry.matrix = m
    · subst hmatrix
      rw [rowsOf_concat_self] at hm
      exact hm.of_modify
    · rwa [rowsOf_concat_ne hmatrix] at hm

end Fill

/-! ### Whole sweeps -/

section Sweeps

variable {usize : Nat} {ending : IoError} {header : HeaderGroth} {sectionSize : Nat}

/-- The piece is a section of these records. -/
structure Spells (usize : Nat) (header : HeaderGroth) (sectionSize : Nat) (records : List Record)
    (piece : List UInt8) : Prop where
  count_lt : records.length < 2 ^ 32
  size_lt : records.length * coefficientBytes + 4 < usize
  size_eq : sectionSize = records.length * coefficientBytes + 4
  admitted : ∀ r ∈ records, r.Admitted header
  piece_eq : piece = leBytes 4 records.length ++ records.flatMap Record.spell

theorem nested_nil : nested header [] = ⟨fun _ => List.replicate header.domainSize [], none⟩ :=
  congrArg (fun rows => Rows.mk rows none) (funext fun _ => rowsOf_nil)

theorem counted_nil : counted header [] = ⟨fun _ => List.replicate header.domainSize 0, none⟩ := by
  unfold counted
  simp only [rowsOf_nil, List.map_replicate]
  rfl

theorem computes_nested (count : Nat) :
    Computes (iterate (readRow ending header) count
      ⟨fun _ => List.replicate header.domainSize [], none⟩) fun piece s => ∃ records,
        records.length = count ∧ (∀ r ∈ records, r.Admitted header ∧ r.Canonical) ∧
        piece = records.flatMap Record.spell ∧ True ∧ s = nested header records := by
  rw [← nested_nil]
  exact Computes.iterate (fun _ _ _ => trivial) (fun done _ _ => computes_readRow done) count trivial
    (Nat.zero_add count)

theorem computes_counted {count : Nat} (hcount : count < 2 ^ 32) :
    Computes (iterate (readCount ending header) count
      ⟨fun _ => List.replicate header.domainSize 0, none⟩) fun piece s => ∃ records,
        records.length = count ∧ (∀ r ∈ records, r.Admitted header) ∧
        piece = records.flatMap Record.spell ∧ True ∧ s = counted header records := by
  rw [← counted_nil]
  exact Computes.iterate (fun _ _ _ => trivial)
    (fun done hlt _ => computes_readCount (by omega)) count trivial (Nat.zero_add count)

theorem computes_filled {n : Nat} {lengths : Fin 2 → List Nat} (count : Nat)
    (hlength : ∀ m, (lengths m).length = n) (hsum : ∀ m, (lengths m).sum < 2 ^ 32) :
    Computes (iterate (readFill ending header n (endsOf lengths)) count (filled n lengths []))
      fun piece s => ∃ records, records.length = count ∧
        (∀ r ∈ records, r.Admitted header ∧ r.Canonical) ∧ piece = records.flatMap Record.spell ∧
        Within n lengths records ∧ s = filled n lengths records := by
  have hempty : Within n lengths [] := by
    intro m
    rw [rowsOf_nil, ← hlength m]
    exact fits_empty _
  exact Computes.iterate (fun _ _ h => h.of_append)
    (fun done _ hwithin => computes_readFill hwithin hlength hsum) count hempty (Nat.zero_add count)

end Sweeps

end Curvy.Prover.ZkeyMatrices
