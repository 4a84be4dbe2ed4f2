import Curvy.Lib.BucketMethod
import Curvy.Lib.Loop
import Curvy.Prover.AffineBucketsRuns
import Curvy.Prover.Msm

/-!
# Every path to a sum of multiples

Both kinds of buckets hold the sums by digit, both ways to add buckets up weigh each by its digit,
and the windows add up to the multiples by the scalars.
-/

namespace Curvy.Prover.Msm

set_option autoImplicit false

open BucketMethod

section Groups

variable {F B V : Type} [Field F] [DecidableEq F]

/-! ## Digits and points -/

theorem finRange_map {G : Type} (n : ℕ) (g : ℕ → G) :
    (List.finRange n).map (fun k : Fin n => g k) = (List.range n).map g := by
  rw [← List.map_coe_finRange_eq_range, List.map_map]
  rfl

/-- The points of a window by their digits. -/
noncomputable def points (P : SWCurveConfig F) (entries : List (Int × Affine F)) :
    List (Int × P.curve.Point) :=
  entries.map fun e => (e.1, groupPoint P e.2)

/-- The window's part in the result. -/
noncomputable def windowValue (P : SWCurveConfig F) (entries : List (Int × Affine F)) :
    P.curve.Point :=
  (entries.map fun e => e.1 • groupPoint P e.2).sum

theorem weighted_byDigit {P : SWCurveConfig F} {n : ℕ} {entries : List (Int × Affine F)}
    (h : ∀ e ∈ entries, e.1.natAbs ≤ n) :
    weighted ((List.finRange n).map fun k : Fin n => byDigit (points P entries) k) =
      windowValue P entries := by
  rw [finRange_map n (byDigit (points P entries)), weighted_eq, List.length_map, List.length_range,
    windowValue]
  have hcells : ∀ k ∈ Finset.range n, (k + 1) • ((List.range n).map
      (byDigit (points P entries))).getD k 0 = (k + 1) • byDigit (points P entries) k := by
    intro k hk
    have hlt : k < ((List.range n).map (byDigit (points P entries))).length := by
      rw [List.length_map, List.length_range]
      exact Finset.mem_range.mp hk
    rw [List.getD_eq_getElem _ _ hlt, List.getElem_map, List.getElem_range]
  rw [Finset.sum_congr rfl hcells, sum_byDigit, points, List.map_map]
  · rfl
  · intro e he
    obtain ⟨entry, hentry, rfl⟩ := List.mem_map.mp he
    exact h entry hentry

/-! ## The library -/

/-- What the code relies on in the curve library: buckets and points add in the group. -/
structure GroupLaws (P : SWCurveConfig F) (ops : GroupOps F B V) (WellFormed : B → Prop)
    (value : B → P.curve.Point) (Valid : V → Prop) (point : V → P.curve.Point) : Prop extends
    BucketLaws P ops.toBucketOps WellFormed value where
  sub_wellFormed : ∀ b p, WellFormed b → OnCurve P p → WellFormed (ops.sub b p)
  sub_value : ∀ b p, WellFormed b → OnCurve P p → value (ops.sub b p) = value b - groupPoint P p
  merge_wellFormed : ∀ b c, WellFormed b → WellFormed c → WellFormed (ops.merge b c)
  merge_value : ∀ b c, WellFormed b → WellFormed c → value (ops.merge b c) = value b + value c
  into_valid : ∀ b, WellFormed b → Valid (ops.into b)
  into_point : ∀ b, WellFormed b → point (ops.into b) = value b
  zeroV_valid : Valid ops.zeroV
  zeroV_point : point ops.zeroV = 0
  double_valid : ∀ v, Valid v → Valid (ops.doubleInPlace v)
  double_point : ∀ v, Valid v → point (ops.doubleInPlace v) = point v + point v
  addV_valid : ∀ v w, Valid v → Valid w → Valid (ops.addV v w)
  addV_point : ∀ v w, Valid v → Valid w → point (ops.addV v w) = point v + point w

variable {P : SWCurveConfig F} {ops : GroupOps F B V} {WellFormed : B → Prop}
  {value : B → P.curve.Point} {Valid : V → Prop} {point : V → P.curve.Point}
  (laws : GroupLaws P ops WellFormed value Valid point)

include laws

/-! ## Sums of buckets -/

/-- The running sums over some buckets, from the last to the first. -/
theorem reduction_value {κ : Type} (put : B → κ → B) (cell : κ → P.curve.Point)
    (hput : ∀ b k, WellFormed b → WellFormed (put b k) ∧ value (put b k) = value b + cell k)
    (ks : List κ) :
    let r := ks.foldr (fun k r => (⟨put r.running k, ops.merge r.sum (put r.running k)⟩ :
      Reduction B)) ⟨ops.zero, ops.zero⟩
    (WellFormed r.running ∧ WellFormed r.sum) ∧
      value r.running = (ks.map cell).sum ∧ value r.sum = weighted (ks.map cell) := by
  induction ks with
  | nil =>
    exact ⟨⟨laws.zero_wellFormed, laws.zero_wellFormed⟩, laws.zero_value, laws.zero_value⟩
  | cons k ks ih =>
    obtain ⟨⟨hrunning, hsum⟩, hrunningValue, hsumValue⟩ := ih
    obtain ⟨hnext, hnextValue⟩ := hput _ k hrunning
    dsimp only
    rw [List.foldr_cons, List.map_cons, List.sum_cons, weighted]
    refine ⟨⟨hnext, laws.merge_wellFormed _ _ hsum hnext⟩, ?_, ?_⟩
    · rw [hnextValue, hrunningValue, add_comm]
    · rw [laws.merge_value _ _ hsum hnext, hsumValue, hnextValue, hrunningValue]

/-- Plain buckets. -/
theorem xyzzWindowSum_value {n : ℕ} {buckets : Fin n → B} (hfine : ∀ k, WellFormed (buckets k))
    {entries : List (Int × Affine F)} (hdigits : ∀ e ∈ entries, e.1.natAbs ≤ n)
    (hcells : ∀ k, value (buckets k) = byDigit (points P entries) k) :
    Valid (xyzzWindowSum ops buckets) ∧
      point (xyzzWindowSum ops buckets) = windowValue P entries := by
  obtain ⟨⟨_, hsum⟩, _, hvalue⟩ := reduction_value laws (fun b k => ops.merge b (buckets k))
    (fun k => value (buckets k))
    (fun b k hb => ⟨laws.merge_wellFormed b _ hb (hfine k), laws.merge_value b _ hb (hfine k)⟩)
    (List.finRange n)
  refine ⟨laws.into_valid _ hsum, (laws.into_point _ hsum).trans (hvalue.trans ?_)⟩
  simp only [hcells]
  exact weighted_byDigit hdigits

/-- A window that has taken in some digits, with nothing that waits. -/
structure Finished (P : SWCurveConfig F) (WellFormed : B → Prop) (value : B → P.curve.Point)
    {n : ℕ} (s : AffineBuckets F B n) (entries : List (Int × Affine F)) : Prop where
  batch : s.batch = []
  deferred : s.deferred = []
  buckets_on : ∀ k, OnCurve P (s.buckets k)
  overflow_on : ∀ overflow, s.overflow = some overflow → ∀ k, WellFormed (overflow k)
  holds : ∀ k : Fin n, groupPoint P (s.buckets k) +
    s.overflow.elim 0 (fun overflow => value (overflow k)) = byDigit (points P entries) k

/-- Batch-affine buckets and their overflow. -/
theorem windowSum_value {n : ℕ} {s : AffineBuckets F B n} {entries : List (Int × Affine F)}
    (h : Finished P WellFormed value s entries) (hdigits : ∀ e ∈ entries, e.1.natAbs ≤ n) :
    ∃ v, s.windowSum ops = some v ∧ Valid v ∧ point v = windowValue P entries := by
  have hput : ∀ b (k : Fin n), WellFormed b →
      WellFormed (s.overflow.elim (ops.add b (s.buckets k)) fun overflow =>
          ops.merge (ops.add b (s.buckets k)) (overflow k)) ∧
        value (s.overflow.elim (ops.add b (s.buckets k)) fun overflow =>
          ops.merge (ops.add b (s.buckets k)) (overflow k)) =
            value b + byDigit (points P entries) k := by
    intro b k hb
    have hadd := laws.add_wellFormed b _ hb (h.buckets_on k)
    have haddValue := laws.add_value b _ hb (h.buckets_on k)
    rw [← h.holds k]
    cases hoverflow : s.overflow with
    | none =>
      refine ⟨hadd, haddValue.trans ?_⟩
      rw [Option.elim_none, add_zero]
    | some overflow =>
      have hcell := h.overflow_on overflow hoverflow k
      refine ⟨laws.merge_wellFormed _ _ hadd hcell, ?_⟩
      rw [Option.elim_some, laws.merge_value _ _ hadd hcell, haddValue, Option.elim_some, add_assoc]
  obtain ⟨⟨_, hsum⟩, _, hvalue⟩ := reduction_value laws _ _ hput (List.finRange n)
  refine ⟨_, ?_, laws.into_valid _ hsum,
    (laws.into_point _ hsum).trans (hvalue.trans (weighted_byDigit hdigits))⟩
  rw [AffineBuckets.windowSum, if_pos ⟨List.isEmpty_iff.mpr h.batch,
    List.isEmpty_iff.mpr h.deferred⟩]

/-- The windows, added up from the highest. -/
theorem reduceMsmWindowSums_value {windowSums : List V} (hvalid : ∀ v ∈ windowSums, Valid v)
    (width : ℕ) :
    Valid (reduceMsmWindowSums ops windowSums width) ∧
      point (reduceMsmWindowSums ops windowSums width) =
        horner (2 ^ width) (windowSums.map point) := by
  have hdouble : ∀ (v : V) (m : ℕ), Valid v → Valid (ops.doubleInPlace^[m] v) ∧
      point (ops.doubleInPlace^[m] v) = 2 ^ m • point v := by
    intro v m hv
    induction m with
    | zero => exact ⟨hv, (one_nsmul _).symm⟩
    | succ m ih =>
      rw [Function.iterate_succ_apply']
      refine ⟨laws.double_valid _ ih.1, ?_⟩
      rw [laws.double_point _ ih.1, ih.2, ← two_nsmul, ← mul_nsmul', pow_succ']
  induction windowSums with
  | nil => exact ⟨laws.zeroV_valid, laws.zeroV_point⟩
  | cons sum windowSums ih =>
    obtain ⟨hsum, hsums⟩ := List.forall_mem_cons.mp hvalid
    obtain ⟨htotal, htotalValue⟩ := ih hsums
    obtain ⟨hdoubled, hdoubledValue⟩ := hdouble _ width htotal
    refine ⟨laws.addV_valid _ _ hdoubled hsum, (laws.addV_point _ _ hdoubled hsum).trans ?_⟩
    rw [List.map_cons, horner, ← htotalValue]
    exact congrArg (· + point sum) hdoubledValue

/-! ## Windows -/

/-- One point in plain buckets. -/
theorem xyzzAdd_value {n : ℕ} {buckets : Fin n → B} (hfine : ∀ k, WellFormed (buckets k))
    {digit : Int} {base : Affine F} (hdigit : digit.natAbs ≤ n) (hon : OnCurve P base) :
    ∃ buckets', xyzzAdd ops buckets digit base = some buckets' ∧
      (∀ k, WellFormed (buckets' k)) ∧
      ∀ k, value (buckets' k) = value (buckets k) + byDigit (points P [(digit, base)]) k := by
  have hsingle : ∀ k : ℕ, byDigit (points P [(digit, base)]) k =
      if digit = (k : Int) + 1 then groupPoint P base
      else if digit = -((k : Int) + 1) then -groupPoint P base else 0 := by
    intro k
    rw [points, List.map_singleton, byDigit_cons]
    exact add_zero _
  by_cases hzero : digit = 0
  · refine ⟨buckets, by rw [xyzzAdd, if_pos hzero], hfine, ?_⟩
    intro k
    rw [hsingle, if_neg (by omega), if_neg (by omega), add_zero]
  · have hindex : digit.natAbs - 1 < n := by omega
    have hupdate : ∀ b : B, WellFormed b → (∀ k, WellFormed
        (Function.update buckets (⟨digit.natAbs - 1, hindex⟩ : Fin n) b k)) := by
      intro b hb k
      rw [Function.update_apply]
      split
      · exact hb
      · exact hfine k
    by_cases hpos : 0 < digit
    · refine ⟨_, by rw [xyzzAdd, if_neg hzero, dif_pos hindex, if_pos hpos],
        hupdate _ (laws.add_wellFormed _ _ (hfine _) hon), ?_⟩
      intro k
      rw [Function.update_apply, hsingle]
      split
      · rename_i hk
        have hval : (k : ℕ) = digit.natAbs - 1 := congrArg Fin.val hk
        rw [if_pos (by omega), laws.add_value _ _ (hfine _) hon, hk]
      · rename_i hk
        have hval : (k : ℕ) ≠ digit.natAbs - 1 := fun h => hk (Fin.ext h)
        rw [if_neg (by omega), if_neg (by omega), add_zero]
    · refine ⟨_, by rw [xyzzAdd, if_neg hzero, dif_pos hindex, if_neg hpos],
        hupdate _ (laws.sub_wellFormed _ _ (hfine _) hon), ?_⟩
      intro k
      rw [Function.update_apply, hsingle]
      split
      · rename_i hk
        have hval : (k : ℕ) = digit.natAbs - 1 := congrArg Fin.val hk
        rw [if_neg (by omega), if_pos (by omega), laws.sub_value _ _ (hfine _) hon, hk,
          sub_eq_add_neg]
      · rename_i hk
        have hval : (k : ℕ) ≠ digit.natAbs - 1 := fun h => hk (Fin.ext h)
        rw [if_neg (by omega), if_neg (by omega), add_zero]

theorem xyzzFold_value {n : ℕ} (entries : List (Int × Affine F))
    (hdigits : ∀ e ∈ entries, e.1.natAbs ≤ n) (hon : ∀ e ∈ entries, OnCurve P e.2)
    (buckets : Fin n → B) (hfine : ∀ k, WellFormed (buckets k)) :
    ∃ buckets', entries.foldlM (fun buckets entry => xyzzAdd ops buckets entry.1 entry.2) buckets =
        some buckets' ∧
      (∀ k, WellFormed (buckets' k)) ∧
      ∀ k, value (buckets' k) = value (buckets k) + byDigit (points P entries) k := by
  induction entries generalizing buckets with
  | nil => exact ⟨buckets, rfl, hfine, fun k => (add_zero _).symm⟩
  | cons e entries ih =>
    obtain ⟨hdigit, hdigits'⟩ := List.forall_mem_cons.mp hdigits
    obtain ⟨he, hon'⟩ := List.forall_mem_cons.mp hon
    obtain ⟨next, hnext, hnextFine, hnextValue⟩ := xyzzAdd_value laws hfine hdigit he
    obtain ⟨buckets', hrest, hfine', hvalue⟩ := ih hdigits' hon' next hnextFine
    refine ⟨buckets', ?_, hfine', ?_⟩
    · rw [List.foldlM_cons, hnext]
      exact hrest
    · intro k
      have hsplit : byDigit (points P (e :: entries)) k =
          byDigit (points P [e]) k + byDigit (points P entries) k := by
        rw [points, List.map_cons, byDigit_cons, points, List.map_singleton, byDigit_cons]
        exact congrArg (· + _) (add_zero _).symm
      rw [hvalue k, hnextValue k, hsplit, add_assoc]

theorem signedWindowSum_value {width : ℕ} {entries : List (Int × Affine F)}
    (hdigits : ∀ e ∈ entries, e.1.natAbs ≤ bucketCount width)
    (hon : ∀ e ∈ entries, OnCurve P e.2) :
    ∃ v, signedWindowSum ops entries width = some v ∧ Valid v ∧
      point v = windowValue P entries := by
  obtain ⟨buckets, hrun, hfine, hvalue⟩ := xyzzFold_value laws entries hdigits hon
    (fun _ : Fin (bucketCount width) => ops.zero) (fun _ => laws.zero_wellFormed)
  have hcells : ∀ k, value (buckets k) = byDigit (points P entries) k := by
    intro k
    rw [hvalue k, laws.zero_value, zero_add]
  refine ⟨_, ?_, xyzzWindowSum_value laws hfine hdigits hcells⟩
  rw [signedWindowSum, xyzzBuckets, hrun]
  rfl

omit laws in
/-- A window that took in some digits and holds nothing back. -/
theorem finished_of_takes {n batchSize : ℕ} {entries : List (Int × Affine F)}
    {s : AffineBuckets F B n}
    (htakes : AffineBuckets.Takes (P := P) WellFormed value
      ⟨fun _ => Affine.identity, none, [], [], fun _ => .free, batchSize⟩ s
      (entries.flatMap (AffineBuckets.digitEntries n)))
    (hbatch : s.batch = []) (hdeferred : s.deferred = [])
    (hdigits : ∀ e ∈ entries, e.1.natAbs ≤ n) (hon : ∀ e ∈ entries, OnCurve P e.2) :
    Finished P WellFormed value s entries := by
  have hproper : ∀ e ∈ entries.flatMap (AffineBuckets.digitEntries n),
      AffineBuckets.Proper P e.2 := by
    intro e he
    obtain ⟨entry, hentry, hmem⟩ := List.mem_flatMap.mp he
    exact AffineBuckets.digitEntries_proper (hon entry hentry) e hmem
  have hsound := htakes.sound AffineBuckets.empty_sound hproper
  refine ⟨hbatch, hdeferred, hsound.buckets_on, hsound.overflow_on, ?_⟩
  intro k
  have hheld := htakes.held AffineBuckets.empty_sound hproper k
  rw [AffineBuckets.flatMap_sum hdigits hon, AffineBuckets.held, AffineBuckets.held, hbatch,
    hdeferred, groupPoint_identity] at hheld
  have hsum : AffineBuckets.bucketSum P entries k = byDigit (points P entries) k := by
    rw [byDigit, points, List.map_map]
    rfl
  rw [← hsum]
  simpa [AffineBuckets.batchEntries, AffineBuckets.weigh] using hheld

theorem batchAffineWindowSum_value (hodd : (2 : F) ≠ 0) {width batch : ℕ} (hwidth : 0 < width)
    (hword : width ≤ 64) {entries : List (Int × Affine F)}
    (hdigits : ∀ e ∈ entries, e.1.natAbs ≤ bucketCount width)
    (hon : ∀ e ∈ entries, OnCurve P e.2) :
    ∃ v, batchAffineWindowSum ops P entries width batch = some v ∧ Valid v ∧
      point v = windowValue P entries := by
  have hsize : 0 < max batch 1 := by omega
  obtain ⟨s₁, hfold, htakes₁⟩ := AffineBuckets.foldDigits_takes hodd laws.toBucketLaws
    (AffineBuckets.empty_coupled hsize) (by exact hsize) entries hdigits
  obtain ⟨s₂, hfinish, htakes₂, hbatch, hdeferred⟩ := AffineBuckets.finishLoop_takes hodd
    laws.toBucketLaws htakes₁.coupled (Nat.lt_succ_self _)
  have htakes := htakes₁.trans htakes₂
  rw [List.append_nil] at htakes
  have hfinished := finished_of_takes htakes hbatch hdeferred hdigits hon
  obtain ⟨v, hsum, hvalue⟩ := windowSum_value laws hfinished hdigits
  refine ⟨v, ?_, hvalue⟩
  have hstart : (AffineBuckets.withBatchSize width batch :
      Option (AffineBuckets F B (bucketCount width))) =
        some ⟨fun _ => Affine.identity, none, [], [], fun _ => .free, max batch 1⟩ := by
    rw [AffineBuckets.withBatchSize, if_neg (by omega)]
  rw [batchAffineWindowSum, hstart]
  refine (congrArg (Option.bind · _) (hfold _ fun _ _ => rfl)).trans ?_
  refine (congrArg (Option.bind · _) (hfinish _ fun _ _ => rfl)).trans ?_
  exact hsum

/-! ## Whole sums -/

/-- The multiples of the bases by the scalars, summed. -/
noncomputable def multiples (P : SWCurveConfig F) (entries : List (Affine F × BigInt)) :
    P.curve.Point :=
  (entries.map fun e => Limbs.value e.2 • groupPoint P e.1).sum

omit laws in
/-- The windows of a canonical scalar make it up. -/
theorem sum_digits {width : ℕ} (hlow : 3 ≤ width) (hhigh : width ≤ 16) {scalar : BigInt}
    (hscalar : Limbs.value scalar < Witness.frModulus) :
    ∑ i ∈ Finset.range (windowCount width),
        signedWindowDigit scalar width i * ((2 ^ width : ℕ) : Int) ^ i =
      (Limbs.value scalar : Int) := by
  have hle : Limbs.value scalar ≤ Balanced.largest width (windowCount width) :=
    le_trans (Nat.le_of_lt hscalar) (modulus_le_largest hlow hhigh)
  rw [← Balanced.sum_digits_of_le (by omega) hle]
  apply Finset.sum_congr rfl
  intro i _
  rw [signedWindowDigit_eq scalar (by omega) hhigh, Nat.cast_pow, ← pow_mul]
  rfl

/-- Windows that hold the digits of their scalars add up to the multiples. -/
theorem reduce_windows {width : ℕ} (hlow : 3 ≤ width) (hhigh : width ≤ 16)
    {entries : List (Affine F × BigInt)}
    (hcanonical : ∀ e ∈ entries, Limbs.value e.2 < Witness.frModulus) {sums : ℕ → V}
    (hsums : ∀ i, i < windowCount width → Valid (sums i) ∧ point (sums i) =
      windowValue P (entries.map fun e => (signedWindowDigit e.2 width i, e.1))) :
    point (reduceMsmWindowSums ops ((List.range (windowCount width)).map sums) width) =
      multiples P entries := by
  have hvalid : ∀ v ∈ (List.range (windowCount width)).map sums, Valid v := by
    intro v hv
    obtain ⟨i, hi, rfl⟩ := List.mem_map.mp hv
    exact (hsums i (List.mem_range.mp hi)).1
  rw [(reduceMsmWindowSums_value laws hvalid width).2, horner_eq, List.length_map, List.length_map,
    List.length_range]
  have hcells : ∀ i ∈ Finset.range (windowCount width), (2 ^ width) ^ i •
      (((List.range (windowCount width)).map sums).map point).getD i 0 =
        (2 ^ width) ^ i • ((entries.map fun e => (e.2, groupPoint P e.1)).map
          fun e => signedWindowDigit e.1 width i • e.2).sum := by
    intro i hi
    have hlt : i < (((List.range (windowCount width)).map sums).map point).length := by
      rw [List.length_map, List.length_map, List.length_range]
      exact Finset.mem_range.mp hi
    rw [List.getD_eq_getElem _ _ hlt, List.getElem_map, List.getElem_map, List.getElem_range,
      (hsums i (Finset.mem_range.mp hi)).2, windowValue, List.map_map, List.map_map]
    rfl
  rw [Finset.sum_congr rfl hcells, sum_windows (2 ^ width) (windowCount width)
    (entries.map fun e => (e.2, groupPoint P e.1)) (fun s i => signedWindowDigit s width i)
    Limbs.value, List.map_map]
  · rfl
  · intro e he
    obtain ⟨entry, hentry, rfl⟩ := List.mem_map.mp he
    exact sum_digits hlow hhigh (hcanonical entry hentry)

theorem msmBigintWithAccumulation_value (hodd : (2 : F) ≠ 0) {width : ℕ} (hlow : 3 ≤ width)
    (hhigh : width ≤ 16) (accumulation : Accumulation) (batch : Option ℕ)
    {bases : List (Affine F)} {scalars : List BigInt} (hon : ∀ b ∈ bases, OnCurve P b)
    (hcanonical : ∀ s ∈ scalars, Limbs.value s < Witness.frModulus) :
    ∃ v, msmBigintWithAccumulation ops P bases scalars width accumulation batch = some v ∧
      Valid v ∧ point v = multiples P (bases.zip scalars) := by
  unfold msmBigintWithAccumulation
  rw [if_pos ⟨hlow, hhigh⟩]
  dsimp only
  have hzip : (bases.take (min bases.length scalars.length)).zip
      (scalars.take (min bases.length scalars.length)) = bases.zip scalars :=
    List.zip_eq_zip_take_min.symm
  by_cases hempty : min bases.length scalars.length = 0
  · rw [if_pos hempty]
    refine ⟨ops.zeroV, rfl, laws.zeroV_valid, laws.zeroV_point.trans ?_⟩
    have hnil : bases.zip scalars = [] := by
      rw [← List.length_eq_zero_iff, List.length_zip, hempty]
    rw [hnil]
    rfl
  · rw [if_neg hempty]
    have hentries : ∀ i, ∀ e ∈ windowDigits (bases.take (min bases.length scalars.length))
        (scalars.take (min bases.length scalars.length)) width i,
        e.1.natAbs ≤ bucketCount width ∧ OnCurve P e.2 := by
      intro i e he
      rw [windowDigits, hzip] at he
      obtain ⟨entry, hentry, rfl⟩ := List.mem_map.mp he
      exact ⟨AffineBuckets.signedWindowDigit_bucket entry.2 (by omega) hhigh i,
        hon _ (List.of_mem_zip hentry).1⟩
    have hwindow : ∀ i, ∃ v, accumulatedWindowSum ops P (windowDigits
        (bases.take (min bases.length scalars.length))
        (scalars.take (min bases.length scalars.length)) width i) width batch accumulation =
          some v ∧ Valid v ∧ point v = windowValue P ((bases.zip scalars).map fun e =>
            (signedWindowDigit e.2 width i, e.1)) := by
      intro i
      rw [← hzip]
      cases accumulation with
      | xyzz =>
        exact signedWindowSum_value laws (fun e he => (hentries i e he).1)
          fun e he => (hentries i e he).2
      | batchAffine =>
        exact batchAffineWindowSum_value laws hodd (by omega) (by omega)
          (fun e he => (hentries i e he).1) fun e he => (hentries i e he).2
    choose sums hsums using hwindow
    refine ⟨reduceMsmWindowSums ops ((List.range (windowCount width)).map sums) width, ?_, ?_, ?_⟩
    · rw [Loop.mapM_range fun i _ => (hsums i).1]
      rfl
    · refine (reduceMsmWindowSums_value laws ?_ width).1
      intro v hv
      obtain ⟨i, _, rfl⟩ := List.mem_map.mp hv
      exact (hsums i).2.1
    · refine reduce_windows laws hlow hhigh ?_ fun i _ => (hsums i).2
      intro e he
      exact hcanonical _ (List.of_mem_zip he).2

/-! ### The widths -/

omit laws in
theorem residentWindowBits_bounds (parallel : Bool) (points : ℕ) :
    3 ≤ residentWindowBits parallel points ∧ residentWindowBits parallel points ≤ 16 := by
  cases parallel with
  | true =>
    rw [residentWindowBits, if_pos rfl, adaptiveWindowBits]
    split_ifs <;> omega
  | false =>
    rw [residentWindowBits, if_neg Bool.false_ne_true, serialWindowBits]
    split
    · omega
    · rename_i hlarge
      have hlog : 5 ≤ Nat.clog 2 points := by
        rw [← Nat.clog_pow 2 5 (by decide)]
        exact Nat.clog_mono_right 2 (by omega)
      omega

theorem msmBigintWithWindow_value (hodd : (2 : F) ≠ 0) (parallel : Bool) (points : ℕ)
    {bases : List (Affine F)} {scalars : List BigInt} (hon : ∀ b ∈ bases, OnCurve P b)
    (hcanonical : ∀ s ∈ scalars, Limbs.value s < Witness.frModulus) :
    ∃ v, msmBigintWithWindow ops P bases scalars (residentWindowBits parallel points) = some v ∧
      Valid v ∧ point v = multiples P (bases.zip scalars) := by
  obtain ⟨hlow, hhigh⟩ := residentWindowBits_bounds parallel points
  exact msmBigintWithAccumulation_value laws hodd hlow hhigh _ none hon hcanonical

theorem msmBigint_value (hodd : (2 : F) ≠ 0) (parallel : Bool) {bases : List (Affine F)}
    {scalars : List BigInt} (hon : ∀ b ∈ bases, OnCurve P b)
    (hcanonical : ∀ s ∈ scalars, Limbs.value s < Witness.frModulus) :
    ∃ v, msmBigint ops P parallel bases scalars = some v ∧ Valid v ∧
      point v = multiples P (bases.zip scalars) := by
  unfold msmBigint
  dsimp only
  split
  · rename_i hempty
    refine ⟨ops.zeroV, rfl, laws.zeroV_valid, laws.zeroV_point.trans ?_⟩
    have hnil : bases.zip scalars = [] := by
      rw [← List.length_eq_zero_iff, List.length_zip, hempty]
    rw [hnil]
    rfl
  · obtain ⟨v, hrun, hvalue⟩ := msmBigintWithWindow_value laws hodd parallel
      (min bases.length scalars.length)
      (fun b hb => hon b (List.mem_of_mem_take hb)) fun s hs =>
        hcanonical s (List.mem_of_mem_take hs)
    rw [← List.zip_eq_zip_take_min] at hvalue
    exact ⟨v, hrun, hvalue⟩

/-! ### Trivial scalars -/

omit laws in
theorem oneScalar_value : Limbs.value oneScalar = 1 := by decide

omit laws in
theorem multiples_cons (e : Affine F × BigInt) (entries : List (Affine F × BigInt)) :
    multiples P (e :: entries) = Limbs.value e.2 • groupPoint P e.1 + multiples P entries := by
  rw [multiples, List.map_cons, List.sum_cons]
  rfl

omit laws in
theorem multiples_append (front back : List (Affine F × BigInt)) :
    multiples P (front ++ back) = multiples P front + multiples P back := by
  rw [multiples, List.map_append, List.sum_append]
  rfl

/-- The bases with the scalar one. -/
theorem addOne_value (entries : List (Affine F × BigInt)) (hon : ∀ e ∈ entries, OnCurve P e.1)
    {b : B} (hb : WellFormed b) :
    WellFormed (entries.foldl (addOne ops) b) ∧ value (entries.foldl (addOne ops) b) =
      value b + multiples P (entries.filter fun e => e.2 = oneScalar) := by
  induction entries generalizing b with
  | nil => exact ⟨hb, (add_zero _).symm⟩
  | cons e entries ih =>
    obtain ⟨he, hon'⟩ := List.forall_mem_cons.mp hon
    rw [List.foldl_cons, addOne]
    by_cases hone : e.2 = oneScalar
    · rw [if_pos hone, List.filter_cons_of_pos (by exact decide_eq_true hone)]
      obtain ⟨hfine, hvalue⟩ := ih hon' (laws.add_wellFormed b _ hb he)
      refine ⟨hfine, hvalue.trans ?_⟩
      rw [laws.add_value b _ hb he, multiples_cons, hone, oneScalar_value, one_nsmul, add_assoc]
    · rw [if_neg hone, List.filter_cons_of_neg (by simpa using hone)]
      exact ih hon' hb

theorem reduceOnes_value (pool : Grouping (Affine F × BigInt)) (hon : ∀ e ∈ pool.items, OnCurve P e.1) :
    WellFormed (reduceOnes ops pool) ∧ value (reduceOnes ops pool) =
      multiples P (pool.items.filter fun e => e.2 = oneScalar) := by
  induction pool with
  | empty => exact ⟨laws.zero_wellFormed, laws.zero_value⟩
  | piece items =>
    obtain ⟨hfine, hvalue⟩ := addOne_value laws items hon laws.zero_wellFormed
    refine ⟨hfine, hvalue.trans ?_⟩
    rw [laws.zero_value, zero_add, Grouping.items]
  | join left right hleft hright =>
    obtain ⟨honLeft, honRight⟩ := List.forall_mem_append.mp hon
    obtain ⟨hfine, hvalue⟩ := hleft honLeft
    obtain ⟨hfine', hvalue'⟩ := hright honRight
    refine ⟨laws.merge_wellFormed _ _ hfine hfine', (laws.merge_value _ _ hfine hfine').trans ?_⟩
    rw [hvalue, hvalue', Grouping.items, List.filter_append, multiples_append]

theorem onesSum_value {pool : Option (Grouping (Affine F × BigInt))}
    {bases : List (Affine F)} {scalars : List BigInt} (hon : ∀ b ∈ bases, OnCurve P b)
    (hpool : ∀ g, pool = some g → g.items = bases.zip scalars) :
    Valid (onesSum ops pool bases scalars) ∧ point (onesSum ops pool bases scalars) =
      multiples P ((bases.zip scalars).filter fun e => e.2 = oneScalar) := by
  have hzip : ∀ e ∈ bases.zip scalars, OnCurve P e.1 :=
    fun e he => hon _ (List.of_mem_zip he).1
  unfold onesSum
  cases hcases : pool with
  | none =>
    obtain ⟨hfine, hvalue⟩ := addOne_value laws (bases.zip scalars) hzip laws.zero_wellFormed
    refine ⟨laws.into_valid _ hfine, (laws.into_point _ hfine).trans (hvalue.trans ?_)⟩
    rw [laws.zero_value, zero_add]
  | some g =>
    have hitems := hpool g hcases
    obtain ⟨hfine, hvalue⟩ := reduceOnes_value laws g (by rw [hitems]; exact hzip)
    refine ⟨laws.into_valid _ hfine, (laws.into_point _ hfine).trans (hvalue.trans ?_)⟩
    rw [hitems]

omit laws in
/-- A scalar of zero adds nothing, so that the others are all there is. -/
theorem multiples_split (entries : List (Affine F × BigInt)) :
    multiples P entries = multiples P (entries.filter fun e => !trivial e.2) +
      multiples P (entries.filter fun e => e.2 = oneScalar) := by
  induction entries with
  | nil => exact (add_zero _).symm
  | cons e entries ih =>
    by_cases hone : e.2 = oneScalar
    · have htrivial : trivial e.2 = true := by rw [hone]; rfl
      rw [List.filter_cons_of_neg (by rw [htrivial]; decide),
        List.filter_cons_of_pos (by exact decide_eq_true hone), multiples_cons, multiples_cons, ih]
      exact add_left_comm _ _ _
    · by_cases hzero : e.2 = zeroScalar
      · have htrivial : trivial e.2 = true := by rw [hzero]; rfl
        have hvalue : Limbs.value e.2 = 0 := by rw [hzero]; decide
        rw [List.filter_cons_of_neg (by rw [htrivial]; decide),
          List.filter_cons_of_neg (by simpa using hone), multiples_cons, hvalue, zero_nsmul, zero_add, ih]
      · have htrivial : trivial e.2 = false := by
          rw [trivial, decide_eq_false hzero, decide_eq_false hone]
          rfl
        rw [List.filter_cons_of_pos (by rw [htrivial]; rfl),
          List.filter_cons_of_neg (by simpa using hone), multiples_cons, multiples_cons, ih, add_assoc]

theorem splitTrivialScalars_value (hodd : (2 : F) ≠ 0)
    {pool : Option (Grouping (Affine F × BigInt))} {bases : List (Affine F)}
    {scalars : List BigInt} (hon : ∀ b ∈ bases, OnCurve P b)
    (hcanonical : ∀ s ∈ scalars, Limbs.value s < Witness.frModulus)
    (hpool : ∀ g, pool = some g → g.items = bases.zip scalars) :
    splitTrivialScalars ops P pool bases scalars = some none ∨
      ∃ v, splitTrivialScalars ops P pool bases scalars = some (some v) ∧ Valid v ∧
        point v = multiples P (bases.zip scalars) := by
  unfold splitTrivialScalars
  dsimp only
  split
  · exact .inl rfl
  · apply Or.inr
    have hkept : (((bases.zip scalars).filter fun e => !trivial e.2).map Prod.fst).zip
        (((bases.zip scalars).filter fun e => !trivial e.2).map Prod.snd) =
          (bases.zip scalars).filter fun e => !trivial e.2 := by
      rw [List.zip_map', List.map_id'']
      exact fun _ => rfl
    have hbases : ∀ b ∈ ((bases.zip scalars).filter fun e => !trivial e.2).map Prod.fst,
        OnCurve P b := by
      intro b hb
      obtain ⟨e, he, rfl⟩ := List.mem_map.mp hb
      exact hon _ (List.of_mem_zip (List.mem_of_mem_filter he)).1
    have hscalars : ∀ s ∈ ((bases.zip scalars).filter fun e => !trivial e.2).map Prod.snd,
        Limbs.value s < Witness.frModulus := by
      intro s hs
      obtain ⟨e, he, rfl⟩ := List.mem_map.mp hs
      exact hcanonical _ (List.of_mem_zip (List.mem_of_mem_filter he)).2
    obtain ⟨rest, hrest, hvalid, hpoint⟩ : ∃ v, restSum ops P pool.isSome
        (((bases.zip scalars).filter fun e => !trivial e.2).map Prod.fst)
        (((bases.zip scalars).filter fun e => !trivial e.2).map Prod.snd) = some v ∧ Valid v ∧
          point v = multiples P ((bases.zip scalars).filter fun e => !trivial e.2) := by
      unfold restSum
      split
      · rename_i hempty
        rw [List.length_map, List.length_eq_zero_iff] at hempty
        rw [hempty]
        exact ⟨ops.zeroV, rfl, laws.zeroV_valid, laws.zeroV_point⟩
      · obtain ⟨v, hrun, hvalue⟩ := msmBigintWithWindow_value laws hodd pool.isSome
          (((bases.zip scalars).filter fun e => !trivial e.2).map Prod.snd).length hbases hscalars
        rw [hkept] at hvalue
        exact ⟨v, hrun, hvalue⟩
    obtain ⟨hones, honesPoint⟩ := onesSum_value laws hon hpool
    refine ⟨ops.addV rest (onesSum ops pool bases scalars), ?_,
      laws.addV_valid _ _ hvalid hones, ?_⟩
    · rw [hrest]
      rfl
    · rw [laws.addV_point _ _ hvalid hones, hpoint, honesPoint, ← multiples_split]

/-- For all bases on the curve, the identity, repeated and opposite points among them, and all
canonical scalars, every path returns the sum of the multiples: either kind of buckets, every width
and batch size, the resident policy of both builds, and the wrapper wherever it applies. -/
theorem msm_is_sum (hodd : (2 : F) ≠ 0) {bases : List (Affine F)} {scalars : List BigInt}
    (hon : ∀ b ∈ bases, OnCurve P b)
    (hcanonical : ∀ s ∈ scalars, Limbs.value s < Witness.frModulus) :
    (∀ width accumulation batch, 3 ≤ width → width ≤ 16 →
      ∃ v, msmBigintWithAccumulation ops P bases scalars width accumulation batch = some v ∧
        point v = multiples P (bases.zip scalars)) ∧
    (∀ parallel, ∃ v, msmBigint ops P parallel bases scalars = some v ∧
      point v = multiples P (bases.zip scalars)) ∧
    ∀ pool, (∀ g, pool = some g → g.items = bases.zip scalars) →
      splitTrivialScalars ops P pool bases scalars = some none ∨
        ∃ v, splitTrivialScalars ops P pool bases scalars = some (some v) ∧
          point v = multiples P (bases.zip scalars) := by
  refine ⟨?_, ?_, ?_⟩
  · intro width accumulation batch hlow hhigh
    obtain ⟨v, hrun, _, hvalue⟩ := msmBigintWithAccumulation_value laws hodd hlow hhigh
      accumulation batch hon hcanonical
    exact ⟨v, hrun, hvalue⟩
  · intro parallel
    obtain ⟨v, hrun, _, hvalue⟩ := msmBigint_value laws hodd parallel hon hcanonical
    exact ⟨v, hrun, hvalue⟩
  · intro pool hpool
    rcases splitTrivialScalars_value laws hodd hon hcanonical hpool with h | ⟨v, hrun, _, hvalue⟩
    · exact .inl h
    · exact .inr ⟨v, hrun, hvalue⟩

end Groups

/-! ## Buckets that keep an affine point -/

def affineGroupOps {F : Type} [Field F] [DecidableEq F] (P : SWCurveConfig F) :
    GroupOps F (Affine F) (Affine F) where
  toBucketOps := AffineBuckets.affineOps P
  sub b p := (AffineBuckets.affineOps P).add b p.neg
  merge := (AffineBuckets.affineOps P).add
  into b := b
  zeroV := Affine.identity
  doubleInPlace v := (AffineBuckets.affineOps P).add v v
  addV := (AffineBuckets.affineOps P).add

theorem affineGroupOps_laws {F : Type} [Field F] [DecidableEq F] {P : SWCurveConfig F}
    (hodd : (2 : F) ≠ 0) :
    GroupLaws P (affineGroupOps P) (OnCurve P) (groupPoint P) (OnCurve P) (groupPoint P) := by
  have laws := AffineBuckets.affineOps_laws (P := P) hodd
  refine ⟨laws, ?_, ?_, laws.add_wellFormed, laws.add_value, fun _ h => h, fun _ _ => rfl,
    onCurve_identity, groupPoint_identity, fun v hv => laws.add_wellFormed v v hv hv,
    fun v hv => laws.add_value v v hv hv, laws.add_wellFormed, laws.add_value⟩
  · intro b p hb hp
    exact laws.add_wellFormed b p.neg hb (onCurve_neg hp)
  · intro b p hb hp
    rw [sub_eq_add_neg, ← groupPoint_neg hp]
    exact laws.add_value b p.neg hb (onCurve_neg hp)

open AffineBuckets (g1Config g1Generator g1Generator_onCurve)

/-- The generator, its opposite and the generator again. -/
def exampleBases : List (Affine Fq) := [g1Generator, g1Generator.neg, g1Generator]

def exampleScalars : List BigInt := [[2, 0, 0, 0], [1, 0, 0, 0], [0, 0, 0, 0]]

theorem msm_is_sum_example :
    (∀ width accumulation batch, 3 ≤ width → width ≤ 16 →
      ∃ v, msmBigintWithAccumulation (affineGroupOps g1Config) g1Config exampleBases
          exampleScalars width accumulation batch = some v ∧
        groupPoint g1Config v = multiples g1Config (exampleBases.zip exampleScalars)) ∧
    (∀ parallel, ∃ v, msmBigint (affineGroupOps g1Config) g1Config parallel exampleBases
        exampleScalars = some v ∧
      groupPoint g1Config v = multiples g1Config (exampleBases.zip exampleScalars)) ∧
    ∀ pool, (∀ g, pool = some g → g.items = exampleBases.zip exampleScalars) →
      splitTrivialScalars (affineGroupOps g1Config) g1Config pool exampleBases exampleScalars =
          some none ∨
        ∃ v, splitTrivialScalars (affineGroupOps g1Config) g1Config pool exampleBases
            exampleScalars = some (some v) ∧
          groupPoint g1Config v = multiples g1Config (exampleBases.zip exampleScalars) := by
  refine msm_is_sum (affineGroupOps_laws two_ne_zero) two_ne_zero ?_ ?_
  · intro b hb
    simp only [exampleBases, List.mem_cons, List.not_mem_nil, or_false] at hb
    rcases hb with rfl | rfl | rfl
    · exact g1Generator_onCurve
    · exact onCurve_neg g1Generator_onCurve
    · exact g1Generator_onCurve
  · decide

end Curvy.Prover.Msm
