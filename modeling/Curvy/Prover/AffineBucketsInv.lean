import Curvy.Prover.AffineBuckets

/-!
# One shared inversion, and what couples the parts of the buckets

Applying a batch is one affine addition for each scheduled bucket; every operation of the buckets
keeps its parts coupled and takes its points.
-/

namespace Curvy.Prover.Msm

set_option autoImplicit false

namespace AffineBuckets

variable {F B : Type} [Field F] [DecidableEq F] {n : Nat}

/-! ### Applying a batch -/

/-- Each addition of a batch on its own, from the last one to the first. -/
def addEach (P : SWCurveConfig F) (batch : List (PendingAdd F n)) (buckets : Fin n → Affine F) :
    Fin n → Affine F :=
  batch.foldr (fun pending buckets => Function.update buckets pending.bucket
    (addAffine P (buckets pending.bucket) pending.point)) buckets

def freeEach (batch : List (PendingAdd F n)) (state : Fin n → Mark) : Fin n → Mark :=
  batch.foldr (fun pending state =>
    if state pending.bucket = .scheduled then Function.update state pending.bucket .free
    else state) state

theorem addEach_cons (P : SWCurveConfig F) (pending : PendingAdd F n)
    (batch : List (PendingAdd F n)) (buckets : Fin n → Affine F) :
    addEach P (pending :: batch) buckets = Function.update (addEach P batch buckets)
      pending.bucket (addAffine P (addEach P batch buckets pending.bucket) pending.point) := rfl

theorem addEach_of_not_mem (P : SWCurveConfig F) {batch : List (PendingAdd F n)} {k : Fin n}
    (h : k ∉ batch.map fun pending => pending.bucket) (buckets : Fin n → Affine F) :
    addEach P batch buckets k = buckets k := by
  induction batch with
  | nil => rfl
  | cons pending batch ih =>
      obtain ⟨hne, hmem⟩ := not_or.mp (List.mem_cons.not.mp h)
      exact (Function.update_of_ne hne _ _).trans (ih hmem)

omit [Field F] [DecidableEq F] in
theorem freeEach_hot {batch : List (PendingAdd F n)} {state : Fin n → Mark} {k : Fin n}
    (h : freeEach batch state k = .hot) : state k = .hot := by
  induction batch with
  | nil => exact h
  | cons pending batch ih =>
      apply ih
      simp only [freeEach, List.foldr_cons] at h
      split at h
      · by_cases hk : k = pending.bucket
        · rw [hk, Function.update_self] at h
          cases h
        · rw [Function.update_of_ne hk] at h
          exact h
      · exact h

omit [Field F] [DecidableEq F] in
theorem freeEach_scheduled {batch : List (PendingAdd F n)} {state : Fin n → Mark} {k : Fin n}
    (h : freeEach batch state k = .scheduled) :
    state k = .scheduled ∧ k ∉ batch.map fun pending => pending.bucket := by
  induction batch with
  | nil => exact ⟨h, List.not_mem_nil⟩
  | cons pending batch ih =>
      rw [List.map_cons, List.mem_cons]
      by_cases hk : k = pending.bucket
      · simp only [freeEach, List.foldr_cons] at h
        split at h
        · rw [hk, Function.update_self] at h
          cases h
        · case isFalse hnot =>
            rw [hk] at h
            exact absurd h hnot
      · have hrest : freeEach batch state k = .scheduled := by
          simp only [freeEach, List.foldr_cons] at h
          split at h
          · rw [Function.update_of_ne hk] at h
            exact h
          · exact h
        obtain ⟨hstate, hmem⟩ := ih hrest
        exact ⟨hstate, not_or.mpr ⟨hk, hmem⟩⟩

/-- One round of the backward pass, given the inverse of everything up to its own denominator. -/
theorem peel_eq (P : SWCurveConfig F) (hodd : (2 : F) ≠ 0) (pending : PendingAdd F n)
    {product : F} (hproduct : product ≠ 0) {buckets : Fin n → Affine F} {bucket : Affine F}
    (hbucket : buckets pending.bucket = bucket) (state : Fin n → Mark) :
    peel P { pending with before := product, step := classify bucket pending.point }
        ⟨(product * (classify bucket pending.point).denominator bucket pending.point)⁻¹,
          buckets, state⟩
      = ⟨product⁻¹,
          Function.update buckets pending.bucket (addAffine P bucket pending.point),
          if state pending.bucket = .scheduled then Function.update state pending.bucket .free
          else state⟩ := by
  have hne := denominator_ne_zero hodd bucket pending.point
  subst hbucket
  -- the product before an addition leaves only its own denominator in the inverse
  have hslope : ∀ d : F, d ≠ 0 → (product * d)⁻¹ * product = d⁻¹ := by
    intro d hd
    field_simp
  have hpeel : ∀ d : F, d ≠ 0 → (product * d)⁻¹ * d = product⁻¹ := by
    intro d hd
    field_simp
  unfold addAffine
  cases hstep : classify (buckets pending.bucket) pending.point with
  | cancel => simp [peel, Step.denominator, Step.result]
  | add =>
      rw [hstep] at hne
      simp only [peel, hslope _ hne, hpeel _ hne, div_eq_mul_inv]
  | double =>
      rw [hstep] at hne
      simp only [peel, hslope _ hne, hpeel _ hne, div_eq_mul_inv]

/-- The two passes over a batch with distinct targets are its additions, each on its own. -/
theorem foldr_peel (P : SWCurveConfig F) (hodd : (2 : F) ≠ 0) {batch : List (PendingAdd F n)}
    (hnodup : (batch.map fun pending => pending.bucket).Nodup) (buckets : Fin n → Affine F)
    (state : Fin n → Mark) {product : F} (hproduct : product ≠ 0) :
    (forwardPass buckets product batch).2 ≠ 0 ∧
      (forwardPass buckets product batch).1.foldr (peel P)
          ⟨(forwardPass buckets product batch).2⁻¹, buckets, state⟩
        = ⟨product⁻¹, addEach P batch buckets, freeEach batch state⟩ := by
  induction batch generalizing product with
  | nil => exact ⟨hproduct, rfl⟩
  | cons pending batch ih =>
      obtain ⟨hmem, hnodup'⟩ := List.nodup_cons.mp hnodup
      have hne := denominator_ne_zero hodd (buckets pending.bucket) pending.point
      obtain ⟨hlast, hrest⟩ := ih hnodup' (mul_ne_zero hproduct hne)
      refine ⟨hlast, ?_⟩
      have htarget := addEach_of_not_mem P hmem buckets
      rw [forwardPass]
      simp only [List.foldr_cons]
      rw [hrest, peel_eq P hodd pending hproduct htarget, addEach_cons, htarget]
      rfl

/-- `apply_batch` cannot meet a zero product. -/
theorem applyBatch_eq (P : SWCurveConfig F) (hodd : (2 : F) ≠ 0) {s : AffineBuckets F B n}
    (hnodup : (s.batch.map fun pending => pending.bucket).Nodup) :
    applyBatch P s = some { s with
      buckets := addEach P s.batch s.buckets
      state := freeEach s.batch s.state
      batch := [] } := by
  rw [applyBatch]
  split
  · case isTrue h =>
      obtain ⟨buckets, overflow, batch, deferred, state, batchSize⟩ := s
      cases List.isEmpty_iff.mp h
      rfl
  · obtain ⟨hlast, hpeeled⟩ := foldr_peel P hodd hnodup s.buckets s.state one_ne_zero
    cases hpass : forwardPass s.buckets 1 s.batch with
    | mk marked product =>
        rw [hpass] at hlast hpeeled
        simp only
        rw [if_neg hlast, hpeeled]

/-! ### What couples the parts -/

structure Coupled (s : AffineBuckets F B n) : Prop where
  size_pos : 0 < s.batchSize
  batch_le : s.batch.length ≤ s.batchSize
  targets_nodup : (s.batch.map fun pending => pending.bucket).Nodup
  marked : ∀ pending ∈ s.batch, s.state pending.bucket ≠ .free
  scheduled : ∀ k, s.state k = .scheduled → k ∈ s.batch.map fun pending => pending.bucket
  hot : ∀ k, s.state k = .hot → s.overflow.isSome

theorem Coupled.safe {s : AffineBuckets F B n} (h : Coupled s) (hodd : (2 : F) ≠ 0) :
    BatchSafe s :=
  ⟨h.targets_nodup, fun _ _ => denominator_ne_zero hodd _ _⟩

omit [Field F] [DecidableEq F] in
theorem Coupled.not_mem {s : AffineBuckets F B n} (h : Coupled s) {k : Fin n}
    (hk : s.state k = .free) : k ∉ s.batch.map fun pending => pending.bucket := by
  intro hmem
  obtain ⟨pending, hpending, rfl⟩ := List.mem_map.mp hmem
  exact h.marked pending hpending hk

end AffineBuckets

/-- What the code relies on in the curve library's `Bucket<P>`: it adds in the group. -/
structure BucketLaws {F B : Type} [Field F] [DecidableEq F] (P : SWCurveConfig F)
    (ops : BucketOps F B) (WellFormed : B → Prop) (value : B → P.curve.Point) : Prop where
  zero_wellFormed : WellFormed ops.zero
  zero_value : value ops.zero = 0
  add_wellFormed : ∀ b p, WellFormed b → OnCurve P p → WellFormed (ops.add b p)
  add_value : ∀ b p, WellFormed b → OnCurve P p → value (ops.add b p) = value b + groupPoint P p

namespace AffineBuckets

open KeyedSum

section Takes

variable {F B : Type} [Field F] [DecidableEq F] {n : Nat} {P : SWCurveConfig F}
  {ops : BucketOps F B} {WellFormed : B → Prop} {value : B → P.curve.Point}

/-- The group elements of waiting points, by bucket. -/
noncomputable def weigh (P : SWCurveConfig F) (entries : List (Fin n × Affine F)) :
    List (Fin n × P.curve.Point) :=
  entries.map fun e => (e.1, groupPoint P e.2)

def batchEntries (batch : List (PendingAdd F n)) : List (Fin n × Affine F) :=
  batch.map fun pending => (pending.bucket, pending.point)

omit [DecidableEq F] in
theorem weigh_append (front back : List (Fin n × Affine F)) :
    weigh P (front ++ back) = weigh P front ++ weigh P back := List.map_append

omit [Field F] [DecidableEq F] in
theorem batchEntries_append (front back : List (PendingAdd F n)) :
    batchEntries (front ++ back) = batchEntries front ++ batchEntries back := List.map_append

/-- Everything held for a bucket, wherever it waits. -/
noncomputable def held (value : B → P.curve.Point) (s : AffineBuckets F B n) (k : Fin n) :
    P.curve.Point :=
  groupPoint P (s.buckets k) + s.overflow.elim 0 (fun overflow => value (overflow k))
    + sumAt (weigh P (batchEntries s.batch)) k + sumAt (weigh P s.deferred) k

/-- A point that is worth scheduling. -/
def Proper (P : SWCurveConfig F) (p : Affine F) : Prop := OnCurve P p ∧ p.infinity = false

/-- Every stored point is on the curve, and every pending addition is one of two finite points. -/
structure Sound (P : SWCurveConfig F) (WellFormed : B → Prop) (s : AffineBuckets F B n) :
    Prop where
  buckets_on : ∀ k, OnCurve P (s.buckets k)
  overflow_on : ∀ overflow, s.overflow = some overflow → ∀ k, WellFormed (overflow k)
  batch_proper : ∀ pending ∈ s.batch, Proper P pending.point
  target_finite : ∀ pending ∈ s.batch, (s.buckets pending.bucket).infinity = false
  deferred_proper : ∀ e ∈ s.deferred, Proper P e.2

/-- A step keeps the parts coupled and, on sound buckets, takes in the entries and loses none. -/
structure Takes (WellFormed : B → Prop) (value : B → P.curve.Point) (s s' : AffineBuckets F B n)
    (entries : List (Fin n × Affine F)) : Prop where
  coupled : Coupled s'
  size : s'.batchSize = s.batchSize
  sound : Sound P WellFormed s → (∀ e ∈ entries, Proper P e.2) → Sound P WellFormed s'
  held : Sound P WellFormed s → (∀ e ∈ entries, Proper P e.2) →
    ∀ k, held value s' k = AffineBuckets.held value s k + sumAt (weigh P entries) k

theorem Takes.trans {s s' s'' : AffineBuckets F B n} {front back : List (Fin n × Affine F)}
    (h : Takes WellFormed value s s' front) (h' : Takes WellFormed value s' s'' back) :
    Takes WellFormed value s s'' (front ++ back) where
  coupled := h'.coupled
  size := h'.size.trans h.size
  sound := by
    intro hs hentries
    obtain ⟨hfront, hback⟩ := List.forall_mem_append.mp hentries
    exact h'.sound (h.sound hs hfront) hback
  held := by
    intro hs hentries k
    obtain ⟨hfront, hback⟩ := List.forall_mem_append.mp hentries
    rw [h'.held (h.sound hs hfront) hback, h.held hs hfront, weigh_append, sumAt_append, add_assoc]

theorem Takes.refl {s : AffineBuckets F B n} (h : Coupled s) : Takes WellFormed value s s [] where
  coupled := h
  size := rfl
  sound := fun hs _ => hs
  held := fun _ _ _ => (add_zero _).symm

end Takes

end AffineBuckets

end Curvy.Prover.Msm
