import Curvy.Prover.AffineBucketsInv
import Curvy.Prover.SignedWindows
import Curvy.Prover.BaseField
import Mathlib.Tactic.Abel

/-!
# No point is lost

What each operation of the buckets takes in, and from it what whole runs of chunks hold.
-/

namespace Curvy.Prover.Msm

set_option autoImplicit false

namespace AffineBuckets

open KeyedSum

section Operations

variable {F B : Type} [Field F] [DecidableEq F] {n : Nat} {P : SWCurveConfig F}
  {ops : BucketOps F B} {WellFormed : B → Prop} {value : B → P.curve.Point}
  {s : AffineBuckets F B n}

theorem sumAt_one (k j : Fin n) (p : Affine F) :
    sumAt (weigh P [(k, p)]) j = if k = j then groupPoint P p else 0 := by
  rw [weigh, List.map_singleton, sumAt_cons, sumAt_nil, add_zero]

theorem place_takes (h : Coupled s) {k : Fin n} (hfree : s.state k = .free)
    (hempty : (s.buckets k).infinity = true) (p : Affine F) :
    Takes WellFormed value s (place s k p) [(k, p)] where
  coupled := ⟨h.size_pos, h.batch_le, h.targets_nodup, h.marked, h.scheduled, h.hot⟩
  size := rfl
  sound := by
    intro hs hentries
    refine ⟨?_, hs.overflow_on, hs.batch_proper, ?_, hs.deferred_proper⟩
    · intro j
      by_cases hj : j = k
      · rw [place_buckets, hj, Function.update_self]
        exact (hentries (k, p) List.mem_cons_self).1
      · rw [place_buckets, Function.update_of_ne hj]
        exact hs.buckets_on j
    · intro pending hpending
      have hne : pending.bucket ≠ k := by
        intro heq
        apply h.marked pending hpending
        rw [heq]
        exact hfree
      rw [place_buckets, Function.update_of_ne hne]
      exact hs.target_finite pending hpending
  held := by
    intro _ _ j
    rw [held, held, sumAt_one, place_buckets]
    simp only [place]
    by_cases hj : k = j
    · rw [← hj, Function.update_self, if_pos rfl, groupPoint_infinity hempty]
      abel
    · rw [Function.update_of_ne (Ne.symm hj), if_neg hj, add_zero]

theorem schedule_takes (h : Coupled s) {k : Fin n} (hfree : s.state k = .free)
    (hfinite : (s.buckets k).infinity = false) (hroom : s.batch.length < s.batchSize)
    (p : Affine F) : Takes WellFormed value s (schedule s k p) [(k, p)] where
  coupled := by
    have hmem := h.not_mem hfree
    refine ⟨h.size_pos, ?_, ?_, ?_, ?_, ?_⟩
    · rw [schedule_batch, List.length_append]
      exact hroom
    · rw [schedule_batch, List.map_append, List.nodup_append]
      refine ⟨h.targets_nodup, List.nodup_singleton _, ?_⟩
      intro j hj j' hj' heq
      have hk : j' = k := List.mem_singleton.mp hj'
      apply hmem
      rw [← hk, ← heq]
      exact hj
    · intro pending hpending
      by_cases hk : pending.bucket = k
      · rw [schedule_state, hk, Function.update_self]
        exact Mark.noConfusion
      · rw [schedule_state, Function.update_of_ne hk]
        rcases List.mem_append.mp hpending with hold | hnew
        · exact h.marked pending hold
        · cases List.mem_singleton.mp hnew
          exact absurd rfl hk
    · intro j hj
      rw [schedule_batch, List.map_append, List.mem_append]
      by_cases hk : j = k
      · exact Or.inr (List.mem_singleton.mpr hk)
      · rw [schedule_state, Function.update_of_ne hk] at hj
        exact Or.inl (h.scheduled j hj)
    · intro j hj
      by_cases hk : j = k
      · rw [schedule_state, hk, Function.update_self] at hj
        cases hj
      · rw [schedule_state, Function.update_of_ne hk] at hj
        exact h.hot j hj
  size := rfl
  sound := by
    intro hs hentries
    refine ⟨hs.buckets_on, hs.overflow_on, ?_, ?_, hs.deferred_proper⟩
    · intro pending hpending
      rcases List.mem_append.mp hpending with hold | hnew
      · exact hs.batch_proper pending hold
      · cases List.mem_singleton.mp hnew
        exact hentries (k, p) List.mem_cons_self
    · intro pending hpending
      rcases List.mem_append.mp hpending with hold | hnew
      · exact hs.target_finite pending hold
      · cases List.mem_singleton.mp hnew
        exact hfinite
  held := by
    intro _ _ j
    have hone : batchEntries [⟨k, .add, 1, p⟩] = [(k, p)] := rfl
    rw [held, held, schedule_batch, batchEntries_append, weigh_append, sumAt_append, hone]
    simp only [schedule]
    abel

theorem keep_takes (h : Coupled s) (k : Fin n) (p : Affine F) :
    Takes WellFormed value s (keep s k p) [(k, p)] where
  coupled := ⟨h.size_pos, h.batch_le, h.targets_nodup, h.marked, h.scheduled, h.hot⟩
  size := rfl
  sound := by
    intro hs hentries
    refine ⟨hs.buckets_on, hs.overflow_on, hs.batch_proper, hs.target_finite, ?_⟩
    intro e he
    rcases List.mem_append.mp he with hold | hnew
    · exact hs.deferred_proper e hold
    · rw [List.mem_singleton.mp hnew]
      exact hentries (k, p) List.mem_cons_self
  held := by
    intro _ _ j
    rw [held, held, keep_deferred, weigh_append, sumAt_append, ← add_assoc]
    rfl

theorem addOverflow_takes (laws : BucketLaws P ops WellFormed value) (h : Coupled s) {k : Fin n}
    (hhot : s.state k = .hot) (p : Affine F) : ∃ s', addOverflow ops s k p = some s' ∧
      Takes WellFormed value s s' [(k, p)] ∧ s'.batch = s.batch ∧ s'.deferred = s.deferred := by
  obtain ⟨overflow, hoverflow⟩ := Option.isSome_iff_exists.mp (h.hot k hhot)
  rw [addOverflow, hoverflow]
  refine ⟨_, rfl, ⟨?_, rfl, ?_, ?_⟩, rfl, rfl⟩
  · exact ⟨h.size_pos, h.batch_le, h.targets_nodup, h.marked, h.scheduled, fun _ _ => rfl⟩
  · intro hs hentries
    refine ⟨hs.buckets_on, ?_, hs.batch_proper, hs.target_finite, hs.deferred_proper⟩
    intro overflow' h' j
    cases h'
    by_cases hj : j = k
    · rw [hj, Function.update_self]
      exact laws.add_wellFormed _ _ (hs.overflow_on _ hoverflow k)
        (hentries (k, p) List.mem_cons_self).1
    · rw [Function.update_of_ne hj]
      exact hs.overflow_on _ hoverflow j
  · intro hs hentries j
    have hvalue := laws.add_value _ p (hs.overflow_on _ hoverflow k)
      (hentries (k, p) List.mem_cons_self).1
    rw [held, held, sumAt_one, hoverflow]
    simp only [Option.elim_some]
    by_cases hj : k = j
    · rw [← hj, Function.update_self, if_pos rfl, hvalue]
      abel
    · rw [Function.update_of_ne (Ne.symm hj), if_neg hj, add_zero]

omit [Field F] [DecidableEq F] in
theorem spilled_mark (entries : List (Fin n × Affine F)) (state : Fin n → Mark) (j : Fin n) :
    entries.foldl (fun state e => Function.update state e.1 .hot) state j = .hot ∨
      entries.foldl (fun state e => Function.update state e.1 .hot) state j = state j := by
  induction entries generalizing state with
  | nil => exact Or.inr rfl
  | cons e entries ih =>
      rw [List.foldl_cons]
      rcases ih (Function.update state e.1 .hot) with h | h
      · exact Or.inl h
      · by_cases hj : j = e.1
        · rw [hj, Function.update_self] at h
          exact Or.inl (hj ▸ h)
        · rw [Function.update_of_ne hj] at h
          exact Or.inr h

theorem spillDeferred_takes (laws : BucketLaws P ops WellFormed value) (h : Coupled s) :
    Takes WellFormed value s (spillDeferred ops s) [] ∧ (spillDeferred ops s).deferred = [] ∧
      (spillDeferred ops s).batch = s.batch := by
  by_cases hempty : s.deferred.isEmpty
  · rw [spillDeferred, if_pos hempty]
    exact ⟨Takes.refl h, List.isEmpty_iff.mp hempty, rfl⟩
  rw [spillDeferred, if_neg hempty]
  -- what the overflow holds before, allocated or not
  have hbefore : Sound P WellFormed s → ∀ j,
      WellFormed ((s.overflow.getD fun _ => ops.zero) j) ∧
        value ((s.overflow.getD fun _ => ops.zero) j)
          = s.overflow.elim 0 fun overflow => value (overflow j) := by
    intro hs j
    cases hoverflow : s.overflow with
    | none => exact ⟨laws.zero_wellFormed, laws.zero_value⟩
    | some overflow => exact ⟨hs.overflow_on _ hoverflow j, rfl⟩
  have hafter := fun hs : Sound P WellFormed s => takeAll_value
    (fun b e hb (he : Proper P e) =>
      And.intro (laws.add_wellFormed b e hb he.1) (laws.add_value b e hb he.1))
    s.deferred hs.deferred_proper _ fun j => (hbefore hs j).1
  refine ⟨⟨⟨h.size_pos, h.batch_le, h.targets_nodup, ?_, ?_, fun _ _ => rfl⟩, rfl, ?_, ?_⟩,
    rfl, rfl⟩
  · intro pending hpending hfree
    rcases spilled_mark s.deferred s.state pending.bucket with hmark | hmark
    · cases hmark.symm.trans hfree
    · exact h.marked pending hpending (hmark.symm.trans hfree)
  · intro j hj
    rcases spilled_mark s.deferred s.state j with hmark | hmark
    · cases hmark.symm.trans hj
    · exact h.scheduled j (hmark.symm.trans hj)
  · intro hs _
    refine ⟨hs.buckets_on, ?_, hs.batch_proper, hs.target_finite, fun _ hmem => (nomatch hmem)⟩
    intro overflow' h' j
    cases h'
    exact (hafter hs j).1
  · intro hs _ j
    rw [held, held]
    simp only [Option.elim_some]
    rw [(hafter hs j).2, (hbefore hs j).2]
    simp only [weigh, List.map_nil, sumAt_nil, add_zero]
    abel

theorem addEach_value (hodd : (2 : F) ≠ 0) {batch : List (PendingAdd F n)}
    {buckets : Fin n → Affine F} (hnodup : (batch.map fun pending => pending.bucket).Nodup)
    (hon : ∀ k, OnCurve P (buckets k)) (hproper : ∀ pending ∈ batch, Proper P pending.point)
    (hfinite : ∀ pending ∈ batch, (buckets pending.bucket).infinity = false) (k : Fin n) :
    OnCurve P (addEach P batch buckets k) ∧ groupPoint P (addEach P batch buckets k)
      = groupPoint P (buckets k) + sumAt (weigh P (batchEntries batch)) k := by
  induction batch with
  | nil => exact ⟨hon k, (add_zero _).symm⟩
  | cons pending batch ih =>
      obtain ⟨hmem, hnodup'⟩ := List.nodup_cons.mp hnodup
      obtain ⟨hpoint, hproper'⟩ := List.forall_mem_cons.mp hproper
      obtain ⟨htarget, hfinite'⟩ := List.forall_mem_cons.mp hfinite
      have hsum := addAffine_sum hodd (hon pending.bucket) htarget hpoint.1 hpoint.2
      have hrest := ih hnodup' hproper' hfinite'
      have hentries : sumAt (weigh P (batchEntries (pending :: batch))) k
          = (if pending.bucket = k then groupPoint P pending.point else 0)
            + sumAt (weigh P (batchEntries batch)) k := sumAt_cons _ _ _
      rw [addEach_cons, addEach_of_not_mem P hmem, hentries]
      by_cases hk : pending.bucket = k
      · -- no other addition of the batch has this target
        have hzero : sumAt (weigh P (batchEntries batch)) k = 0 := by
          apply sumAt_of_not_mem
          intro e he heq
          obtain ⟨e', he', rfl⟩ := List.mem_map.mp he
          obtain ⟨pending', hpending', rfl⟩ := List.mem_map.mp he'
          apply hmem
          exact List.mem_map.mpr ⟨pending', hpending', heq.trans hk.symm⟩
        rw [← hk, Function.update_self, if_pos rfl, hk, hzero, add_zero, ← hk]
        exact hsum
      · rw [Function.update_of_ne (Ne.symm hk), if_neg hk, zero_add]
        exact hrest

theorem applyBatch_takes (hodd : (2 : F) ≠ 0) (h : Coupled s) : ∃ s', applyBatch P s = some s' ∧
    Takes WellFormed value s s' [] ∧ s'.batch = [] ∧ s'.deferred = s.deferred := by
  refine ⟨_, applyBatch_eq P hodd h.targets_nodup, ⟨?_, rfl, ?_, ?_⟩, rfl, rfl⟩
  · refine ⟨h.size_pos, Nat.zero_le _, List.nodup_nil, fun _ hmem => (nomatch hmem), ?_, ?_⟩
    · intro k hk
      obtain ⟨hstate, hmem⟩ := freeEach_scheduled hk
      exact absurd (h.scheduled k hstate) hmem
    · intro k hk
      exact h.hot k (freeEach_hot hk)
  · intro hs _
    have hvalue := addEach_value hodd h.targets_nodup hs.buckets_on hs.batch_proper hs.target_finite
    exact ⟨fun k => (hvalue k).1, hs.overflow_on, fun _ hmem => (nomatch hmem),
      fun _ hmem => (nomatch hmem), hs.deferred_proper⟩
  · intro hs _ k
    have hvalue := addEach_value hodd h.targets_nodup hs.buckets_on hs.batch_proper hs.target_finite
    rw [held, held]
    simp only [(hvalue k).2, batchEntries, weigh, List.map_nil, sumAt_nil, add_zero]
    abel

theorem retryOne_takes (laws : BucketLaws P ops WellFormed value) (h : Coupled s)
    (e : Fin n × Affine F) : ∃ s', retryOne ops s e = some s' ∧
      Takes WellFormed value s s' [e] ∧
      s'.batch.length + s'.deferred.length ≤ s.batch.length + s.deferred.length + 1 := by
  have hkeep : (keep s e.1 e.2).batch.length + (keep s e.1 e.2).deferred.length
      ≤ s.batch.length + s.deferred.length + 1 := by
    rw [keep_deferred, List.length_append]
    exact Nat.le_refl _
  cases hmark : s.state e.1 with
  | scheduled =>
      refine ⟨_, ?_, keep_takes h e.1 e.2, hkeep⟩
      rw [retryOne, hmark]
  | hot =>
      obtain ⟨s', hrun, htakes, hbatch, hdeferred⟩ := addOverflow_takes laws h hmark e.2
      refine ⟨s', ?_, htakes, ?_⟩
      · rw [retryOne, hmark]
        exact hrun
      · rw [hbatch, hdeferred]
        exact Nat.le_succ _
  | free =>
      rw [retryOne, hmark]
      by_cases hroom : s.batch.length < s.batchSize
      · simp only [if_pos hroom]
        cases hinf : (s.buckets e.1).infinity with
        | true => exact ⟨_, rfl, place_takes h hmark hinf e.2, Nat.le_succ _⟩
        | false =>
            refine ⟨_, rfl, schedule_takes h hmark hinf hroom e.2, ?_⟩
            rw [schedule_batch, List.length_append, List.length_singleton]
            simp only [schedule]
            omega
      · simp only [if_neg hroom]
        exact ⟨_, rfl, keep_takes h e.1 e.2, hkeep⟩

theorem retryEach_takes (laws : BucketLaws P ops WellFormed value)
    (entries : List (Fin n × Affine F)) (h : Coupled s) :
    ∃ s', entries.foldlM (retryOne ops) s = some s' ∧ Takes WellFormed value s s' entries ∧
      s'.batch.length + s'.deferred.length
        ≤ s.batch.length + s.deferred.length + entries.length := by
  induction entries generalizing s with
  | nil => exact ⟨s, rfl, Takes.refl h, Nat.le_refl _⟩
  | cons e entries ih =>
      obtain ⟨s₁, hone, htakes, hlen⟩ := retryOne_takes laws h e
      obtain ⟨s₂, hrest, htakes', hlen'⟩ := ih htakes.coupled
      refine ⟨s₂, ?_, htakes.trans htakes', ?_⟩
      · rw [List.foldlM_cons, hone]
        exact hrest
      · rw [List.length_cons]
        omega

/-- A retry moves deferred points on or keeps them, and brings none back. -/
theorem retryDeferred_takes (laws : BucketLaws P ops WellFormed value) (h : Coupled s) :
    ∃ s', retryDeferred ops s = some s' ∧ Takes WellFormed value s s' [] ∧
      s'.batch.length + s'.deferred.length ≤ s.batch.length + s.deferred.length := by
  have hcleared : Coupled { s with deferred := [] } :=
    ⟨h.size_pos, h.batch_le, h.targets_nodup, h.marked, h.scheduled, h.hot⟩
  obtain ⟨s', hrun, htakes, hlen⟩ := retryEach_takes laws s.deferred hcleared
  have hsound : Sound P WellFormed s → Sound P WellFormed { s with deferred := [] } := fun hs =>
    ⟨hs.buckets_on, hs.overflow_on, hs.batch_proper, hs.target_finite, fun _ hmem => (nomatch hmem)⟩
  refine ⟨s', hrun, ⟨htakes.coupled, htakes.size, ?_, ?_⟩, ?_⟩
  · intro hs _
    exact htakes.sound (hsound hs) hs.deferred_proper
  · intro hs _ k
    rw [htakes.held (hsound hs) hs.deferred_proper, held, held]
    simp only [weigh, List.map_nil, sumAt_nil, add_zero]
  · simp only [List.length_nil] at hlen
    omega

end Operations

/-! ### Loops -/

section Loops

variable {F B : Type} [Field F] [DecidableEq F] {n : Nat} {P : SWCurveConfig F}
  {ops : BucketOps F B} {WellFormed : B → Prop} {value : B → P.curve.Point}
  {s : AffineBuckets F B n}

/-- A way to apply a batch that does not differ from the code's on buckets it can meet. -/
def Agrees (P : SWCurveConfig F)
    (apply : AffineBuckets F B n → Option (AffineBuckets F B n)) : Prop :=
  ∀ s, Coupled s → apply s = applyBatch P s

theorem agrees_asserted (hodd : (2 : F) ≠ 0) :
    Agrees P (applyBatchAsserted P : AffineBuckets F B n → Option (AffineBuckets F B n)) := by
  intro s hs
  rw [applyBatchAsserted, if_pos (hs.safe hodd)]

/-- Each further round of the loop of `add` has taken a whole batch from the deferred points. -/
theorem flushFull_takes (hodd : (2 : F) ≠ 0) (laws : BucketLaws P ops WellFormed value)
    {fuel : Nat} (h : Coupled s) (hfuel : s.deferred.length + 2 ≤ fuel) :
    ∃ s', (∀ apply, Agrees P apply → flushFull apply ops fuel s = some s') ∧
      Takes WellFormed value s s' [] ∧ s'.batch.length < s'.batchSize := by
  induction fuel generalizing s with
  | zero => omega
  | succ fuel ih =>
      by_cases hfull : s.batch.length = s.batchSize
      · obtain ⟨s₁, happly, htakes₁, hbatch₁, hdeferred₁⟩ : ∃ s', applyBatch P s = some s' ∧
            Takes WellFormed value s s' [] ∧ s'.batch = [] ∧ s'.deferred = s.deferred :=
          applyBatch_takes hodd h
        obtain ⟨s₂, hretry, htakes₂, hlen₂⟩ := retryDeferred_takes laws htakes₁.coupled
        have hround : ∀ apply, Agrees P apply →
            flushFull apply ops (fuel + 1) s = flushFull apply ops fuel s₂ := by
          intro apply hagrees
          rw [flushFull, if_pos hfull, hagrees s h, happly]
          exact congrArg (fun r => r.bind (flushFull apply ops fuel)) hretry
        rw [hbatch₁, hdeferred₁, List.length_nil, Nat.zero_add] at hlen₂
        by_cases hagain : s₂.batch.length = s₂.batchSize
        · have hpos := htakes₂.coupled.size_pos
          obtain ⟨s', hrun, htakes, hroom⟩ := ih htakes₂.coupled (by omega)
          refine ⟨s', ?_, (htakes₁.trans htakes₂).trans htakes, hroom⟩
          intro apply hagrees
          rw [hround apply hagrees, hrun apply hagrees]
        · refine ⟨s₂, ?_, htakes₁.trans htakes₂,
            Nat.lt_of_le_of_ne htakes₂.coupled.batch_le hagain⟩
          intro apply hagrees
          obtain ⟨fuel', rfl⟩ : ∃ fuel', fuel = fuel' + 1 := ⟨fuel - 1, by omega⟩
          rw [hround apply hagrees, flushFull, if_neg hagain]
      · refine ⟨s, ?_, Takes.refl h, Nat.lt_of_le_of_ne h.batch_le hfull⟩
        intro apply _
        rw [flushFull, if_neg hfull]

theorem defer_takes (laws : BucketLaws P ops WellFormed value) (h : Coupled s) (k : Fin n)
    (p : Affine F) : Takes WellFormed value s (defer ops s k p) [(k, p)] ∧
      (defer ops s k p).batch = s.batch := by
  rw [defer]
  split
  · obtain ⟨hspill, -, hbatch⟩ := spillDeferred_takes laws h
    exact ⟨hspill.trans (keep_takes hspill.coupled k p), hbatch⟩
  · exact ⟨keep_takes h k p, rfl⟩

/-- The entries a point makes for its bucket: none for the identity. -/
def pointEntries (n bucket : Nat) (point : Affine F) : List (Fin n × Affine F) :=
  if h : bucket < n ∧ point.infinity = false then [(⟨bucket, h.1⟩, point)] else []

theorem add_takes (hodd : (2 : F) ≠ 0) (laws : BucketLaws P ops WellFormed value) (h : Coupled s)
    (hroom : s.batch.length < s.batchSize) {bucket : Nat} (hbucket : bucket < n)
    (point : Affine F) :
    ∃ s', (∀ apply, Agrees P apply → add apply ops s bucket point = some s') ∧
      Takes WellFormed value s s' (pointEntries n bucket point) ∧
        s'.batch.length < s'.batchSize := by
  cases hinf : point.infinity with
  | true =>
      have hentries : pointEntries n bucket point = [] := by
        apply dif_neg
        rw [hinf]
        exact fun h => nomatch h.2
      refine ⟨s, ?_, ?_, hroom⟩
      · intro apply _
        rw [add, if_pos hinf]
      · rw [hentries]
        exact Takes.refl h
  | false =>
      have hentries : pointEntries n bucket point = [(⟨bucket, hbucket⟩, point)] :=
        dif_pos ⟨hbucket, hinf⟩
      rw [hentries]
      cases hmark : s.state ⟨bucket, hbucket⟩ with
      | scheduled =>
          obtain ⟨htakes, hbatch⟩ := defer_takes laws h ⟨bucket, hbucket⟩ point
          refine ⟨_, ?_, htakes, ?_⟩
          · intro apply _
            simp only [add, hinf, dif_pos hbucket, hmark, Bool.false_eq_true, if_false]
          · rw [hbatch, htakes.size]
            exact hroom
      | hot =>
          obtain ⟨s', hrun, htakes, hbatch, -⟩ := addOverflow_takes laws h hmark point
          refine ⟨s', ?_, htakes, ?_⟩
          · intro apply _
            simp only [add, hinf, dif_pos hbucket, hmark, Bool.false_eq_true, if_false]
            exact hrun
          · rw [hbatch, htakes.size]
            exact hroom
      | free =>
          cases hempty : (s.buckets ⟨bucket, hbucket⟩).infinity with
          | true =>
              refine ⟨_, ?_, place_takes h hmark hempty point, hroom⟩
              intro apply _
              simp only [add, hinf, dif_pos hbucket, hmark, hempty, Bool.false_eq_true, if_false,
                if_true]
          | false =>
              have hscheduled : Takes WellFormed value s (schedule s ⟨bucket, hbucket⟩ point)
                  [(⟨bucket, hbucket⟩, point)] := schedule_takes h hmark hempty hroom point
              obtain ⟨s', hrun, htakes, hroom'⟩ :=
                flushFull_takes hodd laws hscheduled.coupled (Nat.le_refl _)
              refine ⟨s', ?_, hscheduled.trans htakes, hroom'⟩
              intro apply hagrees
              simp only [add, hinf, dif_pos hbucket, hmark, hempty, Bool.false_eq_true, if_false]
              exact hrun apply hagrees

/-- The entries of one digit and its base. -/
def digitEntries (n : Nat) (entry : Int × Affine F) : List (Fin n × Affine F) :=
  if 0 < entry.1 then pointEntries n (entry.1.natAbs - 1) entry.2
  else if entry.1 < 0 then pointEntries n (entry.1.natAbs - 1) entry.2.neg
  else []

theorem addDigit_takes (hodd : (2 : F) ≠ 0) (laws : BucketLaws P ops WellFormed value)
    (h : Coupled s) (hroom : s.batch.length < s.batchSize) {entry : Int × Affine F}
    (hdigit : entry.1.natAbs ≤ n) :
    ∃ s', (∀ apply, Agrees P apply → addDigit apply ops s entry.1 entry.2 = some s') ∧
      Takes WellFormed value s s' (digitEntries n entry) ∧ s'.batch.length < s'.batchSize := by
  by_cases hpos : 0 < entry.1
  · rw [digitEntries, if_pos hpos]
    simp only [addDigit, if_pos hpos]
    exact add_takes hodd laws h hroom (by omega) entry.2
  · by_cases hneg : entry.1 < 0
    · rw [digitEntries, if_neg hpos, if_pos hneg]
      simp only [addDigit, if_neg hpos, if_pos hneg]
      exact add_takes hodd laws h hroom (by omega) entry.2.neg
    · rw [digitEntries, if_neg hpos, if_neg hneg]
      simp only [addDigit, if_neg hpos, if_neg hneg]
      exact ⟨s, fun _ _ => rfl, Takes.refl h, hroom⟩

/-- Each further round of the loop of `finish` has taken at least eight deferred points. -/
theorem finishLoop_takes (hodd : (2 : F) ≠ 0) (laws : BucketLaws P ops WellFormed value)
    {fuel : Nat} (h : Coupled s) (hfuel : s.deferred.length < fuel) :
    ∃ s', (∀ apply, Agrees P apply → finishLoop apply ops fuel s = some s') ∧
      Takes WellFormed value s s' [] ∧ s'.batch = [] ∧ s'.deferred = [] := by
  induction fuel generalizing s with
  | zero => omega
  | succ fuel ih =>
      obtain ⟨s₁, happly, htakes₁, hbatch₁, hdeferred₁⟩ : ∃ s', applyBatch P s = some s' ∧
          Takes WellFormed value s s' [] ∧ s'.batch = [] ∧ s'.deferred = s.deferred :=
        applyBatch_takes hodd h
      by_cases hempty : s₁.deferred.isEmpty
      · refine ⟨s₁, ?_, htakes₁, hbatch₁, List.isEmpty_iff.mp hempty⟩
        intro apply hagrees
        rw [finishLoop, hagrees s h, happly]
        exact if_pos hempty
      · obtain ⟨s₂, hretry, htakes₂, hlen₂⟩ := retryDeferred_takes laws htakes₁.coupled
        have hround : ∀ apply, Agrees P apply → finishLoop apply ops (fuel + 1) s =
            if s₂.batch.length < minRetryBatch then
              (apply s₂).bind fun s => some (spillDeferred ops s)
            else finishLoop apply ops fuel s₂ := by
          intro apply hagrees
          rw [finishLoop, hagrees s h, happly]
          refine (if_neg hempty).trans ?_
          rw [hretry]
          rfl
        by_cases hfew : s₂.batch.length < minRetryBatch
        · obtain ⟨s₃, happly₃, htakes₃, hbatch₃, -⟩ : ∃ s', applyBatch P s₂ = some s' ∧
              Takes WellFormed value s₂ s' [] ∧ s'.batch = [] ∧ s'.deferred = s₂.deferred :=
            applyBatch_takes hodd htakes₂.coupled
          obtain ⟨htakes₄, hdeferred, hbatch⟩ := spillDeferred_takes laws htakes₃.coupled
          refine ⟨_, ?_, ((htakes₁.trans htakes₂).trans htakes₃).trans htakes₄,
            hbatch.trans hbatch₃, hdeferred⟩
          intro apply hagrees
          rw [hround apply hagrees, if_pos hfew, hagrees s₂ htakes₂.coupled, happly₃]
          rfl
        · have hless : s₂.deferred.length < fuel := by
            rw [hbatch₁, hdeferred₁, List.length_nil, Nat.zero_add] at hlen₂
            simp only [minRetryBatch] at hfew
            omega
          obtain ⟨s', hrun, htakes, hscratch⟩ := ih htakes₂.coupled hless
          refine ⟨s', ?_, (htakes₁.trans htakes₂).trans htakes, hscratch⟩
          intro apply hagrees
          rw [hround apply hagrees, if_neg hfew, hrun apply hagrees]

theorem foldDigits_takes (hodd : (2 : F) ≠ 0) (laws : BucketLaws P ops WellFormed value)
    (h : Coupled s) (hroom : s.batch.length < s.batchSize) (chunk : List (Int × Affine F))
    (hdigits : ∀ entry ∈ chunk, entry.1.natAbs ≤ n) :
    ∃ s', (∀ apply, Agrees P apply →
        chunk.foldlM (fun s entry => addDigit apply ops s entry.1 entry.2) s = some s') ∧
      Takes WellFormed value s s' (chunk.flatMap (digitEntries n)) := by
  induction chunk generalizing s with
  | nil => exact ⟨s, fun _ _ => rfl, Takes.refl h⟩
  | cons entry chunk ih =>
      obtain ⟨hdigit, hdigits'⟩ := List.forall_mem_cons.mp hdigits
      obtain ⟨s₁, hone, htakes, hroom'⟩ := addDigit_takes hodd laws h hroom hdigit
      obtain ⟨s', hrest, htakes'⟩ := ih htakes.coupled hroom' hdigits'
      refine ⟨s', ?_, htakes.trans htakes'⟩
      intro apply hagrees
      rw [List.foldlM_cons, hone apply hagrees]
      exact hrest apply hagrees

theorem foldChunk_takes (hodd : (2 : F) ≠ 0) (laws : BucketLaws P ops WellFormed value)
    (h : Coupled s) (hroom : s.batch.length < s.batchSize) (chunk : List (Int × Affine F))
    (hdigits : ∀ entry ∈ chunk, entry.1.natAbs ≤ n) :
    ∃ s', (∀ apply, Agrees P apply → foldChunk apply ops s chunk = some s') ∧
      Takes WellFormed value s s' (chunk.flatMap (digitEntries n)) ∧
        s'.batch = [] ∧ s'.deferred = [] := by
  obtain ⟨s₁, hfold, htakes₁⟩ := foldDigits_takes hodd laws h hroom chunk hdigits
  obtain ⟨s₂, hfinish, htakes₂, hbatch, hdeferred⟩ :=
    finishLoop_takes hodd laws htakes₁.coupled (Nat.lt_succ_self _)
  have htakes := htakes₁.trans htakes₂
  rw [List.append_nil] at htakes
  refine ⟨s₂, ?_, htakes, hbatch, hdeferred⟩
  intro apply hagrees
  have hrelease : releaseScratch s₂ = some s₂ := by
    rw [releaseScratch, if_pos ⟨List.isEmpty_iff.mpr hbatch, List.isEmpty_iff.mpr hdeferred⟩,
      ← hbatch, ← hdeferred]
  rw [foldChunk, hfold apply hagrees]
  refine (congrArg (fun r => r.bind releaseScratch) (hfinish apply hagrees)).trans ?_
  exact hrelease

theorem foldChunks_takes (hodd : (2 : F) ≠ 0) (laws : BucketLaws P ops WellFormed value)
    (h : Coupled s) (hbatch : s.batch = []) (hdeferred : s.deferred = [])
    (chunks : List (List (Int × Affine F)))
    (hdigits : ∀ chunk ∈ chunks, ∀ entry ∈ chunk, entry.1.natAbs ≤ n) :
    ∃ s', (∀ apply, Agrees P apply → foldChunks apply ops s chunks = some s') ∧
      Takes WellFormed value s s' (chunks.flatten.flatMap (digitEntries n)) ∧
        s'.batch = [] ∧ s'.deferred = [] := by
  induction chunks generalizing s with
  | nil => exact ⟨s, fun _ _ => rfl, Takes.refl h, hbatch, hdeferred⟩
  | cons chunk chunks ih =>
      have hroom : s.batch.length < s.batchSize := by
        rw [hbatch]
        exact h.size_pos
      obtain ⟨hchunk, hchunks⟩ := List.forall_mem_cons.mp hdigits
      obtain ⟨s₁, hone, htakes, hbatch₁, hdeferred₁⟩ :=
        foldChunk_takes hodd laws h hroom chunk hchunk
      obtain ⟨s', hrest, htakes', hscratch⟩ := ih htakes.coupled hbatch₁ hdeferred₁ hchunks
      refine ⟨s', ?_, ?_, hscratch⟩
      · intro apply hagrees
        rw [foldChunks, List.foldlM_cons, hone apply hagrees]
        exact hrest apply hagrees
      · rw [List.flatten_cons, List.flatMap_append]
        exact htakes.trans htakes'

end Loops

/-! ### Whole runs -/

section Runs

variable {F B : Type} [Field F] [DecidableEq F] {P : SWCurveConfig F}
  {ops : BucketOps F B} {WellFormed : B → Prop} {value : B → P.curve.Point}

/-- The sum of the points assigned to bucket `k`, each with the sign of its digit. -/
noncomputable def bucketSum (P : SWCurveConfig F) (entries : List (Int × Affine F)) (k : Nat) :
    P.curve.Point :=
  (entries.map fun entry =>
    if entry.1 = (k : Int) + 1 then groupPoint P entry.2
    else if entry.1 = -((k : Int) + 1) then -groupPoint P entry.2
    else 0).sum

omit [DecidableEq F] in
theorem pointEntries_proper {n bucket : Nat} {point : Affine F} (h : OnCurve P point) :
    ∀ e ∈ pointEntries n bucket point, Proper P e.2 := by
  intro e he
  rw [pointEntries] at he
  split at he
  · case isTrue hfine =>
      rw [List.mem_singleton.mp he]
      exact ⟨h, hfine.2⟩
  · cases he

omit [DecidableEq F] in
theorem digitEntries_proper {n : Nat} {entry : Int × Affine F} (h : OnCurve P entry.2) :
    ∀ e ∈ digitEntries n entry, Proper P e.2 := by
  intro e he
  rw [digitEntries] at he
  split at he
  · exact pointEntries_proper h e he
  · split at he
    · exact pointEntries_proper (onCurve_neg h) e he
    · cases he

theorem pointEntries_sum {n bucket : Nat} (hbucket : bucket < n) (point : Affine F) (k : Fin n) :
    sumAt (weigh P (pointEntries n bucket point)) k
      = if bucket = k then groupPoint P point else 0 := by
  rw [pointEntries]
  split
  · rw [sumAt_one]
    simp only [Fin.ext_iff]
  · case isFalse h =>
      have hinf : point.infinity = true := by
        cases hinf : point.infinity with
        | true => rfl
        | false => exact absurd ⟨hbucket, hinf⟩ h
      rw [groupPoint_infinity hinf, ite_self]
      rfl

theorem digitEntries_sum {n : Nat} {entry : Int × Affine F} (hdigit : entry.1.natAbs ≤ n)
    (hpoint : OnCurve P entry.2) (k : Fin n) :
    sumAt (weigh P (digitEntries n entry)) k = bucketSum P [entry] k := by
  rw [bucketSum, List.map_singleton, List.sum_singleton, digitEntries]
  by_cases hpos : 0 < entry.1
  · rw [if_pos hpos, pointEntries_sum (by omega)]
    by_cases hk : entry.1 = (k : Int) + 1
    · rw [if_pos (by omega), if_pos hk]
    · rw [if_neg (by omega), if_neg hk, if_neg (by omega)]
  · by_cases hneg : entry.1 < 0
    · rw [if_neg hpos, if_pos hneg, pointEntries_sum (by omega), groupPoint_neg hpoint]
      by_cases hk : entry.1 = -((k : Int) + 1)
      · rw [if_pos (by omega), if_neg (by omega), if_pos hk]
      · rw [if_neg (by omega), if_neg (by omega), if_neg hk]
    · rw [if_neg hpos, if_neg hneg, if_neg (by omega), if_neg (by omega)]
      rfl

theorem flatMap_sum {n : Nat} {entries : List (Int × Affine F)}
    (hdigits : ∀ entry ∈ entries, entry.1.natAbs ≤ n) (hon : ∀ entry ∈ entries, OnCurve P entry.2)
    (k : Fin n) :
    sumAt (weigh P (entries.flatMap (digitEntries n))) k = bucketSum P entries k := by
  induction entries with
  | nil => rfl
  | cons entry entries ih =>
      obtain ⟨hdigit, hdigits'⟩ := List.forall_mem_cons.mp hdigits
      obtain ⟨hpoint, hon'⟩ := List.forall_mem_cons.mp hon
      rw [List.flatMap_cons, weigh_append, sumAt_append, ih hdigits' hon',
        digitEntries_sum hdigit hpoint]
      simp only [bucketSum, List.map_cons, List.map_nil, List.sum_cons, List.sum_nil, add_zero]

omit [DecidableEq F] in
/-- Empty buckets are coupled and hold nothing. -/
theorem empty_coupled {n batchSize : Nat} (hsize : 0 < batchSize) :
    Coupled (⟨fun _ => Affine.identity, none, [], [], fun _ => .free, batchSize⟩ :
      AffineBuckets F B n) :=
  ⟨hsize, Nat.zero_le _, List.nodup_nil, fun _ hmem => (nomatch hmem),
    fun _ hmark => (nomatch hmark), fun _ hmark => (nomatch hmark)⟩

omit [DecidableEq F] in
theorem empty_sound {n batchSize : Nat} :
    Sound P WellFormed (⟨fun _ => Affine.identity, none, [], [], fun _ => .free, batchSize⟩ :
      AffineBuckets F B n) :=
  ⟨fun _ => onCurve_identity, fun _ h => (nomatch h), fun _ hmem => (nomatch hmem),
    fun _ hmem => (nomatch hmem), fun _ hmem => (nomatch hmem)⟩

/-- The digits of a scalar's windows reach no further than the buckets of a window. -/
theorem signedWindowDigit_bucket (words : List (BitVec 64)) {width : Nat} (hlow : 0 < width)
    (hhigh : width ≤ 16) (window : Nat) :
    (signedWindowDigit words width window).natAbs ≤ bucketCount width := by
  have hbounds := Balanced.digit_bounds (Limbs.value words) hlow window
  rw [signedWindowDigit_eq words hlow hhigh, bucketCount, radix_eq]
  have hcast : (2 ^ (width - 1) : Int) = ((2 ^ (width - 1) : Nat) : Int) := by push_cast; rfl
  omega

/-- Chunk after chunk, no batch is unsafe, no loop runs on, and every bucket with its overflow is
the sum of the points assigned to it. -/
theorem batch_affine_buckets_exact (hodd : (2 : F) ≠ 0)
    (laws : BucketLaws P ops WellFormed value) (width batchSize : Nat)
    (hwidth : 0 < width ∧ width ≤ 64) (chunks : List (List (Int × Affine F)))
    (hdigits : ∀ chunk ∈ chunks, ∀ entry ∈ chunk, entry.1.natAbs ≤ bucketCount width) :
    ∃ start last : AffineBuckets F B (bucketCount width),
      withBatchSize width batchSize = some start ∧
      foldChunks (applyBatch P) ops start chunks = some last ∧
      foldChunks (applyBatchAsserted P) ops start chunks = some last ∧
      last.batch = [] ∧ last.deferred = [] ∧
      ((∀ chunk ∈ chunks, ∀ entry ∈ chunk, OnCurve P entry.2) → ∀ k : Fin (bucketCount width),
        groupPoint P (last.buckets k) + last.overflow.elim 0 (fun overflow => value (overflow k))
          = bucketSum P chunks.flatten k) := by
  have hsize : 0 < max batchSize 1 := by omega
  have hcoupled : Coupled (⟨fun _ => Affine.identity, none, [], [], fun _ => .free,
      max batchSize 1⟩ : AffineBuckets F B (bucketCount width)) := empty_coupled hsize
  obtain ⟨last, hrun, htakes, hbatch, hdeferred⟩ :=
    foldChunks_takes hodd laws hcoupled rfl rfl chunks hdigits
  refine ⟨_, last, ?_, hrun _ fun _ _ => rfl, hrun _ (agrees_asserted hodd), hbatch, hdeferred, ?_⟩
  · rw [withBatchSize, if_neg (by omega)]
  · intro hon k
    have hon' : ∀ entry ∈ chunks.flatten, OnCurve P entry.2 := by
      intro entry hentry
      obtain ⟨chunk, hchunk, hmem⟩ := List.mem_flatten.mp hentry
      exact hon chunk hchunk entry hmem
    have hdigits' : ∀ entry ∈ chunks.flatten, entry.1.natAbs ≤ bucketCount width := by
      intro entry hentry
      obtain ⟨chunk, hchunk, hmem⟩ := List.mem_flatten.mp hentry
      exact hdigits chunk hchunk entry hmem
    have hproper : ∀ e ∈ chunks.flatten.flatMap (digitEntries (bucketCount width)),
        Proper P e.2 := by
      intro e he
      obtain ⟨entry, hentry, hmem⟩ := List.mem_flatMap.mp he
      exact digitEntries_proper (hon' entry hentry) e hmem
    have hheld := htakes.held empty_sound hproper k
    rw [flatMap_sum hdigits' hon', held, held, hbatch, hdeferred, groupPoint_identity] at hheld
    simpa [batchEntries, weigh] using hheld

/-- Overflow buckets that keep an affine point. -/
def affineOps (P : SWCurveConfig F) : BucketOps F (Affine F) where
  zero := Affine.identity
  add b p :=
    if p.infinity then b
    else if b.infinity then p
    else addAffine P b p

theorem affineOps_laws (hodd : (2 : F) ≠ 0) :
    BucketLaws P (affineOps P) (OnCurve P) (groupPoint P) := by
  have hadd : ∀ b p, OnCurve P b → OnCurve P p → OnCurve P ((affineOps P).add b p) ∧
      groupPoint P ((affineOps P).add b p) = groupPoint P b + groupPoint P p := by
    intro b p hb hp
    simp only [affineOps]
    split
    · case isTrue hinf =>
        rw [groupPoint_infinity hinf, add_zero]
        exact ⟨hb, rfl⟩
    · case isFalse hp' =>
        split
        · case isTrue hinf =>
            rw [groupPoint_infinity hinf, zero_add]
            exact ⟨hp, rfl⟩
        · case isFalse hb' =>
            exact addAffine_sum hodd hb (eq_false_of_ne_true hb') hp (eq_false_of_ne_true hp')
  exact ⟨onCurve_identity, groupPoint_identity, fun b p hb hp => (hadd b p hb hp).1,
    fun b p hb hp => (hadd b p hb hp).2⟩

/-- The curve `y² = x³ + 3`. -/
def g1Config : SWCurveConfig Fq := ⟨0, (3 : Nat)⟩

/-- The generator `(1, 2)`. -/
def g1Generator : Affine Fq := ⟨1, (2 : Nat), false⟩

theorem g1Generator_onCurve : OnCurve g1Config g1Generator := by
  have hdiscriminant : (3888 : Fq) ≠ 0 := by
    have hcast : ((3888 : Nat) : Fq) ≠ 0 := by
      rw [Ne, ZMod.natCast_eq_zero_iff]
      decide
    exact_mod_cast hcast
  apply onCurve_of_equation
  · have hvalue : g1Config.curve.Δ = -3888 := by
      simp only [WeierstrassCurve.Δ, WeierstrassCurve.b₂, WeierstrassCurve.b₄,
        WeierstrassCurve.b₆, WeierstrassCurve.b₈, SWCurveConfig.curve, g1Config]
      ring
    rw [hvalue]
    exact neg_ne_zero.mpr hdiscriminant
  · simp only [g1Generator, g1Config]
    ring

/-- Batches of one over two chunks: a point is placed, doubled and taken away again. -/
theorem batch_affine_buckets_exact_example : ∃ start last : AffineBuckets Fq (Affine Fq) 4,
    withBatchSize 3 1 = some start ∧
    foldChunks (applyBatch g1Config) (affineOps g1Config) start
      [[(1, g1Generator), (1, g1Generator)], [(-1, g1Generator), (-4, g1Generator)]] = some last ∧
    ∀ k : Fin 4, groupPoint g1Config (last.buckets k)
        + last.overflow.elim 0 (fun overflow => groupPoint g1Config (overflow k))
      = bucketSum g1Config
        [(1, g1Generator), (1, g1Generator), (-1, g1Generator), (-4, g1Generator)] k := by
  have laws : BucketLaws g1Config (affineOps g1Config) (OnCurve g1Config) (groupPoint g1Config) :=
    affineOps_laws two_ne_zero
  obtain ⟨start, last, hstart, hrun, -, -, -, hsum⟩ :=
    batch_affine_buckets_exact two_ne_zero laws 3 1 (by omega)
      [[(1, g1Generator), (1, g1Generator)], [(-1, g1Generator), (-4, g1Generator)]] (by decide)
  refine ⟨start, last, hstart, hrun, hsum ?_⟩
  intro chunk hchunk entry hentry
  simp only [List.mem_cons, List.not_mem_nil, or_false] at hchunk
  rcases hchunk with rfl | rfl
  · simp only [List.mem_cons, List.not_mem_nil, or_false, or_self] at hentry
    rw [hentry]
    exact g1Generator_onCurve
  · simp only [List.mem_cons, List.not_mem_nil, or_false] at hentry
    rcases hentry with rfl | rfl
    · exact g1Generator_onCurve
    · exact g1Generator_onCurve

end Runs

end AffineBuckets

end Curvy.Prover.Msm
