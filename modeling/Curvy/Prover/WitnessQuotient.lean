import Curvy.Lib.CosetExtension
import Curvy.Prover.Qap
import Curvy.Prover.SimdFftApply
import Curvy.Prover.ZkeyMatricesAgree

/-!
# The witness map computes the quotient

The rows of a system that an assignment satisfies are values of three polynomials on the domain.
Both maps return the values of A B - C at the odd points of the domain twice as large, and the
scalars of the H query meet them in the quotient's share of the proof.
-/

namespace Curvy.Prover.Qap

set_option autoImplicit false

open List (tabulate tabulate_cons)
open Polynomial
open FusedTransform (transform fused)
open SimdFft (dft inverseDft distributePowers)
open Witness (Fr)
open ZkeyMatrices (CompactMatrix Matrix evaluateChecked)

/-! ## Domains and their transforms -/

/-- What the library documents of its domains: their sizes and roots, and the transforms. -/
structure Transforms.Correct (t : Transforms) : Prop where
  /-- The size is the next power of two. -/
  size : ∀ k d, 0 < k → t.new k = some d → k ≤ t.size d ∧ t.size d < 2 * k ∧ ∃ j, t.size d = 2 ^ j
  sized : ∀ k j, k ≤ 2 ^ j → 2 ^ j < 2 * k → t.new k = t.new (2 ^ j)
  root : ∀ k d, t.new k = some d → IsPrimitiveRoot (t.element d 1) (t.size d)
  ifft : ∀ k d x, t.new k = some d → x.length ≤ t.size d →
    t.ifft d x = inverseDft (t.size d) (t.element d 1) x
  fft : ∀ k d x, t.new k = some d → x.length ≤ t.size d →
    t.fft d x = dft (t.size d) (t.element d 1) x
  distributePowers : ∀ g x, t.distributePowers g x = SimdFft.distributePowers g x

/-- A polynomial with fewer coefficients than there are points, by its values there. -/
structure Interpolates (omega : Fr) (size : ℕ) (values : ℕ → Fr) (P : Fr[X]) : Prop where
  degree : P.natDegree < size
  eval : ∀ i, i < size → P.eval (omega ^ i) = values i

/-- The values of a matrix: its rows, then the public inputs, then zeros. -/
def column (numConstraints : ℕ) (rows : ℕ → Fr) (inputs : List Fr) (i : ℕ) : Fr :=
  if i < numConstraints then rows i else inputs.getD (i - numConstraints) 0

/-- A domain, and the one of twice its size that the checks found beside it. -/
structure Beside (t : Transforms) (domain double : t.Domain) : Prop where
  found : ∃ k, 0 < k ∧ t.new k = some domain
  new : t.new (t.size domain * 2) = some double
  square : t.element double 1 ^ 2 = t.element domain 1
  bits : t.size domain * 2 < 2 ^ 64

section Besides

variable {t : Transforms} (ht : t.Correct) {domain double : t.Domain}
  (hbeside : Beside t domain double)

include ht hbeside

theorem size_eq_pow : ∃ j, t.size domain = 2 ^ j ∧ j + 1 < 64 := by
  obtain ⟨k, hk, hnew⟩ := hbeside.found
  obtain ⟨_, _, j, hj⟩ := ht.size k domain hk hnew
  have hbits := hbeside.bits
  rw [hj, ← pow_succ] at hbits
  exact ⟨j, hj, (Nat.pow_lt_pow_iff_right (by decide)).mp hbits⟩

omit ht hbeside in
theorem nextPowerOfTwo_pow : ∀ j < 64, (2 ^ j).nextPowerOfTwo = 2 ^ j := by decide +kernel

theorem double_size : t.size double = t.size domain * 2 := by
  obtain ⟨j, hj, _⟩ := size_eq_pow ht hbeside
  have hpos := Nat.two_pow_pos j
  obtain ⟨hle, hlt, i, hi⟩ := ht.size _ double (by omega) hbeside.new
  rw [hj, ← pow_succ] at hle hlt ⊢
  rw [hi] at hle hlt ⊢
  have hij : j + 1 ≤ i := (Nat.pow_le_pow_iff_right (by decide)).mp hle
  rw [← pow_succ'] at hlt
  have hji : i < j + 1 + 1 := (Nat.pow_lt_pow_iff_right (by decide)).mp hlt
  rw [show i = j + 1 by omega]

theorem root_primitive : IsPrimitiveRoot (t.element domain 1) (t.size domain) := by
  obtain ⟨k, _, hnew⟩ := hbeside.found
  exact ht.root k domain hnew

theorem double_root_primitive : IsPrimitiveRoot (t.element double 1) (2 * t.size domain) := by
  rw [Nat.mul_comm, ← double_size ht hbeside]
  exact ht.root _ double hbeside.new

/-- A vector of values on the domain moves to the coset. -/
theorem moved_eq {x : ℕ → Fr} {P : Fr[X]}
    (hP : Interpolates (t.element domain 1) (t.size domain) x P) (g : Fr) :
    t.fft domain (t.distributePowers g (t.ifft domain (tabulate (t.size domain) x))) =
      tabulate (t.size domain) fun j => P.eval (g * t.element domain 1 ^ j) := by
  obtain ⟨k, _, hnew⟩ := hbeside.found
  have hlength : (tabulate (t.size domain) x).length = t.size domain := List.tabulate_length _ _
  have hinverse : (inverseDft (t.size domain) (t.element domain 1)
      (tabulate (t.size domain) x)).length = t.size domain := List.tabulate_length _ _
  have hscaled : (distributePowers g (inverseDft (t.size domain) (t.element domain 1)
      (tabulate (t.size domain) x))).length = t.size domain := by
    rw [distributePowers, List.tabulate_length, hinverse]
  rw [ht.ifft k domain _ hnew hlength.le, ht.distributePowers, ht.fft k domain _ hnew hscaled.le,
    dft]
  apply List.tabulate_congr
  intro j _
  rw [← CosetExtension.coset_values (root_primitive ht hbeside) hP.degree
    (fun i hi => (hP.eval i hi).symm) g j, fused]
  apply FusedTransform.transform_congr
  intro i hi
  have hread : transform (t.size domain) (t.element domain 1)⁻¹
      (fun s => (tabulate (t.size domain) x).getD s 0) i =
        transform (t.size domain) (t.element domain 1)⁻¹ x i :=
    FusedTransform.transform_congr (fun s hs => List.getD_tabulate x hs 0) i
  rw [distributePowers, hinverse, List.getD_tabulate _ hi, inverseDft, List.getD_tabulate _ hi,
    hread]
  ring

end Besides

/-! ## The steps in place -/

theorem zipWrite_tabulate {α β : Type} (f : α → β → α) (n : ℕ) (x : ℕ → α) (y : ℕ → β) :
    zipWrite f (tabulate n x) (tabulate n y) = tabulate n fun i => f (x i) (y i) := by
  have hzip : ∀ (xs : List α) (ys : List β), xs.length = ys.length →
      zipWrite f xs ys = List.zipWith f xs ys := by
    intro xs
    induction xs with
    | nil => exact fun ys _ => by cases ys <;> rfl
    | cons a xs ih =>
      intro ys hlength
      cases ys with
      | nil => cases hlength
      | cons b ys => rw [zipWrite, ih ys (Nat.succ.inj hlength), List.zipWith_cons_cons]
  rw [hzip _ _ (by rw [List.tabulate_length, List.tabulate_length])]
  apply List.ext_getElem
  · simp only [List.length_zipWith, List.tabulate_length, Nat.min_self]
  · intro i _ _
    rw [List.getElem_zipWith, List.tabulate_getElem, List.tabulate_getElem, List.tabulate_getElem]

theorem zip_tabulate {α β : Type} (n : ℕ) (x : ℕ → α) (y : ℕ → β) :
    (tabulate n x).zip (tabulate n y) = tabulate n fun i => (x i, y i) := by
  rw [tabulate, tabulate, tabulate, List.zip_map']

theorem replicate_eq_tabulate {α : Type} (n : ℕ) (a : α) :
    List.replicate n a = tabulate n fun _ => a := by
  rw [tabulate, List.map_const', List.length_range]

theorem tabulate_append {α : Type} (m n : ℕ) (x y : ℕ → α) :
    tabulate m x ++ tabulate n y =
      tabulate (m + n) fun i => if i < m then x i else y (i - m) := by
  apply List.ext_getElem
  · simp only [List.length_append, List.tabulate_length]
  · intro i _ _
    rw [List.tabulate_getElem]
    split
    · rename_i h
      rw [List.getElem_append_left (by rw [List.tabulate_length]; exact h), List.tabulate_getElem]
    · rename_i h
      rw [List.getElem_append_right (by rw [List.tabulate_length]; omega), List.tabulate_getElem,
        List.tabulate_length]

theorem zipWrite_ignoring {α β : Type} (g : β → α) (us : List α) (vs : List β)
    (h : us.length ≤ vs.length) :
    zipWrite (fun _ v => g v) us vs = (vs.take us.length).map g := by
  induction us generalizing vs with
  | nil => cases vs <;> rfl
  | cons u us ih =>
    cases vs with
    | nil => exact absurd h (Nat.not_succ_le_zero _)
    | cons v vs =>
      rw [zipWrite, ih vs (Nat.le_of_succ_le_succ h), List.length_cons, List.take_succ_cons,
        List.map_cons]

/-- The products of the rows, with zeros behind them. -/
theorem multiply_tabulate {m n : ℕ} (h : m ≤ n) (x y : ℕ → Fr) (hy : ∀ i, m ≤ i → y i = 0)
    {c : List Fr} (hc : c.length = m) :
    multiply m ⟨tabulate n x, tabulate n y, c ++ List.replicate (n - m) 0⟩ =
      tabulate n fun i => x i * y i := by
  have hfirst : zipWrite (fun _ ab => ab.1 * ab.2) c (tabulate n fun i => (x i, y i)) =
      tabulate m fun i => x i * y i := by
    rw [zipWrite_ignoring _ _ _ (by rw [hc, List.tabulate_length]; exact h), hc, List.take_tabulate h,
      tabulate, List.map_map]
    rfl
  unfold multiply
  dsimp only
  rw [List.take_left' hc, List.drop_left' hc, zip_tabulate, hfirst, replicate_eq_tabulate,
    tabulate_append, Nat.add_sub_cancel' h]
  apply List.tabulate_congr
  intro i _
  split
  · rfl
  · rw [hy i (by omega), mul_zero]

/-- The steps in place, on vectors of values on the domain. -/
theorem finishEvaluations_eq {t : Transforms} (ht : t.Correct) {domain double : t.Domain}
    (hbeside : Beside t domain double) {m : ℕ} (hm : m ≤ t.size domain) {x y : ℕ → Fr}
    (hy : ∀ i, m ≤ i → y i = 0) {A B C : Fr[X]}
    (hA : Interpolates (t.element domain 1) (t.size domain) x A)
    (hB : Interpolates (t.element domain 1) (t.size domain) y B)
    (hC : Interpolates (t.element domain 1) (t.size domain) (fun i => x i * y i) C)
    (c : List Fr) :
    ∃ v, finishEvaluations t domain m
        ⟨tabulate (t.size domain) x, tabulate (t.size domain) y, c⟩ = (.ok (), v) ∧
      v.a = tabulate (t.size domain) fun i =>
        (A * B - C).eval (t.element double 1 * t.element domain 1 ^ i) := by
  have hsize := double_size ht hbeside
  have hchecked : okOr ((checked (t.size domain * 2)).bind checkedNextPowerOfTwo)
      SynthesisError.polynomialDegreeTooLarge = .ok (t.size domain * 2) := by
    obtain ⟨j, hj, hbits⟩ := size_eq_pow ht hbeside
    rw [checked, if_pos hbeside.bits, Option.bind_some, checkedNextPowerOfTwo]
    have hnext : (t.size domain * 2).nextPowerOfTwo = t.size domain * 2 := by
      rw [hj, ← pow_succ]
      exact nextPowerOfTwo_pow (j + 1) hbits
    rw [hnext, checked, if_pos hbeside.bits]
    rfl
  have hnew : okOr (t.new (t.size domain * 2)) SynthesisError.polynomialDegreeTooLarge =
      .ok double := by
    rw [hbeside.new]
    rfl
  have hresize : (Buffer.resize c (t.size domain) 0).length = t.size domain := by
    rw [Buffer.resize, List.length_append, List.length_take, List.length_replicate]
    omega
  have htake : ((Buffer.resize c (t.size domain) 0).take m).length = m := by
    rw [List.length_take, hresize, Nat.min_eq_left hm]
  have hlengths : ¬ ((tabulate (t.size domain) x).length ≠ t.size domain ∨
      (tabulate (t.size domain) y).length ≠ t.size domain ∨ m > t.size domain) := by
    rw [List.tabulate_length, List.tabulate_length]
    omega
  have hdouble : ¬ (t.size double ≠ 2 * t.size domain ∨
      t.element double 1 ^ 2 ≠ t.element domain 1) := by
    rw [hsize, Nat.mul_comm]
    exact fun h => h.elim (fun h => h rfl) fun h => h hbeside.square
  unfold finishEvaluations
  rw [Work.get_bind, Work.refuse_bind hlengths, Work.lift_bind hchecked, Work.lift_bind hnew,
    Work.refuse_bind hdouble, Work.modify_bind, Work.get_bind, Work.modify_bind, Work.modify_bind,
    Work.get_bind, Work.modify_bind, Work.get_bind]
  refine ⟨_, rfl, ?_⟩
  dsimp only [Vectors.setA, Vectors.setC, Vectors.each]
  rw [hresize, multiply_tabulate hm x y hy htake, moved_eq ht hbeside hA, moved_eq ht hbeside hB,
    moved_eq ht hbeside hC, zipWrite_tabulate, zipWrite_tabulate]
  apply List.tabulate_congr
  intro i _
  rw [eval_sub, eval_mul]

/-! ## The rows -/

theorem okOr_ok {α : Type} {value : Option α} {e : SynthesisError} {a : α} :
    okOr value e = .ok a ↔ value = some a := by
  cases value with
  | none => exact ⟨fun h => (by cases h), fun h => (by cases h)⟩
  | some b => exact ⟨fun h => by cases h; rfl, fun h => by cases h; rfl⟩

theorem checked_some {value n : ℕ} : checked value = some n ↔ value < 2 ^ 64 ∧ n = value := by
  unfold checked
  split
  · rename_i h
    exact ⟨fun heq => ⟨h, (Option.some.inj heq).symm⟩, fun heq => by rw [heq.2]⟩
  · rename_i h
    exact ⟨fun heq => (by cases heq), fun heq => absurd heq.1 h⟩

theorem witnessDomain_ok {t : Transforms} {numInputs numConstraints : ℕ} {assignment : List Fr}
    {domain : t.Domain} (h : witnessDomain t numInputs numConstraints assignment = .ok domain) :
    numInputs ≤ assignment.length ∧ t.new (numConstraints + numInputs) = some domain ∧
      0 < numConstraints + numInputs ∧ ∃ double, Beside t domain double := by
  obtain ⟨_, hinputs, h₁⟩ := Fallible.bind_ok.mp h
  obtain ⟨size, hsize, h₂⟩ := Fallible.bind_ok.mp h₁
  obtain ⟨_, _, h₃⟩ := Fallible.bind_ok.mp h₂
  obtain ⟨found, hfound, h₄⟩ := Fallible.bind_ok.mp h₃
  obtain ⟨doubleSize, hbits, h₅⟩ := Fallible.bind_ok.mp h₄
  obtain ⟨_, _, h₆⟩ := Fallible.bind_ok.mp h₅
  obtain ⟨double, hdouble, h₇⟩ := Fallible.bind_ok.mp h₆
  obtain ⟨_, hfits, h₈⟩ := Fallible.bind_ok.mp h₇
  cases h₈
  have hinputs := Panic.refuse_ok.mp hinputs
  have hfits := Panic.refuse_ok.mp hfits
  obtain ⟨_, hsize⟩ := checked_some.mp (okOr_ok.mp hsize)
  obtain ⟨hbits, hdoubleSize⟩ := checked_some.mp (okOr_ok.mp hbits)
  rw [hsize] at hfound
  rw [hdoubleSize] at hdouble hfits
  have hfound := okOr_ok.mp hfound
  refine ⟨by omega, hfound, by omega, double, ⟨_, by omega, hfound⟩, okOr_ok.mp hdouble, ?_, hbits⟩
  exact not_not.mp fun hne => hfits (.inr hne)

/-- The loop over the rows of compact matrices. -/
theorem evaluateRows_eq {matrices : Fin 2 → CompactMatrix} {assignment : List Fr} {a b : ℕ → Fr}
    {rows : List ℕ}
    (ha : ∀ row ∈ rows, (matrices 0).evaluateRow row assignment = some (a row))
    (hb : ∀ row ∈ rows, (matrices 1).evaluateRow row assignment = some (b row)) (v : Vectors) :
    evaluateRows matrices assignment rows v =
      (.ok (), ⟨rows.foldl (fun xs row => xs.set row (a row)) v.a,
        rows.foldl (fun xs row => xs.set row (b row)) v.b, v.c⟩) := by
  induction rows generalizing v with
  | nil => rfl
  | cons row rows ih =>
    have hx := ha row List.mem_cons_self
    have hy := hb row List.mem_cons_self
    change (Work.lift _ >>= _) v = _
    rw [Work.lift_bind (Panic.expect_ok.mpr hx), Work.get_bind, Work.modify_bind,
      Work.lift_bind (Panic.expect_ok.mpr hy), Work.get_bind, Work.modify_bind,
      ih (fun r hr => ha r (List.mem_cons_of_mem _ hr))
        (fun r hr => hb r (List.mem_cons_of_mem _ hr))]
    rfl

theorem set_rows (n : ℕ) (a : ℕ → Fr) (m : ℕ) :
    (List.range m).foldl (fun xs row => xs.set row (a row)) (List.replicate n 0) =
      tabulate n (column m a []) := by
  induction m with
  | zero =>
    rw [List.range_zero, List.foldl_nil, replicate_eq_tabulate]
    exact List.tabulate_congr fun i _ => rfl
  | succ m ih =>
    rw [List.range_succ, List.foldl_append, ih, List.foldl_cons, List.foldl_nil, List.tabulate_set]
    apply List.tabulate_congr
    intro i _
    rw [Function.update_apply, column, column, List.getD_nil, List.getD_nil]
    split
    · rename_i h
      rw [if_pos (by omega), h]
    · rename_i h
      by_cases hlt : i < m
      · rw [if_pos hlt, if_pos (by omega)]
      · rw [if_neg hlt, if_neg (by omega)]

/-- The loop over nested rows. -/
theorem evaluateNested_eq {assignment : List Fr} {m : ℕ} {atRows btRows : Matrix}
    (hat : atRows.length = m) (hbt : btRows.length = m) {a b : ℕ → Fr}
    (ha : ∀ i entries, atRows[i]? = some entries →
      evaluateChecked entries assignment = some (a i))
    (hb : ∀ i entries, btRows[i]? = some entries →
      evaluateChecked entries assignment = some (b i))
    {as bs : List Fr} (has : as.length = m) (hbs : bs.length = m) :
    evaluateNested assignment as bs atRows btRows = .ok (tabulate m a, tabulate m b) := by
  induction m generalizing atRows btRows a b as bs with
  | zero =>
    rw [List.length_eq_zero_iff.mp has, List.length_eq_zero_iff.mp hbs]
    rfl
  | succ m ih =>
    cases atRows with
    | nil => cases hat
    | cons at_i atRows =>
      cases btRows with
      | nil => cases hbt
      | cons bt_i btRows =>
        cases as with
        | nil => cases has
        | cons _ as =>
          cases bs with
          | nil => cases hbs
          | cons _ bs =>
            have hrest := ih (Nat.succ.inj hat) (Nat.succ.inj hbt)
              (a := fun i => a (i + 1)) (b := fun i => b (i + 1))
              (fun i entries h => ha (i + 1) entries h) (fun i entries h => hb (i + 1) entries h)
              (Nat.succ.inj has) (Nat.succ.inj hbs)
            rw [evaluateNested, ha 0 at_i rfl, hb 0 bt_i rfl, tabulate_cons, tabulate_cons]
            exact Fallible.bind_ok.mpr ⟨_, rfl, Fallible.bind_ok.mpr ⟨_, rfl,
              Fallible.bind_ok.mpr ⟨_, hrest, rfl⟩⟩⟩

/-! ## The map -/

/-- The public inputs, written behind the rows. -/
theorem insert_inputs {m n : ℕ} (a : ℕ → Fr) (inputs : List Fr) (h : m + inputs.length ≤ n) :
    (tabulate n (column m a [])).take m ++ inputs ++
        (tabulate n (column m a [])).drop (m + inputs.length) =
      tabulate n (column m a inputs) := by
  have hinputs : inputs = tabulate inputs.length fun i => inputs.getD i 0 := by
    apply List.ext_getElem (List.tabulate_length _ _).symm
    intro i hi _
    rw [List.tabulate_getElem, List.getD_eq_getElem _ _ hi]
  have hdrop : (tabulate n (column m a [])).drop (m + inputs.length) =
      tabulate (n - (m + inputs.length)) fun _ => 0 := by
    apply List.ext_getElem
    · simp only [List.length_drop, List.tabulate_length]
    · intro i _ _
      rw [List.getElem_drop, List.tabulate_getElem, List.tabulate_getElem, column,
        if_neg (by omega), List.getD_nil]
  have hsplit : tabulate m (column m a []) ++ inputs =
      tabulate (m + inputs.length) fun i =>
        if i < m then column m a [] i else inputs.getD (i - m) 0 := by
    have happend := tabulate_append m inputs.length (column m a []) fun i => inputs.getD i 0
    rw [← hinputs] at happend
    exact happend
  rw [hdrop, List.take_tabulate (by omega), hsplit, tabulate_append, Nat.add_sub_cancel' h]
  apply List.tabulate_congr
  intro i _
  unfold column
  by_cases hrow : i < m
  · rw [if_pos (by omega), if_pos hrow, if_pos hrow, if_pos hrow]
  · rw [if_neg hrow, if_neg hrow]
    by_cases hinput : i < m + inputs.length
    · rw [if_pos hinput]
    · rw [if_neg hinput, List.getD_eq_default _ _ (by omega)]

section Map

variable {t : Transforms} (ht : t.Correct) {numInputs numConstraints : ℕ} {assignment : List Fr}
  {domain double : t.Domain}
  (hdomain : witnessDomain t numInputs numConstraints assignment = .ok domain)
  (hbeside : Beside t domain double) {a b : ℕ → Fr} {A B C : Fr[X]}
  (hA : Interpolates (t.element domain 1) (t.size domain)
    (column numConstraints a (assignment.take numInputs)) A)
  (hB : Interpolates (t.element domain 1) (t.size domain) (column numConstraints b []) B)
  (hC : Interpolates (t.element domain 1) (t.size domain)
    (column numConstraints (fun i => a i * b i) []) C)

include ht hdomain

theorem rows_fit : numConstraints + numInputs ≤ t.size domain := by
  obtain ⟨_, hnew, hpos, _⟩ := witnessDomain_ok hdomain
  exact (ht.size _ domain hpos hnew).1

include hbeside hA hB hC

theorem finishWitnessMap_eq :
    finishWitnessMap t (tabulate (t.size domain) (column numConstraints a []))
        (tabulate (t.size domain) (column numConstraints b [])) numInputs numConstraints
        assignment =
      .ok (tabulate (t.size domain) fun i =>
        (A * B - C).eval (t.element double 1 * t.element domain 1 ^ i)) := by
  have hfit := rows_fit ht hdomain
  obtain ⟨hinputs, _, _, _⟩ := witnessDomain_ok hdomain
  have htake : (assignment.take numInputs).length = numInputs := by
    rw [List.length_take, Nat.min_eq_left hinputs]
  have hinsert := insert_inputs (m := numConstraints) (n := t.size domain) a
    (assignment.take numInputs) (by rw [htake]; exact hfit)
  rw [htake] at hinsert
  have hproducts : ∀ i, column numConstraints a (assignment.take numInputs) i *
      column numConstraints b [] i = column numConstraints (fun i => a i * b i) [] i := by
    intro i
    unfold column
    split
    · rfl
    · rw [List.getD_nil, mul_zero]
  have hzeros : ∀ i, numConstraints ≤ i → column numConstraints b [] i = 0 := by
    intro i hi
    rw [column, if_neg (by omega), List.getD_nil]
  have hC' : Interpolates (t.element domain 1) (t.size domain)
      (fun i => column numConstraints a (assignment.take numInputs) i *
        column numConstraints b [] i) C := by
    simp only [hproducts]
    exact hC
  obtain ⟨v, hfinish, hv⟩ := finishEvaluations_eq ht hbeside (by omega) hzeros hA hB hC' []
  have hplace : finishWitnessMapInPlace t numInputs numConstraints assignment
      ⟨tabulate (t.size domain) (column numConstraints a []),
        tabulate (t.size domain) (column numConstraints b []), []⟩ = (.ok (), v) := by
    unfold finishWitnessMapInPlace
    rw [Work.lift_bind hdomain, Work.get_bind, Work.require_bind (by
        rw [List.tabulate_length]
        exact hfit), Work.require_bind hinputs, Work.modify_bind, Vectors.setA]
    dsimp only
    rw [hinsert, hfinish]
  rw [finishWitnessMap, hplace, ← hv]
  rfl

theorem witnessMapFromCompactMatrices_eq {matrices : Fin 2 → CompactMatrix}
    (hrows : ∀ i, (matrices i).numRows = numConstraints)
    (ha : ∀ i, i < numConstraints → (matrices 0).evaluateRow i assignment = some (a i))
    (hb : ∀ i, i < numConstraints → (matrices 1).evaluateRow i assignment = some (b i)) :
    witnessMapFromCompactMatrices t matrices numInputs numConstraints assignment =
      .ok (tabulate (t.size domain) fun i =>
        (A * B - C).eval (t.element double 1 * t.element domain 1 ^ i)) := by
  have hfit := rows_fit ht hdomain
  have hevaluate : evaluate matrices numConstraints assignment
      ⟨List.replicate (t.size domain) 0, List.replicate (t.size domain) 0, []⟩ =
        (.ok (), ⟨tabulate (t.size domain) (column numConstraints a []),
          tabulate (t.size domain) (column numConstraints b []), []⟩) := by
    have hlong : numConstraints ≤ (List.replicate (t.size domain) (0 : Fr)).length := by
      rw [List.length_replicate]
      omega
    unfold evaluate
    rw [Work.get_bind, Work.require_bind hlong, Work.require_bind hlong,
      evaluateRows_eq (fun row hrow => ha row (List.mem_range.mp hrow))
        (fun row hrow => hb row (List.mem_range.mp hrow)), set_rows, set_rows]
  unfold witnessMapFromCompactMatrices
  refine Fallible.bind_ok.mpr ⟨domain, hdomain, Fallible.bind_ok.mpr ⟨(), ?_, ?_⟩⟩
  · rw [Panic.refuse_ok]
    exact fun ⟨i, hi⟩ => hi (hrows i)
  · dsimp only
    rw [hevaluate]
    exact Fallible.bind_ok.mpr ⟨(), rfl,
      finishWitnessMap_eq ht hdomain hbeside hA hB hC⟩

theorem witnessMapFromMatrices_eq {atRows btRows : Matrix} (more : List Matrix)
    (hat : atRows.length = numConstraints) (hbt : btRows.length = numConstraints)
    (ha : ∀ i entries, atRows[i]? = some entries →
      evaluateChecked entries assignment = some (a i))
    (hb : ∀ i entries, btRows[i]? = some entries →
      evaluateChecked entries assignment = some (b i)) :
    witnessMapFromMatrices t (atRows :: btRows :: more) numInputs numConstraints assignment =
      .ok (tabulate (t.size domain) fun i =>
        (A * B - C).eval (t.element double 1 * t.element domain 1 ^ i)) := by
  have hfit := rows_fit ht hdomain
  have hzeros : ((List.replicate (t.size domain) (0 : Fr)).take numConstraints).length =
      numConstraints := by
    rw [List.length_take, List.length_replicate]
    omega
  have hpad : ∀ x : ℕ → Fr, tabulate numConstraints x ++
      (List.replicate (t.size domain) 0).drop numConstraints =
        tabulate (t.size domain) (column numConstraints x []) := by
    intro x
    rw [List.drop_replicate, replicate_eq_tabulate, tabulate_append,
      Nat.add_sub_cancel' (by omega)]
    rfl
  unfold witnessMapFromMatrices
  refine Fallible.bind_ok.mpr ⟨domain, hdomain, Fallible.bind_ok.mpr ⟨(), ?_, ?_⟩⟩
  · rw [Panic.refuse_ok]
    rintro (h | ⟨m, hm, hne⟩)
    · exact absurd h (by simp)
    · rcases List.mem_cons.mp hm with rfl | hm
      · exact hne hat
      · rcases List.mem_cons.mp hm with rfl | hm
        · exact hne hbt
        · exact List.not_mem_nil hm
  · refine Fallible.bind_ok.mpr ⟨(), Panic.require_ok.mpr (by omega),
      Fallible.bind_ok.mpr ⟨_, evaluateNested_eq hat hbt ha hb hzeros hzeros, ?_⟩⟩
    dsimp only
    rw [hpad, hpad]
    exact finishWitnessMap_eq ht hdomain hbeside hA hB hC

end Map

/-! ## The H query -/

theorem stepByTwo_tabulate {α : Type} (n : ℕ) (f : ℕ → α) :
    stepByTwo ((tabulate (2 * n) f).drop 1) = tabulate n fun i => f (2 * i + 1) := by
  induction n generalizing f with
  | zero => rfl
  | succ n ih =>
    rw [show 2 * (n + 1) = 2 * n + 1 + 1 by ring, tabulate_cons, tabulate_cons, tabulate_cons,
      List.drop_one, List.tail_cons]
    cases n with
    | zero => rfl
    | succ n =>
      rw [show 2 * (n + 1) = 2 * n + 1 + 1 by ring, tabulate_cons, stepByTwo]
      have hrest := ih fun i => f (i + 1 + 1)
      rw [show 2 * (n + 1) = 2 * n + 1 + 1 by ring, tabulate_cons, List.drop_one,
        List.tail_cons] at hrest
      rw [hrest]
      refine congrArg (List.cons (f 1)) (List.tabulate_congr fun i _ => ?_)
      rw [show 2 * (i + 1) + 1 = 2 * i + 1 + 1 + 1 by ring]

theorem nextPowerOfTwo_count : ∀ j < 63, ((2 ^ j - 1) * 2 + 1).nextPowerOfTwo ≤ 2 ^ 63 := by
  decide +kernel

theorem hQueryScalars_eq {t : Transforms} (ht : t.Correct) {domain double : t.Domain}
    (hbeside : Beside t domain double) (tau zt deltaInverse : Fr) :
    hQueryScalars t (t.size domain - 1) tau zt deltaInverse =
      .ok (tabulate (t.size domain) fun i => ((2 * t.size domain : ℕ) : Fr)⁻¹ *
        transform (2 * t.size domain) (t.element double 1)⁻¹
          (fun k => if k < 2 * t.size domain - 1 then deltaInverse * tau ^ k else 0)
          (2 * i + 1)) := by
  obtain ⟨j, hj, hbits⟩ := size_eq_pow ht hbeside
  have hsize := double_size ht hbeside
  have hpos := Nat.two_pow_pos j
  have hbound := hbeside.bits
  have hcount : (t.size domain - 1) * 2 + 1 = 2 * t.size domain - 1 := by omega
  have hchecked : (checked ((t.size domain - 1) * 2)).bind (fun n => checked (n + 1)) =
      some (2 * t.size domain - 1) := by
    rw [checked_some.mpr ⟨by omega, rfl⟩, Option.bind_some, ← hcount]
    exact checked_some.mpr ⟨by omega, rfl⟩
  have hnext : checkedNextPowerOfTwo (2 * t.size domain - 1) =
      some (2 * t.size domain - 1).nextPowerOfTwo := by
    refine checked_some.mpr ⟨?_, rfl⟩
    rw [← hcount, hj]
    exact lt_of_le_of_lt (nextPowerOfTwo_count j (by omega)) (by decide)
  have hnew : t.new (max (2 * t.size domain - 1) 2) = some double := by
    have hdouble := hbeside.new
    rw [hj, ← pow_succ] at hdouble
    rw [← hdouble, hj]
    rw [pow_succ] at *
    refine ht.sized _ (j + 1) ?_ ?_
    · rw [pow_succ]
      omega
    · rw [pow_succ]
      omega
  unfold hQueryScalars
  refine Fallible.bind_ok.mpr ⟨_, okOr_ok.mpr hchecked, Fallible.bind_ok.mpr ⟨_,
    okOr_ok.mpr hnext, Fallible.bind_ok.mpr ⟨_, okOr_ok.mpr hnew, ?_⟩⟩⟩
  have hlength : ((List.range (2 * t.size domain - 1)).map fun i => deltaInverse * tau ^ i).length ≤
      t.size double := by
    rw [List.length_map, List.length_range]
    omega
  refine congrArg Except.ok ?_
  rw [ht.ifft _ double _ hbeside.new hlength, hsize, Nat.mul_comm (t.size domain) 2, inverseDft,
    stepByTwo_tabulate]
  apply List.tabulate_congr
  intro i _
  congr 1
  apply FusedTransform.transform_congr
  intro k _
  split
  · rename_i hk
    exact List.getD_tabulate _ hk 0
  · rename_i hk
    exact List.getD_eq_default _ _ (by rw [List.length_map, List.length_range]; omega)

theorem sum_zipWith_tabulate (n : ℕ) (x y : ℕ → Fr) :
    (List.zipWith (· * ·) (tabulate n x) (tabulate n y)).sum =
      ∑ i ∈ Finset.range n, x i * y i := by
  rw [tabulate, tabulate, List.zipWith_map, List.zipWith_self]
  change (tabulate n fun i => x i * y i).sum = _
  induction n with
  | zero => rfl
  | succ n ih =>
    rw [List.tabulate_succ, List.sum_append, ih, List.sum_singleton, Finset.sum_range_succ]

/-- For every system that fits the domain and every assignment that satisfies it, both maps return
A B - C at the odd points of the double domain, whatever polynomials A, B and C have the rows and
the public inputs as values; the scalars of the H query meet it in the quotient's share at the
secret point. -/
theorem witness_map_is_quotient {t : Transforms} (ht : t.Correct) {numInputs numConstraints : ℕ}
    {assignment : List Fr} {domain : t.Domain}
    (hdomain : witnessDomain t numInputs numConstraints assignment = .ok domain)
    {compact : Fin 2 → CompactMatrix} {rows : Fin 2 → Matrix}
    (hholds : ∀ m, (compact m).Holds (rows m)) (hlength : ∀ m, (rows m).length = numConstraints)
    {a b c : ℕ → Fr}
    (ha : ∀ i entries, (rows 0)[i]? = some entries →
      evaluateChecked entries assignment = some (a i))
    (hb : ∀ i entries, (rows 1)[i]? = some entries →
      evaluateChecked entries assignment = some (b i))
    (hsatisfied : ∀ i, i < numConstraints → a i * b i = c i)
    {A B C : Fr[X]}
    (hA : Interpolates (t.element domain 1) (t.size domain)
      (column numConstraints a (assignment.take numInputs)) A)
    (hB : Interpolates (t.element domain 1) (t.size domain) (column numConstraints b []) B)
    (hC : Interpolates (t.element domain 1) (t.size domain) (column numConstraints c []) C) :
    ∃ double h, t.new (t.size domain * 2) = some double ∧
      h = tabulate (t.size domain)
        (fun i => (A * B - C).eval (t.element double 1 ^ (2 * i + 1))) ∧
      witnessMapFromCompactMatrices t compact numInputs numConstraints assignment = .ok h ∧
      (∀ more, witnessMapFromMatrices t (rows 0 :: rows 1 :: more) numInputs numConstraints
        assignment = .ok h) ∧
      ∃ H : Fr[X], A * B - C = H * (X ^ t.size domain - 1) ∧
        ∀ tau zt deltaInverse, ∃ q,
          hQueryScalars t (t.size domain - 1) tau zt deltaInverse = .ok q ∧
            q.length = h.length ∧
            (List.zipWith (· * ·) h q).sum =
              deltaInverse * (H.eval tau * (tau ^ t.size domain - 1)) := by
  obtain ⟨_, _, _, double, hbeside⟩ := witnessDomain_ok hdomain
  have hcolumn : column numConstraints c [] = column numConstraints (fun i => a i * b i) [] := by
    funext i
    unfold column
    split
    · rename_i hi
      exact (hsatisfied i hi).symm
    · rfl
  rw [hcolumn] at hC
  have hodd : ∀ i, t.element double 1 * t.element domain 1 ^ i =
      t.element double 1 ^ (2 * i + 1) := by
    intro i
    rw [← hbeside.square, ← pow_mul, ← pow_succ']
  have hvanish : ∀ i, i < t.size domain → (A * B - C).eval (t.element domain 1 ^ i) = 0 := by
    intro i hi
    rw [eval_sub, eval_mul, hA.eval i hi, hB.eval i hi, hC.eval i hi]
    unfold column
    split
    · exact sub_self _
    · rw [List.getD_nil, mul_zero, sub_zero]
  have hpos : 0 < t.size domain := Nat.zero_lt_of_lt hA.degree
  have hdegree : (A * B - C).natDegree + 1 < 2 * t.size domain := by
    have hsub := natDegree_sub_le (A * B) C
    have hmul := natDegree_mul_le (p := A) (q := B)
    have hAdegree := hA.degree
    have hBdegree := hB.degree
    have hCdegree := hC.degree
    omega
  obtain ⟨H, hH⟩ := CosetExtension.vanishing_dvd (root_primitive ht hbeside) hpos hvanish
  refine ⟨double, _, hbeside.new, rfl, ?_, ?_, H, by rw [hH, mul_comm], ?_⟩
  · simp only [← hodd]
    apply witnessMapFromCompactMatrices_eq ht hdomain hbeside hA hB hC
    · intro m
      rw [CompactMatrix.numRows, (hholds m).offsets_length, hlength m, Nat.add_sub_cancel]
    · intro i hi
      rw [← hlength 0] at hi
      rw [(hholds 0).evaluate i _ (List.getElem?_eq_getElem hi)]
      exact ha i _ (List.getElem?_eq_getElem hi)
    · intro i hi
      rw [← hlength 1] at hi
      rw [(hholds 1).evaluate i _ (List.getElem?_eq_getElem hi)]
      exact hb i _ (List.getElem?_eq_getElem hi)
  · intro more
    simp only [← hodd]
    exact witnessMapFromMatrices_eq ht hdomain hbeside hA hB hC more (hlength 0) (hlength 1) ha hb
  · intro tau zt deltaInverse
    refine ⟨_, hQueryScalars_eq ht hbeside tau zt deltaInverse, ?_, ?_⟩
    · rw [List.tabulate_length, List.tabulate_length]
    · have hsum := CosetExtension.sum_odd_values (double_root_primitive ht hbeside) hdegree
        (by rw [hbeside.square]; exact hvanish) deltaInverse tau
      rw [sum_zipWith_tabulate]
      simp only [← hodd]
      rw [hbeside.square] at hsum
      rw [hsum, hH, eval_mul, eval_sub, eval_pow, eval_X, eval_one]
      ring

/-! ## A library of small domains -/

/-- Domains of at most eight points, by the logarithms of their sizes. -/
def exampleTransforms : Transforms where
  Domain := ℕ
  new k := if k ≤ 8 then some (Nat.clog 2 k) else none
  size j := 2 ^ j
  element j i := (SimdFft.exampleRoot ^ 2 ^ (3 - j)) ^ i
  ifft j := inverseDft (2 ^ j) (SimdFft.exampleRoot ^ 2 ^ (3 - j))
  distributePowers := distributePowers
  fft j := dft (2 ^ j) (SimdFft.exampleRoot ^ 2 ^ (3 - j))

theorem exampleTransforms_new {k j : ℕ} (h : exampleTransforms.new k = some j) :
    k ≤ 8 ∧ j = Nat.clog 2 k := by
  change (if k ≤ 8 then some (Nat.clog 2 k) else none) = some j at h
  split at h
  · rename_i hk
    exact ⟨hk, (Option.some.inj h).symm⟩
  · cases h

theorem exampleTransforms_correct : exampleTransforms.Correct where
  size := by
    intro k j hk h
    obtain ⟨_, rfl⟩ := exampleTransforms_new h
    refine ⟨Nat.le_pow_clog (by decide) k, ?_, _, rfl⟩
    change 2 ^ Nat.clog 2 k < 2 * k
    rcases Nat.lt_or_ge 1 k with hlarge | hsmall
    · have hpred := Nat.pow_pred_clog_lt_self (show 1 < 2 by decide) hlarge
      have hpos : 0 < Nat.clog 2 k := Nat.clog_pos (by decide) hlarge
      have hsucc : 2 ^ Nat.clog 2 k = 2 ^ (Nat.clog 2 k - 1) * 2 := by
        rw [← pow_succ, Nat.sub_add_cancel hpos]
      rw [Nat.pred_eq_sub_one] at hpred
      omega
    · rw [show k = 1 by omega, Nat.clog_one_right]
      decide
  sized := by
    intro k j hle hlt
    change (if k ≤ 8 then some (Nat.clog 2 k) else none) =
      if 2 ^ j ≤ 8 then some (Nat.clog 2 (2 ^ j)) else none
    have hclog : Nat.clog 2 k = j := by
      apply Nat.le_antisymm (Nat.clog_le_of_le_pow hle)
      apply Nat.le_of_lt_succ
      apply (Nat.pow_lt_pow_iff_right (show 1 < 2 by decide)).mp
      have hself := Nat.le_pow_clog (show 1 < 2 by decide) k
      rw [Nat.pow_succ]
      omega
    rw [Nat.clog_pow 2 j (by decide), hclog]
    by_cases hk : k ≤ 8
    · have hj : j < 4 := (Nat.pow_lt_pow_iff_right (show 1 < 2 by decide)).mp (by omega)
      have hpower : 2 ^ j ≤ 2 ^ 3 := Nat.pow_le_pow_right Nat.two_pos (by omega)
      rw [if_pos hk, if_pos (show 2 ^ j ≤ 8 by omega)]
    · rw [if_neg hk, if_neg (by omega)]
  root := by
    intro k j h
    obtain ⟨hk, rfl⟩ := exampleTransforms_new h
    have hj : Nat.clog 2 k ≤ 3 := Nat.clog_le_of_le_pow hk
    change IsPrimitiveRoot ((SimdFft.exampleRoot ^ 2 ^ (3 - Nat.clog 2 k)) ^ 1) (2 ^ Nat.clog 2 k)
    rw [pow_one]
    apply SimdFft.exampleRoot_primitive.pow (by decide)
    rw [← pow_add, Nat.sub_add_cancel hj]
  ifft _ _ x _ _ := congrArg (fun w => inverseDft _ w x) (pow_one _).symm
  fft _ _ x _ _ := congrArg (fun w => dft _ w x) (pow_one _).symm
  distributePowers _ _ := rfl

theorem exampleRoot_two : exampleTransforms.element (1 : ℕ) 1 = -1 :=
  (pow_one _).trans SimdFft.exampleRoot_half

/-- One constraint: the second signal times the third. -/
def exampleRows : Fin 2 → Matrix := ![[[(1, 1)]], [[(1, 2)]]]

def exampleAssignment : List Fr := [1, (3 : ℕ), (2 : ℕ)]

theorem example_domain :
    witnessDomain exampleTransforms 1 1 exampleAssignment = .ok (1 : ℕ) := by
  have hsmall : exampleTransforms.new 2 = some (1 : ℕ) := by
    change some (Nat.clog 2 2) = some 1
    rw [← Nat.pow_one 2, Nat.clog_pow 2 1 (by decide)]
  have hlarge : exampleTransforms.new 4 = some (2 : ℕ) := by
    change some (Nat.clog 2 (2 ^ 2)) = some 2
    rw [Nat.clog_pow 2 2 (by decide)]
  have hnext : ∀ j, j < 64 → checkedNextPowerOfTwo (2 ^ j) = some (2 ^ j) := by
    intro j hj
    rw [checkedNextPowerOfTwo, nextPowerOfTwo_pow j hj]
    exact checked_some.mpr ⟨Nat.pow_lt_pow_right (by decide) hj, rfl⟩
  refine Fallible.bind_ok.mpr ⟨(), Panic.refuse_ok.mpr ?_, Fallible.bind_ok.mpr ⟨2, rfl,
    Fallible.bind_ok.mpr ⟨2, okOr_ok.mpr (hnext 1 (by decide)), Fallible.bind_ok.mpr ⟨(1 : ℕ),
    okOr_ok.mpr hsmall, Fallible.bind_ok.mpr ⟨4, rfl, Fallible.bind_ok.mpr ⟨4,
    okOr_ok.mpr (hnext 2 (by decide)), Fallible.bind_ok.mpr ⟨(2 : ℕ), okOr_ok.mpr hlarge,
    Fallible.bind_ok.mpr ⟨(), Panic.refuse_ok.mpr ?_, rfl⟩⟩⟩⟩⟩⟩⟩⟩
  · rw [exampleAssignment, List.length_cons]
    omega
  · have hsquare : exampleTransforms.element (2 : ℕ) 1 ^ 2 =
        exampleTransforms.element (1 : ℕ) 1 := by
      change ((SimdFft.exampleRoot ^ 2 ^ 1) ^ 1) ^ 2 = (SimdFft.exampleRoot ^ 2 ^ 2) ^ 1
      rw [pow_one, pow_one, ← pow_mul]
      rfl
    exact fun h => h.elim (fun h => h rfl) fun h => h hsquare

theorem interpolates_line {m : ℕ} {rows : ℕ → Fr} {inputs : List Fr} (p q : Fr)
    (hzero : column m rows inputs 0 = p + q) (hone : column m rows inputs 1 = p - q) :
    Interpolates (exampleTransforms.element (1 : ℕ) 1) (exampleTransforms.size (1 : ℕ))
      (column m rows inputs) (C p + C q * X) where
  degree := by
    change (C p + C q * X).natDegree < 2
    have hline := natDegree_linear_le (a := q) (b := p)
    rw [add_comm] at hline
    omega
  eval i hi := by
    rw [eval_add, eval_C, eval_C_mul, eval_X, exampleRoot_two]
    change i < 2 at hi
    rcases i with _ | _ | i
    · rw [hzero, pow_zero, mul_one]
    · rw [hone, pow_one]
      ring
    · omega

theorem witness_map_is_quotient_example :
    ∃ (double : ℕ) (h : List Fr), exampleTransforms.new (2 * 2) = some double ∧
      h = tabulate 2 (fun i =>
        ((C ((2 : ℕ) : Fr) + C 1 * X) * (C 1 + C 1 * X) -
          (C ((3 : ℕ) : Fr) + C ((3 : ℕ) : Fr) * X)).eval
            (exampleTransforms.element double 1 ^ (2 * i + 1))) ∧
      witnessMapFromCompactMatrices exampleTransforms
        (fun m => ZkeyMatrices.CompactMatrix.ofRows (exampleRows m)) 1 1 exampleAssignment =
          .ok h ∧
      (∀ more, witnessMapFromMatrices exampleTransforms (exampleRows 0 :: exampleRows 1 :: more)
        1 1 exampleAssignment = .ok h) ∧
      ∃ H : Fr[X], (C ((2 : ℕ) : Fr) + C 1 * X) * (C 1 + C 1 * X) -
          (C ((3 : ℕ) : Fr) + C ((3 : ℕ) : Fr) * X) = H * (X ^ 2 - 1) ∧
        ∀ tau zt deltaInverse, ∃ q,
          hQueryScalars exampleTransforms (2 - 1) tau zt deltaInverse = .ok q ∧
            q.length = h.length ∧
            (List.zipWith (· * ·) h q).sum =
              deltaInverse * (H.eval tau * (tau ^ 2 - 1)) := by
  have hlength : ∀ m, (exampleRows m).length = 1 := by decide
  have ha : ∀ (i : ℕ) entries, (exampleRows 0)[i]? = some entries →
      evaluateChecked entries exampleAssignment = some ((3 : ℕ) : Fr) := by
    intro i entries h
    cases i with
    | zero =>
      cases h
      change some ((0 : Fr) + 1 * ((3 : ℕ) : Fr)) = _
      rw [zero_add, one_mul]
    | succ i => cases h
  have hb : ∀ (i : ℕ) entries, (exampleRows 1)[i]? = some entries →
      evaluateChecked entries exampleAssignment = some ((2 : ℕ) : Fr) := by
    intro i entries h
    cases i with
    | zero =>
      cases h
      change some ((0 : Fr) + 1 * ((2 : ℕ) : Fr)) = _
      rw [zero_add, one_mul]
    | succ i => cases h
  have hA : Interpolates (exampleTransforms.element (1 : ℕ) 1) (exampleTransforms.size (1 : ℕ))
      (column 1 (fun _ => ((3 : ℕ) : Fr)) (exampleAssignment.take 1))
      (C ((2 : ℕ) : Fr) + C 1 * X) := by
    apply interpolates_line
    · change ((3 : ℕ) : Fr) = ((2 : ℕ) : Fr) + 1
      rw [← Nat.cast_succ]
    · change (1 : Fr) = ((2 : ℕ) : Fr) - 1
      rw [Nat.cast_succ, Nat.cast_one, add_sub_cancel_right]
  have hB : Interpolates (exampleTransforms.element (1 : ℕ) 1) (exampleTransforms.size (1 : ℕ))
      (column 1 (fun _ => ((2 : ℕ) : Fr)) []) (C 1 + C 1 * X) := by
    apply interpolates_line
    · change ((2 : ℕ) : Fr) = 1 + 1
      rw [Nat.cast_succ, Nat.cast_one]
    · exact (sub_self (1 : Fr)).symm
  have hC : Interpolates (exampleTransforms.element (1 : ℕ) 1) (exampleTransforms.size (1 : ℕ))
      (column 1 (fun _ => ((6 : ℕ) : Fr)) []) (C ((3 : ℕ) : Fr) + C ((3 : ℕ) : Fr) * X) := by
    apply interpolates_line
    · change ((6 : ℕ) : Fr) = ((3 : ℕ) : Fr) + ((3 : ℕ) : Fr)
      rw [← Nat.cast_add]
    · exact (sub_self ((3 : ℕ) : Fr)).symm
  have hsatisfied : ∀ i, i < 1 → ((3 : ℕ) : Fr) * ((2 : ℕ) : Fr) = ((6 : ℕ) : Fr) := by
    intro _ _
    rw [← Nat.cast_mul]
  exact witness_map_is_quotient exampleTransforms_correct example_domain
    (fun m => ZkeyMatrices.CompactMatrix.ofRows_holds (exampleRows m)) hlength ha hb hsatisfied
    hA hB hC

end Curvy.Prover.Qap
