import Curvy.Prover.BaseField
import Mathlib.Data.List.DropRight
import Mathlib.Tactic.FieldSimp
import Mathlib.Tactic.LinearCombination

/-!
# Square roots for point decompression

One power `a ^ ((p - 3) / 4)`, by a sliding window over the fixed exponent, yields the root of
a square of `Fq` and both candidates of a root in `Fq2`. `none` is an index out of range.
-/

namespace Curvy.Prover

set_option autoImplicit false

/-! ## The window program -/

def window : Nat := 4

/-- Square `squarings` times, then multiply by `base ^ (2 * power + 1)`; finish with `trailing`
squarings. -/
structure Schedule where
  steps : List (Nat × Nat)
  trailing : Nat
  deriving DecidableEq, Repr

/-- `to_bits_be`. -/
def toBitsBe : Nat → Nat → List Bool
  | 0, _ => []
  | width + 1, value => toBitsBe width (value / 2) ++ [decide (value % 2 = 1)]

/-- The big-endian value of some bits, as the window's fold computes it. -/
def bitsValue (bits : List Bool) : Nat :=
  bits.foldl (fun value bit => value <<< 1 ||| bit.toNat) 0

/-- The longest window from here that ends in a one. -/
def windowAt (bits : List Bool) : List Bool := (bits.take window).rdropWhile fun bit => !bit

/-- The loop over the bits from `index` on. -/
def scheduleFrom : Nat → List Bool → Nat → Schedule
  | 0, _, squarings => ⟨[], squarings⟩
  | _ + 1, [], squarings => ⟨[], squarings⟩
  | fuel + 1, false :: bits, squarings => scheduleFrom fuel bits (squarings + 1)
  | fuel + 1, true :: bits, squarings =>
    let ones := windowAt (true :: bits)
    let rest := scheduleFrom fuel ((true :: bits).drop ones.length) 0
    { rest with steps := (squarings + ones.length, bitsValue ones >>> 1) :: rest.steps }

def exponentBits : List Bool := (toBitsBe 256 (fqModulus / 2 / 2)).dropWhile fun bit => !bit

def schedule : Schedule := scheduleFrom exponentBits.length exponentBits 0

/-- `base`, `base ^ 3`, …, each from the one before. -/
def oddPowers (base square : Fq) : Nat → List Fq
  | 0 => []
  | count + 1 => base :: oddPowers (base * square) square count

def squareTimes (times : Nat) (value : Fq) : Fq := (fun x => x ^ 2)^[times] value

/-- The loop over the steps behind the first. -/
def runSteps (powers : List Fq) : List (Nat × Nat) → Fq → Option Fq
  | [], result => some result
  | (squarings, power) :: steps, result => do
    runSteps powers steps (squareTimes squarings result * (← powers[power]?))

/-- `a ^ ((p - 3) / 4)`. -/
def powPMinus3Over4 (a : Fq) : Option Fq := do
  let powers := oddPowers a (a ^ 2) (1 <<< (window - 1))
  let (_, first) ← schedule.steps.head?
  let result ← runSteps powers schedule.steps.tail (← powers[first]?)
  return squareTimes schedule.trailing result

def half : Fq := 2⁻¹

/-! ## Roots -/

def sqrtFq (a : Fq) : Option (Option Fq) := do
  let root := a * (← powPMinus3Over4 a)
  return if root ^ 2 = a then some root else none

def sqrtFq2 (a : Fq2) : Option (Option Fq2) := do
  if a.im = 0 then
    match ← sqrtFq a.re with
    | some root => return some ⟨root, 0⟩
    | none => return (← sqrtFq (-a.re)).map fun root => ⟨0, root⟩
  else
    let norm := a.re ^ 2 + a.im ^ 2
    match ← sqrtFq norm with
    | none => return none
    | some s =>
      let t := (a.re + s) * half
      let r ← powPMinus3Over4 t
      let tr := t * r
      let root : Fq2 := if tr ^ 2 = t then ⟨tr, a.im * r * half⟩ else ⟨a.im * r * half, -tr⟩
      return if root ^ 2 = a then some root else none

/-! ## The program computes the power -/

theorem shift_or_bit (value : Nat) (bit : Bool) :
    value <<< 1 ||| bit.toNat = 2 * value + bit.toNat := by
  have hbit : bit.toNat < 2 ^ 1 := Bool.toNat_lt bit
  rw [← Nat.shiftLeft_add_eq_or_of_lt hbit, Nat.shiftLeft_eq]
  omega

theorem foldl_bits (bits : List Bool) (value : Nat) :
    bits.foldl (fun value bit => value <<< 1 ||| bit.toNat) value =
      value * 2 ^ bits.length + bitsValue bits := by
  unfold bitsValue
  induction bits generalizing value with
  | nil => simp
  | cons bit bits ih =>
    rw [List.foldl_cons, List.foldl_cons, ih, ih (0 <<< 1 ||| bit.toNat), shift_or_bit,
      shift_or_bit, List.length_cons, pow_succ]
    ring

theorem bitsValue_append (front back : List Bool) :
    bitsValue (front ++ back) = bitsValue front * 2 ^ back.length + bitsValue back := by
  rw [bitsValue, List.foldl_append, ← bitsValue, foldl_bits]

theorem bitsValue_cons_false (bits : List Bool) : bitsValue (false :: bits) = bitsValue bits := rfl

theorem bitsValue_lt (bits : List Bool) : bitsValue bits < 2 ^ bits.length := by
  induction bits using List.reverseRecOn with
  | nil => simp [bitsValue]
  | append_singleton bits bit ih =>
    have hbit : bitsValue [bit] < 2 := by cases bit <;> decide
    rw [bitsValue_append, List.length_append, List.length_singleton, pow_succ]
    omega

/-- A window is a short odd prefix of the bits. -/
structure OddWindow (bits ones : List Bool) : Prop where
  split : ones ++ bits.drop ones.length = bits
  short : ones.length ≤ window
  nonempty : 0 < ones.length
  odd : 2 * (bitsValue ones >>> 1) + 1 = bitsValue ones

theorem windowAt_odd (bits : List Bool) : OddWindow (true :: bits) (windowAt (true :: bits)) := by
  obtain ⟨back, hback⟩ : windowAt (true :: bits) <+: (true :: bits).take window :=
    List.rdropWhile_prefix _ _
  have hne : windowAt (true :: bits) ≠ [] := by
    intro hnil
    exact absurd (List.rdropWhile_eq_nil_iff.mp hnil true (by simp [window])) (by simp)
  have hsplit : windowAt (true :: bits) ++ (back ++ (true :: bits).drop window) = true :: bits := by
    rw [← List.append_assoc, hback, List.take_append_drop]
  refine ⟨?_, ?_, List.length_pos_of_ne_nil hne, ?_⟩
  · have hdrop := congrArg (List.drop (windowAt (true :: bits)).length) hsplit
    rw [List.drop_left] at hdrop
    rw [← hdrop, hsplit]
  · have hlength := congrArg List.length hback
    rw [List.length_append, List.length_take] at hlength
    omega
  · have hlast : ¬ (!(windowAt (true :: bits)).getLast hne) = true :=
      List.rdropWhile_last_not (fun bit => !bit) ((true :: bits).take window) hne
    rw [Bool.not_eq_true', Bool.not_eq_false] at hlast
    have hconcat := List.dropLast_append_getLast hne
    rw [hlast] at hconcat
    rw [← hconcat, bitsValue_append, List.length_singleton, pow_one]
    have hone : bitsValue [true] = 1 := rfl
    omega

theorem oddPowers_get (a : Fq) (count k i : Nat) (h : i < count) :
    (oddPowers (a ^ (2 * k + 1)) (a ^ 2) count)[i]? = some (a ^ (2 * (k + i) + 1)) := by
  induction count generalizing k i with
  | zero => omega
  | succ count ih =>
    cases i with
    | zero => rfl
    | succ i =>
      have hnext : a ^ (2 * k + 1) * a ^ 2 = a ^ (2 * (k + 1) + 1) := by
        rw [← pow_add]
        ring
      rw [oddPowers, List.getElem?_cons_succ, hnext, ih (k + 1) i (by omega)]
      ring_nf

theorem squareTimes_eq (times : Nat) (value : Fq) : squareTimes times value = value ^ 2 ^ times := by
  induction times generalizing value with
  | zero => rw [squareTimes, Function.iterate_zero, id, pow_zero, pow_one]
  | succ times ih =>
    rw [squareTimes, Function.iterate_succ_apply, ← squareTimes, ih, ← pow_mul, ← pow_succ']

/-- From any value on, the program squares it once for each bit and multiplies the bits in. -/
theorem runSteps_schedule {powers : List Fq} {a : Fq}
    (hpowers : ∀ i, i < 8 → powers[i]? = some (a ^ (2 * i + 1))) {fuel : Nat} {bits : List Bool}
    (hfuel : bits.length ≤ fuel) (squarings : Nat) (value : Fq) :
    ∃ result, runSteps powers (scheduleFrom fuel bits squarings).steps value = some result ∧
      squareTimes (scheduleFrom fuel bits squarings).trailing result =
        value ^ 2 ^ (squarings + bits.length) * a ^ bitsValue bits := by
  induction fuel generalizing bits squarings value with
  | zero =>
    obtain rfl := List.eq_nil_of_length_eq_zero (Nat.le_zero.mp hfuel)
    exact ⟨value, rfl, by rw [scheduleFrom, squareTimes_eq]; simp [bitsValue]⟩
  | succ fuel ih =>
    cases bits with
    | nil => exact ⟨value, rfl, by rw [scheduleFrom, squareTimes_eq]; simp [bitsValue]⟩
    | cons bit bits =>
      cases bit with
      | false =>
        rw [List.length_cons] at hfuel ⊢
        obtain ⟨result, hrun, hresult⟩ := ih (show bits.length ≤ fuel by omega) (squarings + 1) value
        refine ⟨result, hrun, ?_⟩
        rw [scheduleFrom, hresult, bitsValue_cons_false, Nat.add_right_comm, Nat.add_assoc]
      | true =>
        have hwindow := windowAt_odd bits
        rw [scheduleFrom]
        generalize windowAt (true :: bits) = ones at hwindow
        obtain ⟨hsplit, hshort, hpos, hodd⟩ := hwindow
        generalize hrest : (true :: bits).drop ones.length = rest at hsplit
        rw [← hsplit, List.length_append] at hfuel
        have hsmall : bitsValue ones >>> 1 < 8 := by
          have hlt := bitsValue_lt ones
          have hpow : 2 ^ ones.length ≤ 2 ^ window := Nat.pow_le_pow_right (by decide) hshort
          rw [window] at hpow
          omega
        obtain ⟨result, hrun, hresult⟩ := ih (show rest.length ≤ fuel by omega) 0
          (squareTimes (squarings + ones.length) value * a ^ (2 * (bitsValue ones >>> 1) + 1))
        refine ⟨result, ?_, ?_⟩
        · dsimp only
          rw [runSteps, hpowers _ hsmall]
          exact hrun
        · dsimp only
          rw [hresult, hodd, squareTimes_eq, ← hsplit, bitsValue_append, List.length_append]
          ring

theorem exponentBits_value : bitsValue exponentBits = fqModulus / 4 := by decide +kernel

theorem schedule_head : ∃ squarings power steps, schedule.steps = (squarings, power) :: steps := by
  have hhead : exponentBits = true :: exponentBits.tail := by decide +kernel
  have hlength : exponentBits.length = exponentBits.tail.length + 1 := congrArg List.length hhead
  rw [schedule, hlength, hhead, List.tail_cons, scheduleFrom]
  exact ⟨_, _, _, rfl⟩

theorem powPMinus3Over4_eq (a : Fq) : powPMinus3Over4 a = some (a ^ (fqModulus / 4)) := by
  have hpowers : ∀ i, i < 8 → (oddPowers a (a ^ 2) 8)[i]? = some (a ^ (2 * i + 1)) := by
    intro i hi
    have hget := oddPowers_get a 8 0 i hi
    rwa [Nat.mul_zero, Nat.zero_add, pow_one, Nat.zero_add] at hget
  obtain ⟨result, hrun, hresult⟩ :=
    runSteps_schedule hpowers (Nat.le_refl exponentBits.length) 0 1
  rw [← schedule, one_pow, one_mul, exponentBits_value] at hresult
  rw [← schedule] at hrun
  obtain ⟨squarings, power, steps, hsteps⟩ := schedule_head
  -- the leading window's squarings square one
  have hcut : ((oddPowers a (a ^ 2) 8)[power]?.bind fun first =>
      runSteps (oddPowers a (a ^ 2) 8) steps first) = some result := by
    rw [hsteps, runSteps, squareTimes_eq, one_pow] at hrun
    simpa only [one_mul, Option.bind_eq_bind] using hrun
  obtain ⟨first, hget, hrest⟩ := Option.bind_eq_some_iff.mp hcut
  have hcount : 1 <<< (window - 1) = 8 := rfl
  simp only [powPMinus3Over4, hcount, hsteps, List.head?_cons, List.tail_cons, hget, hrest,
    Option.bind_eq_bind, Option.bind_some, Option.pure_def, hresult]

/-! ## Roots of squares -/

theorem fqModulus_quarter : 2 * (fqModulus / 4) + 1 = fqModulus / 2 := by decide

theorem half_add_half : half + half = 1 := by
  have htwo := two_ne_zero
  unfold half
  field_simp
  norm_num

/-- What a quarter power squares to. -/
theorem quarter_sq (a : Fq) : a * (a ^ (fqModulus / 4)) ^ 2 = a ^ (fqModulus / 2) := by
  rw [← pow_mul, ← pow_succ', Nat.mul_comm, fqModulus_quarter]

theorem sqrtFq_run (a : Fq) : sqrtFq a = some
    (if (a * a ^ (fqModulus / 4)) ^ 2 = a then some (a * a ^ (fqModulus / 4)) else none) := by
  simp only [sqrtFq, powPMinus3Over4_eq, Option.bind_eq_bind, Option.bind_some, Option.pure_def]

/-- A call on `a` runs to an answer: a root when there is one. -/
structure FindsRoot {F : Type} [Field F] (a : F) (call : Option (Option F)) : Prop where
  runs : call.isSome
  root : ∀ r, call = some (some r) → r ^ 2 = a
  finds : IsSquare a → call ≠ some none

theorem sqrtFq_square {a : Fq} (hsquare : IsSquare a) : (a * a ^ (fqModulus / 4)) ^ 2 = a := by
  by_cases hzero : a = 0
  · rw [hzero, zero_mul, zero_pow (by decide)]
  · rcases pow_half hzero with ⟨_, hone⟩ | ⟨hnot, _⟩
    · rw [mul_pow, pow_two a, mul_assoc, quarter_sq, hone, mul_one]
    · exact absurd hsquare hnot

theorem sqrtFq_finds (a : Fq) : FindsRoot a (sqrtFq a) := by
  have hsquare := sqrtFq_square (a := a)
  rw [sqrtFq_run]
  generalize a * a ^ (fqModulus / 4) = root at hsquare
  refine ⟨rfl, ?_, ?_⟩
  · intro r h
    split at h
    · cases h
      assumption
    · cases h
  · intro h
    rw [if_pos (hsquare h)]
    exact fun h => by cases h

theorem neg_isSquare {a : Fq} (h : ¬ IsSquare a) : IsSquare (-a) := by
  have hzero : a ≠ 0 := fun h0 => h (h0 ▸ ⟨0, by rw [mul_zero]⟩)
  rcases pow_half (neg_ne_zero.mpr hzero) with ⟨hsquare, _⟩ | ⟨_, hneg⟩
  · exact hsquare
  rcases pow_half hzero with ⟨hsquare, _⟩ | ⟨_, hneg'⟩
  · exact absurd hsquare h
  have hodd : Odd (fqModulus / 2) := by decide
  rw [hodd.neg_pow, hneg', neg_neg] at hneg
  have htwo : (2 : Fq) = 0 := by linear_combination hneg
  exact absurd htwo two_ne_zero

theorem sq_re (x : Fq2) : (x ^ 2).re = x.re ^ 2 - x.im ^ 2 := by
  rw [pow_two, QuadraticAlgebra.re_mul]
  ring

theorem sq_im (x : Fq2) : (x ^ 2).im = (half + half) * (x.re * x.im + x.re * x.im) := by
  rw [pow_two, QuadraticAlgebra.im_mul, half_add_half]
  ring

theorem sq_eq_iff {x a : Fq2} : x ^ 2 = a ↔ x.re ^ 2 - x.im ^ 2 = a.re ∧
    (half + half) * (x.re * x.im + x.re * x.im) = a.im := by
  rw [QuadraticAlgebra.ext_iff, sq_re, sq_im]

/-- The norm of a square is a square. -/
theorem norm_isSquare {a : Fq2} (h : IsSquare a) : IsSquare (a.re ^ 2 + a.im ^ 2) := by
  obtain ⟨x, rfl⟩ := h
  refine ⟨x.re ^ 2 + x.im ^ 2, ?_⟩
  rw [← pow_two x, sq_re, sq_im, half_add_half]
  ring

section Extension
variable {a : Fq2} {s t r : Fq}

/-- With `s` a root of the norm, `t` and `t - a.re` multiply to a quarter of `a.im ^ 2`. -/
theorem candidates_mul (hs : s ^ 2 = a.re ^ 2 + a.im ^ 2) (ht : t = (a.re + s) * half) :
    t * (t - a.re) = (a.im * half) ^ 2 := by
  have hhalf := half_add_half
  have hdiff : t - a.re = (s - a.re) * half := by
    rw [ht]
    linear_combination a.re * hhalf
  rw [hdiff, ht]
  linear_combination half ^ 2 * hs

theorem candidate_ne_zero (him : a.im ≠ 0) (hmul : t * (t - a.re) = (a.im * half) ^ 2) : t ≠ 0 := by
  have hhalf : half ≠ 0 := inv_ne_zero two_ne_zero
  rintro rfl
  rw [zero_mul] at hmul
  exact pow_ne_zero 2 (mul_ne_zero him hhalf) hmul.symm

theorem root_of_square (hmul : t * (t - a.re) = (a.im * half) ^ 2) (hr : t * r ^ 2 = 1) :
    (⟨t * r, a.im * r * half⟩ : Fq2) ^ 2 = a := by
  have hhalf := half_add_half
  apply sq_eq_iff.mpr
  constructor
  · linear_combination a.re * hr + r ^ 2 * hmul
  · linear_combination a.im * (half + half) ^ 2 * hr + a.im * (half + half + 1) * hhalf

theorem root_of_nonsquare (hmul : t * (t - a.re) = (a.im * half) ^ 2) (hr : t * r ^ 2 = -1) :
    (⟨a.im * r * half, -(t * r)⟩ : Fq2) ^ 2 = a := by
  have hhalf := half_add_half
  apply sq_eq_iff.mpr
  constructor
  · linear_combination (-a.re) * hr - r ^ 2 * hmul
  · linear_combination (-a.im) * (half + half) ^ 2 * hr + a.im * (half + half + 1) * hhalf

end Extension

/-- An element of the base field always has a root in the extension. -/
theorem sqrtFq2_finds_base {a : Fq2} (him : a.im = 0) : FindsRoot a (sqrtFq2 a) := by
  have hzero : (2 : ℕ) ≠ 0 := by decide
  obtain ⟨hruns, hroot, hfinds⟩ := sqrtFq_finds a.re
  obtain ⟨hruns', hroot', hfinds'⟩ := sqrtFq_finds (-a.re)
  obtain ⟨answer, hcall⟩ := Option.isSome_iff_exists.mp hruns
  obtain ⟨answer', hcall'⟩ := Option.isSome_iff_exists.mp hruns'
  rw [sqrtFq2, if_pos him, hcall, hcall']
  cases answer with
  | some root =>
    refine ⟨rfl, fun r h => ?_, fun _ h => by cases h⟩
    obtain rfl := Option.some.inj (Option.some.inj h)
    refine sq_eq_iff.mpr ⟨?_, ?_⟩
    · dsimp only
      rw [hroot root hcall, zero_pow hzero, sub_zero]
    · simp [him]
  | none =>
    have hneg : IsSquare (-a.re) := neg_isSquare fun h => hfinds h hcall
    cases answer' with
    | none => exact absurd hcall' (hfinds' hneg)
    | some root =>
      refine ⟨rfl, fun r h => ?_, fun _ h => by cases h⟩
      obtain rfl := Option.some.inj (Option.some.inj h)
      refine sq_eq_iff.mpr ⟨?_, ?_⟩
      · dsimp only
        rw [hroot' root hcall', zero_pow hzero, zero_sub, neg_neg]
      · simp [him]

theorem sqrtFq2_finds (a : Fq2) : FindsRoot a (sqrtFq2 a) := by
  by_cases him : a.im = 0
  · exact sqrtFq2_finds_base him
  obtain ⟨hruns, hroot, hfinds⟩ := sqrtFq_finds (a.re ^ 2 + a.im ^ 2)
  obtain ⟨answer, hcall⟩ := Option.isSome_iff_exists.mp hruns
  rw [sqrtFq2, if_neg him]
  simp only [hcall, Option.bind_eq_bind, Option.bind_some]
  cases answer with
  | none =>
    refine ⟨rfl, fun r h => (by cases h), fun h => ?_⟩
    exact absurd hcall (hfinds (norm_isSquare h))
  | some s =>
    have hs := hroot s hcall
    simp only [powPMinus3Over4_eq, Option.bind_some, Option.pure_def]
    generalize ht : (a.re + s) * half = t
    have hmul := candidates_mul hs ht.symm
    have hne := candidate_ne_zero him hmul
    have hquarter := quarter_sq t
    have hpow := pow_half hne
    generalize t ^ (fqModulus / 4) = r at hquarter
    rcases hpow with ⟨_, hone⟩ | ⟨_, hneg⟩
    · rw [hone] at hquarter
      have htr : (t * r) ^ 2 = t := by linear_combination t * hquarter
      have hsquare := root_of_square hmul hquarter
      rw [if_pos htr, if_pos hsquare]
      refine ⟨rfl, fun x h => ?_, fun _ h => by cases h⟩
      rw [← Option.some.inj (Option.some.inj h), hsquare]
    · rw [hneg] at hquarter
      have htr : ¬ (t * r) ^ 2 = t := by
        intro h
        have htwo : (2 : Fq) * t = 0 := by linear_combination t * hquarter - h
        exact (mul_ne_zero two_ne_zero hne) htwo
      have hsquare := root_of_nonsquare hmul hquarter
      rw [if_neg htr, if_pos hsquare]
      refine ⟨rfl, fun x h => ?_, fun _ h => by cases h⟩
      rw [← Option.some.inj (Option.some.inj h), hsquare]

/-! ## The roots are exact -/

theorem FindsRoot.answer {F : Type} [Field F] {a : F} {call : Option (Option F)}
    (h : FindsRoot a call) : ∃ answer, call = some answer ∧ (answer.isSome ↔ IsSquare a) ∧
      ∀ s, answer = some s → s * s = a := by
  obtain ⟨answer, hcall⟩ := Option.isSome_iff_exists.mp h.runs
  have hroot : ∀ s, answer = some s → s * s = a := by
    rintro s rfl
    rw [← pow_two, h.root s hcall]
  refine ⟨answer, hcall, ⟨?_, ?_⟩, hroot⟩
  · intro hsome
    obtain ⟨s, hs⟩ := Option.isSome_iff_exists.mp hsome
    exact ⟨s, (hroot s hs).symm⟩
  · intro hsquare
    apply Option.isSome_iff_ne_none.mpr
    rintro rfl
    exact h.finds hsquare hcall

/-- The window program is the power by `(p - 3) / 4`; a root is returned of every square and of
nothing else, in the base field and in the extension, and no call leaves the table. -/
theorem square_roots_exact :
    fqModulus % 4 = 3 ∧
    (∀ a : Fq, powPMinus3Over4 a = some (a ^ ((fqModulus - 3) / 4))) ∧
    (∀ a : Fq, ∃ answer, sqrtFq a = some answer ∧ (answer.isSome ↔ IsSquare a) ∧
      ∀ s, answer = some s → s * s = a) ∧
    (∀ a : Fq2, ∃ answer, sqrtFq2 a = some answer ∧ (answer.isSome ↔ IsSquare a) ∧
      ∀ s, answer = some s → s * s = a) := by
  have hquarter : (fqModulus - 3) / 4 = fqModulus / 4 := by decide
  refine ⟨fqModulus_mod_four, fun a => ?_, fun a => (sqrtFq_finds a).answer,
    fun a => (sqrtFq2_finds a).answer⟩
  rw [hquarter, powPMinus3Over4_eq]

end Curvy.Prover
