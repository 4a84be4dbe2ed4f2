import Curvy.Prover.SimdFftApply
import Curvy.Prover.SimdFftSliced
import Curvy.Prover.U29x9Sound

/-!
# Limbs refine field elements

What the step does to limb-sliced vectors is what it does to lanes of field elements, and every
table is read in range. Data stand for their value times a fixed power of two, twiddles and factors
for their value.
-/

namespace Curvy.Prover.SlicedFft

set_option autoImplicit false

open SimdFft (isPowerOfTwo lane rev trailingZeros twiddleChunk zipMut)
open U29x9 (Kernels Limbs V V128 WeaklyReduced constFromArk fr packed rawFromArk rawToArk toField)

/-! ## What a vector stands for -/

/-- The limbs are weakly reduced and stand for `x`, up to the factor `u`. -/
def Word (u : Fr) (c : Limbs) (x : Fr) : Prop :=
  ∃ r : WeaklyReduced fr, c = r.limbs ∧ toField fr r.limbs * u = x

/-- Twiddles and factors are their own value. -/
abbrev Constant (c : Limbs) (x : Fr) : Prop := Word 1 c x

/-- The lanes are weakly reduced and stand for those of `x`, up to the factor `u`. -/
def Stands (u : Fr) (v : V) (x : SimdFft.V Fr) : Prop :=
  ∃ e : Fin 4 → WeaklyReduced fr, v = packed e ∧ ∀ l : Fin 4, toField fr (e l).limbs * u = lane x l

/-- The factor between the form of arkworks and that of the constants. -/
def dataFactor : Fr := ((2 ^ 261 : ℕ) : Fr) * ((2 ^ 256 : ℕ) : Fr)⁻¹

theorem dataFactor_eq : dataFactor = 2 ^ 261 * (2 ^ 256)⁻¹ := by
  rw [dataFactor, U29x9.radix_cast, U29x9.radix_cast]

theorem lane_add (x y : SimdFft.V Fr) (l : ℕ) : lane (x + y) l = lane x l + lane y l := by
  rw [SimdFft.lane_eq, map_add, ← SimdFft.lane_eq, ← SimdFft.lane_eq]

theorem lane_sub (x y : SimdFft.V Fr) (l : ℕ) : lane (x - y) l = lane x l - lane y l := by
  rw [SimdFft.lane_eq, map_sub, ← SimdFft.lane_eq, ← SimdFft.lane_eq]

theorem lane_mul (x y : SimdFft.V Fr) (l : ℕ) : lane (x * y) l = lane x l * lane y l := by
  rw [SimdFft.lane_eq, map_mul, ← SimdFft.lane_eq, ← SimdFft.lane_eq]

section Lanes
variable {u : Fr} {a b c : V} {x y : SimdFft.V Fr}

theorem Stands.add (ha : Stands u a x) (hb : Stands u b y) : Stands u (add4 a b) (x + y) := by
  obtain ⟨e, rfl, he⟩ := ha
  obtain ⟨f, rfl, hf⟩ := hb
  choose r hr hfield using fun l => U29x9.add_spec (e l) (f l)
  refine ⟨r, U29x9.eq_packed fun l => U29x9.add4_lane (hr l), fun l => ?_⟩
  rw [hfield, add_mul, he, hf, lane_add]

theorem Stands.sub (ha : Stands u a x) (hb : Stands u b y) : Stands u (sub4 a b) (x - y) := by
  obtain ⟨e, rfl, he⟩ := ha
  obtain ⟨f, rfl, hf⟩ := hb
  choose r hr hfield using fun l => U29x9.sub_spec (e l) (f l)
  refine ⟨r, U29x9.eq_packed fun l => U29x9.sub4_lane (hr l), fun l => ?_⟩
  rw [hfield, sub_mul, he, hf, lane_sub]

/-- A product of data and constants is data. -/
theorem Stands.mul {k : Kernels} (hk : k.Correct fr) (ha : Stands u a x) (hc : Stands 1 c y) :
    Stands u (k.mul4 a c) (x * y) := by
  obtain ⟨e, rfl, he⟩ := ha
  obtain ⟨f, rfl, hf⟩ := hc
  choose r hr hfield using fun l => hk.montMul (e l) (f l)
  refine ⟨r, U29x9.eq_packed fun l => (hk.mul4 e f l).trans (hr l), fun l => ?_⟩
  have hconst := hf l
  rw [mul_one] at hconst
  rw [hfield, lane_mul, ← he, ← hconst, mul_right_comm]

theorem lane_shuffle (i j p q : Fin 8) (a b : V) : U29x9.lane (shuffle i j p q a b) =
    ![pick (U29x9.lane a) (U29x9.lane b) i, pick (U29x9.lane a) (U29x9.lane b) j,
      pick (U29x9.lane a) (U29x9.lane b) p, pick (U29x9.lane a) (U29x9.lane b) q] := by
  have hpick : ∀ (word : Fin 9) (t : Fin 8),
      pick (a word) (b word) t = pick (U29x9.lane a) (U29x9.lane b) t word := by
    intro word t
    unfold pick
    split <;> rfl
  funext l word
  fin_cases l
  · exact hpick word i
  · exact hpick word j
  · exact hpick word p
  · exact hpick word q

theorem Stands.shuffle (ha : Stands u a x) (hb : Stands u b y) (i j p q : Fin 8) :
    Stands u (shuffle i j p q a b) (SimdFft.shuffle i j p q x y) := by
  obtain ⟨e, rfl, he⟩ := ha
  obtain ⟨f, rfl, hf⟩ := hb
  have hlimbs : ∀ t : Fin 8, pick (U29x9.lane (packed e)) (U29x9.lane (packed f)) t = (pick e f t).limbs := by
    intro t
    unfold pick
    split <;> rfl
  have hpick : ∀ t : Fin 8, toField fr (pick e f t).limbs * u = SimdFft.pick x y t := by
    intro t
    unfold pick SimdFft.pick
    split
    · exact he _
    · exact hf _
  refine ⟨![pick e f i, pick e f j, pick e f p, pick e f q], U29x9.eq_packed fun l => ?_, fun l => ?_⟩
  · rw [lane_shuffle]
    fin_cases l
    · exact hlimbs i
    · exact hlimbs j
    · exact hlimbs p
    · exact hlimbs q
  · fin_cases l
    · exact hpick i
    · exact hpick j
    · exact hpick p
    · exact hpick q

theorem stands_pack {c : Fin 4 → Limbs} {x : Fin 4 → Fr} (h : ∀ l, Word u (c l) (x l)) :
    Stands u (U29x9.pack c) (SimdFft.lanes4 (x 0) (x 1) (x 2) (x 3)) := by
  choose r hr hfield using h
  refine ⟨r, U29x9.eq_packed hr, fun l => ?_⟩
  rw [hfield]
  fin_cases l <;> rfl

theorem Word.lanes4 {c : Fin 4 → Limbs} {p q r s : Fr} (h0 : Word u (c 0) p) (h1 : Word u (c 1) q)
    (h2 : Word u (c 2) r) (h3 : Word u (c 3) s) :
    Stands u (lanes4 c) (SimdFft.lanes4 p q r s) := by
  refine stands_pack (x := ![p, q, r, s]) fun l => ?_
  fin_cases l
  · exact h0
  · exact h1
  · exact h2
  · exact h3

theorem Constant.splat {c : Limbs} {x : Fr} (h : Constant c x) : Stands 1 (splat c) (SimdFft.splat x) :=
  stands_pack (c := fun _ => c) (x := fun _ => x) fun _ => h

theorem Constant.lanes2 {c d : Limbs} {x y : Fr} (hc : Constant c x) (hd : Constant d y) :
    Stands 1 (lanes2 c d) (SimdFft.lanes2 x y) :=
  Word.lanes4 (c := ![c, d, c, d]) hc hd hc hd

/-- Limbs of arkworks are data. -/
theorem rawFromArk_word (x : Fr) : Word dataFactor (rawFromArk x) x := by
  refine ⟨WeaklyReduced.ofArk x, rfl, ?_⟩
  have hark : toField fr (WeaklyReduced.ofArk x).limbs = x * 2 ^ 256 * (2 ^ 261)⁻¹ :=
    U29x9.toField_rawFromArk x
  rw [hark, dataFactor_eq, ← mul_assoc, inv_mul_cancel_right₀ (U29x9.radix_ne_zero fr 261),
    mul_inv_cancel_right₀ (U29x9.radix_ne_zero fr 256)]

/-- And are read back as what they stand for. -/
theorem elements_eq (ha : Stands dataFactor a x) : elements a = some x := by
  obtain ⟨e, rfl, he⟩ := ha
  have hread : ∀ l : Fin 4, rawToArk (U29x9.lane (packed e) l) = some (lane x l) := by
    intro l
    have hlane : U29x9.lane (packed e) l = (e l).limbs := rfl
    rw [hlane, U29x9.rawToArk_eq, U29x9.value_eq_toField, ← he l, dataFactor_eq, mul_assoc]
  have hall : (List.ofFn (U29x9.lane (packed e))).mapM rawToArk =
      some [lane x 0, lane x 1, lane x 2, lane x 3] := by
    simp only [List.ofFn_succ, List.ofFn_zero, List.mapM_cons, List.mapM_nil, hread]
    rfl
  rw [elements, hall]
  rfl

/-! ## Reading a table -/

/-- The limbs of a table stand for the entries of a table of field elements. -/
abbrev Table (tw : List Limbs) (tw' : List Fr) : Prop := List.Forall₂ Constant tw tw'

theorem forall₂_read {α β : Type} {R : α → β → Prop} {as : List α} {bs : List β} (h : List.Forall₂ R as bs)
    {i : ℕ} (hi : i < as.length) (d : β) : ∃ a, as[i]? = some a ∧ R a (bs.getD i d) := by
  induction h generalizing i with
  | nil => cases hi
  | cons hab _ ih =>
    cases i with
    | zero => exact ⟨_, rfl, hab⟩
    | succ i => exact ih (Nat.lt_of_succ_lt_succ hi)

section Reads
variable {k : Kernels} (hk : k.Correct fr) {tw : List Limbs} {tw' : List Fr} (htw : Table tw tw')
  {i q : ℕ}

include hk htw

theorem difLanes_stands (ha : Stands u a x) (hi : i + q < tw.length) (hdouble : 2 * i < tw.length) :
    ∃ v, difLanes k a tw i q = some v ∧ Stands u v (SimdFft.difLanes x tw' i q) := by
  obtain ⟨low, hlow, hlow'⟩ := forall₂_read htw (show i < tw.length by omega) 0
  obtain ⟨high, hhigh, hhigh'⟩ := forall₂_read htw hi 0
  obtain ⟨square, hsquare, hsquare'⟩ := forall₂_read htw hdouble 0
  have hlo := ha.shuffle ha 0 1 0 1
  have hhi := ha.shuffle ha 2 3 2 3
  have hmid := (hlo.add hhi).shuffle ((hlo.sub hhi).mul hk (hlow'.lanes2 hhigh')) 0 1 6 7
  have hlo' := hmid.shuffle hmid 0 0 2 2
  have hhi' := hmid.shuffle hmid 1 1 3 3
  refine ⟨_, ?_, (hlo'.add hhi').shuffle ((hlo'.sub hhi').mul hk hsquare'.splat) 0 5 2 7⟩
  simp only [difLanes, hlow, hhigh, hsquare, Option.bind_eq_bind, Option.bind_some]

theorem ditLanes_stands (ha : Stands u a x) (hi : i + q < tw.length) (hdouble : 2 * i < tw.length) :
    ∃ v, ditLanes k a tw i q = some v ∧ Stands u v (SimdFft.ditLanes x tw' i q) := by
  obtain ⟨low, hlow, hlow'⟩ := forall₂_read htw (show i < tw.length by omega) 0
  obtain ⟨high, hhigh, hhigh'⟩ := forall₂_read htw hi 0
  obtain ⟨square, hsquare, hsquare'⟩ := forall₂_read htw hdouble 0
  have hlo := ha.shuffle ha 0 0 2 2
  have ht := (ha.shuffle ha 1 1 3 3).mul hk hsquare'.splat
  have hmid := (hlo.add ht).shuffle (hlo.sub ht) 0 5 2 7
  have hlo' := hmid.shuffle hmid 0 1 0 1
  have ht' := (hmid.shuffle hmid 2 3 2 3).mul hk (hlow'.lanes2 hhigh')
  refine ⟨_, ?_, (hlo'.add ht').shuffle (hlo'.sub ht') 0 1 6 7⟩
  simp only [ditLanes, hlow, hhigh, hsquare, Option.bind_eq_bind, Option.bind_some]

/-- The two results of a butterfly. -/
def Pair (u : Fr) (r : V × V) (s : SimdFft.V Fr × SimdFft.V Fr) : Prop :=
  Stands u r.1 s.1 ∧ Stands u r.2 s.2

theorem difAt_stands {stride j : ℕ} (hj : j * stride < tw.length) (ha : Stands u a x)
    (hb : Stands u b y) : ∃ r, difAt k tw stride j a b = some r ∧
      Pair u r (SimdFft.dif (SimdFft.twiddle tw' stride j) x y) := by
  by_cases hne : j ≠ 0
  · obtain ⟨w, hw, hw'⟩ := forall₂_read htw hj 0
    refine ⟨dif k (some w) a b, ?_, ?_⟩
    · rw [difAt, twiddle, if_pos hne, hw]
      rfl
    · rw [SimdFft.twiddle, if_pos hne]
      exact ⟨ha.add hb, (ha.sub hb).mul hk hw'.splat⟩
  · refine ⟨dif k none a b, ?_, ?_⟩
    · rw [difAt, twiddle, if_neg hne]
      rfl
    · rw [SimdFft.twiddle, if_neg hne]
      exact ⟨ha.add hb, ha.sub hb⟩

theorem ditAt_stands {stride j : ℕ} (hj : j * stride < tw.length) (ha : Stands u a x)
    (hb : Stands u b y) : ∃ r, ditAt k tw stride j a b = some r ∧
      Pair u r (SimdFft.dit (SimdFft.twiddle tw' stride j) x y) := by
  by_cases hne : j ≠ 0
  · obtain ⟨w, hw, hw'⟩ := forall₂_read htw hj 0
    have ht := hb.mul hk hw'.splat
    refine ⟨dit k (some w) a b, ?_, ?_⟩
    · rw [ditAt, twiddle, if_pos hne, hw]
      rfl
    · rw [SimdFft.twiddle, if_pos hne]
      exact ⟨ha.add ht, ha.sub ht⟩
  · refine ⟨dit k none a b, ?_, ?_⟩
    · rw [ditAt, twiddle, if_neg hne]
      rfl
    · rw [SimdFft.twiddle, if_neg hne]
      exact ⟨ha.add hb, ha.sub hb⟩

end Reads

end Lanes

/-! ## Passes -/

section Passes
variable {α β γ δ : Type} {R : α → β → Prop}

/-- Below index `limit` the one body panics nowhere and does to related values what the other does. -/
def Follows (R : α → β → Prop) (limit : ℕ) (f : ℕ → α → α → Option (α × α)) (g : ℕ → β → β → β × β) :
    Prop :=
  ∀ j a b x y, j < limit → R a x → R b y → ∃ r, f j a b = some r ∧ R r.1 (g j x y).1 ∧ R r.2 (g j x y).2

variable {limit : ℕ} {f : ℕ → α → α → Option (α × α)} {g : ℕ → β → β → β × β} (hfg : Follows R limit f g)

include hfg

theorem butterflies_follow {as : List α} {xs : List β} (has : List.Forall₂ R as xs) :
    ∀ {j : ℕ} {bs : List α} {ys : List β}, j + as.length ≤ limit → List.Forall₂ R bs ys →
      ∃ r, butterflies f j as bs = some r ∧
        List.Forall₂ R r.1 (SimdFft.butterflies g j xs ys).1 ∧
        List.Forall₂ R r.2 (SimdFft.butterflies g j xs ys).2 := by
  induction has with
  | nil => exact fun _ hbs => ⟨_, rfl, .nil, hbs⟩
  | cons hax hrest ih =>
    intro j bs ys hj hbs
    rw [List.length_cons] at hj
    cases hbs with
    | nil => exact ⟨_, rfl, .cons hax hrest, .nil⟩
    | cons hby hbs =>
      obtain ⟨⟨a', b'⟩, hf, ha', hb'⟩ := hfg j _ _ _ _ (by omega) hax hby
      obtain ⟨⟨as', bs'⟩, hstep, has', hbs'⟩ := ih (show j + 1 + _ ≤ limit by omega) hbs
      refine ⟨(a' :: as', b' :: bs'), ?_, .cons ha' has', .cons hb' hbs'⟩
      simp only [butterflies, hf, hstep, Option.bind_eq_bind, Option.bind_some]

theorem inChunks_follow (size : ℕ) {j : ℕ} {as bs : List α} {xs ys : List β}
    (hj : j + as.length ≤ limit) (has : List.Forall₂ R as xs) (hbs : List.Forall₂ R bs ys) :
    ∃ r, inChunks size f j as bs = some r ∧
      List.Forall₂ R r.1 (SimdFft.inChunks size g j xs ys).1 ∧
      List.Forall₂ R r.2 (SimdFft.inChunks size g j xs ys).2 := by
  induction hn : as.length using Nat.strong_induction_on generalizing j as bs xs ys with
  | _ n ih =>
    have hlength := has.length_eq
    rw [inChunks, SimdFft.inChunks, ← hlength]
    by_cases hdone : size = 0 ∨ as.length ≤ size
    · rw [dif_pos hdone, dif_pos hdone]
      exact butterflies_follow hfg has hj hbs
    · rw [dif_neg hdone, dif_neg hdone]
      have hdrop : (as.drop size).length = as.length - size := List.length_drop
      have htake : (as.take size).length ≤ size := List.length_take_le _ _
      obtain ⟨⟨a, b⟩, hfirst, ha, hb⟩ := butterflies_follow hfg (List.forall₂_take size has)
        (show j + _ ≤ limit by omega) (List.forall₂_take size hbs)
      obtain ⟨⟨a', b'⟩, hrest, ha', hb'⟩ := ih _ (show (as.drop size).length < n by omega)
        (show j + size + _ ≤ limit by omega) (List.forall₂_drop size has) (List.forall₂_drop size hbs) rfl
      refine ⟨(a ++ a', b ++ b'), ?_, List.rel_append ha ha', List.rel_append hb hb'⟩
      simp only [hfirst, hrest, Option.bind_eq_bind, Option.bind_some]

theorem pass_follow (parallel : Option ℕ) {as bs : List α} {xs ys : List β} (hlimit : as.length ≤ limit)
    (has : List.Forall₂ R as xs) (hbs : List.Forall₂ R bs ys) :
    ∃ r, pass parallel f as bs = some r ∧
      List.Forall₂ R r.1 (SimdFft.pass parallel g xs ys).1 ∧
      List.Forall₂ R r.2 (SimdFft.pass parallel g xs ys).2 := by
  cases parallel with
  | none => exact butterflies_follow hfg has (by omega) hbs
  | some chunk => exact inChunks_follow hfg chunk (by omega) has hbs

end Passes

theorem length_pass {α : Type} (parallel : Option ℕ) (f : ℕ → α → α → α × α) {as bs : List α}
    (h : as.length = bs.length) : (SimdFft.pass parallel f as bs).1.length = as.length ∧
      (SimdFft.pass parallel f as bs).2.length = bs.length := by
  rw [SimdFft.pass_eq parallel f h]
  exact SimdFft.length_butterflies f 0 as bs

theorem mapBlocks_follow {α β : Type} {R : α → β → Prop} {size : ℕ} {f : List α → Option (List α)}
    {g : List β → List β} (hfg : ∀ block block', block.length = size → List.Forall₂ R block block' →
      ∃ r, f block = some r ∧ List.Forall₂ R r (g block')) {xs : List α} {ys : List β}
    (h : List.Forall₂ R xs ys) :
    ∃ r, mapBlocks size f xs = some r ∧ List.Forall₂ R r (SimdFft.mapBlocks size g ys) := by
  induction hn : xs.length using Nat.strong_induction_on generalizing xs ys with
  | _ n ih =>
    rw [mapBlocks, SimdFft.mapBlocks, ← h.length_eq]
    by_cases hdone : size = 0 ∨ xs.length < size
    · rw [dif_pos hdone, dif_pos hdone]
      exact ⟨xs, rfl, h⟩
    · rw [dif_neg hdone, dif_neg hdone]
      have hdrop : (xs.drop size).length < n := by
        rw [List.length_drop]
        omega
      have htake : (xs.take size).length = size := by
        rw [List.length_take]
        omega
      obtain ⟨block, hblock, hblock'⟩ := hfg _ _ htake (List.forall₂_take size h)
      obtain ⟨rest, hrest, hrest'⟩ := ih _ hdrop (List.forall₂_drop size h) rfl
      refine ⟨block ++ rest, ?_, List.rel_append hblock' hrest'⟩
      simp only [hblock, hrest, Option.bind_eq_bind, Option.bind_some]

theorem zipMut_follow {α β γ δ : Type} {R : α → β → Prop} {S : γ → δ → Prop} {f : α → γ → α}
    {g : β → δ → β} (hfg : ∀ a x c z, R a x → S c z → R (f a c) (g x z)) {as : List α} {xs : List β}
    (has : List.Forall₂ R as xs) : ∀ {cs : List γ} {zs : List δ}, List.Forall₂ S cs zs →
      List.Forall₂ R (zipMut f as cs) (zipMut g xs zs) := by
  induction has with
  | nil => exact fun _ => .nil
  | cons hax has ih =>
    intro cs zs hcs
    cases hcs with
    | nil => exact .cons hax has
    | cons hcz hcs => exact .cons (hfg _ _ _ _ hax hcz) (ih hcs)

theorem mapChunks_eq {α β γ : Type} {R : α → β → Prop} {limit : ℕ} {f : ℕ → List α → Option (List γ)}
    {g : ℕ → List β → List γ} (hfg : ∀ i as xs, i + as.length ≤ limit → List.Forall₂ R as xs →
      f i as = some (g i xs)) (size i : ℕ) {as : List α} {xs : List β} (hi : i + as.length ≤ limit)
    (h : List.Forall₂ R as xs) : mapChunks size f i as = some (SimdFft.mapChunks size g i xs) := by
  induction hn : as.length using Nat.strong_induction_on generalizing i as xs with
  | _ n ih =>
    rw [mapChunks, SimdFft.mapChunks, ← h.length_eq]
    by_cases hdone : size = 0 ∨ as.length ≤ size
    · rw [dif_pos hdone, dif_pos hdone]
      exact hfg i as xs hi h
    · have hdrop : (as.drop size).length = as.length - size := List.length_drop
      have htake : (as.take size).length ≤ size := List.length_take_le _ _
      rw [dif_neg hdone, dif_neg hdone, hfg i _ _ (by omega) (List.forall₂_take size h), Option.bind_eq_bind,
        Option.bind_some, ih _ (by omega) (i + size) (by omega) (List.forall₂_drop size h) rfl]
      rfl

theorem mapM_follow {α β γ : Type} {R : β → γ → Prop} {f : α → Option β} {g : α → γ} (xs : List α)
    (h : ∀ x ∈ xs, ∃ r, f x = some r ∧ R r (g x)) :
    ∃ rs, xs.mapM f = some rs ∧ List.Forall₂ R rs (xs.map g) := by
  induction xs with
  | nil => exact ⟨[], rfl, .nil⟩
  | cons x xs ih =>
    obtain ⟨r, hr, hr'⟩ := h x List.mem_cons_self
    obtain ⟨rs, hrs, hrs'⟩ := ih fun y hy => h y (List.mem_cons_of_mem x hy)
    refine ⟨r :: rs, ?_, .cons hr' hrs'⟩
    rw [List.mapM_cons, hr, hrs]
    rfl

/-! ## The walk -/

/-- The tables of a step stand for those of the other and have the lengths they are read in. -/
structure Refines (step : Step) (step' : SimdFft.Step Fr) : Prop where
  n : step.n = step'.n
  leaf : step.leaf = step'.leaf
  inv : Table step.inv step'.inv
  fwd : Table step.fwd step'.fwd
  scaleLeaf : List.Forall₂ (Stands 1) step.scaleLeaf step'.scaleLeaf
  scaleBlock : Table step.scaleBlock step'.scaleBlock
  large : 8 ≤ step.n
  inv_length : step.inv.length = step.n / 2
  fwd_length : step.fwd.length = step.n / 2
  scaleBlock_length : step.scaleBlock.length = step.n / 4 / step.leaf

/-- The twiddles of a stage are read in range. -/
theorem stride_lt {n m j : ℕ} (hn : 2 ≤ n) (hj : j < m) : j * (n / (2 * m)) < n / 2 := by
  have hdiv : 2 * m * (n / (2 * m)) ≤ n := Nat.mul_div_le n (2 * m)
  rw [Nat.mul_assoc] at hdiv
  rcases Nat.eq_zero_or_pos (n / (2 * m)) with hzero | hpos
  · rw [hzero]
    omega
  · have hlt := Nat.mul_lt_mul_of_pos_right hj hpos
    omega

section Walk
variable {k : Kernels} (hk : k.Correct fr) {step : Step} {step' : SimdFft.Step Fr}
  (hstep : Refines step step') {u : Fr} {buf : List V} {buf' : List (SimdFft.V Fr)}

include hk hstep

theorem dif_follows (m : ℕ) : Follows (Stands u) m (difAt k step.inv (step.n / (2 * m)))
    fun j => SimdFft.dif (SimdFft.twiddle step'.inv (step'.n / (2 * m)) j) := by
  intro j a b x y hj ha hb
  have hlarge := hstep.large
  have hread : j * (step.n / (2 * m)) < step.inv.length := by
    rw [hstep.inv_length]
    exact stride_lt (by omega) hj
  rw [← hstep.n]
  exact difAt_stands hk hstep.inv hread ha hb

theorem dit_follows (m : ℕ) : Follows (Stands u) m (ditAt k step.fwd (step.n / (2 * m)))
    fun j => SimdFft.dit (SimdFft.twiddle step'.fwd (step'.n / (2 * m)) j) := by
  intro j a b x y hj ha hb
  have hlarge := hstep.large
  have hread : j * (step.n / (2 * m)) < step.fwd.length := by
    rw [hstep.fwd_length]
    exact stride_lt (by omega) hj
  rw [← hstep.n]
  exact ditAt_stands hk hstep.fwd hread ha hb

theorem difStage_stands (m : ℕ) (h : List.Forall₂ (Stands u) buf buf') :
    ∃ r, difStage k step m buf = some r ∧ List.Forall₂ (Stands u) r (SimdFft.difStage step' m buf') := by
  refine mapBlocks_follow (fun block block' hlength hblock => ?_) h
  have htake : 0 + (block.take m).length ≤ m := by
    rw [List.length_take]
    omega
  obtain ⟨⟨a, b⟩, hrun, ha, hb⟩ := butterflies_follow (dif_follows hk hstep m)
    (List.forall₂_take m hblock) htake (List.forall₂_drop m hblock)
  refine ⟨a ++ b, ?_, List.rel_append ha hb⟩
  simp only [hrun, Option.bind_eq_bind, Option.bind_some]

theorem ditStage_stands (m : ℕ) (h : List.Forall₂ (Stands u) buf buf') :
    ∃ r, ditStage k step m buf = some r ∧ List.Forall₂ (Stands u) r (SimdFft.ditStage step' m buf') := by
  refine mapBlocks_follow (fun block block' hlength hblock => ?_) h
  have htake : 0 + (block.take m).length ≤ m := by
    rw [List.length_take]
    omega
  obtain ⟨⟨a, b⟩, hrun, ha, hb⟩ := butterflies_follow (dit_follows hk hstep m)
    (List.forall₂_take m hblock) htake (List.forall₂_drop m hblock)
  refine ⟨a ++ b, ?_, List.rel_append ha hb⟩
  simp only [hrun, Option.bind_eq_bind, Option.bind_some]

theorem difStages_stand (m : ℕ) (h : List.Forall₂ (Stands u) buf buf') :
    ∃ r, difStages k step m buf = some r ∧ List.Forall₂ (Stands u) r (SimdFft.difStages step' m buf') := by
  induction m using Nat.strong_induction_on generalizing buf buf' with
  | _ m ih =>
    rw [difStages, SimdFft.difStages]
    by_cases hm : m = 0
    · rw [dif_pos hm, dif_pos hm]
      exact ⟨buf, rfl, h⟩
    · rw [dif_neg hm, dif_neg hm]
      obtain ⟨next, hnext, hnext'⟩ := difStage_stands hk hstep m h
      rw [hnext]
      exact ih (m / 2) (by omega) hnext'

theorem ditStages_stand (len m : ℕ) (h : List.Forall₂ (Stands u) buf buf') :
    ∃ r, ditStages k step len m buf = some r ∧
      List.Forall₂ (Stands u) r (SimdFft.ditStages step' len m buf') := by
  induction hgap : len - m using Nat.strong_induction_on generalizing m buf buf' with
  | _ gap ih =>
    rw [ditStages, SimdFft.ditStages]
    by_cases hm : m = 0 ∨ len ≤ m
    · rw [dif_pos hm, dif_pos hm]
      exact ⟨buf, rfl, h⟩
    · rw [dif_neg hm, dif_neg hm]
      obtain ⟨next, hnext, hnext'⟩ := ditStage_stands hk hstep m h
      rw [hnext]
      exact ih _ (by omega) (m * 2) hnext' rfl

theorem leafBlock_stands {k0 : ℕ} (hlength : buf.length = step.leaf) (hk0 : k0 + step.leaf ≤ step.n / 4)
    (h : List.Forall₂ (Stands u) buf buf') : ∃ r, leafBlock k step buf k0 = some r ∧
      r.length = buf.length ∧ List.Forall₂ (Stands u) r (SimdFft.leafBlock step' buf' k0) := by
  have hpos : 0 < step.leaf := Nat.lt_of_lt_of_le (by decide) step.two_le
  have hread : k0 / buf.length < step.scaleBlock.length := by
    rw [hlength, hstep.scaleBlock_length, Nat.lt_iff_add_one_le, ← Nat.add_div_right k0 hpos]
    exact Nat.div_le_div_right hk0
  obtain ⟨inner, hinner, hinner'⟩ := difStages_stand hk hstep (buf.length / 2) h
  obtain ⟨g, hg, hg'⟩ := forall₂_read hstep.scaleBlock hread 0
  have hscale : ∀ v x s y, Stands u v x → Stands 1 s y → Stands u (k.mul4 (k.mul4 v s) (splat g))
      (x * y * SimdFft.splat (step'.scaleBlock.getD (k0 / buf.length) 0)) :=
    fun _ _ _ _ hv hs => (hv.mul hk hs).mul hk hg'.splat
  obtain ⟨r, hr, hr'⟩ := ditStages_stand hk hstep buf.length 1
    (zipMut_follow hscale hinner' hstep.scaleLeaf)
  rw [h.length_eq] at hr'
  refine ⟨r, ?_, ?_, hr'⟩
  · simp only [leafBlock, hinner, hg, Option.bind_eq_bind, Option.bind_some]
    exact hr
  · rw [hr'.length_eq, h.length_eq]
    exact SimdFft.length_leafBlock step' buf' k0

/-- Every block of the recursion, as long as it lies inside the buffer. -/
theorem recurse_stands (parallel : Option ℕ) {l e : ℕ} (hleaf : step.leaf = 2 ^ l) (hle : l ≤ e) {k0 : ℕ}
    (hlength : buf.length = 2 ^ e) (hk0 : k0 + 2 ^ e ≤ step.n / 4) (h : List.Forall₂ (Stands u) buf buf') :
    ∃ r, recurse k parallel step (2 ^ e) buf k0 = some r ∧ r.length = 2 ^ e ∧
      List.Forall₂ (Stands u) r (SimdFft.recurse parallel step' (2 ^ e) buf' k0) := by
  induction e, hle using Nat.le_induction generalizing k0 buf buf' with
  | base =>
    rw [recurse, SimdFft.recurse, dif_pos hleaf.ge, dif_pos (hstep.leaf ▸ hleaf.ge), ← hlength]
    rw [← hleaf] at hlength hk0
    exact leafBlock_stands hk hstep hlength hk0 h
  | succ e hle ih =>
    have hdouble : 2 ^ (e + 1) = 2 ^ e + 2 ^ e := by rw [pow_succ', two_mul]
    have hhalf : 2 ^ (e + 1) / 2 = 2 ^ e := by omega
    have hrest : 2 ^ (e + 1) - 2 ^ e = 2 ^ e := by omega
    have hlarge : ¬ 2 ^ (e + 1) ≤ step.leaf := by
      rw [hleaf, Nat.not_le]
      exact Nat.pow_lt_pow_right (by omega) (by omega)
    have hlarge' : ¬ 2 ^ (e + 1) ≤ step'.leaf := hstep.leaf ▸ hlarge
    have hlow : (buf.take (2 ^ e)).length = 2 ^ e := by
      rw [List.length_take]
      omega
    have hhigh : (buf.drop (2 ^ e)).length = 2 ^ e := by
      rw [List.length_drop]
      omega
    have htake := List.forall₂_take (2 ^ e) h
    have hdrop := List.forall₂_drop (2 ^ e) h
    obtain ⟨⟨a, b⟩, hfirst, ha, hb⟩ := pass_follow (dif_follows hk hstep (2 ^ e)) parallel hlow.le htake hdrop
    have hsplit := length_pass parallel
      (fun j => SimdFft.dif (SimdFft.twiddle step'.inv (step'.n / (2 * 2 ^ e)) j))
      (htake.length_eq.symm.trans ((hlow.trans hhigh.symm).trans hdrop.length_eq))
    have halen : a.length = 2 ^ e := by rw [ha.length_eq, hsplit.1, ← htake.length_eq, hlow]
    have hblen : b.length = 2 ^ e := by rw [hb.length_eq, hsplit.2, ← hdrop.length_eq, hhigh]
    obtain ⟨c, hc, hclen, hc'⟩ := ih halen (show k0 + 2 ^ e ≤ step.n / 4 by omega) ha
    obtain ⟨d, hd, hdlen, hd'⟩ := ih hblen (show k0 + 2 ^ e + 2 ^ e ≤ step.n / 4 by omega) hb
    obtain ⟨⟨r, s⟩, hlast, hr, hs⟩ := pass_follow (dit_follows hk hstep (2 ^ e)) parallel hclen.le hc' hd'
    have hjoin := length_pass parallel
      (fun j => SimdFft.dit (SimdFft.twiddle step'.fwd (step'.n / (2 * 2 ^ e)) j))
      (hc'.length_eq.symm.trans ((hclen.trans hdlen.symm).trans hd'.length_eq))
    refine ⟨r ++ s, ?_, ?_, ?_⟩
    · rw [recurse, dif_neg hlarge]
      simp only [hhalf, hrest, hfirst, hc, hd, hlast, Option.bind_eq_bind, Option.bind_some]
    · rw [List.length_append, hr.length_eq, hs.length_eq, hjoin.1, hjoin.2, ← hc'.length_eq, ← hd'.length_eq,
        hclen, hdlen, hdouble]
    · rw [SimdFft.recurse, dif_neg hlarge']
      simp only [hhalf, hrest]
      exact List.rel_append hr hs

/-! ### The way in and out -/

/-- Data come in as the limbs of arkworks. -/
theorem pack_stands {x : List Fr} (hx : x.length = step.n) : ∃ buf, pack k step x = some buf ∧
    List.Forall₂ (Stands dataFactor) buf (SimdFft.pack step' x) := by
  have hread : ∀ i, i < step.n → x[i]? = some (x.getD i 0) := by
    intro i hi
    rw [← hx] at hi
    rw [List.getD_eq_getElem _ _ hi, List.getElem?_eq_getElem hi]
  have hlength := hstep.inv_length
  unfold pack SimdFft.pack
  rw [← hstep.n]
  refine mapM_follow (List.range (step.n / 4)) fun i hi => ?_
  rw [List.mem_range] at hi
  rw [hread i (by omega), hread (i + step.n / 4) (by omega), hread (i + 2 * (step.n / 4)) (by omega),
    hread (i + 3 * (step.n / 4)) (by omega)]
  apply difLanes_stands hk hstep.inv
  · exact Word.lanes4 (rawFromArk_word _) (rawFromArk_word _) (rawFromArk_word _) (rawFromArk_word _)
  · omega
  · omega

theorem unpackRun_eq {i : ℕ} (hi : i + buf.length ≤ step.n / 4)
    (h : List.Forall₂ (Stands dataFactor) buf buf') :
    unpackRun k step i buf = some (SimdFft.unpackRun step' i buf') := by
  have hlength := hstep.fwd_length
  induction h generalizing i with
  | nil => rfl
  | cons ha hrest ih =>
    rw [List.length_cons] at hi
    obtain ⟨v, hv, hv'⟩ := ditLanes_stands hk hstep.fwd ha (show i + step.n / 4 < step.fwd.length by omega)
      (by omega)
    rw [unpackRun, hv, Option.bind_eq_bind, Option.bind_some, elements_eq hv',
      ih (show i + 1 + _ ≤ step.n / 4 by omega), SimdFft.unpackRun, ← hstep.n]
    rfl

theorem unpack_eq (parallel : Option ℕ) (hlength : buf.length ≤ step.n / 4)
    (h : List.Forall₂ (Stands dataFactor) buf buf') :
    unpack k parallel step buf = some (SimdFft.unpack parallel step' buf') := by
  have hi : 0 + buf.length ≤ step.n / 4 := by omega
  cases parallel with
  | none =>
    rw [unpack, unpackRun_eq hk hstep hi h]
    rfl
  | some chunk =>
    have hrun : ∀ i as xs, i + as.length ≤ step.n / 4 → List.Forall₂ (Stands dataFactor) as xs →
        unpackRun k step i as = some (SimdFft.unpackRun step' i xs) :=
      fun _ _ _ hi h => unpackRun_eq hk hstep hi h
    rw [unpack, mapChunks_eq hrun chunk 0 hi h]
    rfl

/-- The whole step, on any number of elements. -/
theorem apply_eq {N l : ℕ} (hN : 2 ≤ N) (hn : step.n = 2 ^ N) (hleaf : step.leaf = 2 ^ l) (hl : l ≤ N - 2)
    (parallel : Option ℕ) (x : List Fr) : apply k parallel step x = SimdFft.apply parallel step' x := by
  by_cases hx : x.length = step.n
  · have hq : step.n / 4 = 2 ^ (N - 2) := by
      rw [hn]
      exact Nat.pow_div hN Nat.two_pos
    obtain ⟨buf, hpack, hpack'⟩ := pack_stands hk hstep hx
    have hlength : (SimdFft.pack step' x).length = 2 ^ (N - 2) := by
      rw [SimdFft.pack, List.length_map, List.length_range, ← hstep.n, hq]
    have hbuf : buf.length = 2 ^ (N - 2) := hpack'.length_eq.trans hlength
    obtain ⟨r, hr, hrlen, hr'⟩ := recurse_stands hk hstep parallel hleaf hl hbuf
      (show 0 + 2 ^ (N - 2) ≤ step.n / 4 by omega) hpack'
    rw [apply, if_pos hx, hpack, Option.bind_eq_bind, Option.bind_some, hbuf, hr, Option.bind_some,
      unpack_eq hk hstep parallel (by omega) hr', SimdFft.apply, if_pos (hx.trans hstep.n)]
    simp only [hlength]
  · rw [apply, if_neg hx, SimdFft.apply, if_neg (hstep.n ▸ hx)]

end Walk

/-! ## The tables -/

section Tables
variable {k : Kernels} (hk : k.Correct fr)

include hk

theorem constFromArk_constant (x : Fr) : Constant (constFromArk k x) x := by
  obtain ⟨r, hr, hfield⟩ := U29x9.constFromArk_spec hk x
  exact ⟨r, hr, by rw [mul_one, hfield]⟩

theorem fill_table {w cur : Limbs} {x y : Fr} (hw : Constant w x) (hcur : Constant cur y) (count : ℕ) :
    Table (fill k w cur count) (SimdFft.fill x y count) := by
  induction count generalizing cur y with
  | zero => exact .nil
  | succ count ih =>
    obtain ⟨a, rfl, ha⟩ := hcur
    obtain ⟨b, rfl, hb⟩ := hw
    obtain ⟨r, hr, hfield⟩ := hk.montMul a b
    rw [mul_one] at ha hb
    refine .cons ⟨a, rfl, by rw [mul_one, ha]⟩ (ih ⟨r, hr, ?_⟩)
    rw [mul_one, hfield, ha, hb]

theorem plan_table {n : ℕ} (hn : isPowerOfTwo n = true ∧ 8 ≤ n) (omega : Fr) :
    ∃ tw, plan k n omega = some tw ∧ Table tw (SimdFft.plan n omega) ∧ tw.length = n / 2 := by
  have htable : Table ((List.range ((n / 2 + twiddleChunk - 1) / twiddleChunk)).flatMap fun c =>
      fill k (constFromArk k omega) (constFromArk k (omega ^ (c * twiddleChunk)))
        (min twiddleChunk (n / 2 - c * twiddleChunk))) (SimdFft.plan n omega) := by
    refine List.rel_flatMap (List.forall₂_same.mpr fun _ _ => rfl) ?_
    rintro c _ rfl
    exact fill_table hk (constFromArk_constant hk _) (constFromArk_constant hk _) _
  refine ⟨_, if_pos hn, htable, ?_⟩
  rw [htable.length_eq, SimdFft.plan_eq]
  exact List.tabulate_length _ _

omit hk in
/-- A table of powers is read at reversed places, which are in range. -/
theorem rev_read {l : ℕ} (hl : l < SimdFft.usizeBits) (w : Fr) (r : ℕ) :
    (SimdFft.fill w 1 (2 ^ l))[rev r (trailingZeros (2 ^ l))]? =
      some ((SimdFft.fill w 1 (2 ^ l)).getD (rev r (trailingZeros (2 ^ l))) 0) := by
  have hlt : rev r (trailingZeros (2 ^ l)) < (SimdFft.fill w 1 (2 ^ l)).length := by
    rw [SimdFft.trailingZeros_pow hl, SimdFft.rev_eq r hl.le, SimdFft.fill_eq, List.tabulate_length]
    exact BitReversal.reversed_lt l r
  rw [List.getD_eq_getElem _ _ hlt, List.getElem?_eq_getElem hlt]

theorem leafScales_table {l : ℕ} (hl : l < SimdFft.usizeBits) (g sizeInv : Fr) (blocks : ℕ) :
    ∃ vs, leafScales k g sizeInv (2 ^ l) blocks = some vs ∧
      List.Forall₂ (Stands 1) vs (SimdFft.leafScales g sizeInv (2 ^ l) blocks) := by
  unfold leafScales SimdFft.leafScales
  refine mapM_follow (List.range (2 ^ l)) fun r _ => ?_
  rw [rev_read hl]
  exact ⟨_, rfl, Word.lanes4 (constFromArk_constant hk _) (constFromArk_constant hk _)
    (constFromArk_constant hk _) (constFromArk_constant hk _)⟩

theorem blockScales_table {c : ℕ} (hc : c < SimdFft.usizeBits) (g : Fr) :
    ∃ tw, blockScales k g (2 ^ c) = some tw ∧ Table tw (SimdFft.blockScales g (2 ^ c)) := by
  unfold blockScales SimdFft.blockScales
  refine mapM_follow (List.range (2 ^ c)) fun b _ => ?_
  rw [rev_read hc]
  exact ⟨_, rfl, constFromArk_constant hk _⟩

/-- Both steps are built and their tables are the same. -/
theorem withLeaf_refines {N e : ℕ} (hN : 3 ≤ N) (hbits : N < SimdFft.usizeBits) (he : 1 ≤ e)
    (omega omegaInv g sizeInv : Fr) : ∃ step step',
      withLeaf k (2 ^ N) omega omegaInv g sizeInv (2 ^ e) = some step ∧
        SimdFft.withLeaf (2 ^ N) omega omegaInv g sizeInv (2 ^ e) = some step' ∧
          Refines step step' ∧ step.n = 2 ^ N ∧ step.leaf = 2 ^ min e (N - 2) := by
  have hn : isPowerOfTwo (2 ^ N) = true ∧ 8 ≤ 2 ^ N :=
    ⟨SimdFft.isPowerOfTwo_pow N, Nat.pow_le_pow_right Nat.two_pos hN⟩
  have hleaf : isPowerOfTwo (2 ^ e) = true ∧ 2 ≤ 2 ^ e :=
    ⟨SimdFft.isPowerOfTwo_pow e, Nat.pow_le_pow_right Nat.two_pos he⟩
  have hq : 2 ^ N / 4 = 2 ^ (N - 2) := Nat.pow_div (show 2 ≤ N by omega) Nat.two_pos
  have hclamped : min (2 ^ e) (2 ^ N / 4) = 2 ^ min e (N - 2) := by rw [hq, SimdFft.min_pow]
  have hblocks : 2 ^ N / 4 / min (2 ^ e) (2 ^ N / 4) = 2 ^ (N - 2 - min e (N - 2)) := by
    rw [hclamped, hq]
    exact Nat.pow_div (Nat.min_le_right _ _) Nat.two_pos
  obtain ⟨inv, hinv, hinv', hinvlen⟩ := plan_table hk hn omegaInv
  obtain ⟨fwd, hfwd, hfwd', hfwdlen⟩ := plan_table hk hn omega
  obtain ⟨leaves, hleaves, hleaves'⟩ := leafScales_table hk (show min e (N - 2) < SimdFft.usizeBits by omega)
    g sizeInv (2 ^ N / 4 / min (2 ^ e) (2 ^ N / 4))
  obtain ⟨blocks, hscale, hscale'⟩ := blockScales_table hk
    (show N - 2 - min e (N - 2) < SimdFft.usizeBits by omega) g
  rw [← hclamped] at hleaves hleaves'
  rw [← hblocks] at hscale hscale'
  have hstep : withLeaf k (2 ^ N) omega omegaInv g sizeInv (2 ^ e) =
      some ⟨2 ^ N, min (2 ^ e) (2 ^ N / 4), inv, fwd, leaves, blocks, two_le_leaf hn hleaf⟩ := by
    rw [withLeaf, dif_pos hn, dif_pos hleaf]
    simp only [hinv, hfwd, hleaves, hscale, Option.bind_eq_bind, Option.bind_some]
  refine ⟨_, _, hstep, by rw [SimdFft.withLeaf, dif_pos hn, dif_pos hleaf],
    ⟨rfl, rfl, hinv', hfwd', hleaves', hscale', hn.2, hinvlen, hfwdlen, ?_⟩, rfl, hclamped⟩
  rw [hscale'.length_eq, SimdFft.blockScales, List.length_map, List.length_range]

/-- With kernels that multiply, the step on limbs reads every table in range and computes, on the
elements of arkworks, what it computes on field elements. -/
theorem limbs_refine {N e : ℕ} (hN : 3 ≤ N) (hbits : N < SimdFft.usizeBits) (he : 1 ≤ e)
    (omega omegaInv g sizeInv : Fr) : ∃ step step',
      withLeaf k (2 ^ N) omega omegaInv g sizeInv (2 ^ e) = some step ∧
        SimdFft.withLeaf (2 ^ N) omega omegaInv g sizeInv (2 ^ e) = some step' ∧
          ∀ parallel x, apply k parallel step x = SimdFft.apply parallel step' x := by
  obtain ⟨step, step', hstep, hstep', hrefines, hn, hleaf⟩ := withLeaf_refines hk hN hbits he omega omegaInv
    g sizeInv
  exact ⟨step, step', hstep, hstep', apply_eq hk hrefines (by omega) hn hleaf (Nat.min_le_right e _)⟩

/-- The step the prover runs is the inverse transform, the coset scaling and the transform. -/
theorem limbs_compute_reference {N e : ℕ} (hN : 3 ≤ N) (hbits : N < SimdFft.usizeBits) (he : 1 ≤ e)
    {omega : Fr} (homega : IsPrimitiveRoot omega (2 ^ N)) (g : Fr) :
    ∃ step, withLeaf k (2 ^ N) omega omega⁻¹ g ((2 ^ N : ℕ) : Fr)⁻¹ (2 ^ e) = some step ∧
      ∀ (parallel : Option ℕ) (x : List Fr), x.length = 2 ^ N → apply k parallel step x =
        some (SimdFft.dft (2 ^ N) omega
          (SimdFft.distributePowers g (SimdFft.inverseDft (2 ^ N) omega x))) := by
  obtain ⟨step, step', hstep, hstep', hsame⟩ :=
    limbs_refine hk hN hbits he omega omega⁻¹ g ((2 ^ N : ℕ) : Fr)⁻¹
  obtain ⟨built, hbuilt, htables⟩ :=
    SimdFft.withLeaf_built hN hbits he omega omega⁻¹ g ((2 ^ N : ℕ) : Fr)⁻¹
  obtain rfl : step' = built := Option.some_inj.mp (hstep'.symm.trans hbuilt)
  refine ⟨step, hstep, fun parallel x hx => ?_⟩
  rw [hsame]
  exact SimdFft.apply_reference (by omega) homega htables parallel hx

end Tables

end Curvy.Prover.SlicedFft
