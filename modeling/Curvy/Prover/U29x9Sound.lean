import Curvy.Prover.U29x9Mul

/-!
# The 29-bit arithmetic as a whole

What the scalar operations, the vectors and the conversions promise, for either modulus and for
any kernels that multiply weakly reduced values.
-/

namespace Curvy.Prover.U29x9

set_option autoImplicit false

open Radix (Reduced value)

variable {m : Modulus}

/-! ## Vectors of weakly reduced lanes -/

def packed (e : Fin 4 → WeaklyReduced m) : V := pack fun l => (e l).limbs

theorem eq_packed {v : V} {e : Fin 4 → WeaklyReduced m} (h : ∀ l, lane v l = (e l).limbs) :
    v = packed e := by
  funext i l
  exact congrFun (h l) i

theorem add4_packed (a b : Fin 4 → WeaklyReduced m) :
    ∃ r : Fin 4 → WeaklyReduced m, add4 m (packed a) (packed b) = packed r ∧
      ∀ l, add m (a l).limbs (b l).limbs = some (r l).limbs := by
  choose r hr _ using fun l => add_spec (a l) (b l)
  refine ⟨r, eq_packed fun l => ?_, hr⟩
  exact @add4_lane m (packed a) (packed b) l _ (hr l)

theorem sub4_packed (a b : Fin 4 → WeaklyReduced m) :
    ∃ r : Fin 4 → WeaklyReduced m, sub4 m (packed a) (packed b) = packed r ∧
      ∀ l, sub m (a l).limbs (b l).limbs = some (r l).limbs := by
  choose r hr _ using fun l => sub_spec (a l) (b l)
  refine ⟨r, eq_packed fun l => ?_, hr⟩
  exact @sub4_lane m (packed a) (packed b) l _ (hr l)

theorem mul4_packed {k : Kernels} (hk : k.Correct m) (a b : Fin 4 → WeaklyReduced m) :
    ∃ r : Fin 4 → WeaklyReduced m, k.mul4 (packed a) (packed b) = packed r ∧
      ∀ l, k.montMul (a l).limbs (b l).limbs = (r l).limbs := by
  choose r hr _ using fun l => hk.montMul (a l) (b l)
  refine ⟨r, eq_packed fun l => ?_, hr⟩
  exact (hk.mul4 a b l).trans (hr l)

theorem pack_four (a b c d : WeaklyReduced m) :
    pack ![a.limbs, b.limbs, c.limbs, d.limbs] = packed ![a, b, c, d] := by
  funext i l
  fin_cases l <;> rfl

/-- The lanes of a product whose last lane is not used. -/
theorem mul4_lanes {k : Kernels} (hk : k.Correct m) (a b c a' b' c' : WeaklyReduced m) (j : Fin 4) :
    unpack (k.mul4 (pack ![a.limbs, b.limbs, c.limbs, zero])
        (pack ![a'.limbs, b'.limbs, c'.limbs, zero])) j =
      k.montMul (![a, b, c, .zero m] j).limbs (![a', b', c', .zero m] j).limbs := by
  have hfirst := pack_four a b c (.zero m)
  have hsecond := pack_four a' b' c' (.zero m)
  change pack ![a.limbs, b.limbs, c.limbs, zero] = _ at hfirst
  change pack ![a'.limbs, b'.limbs, c'.limbs, zero] = _ at hsecond
  rw [hfirst, hsecond]
  exact hk.mul4 _ _ j

/-! ## The extension -/

/-- A pair of weakly reduced coordinates. -/
structure WeaklyReduced2 where
  c0 : WeaklyReduced fq
  c1 : WeaklyReduced fq

def WeaklyReduced2.limbs (x : WeaklyReduced2) : Fq2Simd := ⟨x.c0.limbs, x.c1.limbs⟩

def packed2 (e : Fin 4 → WeaklyReduced2) : Fq2x4 := Fq2x4.pack fun l => (e l).limbs

theorem unpack_mk (a b : Fin 4 → WeaklyReduced fq) (l : Fin 4) :
    Fq2x4.unpack ⟨packed a, packed b⟩ l = ⟨(a l).limbs, (b l).limbs⟩ := rfl

theorem packed2_eq (x : Fin 4 → WeaklyReduced2) :
    packed2 x = ⟨packed fun l => (x l).c0, packed fun l => (x l).c1⟩ := rfl

theorem fq2_add4 (x y : Fin 4 → WeaklyReduced2) (l : Fin 4) :
    Fq2Simd.add (x l).limbs (y l).limbs =
      some (Fq2x4.unpack (Fq2x4.add4 (packed2 x) (packed2 y)) l) := by
  obtain ⟨r0, hr0, h0⟩ := add4_packed (fun l => (x l).c0) fun l => (y l).c0
  obtain ⟨r1, hr1, h1⟩ := add4_packed (fun l => (x l).c1) fun l => (y l).c1
  rw [packed2_eq, packed2_eq, Fq2x4.add4, hr0, hr1, unpack_mk]
  unfold Fq2Simd.add WeaklyReduced2.limbs
  dsimp only at h0 h1 ⊢
  rw [h0, h1]
  rfl

theorem fq2_sub4 (x y : Fin 4 → WeaklyReduced2) (l : Fin 4) :
    Fq2Simd.sub (x l).limbs (y l).limbs =
      some (Fq2x4.unpack (Fq2x4.sub4 (packed2 x) (packed2 y)) l) := by
  obtain ⟨r0, hr0, h0⟩ := sub4_packed (fun l => (x l).c0) fun l => (y l).c0
  obtain ⟨r1, hr1, h1⟩ := sub4_packed (fun l => (x l).c1) fun l => (y l).c1
  rw [packed2_eq, packed2_eq, Fq2x4.sub4, hr0, hr1, unpack_mk]
  unfold Fq2Simd.sub WeaklyReduced2.limbs
  dsimp only at h0 h1 ⊢
  rw [h0, h1]
  rfl

theorem fq2_mul4 {k : Kernels} (hk : k.Correct fq) (x y : Fin 4 → WeaklyReduced2) (l : Fin 4) :
    Fq2Simd.mul k (x l).limbs (y l).limbs =
      some (Fq2x4.unpack (Fq2x4.mul4 k (packed2 x) (packed2 y)) l) := by
  obtain ⟨v0, hv0, h0⟩ := mul4_packed hk (fun l => (x l).c0) fun l => (y l).c0
  obtain ⟨v1, hv1, h1⟩ := mul4_packed hk (fun l => (x l).c1) fun l => (y l).c1
  obtain ⟨sa, hsa, ha⟩ := add4_packed (fun l => (x l).c0) fun l => (x l).c1
  obtain ⟨sb, hsb, hb⟩ := add4_packed (fun l => (y l).c0) fun l => (y l).c1
  obtain ⟨v2, hv2, h2⟩ := mul4_packed hk sa sb
  obtain ⟨c0, hc0, hs0⟩ := sub4_packed v0 v1
  obtain ⟨t, ht, hst⟩ := sub4_packed v2 v0
  obtain ⟨c1, hc1, hs1⟩ := sub4_packed t v1
  have hlanes := mul4_lanes hk (x l).c0 (x l).c1 (sa l) (y l).c0 (y l).c1 (sb l)
  have hlane0 := (hlanes 0).trans (h0 l)
  have hlane1 := (hlanes 1).trans (h1 l)
  have hlane2 := (hlanes 2).trans (h2 l)
  rw [packed2_eq, packed2_eq, Fq2x4.mul4]
  dsimp only at ha hb ⊢
  rw [hv0, hv1, hsa, hsb, hv2, hc0, ht, hc1, unpack_mk]
  unfold Fq2Simd.mul WeaklyReduced2.limbs
  dsimp only
  rw [ha, Option.bind_eq_bind, Option.bind_some, hb, Option.bind_some]
  rw [hlane0, hlane1, hlane2, hs0 l, Option.bind_some, hst l, Option.bind_some, hs1 l]
  rfl

theorem fq2_sqr4 {k : Kernels} (hk : k.Correct fq) (x : Fin 4 → WeaklyReduced2) (l : Fin 4) :
    Fq2Simd.square k (x l).limbs = some (Fq2x4.unpack (Fq2x4.sqr4 k (packed2 x)) l) := by
  obtain ⟨s, hs, hadd⟩ := add4_packed (fun l => (x l).c0) fun l => (x l).c1
  obtain ⟨d, hd, hsub⟩ := sub4_packed (fun l => (x l).c0) fun l => (x l).c1
  obtain ⟨t, ht, hdouble⟩ := add4_packed (fun l => (x l).c0) fun l => (x l).c0
  obtain ⟨c0, hc0, h0⟩ := mul4_packed hk s d
  obtain ⟨c1, hc1, h1⟩ := mul4_packed hk t fun l => (x l).c1
  have hlanes := mul4_lanes hk (s l) (t l) (.zero fq) (d l) (x l).c1 (.zero fq)
  have hlane0 := (hlanes 0).trans (h0 l)
  have hlane1 := (hlanes 1).trans (h1 l)
  rw [packed2_eq, Fq2x4.sqr4]
  dsimp only at hadd hsub hdouble ⊢
  rw [hs, hd, ht, hc0, hc1, unpack_mk]
  unfold Fq2Simd.square WeaklyReduced2.limbs double
  dsimp only
  rw [hadd l, Option.bind_eq_bind, Option.bind_some, hdouble l, Option.bind_some, hsub l,
    Option.bind_some]
  exact congrArg some (congrArg₂ Fq2Simd.mk hlane0 hlane1)

/-- All ones where both coordinates stand for zero, as the scalar test has it. -/
theorem fq2_zeroLanes (x : Fin 4 → WeaklyReduced2) (l : Fin 4) :
    Fq2Simd.isZero (x l).limbs =
      some (decide (Fq2x4.zeroLanes (packed2 x) l = BitVec.allOnes 32)) := by
  have h0 := zeroLanesBase_spec (packed fun l => (x l).c0) (x l).c0 rfl
  have h1 := zeroLanesBase_spec (packed fun l => (x l).c1) (x l).c1 rfl
  have hand : Fq2x4.zeroLanes (packed2 x) l =
      zeroLanesBase fq (packed fun l => (x l).c0) l &&& zeroLanesBase fq (packed fun l => (x l).c1) l :=
    rfl
  unfold Fq2Simd.isZero WeaklyReduced2.limbs
  rw [hand, h0, h1, isZero_spec, Option.bind_eq_bind, Option.bind_some, isZero_spec, Option.bind_some]
  refine congrArg some ?_
  by_cases hc0 : toField fq (x l).c0.limbs = 0
  · by_cases hc1 : toField fq (x l).c1.limbs = 0
    · rw [if_pos hc0, if_pos hc1, decide_eq_true hc0, decide_eq_true hc1]
      rfl
    · rw [if_pos hc0, if_neg hc1, decide_eq_true hc0, decide_eq_false hc1]
      rfl
  · rw [if_neg hc0, decide_eq_false hc0, Bool.false_and]
    split
    · rfl
    · rfl

theorem fq2_select {a b : Fq2x4} {mask : V128} {l : Fin 4} :
    (mask l = BitVec.allOnes 32 → Fq2x4.unpack (Fq2x4.select a b mask) l = Fq2x4.unpack a l) ∧
      (mask l = 0 → Fq2x4.unpack (Fq2x4.select a b mask) l = Fq2x4.unpack b l) := by
  constructor
  · intro hmask
    exact congrArg₂ Fq2Simd.mk (selectBase_lane.1 hmask) (selectBase_lane.1 hmask)
  · intro hmask
    exact congrArg₂ Fq2Simd.mk (selectBase_lane.2 hmask) (selectBase_lane.2 hmask)

/-! ## The promises -/

/-- The scalar operations have weakly reduced results, which stand for those of the field. -/
structure ScalarSound (m : Modulus) : Prop where
  add : ∀ a b : WeaklyReduced m, ∃ r : WeaklyReduced m, add m a.limbs b.limbs = some r.limbs ∧
    toField m r.limbs = toField m a.limbs + toField m b.limbs
  sub : ∀ a b : WeaklyReduced m, ∃ r : WeaklyReduced m, sub m a.limbs b.limbs = some r.limbs ∧
    toField m r.limbs = toField m a.limbs - toField m b.limbs
  double : ∀ a : WeaklyReduced m, ∃ r : WeaklyReduced m, double m a.limbs = some r.limbs ∧
    toField m r.limbs = 2 * toField m a.limbs
  neg : ∀ a : WeaklyReduced m, ∃ r : WeaklyReduced m, neg m a.limbs = some r.limbs ∧
    toField m r.limbs = -toField m a.limbs
  canonical : ∀ a : WeaklyReduced m, ∃ r, canonical m a.limbs = some r ∧
    ∀ s, s = r ↔ Reduced 29 s ∧ value 29 s < m.p ∧ toField m s = toField m a.limbs
  isZero : ∀ a : WeaklyReduced m, isZero m a.limbs = some (decide (toField m a.limbs = 0))
  equals : ∀ a b : WeaklyReduced m,
    equals m a.limbs b.limbs = some (decide (toField m a.limbs = toField m b.limbs))

/-- The conversions to and from four words keep the number and are inverse. -/
structure WordsSound (m : Modulus) : Prop where
  value_from : ∀ l, Reduced 29 (fromU64x4 l) ∧ value 29 (fromU64x4 l) = value 64 l
  value_to : ∀ a : Limbs, Reduced 29 a → value 29 a < 2 ^ 256 → value 64 (toU64x4 a) = value 29 a
  to_from : ∀ l, toU64x4 (fromU64x4 l) = l
  from_to : ∀ a : Limbs, Reduced 29 a → value 29 a < 2 ^ 256 → fromU64x4 (toU64x4 a) = a
  raw_to : ∀ a : WeaklyReduced m,
    rawToArk a.limbs = some ((value 29 a.limbs : ZMod m.p) * (2 ^ 256)⁻¹)
  raw : ∀ x : ZMod m.p, rawToArk (rawFromArk x) = some x

/-- Every lane of a vector operation is the scalar operation on that lane. -/
structure LanesSound (m : Modulus) : Prop where
  unpack_pack : ∀ e, unpack (pack e) = e
  pack_unpack : ∀ v, pack (unpack v) = v
  get : ∀ v l, get v l = unpack v l
  set : ∀ v l e, unpack (set v l e) = Function.update (unpack v) l e
  add4 : ∀ (a b : Fin 4 → WeaklyReduced m) (l : Fin 4),
    add m (a l).limbs (b l).limbs = some (unpack (add4 m (packed a) (packed b)) l)
  sub4 : ∀ (a b : Fin 4 → WeaklyReduced m) (l : Fin 4),
    sub m (a l).limbs (b l).limbs = some (unpack (sub4 m (packed a) (packed b)) l)
  zeroLanes : ∀ (a : Fin 4 → WeaklyReduced m) (l : Fin 4),
    zeroLanesBase m (packed a) l = if toField m (a l).limbs = 0 then BitVec.allOnes 32 else 0
  select : ∀ (a b : V) (mask : V128) (l : Fin 4),
    (mask l = BitVec.allOnes 32 → unpack (selectBase a b mask) l = unpack a l) ∧
      (mask l = 0 → unpack (selectBase a b mask) l = unpack b l)

/-- What is built on the multiplication of the base field. -/
structure KernelsSound (k : Kernels) : Prop where
  one : toField fq one = 1
  fromArk : ∀ x, ∃ r : WeaklyReduced fq, fromArk k x = r.limbs ∧ toField fq r.limbs = x
  toArk : ∀ a : WeaklyReduced fq, toArk k a.limbs = some (toField fq a.limbs)
  mul : ∀ a b : WeaklyReduced fq, ∃ r : WeaklyReduced fq, mul k a.limbs b.limbs = r.limbs ∧
    toField fq r.limbs = toField fq a.limbs * toField fq b.limbs
  square : ∀ a : WeaklyReduced fq, ∃ r : WeaklyReduced fq, square k a.limbs = r.limbs ∧
    toField fq r.limbs = toField fq a.limbs ^ 2
  add4 : ∀ (x y : Fin 4 → WeaklyReduced2) (l : Fin 4), Fq2Simd.add (x l).limbs (y l).limbs =
    some (Fq2x4.unpack (Fq2x4.add4 (packed2 x) (packed2 y)) l)
  sub4 : ∀ (x y : Fin 4 → WeaklyReduced2) (l : Fin 4), Fq2Simd.sub (x l).limbs (y l).limbs =
    some (Fq2x4.unpack (Fq2x4.sub4 (packed2 x) (packed2 y)) l)
  mul4 : ∀ (x y : Fin 4 → WeaklyReduced2) (l : Fin 4), Fq2Simd.mul k (x l).limbs (y l).limbs =
    some (Fq2x4.unpack (Fq2x4.mul4 k (packed2 x) (packed2 y)) l)
  sqr4 : ∀ (x : Fin 4 → WeaklyReduced2) (l : Fin 4), Fq2Simd.square k (x l).limbs =
    some (Fq2x4.unpack (Fq2x4.sqr4 k (packed2 x)) l)
  zeroLanes : ∀ (x : Fin 4 → WeaklyReduced2) (l : Fin 4), Fq2Simd.isZero (x l).limbs =
    some (decide (Fq2x4.zeroLanes (packed2 x) l = BitVec.allOnes 32))
  select : ∀ (a b : Fq2x4) (mask : V128) (l : Fin 4),
    (mask l = BitVec.allOnes 32 → Fq2x4.unpack (Fq2x4.select a b mask) l = Fq2x4.unpack a l) ∧
      (mask l = 0 → Fq2x4.unpack (Fq2x4.select a b mask) l = Fq2x4.unpack b l)

theorem canonical_iff (a : WeaklyReduced m) : ∃ r, canonical m a.limbs = some r ∧
    ∀ s, s = r ↔ Reduced 29 s ∧ value 29 s < m.p ∧ toField m s = toField m a.limbs := by
  obtain ⟨r, hr, hreduced, hlt, hfield⟩ := canonical_spec a
  refine ⟨r, hr, fun s => ⟨?_, ?_⟩⟩
  · intro h
    rw [h]
    exact ⟨hreduced, hlt, hfield⟩
  · intro h
    obtain ⟨hs, hslt, hsame⟩ := h
    exact canonical_unique hs hreduced hslt hlt (hsame.trans hfield.symm)

theorem scalarSound (m : Modulus) : ScalarSound m where
  add := add_spec
  sub := sub_spec
  double := double_spec
  neg := neg_spec
  canonical := canonical_iff
  isZero := isZero_spec
  equals := equals_spec

theorem wordsSound (m : Modulus) : WordsSound m where
  value_from := fun l => ⟨fromU64x4_reduced l, value_fromU64x4 l⟩
  value_to := fun _ => value_toU64x4
  to_from := toU64x4_fromU64x4
  from_to := fun _ => fromU64x4_toU64x4
  raw_to := rawToArk_eq
  raw := rawToArk_rawFromArk

theorem lanesSound (m : Modulus) : LanesSound m where
  unpack_pack := unpack_pack
  pack_unpack := pack_unpack
  get := fun _ _ => rfl
  set := fun _ _ _ => rfl
  add4 := by
    intro a b l
    obtain ⟨r, hr, hadd⟩ := add4_packed a b
    rw [hr, hadd]
    rfl
  sub4 := by
    intro a b l
    obtain ⟨r, hr, hsub⟩ := sub4_packed a b
    rw [hr, hsub]
    rfl
  zeroLanes := fun a l => zeroLanesBase_spec (packed a) (a l) rfl
  select := fun _ _ _ _ => selectBase_lane

theorem kernelsSound {k : Kernels} (hk : k.Correct fq) : KernelsSound k where
  one := toField_one
  fromArk := fromArk_spec hk
  toArk := toArk_spec hk
  mul := hk.montMul
  square := hk.montSqr
  add4 := fq2_add4
  sub4 := fq2_sub4
  mul4 := fq2_mul4 hk
  sqr4 := fq2_sqr4 hk
  zeroLanes := fq2_zeroLanes
  select := fun _ _ _ _ => fq2_select

/-! ## Kernels that multiply -/

/-- The limbs below the modulus that stand for a field element. -/
def ofField (m : Modulus) (x : ZMod m.p) : Limbs := Radix.ofNat 32 29 9 (x * (2 ^ 261 : ℕ)).val

def reference (m : Modulus) : Kernels where
  montMul a b := ofField m (toField m a * toField m b)
  montSqr a := ofField m (toField m a ^ 2)
  mul4 a b := pack fun l => ofField m (toField m (lane a l) * toField m (lane b l))
  sqr4 a := pack fun l => ofField m (toField m (lane a l) ^ 2)

theorem ofField_spec (x : ZMod m.p) :
    ∃ r : WeaklyReduced m, ofField m x = r.limbs ∧ toField m r.limbs = x := by
  have hlt := ZMod.val_lt (x * 2 ^ 261)
  have hp := m.lt_pow
  have hvalue : value 29 (ofField m x) = (x * 2 ^ 261).val := by
    unfold ofField
    rw [Radix.value_ofNat (by omega), radix_cast, Nat.mod_eq_of_lt (by omega)]
  refine ⟨⟨ofField m x, Radix.ofNat_reduced (by omega) _, by omega⟩, rfl, ?_⟩
  rw [toField_def, hvalue, ZMod.natCast_zmod_val, mul_inv_cancel_right₀ (radix_ne_zero m 261)]

theorem reference_correct (m : Modulus) : (reference m).Correct m where
  montMul := fun _ _ => ofField_spec _
  montSqr := fun _ => ofField_spec _
  mul4 := fun _ _ _ => rfl
  sqr4 := fun _ _ => rfl

/-! ## Both fields -/

/-- For the modulus of either field, and for all kernels that multiply weakly reduced values. -/
theorem weakly_reduced_arithmetic_sound (m : Modulus) :
    ScalarSound m ∧ WordsSound m ∧ LanesSound m ∧ (∀ k : Kernels, k.Correct fq → KernelsSound k) ∧
      ∀ k : Kernels, k.Correct fr → ∀ x : ZMod fr.p, ∃ r : WeaklyReduced fr,
        constFromArk k x = r.limbs ∧ toField fr r.limbs = x :=
  ⟨scalarSound m, wordsSound m, lanesSound m, fun _ => kernelsSound, fun _ => constFromArk_spec⟩

theorem weakly_reduced_arithmetic_sound_fields :
    (ScalarSound fq ∧ ScalarSound fr) ∧ KernelsSound (reference fq) ∧
      ∀ x : ZMod fr.p, ∃ r : WeaklyReduced fr,
        constFromArk (reference fr) x = r.limbs ∧ toField fr r.limbs = x := by
  obtain ⟨hfq, _, _, hkernels, _⟩ := weakly_reduced_arithmetic_sound fq
  obtain ⟨hfr, _, _, _, hconstants⟩ := weakly_reduced_arithmetic_sound fr
  exact ⟨⟨hfq, hfr⟩, hkernels _ (reference_correct fq), hconstants _ (reference_correct fr)⟩

end Curvy.Prover.U29x9
