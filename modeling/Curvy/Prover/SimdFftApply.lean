import Curvy.Prover.SimdFftExact
import Curvy.Witness.ScalarField

/-!
# What a step computes

Its tables hold the scaling in the order of the walk, and the two stages inside a vector make four
transforms of the lanes one of the whole domain.
-/

namespace Curvy.Prover.SimdFft

set_option autoImplicit false

open List (tabulate)
open BitReversal (reversed)
open FusedTransform (transform fused quarter quarterFused residue)

variable {F : Type} [Field F]

/-! ## The tables of a step -/

theorem isPowerOfTwo_pow (k : ℕ) : isPowerOfTwo (2 ^ k) = true := by
  rw [isPowerOfTwo, Nat.log2_two_pow, decide_eq_true_eq]

/-- The factors of the coefficients in the four lanes of a vector. -/
def scaling (sizeInv g : F) (i : ℕ) : V F :=
  lanes4 (sizeInv * g ^ (4 * i)) (sizeInv * g ^ (4 * i + 2)) (sizeInv * g ^ (4 * i + 1))
    (sizeInv * g ^ (4 * i + 3))

theorem min_pow (a b : ℕ) : min (2 ^ a) (2 ^ b) = 2 ^ min a b := by
  rcases Nat.le_total a b with h | h
  · rw [Nat.min_eq_left h, Nat.min_eq_left (Nat.pow_le_pow_right Nat.two_pos h)]
  · rw [Nat.min_eq_right h, Nat.min_eq_right (Nat.pow_le_pow_right Nat.two_pos h)]

theorem leafScales_eq (g sizeInv : F) {l : ℕ} (hl : l < usizeBits) (blocks : ℕ) :
    leafScales g sizeInv (2 ^ l) blocks = tabulate (2 ^ l) fun r =>
      lanes4 (sizeInv * (g ^ (4 * blocks)) ^ reversed l r * 1)
        (sizeInv * (g ^ (4 * blocks)) ^ reversed l r * g ^ 2)
        (sizeInv * (g ^ (4 * blocks)) ^ reversed l r * g)
        (sizeInv * (g ^ (4 * blocks)) ^ reversed l r * (g ^ 2 * g)) := by
  have hread : ∀ r, (fill (g ^ (4 * blocks)) 1 (2 ^ l)).getD (rev r (trailingZeros (2 ^ l))) 0 =
      (g ^ (4 * blocks)) ^ reversed l r := by
    intro r
    rw [trailingZeros_pow hl, rev_eq r hl.le, fill_eq,
      List.getD_tabulate _ (BitReversal.reversed_lt l r), one_mul]
  rw [leafScales]
  simp only [hread]
  rfl

theorem getD_blockScales (g : F) {c b : ℕ} (hc : c < usizeBits) (hb : b < 2 ^ c) :
    (blockScales g (2 ^ c)).getD b 0 = (g ^ 4) ^ reversed c b := by
  have htable : blockScales g (2 ^ c) = tabulate (2 ^ c) fun b =>
      (fill (g ^ 4) 1 (2 ^ c)).getD (rev b (trailingZeros (2 ^ c))) 0 := rfl
  rw [htable, List.getD_tabulate _ hb, trailingZeros_pow hc, rev_eq b hc.le, fill_eq,
    List.getD_tabulate _ (BitReversal.reversed_lt c b), one_mul]

/-- A power of the coset generator, from a leaf's table and a block's. -/
theorem scale_split (sizeInv g : F) (c a b t : ℕ) :
    sizeInv * (g ^ (4 * 2 ^ c)) ^ a * g ^ t * (g ^ 4) ^ b =
      sizeInv * g ^ (4 * (a * 2 ^ c + b) + t) := by
  rw [← pow_mul, ← pow_mul, mul_assoc, mul_assoc, ← pow_add, ← pow_add]
  congr 2
  ring

/-- What holds of a step that was built. -/
structure Built (step : Step F) (N : ℕ) (omega omegaInv g sizeInv : F) : Prop where
  powers : Powers step N omega omegaInv
  leaf : ∃ l, l ≤ N - 2 ∧ step.leaf = 2 ^ l ∧ ∃ T, step.scaleLeaf = tabulate (2 ^ l) T
  scale : ∀ p, p < 2 ^ (N - 2) → factor step p = scaling sizeInv g (reversed (N - 2) p)

theorem withLeaf_built {N e : ℕ} (hN : 3 ≤ N) (hbits : N < usizeBits) (he : 1 ≤ e)
    (omega omegaInv g sizeInv : F) :
    ∃ step, withLeaf (2 ^ N) omega omegaInv g sizeInv (2 ^ e) = some step ∧
      Built step N omega omegaInv g sizeInv := by
  have hn : isPowerOfTwo (2 ^ N) = true ∧ 8 ≤ 2 ^ N :=
    ⟨isPowerOfTwo_pow N, Nat.pow_le_pow_right Nat.two_pos hN⟩
  have hleaf : isPowerOfTwo (2 ^ e) = true ∧ 2 ≤ 2 ^ e :=
    ⟨isPowerOfTwo_pow e, Nat.pow_le_pow_right Nat.two_pos he⟩
  have hq : 2 ^ N / 4 = 2 ^ (N - 2) := Nat.pow_div (show 2 ≤ N by omega) Nat.two_pos
  have hclamped : min (2 ^ e) (2 ^ N / 4) = 2 ^ min e (N - 2) := by rw [hq, min_pow]
  have hblocks : 2 ^ N / 4 / 2 ^ min e (N - 2) = 2 ^ (N - 2 - min e (N - 2)) := by
    rw [hq]
    exact Nat.pow_div (Nat.min_le_right _ _) Nat.two_pos
  have hl : min e (N - 2) < usizeBits := by omega
  refine ⟨_, by rw [withLeaf, dif_pos hn, dif_pos hleaf], ⟨rfl, plan_eq _ _, plan_eq _ _⟩, ?_, ?_⟩
  · refine ⟨min e (N - 2), Nat.min_le_right _ _, hclamped, ?_⟩
    dsimp only
    rw [hclamped, hblocks]
    exact ⟨_, leafScales_eq g sizeInv hl _⟩
  · intro p hp
    have hsum : N - 2 - min e (N - 2) + min e (N - 2) = N - 2 := by omega
    have hpos := Nat.two_pow_pos (min e (N - 2))
    have hmod : p % 2 ^ min e (N - 2) < 2 ^ min e (N - 2) := Nat.mod_lt _ hpos
    have hdiv : p / 2 ^ min e (N - 2) < 2 ^ (N - 2 - min e (N - 2)) := by
      rw [Nat.div_lt_iff_lt_mul hpos, ← pow_add, hsum]
      exact hp
    have hsplit := BitReversal.reversed_split (N - 2 - min e (N - 2)) (min e (N - 2))
      (p / 2 ^ min e (N - 2)) (p % 2 ^ min e (N - 2)) hmod
    rw [hsum, Nat.mul_comm, Nat.div_add_mod] at hsplit
    rw [factor]
    dsimp only
    rw [hclamped, hblocks, leafScales_eq g sizeInv hl, List.getD_tabulate _ hmod,
      getD_blockScales g (by omega) hdiv, scaling, hsplit]
    have h0 := scale_split sizeInv g (N - 2 - min e (N - 2))
      (reversed (min e (N - 2)) (p % 2 ^ min e (N - 2)))
      (reversed (N - 2 - min e (N - 2)) (p / 2 ^ min e (N - 2))) 0
    have h1 := scale_split sizeInv g (N - 2 - min e (N - 2))
      (reversed (min e (N - 2)) (p % 2 ^ min e (N - 2)))
      (reversed (N - 2 - min e (N - 2)) (p / 2 ^ min e (N - 2))) 1
    have h3 := scale_split sizeInv g (N - 2 - min e (N - 2))
      (reversed (min e (N - 2)) (p % 2 ^ min e (N - 2)))
      (reversed (N - 2 - min e (N - 2)) (p / 2 ^ min e (N - 2))) 3
    rw [pow_zero, Nat.add_zero] at h0
    rw [pow_one] at h1
    rw [pow_succ g 2] at h3
    exact Prod.ext h0 (Prod.ext (scale_split sizeInv g _ _ _ 2) (Prod.ext h1 h3))

/-! ## Lanes -/

/-- A lane of a vector. -/
def laneHom : ℕ → V F →+* F
  | 0 => RingHom.fst F (F × F × F)
  | 1 => (RingHom.fst F (F × F)).comp (RingHom.snd F (F × F × F))
  | 2 => ((RingHom.fst F F).comp (RingHom.snd F (F × F))).comp (RingHom.snd F (F × F × F))
  | _ => ((RingHom.snd F F).comp (RingHom.snd F (F × F))).comp (RingHom.snd F (F × F × F))

theorem lane_eq (v : V F) (i : ℕ) : lane v i = laneHom i v := by
  rcases i with _ | _ | _ | i
  · rfl
  · rfl
  · rfl
  · rfl

theorem laneHom_splat (c : F) (i : ℕ) : laneHom i (splat c) = c := by
  rw [← lane_eq]
  rcases i with _ | _ | _ | i
  · rfl
  · rfl
  · rfl
  · rfl

theorem laneHom_scaling (sizeInv g : F) (i l : ℕ) :
    laneHom l (scaling sizeInv g i) = sizeInv * g ^ (4 * i + residue l) := by
  rw [← lane_eq]
  rcases l with _ | _ | _ | l
  · rfl
  · rfl
  · rfl
  · rfl

section Cross

variable {step : Step F} {N : ℕ} {omega omegaInv : F} (h : Powers step N omega omegaInv)
  (hN : 2 ≤ N)

include h hN

theorem read_inv {i : ℕ} (hi : i < 2 * 2 ^ (N - 2)) : step.inv.getD i 0 = omegaInv ^ i := by
  rw [h.inv, h.size]
  apply List.getD_tabulate
  rw [show N = N - 2 + 2 by omega, pow_succ, Nat.mul_div_cancel _ Nat.two_pos, pow_succ]
  omega

theorem read_fwd {i : ℕ} (hi : i < 2 * 2 ^ (N - 2)) : step.fwd.getD i 0 = omega ^ i := by
  rw [h.fwd, h.size]
  apply List.getD_tabulate
  rw [show N = N - 2 + 2 by omega, pow_succ, Nat.mul_div_cancel _ Nat.two_pos, pow_succ]
  omega

/-- The way in makes four lanes of quarters. -/
theorem lane_difLanes (x : ℕ → F) {k : ℕ} (hk : k < 2 ^ (N - 2)) (l : ℕ) :
    lane (difLanes (lanes4 (x k) (x (k + 2 ^ (N - 2))) (x (k + 2 * 2 ^ (N - 2)))
        (x (k + 3 * 2 ^ (N - 2)))) step.inv k (2 ^ (N - 2))) l =
      quarter (2 ^ (N - 2)) omegaInv x l k := by
  have hsq : (omegaInv ^ 2) ^ k = step.inv.getD (2 * k) 0 := by
    rw [← pow_mul, read_inv h hN (by omega)]
  have hlow : omegaInv ^ k = step.inv.getD k 0 := (read_inv h hN (by omega)).symm
  have hhigh : omegaInv ^ (k + 2 ^ (N - 2)) = step.inv.getD (k + 2 ^ (N - 2)) 0 :=
    (read_inv h hN (by omega)).symm
  rw [show k + 3 * 2 ^ (N - 2) = k + 2 ^ (N - 2) + 2 * 2 ^ (N - 2) by ring]
  rcases l with _ | _ | _ | l
  · rfl
  · rw [quarter, FusedTransform.odds, hsq]
    rfl
  · rw [quarter, FusedTransform.evens, FusedTransform.odds, FusedTransform.odds, hlow, hhigh]
    rfl
  · rw [quarter, FusedTransform.odds, FusedTransform.odds, FusedTransform.odds, hlow, hhigh, hsq]
    rfl
    · rintro ⟨⟩
    · rintro ⟨⟩
    · rintro ⟨⟩

/-- The way out joins them. -/
theorem lane_ditLanes (z : V F) {k : ℕ} (hk : k < 2 ^ (N - 2)) :
    lane (ditLanes z step.fwd k (2 ^ (N - 2))) 0 =
        lane z 0 + (omega ^ 2) ^ k * lane z 1 +
          omega ^ k * (lane z 2 + (omega ^ 2) ^ k * lane z 3) ∧
      lane (ditLanes z step.fwd k (2 ^ (N - 2))) 1 =
        lane z 0 - (omega ^ 2) ^ k * lane z 1 +
          omega ^ (k + 2 ^ (N - 2)) * (lane z 2 - (omega ^ 2) ^ k * lane z 3) ∧
      lane (ditLanes z step.fwd k (2 ^ (N - 2))) 2 =
        lane z 0 + (omega ^ 2) ^ k * lane z 1 -
          omega ^ k * (lane z 2 + (omega ^ 2) ^ k * lane z 3) ∧
      lane (ditLanes z step.fwd k (2 ^ (N - 2))) 3 =
        lane z 0 - (omega ^ 2) ^ k * lane z 1 -
          omega ^ (k + 2 ^ (N - 2)) * (lane z 2 - (omega ^ 2) ^ k * lane z 3) := by
  have hsq : (omega ^ 2) ^ k = step.fwd.getD (2 * k) 0 := by
    rw [← pow_mul, read_fwd h hN (by omega)]
  have hlow : omega ^ k = step.fwd.getD k 0 := (read_fwd h hN (by omega)).symm
  have hhigh : omega ^ (k + 2 ^ (N - 2)) = step.fwd.getD (k + 2 ^ (N - 2)) 0 :=
    (read_fwd h hN (by omega)).symm
  rw [hsq, hlow, hhigh]
  simp only [mul_comm (step.fwd.getD _ _)]
  exact ⟨rfl, rfl, rfl, rfl⟩

end Cross

theorem unpackRun_append (step : Step F) (k : ℕ) (a b : List (V F)) :
    unpackRun step k (a ++ b) = unpackRun step k a ++ unpackRun step (k + a.length) b := by
  induction a generalizing k with
  | nil => rfl
  | cons v a ih =>
    rw [List.cons_append, unpackRun, ih, unpackRun, List.cons_append, List.length_cons,
      Nat.add_right_comm, Nat.add_assoc]

theorem unpackRun_tabulate (step : Step F) (k m : ℕ) (z : ℕ → V F) :
    unpackRun step k (tabulate m z) =
      tabulate m fun i => ditLanes (z i) step.fwd (k + i) (step.n / 4) := by
  induction m generalizing k z with
  | zero => rfl
  | succ m ih =>
    rw [List.tabulate_cons, unpackRun, ih, List.tabulate_cons]
    simp only [Nat.add_right_comm k 1, Nat.add_zero, Nat.add_assoc]

theorem unpack_eq (parallel : Option ℕ) (step : Step F) (m : ℕ) (z : ℕ → V F) :
    unpack parallel step (tabulate m z) =
      (tabulate m fun i => lane (ditLanes (z i) step.fwd i (step.n / 4)) 0) ++
        (tabulate m fun i => lane (ditLanes (z i) step.fwd i (step.n / 4)) 1) ++
        (tabulate m fun i => lane (ditLanes (z i) step.fwd i (step.n / 4)) 2) ++
        tabulate m fun i => lane (ditLanes (z i) step.fwd i (step.n / 4)) 3 := by
  have hrun : unpackRun step 0 (tabulate m z) =
      tabulate m fun i => ditLanes (z i) step.fwd i (step.n / 4) := by
    rw [unpackRun_tabulate]
    simp only [Nat.zero_add]
  have hlane : ∀ l, ((tabulate m fun i => ditLanes (z i) step.fwd i (step.n / 4)).map
      fun v => lane v l) = tabulate m fun i => lane (ditLanes (z i) step.fwd i (step.n / 4)) l := by
    intro l
    rw [tabulate, List.map_map]
    rfl
  cases parallel with
  | none =>
    rw [unpack, hrun]
    simp only [hlane]
  | some chunk =>
    rw [unpack, mapChunks_eq chunk (unpackRun_append step), hrun]
    simp only [hlane]

/-! ## The whole step -/

section Apply

variable {step : Step F} {N : ℕ} {omega omegaInv g sizeInv : F}
  (h : Built step N omega omegaInv g sizeInv) (hN : 2 ≤ N)
  (homega : omega ^ 2 ^ (N - 1) = -1) (hinv : omegaInv ^ 2 ^ (N - 1) = -1)

include h hN homega hinv

omit homega hinv in
/-- A lane of what the walk leaves in place `j`. -/
theorem lane_walked (x : ℕ → F) {y : ℕ → V F}
    (hy : ∀ k, k < 2 ^ (N - 2) → ∀ l, lane (y k) l = quarter (2 ^ (N - 2)) omegaInv x l k)
    (l j : ℕ) :
    lane (walked N omega omegaInv (N - 2) (factor step) y j) l =
      quarterFused (2 ^ (N - 2)) omega omegaInv (fun i => sizeInv * g ^ i) x l j := by
  have hroot : ∀ w : F, laneHom l (root N w (N - 2)) = (w ^ 2) ^ 2 := by
    intro w
    rw [root, laneHom_splat, ← pow_mul, show N - (N - 2) = 2 by omega]
    rfl
  rw [lane_eq, walked, FusedTransform.map_fused, hroot, hroot, quarterFused]
  apply FusedTransform.fused_congr
  · intro i hi
    rw [h.scale _ (BitReversal.reversed_lt _ _), BitReversal.reversed_reversed _ _ hi,
      laneHom_scaling]
  · intro t ht
    rw [← lane_eq, hy t ht]

/-- The walk over a packed vector, joined again, is the transform of the whole domain. -/
theorem apply_eq (parallel : Option ℕ) {x : List F} (hx : x.length = 2 ^ N) :
    apply parallel step x = some (tabulate (2 ^ N)
      (fused (2 ^ N) omega omegaInv (fun i => sizeInv * g ^ i) fun t => x.getD t 0)) := by
  obtain ⟨l, hl, hleaf, T, htable⟩ := h.leaf
  have hq : step.n / 4 = 2 ^ (N - 2) := by
    rw [h.powers.size]
    exact Nat.pow_div hN Nat.two_pos
  have hpack : ∃ y, pack step x = tabulate (2 ^ (N - 2)) y ∧ ∀ k, k < 2 ^ (N - 2) → ∀ l,
      lane (y k) l = quarter (2 ^ (N - 2)) omegaInv (fun t => x.getD t 0) l k := by
    refine ⟨_, by rw [pack, hq]; rfl, ?_⟩
    intro k hk l
    exact lane_difLanes h.powers hN (fun t => x.getD t 0) hk l
  obtain ⟨y, hpack, hy⟩ := hpack
  have hrecurse := recurse_eq h.powers homega hinv hleaf htable parallel hl (Nat.sub_le N 2) 0 y
  simp only [Nat.zero_mul, Nat.zero_add] at hrecurse
  have hfour : 2 ^ N = 2 ^ (N - 2) + 2 ^ (N - 2) + 2 ^ (N - 2) + 2 ^ (N - 2) := by
    have hpow : 2 ^ N = 2 ^ (N - 2) * 2 ^ 2 := by rw [← pow_add, show N - 2 + 2 = N by omega]
    omega
  have hhalf : 2 ^ (N - 1) = 2 * 2 ^ (N - 2) := by rw [← pow_succ', show N - 2 + 1 = N - 1 by omega]
  rw [hhalf] at homega hinv
  have hwhole : 2 ^ N = 2 * (2 * 2 ^ (N - 2)) := by omega
  rw [apply, if_pos (hx.trans h.powers.size.symm)]
  dsimp only
  rw [hpack, List.tabulate_length, hrecurse, unpack_eq, hq, Option.some_inj]
  have hquarters := FusedTransform.fused_quarters homega hinv (fun i => sizeInv * g ^ i)
    fun t => x.getD t 0
  rw [← hwhole] at hquarters
  rw [← hhalf] at homega hinv
  have hlanes : ∀ l j, lane (walked N omega omegaInv (N - 2) (factor step) y j) l =
      quarterFused (2 ^ (N - 2)) omega omegaInv (fun i => sizeInv * g ^ i)
        (fun t => x.getD t 0) l j := lane_walked h hN (fun t => x.getD t 0) hy
  generalize hfused : fused (2 ^ N) omega omegaInv (fun i => sizeInv * g ^ i)
    (fun t => x.getD t 0) = out at hquarters ⊢
  rw [hfour, List.tabulate_add, List.tabulate_add, List.tabulate_add]
  congr 1
  · congr 1
    · congr 1
      · apply List.tabulate_congr
        intro k hk
        rw [(lane_ditLanes h.powers hN _ hk).1, hlanes, hlanes, hlanes, hlanes, (hquarters k).1]
      · apply List.tabulate_congr
        intro k hk
        rw [(lane_ditLanes h.powers hN _ hk).2.1, hlanes, hlanes, hlanes, hlanes,
          Nat.add_comm _ k, (hquarters k).2.1]
    · apply List.tabulate_congr
      intro k hk
      rw [(lane_ditLanes h.powers hN _ hk).2.2.1, hlanes, hlanes, hlanes, hlanes, ← two_mul,
        Nat.add_comm _ k, (hquarters k).2.2.1]
  · apply List.tabulate_congr
    intro k hk
    rw [(lane_ditLanes h.powers hN _ hk).2.2.2, hlanes, hlanes, hlanes, hlanes,
      show 2 ^ (N - 2) + 2 ^ (N - 2) + 2 ^ (N - 2) + k = k + 2 ^ (N - 2) + 2 * 2 ^ (N - 2) by omega,
      (hquarters k).2.2.2]

end Apply

/-! ## The reference -/

def dft (n : ℕ) (w : F) (x : List F) : List F := tabulate n (transform n w fun t => x.getD t 0)

def inverseDft (n : ℕ) (w : F) (x : List F) : List F :=
  tabulate n fun i => (n : F)⁻¹ * transform n w⁻¹ (fun t => x.getD t 0) i

def distributePowers (g : F) (x : List F) : List F :=
  tabulate x.length fun i => x.getD i 0 * g ^ i

theorem pow_half_root {N : ℕ} (hN : 1 ≤ N) {omega : F} (h : IsPrimitiveRoot omega (2 ^ N)) :
    omega ^ 2 ^ (N - 1) = -1 := by
  have hsq : (omega ^ 2 ^ (N - 1)) ^ 2 = 1 := by
    rw [← pow_mul, ← pow_succ, show N - 1 + 1 = N by omega, h.pow_eq_one]
  have hne : omega ^ 2 ^ (N - 1) ≠ 1 :=
    h.pow_ne_one_of_pos_of_lt (Nat.two_pow_pos _).ne' (Nat.pow_lt_pow_right (by omega) (by omega))
  exact (sq_eq_one_iff.mp hsq).resolve_left hne

/-- A step that was built computes the reference, however its passes are split. -/
theorem apply_reference {step : Step F} {N : ℕ} (hN : 2 ≤ N) {omega g : F}
    (homega : IsPrimitiveRoot omega (2 ^ N)) (hbuilt : Built step N omega omega⁻¹ g ((2 ^ N : ℕ) : F)⁻¹)
    (parallel : Option ℕ) {x : List F} (hx : x.length = 2 ^ N) :
    apply parallel step x =
      some (dft (2 ^ N) omega (distributePowers g (inverseDft (2 ^ N) omega x))) := by
  have hhalf := pow_half_root (by omega) homega
  have hinv := pow_half_root (by omega) homega.inv
  rw [apply_eq hbuilt hN hhalf hinv parallel hx, Option.some_inj, dft]
  apply List.tabulate_congr
  intro j _
  apply FusedTransform.transform_congr
  intro i hi
  have hlength : (inverseDft (2 ^ N) omega x).length = 2 ^ N := List.tabulate_length _ _
  rw [distributePowers, hlength, List.getD_tabulate _ hi, inverseDft, List.getD_tabulate _ hi]
  ring

/-- For every power of two from 8 on, every leaf size and every primitive root, the fused step is
the inverse transform, the coset scaling and the transform, however the passes are split. -/
theorem fused_step_is_reference {N e : ℕ} (hN : 3 ≤ N) (hbits : N < usizeBits) (he : 1 ≤ e)
    {omega : F} (homega : IsPrimitiveRoot omega (2 ^ N)) (g : F) :
    ∃ step, withLeaf (2 ^ N) omega omega⁻¹ g ((2 ^ N : ℕ) : F)⁻¹ (2 ^ e) = some step ∧
      ∀ (parallel : Option ℕ) (x : List F), x.length = 2 ^ N →
        apply parallel step x =
          some (dft (2 ^ N) omega (distributePowers g (inverseDft (2 ^ N) omega x))) := by
  obtain ⟨step, hstep, hbuilt⟩ := withLeaf_built hN hbits he omega omega⁻¹ g ((2 ^ N : ℕ) : F)⁻¹
  refine ⟨step, hstep, ?_⟩
  intro parallel x hx
  exact apply_reference (by omega) homega hbuilt parallel hx

def exampleRoot : Witness.Fr :=
  (19540430494807482326159819597004422086093766032135589407132600596362845576832 : ℕ)

theorem exampleRoot_half : exampleRoot ^ 2 ^ 2 = -1 := by
  have hzero : ((19540430494807482326159819597004422086093766032135589407132600596362845576832 ^ 4 + 1 :
      ℕ) : Witness.Fr) = 0 := by
    rw [ZMod.natCast_eq_zero_iff, Witness.frModulus]
    norm_num
  rw [Nat.cast_add, Nat.cast_pow, Nat.cast_one] at hzero
  exact eq_neg_of_add_eq_zero_left hzero

theorem exampleRoot_primitive : IsPrimitiveRoot exampleRoot (2 ^ 3) := by
  have hne : ¬ exampleRoot ^ 2 ^ 2 = 1 := by
    rw [exampleRoot_half]
    intro h
    have htwo : ((2 : ℕ) : Witness.Fr) = 0 := by
      rw [Nat.cast_ofNat, ← one_add_one_eq_two]
      nth_rewrite 1 [← h]
      exact neg_add_cancel 1
    rw [ZMod.natCast_eq_zero_iff, Witness.frModulus] at htwo
    norm_num at htwo
  have hone : exampleRoot ^ 2 ^ (2 + 1) = 1 := by
    rw [pow_succ, pow_mul, exampleRoot_half, neg_one_sq]
  rw [← orderOf_eq_prime_pow hne hone]
  exact IsPrimitiveRoot.orderOf exampleRoot

theorem fused_step_is_reference_example :
    ∃ step, withLeaf (2 ^ 3) exampleRoot exampleRoot⁻¹ exampleRoot
        ((2 ^ 3 : ℕ) : Witness.Fr)⁻¹ (2 ^ 1) = some step ∧
      ∀ (parallel : Option ℕ) (x : List Witness.Fr), x.length = 2 ^ 3 →
        apply parallel step x =
          some (dft (2 ^ 3) exampleRoot
            (distributePowers exampleRoot (inverseDft (2 ^ 3) exampleRoot x))) :=
  fused_step_is_reference (by decide) (by decide) (by decide) exampleRoot_primitive exampleRoot

end Curvy.Prover.SimdFft
