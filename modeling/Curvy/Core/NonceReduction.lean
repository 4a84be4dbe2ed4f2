import Curvy.Core.SecretArithmetic
import Mathlib.Data.Set.Card

/-!
# Nonce reduction is unbiased

Candidates from the largest multiple of the order up to `2 ^ 512` on are rejected, and those that
reduce to zero. Every other residue has the same number of accepted candidates.
-/

namespace Curvy.SecretArithmetic

set_option autoImplicit false

theorem order_eq : order = BabyJubjub.subOrder := by decide

theorem order_lt : order < 256 ^ 32 := by decide

theorem order_pos : 0 < order := by decide

theorem nonceLimit_computed : nonceLimit = order * (2 ^ 512 / order) ∧
    2 ^ 512 < nonceLimit + order ∧ nonceLimit ≤ 2 ^ 512 := by decide +kernel

theorem nonceLimit_eq : nonceLimit = order * (2 ^ 512 / order) := nonceLimit_computed.1

theorem nonceLimit_le : nonceLimit ≤ 256 ^ 64 := by decide

theorem nonceLimit_isGreatest : IsGreatest {m : ℕ | order ∣ m ∧ m ≤ 2 ^ 512} nonceLimit := by
  have hroom := nonceLimit_computed.2.1
  constructor
  · exact ⟨⟨_, nonceLimit_eq⟩, nonceLimit_computed.2.2⟩
  · rintro m ⟨⟨k, rfl⟩, hm⟩
    rw [nonceLimit_eq] at hroom ⊢
    apply Nat.mul_le_mul_left
    apply Nat.le_of_lt_succ
    apply Nat.lt_of_mul_lt_mul_left
    rw [Nat.mul_succ]
    exact Nat.lt_of_le_of_lt hm hroom

theorem take_leBytes (length more value : ℕ) :
    (leBytes (length + more) value).take length = leBytes length value := by
  induction length generalizing value with
  | zero => rw [List.take_zero, leBytes]
  | succ length ih => rw [Nat.succ_add, leBytes, List.take_succ_cons, ih, leBytes]

theorem coprime_radix (bits : ℕ) : Nat.Coprime (2 ^ bits) order :=
  Nat.Coprime.pow_left bits (by decide)

theorem reduceWide_eq (bytes : List UInt8) :
    reduceWide bytes = leBytes 32 (leNat bytes % order) := by
  unfold reduceWide
  dsimp only
  rw [MontyForm.retrieve_new (coprime_radix 512)]
  exact take_leBytes 32 32 _

theorem leNat_reduced (n : ℕ) : leNat (leBytes 32 (n % order)) = n % order :=
  leNat_leBytes (Nat.lt_trans (Nat.mod_lt n order_pos) order_lt)

theorem validSecret_reduced (n : ℕ) :
    validSecret (leBytes 32 (n % order)) = true ↔ ¬ order ∣ n := by
  have hlt := Nat.mod_lt n order_pos
  simp only [validSecret, leNat_reduced, hlt, decide_true, Bool.true_and, Bool.not_eq_true',
    decide_eq_false_iff_not]
  rw [Nat.dvd_iff_mod_eq_zero]

theorem nonceCandidate_iff (bytes out : List UInt8) : nonceCandidate bytes = some out ↔
    leNat bytes < nonceLimit ∧ ¬ order ∣ leNat bytes ∧ out = leBytes 32 (leNat bytes % order) := by
  unfold nonceCandidate
  rw [reduceWide_eq]
  dsimp only
  constructor
  · intro h
    split at h
    · rename_i hlow
      split at h
      · rename_i hvalid
        exact ⟨hlow, (validSecret_reduced _).mp hvalid, (Option.some.inj h).symm⟩
      · cases h
    · cases h
  · rintro ⟨hlow, hdvd, rfl⟩
    rw [if_pos hlow, if_pos ((validSecret_reduced _).mpr hdvd)]

/-- The candidates of a residue are the numbers `residue + order * i` below the limit. -/
theorem candidates_eq {residue : ℕ} (hpos : 0 < residue) (hlt : residue < order) :
    {bytes | bytes.length = 64 ∧ nonceCandidate bytes = some (leBytes 32 residue)} =
      (fun i => leBytes 64 (residue + order * i)) '' (Finset.range (2 ^ 512 / order) : Set ℕ) := by
  ext bytes
  rw [Set.mem_ofPred_eq, nonceCandidate_iff, nonceLimit_eq, Set.mem_image]
  constructor
  · rintro ⟨hlength, hlow, _, hout⟩
    have hresidue : residue = leNat bytes % order := by
      have hvalues := congrArg leNat hout
      rwa [leNat_reduced, leNat_leBytes (Nat.lt_trans hlt order_lt)] at hvalues
    refine ⟨leNat bytes / order, ?_, ?_⟩
    · rw [Finset.mem_coe, Finset.mem_range]
      exact Nat.div_lt_of_lt_mul hlow
    · have hbytes := leBytes_leNat bytes
      rw [hlength] at hbytes
      rw [hresidue, Nat.mod_add_div, hbytes]
  · rintro ⟨i, hi, rfl⟩
    rw [Finset.mem_coe, Finset.mem_range] at hi
    have hbelow : residue + order * i < order * (2 ^ 512 / order) :=
      calc residue + order * i < order * (i + 1) := by rw [Nat.mul_succ]; omega
        _ ≤ order * (2 ^ 512 / order) := Nat.mul_le_mul_left _ hi
    have hmod : (residue + order * i) % order = residue := by
      rw [Nat.add_mul_mod_self_left, Nat.mod_eq_of_lt hlt]
    have hwide := nonceLimit_le
    rw [nonceLimit_eq] at hwide
    rw [leNat_leBytes (Nat.lt_of_lt_of_le hbelow hwide), Nat.dvd_iff_mod_eq_zero, hmod]
    exact ⟨leBytes_length _ _, hbelow, Nat.ne_of_gt hpos, rfl⟩

theorem candidates_ncard {residue : ℕ} (hpos : 0 < residue) (hlt : residue < order) :
    {bytes | bytes.length = 64 ∧ nonceCandidate bytes = some (leBytes 32 residue)}.ncard =
      2 ^ 512 / order := by
  rw [candidates_eq hpos hlt, Set.InjOn.ncard_image, Set.ncard_coe_finset, Finset.card_range]
  intro i hi j hj hij
  have hbound : ∀ {i}, i ∈ (Finset.range (2 ^ 512 / order) : Set ℕ) →
      residue + order * i < 256 ^ 64 := by
    intro i hi
    rw [Finset.mem_coe, Finset.mem_range] at hi
    have hwide := nonceLimit_le
    rw [nonceLimit_eq] at hwide
    calc residue + order * i < order * (i + 1) := by rw [Nat.mul_succ]; omega
      _ ≤ order * (2 ^ 512 / order) := Nat.mul_le_mul_left _ hi
      _ ≤ 256 ^ 64 := hwide
  have hvalues := congrArg leNat hij
  dsimp only at hvalues
  rw [leNat_leBytes (hbound hi), leNat_leBytes (hbound hj)] at hvalues
  exact Nat.eq_of_mul_eq_mul_left order_pos (by omega)

/-- A candidate is accepted below the largest multiple of the order that fits 512 bits unless it
is a multiple itself; every nonzero residue comes from equally many. -/
theorem nonce_reduction_unbiased :
    IsGreatest {m : ℕ | order ∣ m ∧ m ≤ 2 ^ 512} nonceLimit ∧
      (∀ bytes, reduceWide bytes = leBytes 32 (leNat bytes % order)) ∧
      (∀ bytes out, nonceCandidate bytes = some out ↔ leNat bytes < nonceLimit ∧
        ¬ order ∣ leNat bytes ∧ out = leBytes 32 (leNat bytes % order)) ∧
      ∀ residue, 0 < residue → residue < order →
        {bytes | bytes.length = 64 ∧ nonceCandidate bytes = some (leBytes 32 residue)}.ncard =
          2 ^ 512 / order :=
  ⟨nonceLimit_isGreatest, reduceWide_eq, nonceCandidate_iff, fun _ => candidates_ncard⟩

theorem nonce_reduction_unbiased_example :
    {bytes | bytes.length = 64 ∧ nonceCandidate bytes = some (leBytes 32 1)}.ncard =
      2 ^ 512 / order :=
  nonce_reduction_unbiased.2.2.2 1 (by decide) (by decide)

end Curvy.SecretArithmetic
