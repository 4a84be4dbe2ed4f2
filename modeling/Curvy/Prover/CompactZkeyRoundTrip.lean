import Curvy.Prover.CompactZkeyRestores

/-!
# The round trip of compact zkeys

Over what arkworks and zstd document, every zkey that snarkjs writes has a compact file; and
every compact file the encoder writes is the zkey it came from.
-/

namespace Curvy.Prover.CompactZkey

set_option autoImplicit false

/-- Encoding then decoding gives the zkey back, whatever memory is there later so long as its
length is reserved; and snarkjs's zkeys are encoded when both reservations are granted. -/
theorem compact_restores (zstd : ZstdDecoder) (sha256 : Sha256) (ark : Arkworks)
    (grants : Allocator) (compress : List UInt8 → List UInt8) :
    (∀ zkey file, encode zstd sha256 ark grants zkey compress = .ok file →
      ∀ maxZkeyBytes, zkey.length ≤ maxZkeyBytes →
        inflate zstd sha256 ark grants file maxZkeyBytes = .ok zkey ∧
          ∀ grants', inflate zstd sha256 ark grants' file maxZkeyBytes =
            if Reserves grants' zkey.length then .ok zkey
            else fail (.allocationFailed zkey.length)) ∧
    (ark.Documented → ZstdRoundTrip zstd compress → ∀ zkey : SnarkjsZkey ark,
      Reserves grants (bodyCapacity zkey.bytes.length zkey.sections.length) →
        Reserves grants zkey.bytes.length →
          ∃ file, encode zstd sha256 ark grants zkey.bytes compress = .ok file) := by
  refine ⟨?_, fun hark hzstd zkey => encode_answers sha256 hark hzstd zkey⟩
  intro zkey file h maxZkeyBytes hmax
  have hdecodes := encode_ok h
  refine ⟨?_, inflate_within hdecodes hmax⟩
  have hreserve : Reserves grants zkey.length := by
    by_contra hrefused
    have hfails := inflate_within hdecodes le_rfl grants
    rw [hdecodes, if_neg hrefused] at hfails
    cases hfails
  rw [inflate_within hdecodes hmax, if_pos hreserve]

/-! ### arkworks' points of BN254 -/

/-- The two bits above a coordinate. -/
def flagBits : SWFlags → Nat
  | .yIsPositive => 0
  | .pointAtInfinity => 1
  | .yIsNegative => 2

def flagsOf (bits : Nat) : Option SWFlags :=
  if bits = 0 then some .yIsPositive
  else if bits = 1 then some .pointAtInfinity
  else if bits = 2 then some .yIsNegative
  else none

theorem flagsOf_bits (flags : SWFlags) : flagsOf (flagBits flags) = some flags := by
  cases flags <;> rfl

/-- A coordinate of a point under the flags of its last byte. -/
def withFlags (x : Fq) (flags : SWFlags) : Nat := x.val + 2 ^ 254 * flagBits flags

def readWithFlags (value : Nat) : Option (Fq × SWFlags) := do
  let flags ← flagsOf (value / 2 ^ 254)
  if value % 2 ^ 254 < fqModulus then some (((value % 2 ^ 254 : Nat) : Fq), flags) else none

theorem val_lt_flags (x : Fq) : x.val < 2 ^ 254 := by
  have hlt : x.val < fqModulus := ZMod.val_lt x
  have hmodulus : fqModulus < 2 ^ 254 := by decide
  omega

theorem withFlags_lt (x : Fq) (flags : SWFlags) : withFlags x flags < 256 ^ 32 := by
  have hlt := val_lt_flags x
  have hpow : (256 : Nat) ^ 32 = 4 * 2 ^ 254 := by decide
  rw [hpow, withFlags]
  cases flags <;> simp only [flagBits] <;> omega

theorem readWithFlags_withFlags (x : Fq) (flags : SWFlags) :
    readWithFlags (withFlags x flags) = some (x, flags) := by
  have hlt := val_lt_flags x
  have hdiv : withFlags x flags / 2 ^ 254 = flagBits flags := by
    rw [withFlags, Nat.add_mul_div_left _ _ (Nat.two_pow_pos 254), Nat.div_eq_of_lt hlt,
      Nat.zero_add]
  have hmod : withFlags x flags % 2 ^ 254 = x.val := by
    rw [withFlags, Nat.add_mul_mod_self_left, Nat.mod_eq_of_lt hlt]
  have hval : x.val < fqModulus := ZMod.val_lt x
  rw [readWithFlags, hdiv, hmod, flagsOf_bits]
  change (if x.val < fqModulus then some (((x.val : Nat) : Fq), flags) else none) = _
  rw [if_pos hval, ZMod.natCast_zmod_val]

section Compressed
variable {F : Type} [Neg F]

/-- The flags arkworks writes for a finite point. -/
def signFlags (less : F → F → Bool) (y : F) : SWFlags :=
  if less (-y) y then .yIsNegative else .yIsPositive

end Compressed

def lessFq (a b : Fq) : Bool := a.val < b.val

def arkG1 : ArkCurve Fq where
  deserializeWithFlags bytes := readWithFlags (leNat bytes)
  serializeCompressed
    | none => leBytes 32 (withFlags 0 .pointAtInfinity)
    | some (x, y) => leBytes 32 (withFlags x (signFlags lessFq y))
  coeffB := (3 : ℕ)
  less := lessFq

/-- The second coordinate of the extension comes first in the order. -/
def lessFq2 (a b : Fq2) : Bool := lessFq a.im b.im || (a.im == b.im && lessFq a.re b.re)

def readWithFlags2 (value : Nat) : Option (Fq2 × SWFlags) := do
  let (c1, flags) ← readWithFlags (value / 256 ^ 32)
  if value % 256 ^ 32 < fqModulus then some (⟨((value % 256 ^ 32 : Nat) : Fq), c1⟩, flags) else none

def withFlags2 (x : Fq2) (flags : SWFlags) : Nat := x.re.val + 256 ^ 32 * withFlags x.im flags

noncomputable def arkG2 : ArkCurve Fq2 where
  deserializeWithFlags bytes := readWithFlags2 (leNat bytes)
  serializeCompressed
    | none => leBytes 64 (withFlags2 0 .pointAtInfinity)
    | some (x, y) => leBytes 64 (withFlags2 x (signFlags lessFq2 y))
  coeffB := (3 : ℕ) * (⟨(9 : ℕ), 1⟩ : Fq2)⁻¹
  less := lessFq2

theorem lessFq_total {a b : Fq} (h : a ≠ b) : lessFq a b = true ∨ lessFq b a = true := by
  rcases Nat.lt_or_gt_of_ne (fun hval => h (ZMod.val_injective _ hval)) with hlt | hlt
  · exact .inl (decide_eq_true hlt)
  · exact .inr (decide_eq_true hlt)

theorem lessFq_asymm {a b : Fq} (h : lessFq a b = true) : lessFq b a = false := by
  have hlt : a.val < b.val := of_decide_eq_true h
  exact decide_eq_false (Nat.not_lt.mpr hlt.le)

theorem lessFq2_asymm {a b : Fq2} (h : lessFq2 a b = true) : lessFq2 b a = false := by
  rw [lessFq2, Bool.or_eq_true, Bool.and_eq_true, beq_iff_eq] at h
  rw [lessFq2, Bool.or_eq_false_iff, Bool.and_eq_false_iff]
  rcases h with h | ⟨heq, h⟩
  · refine ⟨lessFq_asymm h, .inl (beq_false_of_ne ?_)⟩
    intro heq
    rw [heq] at h
    rw [lessFq_asymm h] at h
    cases h
  · refine ⟨?_, .inr (lessFq_asymm h)⟩
    rw [heq]
    exact decide_eq_false (Nat.lt_irrefl _)

theorem lessFq2_total {a b : Fq2} (h : a ≠ b) : lessFq2 a b = true ∨ lessFq2 b a = true := by
  simp only [lessFq2, Bool.or_eq_true, Bool.and_eq_true, beq_iff_eq]
  by_cases him : a.im = b.im
  · have hre : a.re ≠ b.re := fun hre => h (QuadraticAlgebra.ext hre him)
    rcases lessFq_total hre with hlt | hlt
    · exact .inl (.inr ⟨him, hlt⟩)
    · exact .inr (.inr ⟨him.symm, hlt⟩)
  · rcases lessFq_total him with hlt | hlt
    · exact .inl (.inl hlt)
    · exact .inr (.inl hlt)

theorem three_ne_zero : (3 : Fq) ≠ 0 := by
  intro h
  have hdvd : fqModulus ∣ 3 := (ZMod.natCast_eq_zero_iff 3 fqModulus).mp (by exact_mod_cast h)
  exact absurd (Nat.le_of_dvd (by decide) hdvd) (by decide)

theorem g1Infinity_eq : leBytes 32 (withFlags 0 .pointAtInfinity) = g1Infinity := by
  rw [withFlags, ZMod.val_zero]
  rfl

theorem arkG1_documented : arkG1.Documented g1Compact g1Infinity where
  asymm _ _ := lessFq_asymm
  total _ _ := lessFq_total
  coeffB := three_ne_zero
  length point := by cases point <;> exact leBytes_length _ _
  identity := g1Infinity_eq
  infinity := by
    refine ⟨0, ?_⟩
    rw [← g1Infinity_eq]
    change readWithFlags (leNat _) = _
    rw [leNat_leBytes (withFlags_lt _ _), readWithFlags_withFlags]
  finite x y := by
    change readWithFlags (leNat (leBytes 32 _)) = _
    rw [leNat_leBytes (withFlags_lt _ _), readWithFlags_withFlags]
    rfl

theorem withFlags2_lt (x : Fq2) (flags : SWFlags) : withFlags2 x flags < 256 ^ 64 := by
  have hlow := val_lt_flags x.re
  have hhigh := withFlags_lt x.im flags
  have hsmall : (2 : Nat) ^ 254 < 256 ^ 32 := by decide
  have hpow : (256 : Nat) ^ 64 = 256 ^ 32 * 256 ^ 32 := by decide
  rw [hpow, withFlags2]
  have hstep : 256 ^ 32 * (withFlags x.im flags + 1) ≤ 256 ^ 32 * 256 ^ 32 :=
    Nat.mul_le_mul_left _ hhigh
  rw [Nat.mul_succ] at hstep
  omega

theorem readWithFlags2_withFlags2 (x : Fq2) (flags : SWFlags) :
    readWithFlags2 (withFlags2 x flags) = some (x, flags) := by
  have hlow := val_lt_flags x.re
  have hsmall : (2 : Nat) ^ 254 < 256 ^ 32 := by decide
  have hdiv : withFlags2 x flags / 256 ^ 32 = withFlags x.im flags := by
    rw [withFlags2, Nat.add_mul_div_left _ _ (Nat.pow_pos (by decide)),
      Nat.div_eq_of_lt (by omega), Nat.zero_add]
  have hmod : withFlags2 x flags % 256 ^ 32 = x.re.val := by
    rw [withFlags2, Nat.add_mul_mod_self_left, Nat.mod_eq_of_lt (by omega)]
  have hval : x.re.val < fqModulus := ZMod.val_lt x.re
  rw [readWithFlags2, hdiv, hmod, readWithFlags_withFlags]
  change (if x.re.val < fqModulus then some ((⟨((x.re.val : Nat) : Fq), x.im⟩ : Fq2), flags)
    else none) = _
  rw [if_pos hval, ZMod.natCast_zmod_val]

theorem g2Infinity_eq : leBytes 64 (withFlags2 0 .pointAtInfinity) = g2Infinity := by
  rw [withFlags2, withFlags, QuadraticAlgebra.re_zero, QuadraticAlgebra.im_zero, ZMod.val_zero]
  rfl

theorem arkG2_coeffB : arkG2.coeffB ≠ 0 := by
  refine mul_ne_zero ?_ (inv_ne_zero ?_)
  · intro h
    exact three_ne_zero (congrArg QuadraticAlgebra.re h)
  · intro h
    exact one_ne_zero (congrArg QuadraticAlgebra.im h)

theorem arkG2_documented : arkG2.Documented g2Compact g2Infinity where
  asymm _ _ := lessFq2_asymm
  total _ _ := lessFq2_total
  coeffB := arkG2_coeffB
  length point := by cases point <;> exact leBytes_length _ _
  identity := g2Infinity_eq
  infinity := by
    refine ⟨0, ?_⟩
    rw [← g2Infinity_eq]
    change readWithFlags2 (leNat _) = _
    rw [leNat_leBytes (withFlags2_lt _ _), readWithFlags2_withFlags2]
  finite x y := by
    change readWithFlags2 (leNat (leBytes 64 _)) = _
    rw [leNat_leBytes (withFlags2_lt _ _), readWithFlags2_withFlags2]
    rfl

noncomputable def arkworks : Arkworks := ⟨arkG1, arkG2⟩

/-! ### Frames of one raw block -/

def frameStart : List UInt8 := [0x28, 0xb5, 0x2f, 0xfd, 0xe0]

/-- The frame header and the header of the last block, which is raw. -/
def rawFrame (body : List UInt8) : List UInt8 :=
  frameStart ++ (leBytes 8 body.length ++ (leBytes 3 (body.length * 8 + 1) ++ body))

def rawDecoder : ZstdDecoder := fun compressed =>
  if compressed.take 5 = frameStart then .ok ⟨compressed.drop 16, none, none, none, []⟩
  else .error "not a zstd frame"

theorem rawFrame_roundTrip : ZstdRoundTrip rawDecoder rawFrame := by
  intro body
  have htake : (rawFrame body).take 5 = frameStart := List.take_left' rfl
  have hstart : frameStart.length = 5 := rfl
  have hdrop : (rawFrame body).drop 16 = body := by
    have hsize : (leBytes 8 body.length).length = 8 := leBytes_length _ _
    have hblock : (leBytes 3 (body.length * 8 + 1)).length = 3 := leBytes_length _ _
    rw [rawFrame, show 16 = 5 + (8 + 3) from rfl, ← List.drop_drop, List.drop_left' hstart,
      ← List.drop_drop, List.drop_left' hsize, List.drop_left' hblock]
  refine ⟨⟨body, none, none, none, []⟩, ?_, rfl, rfl, fun h => (by cases h), rfl⟩
  rw [rawDecoder, htake, hdrop]
  exact if_pos rfl

/-! ### A zkey of every kind of section -/

def generatorG1 : Affine Fq := some (1, (2 : ℕ))

def exampleSections : List ZkeySection :=
  [⟨1, [1, 0, 0, 0]⟩,
    ⟨4, [1, 0, 0, 0] ++ List.replicate 44 7⟩,
    ⟨3, [generatorG1, none].flatMap (storedPoint writeLimbs)⟩,
    ⟨7, [none].flatMap (storedPoint writeLimbs2)⟩]

theorem exampleSections_wellFormed : ∀ s ∈ exampleSections, s.WellFormed arkworks := by
  refine List.forall_mem_cons.mpr ⟨trivial, ?_⟩
  refine List.forall_mem_cons.mpr ⟨⟨[1, 0, 0, 0], List.replicate 44 7, rfl, ?_, rfl⟩, ?_⟩
  · rw [List.length_replicate]
    rfl
  refine List.forall_mem_cons.mpr ⟨⟨[generatorG1, none], ?_, rfl⟩, ?_⟩
  · refine List.forall_mem_cons.mpr ⟨?_, List.forall_mem_cons.mpr ⟨trivial, by simp⟩⟩
    change ((2 : ℕ) : Fq) ^ 2 = 1 ^ 2 * 1 + (3 : ℕ)
    norm_num
  · refine List.forall_mem_cons.mpr ⟨⟨[none], ?_, by with_reducible rfl⟩, by simp⟩
    exact List.forall_mem_cons.mpr ⟨trivial, by simp⟩

theorem exampleSections_length : (zkeyMagic ++ leBytes 4 1 ++ leBytes 4 exampleSections.length ++
    exampleSections.flatMap ZkeySection.spell).length = 368 := by
  simp [exampleSections, ZkeySection.spell, spellSection_length, storedPoint_length writeLimbs_length,
    storedPoint_length writeLimbs2_length, zkeyMagic, zkeySectionHeaderBytes]

noncomputable def exampleZkey : SnarkjsZkey arkworks where
  version := 1
  sections := exampleSections
  version_lt := by decide
  supported := by decide
  id_lt := by simp [exampleSections]
  wellFormed := exampleSections_wellFormed
  word := by
    rw [exampleSections_length]
    decide

/-- SHA-256 of the zkey. -/
def exampleSha256 : Vector UInt8 32 :=
  #v[0x18, 0x35, 0xb5, 0x40, 0xf5, 0x96, 0x4b, 0x0a, 0xd4, 0xa6, 0xc6, 0x2a, 0x31, 0x02, 0xb0, 0xcf,
    0x47, 0x49, 0xf3, 0xee, 0x75, 0xb6, 0x2e, 0x84, 0xc4, 0xd4, 0x33, 0xb0, 0x0c, 0xe3, 0xa8, 0x45]

theorem compact_restores_example : ∃ file,
    encode rawDecoder (fun _ => exampleSha256) arkworks fourGigabytes exampleZkey.bytes rawFrame =
      .ok file ∧
    inflate rawDecoder (fun _ => exampleSha256) arkworks fourGigabytes file 368 =
      .ok exampleZkey.bytes := by
  have h := compact_restores rawDecoder (fun _ => exampleSha256) arkworks fourGigabytes rawFrame
  have hlength : exampleZkey.bytes.length = 368 := exampleSections_length
  have hbody : Reserves fourGigabytes
      (bodyCapacity exampleZkey.bytes.length exampleZkey.sections.length) := by
    rw [hlength]
    decide
  have hreserve : Reserves fourGigabytes exampleZkey.bytes.length := by
    rw [hlength]
    decide
  obtain ⟨file, hfile⟩ :=
    h.2 ⟨arkG1_documented, arkG2_documented⟩ rawFrame_roundTrip exampleZkey hbody hreserve
  exact ⟨file, hfile, (h.1 _ _ hfile 368 hlength.le).1⟩

end Curvy.Prover.CompactZkey
