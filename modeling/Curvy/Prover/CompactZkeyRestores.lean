import Curvy.Prover.CompactZkeyBounds

/-!
# A compact zkey restores the original

The encoder decodes what it wrote before it answers, so an encoded file always decodes. It
answers for every zkey whose points are stored canonically and lie on their curves.
-/

namespace Curvy.Prover.CompactZkey

set_option autoImplicit false

open Decoder

/-! ### Points -/

section Point
variable {F : Type} [Field F]

/-- What arkworks documents of its order and of its compressed points. -/
structure ArkCurve.Documented (curve : ArkCurve F) (size : Nat) (infinity : List UInt8) : Prop where
  asymm : ∀ a b, curve.less a b = true → curve.less b a = false
  total : ∀ a b, a ≠ b → curve.less a b = true ∨ curve.less b a = true
  coeffB : curve.coeffB ≠ 0
  length : ∀ point, (curve.serializeCompressed point).length = size
  identity : curve.serializeCompressed none = infinity
  infinity : ∃ x, curve.deserializeWithFlags infinity = some (x, .pointAtInfinity)
  finite : ∀ x y, curve.deserializeWithFlags (curve.serializeCompressed (some (x, y))) =
    some (x, if curve.less (-y) y then .yIsNegative else .yIsPositive)

/-- The identity or a point of the curve. -/
def OnCurve (curve : ArkCurve F) : Affine F → Prop
  | none => True
  | some (x, y) => y ^ 2 = x ^ 2 * x + curve.coeffB

variable {curve : ArkCurve F} {size : Nat} {infinity : List UInt8}

/-- Whichever root is found, the sign names `y`. -/
theorem chooseRoot_sign (h : curve.Documented size infinity) {root y : F}
    (hroot : root = y ∨ root = -y) :
    chooseRoot curve root (if curve.less (-y) y then .yIsNegative else .yIsPositive) = y := by
  have hself : curve.less y (-y) = false → curve.less (-y) y = false → -y = y := by
    intro hright hleft
    by_contra hne
    rcases h.total (-y) y hne with hless | hless
    · rw [hleft] at hless
      cases hless
    · rw [hright] at hless
      cases hless
  unfold chooseRoot
  by_cases hsign : curve.less (-y) y = true
  · have hright := h.asymm _ _ hsign
    rcases hroot with rfl | rfl
    · simp [hsign, hright]
    · simp [hsign]
  · rw [Bool.not_eq_true] at hsign
    rcases hroot with rfl | rfl
    · cases hright : curve.less root (-root) with
      | true => simp [hsign, hright]
      | false => simp [hself hright hsign]
    · simp [hsign]

theorem decodePoint_compressed (h : curve.Documented size infinity) {rawSize : Nat}
    {sqrt : F → Option (Option F)} (hsqrt : ∀ a, FindsRoot a (sqrt a)) {write : F → List UInt8}
    (hzero : write 0 ++ write 0 = List.replicate rawSize 0) {point : Affine F}
    (hpoint : OnCurve curve point) : decodePoint curve infinity rawSize sqrt write
      (curve.serializeCompressed point) = some (some (storedPoint write point)) := by
  unfold decodePoint
  cases point with
  | none =>
    obtain ⟨x, hx⟩ := h.infinity
    rw [h.identity, hx, storedPoint, hzero]
    dsimp only
    rw [if_pos rfl, if_neg (not_not.mpr rfl)]
    rfl
  | some point =>
    obtain ⟨x, y⟩ := point
    have hcurve : y ^ 2 = x ^ 2 * x + curve.coeffB := hpoint
    obtain ⟨hruns, hroot, hfinds⟩ := hsqrt (x ^ 2 * x + curve.coeffB)
    obtain ⟨answer, hanswer⟩ := Option.isSome_iff_exists.mp hruns
    have hflags : ¬ (if curve.less (-y) y then SWFlags.yIsNegative else .yIsPositive) =
        .pointAtInfinity := by
      split <;> exact fun h => by cases h
    rw [h.finite]
    dsimp only
    rw [if_neg hflags, hanswer]
    cases answer with
    | none => exact absurd hanswer (hfinds ⟨y, by rw [← hcurve, pow_two]⟩)
    | some root =>
      have hsquare : root ^ 2 = y ^ 2 := (hroot root hanswer).trans hcurve.symm
      have hchosen := chooseRoot_sign h (sq_eq_sq_iff_eq_or_eq_neg.mp hsquare)
      change some (some (write x ++ write (chooseRoot curve root _))) = _
      rw [hchosen]
      rfl

/-- A whole point section: the encoder's piece restores it. -/
theorem encodePoints_restores (h : curve.Documented size infinity) {rawSize : Nat}
    {sqrt : F → Option (Option F)} (hsqrt : ∀ a, FindsRoot a (sqrt a)) {write : F → List UInt8}
    (hzero : write 0 ++ write 0 = List.replicate rawSize 0) {deserialize : ZkeyReader (Affine F)}
    (hexact : Exact deserialize (fun point => point ≠ some (0, 0)) (storedPoint write))
    (lossy : String → CompactZkeyError) {points : List (Affine F)}
    (hpoints : ∀ point ∈ points, OnCurve curve point) (index : Nat) :
    ∃ piece, encodePoints lossy curve deserialize index (points.map (storedPoint write)) = .ok piece ∧
      PointsRestore (decodePoint curve infinity rawSize sqrt write) size points.length piece
        (points.flatMap (storedPoint write)) := by
  induction points generalizing index with
  | nil => exact ⟨[], rfl, .nil⟩
  | cons point points ih =>
    obtain ⟨hpoint, hrest⟩ := List.forall_mem_cons.mp hpoints
    obtain ⟨piece, hpiece, hrestore⟩ := ih hrest (index + 1)
    have hne : point ≠ some (0, 0) := by
      rintro rfl
      refine h.coeffB ?_
      have hcurve : (0 : F) ^ 2 = 0 ^ 2 * 0 + curve.coeffB := hpoint
      simpa using hcurve.symm
    have hread : deserialize (storedPoint write point) = .ok (point, []) := by
      have := hexact.reads hne []
      rwa [List.append_nil] at this
    refine ⟨curve.serializeCompressed point ++ piece, ?_, ?_⟩
    · rw [List.map_cons, encodePoints, hread]
      dsimp only
      rw [hpiece]
      rfl
    · rw [List.flatMap_cons, List.length_cons]
      exact .cons (h.length point) (decodePoint_compressed h hsqrt hzero hpoint) hrestore

end Point

/-! ### Coefficients -/

section Coefficients

/-- Records whose first `filled` bytes are in place. -/
def stage (filled : Nat) (records : List (List UInt8)) : List UInt8 :=
  records.flatMap fun record => record.take filled ++ List.replicate (coefficientRaw - filled) 0

variable {records : List (List UInt8)} (hrecords : ∀ r ∈ records, r.length = coefficientRaw)
include hrecords

theorem stage_column (offset width : Nat) (hwithin : offset + width ≤ coefficientRaw) :
    ColumnRestores offset width (stage offset records)
      (records.flatMap fun record => (record.drop offset).take width)
      (stage (offset + width) records) := by
  induction records with
  | nil => exact .nil
  | cons record records ih =>
    obtain ⟨hrecord, hrest⟩ := List.forall_mem_cons.mp hrecords
    have htake : (record.take offset).length = offset := by
      rw [List.length_take, hrecord]
      omega
    have hstage : (record.take offset ++ List.replicate (coefficientRaw - offset) (0 : UInt8)).length =
        coefficientRaw := by
      rw [List.length_append, htake, List.length_replicate]
      omega
    have hvalue : ((record.drop offset).take width).length = width := by
      rw [List.length_take, List.length_drop, hrecord]
      omega
    have hcons := ColumnRestores.cons hstage hvalue (ih hrest)
    have hdrop : (record.take offset ++ List.replicate (coefficientRaw - offset) (0 : UInt8)).drop
        (offset + width) = List.replicate (coefficientRaw - (offset + width)) 0 := by
      rw [List.drop_append, htake, List.drop_eq_nil_of_le (by omega), List.nil_append,
        List.drop_replicate]
      congr 1
      omega
    rw [List.take_left' htake, ← List.take_add, hdrop] at hcons
    exact hcons

theorem stage_zero : stage 0 records = List.replicate (records.length * coefficientRaw) 0 := by
  induction records with
  | nil => rfl
  | cons record records ih =>
    obtain ⟨_, hrest⟩ := List.forall_mem_cons.mp hrecords
    rw [stage, List.flatMap_cons, ← stage, ih hrest, List.take_zero, List.nil_append, Nat.sub_zero,
      ← List.replicate_add, List.length_cons, Nat.succ_mul, Nat.add_comm]

theorem stage_full : stage coefficientRaw records = records.flatten := by
  induction records with
  | nil => rfl
  | cons record records ih =>
    obtain ⟨hrecord, hrest⟩ := List.forall_mem_cons.mp hrecords
    rw [stage, List.flatMap_cons, ← stage, ih hrest, List.take_of_length_le hrecord.le, Nat.sub_self,
      List.replicate_zero, List.append_nil, List.flatten_cons]

/-- The four columns fill empty records one after another. -/
theorem columns_restore : ColumnsRestore coefficientColumns
    (List.replicate (records.length * coefficientRaw) 0)
    (coefficientColumns.flatMap fun column =>
      records.flatMap fun record => (record.drop column.1).take column.2) records.flatten := by
  have hvalue := ColumnsRestore.cons (stage_column hrecords 12 32 (by decide)) (.nil _)
  have hsignal := ColumnsRestore.cons (stage_column hrecords 8 4 (by decide)) hvalue
  have hconstraint := ColumnsRestore.cons (stage_column hrecords 4 4 (by decide)) hsignal
  have hmatrix := ColumnsRestore.cons (stage_column hrecords 0 4 (by decide)) hconstraint
  rw [← stage_zero hrecords, ← stage_full hrecords]
  exact hmatrix

end Coefficients

/-! ### Sections -/

/-- A section of a zkey file. -/
structure ZkeySection where
  id : Nat
  bytes : List UInt8

/-- Whole stored points that are the identity or lie on the curve. -/
def StoredPoints {F : Type} [Field F] (curve : ArkCurve F) (write : F → List UInt8)
    (bytes : List UInt8) : Prop :=
  ∃ points : List (Affine F), (∀ point ∈ points, OnCurve curve point) ∧
    bytes = points.flatMap (storedPoint write)

/-- A count followed by that many coefficients. -/
def CountedCoefficients (bytes : List UInt8) : Prop :=
  ∃ head records, head.length = 4 ∧ records.length = leNat head * coefficientRaw ∧
    bytes = head ++ records

/-- What the id of a section promises of its bytes. -/
def ZkeySection.WellFormed (ark : Arkworks) (s : ZkeySection) : Prop :=
  match SectionEncoding.forSection s.id with
  | .raw => True
  | .g1 => StoredPoints ark.g1 writeLimbs s.bytes
  | .g2 => StoredPoints ark.g2 writeLimbs2 s.bytes
  | .coefficients => CountedCoefficients s.bytes

def ZkeySection.entry (s : ZkeySection) : CompactSection :=
  ⟨s.id, s.bytes.length, .forSection s.id⟩

structure Arkworks.Documented (ark : Arkworks) : Prop where
  g1 : ark.g1.Documented g1Compact g1Infinity
  g2 : ark.g2.Documented g2Compact g2Infinity

theorem storedPoint_length {F : Type} [Zero F] {write : F → List UInt8} {size : Nat}
    (hwrite : ∀ x, (write x).length = size) (point : Affine F) :
    (storedPoint write point).length = size + size := by
  cases point <;> simp [storedPoint, hwrite]

/-- Stored points are the chunks of their section. -/
theorem storedPoints_chunks {F : Type} [Zero F] {write : F → List UInt8} {size : Nat}
    (hpos : 0 < size + size) (hwrite : ∀ x, (write x).length = size) (points : List (Affine F)) :
    (points.flatMap (storedPoint write)).chunks (size + size) = points.map (storedPoint write) ∧
      (points.flatMap (storedPoint write)).length = points.length * (size + size) := by
  have hall : ∀ c ∈ points.map (storedPoint write), c.length = size + size := by
    intro c hc
    obtain ⟨point, _, rfl⟩ := List.mem_map.mp hc
    exact storedPoint_length hwrite point
  rw [List.flatMap_def]
  exact ⟨List.chunks_flatten hpos hall, by rw [List.length_flatten_of_forall hall, List.length_map]⟩

theorem writeLimbs_double_zero :
    writeLimbs 0 ++ writeLimbs 0 = List.replicate g1Raw 0 := by
  rw [writeLimbs_zero, ← List.replicate_add]
  rfl

theorem writeLimbs2_double_zero :
    writeLimbs2 0 ++ writeLimbs2 0 = List.replicate g2Raw 0 := by
  have hzero : writeLimbs2 0 = List.replicate 64 0 := by
    rw [writeLimbs2, QuadraticAlgebra.re_zero, QuadraticAlgebra.im_zero, writeLimbs_zero,
      ← List.replicate_add]
  rw [hzero, ← List.replicate_add]
  rfl

/-- A section of stored points, cut into its points. -/
theorem pointSection_restores {F : Type} [Field F] {curve : ArkCurve F} {size rawSize width : Nat}
    {infinity : List UInt8} (h : curve.Documented size infinity) {sqrt : F → Option (Option F)}
    (hsqrt : ∀ a, FindsRoot a (sqrt a)) {write : F → List UInt8} (hraw : rawSize = width + width)
    (hpos : 0 < width) (hwrite : ∀ x, (write x).length = width)
    (hzero : write 0 ++ write 0 = List.replicate rawSize 0) {deserialize : ZkeyReader (Affine F)}
    (hexact : Exact deserialize (fun point => point ≠ some (0, 0)) (storedPoint write))
    (lossy : String → CompactZkeyError) {bytes : List UInt8}
    (hbytes : StoredPoints curve write bytes) :
    ∃ piece, encodePoints lossy curve deserialize 0 (bytes.chunks rawSize) = .ok piece ∧
      PointsRestore (decodePoint curve infinity rawSize sqrt write) size
        ((List.replicate bytes.length (0 : UInt8)).length / rawSize) piece bytes ∧
      bytes.length % rawSize = 0 := by
  obtain ⟨points, hpoints, rfl⟩ := hbytes
  have hdouble : 0 < width + width := Nat.add_pos_left hpos _
  obtain ⟨hchunks, hlength⟩ := storedPoints_chunks hdouble hwrite points
  obtain ⟨piece, hpiece, hrestore⟩ := encodePoints_restores h hsqrt hzero hexact lossy hpoints 0
  have hcount : (points.flatMap (storedPoint write)).length / rawSize = points.length := by
    rw [hlength, hraw, Nat.mul_div_cancel _ hdouble]
  refine ⟨piece, ?_, ?_, ?_⟩
  · rw [hraw, hchunks]
    exact hpiece
  · rw [List.length_replicate, hcount]
    exact hrestore
  · rw [hlength, hraw]
    exact Nat.mul_mod_left _ _

theorem encodeCoefficients_restores (ark : Arkworks) {s : ZkeySection}
    (hencoding : SectionEncoding.forSection s.id = .coefficients) (h : CountedCoefficients s.bytes)
    (hword : s.bytes.length < 2 ^ 64) : ∃ piece, encodeSection ark s.entry s.bytes = .ok piece ∧
      CoefficientsRestore s.entry (List.replicate s.bytes.length 0) piece s.bytes := by
  obtain ⟨head, body, hhead, hbody, hbytes⟩ := h
  obtain ⟨records, hcount, hrecords, rfl⟩ := List.exists_chunks hbody
  have hpos : 0 < coefficientRaw := by decide
  have htake : s.bytes.take 4 = head := by rw [hbytes, List.take_left' hhead]
  have hdrop : s.bytes.drop 4 = records.flatten := by rw [hbytes, List.drop_left' hhead]
  have hlength : s.bytes.length = records.length * coefficientRaw + 4 := by
    rw [hbytes, List.length_append, hhead, hbody, hcount, Nat.add_comm]
  have hlong : ¬ s.bytes.length < 4 := by omega
  have hok : coefficientCount s.entry (some head) = .ok (leNat head) := by
    refine (coefficientCount_ok hhead).mpr ⟨rfl, ?_, ?_⟩
    · rw [← hcount]
      omega
    · rw [← hcount]
      exact hlength.symm
  -- the encoder writes the last column to the end of the record
  have hvalues : (records.flatMap fun record => record.drop 12) =
      records.flatMap fun record => (record.drop 12).take 32 := by
    refine List.flatMap_congr fun record hmem => ?_
    rw [List.take_of_length_le]
    rw [List.length_drop, hrecords record hmem]
    decide
  have hregion : (List.replicate s.bytes.length (0 : UInt8)).drop 4 =
      List.replicate (records.length * coefficientRaw) 0 := by
    rw [List.drop_replicate, hlength, Nat.add_sub_cancel]
  have hcolumns := columns_restore hrecords
  rw [← hregion] at hcolumns
  refine ⟨_, ?_, head, _, records.flatten, hhead, ⟨_, hok⟩, hcolumns, rfl, hbytes⟩
  unfold encodeSection
  rw [show s.entry.encoding = .coefficients from hencoding]
  dsimp only
  rw [if_neg hlong, htake, hdrop, List.chunks_flatten hpos hrecords, hvalues, hok]
  simp [coefficientColumns, Pure.pure, Except.pure]

theorem encodeSection_restores {ark : Arkworks} (h : ark.Documented) {s : ZkeySection}
    (hsection : s.WellFormed ark) (hword : s.bytes.length < 2 ^ 64) :
    ∃ piece, encodeSection ark s.entry s.bytes = .ok piece ∧
      SectionRestores ark s.entry (List.replicate s.bytes.length 0) piece s.bytes ∧
        s.bytes.length % s.entry.encoding.unit = 0 := by
  have hentry : s.entry.encoding = .forSection s.id := rfl
  unfold ZkeySection.WellFormed at hsection
  unfold SectionRestores
  rw [hentry]
  cases hencoding : SectionEncoding.forSection s.id with
  | raw =>
    refine ⟨s.bytes, ?_, ⟨List.length_replicate.symm, rfl⟩, Nat.mod_one _⟩
    rw [encodeSection, hentry, hencoding]
    rfl
  | g1 =>
    rw [hencoding] at hsection
    obtain ⟨piece, hpiece, hrestore, hwhole⟩ := pointSection_restores h.g1 sqrtFq_finds
      (show g1Raw = 32 + 32 from rfl) (by decide) writeLimbs_length writeLimbs_double_zero
      deserializeG1_exact (fun what => .lossy s!"section {s.entry.id}: {what}") hsection
    refine ⟨piece, ?_, hrestore, hwhole⟩
    unfold encodeSection
    rw [hentry, hencoding]
    dsimp only
    exact Fallible.bind_ok.mpr ⟨(), Panic.refuse_ok.mpr (not_not.mpr hwhole), hpiece⟩
  | g2 =>
    rw [hencoding] at hsection
    obtain ⟨piece, hpiece, hrestore, hwhole⟩ := pointSection_restores h.g2 sqrtFq2_finds
      (show g2Raw = 64 + 64 from rfl) (by decide) writeLimbs2_length writeLimbs2_double_zero
      deserializeG2_exact (fun what => .lossy s!"section {s.entry.id}: {what}") hsection
    refine ⟨piece, ?_, hrestore, hwhole⟩
    unfold encodeSection
    rw [hentry, hencoding]
    dsimp only
    exact Fallible.bind_ok.mpr ⟨(), Panic.refuse_ok.mpr (not_not.mpr hwhole), hpiece⟩
  | coefficients =>
    rw [hencoding] at hsection
    obtain ⟨piece, hpiece, hrestore⟩ := encodeCoefficients_restores ark hencoding hsection hword
    exact ⟨piece, hpiece, hrestore, Nat.mod_one _⟩

/-! ### Files -/

def ZkeySection.spell (s : ZkeySection) : List UInt8 := spellSection s.entry ++ s.bytes

def ZkeySection.listed (s : ZkeySection) : CompactSection × List UInt8 := (s.entry, s.bytes)

/-- A zkey as snarkjs writes it. -/
structure SnarkjsZkey (ark : Arkworks) where
  version : Nat
  sections : List ZkeySection
  version_lt : version < 2 ^ 32
  supported : sections.length ≤ maxSections
  id_lt : ∀ s ∈ sections, s.id < 2 ^ 32
  wellFormed : ∀ s ∈ sections, s.WellFormed ark
  word : (zkeyMagic ++ leBytes 4 version ++ leBytes 4 sections.length ++
    sections.flatMap ZkeySection.spell).length < 2 ^ 64

def SnarkjsZkey.bytes {ark : Arkworks} (zkey : SnarkjsZkey ark) : List UInt8 :=
  zkeyMagic ++ leBytes 4 zkey.version ++ leBytes 4 zkey.sections.length ++
    zkey.sections.flatMap ZkeySection.spell

/-- The zstd decoder delivers `body` and finds nothing wrong. -/
structure FrameOf (zstd : ZstdDecoder) (compressed body : List UInt8) (frame : Frame) : Prop where
  opens : zstd compressed = .ok frame
  body : frame.body = body
  failure : frame.failure = none
  checksum : frame.checksumFromData.isSome → frame.calculatedChecksum = frame.checksumFromData
  source : frame.source = []

/-- The zstd frame of a body decodes to the body. -/
def ZstdRoundTrip (zstd : ZstdDecoder) (compress : List UInt8 → List UInt8) : Prop :=
  ∀ body, ∃ frame, FrameOf zstd (compress body) body frame

theorem layoutFrom_spell {sections : List ZkeySection} (hid : ∀ s ∈ sections, s.id < 2 ^ 32)
    (hword : (sections.flatMap ZkeySection.spell).length < 2 ^ 64) :
    layoutFrom sections.length (sections.flatMap ZkeySection.spell) =
      .ok (sections.map ZkeySection.listed) := by
  induction sections with
  | nil => rfl
  | cons s sections ih =>
    obtain ⟨hs, hrest⟩ := List.forall_mem_cons.mp hid
    rw [List.flatMap_cons] at hword ⊢
    generalize htail : sections.flatMap ZkeySection.spell = tail at hword ih ⊢
    have hheader := spellSection_length s.entry
    have hlength : (s.spell ++ tail).length =
        zkeySectionHeaderBytes + s.bytes.length + tail.length := by
      rw [ZkeySection.spell, List.length_append, List.length_append, hheader]
    rw [hlength] at hword
    have hspell : s.spell ++ tail = leBytes 4 s.id ++ (leBytes 8 s.bytes.length ++ (s.bytes ++ tail)) := by
      simp only [ZkeySection.spell, spellSection, ZkeySection.entry, List.append_assoc]
    have hfour : (leBytes 4 s.id).length = 4 := leBytes_length _ _
    have hid' : u32At (s.spell ++ tail) 0 = .ok s.id := by
      rw [u32At, intAt_of_le (by rw [hlength, zkeySectionHeaderBytes]; omega), List.drop_zero,
        hspell, List.take_left' hfour, leNat_leBytes hs]
    have hsize : u64At (s.spell ++ tail) 4 = .ok s.bytes.length := by
      rw [u64At, intAt_of_le (by rw [hlength, zkeySectionHeaderBytes]; omega), hspell,
        List.drop_left' hfour, List.take_left' (leBytes_length _ _), leNat_leBytes (by omega)]
    have hdrop : (s.spell ++ tail).drop zkeySectionHeaderBytes = s.bytes ++ tail := by
      rw [ZkeySection.spell, List.append_assoc, List.drop_left' hheader]
    rw [List.length_cons, layoutFrom, hid', hsize, hdrop]
    refine Fallible.bind_ok.mpr ⟨(), Panic.refuse_ok.mpr (by rw [hlength]; omega), ?_⟩
    refine Fallible.bind_ok.mpr ⟨_, rfl, Fallible.bind_ok.mpr ⟨_, rfl, ?_⟩⟩
    refine Fallible.bind_ok.mpr ⟨(), Panic.refuse_ok.mpr (by rw [List.length_append]; omega), ?_⟩
    rw [List.drop_left, List.take_left]
    exact Fallible.bind_ok.mpr ⟨_, ih hrest (by omega), rfl⟩

theorem zkeyLayout_bytes {ark : Arkworks} (zkey : SnarkjsZkey ark) : zkeyLayout zkey.bytes =
    .ok (zkey.version, zkey.sections.map ZkeySection.listed) := by
  obtain ⟨version, sections, hversion, hcount, hid, _, hword⟩ := zkey
  have hmagic : zkeyMagic.length = 4 := rfl
  have hheader := zkeyHeader_length version sections.length
  have hsmall : sections.length < 2 ^ 32 := by
    rw [maxSections] at hcount
    omega
  have hlength : 12 ≤ (zkeyMagic ++ leBytes 4 version ++ leBytes 4 sections.length ++
      sections.flatMap ZkeySection.spell).length := by
    rw [List.length_append, hheader, zkeyHeaderBytes]
    omega
  have htail : (sections.flatMap ZkeySection.spell).length < 2 ^ 64 := by
    rw [List.length_append] at hword
    omega
  unfold SnarkjsZkey.bytes zkeyLayout
  dsimp only
  have hstart : ¬ ((zkeyMagic ++ leBytes 4 version ++ leBytes 4 sections.length ++
      sections.flatMap ZkeySection.spell).length < zkeyHeaderBytes ∨
      (zkeyMagic ++ leBytes 4 version ++ leBytes 4 sections.length ++
        sections.flatMap ZkeySection.spell).take 4 ≠ zkeyMagic) := by
    rw [not_or, not_not, zkeyHeaderBytes, List.append_assoc, List.append_assoc,
      List.take_left' hmagic]
    refine ⟨?_, rfl⟩
    rw [List.append_assoc, List.append_assoc] at hlength
    exact Nat.not_lt.mpr hlength
  have hversion' : u32At (zkeyMagic ++ leBytes 4 version ++ leBytes 4 sections.length ++
      sections.flatMap ZkeySection.spell) 4 = .ok version := by
    rw [u32At, intAt_of_le (by omega), List.append_assoc, List.append_assoc,
      List.drop_left' hmagic, List.take_left' (leBytes_length _ _), leNat_leBytes hversion]
  have hfront : (zkeyMagic ++ leBytes 4 version).length = 8 := by
    rw [List.length_append, hmagic, leBytes_length]
  have hcount' : u32At (zkeyMagic ++ leBytes 4 version ++ leBytes 4 sections.length ++
      sections.flatMap ZkeySection.spell) 8 = .ok sections.length := by
    rw [u32At, intAt_of_le (by omega), List.append_assoc (zkeyMagic ++ _), List.drop_left' hfront,
      List.take_left' (leBytes_length _ _), leNat_leBytes hsmall]
  refine Fallible.bind_ok.mpr ⟨(), Panic.refuse_ok.mpr hstart, ?_⟩
  refine Fallible.bind_ok.mpr ⟨_, hversion', Fallible.bind_ok.mpr ⟨_, hcount', ?_⟩⟩
  refine Fallible.bind_ok.mpr ⟨(), Panic.refuse_ok.mpr (Nat.not_lt.mpr hcount), ?_⟩
  rw [List.drop_left' hheader]
  exact Fallible.bind_ok.mpr ⟨_, layoutFrom_spell hid htail, rfl⟩

/-- The payload the encoder writes restores the sections. -/
theorem encodeSections_restores {ark : Arkworks} (h : ark.Documented) {sections : List ZkeySection}
    (hsections : ∀ s ∈ sections, s.WellFormed ark)
    (hword : ∀ s ∈ sections, s.bytes.length < 2 ^ 64) (zkey : List UInt8) :
    ∃ payload, encodeSections ark (sections.map ZkeySection.listed) = .ok payload ∧
      SectionsRestore ark (sections.map ZkeySection.entry) zkey payload
        (zkey ++ sections.flatMap ZkeySection.spell) := by
  induction sections generalizing zkey with
  | nil =>
    refine ⟨[], rfl, ?_⟩
    rw [List.flatMap_nil, List.append_nil]
    exact .nil zkey
  | cons s sections ih =>
    obtain ⟨hs, hrest⟩ := List.forall_mem_cons.mp hsections
    obtain ⟨hsword, hrestword⟩ := List.forall_mem_cons.mp hword
    obtain ⟨piece, hpiece, hrestore, _⟩ := encodeSection_restores h hs hsword
    obtain ⟨payload, hpayload, hall⟩ := ih hrest hrestword (zkey ++ spellSection s.entry ++ s.bytes)
    refine ⟨piece ++ payload, ?_, ?_⟩
    · exact Fallible.bind_ok.mpr ⟨_, hpiece, Fallible.bind_ok.mpr ⟨_, hpayload, rfl⟩⟩
    · rw [List.flatMap_cons, ZkeySection.spell, ← List.append_assoc, ← List.append_assoc]
      exact .cons hrestore hall

/-! ### The round trip -/

section RoundTrip
variable {zstd : ZstdDecoder} {sha256 : Sha256} {ark : Arkworks}

/-- The allocator only matters for the reservation. -/
theorem decodeBody_reserves {grants : Allocator} {failure : Option IoError} {zkeySha256 : List UInt8}
    {zkeyBytes : Nat} {bytes zkey rest : List UInt8}
    (h : decodeBody sha256 ark grants failure zkeySha256 zkeyBytes bytes = .ok (zkey, rest))
    (grants' : Allocator) : decodeBody sha256 ark grants' failure zkeySha256 zkeyBytes bytes =
      if Reserves grants' zkeyBytes then .ok (zkey, rest) else fail (.allocationFailed zkeyBytes) := by
  obtain ⟨table, payload, htable, h₁⟩ := Decoder.bind_ok.mp h
  obtain ⟨_, hword, h₂⟩ := lift_bind_ok.mp h₁
  obtain ⟨_, _, h₃⟩ := lift_bind_ok.mp h₂
  by_cases hreserve : Reserves grants' zkeyBytes
  · rw [if_pos hreserve]
    refine Decoder.bind_ok.mpr ⟨table, payload, htable, lift_bind_ok.mpr ⟨(), hword, ?_⟩⟩
    exact lift_bind_ok.mpr ⟨(), Panic.refuse_ok.mpr (not_not.mpr hreserve), h₃⟩
  · rw [if_neg hreserve, decodeBody, bind_apply]
    refine Fallible.bind_error.mpr (.inr ⟨_, htable, ?_⟩)
    refine lift_bind_error.mpr (.inr ⟨(), hword, lift_bind_error.mpr (.inl ?_)⟩)
    exact if_pos hreserve

/-- What was decoded once is decoded under any limit that admits it, if its length is reserved. -/
theorem inflate_within {grants : Allocator} {file zkey : List UInt8} {maximum maximum' : Nat}
    (h : inflate zstd sha256 ark grants file maximum = .ok zkey) (hmax : zkey.length ≤ maximum')
    (grants' : Allocator) : inflate zstd sha256 ark grants' file maximum' =
      if Reserves grants' zkey.length then .ok zkey else fail (.allocationFailed zkey.length) := by
  have hlength := inflate_ok_length h
  obtain ⟨⟨⟨zkeySha256, zkeyBytes⟩, compressed⟩, hread, h₁⟩ := Fallible.bind_ok.mp h
  obtain ⟨_, ⟨hsha, hword, _, rfl⟩, rfl⟩ := ((readFileHeader_computes maximum).ok _ _ _).mp hread
  rw [declaredLength_spell hsha hword] at hlength
  have hread' := (readFileHeader_computes maximum').reads (a := (zkeySha256, zkeyBytes))
    ⟨hsha, hword, hlength ▸ hmax, rfl⟩ compressed
  obtain ⟨frame, hframe, h₂⟩ := Fallible.bind_ok.mp h₁
  obtain ⟨⟨decoded, remaining⟩, hbody, h₃⟩ := Fallible.bind_ok.mp h₂
  have hbody' := decodeBody_reserves hbody grants'
  rw [hlength]
  by_cases hreserve : Reserves grants' zkeyBytes
  · rw [if_pos hreserve] at hbody' ⊢
    exact Fallible.bind_ok.mpr ⟨_, hread', Fallible.bind_ok.mpr ⟨frame, hframe,
      Fallible.bind_ok.mpr ⟨_, hbody', h₃⟩⟩⟩
  · rw [if_neg hreserve] at hbody' ⊢
    exact Fallible.bind_error.mpr (.inr ⟨_, hread', Fallible.bind_error.mpr (.inr ⟨frame, hframe,
      Fallible.bind_error.mpr (.inl hbody')⟩)⟩)

/-- The encoder answers only when its file decodes to the zkey. -/
theorem encode_ok {grants : Allocator} {zkey file : List UInt8}
    {compress : List UInt8 → List UInt8} (h : encode zstd sha256 ark grants zkey compress = .ok file) :
    inflate zstd sha256 ark grants file zkey.length = .ok zkey := by
  obtain ⟨⟨version, layout⟩, _, h₁⟩ := Fallible.bind_ok.mp h
  obtain ⟨_, _, h₁⟩ := Fallible.bind_ok.mp h₁
  obtain ⟨sections, _, h₂⟩ := Fallible.bind_ok.mp h₁
  dsimp only at h₂
  split at h₂
  · cases h₂
  · cases h₂
  · rename_i decoded hdecoded
    split at h₂
    · cases h₂
    · rename_i hsame
      obtain rfl := Except.ok.inj h₂
      rw [hdecoded, not_not.mp hsame]

variable {compress : List UInt8 → List UInt8}

theorem SnarkjsZkey.length (zkey : SnarkjsZkey ark) : zkey.bytes.length =
    zkeyHeaderBytes + tableBytes (zkey.sections.map ZkeySection.entry) := by
  rw [SnarkjsZkey.bytes, List.length_append, zkeyHeader_length]
  congr 1
  induction zkey.sections with
  | nil => rfl
  | cons s sections ih =>
    rw [List.flatMap_cons, List.length_append, ih, List.map_cons, tableBytes_cons,
      ZkeySection.spell, List.length_append, spellSection_length]
    rfl

theorem SnarkjsZkey.section_word (zkey : SnarkjsZkey ark) :
    ∀ s ∈ zkey.sections, s.bytes.length < 2 ^ 64 := by
  intro s hs
  have hword : zkey.bytes.length < 2 ^ 64 := zkey.word
  have hwithin := (List.sublist_flatten_of_mem
    (List.mem_map_of_mem (f := ZkeySection.spell) hs)).length_le
  rw [← List.flatMap_def, ZkeySection.spell, List.length_append] at hwithin
  rw [SnarkjsZkey.bytes, List.length_append] at hword
  omega

/-- The table the encoder writes adds up to the zkey. -/
theorem SnarkjsZkey.table (zkey : SnarkjsZkey ark) (h : ark.Documented) :
    TableFits zkey.bytes.length zkey.version (zkey.sections.map ZkeySection.entry) where
  version := zkey.version_lt
  fit := by
    intro entry hentry
    obtain ⟨s, hs, rfl⟩ := List.mem_map.mp hentry
    have hword := zkey.section_word s hs
    obtain ⟨_, _, _, hwhole⟩ := encodeSection_restores h (zkey.wellFormed s hs) hword
    exact ⟨zkey.id_lt s hs, hword, hwhole⟩
  count := by
    rw [List.length_map]
    exact zkey.supported
  total := zkey.length.symm
  word := zkey.word

/-- What the body is made of. -/
def SnarkjsZkey.body (zkey : SnarkjsZkey ark) (payload : List UInt8) : List UInt8 :=
  spellTable zkey.version (zkey.sections.map ZkeySection.entry) ++ payload

/-- What follows the magic of a zkey: its header. -/
def SnarkjsZkey.header (zkey : SnarkjsZkey ark) : List UInt8 :=
  zkeyMagic ++ leBytes 4 zkey.version ++ leBytes 4 zkey.sections.length

theorem inflate_answers (sha256 : Sha256) {grants : Allocator} {zkey : SnarkjsZkey ark}
    {payload compressed : List UInt8} {frame : Frame} (hreserve : Reserves grants zkey.bytes.length)
    (htable : TableFits zkey.bytes.length zkey.version (zkey.sections.map ZkeySection.entry))
    (hrestore : SectionsRestore ark (zkey.sections.map ZkeySection.entry) zkey.header payload zkey.bytes)
    (hframe : FrameOf zstd compressed (zkey.body payload) frame) :
    inflate zstd sha256 ark grants (spellFileHeader (sha256 zkey.bytes).toList zkey.bytes.length ++
      compressed) zkey.bytes.length = .ok zkey.bytes := by
  have hsha : (sha256 zkey.bytes).toList.length = 32 := Vector.length_toList
  have hread := (readFileHeader_computes zkey.bytes.length).reads
    (a := ((sha256 zkey.bytes).toList, zkey.bytes.length)) ⟨hsha, htable.word, Nat.le_refl _, rfl⟩
    compressed
  have hloop := ((htable.loop ark frame.failure payload).ok zkey.bytes []).mpr
    ⟨payload, by rw [List.length_map]; exact hrestore, (List.append_nil _).symm⟩
  have hdecode : decodeBody sha256 ark grants frame.failure (sha256 zkey.bytes).toList zkey.bytes.length
      frame.body = .ok (zkey.bytes, []) := by
    rw [hframe.body]
    refine Decoder.bind_ok.mpr ⟨_, _, (readBodyHeader_computes frame.failure _).reads
      (a := (zkey.version, zkey.sections.map ZkeySection.entry)) ⟨htable, rfl⟩ payload, ?_⟩
    refine lift_bind_ok.mpr ⟨(), Panic.refuse_ok.mpr (Nat.not_le.mpr htable.word), ?_⟩
    refine lift_bind_ok.mpr ⟨(), Panic.refuse_ok.mpr (not_not.mpr hreserve), ?_⟩
    refine Decoder.bind_ok.mpr ⟨_, _, hloop, ?_⟩
    exact lift_bind_ok.mpr ⟨(), Panic.refuse_ok.mpr (fun h => h rfl), rfl⟩
  refine Fallible.bind_ok.mpr ⟨_, hread, ?_⟩
  refine Fallible.bind_ok.mpr ⟨frame, zstdDecoder_ok.mpr hframe.opens, ?_⟩
  refine Fallible.bind_ok.mpr ⟨_, hdecode, ?_⟩
  rw [hframe.failure, hframe.source]
  refine Fallible.bind_ok.mpr ⟨false, rfl, Fallible.bind_ok.mpr ⟨(), rfl, ?_⟩⟩
  refine Fallible.bind_ok.mpr ⟨(), Panic.refuse_ok.mpr (fun h => h.2 (hframe.checksum h.1)), ?_⟩
  exact Fallible.bind_ok.mpr ⟨false, rfl, Fallible.bind_ok.mpr ⟨(), rfl, rfl⟩⟩

theorem encode_answers (sha256 : Sha256) {grants : Allocator} (h : ark.Documented)
    (hzstd : ZstdRoundTrip zstd compress) (zkey : SnarkjsZkey ark)
    (hbody : Reserves grants (bodyCapacity zkey.bytes.length zkey.sections.length))
    (hreserve : Reserves grants zkey.bytes.length) :
    ∃ file, encode zstd sha256 ark grants zkey.bytes compress = .ok file := by
  obtain ⟨payload, hpayload, hrestore⟩ :=
    encodeSections_restores h zkey.wellFormed zkey.section_word zkey.header
  have htable := zkey.table h
  obtain ⟨frame, hframe⟩ := hzstd (zkey.body payload)
  have hinflate := inflate_answers sha256 hreserve htable hrestore hframe
  have hspell : leBytes 4 zkey.version ++ leBytes 4 (zkey.sections.map ZkeySection.listed).length ++
      (zkey.sections.map ZkeySection.listed).flatMap (fun entry => spellEntry entry.1) ++ payload =
      zkey.body payload := by
    simp only [SnarkjsZkey.body, spellTable, List.length_map, List.flatMap_map, List.append_assoc]
    rfl
  refine ⟨spellFileHeader (sha256 zkey.bytes).toList zkey.bytes.length ++
    compress (zkey.body payload), ?_⟩
  refine Fallible.bind_ok.mpr ⟨_, zkeyLayout_bytes zkey, ?_⟩
  refine Fallible.bind_ok.mpr ⟨(), ?_, Fallible.bind_ok.mpr ⟨payload, hpayload, ?_⟩⟩
  · rw [List.length_map]
    exact Panic.refuse_ok.mpr (not_not.mpr hbody)
  have hfile : magic ++ (sha256 zkey.bytes).toList ++ leBytes 8 zkey.bytes.length ++
      compress (zkey.body payload) =
        spellFileHeader (sha256 zkey.bytes).toList zkey.bytes.length ++ compress (zkey.body payload) := by
    rw [spellFileHeader, List.append_assoc magic]
  dsimp only
  rw [hspell, hfile, hinflate]
  exact if_neg (fun h => h rfl)

end RoundTrip

end Curvy.Prover.CompactZkey
