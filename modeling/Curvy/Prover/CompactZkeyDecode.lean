import Curvy.Prover.CompactZkey

/-!
# What the section decoders compute

Each decoder of a section reads a piece of the body and nothing else, and restores the
section from it. Batches leave no trace: a section is restored point by point, and a column
record by record.
-/

namespace Curvy.Prover.CompactZkey

set_option autoImplicit false

open Decoder

/-! ### Calls -/

theorem require_pos {fine : Prop} [Decidable fine] (h : fine) : require fine = .ok () := if_pos h

theorem word_of_lt {value : Nat} (h : value < 2 ^ 64) : word value = .ok value := if_pos h

theorem intAt_of_le {bytes : List UInt8} {offset width : Nat} (h : offset + width ≤ bytes.length) :
    intAt bytes offset width = .ok (leNat ((bytes.drop offset).take width)) := by
  rw [intAt, require_pos h, Fallible.ok_bind]
  rfl

theorem readExact_computes (failure : Option IoError) (count : Nat) :
    Computes (readExact failure count) fun piece bytes => piece.length = count ∧ bytes = piece :=
  .take count

/-! ### Points -/

/-- `count` compressed points and what they decode to. -/
inductive PointsRestore (decode : List UInt8 → Option (Option (List UInt8))) (compactBytes : Nat) :
    Nat → List UInt8 → List UInt8 → Prop where
  | nil : PointsRestore decode compactBytes 0 [] []
  | cons {count : Nat} {point raw piece out : List UInt8} (length : point.length = compactBytes)
      (decodes : decode point = some (some raw))
      (rest : PointsRestore decode compactBytes count piece out) :
      PointsRestore decode compactBytes (count + 1) (point ++ piece) (raw ++ out)

section Points
variable {decode : List UInt8 → Option (Option (List UInt8))} {compactBytes rawBytes : Nat}
variable {n m : Nat} {piece out piece' out' : List UInt8}

namespace PointsRestore

theorem append (h : PointsRestore decode compactBytes n piece out)
    (h' : PointsRestore decode compactBytes m piece' out') :
    PointsRestore decode compactBytes (n + m) (piece ++ piece') (out ++ out') := by
  induction h with
  | nil => rwa [Nat.zero_add]
  | cons length decodes _ ih =>
    rw [List.append_assoc, List.append_assoc, Nat.add_right_comm]
    exact .cons length decodes ih

theorem split (h : PointsRestore decode compactBytes (n + m) piece out) :
    ∃ front outFront back outBack, PointsRestore decode compactBytes n front outFront ∧
      PointsRestore decode compactBytes m back outBack ∧ piece = front ++ back ∧
        out = outFront ++ outBack := by
  induction n generalizing piece out with
  | zero =>
    rw [Nat.zero_add] at h
    exact ⟨[], [], piece, out, .nil, h, rfl, rfl⟩
  | succ n ih =>
    rw [Nat.add_right_comm] at h
    cases h with
    | cons length decodes rest =>
      obtain ⟨front, outFront, back, outBack, hfront, hback, rfl, rfl⟩ := ih rest
      exact ⟨_, _, back, outBack, .cons length decodes hfront, hback,
        (List.append_assoc _ _ _).symm, (List.append_assoc _ _ _).symm⟩

theorem zero_iff : PointsRestore decode compactBytes 0 piece out ↔ piece = [] ∧ out = [] := by
  constructor
  · intro h
    cases h
    exact ⟨rfl, rfl⟩
  · rintro ⟨rfl, rfl⟩
    exact .nil

theorem piece_length (h : PointsRestore decode compactBytes n piece out) :
    piece.length = n * compactBytes := by
  induction h with
  | nil => simp
  | cons length _ _ ih => rw [List.length_append, length, ih, Nat.succ_mul, Nat.add_comm]

theorem out_length (hraw : ∀ point raw, decode point = some (some raw) → raw.length = rawBytes)
    (h : PointsRestore decode compactBytes n piece out) : out.length = n * rawBytes := by
  induction h with
  | nil => simp
  | cons _ decodes _ ih =>
    rw [List.length_append, hraw _ _ decodes, ih, Nat.succ_mul, Nat.add_comm]

end PointsRestore

theorem decodeEach_ok {id batch offset : Nat} {points : List (List UInt8)}
    (hpoints : ∀ p ∈ points, p.length = compactBytes) :
    decodeEach id batch decode offset points = .ok out ↔
      PointsRestore decode compactBytes points.length points.flatten out := by
  induction points generalizing offset out with
  | nil =>
    rw [decodeEach, Except.ok.injEq, List.length_nil, List.flatten_nil, PointsRestore.zero_iff]
    exact ⟨fun h => ⟨rfl, h.symm⟩, fun h => h.2.symm⟩
  | cons point points ih =>
    obtain ⟨hpoint, hrest⟩ := List.forall_mem_cons.mp hpoints
    rw [decodeEach, List.length_cons, List.flatten_cons]
    constructor
    · intro h
      obtain ⟨decoded, hdecode, h₁⟩ := Fallible.bind_ok.mp h
      have hdecode := Panic.expect_ok.mp hdecode
      cases decoded with
      | none =>
        obtain ⟨_, _, h₂⟩ := Fallible.bind_ok.mp h₁
        cases h₂
      | some raw =>
        obtain ⟨tail, htail, h₂⟩ := Fallible.bind_ok.mp h₁
        obtain rfl := Except.ok.inj h₂
        exact .cons hpoint hdecode ((ih hrest).mp htail)
    · intro h
      generalize hcount : points.length + 1 = count at h
      generalize hpiece : point ++ points.flatten = piece at h
      cases h with
      | nil => cases hcount
      | cons length decodes rest =>
        obtain rfl := Nat.succ.inj hcount
        obtain ⟨rfl, rfl⟩ := List.append_inj hpiece (hpoint.trans length.symm)
        refine Fallible.bind_ok.mpr ⟨_, Panic.expect_ok.mpr decodes, ?_⟩
        exact Fallible.bind_ok.mpr ⟨_, (ih hrest).mpr rest, rfl⟩

theorem decodeEach_safe (hruns : ∀ point, decode point ≠ none) {id batch offset : Nat}
    {points : List (List UInt8)}
    (hindex : batch * pointsPerBatch + offset + points.length ≤ 2 ^ 64) :
    decodeEach id batch decode offset points ≠ .error .panic := by
  induction points generalizing offset with
  | nil => exact fun h => by cases h
  | cons point points ih =>
    rw [List.length_cons] at hindex
    obtain ⟨decoded, hdecode⟩ := Option.ne_none_iff_exists'.mp (hruns point)
    rw [decodeEach, expect, hdecode, Panic.expect, Fallible.ok_bind]
    cases decoded with
    | none =>
      dsimp only
      rw [word_of_lt (by omega), Fallible.ok_bind]
      exact fun h => by cases h
    | some raw =>
      have hrest := ih (show batch * pointsPerBatch + (offset + 1) + points.length ≤ 2 ^ 64 by omega)
      cases htail : decodeEach id batch decode (offset + 1) points with
      | error stop =>
        intro h
        rw [htail] at hrest
        obtain rfl := Except.error.inj h
        exact hrest rfl
      | ok tail => exact fun h => by cases h

section Batches
variable (hcompact : 0 < compactBytes) (hruns : ∀ point, decode point ≠ none)
include hcompact hruns

theorem decodeBatch_computes {failure : Option IoError} {id capacity batch : Nat}
    {raw : List UInt8} (hraw : raw.length = n * rawBytes) (hpos : 0 < rawBytes)
    (hsize : n * compactBytes < 2 ^ 64) (hcapacity : n * compactBytes ≤ capacity)
    (hindex : batch * pointsPerBatch + n ≤ 2 ^ 64) :
    Computes (decodeBatch failure id compactBytes rawBytes decode capacity batch raw)
      (PointsRestore decode compactBytes n) := by
  have hpoints : raw.length / rawBytes = n := by rw [hraw, Nat.mul_div_cancel _ hpos]
  have hrest : raw.drop (n * rawBytes) = [] := List.drop_eq_nil_of_le hraw.le
  have hcut : ∀ piece : List UInt8, piece.length = n * compactBytes →
      ∃ points, points.length = n ∧ (∀ p ∈ points, p.length = compactBytes) ∧
        piece = points.flatten ∧ piece.chunks compactBytes = points := by
    intro piece hpiece
    obtain ⟨points, hcount, hall, rfl⟩ := List.exists_chunks hpiece
    exact ⟨points, hcount, hall, rfl, List.chunks_flatten hcompact hall⟩
  have hsafe : ∀ piece : List UInt8, piece.length = n * compactBytes →
      decodeEach id batch decode 0 (piece.chunks compactBytes) ≠ .error .panic := by
    intro piece hpiece
    obtain ⟨points, hcount, _, _, hchunks⟩ := hcut piece hpiece
    rw [hchunks]
    exact decodeEach_safe hruns (by omega)
  unfold decodeBatch
  simp only [hpoints, hrest]
  refine .value (word_of_lt hsize) (.value (require_pos hcapacity) ?_)
  refine ((readExact_computes failure _).bind (S := fun compact back out => ∃ decoded,
    decodeEach id batch decode 0 (compact.chunks compactBytes) = .ok decoded ∧
      back = [] ∧ out = decoded ++ []) ?_).congr ?_
  · rintro piece _ ⟨hpiece, rfl⟩
    exact .call (hsafe _ hpiece) fun decoded _ => .pure _
  · intro piece out
    constructor
    · rintro ⟨_, compact, _, ⟨hlength, rfl⟩, ⟨decoded, hdecode, rfl, rfl⟩, rfl⟩
      obtain ⟨points, rfl, hall, rfl, hchunks⟩ := hcut _ hlength
      rw [hchunks] at hdecode
      rw [List.append_nil, List.append_nil]
      exact (decodeEach_ok hall).mp hdecode
    · intro h
      obtain ⟨points, hcount, hall, rfl, hchunks⟩ := hcut piece h.piece_length
      rw [← hcount] at h
      refine ⟨points.flatten, _, [], ⟨h.piece_length.trans (by rw [hcount]), rfl⟩,
        ⟨out, ?_, rfl, (List.append_nil _).symm⟩, (List.append_nil _).symm⟩
      rw [hchunks]
      exact (decodeEach_ok hall).mpr h

theorem decodeBatches_computes {failure : Option IoError} {id capacity batch : Nat}
    {region : List UInt8} (hregion : region.length = n * rawBytes) (hpos : 0 < rawBytes)
    (hsize : n * compactBytes < 2 ^ 64) (hcapacity : min n pointsPerBatch * compactBytes ≤ capacity)
    (hindex : n = 0 ∨ batch * pointsPerBatch + n ≤ 2 ^ 64) :
    Computes (decodeBatches failure id compactBytes rawBytes decode capacity batch
      (region.chunks (pointsPerBatch * rawBytes))) (PointsRestore decode compactBytes n) := by
  have hbatch : 0 < pointsPerBatch := by decide
  have hchunk : 0 < pointsPerBatch * rawBytes := Nat.mul_pos hbatch hpos
  induction region using List.chunks_induction hchunk generalizing n batch with
  | nil =>
    obtain rfl : n = 0 := by
      rcases Nat.mul_eq_zero.mp hregion.symm with h | h
      · exact h
      · omega
    refine (Computes.pure []).congr fun piece out => ?_
    exact PointsRestore.zero_iff.symm
  | cut region hne ih =>
    have hn : 0 < n := by
      rcases Nat.eq_zero_or_pos n with rfl | h
      · rw [Nat.zero_mul] at hregion
        exact absurd (List.eq_nil_of_length_eq_zero hregion) hne
      · exact h
    have hsplit : n = min n pointsPerBatch + (n - pointsPerBatch) := by omega
    have htake : (region.take (pointsPerBatch * rawBytes)).length =
        min n pointsPerBatch * rawBytes := by
      rw [List.length_take, hregion, Nat.min_comm, Nat.mul_min_mul_right]
    have hdrop : (region.drop (pointsPerBatch * rawBytes)).length =
        (n - pointsPerBatch) * rawBytes := by
      rw [List.length_drop, hregion, Nat.sub_mul]
    have hsmall : min n pointsPerBatch * compactBytes ≤ n * compactBytes :=
      Nat.mul_le_mul_right _ (Nat.min_le_left _ _)
    have hless : (n - pointsPerBatch) * compactBytes ≤ n * compactBytes :=
      Nat.mul_le_mul_right _ (Nat.sub_le _ _)
    have hcap' : min (n - pointsPerBatch) pointsPerBatch * compactBytes ≤ capacity :=
      Nat.le_trans (Nat.mul_le_mul_right _ (min_le_min_right _ (Nat.sub_le _ _))) hcapacity
    rw [List.chunks_of_ne_nil hchunk hne, decodeBatches]
    refine ((decodeBatch_computes hcompact hruns htake hpos (by omega) hcapacity (by omega)).bind
      fun _ done _ => (ih hdrop (by omega) hcap' (by rw [Nat.succ_mul]; omega)).bind
        fun _ tail _ => .pure _).congr ?_
    intro piece out
    constructor
    · rintro ⟨front, done, _, hdone, ⟨back, tail, _, htail, ⟨rfl, rfl⟩, rfl⟩, rfl⟩
      rw [hsplit, List.append_nil]
      exact hdone.append htail
    · intro h
      rw [hsplit] at h
      obtain ⟨front, done, back, tail, hdone, htail, rfl, rfl⟩ := h.split
      exact ⟨front, done, back, hdone, ⟨back, tail, [], htail, ⟨rfl, rfl⟩,
        (List.append_nil _).symm⟩, rfl⟩

theorem decodePoints_computes {failure : Option IoError} {id : Nat} {region : List UInt8}
    (hregion : region.length = n * rawBytes) (hpos : 0 < rawBytes)
    (hbatch : pointsPerBatch * rawBytes < 2 ^ 64) (hsmaller : compactBytes ≤ rawBytes)
    (hword : region.length < 2 ^ 64) :
    Computes (decodePoints failure region id compactBytes rawBytes decode)
      (PointsRestore decode compactBytes n) := by
  have hle : n * compactBytes ≤ n * rawBytes := Nat.mul_le_mul_left _ hsmaller
  have hn : n ≤ n * rawBytes := Nat.le_mul_of_pos_right _ hpos
  have hmin : min region.length (pointsPerBatch * rawBytes) / rawBytes * compactBytes =
      min n pointsPerBatch * compactBytes := by
    rw [hregion, Nat.mul_min_mul_right, Nat.mul_div_cancel _ hpos]
  have hcapacity : min n pointsPerBatch * compactBytes ≤ n * compactBytes :=
    Nat.mul_le_mul_right _ (Nat.min_le_left _ _)
  unfold decodePoints
  refine .value (word_of_lt hbatch) ?_
  rw [hmin]
  refine .value (word_of_lt (by omega)) ?_
  exact decodeBatches_computes hcompact hruns hregion hpos (by omega) (Nat.le_refl _)
    (.inr (by omega))

end Batches

end Points

/-! ### Columns -/

/-- Records into which the values of a column are written. -/
inductive ColumnRestores (offset width : Nat) : List UInt8 → List UInt8 → List UInt8 → Prop where
  | nil : ColumnRestores offset width [] [] []
  | cons {record value records piece out : List UInt8} (record_length : record.length = coefficientRaw)
      (value_length : value.length = width) (rest : ColumnRestores offset width records piece out) :
      ColumnRestores offset width (record ++ records) (value ++ piece)
        (record.take offset ++ value ++ record.drop (offset + width) ++ out)

section Columns
variable {offset width n m : Nat} {records piece out records' piece' out' : List UInt8}

namespace ColumnRestores

theorem append (h : ColumnRestores offset width records piece out)
    (h' : ColumnRestores offset width records' piece' out') :
    ColumnRestores offset width (records ++ records') (piece ++ piece') (out ++ out') := by
  induction h with
  | nil => exact h'
  | cons hrecord hvalue _ ih =>
    have hcons := ColumnRestores.cons hrecord hvalue ih
    simpa only [List.append_assoc] using hcons

theorem split (hlength : records.length = n * coefficientRaw)
    (h : ColumnRestores offset width (records ++ records') piece out) :
    ∃ front outFront back outBack, ColumnRestores offset width records front outFront ∧
      ColumnRestores offset width records' back outBack ∧ piece = front ++ back ∧
        out = outFront ++ outBack := by
  induction n generalizing records piece out with
  | zero =>
    rw [Nat.zero_mul] at hlength
    obtain rfl := List.eq_nil_of_length_eq_zero hlength
    exact ⟨[], [], piece, out, .nil, h, rfl, rfl⟩
  | succ n ih =>
    rw [Nat.succ_mul] at hlength
    generalize hall : records ++ records' = all at h
    cases h with
    | nil =>
      obtain ⟨rfl, _⟩ := List.append_eq_nil_iff.mp hall
      exact absurd hlength (by simp [coefficientRaw])
    | @cons record value tail piece out hrecord hvalue hrest =>
      have hcut : records.take coefficientRaw ++ (records.drop coefficientRaw ++ records') =
          record ++ tail := by
        rw [← List.append_assoc, List.take_append_drop, hall]
      obtain ⟨rfl, rfl⟩ := List.append_inj hcut
        (by rw [List.length_take, hrecord]; omega)
      obtain ⟨front, outFront, back, outBack, hfront, hback, rfl, rfl⟩ :=
        ih (by rw [List.length_drop]; omega) hrest
      have hcons := ColumnRestores.cons hrecord hvalue hfront
      rw [List.take_append_drop] at hcons
      refine ⟨_, _, back, outBack, hcons, hback, ?_, ?_⟩
      · rw [List.append_assoc]
      · simp only [List.append_assoc]

theorem nil_iff : ColumnRestores offset width [] piece out ↔ piece = [] ∧ out = [] := by
  constructor
  · intro h
    generalize hnil : ([] : List UInt8) = records at h
    cases h with
    | nil => exact ⟨rfl, rfl⟩
    | cons hrecord _ _ =>
      obtain ⟨rfl, _⟩ := List.append_eq_nil_iff.mp hnil.symm
      exact absurd hrecord (by decide)
  · rintro ⟨rfl, rfl⟩
    exact .nil

theorem out_length (hwithin : offset + width ≤ coefficientRaw)
    (h : ColumnRestores offset width records piece out) : out.length = records.length := by
  induction h with
  | nil => rfl
  | cons hrecord hvalue _ ih =>
    simp only [List.length_append, List.length_take, List.length_drop, ih, hrecord, hvalue]
    omega

theorem piece_length (hlength : records.length = n * coefficientRaw)
    (h : ColumnRestores offset width records piece out) : piece.length = n * width := by
  induction h generalizing n with
  | nil =>
    obtain rfl : n = 0 := by
      rw [List.length_nil] at hlength
      have := Nat.mul_eq_zero.mp hlength.symm
      simpa [coefficientRaw] using this
    simp
  | cons hrecord hvalue _ ih =>
    rw [List.length_append, hrecord] at hlength
    cases n with
    | zero => exact absurd hlength (by simp [coefficientRaw])
    | succ n =>
      rw [Nat.succ_mul] at hlength
      rw [List.length_append, hvalue, ih (n := n) (by omega), Nat.succ_mul, Nat.add_comm]

end ColumnRestores

theorem overwrite_ok (hwithin : offset + width ≤ coefficientRaw) {record value : List UInt8}
    (hrecord : record.length = coefficientRaw) (hvalue : value.length = width) :
    overwrite offset width record value =
      .ok (record.take offset ++ value ++ record.drop (offset + width)) := by
  rw [overwrite, require_pos ⟨by omega, hvalue⟩]
  rfl

theorem overwriteEach_restores (hwithin : offset + width ≤ coefficientRaw)
    {records values : List (List UInt8)} (hcount : records.length = values.length)
    (hrecords : ∀ r ∈ records, r.length = coefficientRaw) (hvalues : ∀ v ∈ values, v.length = width) :
    ∃ out, overwriteEach offset width records values = .ok out ∧
      ∀ out', ColumnRestores offset width records.flatten values.flatten out' ↔ out' = out := by
  induction records generalizing values with
  | nil =>
    obtain rfl := List.eq_nil_of_length_eq_zero hcount.symm
    refine ⟨[], rfl, fun out' => ?_⟩
    rw [List.flatten_nil, ColumnRestores.nil_iff]
    exact ⟨fun h => h.2, fun h => ⟨rfl, h⟩⟩
  | cons record records ih =>
    obtain ⟨value, values, rfl⟩ := List.exists_cons_of_length_eq_add_one hcount.symm
    obtain ⟨hrecord, hrecords'⟩ := List.forall_mem_cons.mp hrecords
    obtain ⟨hvalue, hvalues'⟩ := List.forall_mem_cons.mp hvalues
    obtain ⟨out, hout, hunique⟩ := ih (by simpa using hcount) hrecords' hvalues'
    refine ⟨record.take offset ++ value ++ record.drop (offset + width) ++ out, ?_, fun out' => ?_⟩
    · rw [overwriteEach, overwrite_ok hwithin hrecord hvalue, Fallible.ok_bind, hout]
      rfl
    rw [List.flatten_cons, List.flatten_cons]
    constructor
    · intro h
      generalize hall : record ++ records.flatten = all at h
      generalize hpiece : value ++ values.flatten = piece at h
      cases h with
      | nil =>
        obtain ⟨rfl, _⟩ := List.append_eq_nil_iff.mp hall
        exact absurd hrecord (by decide)
      | cons hrecord' hvalue' hrest =>
        obtain ⟨rfl, rfl⟩ := List.append_inj hall (hrecord.trans hrecord'.symm)
        obtain ⟨rfl, rfl⟩ := List.append_inj hpiece (hvalue.trans hvalue'.symm)
        rw [(hunique _).mp hrest]
    · rintro rfl
      exact .cons hrecord hvalue ((hunique out).mpr rfl)

section Reading
variable (hwidth : 0 < width) (hwithin : offset + width ≤ coefficientRaw)
include hwidth hwithin

theorem decodeColumnBatch_computes {failure : Option IoError} {capacity : Nat} {batch : List UInt8}
    (hbatch : batch.length = n * coefficientRaw) (hsize : n * width < 2 ^ 64)
    (hcapacity : n * width ≤ capacity) :
    Computes (decodeColumnBatch failure offset width capacity batch)
      (ColumnRestores offset width batch) := by
  have hpos : 0 < coefficientRaw := by decide
  have hentries : batch.length / coefficientRaw = n := by rw [hbatch, Nat.mul_div_cancel _ hpos]
  have hrest : batch.drop (n * coefficientRaw) = [] := List.drop_eq_nil_of_le hbatch.le
  have htake : batch.take (n * coefficientRaw) = batch := List.take_of_length_le hbatch.le
  obtain ⟨records, hcount, hrecords, rfl⟩ := List.exists_chunks hbatch
  have hchunks := List.chunks_flatten hpos hrecords
  have hcut : ∀ piece : List UInt8, piece.length = n * width → ∃ out,
      overwriteEach offset width records (piece.chunks width) = .ok out ∧
        ∀ out', ColumnRestores offset width records.flatten piece out' ↔ out' = out := by
    intro piece hpiece
    obtain ⟨values, hvalues, hall, rfl⟩ := List.exists_chunks hpiece
    rw [List.chunks_flatten hwidth hall]
    exact overwriteEach_restores hwithin (hcount.trans hvalues.symm) hrecords hall
  unfold decodeColumnBatch
  simp only [hentries, hrest, htake, hchunks]
  refine .value (word_of_lt hsize) (.value (require_pos hcapacity) ?_)
  refine ((readExact_computes failure _).bind (S := fun values back out => ∃ done,
    overwriteEach offset width records (values.chunks width) = .ok done ∧
      back = [] ∧ out = done ++ []) ?_).congr ?_
  · rintro piece _ ⟨hpiece, rfl⟩
    obtain ⟨out, hout, _⟩ := hcut _ hpiece
    exact .call (by rw [hout]; exact fun h => by cases h) fun done _ => .pure _
  · intro piece out
    constructor
    · rintro ⟨_, values, _, ⟨hlength, rfl⟩, ⟨done, hdone, rfl, rfl⟩, rfl⟩
      obtain ⟨out, hout, hunique⟩ := hcut _ hlength
      obtain rfl := Except.ok.inj (hdone.symm.trans hout)
      rw [List.append_nil, List.append_nil]
      exact (hunique _).mpr rfl
    · intro h
      have hlength := h.piece_length hbatch
      obtain ⟨done, hdone, hunique⟩ := hcut _ hlength
      obtain rfl := (hunique out).mp h
      exact ⟨piece, piece, [], ⟨hlength, rfl⟩, ⟨out, hdone, rfl, (List.append_nil _).symm⟩,
        (List.append_nil _).symm⟩

theorem decodeColumn_computes {failure : Option IoError} {capacity : Nat} {records : List UInt8}
    (hrecords : records.length = n * coefficientRaw) (hsize : n * width < 2 ^ 64)
    (hcapacity : min n coefficientsPerBatch * width ≤ capacity) :
    Computes (decodeColumn failure offset width capacity records)
      (ColumnRestores offset width records) := by
  have hbatch : 0 < coefficientsPerBatch := by decide
  have hpos : 0 < coefficientRaw := by decide
  have hchunk : 0 < coefficientsPerBatch * coefficientRaw := Nat.mul_pos hbatch hpos
  unfold decodeColumn
  induction records using List.chunks_induction hchunk generalizing n with
  | nil =>
    refine (Computes.pure []).congr fun piece out => ?_
    exact ColumnRestores.nil_iff.symm
  | cut records hne ih =>
    have htake : (records.take (coefficientsPerBatch * coefficientRaw)).length =
        min n coefficientsPerBatch * coefficientRaw := by
      rw [List.length_take, hrecords, Nat.min_comm, Nat.mul_min_mul_right]
    have hdrop : (records.drop (coefficientsPerBatch * coefficientRaw)).length =
        (n - coefficientsPerBatch) * coefficientRaw := by
      rw [List.length_drop, hrecords, Nat.sub_mul]
    have hsmall : min n coefficientsPerBatch * width ≤ n * width :=
      Nat.mul_le_mul_right _ (Nat.min_le_left _ _)
    have hless : (n - coefficientsPerBatch) * width ≤ n * width :=
      Nat.mul_le_mul_right _ (Nat.sub_le _ _)
    have hcap' : min (n - coefficientsPerBatch) coefficientsPerBatch * width ≤ capacity :=
      Nat.le_trans (Nat.mul_le_mul_right _ (min_le_min_right _ (Nat.sub_le _ _))) hcapacity
    rw [List.chunks_of_ne_nil hchunk hne, decodeColumnBatches]
    refine ((decodeColumnBatch_computes hwidth hwithin htake (by omega) hcapacity).bind
      fun _ done _ => (ih hdrop (by omega) hcap').bind fun _ tail _ => .pure _).congr ?_
    intro piece out
    constructor
    · rintro ⟨front, done, _, hdone, ⟨back, tail, _, htail, ⟨rfl, rfl⟩, rfl⟩, rfl⟩
      have happend := hdone.append htail
      rwa [List.take_append_drop, ← List.append_nil back] at happend
    · intro h
      rw [← List.take_append_drop (coefficientsPerBatch * coefficientRaw) records] at h
      obtain ⟨front, done, back, tail, hdone, htail, rfl, rfl⟩ := h.split htake
      exact ⟨front, done, back, hdone, ⟨back, tail, [], htail, ⟨rfl, rfl⟩,
        (List.append_nil _).symm⟩, rfl⟩

end Reading

/-- Columns written one after another. -/
inductive ColumnsRestore : List (Nat × Nat) → List UInt8 → List UInt8 → List UInt8 → Prop where
  | nil (records : List UInt8) : ColumnsRestore [] records [] records
  | cons {offset width : Nat} {columns : List (Nat × Nat)} {records front stage back out : List UInt8}
      (column : ColumnRestores offset width records front stage)
      (rest : ColumnsRestore columns stage back out) :
      ColumnsRestore ((offset, width) :: columns) records (front ++ back) out

/-- A column that lies within a record and within the buffer of 32 bytes for each. -/
structure FitsRecord (column : Nat × Nat) : Prop where
  width : 0 < column.2
  within : column.1 + column.2 ≤ coefficientRaw
  buffer : column.2 ≤ 32

theorem coefficientColumns_fit : ∀ column ∈ coefficientColumns, FitsRecord column := by
  unfold coefficientColumns
  intro column h
  simp only [List.mem_cons, List.not_mem_nil, or_false] at h
  rcases h with rfl | rfl | rfl | rfl <;> exact ⟨by decide, by decide, by decide⟩

theorem ColumnsRestore.out_length {columns : List (Nat × Nat)}
    (hfit : ∀ column ∈ columns, FitsRecord column) (h : ColumnsRestore columns records piece out) :
    out.length = records.length := by
  induction h with
  | nil => rfl
  | cons column _ ih =>
    obtain ⟨hcolumn, hcolumns⟩ := List.forall_mem_cons.mp hfit
    exact (ih hcolumns).trans (column.out_length hcolumn.within)

theorem decodeColumns_computes {failure : Option IoError} {columns : List (Nat × Nat)}
    (hfit : ∀ column ∈ columns, FitsRecord column) (hrecords : records.length = n * coefficientRaw)
    (hsize : n * 32 < 2 ^ 64) :
    Computes (decodeColumns failure (min n coefficientsPerBatch * 32) columns records)
      (ColumnsRestore columns records) := by
  induction columns generalizing records with
  | nil =>
    refine (Computes.pure records).congr fun piece out => ?_
    constructor
    · rintro ⟨rfl, rfl⟩
      exact .nil _
    · intro h
      cases h
      exact ⟨rfl, rfl⟩
  | cons column columns ih =>
    obtain ⟨offset, width⟩ := column
    obtain ⟨⟨hwidth, hwithin, hbuffer⟩, hcolumns⟩ := List.forall_mem_cons.mp hfit
    dsimp only at hwidth hwithin hbuffer
    have hless : n * width ≤ n * 32 := Nat.mul_le_mul_left _ hbuffer
    rw [decodeColumns]
    refine ((decodeColumn_computes hwidth hwithin hrecords (by omega)
      (Nat.mul_le_mul_left _ hbuffer)).bind fun _ stage h =>
        ih hcolumns ((h.out_length hwithin).trans hrecords)).congr ?_
    intro piece out
    constructor
    · rintro ⟨front, stage, back, hcolumn, hrest, rfl⟩
      exact .cons hcolumn hrest
    · intro h
      cases h with
      | cons hcolumn hrest => exact ⟨_, _, _, hcolumn, hrest, rfl⟩

end Columns

/-! ### Coefficients -/

theorem coefficientCount_ok {entry : CompactSection} {head : List UInt8} {count : Nat}
    (hhead : head.length = 4) : coefficientCount entry (some head) = .ok count ↔
      count = leNat head ∧ count * coefficientRaw + 4 < 2 ^ 64 ∧
        count * coefficientRaw + 4 = entry.zkeyBytes := by
  have hvalue : u32At head 0 = .ok (leNat head) := by
    rw [u32At, intAt_of_le (by omega), List.drop_zero, List.take_of_length_le hhead.le]
  rw [coefficientCount, hvalue, Fallible.ok_bind, Fallible.bind_ok]
  simp only [Panic.refuse_ok, not_or, not_le, not_not]
  constructor
  · rintro ⟨_, ⟨hlt, heq⟩, h⟩
    obtain rfl := Except.ok.inj h
    exact ⟨rfl, hlt, heq⟩
  · rintro ⟨rfl, hlt, heq⟩
    exact ⟨(), ⟨hlt, heq⟩, rfl⟩

theorem coefficientCount_safe {entry : CompactSection} {head : List UInt8}
    (hhead : head.length = 4) : coefficientCount entry (some head) ≠ .error .panic := by
  rw [coefficientCount, u32At, intAt_of_le (by omega), Fallible.ok_bind]
  exact Panic.bind_safe Panic.refuse_safe fun _ _ h => by cases h

/-- A section behind its count, from its columns. -/
def CoefficientsRestore (entry : CompactSection) (region piece out : List UInt8) : Prop :=
  ∃ head columns records, head.length = 4 ∧ (∃ count, coefficientCount entry (some head) = .ok count) ∧
    ColumnsRestore coefficientColumns (region.drop 4) columns records ∧ piece = head ++ columns ∧
      out = head ++ records

theorem decodeCoefficients_computes {failure : Option IoError} {entry : CompactSection}
    {region : List UInt8} (hregion : region.length = entry.zkeyBytes) (hlong : 4 ≤ region.length)
    (hword : region.length < 2 ^ 64) :
    Computes (decodeCoefficients failure region entry) (CoefficientsRestore entry region) := by
  unfold decodeCoefficients
  refine .value (require_pos hlong) (((readExact_computes failure 4).bind (S := fun head back out =>
    ∃ count, coefficientCount entry (some head) = .ok count ∧ ∃ columns records rest,
      ColumnsRestore coefficientColumns (region.drop 4) columns records ∧
        (rest = [] ∧ out = head ++ records) ∧ back = columns ++ rest) ?_).congr ?_)
  · rintro piece _ ⟨hpiece, rfl⟩
    refine .call (coefficientCount_safe hpiece) fun count hcount => ?_
    obtain ⟨_, _, hfill⟩ := (coefficientCount_ok hpiece).mp hcount
    have hbound : min count coefficientsPerBatch * 32 ≤ count * 32 :=
      Nat.mul_le_mul_right _ (Nat.min_le_left _ _)
    unfold coefficientRaw at hfill
    have hrecords : (region.drop 4).length = count * coefficientRaw := by
      rw [List.length_drop, coefficientRaw]
      omega
    refine .value (word_of_lt (by omega)) ?_
    exact (decodeColumns_computes coefficientColumns_fit hrecords (by omega)).bind
      fun _ records _ => .pure _
  · intro piece out
    constructor
    · rintro ⟨_, head, _, ⟨hhead, rfl⟩, ⟨count, hcount, columns, records, _, hcolumns, ⟨rfl, rfl⟩, rfl⟩,
        rfl⟩
      exact ⟨_, columns, records, hhead, ⟨count, hcount⟩, hcolumns, by rw [List.append_nil], rfl⟩
    · rintro ⟨head, columns, records, hhead, ⟨count, hcount⟩, hcolumns, rfl, rfl⟩
      exact ⟨head, head, columns, ⟨hhead, rfl⟩, ⟨count, hcount, columns, records, [], hcolumns,
        ⟨rfl, rfl⟩, (List.append_nil _).symm⟩, rfl⟩

/-! ### Sections -/

theorem decodePoint_runs {F : Type} [Field F] (curve : ArkCurve F) (infinity : List UInt8)
    (rawBytes : Nat) {sqrt : F → Option (Option F)} (hsqrt : ∀ a, FindsRoot a (sqrt a))
    (write : F → List UInt8) (compact : List UInt8) :
    decodePoint curve infinity rawBytes sqrt write compact ≠ none := by
  unfold decodePoint
  cases curve.deserializeWithFlags compact with
  | none => exact fun h => by cases h
  | some read =>
    obtain ⟨x, flags⟩ := read
    dsimp only
    split
    · split <;> exact fun h => by cases h
    · obtain ⟨answer, hanswer⟩ := Option.isSome_iff_exists.mp (hsqrt (x ^ 2 * x + curve.coeffB)).runs
      rw [hanswer]
      cases answer <;> exact fun h => by cases h

/-- A decoded point has the size of a stored one. -/
theorem decodePoint_length {F : Type} [Field F] {curve : ArkCurve F} {infinity : List UInt8}
    {size : Nat} {sqrt : F → Option (Option F)} {write : F → List UInt8}
    (hwrite : ∀ x, (write x).length = size) {compact raw : List UInt8}
    (h : decodePoint curve infinity (size + size) sqrt write compact = some (some raw)) :
    raw.length = size + size := by
  unfold decodePoint at h
  split at h
  · cases h
  split at h
  · split at h
    · cases h
    · obtain rfl := Option.some.inj (Option.some.inj h)
      exact List.length_replicate
  · obtain ⟨answer, _, h₁⟩ := Option.bind_eq_some_iff.mp h
    cases answer with
    | none => cases h₁
    | some y =>
      obtain rfl := Option.some.inj (Option.some.inj h₁)
      rw [List.length_append, hwrite, hwrite]

/-- What a section is restored from. -/
def SectionRestores (ark : Arkworks) (entry : CompactSection) (region piece out : List UInt8) : Prop :=
  match entry.encoding with
  | .raw => piece.length = region.length ∧ out = piece
  | .g1 => PointsRestore (decodeG1 ark) g1Compact (region.length / g1Raw) piece out
  | .g2 => PointsRestore (decodeG2 ark) g2Compact (region.length / g2Raw) piece out
  | .coefficients => CoefficientsRestore entry region piece out

/-- A table entry the section decoders are safe on. -/
structure Decodable (entry : CompactSection) : Prop where
  whole : entry.zkeyBytes % entry.encoding.unit = 0
  counted : entry.encoding = .coefficients → 4 ≤ entry.zkeyBytes

theorem decodeSection_computes (ark : Arkworks) (failure : Option IoError) {entry : CompactSection}
    {region : List UInt8} (hentry : Decodable entry) (hregion : region.length = entry.zkeyBytes)
    (hword : region.length < 2 ^ 64) :
    Computes (decodeSection ark failure entry region) (SectionRestores ark entry region) := by
  obtain ⟨hwhole, hcounted⟩ := hentry
  rw [← hregion] at hwhole hcounted
  unfold decodeSection SectionRestores
  cases hencoding : entry.encoding with
  | raw => exact readExact_computes failure _
  | g1 =>
    rw [hencoding] at hwhole
    have hcount := (Nat.div_mul_cancel (Nat.dvd_of_mod_eq_zero hwhole)).symm
    exact decodePoints_computes (by decide) (decodePoint_runs _ _ _ sqrtFq_finds _) hcount
      (by decide) (by decide) (by decide) hword
  | g2 =>
    rw [hencoding] at hwhole
    have hcount := (Nat.div_mul_cancel (Nat.dvd_of_mod_eq_zero hwhole)).symm
    exact decodePoints_computes (by decide) (decodePoint_runs _ _ _ sqrtFq2_finds _) hcount
      (by decide) (by decide) (by decide) hword
  | coefficients => exact decodeCoefficients_computes hregion (hcounted hencoding) hword

theorem SectionRestores.out_length {ark : Arkworks} {entry : CompactSection}
    {region piece out : List UInt8} (hwhole : entry.zkeyBytes % entry.encoding.unit = 0)
    (hregion : region.length = entry.zkeyBytes) (h : SectionRestores ark entry region piece out) :
    out.length = entry.zkeyBytes := by
  unfold SectionRestores at h
  rw [← hregion] at hwhole ⊢
  cases hencoding : entry.encoding with
  | raw =>
    rw [hencoding] at h
    rw [h.2, h.1]
  | g1 =>
    rw [hencoding] at h hwhole
    rw [PointsRestore.out_length (fun _ _ => decodePoint_length writeLimbs_length) h]
    exact Nat.div_mul_cancel (Nat.dvd_of_mod_eq_zero hwhole)
  | g2 =>
    rw [hencoding] at h hwhole
    rw [PointsRestore.out_length (fun _ _ => decodePoint_length writeLimbs2_length) h]
    exact Nat.div_mul_cancel (Nat.dvd_of_mod_eq_zero hwhole)
  | coefficients =>
    rw [hencoding] at h
    obtain ⟨head, columns, records, hhead, ⟨count, hcount⟩, hcolumns, -, rfl⟩ := h
    obtain ⟨_, _, hfill⟩ := (coefficientCount_ok hhead).mp hcount
    rw [List.length_append, hhead, hcolumns.out_length coefficientColumns_fit, List.length_drop]
    omega

end Curvy.Prover.CompactZkey
