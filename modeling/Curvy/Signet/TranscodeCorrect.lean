import Curvy.Signet.Artifact

/-!
# Transcoding is lossless

The transcoder accepts exactly the spellings of artifacts and maps one to another, so both
directions undo each other.
-/

namespace Curvy.Signet

set_option autoImplicit false

open Decoder
open Witness (FormatVersion)

variable {bytes out : List UInt8} {target : FormatVersion}

/-! ### The transcoder on spellings -/

def KnownMagic (magic : List UInt8) : Prop :=
  magic = Witness.Wire.legacyMagic ∨ magic = Witness.Wire.magic

theorem KnownMagic.length {magic : List UInt8} (h : KnownMagic magic) : magic.length = 8 := by
  rcases h with rfl | rfl <;> rfl

theorem envelopeOf_isSome {magic : List UInt8} : (envelopeOf magic).isSome ↔ KnownMagic magic := by
  unfold envelopeOf KnownMagic
  split
  · simp [*]
  · split <;> simp [*]

theorem describe_ok {d : ArtifactHeader} (h : describe bytes = .ok d) :
    Witness.Wire.headerSize ≤ bytes.length ∧ KnownMagic (bytes.take 8) ∧
      readAt bytes 8 2 = d.version ∧ readAt bytes 10 2 = Witness.Wire.fieldBn254Fr := by
  unfold describe at h
  split at h
  · cases h
  rename_i hlong
  split at h
  · cases h
  rename_i envelope hknown
  dsimp only at h
  split at h
  · cases h
  rename_i hfield
  split at h
  · cases h
  cases h
  exact ⟨Nat.not_lt.mp hlong, envelopeOf_isSome.mp (by rw [hknown]; rfl), rfl, not_not.mp hfield⟩

theorem describe_spelled (hlong : Witness.Wire.headerSize ≤ bytes.length)
    (hmagic : KnownMagic (bytes.take 8)) {source : FormatVersion}
    (hversion : readAt bytes 8 2 = source.number)
    (hfield : readAt bytes 10 2 = Witness.Wire.fieldBn254Fr) :
    ∃ envelope, describe bytes = .ok ⟨envelope, source.number⟩ := by
  obtain ⟨envelope, hknown⟩ := Option.isSome_iff_exists.mp (envelopeOf_isSome.mpr hmagic)
  have hnumber : ¬ (source.number ≠ Witness.Wire.formatVersionV1 ∧
      source.number ≠ Witness.Wire.formatVersionV2) := by
    cases source <;> decide
  refine ⟨envelope, ?_⟩
  simp only [describe, if_neg (Nat.not_lt.mpr hlong), hknown, hfield, hversion, ne_eq,
    not_true_eq_false, if_false]
  exact if_neg hnumber

theorem sourceVersion_ok {version : Nat} {source : FormatVersion} :
    sourceVersion version = .ok source ↔ version = source.number := by
  unfold sourceVersion
  constructor
  · intro h
    split at h
    · cases h
      assumption
    split at h
    · cases h
      assumption
    · cases h
  · rintro rfl
    cases source <;> rfl

/-- The fields of a spelled artifact, read out of the whole file. -/
theorem Artifact.fields (a : Artifact) (version : FormatVersion) :
    Fields (a.header version) a.magic version a.records.length a.signals.length a.mappingCount
      a.inputBufferLen :=
  spellHeader_fields (KnownMagic.length a.known) a.digest a.counted a.wide a.mapped a.buffered

theorem Artifact.header_length (a : Artifact) (version : FormatVersion) :
    (a.header version).length = Witness.Wire.headerSize :=
  spellHeader_length (KnownMagic.length a.known) a.digest

theorem Artifact.table_fits (a : Artifact) : ¬ 2 ^ 64 ≤ a.mappingCount * inputMappingBytes := by
  have := a.mapped
  unfold inputMappingBytes
  omega

theorem transcodeBody_spell (a : Artifact) (source target : FormatVersion) :
    transcodeBody source target (a.spell source) = .ok (a.spell target, []) := by
  have hfields := a.fields source
  have hwriter : (SignalWriter.new target).version = .v2 →
      (SignalWriter.new target).previous = (0 : Nat) := fun _ => rfl
  refine (Body.take_exact _).bind_ok.mpr ⟨a.header source, _, a.header_length source, rfl, ?_⟩
  simp only [hfields.size, hfields.nodeCount, hfields.signalCount, hfields.mappingCount,
    hfields.inputBufferLen, ne_eq, not_true_eq_false, if_false]
  refine Decoder.bind_ok.mpr ⟨_, _, (transcodeRecords_ok a.buffered.le (by
    have := a.counted
    omega)).mpr ⟨a.records, rfl, a.canonical, rfl, rfl⟩, ?_⟩
  refine Decoder.bind_ok.mpr ⟨_, _, (transcodeSignals_ok a.counted.le (by omega) hwriter).mpr
    ⟨a.signals, a.fit, rfl, rfl⟩, ?_⟩
  rw [if_neg a.table_fits]
  refine (Body.take_exact _).bind_ok.mpr ⟨a.table, [], a.full, (List.append_nil _).symm, ?_⟩
  refine pure_ok.mpr ⟨?_, rfl⟩
  rw [Artifact.header, spellHeader_retarget (KnownMagic.length a.known)]
  simp only [Artifact.spell, Artifact.header, Artifact.body, SignalWriter.new, List.append_assoc]

theorem transcodeBody_ok {source : FormatVersion} (hmagic : KnownMagic (bytes.take 8))
    (hversion : readAt bytes 8 2 = source.number)
    (hfield : readAt bytes 10 2 = Witness.Wire.fieldBn254Fr)
    (h : transcodeBody source target bytes = .ok (out, [])) :
    ∃ a : Artifact, bytes = a.spell source := by
  obtain ⟨header, u, hlength, rfl, h₁⟩ := (Body.take_exact _).bind_ok.mp h
  split at h₁
  · exact absurd h₁ throw_ok
  rename_i hsize
  have hwriter : (SignalWriter.new target).version = .v2 →
      (SignalWriter.new target).previous = (0 : Nat) := fun _ => rfl
  have hword : ∀ offset, readAt header offset 4 < 2 ^ 32 := fun offset => readAt_lt header offset 4
  obtain ⟨_, v, hrecords, h₂⟩ := Decoder.bind_ok.mp h₁
  obtain ⟨records, hcount, hcanon, rfl, rfl⟩ :=
    (transcodeRecords_ok (hword 60).le (by have := hword 48; omega)).mp hrecords
  obtain ⟨_, w, hsignals, h₃⟩ := Decoder.bind_ok.mp h₂
  obtain ⟨signals, hfit, rfl, rfl⟩ :=
    (transcodeSignals_ok (hword 48).le (by omega) hwriter).mp hsignals
  split at h₃
  · exact absurd h₃ throw_ok
  obtain ⟨table, x, hfull, rfl, h₄⟩ := (Body.take_exact _).bind_ok.mp h₃
  obtain ⟨rfl, rfl⟩ := pure_ok.mp h₄
  have hlong : ∀ n, n ≤ 64 → n ≤ header.length := fun n hn => hlength ▸ hn
  rw [id, List.take_append_of_le_length (hlong 8 (by omega))] at hmagic
  rw [id, readAt_within (hlong _ (by omega))] at hversion hfield
  have hheader := eq_spellHeader hlength hversion hfield (not_not.mp hsize)
  refine ⟨{
    magic := header.take 8
    r1csSha256 := (header.drop 16).take 32
    inputBufferLen := readAt header 60 4
    records, signals
    mappingCount := readAt header 56 4
    table
    known := hmagic
    digest := ?_
    buffered := hword 60
    counted := hcount ▸ hword 48
    canonical := hcanon
    fit := hcount.symm ▸ ⟨rfl, hfit.bounded⟩
    wide := hfit.length.symm ▸ hword 52
    mapped := hword 56
    full := hfull }, ?_⟩
  · rw [List.length_take, List.length_drop, hlength]
    rfl
  · simp only [Artifact.spell, Artifact.header, Artifact.body, hcount, hfit.length, id,
      List.append_nil]
    rw [← hheader]

theorem Artifact.describe_spell (a : Artifact) (source : FormatVersion) :
    ∃ envelope, describe (a.spell source) = .ok ⟨envelope, source.number⟩ := by
  have hlength := a.header_length source
  have hfields := a.fields source
  have hwithin : ∀ n, n ≤ 64 → n ≤ (a.header source).length := fun n hn => hlength ▸ hn
  apply describe_spelled
  · rw [Artifact.spell, List.length_append, hlength]
    omega
  · rw [Artifact.spell, List.take_append_of_le_length (hwithin 8 (by omega)), hfields.magic]
    exact a.known
  · rw [Artifact.spell, readAt_within (hwithin _ (by omega)), hfields.version]
  · rw [Artifact.spell, readAt_within (hwithin _ (by omega)), hfields.field]

/-- The transcoder accepts exactly the spellings, and answers with the other spelling of
the same artifact. -/
theorem transcode_ok_iff : transcode bytes target = .ok out ↔
    ∃ (a : Artifact) (source : FormatVersion), bytes = a.spell source ∧ out = a.spell target := by
  unfold transcode
  constructor
  · intro h
    obtain ⟨d, hdescribe, h₁⟩ := Fallible.bind_ok.mp h
    obtain ⟨source, hsource, h₂⟩ := Fallible.bind_ok.mp h₁
    obtain ⟨⟨output, rest⟩, hbody, h₃⟩ := Fallible.bind_ok.mp h₂
    dsimp only at h₃
    split at h₃
    · cases h₃
    rename_i hrest
    obtain rfl := Except.ok.inj h₃
    rw [not_not.mp hrest] at hbody
    obtain ⟨_, hmagic, hversion, hfield⟩ := describe_ok hdescribe
    rw [sourceVersion_ok.mp hsource] at hversion
    obtain ⟨a, rfl⟩ := transcodeBody_ok hmagic hversion hfield hbody
    rw [transcodeBody_spell, Except.ok.injEq, Prod.mk.injEq] at hbody
    exact ⟨a, source, rfl, hbody.1.symm⟩
  · rintro ⟨a, source, rfl, rfl⟩
    obtain ⟨envelope, hdescribe⟩ := a.describe_spell source
    rw [hdescribe, Fallible.ok_bind, sourceVersion_ok.mpr rfl, Fallible.ok_bind,
      transcodeBody_spell, Fallible.ok_bind]
    exact if_neg (not_not.mpr rfl)

theorem number_injective {v w : FormatVersion} (h : v.number = w.number) : v = w := by
  cases v <;> cases w <;> first | rfl | cases h

/-- An accepted artifact is accepted for either target, comes back from it byte for byte,
and is its own transcoding to the version it has. -/
theorem versions_interconvert {artifact accepted : List UInt8} {any source : FormatVersion}
    {header : ArtifactHeader} (hheader : describe artifact = .ok header)
    (hsource : header.version = source.number) (haccepts : transcode artifact any = .ok accepted)
    (target : FormatVersion) : ∃ converted, transcode artifact target = .ok converted ∧
      transcode converted source = .ok artifact ∧ (target = source → converted = artifact) := by
  obtain ⟨a, source', rfl, -⟩ := transcode_ok_iff.mp haccepts
  obtain ⟨envelope, hdescribe⟩ := a.describe_spell source'
  rw [hdescribe, Except.ok.injEq] at hheader
  rw [← hheader] at hsource
  obtain rfl := number_injective hsource
  exact ⟨a.spell target, transcode_ok_iff.mpr ⟨a, _, rfl, rfl⟩,
    transcode_ok_iff.mpr ⟨a, target, rfl, rfl⟩, fun h => h ▸ rfl⟩

def tinyArtifact : Artifact where
  magic := Witness.Wire.magic
  r1csSha256 := List.replicate 32 0
  inputBufferLen := 2
  records := [.constant (List.replicate 32 1), .input 1, .operation 0 0 1]
  signals := [0, 2, 1]
  mappingCount := 0
  table := []
  known := .inr rfl
  digest := rfl
  buffered := by decide
  counted := by decide
  canonical := by
    have hinput : 1 < 2 := by decide
    exact ⟨rfl, hinput, ⟨by decide, by decide, by decide⟩, trivial⟩
  fit := ⟨rfl, by decide⟩
  wide := by decide
  mapped := by decide
  full := rfl

theorem versions_interconvert_example : ∃ converted,
    transcode (tinyArtifact.spell .v1) .v2 = .ok converted ∧
      transcode converted .v1 = .ok (tinyArtifact.spell .v1) ∧
        (FormatVersion.v2 = .v1 → converted = tinyArtifact.spell .v1) := by
  obtain ⟨envelope, hdescribe⟩ := tinyArtifact.describe_spell .v1
  have haccepts : transcode (tinyArtifact.spell .v1) .v1 = .ok (tinyArtifact.spell .v1) :=
    transcode_ok_iff.mpr ⟨tinyArtifact, .v1, rfl, rfl⟩
  exact versions_interconvert hdescribe rfl haccepts .v2

end Curvy.Signet
