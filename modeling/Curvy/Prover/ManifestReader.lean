import Curvy.Lib.Panic
import Curvy.Prover.ChunkManifest

/-!
# A reader that shows chunks of a manifest only

A whole chunk is hashed before any byte of it is shown. A chunk that failed stays unavailable:
the next read asks the source for it again. What was returned and what is left of the buffer
are together the chunks that matched so far.
-/

namespace Curvy.Prover

set_option autoImplicit false

open Sparrow (hexDigest)

structure ManifestReader (S : Type) where
  source : S
  manifest : ZkeyChunkManifest
  chunk : List UInt8
  position : Nat
  nextChunk : Nat
  delivered : Nat

namespace ManifestReader

variable {S : Type} (sha256 : List UInt8 → List UInt8) (source : Source S)

def new (s : S) (manifest : ZkeyChunkManifest) : ManifestReader S := ⟨s, manifest, [], 0, 0, 0⟩

/-- `Vec::resize` with zeros. -/
def resize (chunk : List UInt8) (count : Nat) : List UInt8 :=
  chunk.take count ++ List.replicate (count - chunk.length) 0

def mismatch (index : Nat) (expected actual : List UInt8) : IoError :=
  ⟨.invalidData,
    s!"zkey chunk {index} SHA-256 mismatch: expected {hexDigest expected}, got {hexDigest actual}"⟩

/-- Fetches the next chunk and hashes it. -/
def fetch (r : ManifestReader S) : Except (Stop IoError) Unit × ManifestReader S :=
  let count := min (r.manifest.zkeyBytes - r.delivered) r.manifest.chunkBytes
  match source.readExact (resize r.chunk count) r.source with
  | ((.error e, chunk), s) =>
    (.error (.error e), { r with source := s, chunk, position := count })
  | ((.ok (), chunk), s) =>
    let r := { r with source := s, chunk, position := count }
    match r.manifest.chunkHashes[r.nextChunk]? with
    | none => (.error .panic, r)
    | some expected =>
      if sha256 chunk ≠ expected then
        (.error (.error (mismatch r.nextChunk expected (sha256 chunk))), r)
      else (.ok (), { r with nextChunk := r.nextChunk + 1, position := 0 })

/-- Copies what the output takes of the buffered chunk. -/
def copy (size : Nat) (r : ManifestReader S) :
    Except (Stop IoError) (List UInt8) × ManifestReader S :=
  if r.chunk.length < r.position then (.error .panic, r)
  else
    let count := min size (r.chunk.length - r.position)
    (.ok ((r.chunk.drop r.position).take count),
      { r with position := r.position + count, delivered := r.delivered + count })

/-- A read into an output of `size` bytes; it returns the bytes it put there. -/
def read (size : Nat) (r : ManifestReader S) :
    Except (Stop IoError) (List UInt8) × ManifestReader S :=
  if size = 0 ∨ r.delivered = r.manifest.zkeyBytes then (.ok [], r)
  else if r.position = r.chunk.length then
    Outcome.next (fetch sha256 source r) fun _ r => copy size r
  else copy size r

/-- The last one-byte read, repeated while it is interrupted; `none` if that goes on for
`rounds` reads. -/
def readEnd : Nat → List UInt8 → S → Option (Except ArtifactError Unit)
  | 0, _, _ => none
  | rounds + 1, chunk, s =>
    match source.read (chunk.take 1) s with
    | ((.ok count, _), _) =>
      if count = 0 then some (.ok ()) else some (invalid "zkey stream exceeds manifest size")
    | ((.error e, chunk), s) =>
      if e.kind = .interrupted then readEnd rounds chunk s else some (.error (.io e))

def finish (rounds : Nat) (r : ManifestReader S) : Option (Except ArtifactError Unit) :=
  if r.delivered ≠ r.manifest.zkeyBytes then some (.error .unexpectedEof)
  else readEnd source rounds (resize r.chunk 1) r.source

/-! ## Runs -/

def run : List Nat → ManifestReader S →
    List (Except (Stop IoError) (List UInt8)) × ManifestReader S
  | [], r => ([], r)
  | size :: sizes, r =>
    let (outcome, r) := read sha256 source size r
    let (outcomes, r) := run sizes r
    (outcome :: outcomes, r)

def bytesOf : Except (Stop IoError) (List UInt8) → List UInt8
  | .ok bytes => bytes
  | .error _ => []

/-- The bytes the calls returned. -/
def returned (outcomes : List (Except (Stop IoError) (List UInt8))) : List UInt8 :=
  outcomes.flatMap bytesOf

/-- The source answers a one-byte read with no byte, possibly after interruptions. -/
inductive AtEnd : S → Prop where
  | ends (slice : List UInt8) (s : S) : slice.length = 1 → (source.read slice s).1.1 = .ok 0 → AtEnd s
  | interrupted (slice : List UInt8) (s : S) (e : IoError) : slice.length = 1 →
      (source.read slice s).1.1 = .error e → e.kind = .interrupted →
      AtEnd (source.read slice s).2 → AtEnd s

/-- The length of chunk `index` of a zkey of the manifest's size. -/
def chunkLength (m : ZkeyChunkManifest) (index : Nat) : Nat :=
  min (m.zkeyBytes - index * m.chunkBytes) m.chunkBytes

/-- The first chunks of the manifest: each has its length and its digest. -/
structure Matches (m : ZkeyChunkManifest) (chunks : List (List UInt8)) : Prop where
  hashes : chunks.map sha256 = m.chunkHashes.take chunks.length
  lengths : ∀ i c, chunks[i]? = some c → c.length = chunkLength m i
  count : chunks.length ≤ m.chunkHashes.length

/-- The reader after it returned `out`: what the buffer still holds completes the chunks that
matched. -/
structure Serves (m : ZkeyChunkManifest) (out : List UInt8) (r : ManifestReader S) : Prop where
  manifest : r.manifest = m
  delivered : r.delivered = out.length
  position : r.position ≤ r.chunk.length
  chunks : ∃ chunks, Matches sha256 m chunks ∧ chunks.length = r.nextChunk ∧
    out ++ r.chunk.drop r.position = chunks.flatten

theorem chunkBytes_pos (m : ZkeyChunkManifest) : 0 < m.chunkBytes := by
  have h := m.chunkBytes_mem.1
  omega

/-- A chunk that starts before the end of the zkey is in the table. -/
theorem lt_count_iff (m : ZkeyChunkManifest) (index : Nat) :
    index < m.chunkHashes.length ↔ index * m.chunkBytes < m.zkeyBytes := by
  have hpos := chunkBytes_pos m
  rw [m.chunkHashes_length, Nat.lt_iff_add_one_le, Nat.le_div_iff_mul_le hpos, Nat.succ_mul]
  omega

variable {sha256}

theorem Matches.nil (m : ZkeyChunkManifest) : Matches sha256 m [] :=
  ⟨rfl, fun _ _ h => (by cases h), Nat.zero_le _⟩

theorem Matches.length_flatten {m : ZkeyChunkManifest} {chunks : List (List UInt8)}
    (h : Matches sha256 m chunks) :
    chunks.flatten.length = min (chunks.length * m.chunkBytes) m.zkeyBytes := by
  have hstep : ∀ k, k ≤ chunks.length →
      (chunks.take k).flatten.length = min (k * m.chunkBytes) m.zkeyBytes := by
    intro k
    induction k with
    | zero => simp
    | succ k ih =>
      intro hk
      have hget : chunks[k]? = some chunks[k] := List.getElem?_eq_getElem hk
      have hlength := h.lengths k _ hget
      have hstart := (lt_count_iff m k).mp (by have := h.count; omega)
      rw [List.take_add_one, hget, List.flatten_append, List.length_append, ih (by omega)]
      simp only [Option.toList_some, List.flatten_cons, List.flatten_nil, List.append_nil]
      rw [hlength, chunkLength, Nat.succ_mul]
      omega
  have hall := hstep chunks.length (Nat.le_refl _)
  rwa [List.take_length] at hall

theorem Matches.concat {m : ZkeyChunkManifest} {chunks : List (List UInt8)} {c expected : List UInt8}
    (h : Matches sha256 m chunks) (hexpected : m.chunkHashes[chunks.length]? = some expected)
    (hhash : sha256 c = expected) (hlength : c.length = chunkLength m chunks.length) :
    Matches sha256 m (chunks ++ [c]) where
  hashes := by
    rw [List.map_append, h.hashes, List.length_append, List.length_singleton, List.take_add_one,
      hexpected, ← hhash]
    rfl
  lengths := by
    intro i d hd
    rcases Nat.lt_or_ge i chunks.length with hi | hi
    · rw [List.getElem?_append_left hi] at hd
      exact h.lengths i d hd
    · rw [List.getElem?_append_right hi] at hd
      obtain ⟨hlt, hd⟩ := List.getElem?_eq_some_iff.mp hd
      have hi' : i = chunks.length := by
        simp only [List.length_singleton] at hlt
        omega
      subst hi'
      simp only [Nat.sub_self, List.getElem_cons_zero] at hd
      rw [← hd, hlength]
  count := by
    obtain ⟨hlt, -⟩ := List.getElem?_eq_some_iff.mp hexpected
    rw [List.length_append, List.length_singleton]
    omega

theorem resize_length (chunk : List UInt8) (count : Nat) : (resize chunk count).length = count := by
  rw [resize, List.length_append, List.length_take, List.length_replicate]
  omega

theorem new_serves (s : S) (m : ZkeyChunkManifest) : Serves sha256 m [] (new s m) :=
  ⟨rfl, rfl, Nat.le_refl _, [], .nil m, rfl, rfl⟩

/-- A failed fetch leaves nothing in the buffer, a good one leaves a whole chunk. -/
theorem fetch_spec {m : ZkeyChunkManifest} {out : List UInt8} {r : ManifestReader S}
    (h : Serves sha256 m out r) (hmore : r.delivered ≠ m.zkeyBytes)
    (hempty : r.position = r.chunk.length) :
    Serves sha256 m out (fetch sha256 source r).2 ∧
      (fetch sha256 source r).1 ≠ .error .panic := by
  obtain ⟨chunks, hchunks, hnext, hout⟩ := h.chunks
  obtain ⟨s, m', chunk, position, nextChunk, delivered⟩ := r
  obtain rfl : m' = m := h.manifest
  have hdelivered : delivered = out.length := h.delivered
  change position = chunk.length at hempty
  change chunks.length = nextChunk at hnext
  change delivered ≠ m'.zkeyBytes at hmore
  change out ++ chunk.drop position = chunks.flatten at hout
  rw [hempty, List.drop_length, List.append_nil] at hout
  have hlength := hchunks.length_flatten
  rw [← hout, ← hdelivered, hnext] at hlength
  -- the chunks so far are whole, so the next one starts where they end
  have hstart : delivered = nextChunk * m'.chunkBytes := by omega
  have hindex : nextChunk < m'.chunkHashes.length := (lt_count_iff m' nextChunk).mpr (by omega)
  have hcount : min (m'.zkeyBytes - delivered) m'.chunkBytes = chunkLength m' nextChunk := by
    rw [chunkLength, hstart]
  have hslice := source.readExact_length (resize chunk (chunkLength m' nextChunk)) s
  rw [resize_length] at hslice
  simp only [fetch, hcount]
  split
  · rename_i e chunk' s' hread
    rw [hread] at hslice
    refine ⟨⟨rfl, hdelivered, hslice.ge, chunks, hchunks, hnext, ?_⟩, fun hpanic => (by cases hpanic)⟩
    change out ++ chunk'.drop (chunkLength m' nextChunk) = chunks.flatten
    rw [← hslice, List.drop_length, List.append_nil, hout]
  · rename_i chunk' s' hread
    rw [hread] at hslice
    have hget : m'.chunkHashes[nextChunk]? = some m'.chunkHashes[nextChunk] :=
      List.getElem?_eq_getElem hindex
    simp only [hget]
    split
    · refine ⟨⟨rfl, hdelivered, hslice.ge, chunks, hchunks, hnext, ?_⟩,
        fun hpanic => (by cases hpanic)⟩
      change out ++ chunk'.drop (chunkLength m' nextChunk) = chunks.flatten
      rw [← hslice, List.drop_length, List.append_nil, hout]
    · rename_i hhash
      have hmatches : Matches sha256 m' (chunks ++ [chunk']) :=
        hchunks.concat (by rw [hnext, hget]) (not_not.mp hhash) (by rw [hnext]; exact hslice)
      refine ⟨⟨rfl, hdelivered, Nat.zero_le _, chunks ++ [chunk'], hmatches, ?_, ?_⟩,
        fun hpanic => (by cases hpanic)⟩
      · rw [List.length_append, List.length_singleton, hnext]
      · change out ++ chunk'.drop 0 = (chunks ++ [chunk']).flatten
        rw [List.flatten_append, hout, List.drop_zero]
        simp

theorem copy_spec {m : ZkeyChunkManifest} {out : List UInt8} {r : ManifestReader S}
    (h : Serves sha256 m out r) (size : Nat) :
    ∃ bytes, (copy size r).1 = .ok bytes ∧ Serves sha256 m (out ++ bytes) (copy size r).2 := by
  obtain ⟨chunks, hchunks, hnext, hout⟩ := h.chunks
  have hposition := h.position
  unfold copy
  rw [if_neg (by omega)]
  refine ⟨_, rfl, h.manifest, ?_, ?_, chunks, hchunks, hnext, ?_⟩
  · rw [List.length_append, List.length_take, List.length_drop, ← h.delivered]
    change r.delivered + _ = r.delivered + _
    omega
  · change r.position + _ ≤ r.chunk.length
    omega
  · change _ ++ r.chunk.drop (r.position + _) = _
    rw [← List.drop_drop, List.append_assoc, List.take_append_drop, hout]

/-- A call adds what it returned to the bytes shown; an error or a retry adds nothing. -/
theorem read_spec {m : ZkeyChunkManifest} {out : List UInt8} {r : ManifestReader S}
    (h : Serves sha256 m out r) (size : Nat) :
    Serves sha256 m (out ++ bytesOf (read sha256 source size r).1)
        (read sha256 source size r).2 ∧
      (read sha256 source size r).1 ≠ .error .panic := by
  unfold read
  split
  · refine ⟨?_, fun hpanic => (by cases hpanic)⟩
    rw [bytesOf, List.append_nil]
    exact h
  · rename_i hbusy
    split
    · rename_i hempty
      have hmore : r.delivered ≠ m.zkeyBytes := by
        rw [← h.manifest]
        exact fun heq => hbusy (.inr heq)
      obtain ⟨hserves, hsafe⟩ := fetch_spec source h hmore hempty
      cases hfetch : fetch sha256 source r with
      | mk result r' =>
        rw [hfetch] at hserves hsafe
        cases result with
        | error stop =>
          refine ⟨?_, fun hpanic => hsafe (by cases hpanic; rfl)⟩
          rw [Outcome.next_error, bytesOf, List.append_nil]
          exact hserves
        | ok u =>
          obtain ⟨bytes, hbytes, hcopied⟩ := copy_spec hserves size
          rw [Outcome.next_ok, hbytes]
          exact ⟨hcopied, fun hpanic => (by cases hpanic)⟩
    · obtain ⟨bytes, hbytes, hcopied⟩ := copy_spec h size
      rw [hbytes]
      exact ⟨hcopied, fun hpanic => (by cases hpanic)⟩

theorem run_spec {m : ZkeyChunkManifest} (sizes : List Nat) : ∀ {out : List UInt8} {r : ManifestReader S},
    Serves sha256 m out r →
    Serves sha256 m (out ++ returned (run sha256 source sizes r).1)
        (run sha256 source sizes r).2 ∧
      ∀ outcome ∈ (run sha256 source sizes r).1, outcome ≠ .error .panic := by
  induction sizes with
  | nil =>
    intro out r h
    refine ⟨?_, fun outcome hmem => (by cases hmem)⟩
    rw [run, returned, List.flatMap_nil, List.append_nil]
    exact h
  | cons size sizes ih =>
    intro out r h
    obtain ⟨hread, hsafe⟩ := read_spec source h size
    obtain ⟨hrun, hsafes⟩ := ih hread
    rw [List.append_assoc] at hrun
    exact ⟨hrun, List.forall_mem_cons.mpr ⟨hsafe, hsafes⟩⟩

theorem readEnd_ok {rounds : Nat} : ∀ {chunk : List UInt8} {s : S}, chunk.length = 1 →
    readEnd source rounds chunk s = some (.ok ()) → AtEnd source s := by
  induction rounds with
  | zero =>
    intro chunk s _ h
    cases h
  | succ rounds ih =>
    intro chunk s hlength h
    have htake : chunk.take 1 = chunk := List.take_of_length_le hlength.le
    have hslice := source.read_length chunk s
    unfold readEnd at h
    rw [htake] at h
    split at h
    · rename_i count slice s' hread
      split at h
      · rename_i hzero
        subst hzero
        exact .ends chunk s hlength (by rw [hread])
      · cases h
    · rename_i e slice s' hread
      rw [hread] at hslice
      split at h
      · rename_i hkind
        refine .interrupted chunk s e hlength (by rw [hread]) hkind ?_
        rw [hread]
        exact ih (hslice.trans hlength) h
      · cases h

/-- `finish` is reached with the whole zkey shown: every chunk of the table matched. -/
theorem finish_ok {m : ZkeyChunkManifest} {out : List UInt8} {r : ManifestReader S} {rounds : Nat}
    {chunks : List (List UInt8)} (h : Serves sha256 m out r)
    (hchunks : Matches sha256 m chunks) (hout : out ++ r.chunk.drop r.position = chunks.flatten)
    (hfinish : finish source rounds r = some (.ok ())) :
    out.length = m.zkeyBytes ∧ out = chunks.flatten ∧ chunks.map sha256 = m.chunkHashes ∧
      AtEnd source r.source := by
  unfold finish at hfinish
  split at hfinish
  · cases hfinish
  · rename_i hall
    have hlength : out.length = m.zkeyBytes := by
      rw [← h.delivered, ← h.manifest]
      exact not_not.mp hall
    have hflatten := hchunks.length_flatten
    have hsplit := congrArg List.length hout
    rw [List.length_append] at hsplit
    have hcount : chunks.length = m.chunkHashes.length := by
      apply Nat.le_antisymm hchunks.count
      by_contra hless
      have hstart := (lt_count_iff m chunks.length).mp (by omega)
      omega
    refine ⟨hlength, ?_, ?_, readEnd_ok source (resize_length _ _) hfinish⟩
    · have hrest : r.chunk.drop r.position = [] := List.eq_nil_of_length_eq_zero (by omega)
      rw [hrest, List.append_nil] at hout
      exact hout
    · rw [hchunks.hashes, hcount, List.take_length]

end ManifestReader

end Curvy.Prover
