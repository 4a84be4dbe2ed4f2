import Curvy.Prover.AuthenticatedReader

/-!
# What the authenticated reader shows

Reads, seeks and a source that changes at will: every byte shown is the snapshot's byte at
the position, or stands in a chunk that collides with the snapshot's chunk under the hash.
-/

namespace Curvy.Prover.AuthenticatedReader

set_option autoImplicit false

variable {S : Type} (sha256 : List UInt8 → List UInt8) (source : Source S)

/-! ## The first pass -/

variable {source} in
theorem fill_length {rounds : Nat} : ∀ {buffer : List UInt8} {filled : Nat} {s : S}
    {x : (Except IoError Nat × List UInt8) × S}, filled ≤ buffer.length →
    fill source rounds buffer filled s = some x →
    x.1.2.length = buffer.length ∧ ∀ count, x.1.1 = .ok count → count ≤ buffer.length := by
  induction rounds with
  | zero =>
    intro buffer filled s x _ h
    cases h
  | succ rounds ih =>
    intro buffer filled s x hfilled h
    unfold fill at h
    have hslice : ∀ slice : List UInt8, slice.length = (buffer.drop filled).length →
        (buffer.take filled ++ slice).length = buffer.length := by
      intro slice hslice
      rw [List.length_append, hslice, List.length_take, List.length_drop]
      omega
    split at h
    · rename_i hless
      have hlength := source.read_length (buffer.drop filled) s
      have hcount := source.read_count (buffer.drop filled) s
      split at h
      · rename_i count slice s' hread
        rw [hread] at hlength hcount
        have hlength' := hslice slice hlength
        split at h
        · cases h
          exact ⟨hlength', fun n hn => Except.ok.inj hn ▸ hfilled⟩
        · have hle := hcount count rfl
          rw [List.length_drop] at hle
          rw [← hlength']
          exact ih (by omega) h
      · rename_i e slice s' hread
        rw [hread] at hlength
        have hlength' := hslice slice hlength
        split at h
        · rw [← hlength']
          exact ih (by omega) h
        · cases h
          exact ⟨hlength', fun n hn => (by cases hn)⟩
    · cases h
      exact ⟨rfl, fun n hn => Except.ok.inj hn ▸ hfilled⟩

/-- The digests are those of the chunks of what was seen. -/
structure Pass.Ok (p : Pass) : Prop where
  hashes : p.hashes = (p.seen.chunks readerChunkBytes).map sha256
  buffer : p.buffer.length = readerChunkBytes

theorem readerChunkBytes_pos : 0 < readerChunkBytes := by decide

variable {sha256} {source} in
theorem pass_ok {fillRounds rounds : Nat} : ∀ {p p' : Pass} {s s' : S}, p.Ok sha256 →
    p.seen.length % readerChunkBytes = 0 → p.seen.length < 2 ^ 64 →
    pass sha256 source fillRounds rounds p s = some (.ok p', s') →
    p'.Ok sha256 ∧ p'.seen.length < 2 ^ 64 := by
  induction rounds with
  | zero =>
    intro p p' s s' _ _ _ h
    cases h
  | succ rounds ih =>
    intro p p' s s' hp hmod hsize h
    unfold pass at h
    split at h
    · cases h
    · cases h
    · rename_i filled buffer s₁ hfill
      obtain ⟨hlength, hcount⟩ := fill_length (Nat.zero_le _) hfill
      have hfilled := hcount filled rfl
      rw [hp.buffer] at hlength hfilled
      split at h
      · cases h
        exact ⟨⟨hp.hashes, hlength⟩, hsize⟩
      · rename_i hsome
        have htake : (buffer.take filled).length = filled := by
          rw [List.length_take]
          dsimp only at hlength
          omega
        have hnext : Pass.Ok sha256 ⟨p.seen ++ buffer.take filled,
            p.hashes ++ [sha256 (buffer.take filled)], buffer⟩ := by
          refine ⟨?_, hlength⟩
          dsimp only
          rw [List.chunks_append readerChunkBytes_pos
            (List.ne_nil_of_length_pos (by omega)) (by omega) p.seen hmod, hp.hashes,
            List.map_append]
          rfl
        dsimp only at h
        split at h
        · cases h
        · rename_i hbound
          split at h
          · cases h
            exact ⟨hnext, by dsimp only; omega⟩
          · rename_i hfull
            refine ih hnext ?_ (by dsimp only; omega) h
            dsimp only
            rw [List.length_append, htake, show filled = readerChunkBytes by omega,
              Nat.add_mod_right]
            exact hmod

/-! ## The invariant -/

/-- The reader serves `snapshot`: its digests are those of the snapshot's chunks, and a chunk
marked as cached has the digest it should have. -/
structure Serves (snapshot : List UInt8) (r : AuthenticatedReader S) : Prop where
  length : r.length = snapshot.length
  hashes : r.hashes = (snapshot.chunks readerChunkBytes).map sha256
  buffer : r.buffer.length = readerChunkBytes
  cached : ∀ i, r.cachedChunk = some i →
    some (sha256 (r.buffer.take (min (r.length - i * readerChunkBytes) readerChunkBytes))) =
      r.hashes[i]?

theorem new_serves {rounds : Nat} {s : S} {expected : String} {r : AuthenticatedReader S}
    (h : new sha256 source rounds s expected = some (.ok r)) :
    ∃ snapshot, decodeSha256 expected = .ok (sha256 snapshot) ∧ Serves sha256 snapshot r ∧
      r.position = 0 := by
  unfold new at h
  split at h
  · cases h
  · rename_i digest hdigest
    split at h
    · cases h
    · split at h
      · cases h
      · cases h
      · rename_i p s₁ hpass
        have hstart : Pass.Ok sha256 ⟨[], [], List.replicate readerChunkBytes 0⟩ :=
          ⟨rfl, List.length_replicate⟩
        obtain ⟨hp, -⟩ := pass_ok hstart rfl (Nat.two_pow_pos 64) hpass
        split at h
        · cases h
        · rename_i hverify
          cases h
          refine ⟨p.seen, ?_, ⟨rfl, hp.hashes, hp.buffer, fun i hi => (by cases hi)⟩, rfl⟩
          unfold verifyDigest at hverify
          rw [hdigest] at hverify ⊢
          dsimp only at hverify
          split at hverify
          · cases hverify
          · rename_i heq
            rw [Decidable.not_not.mp heq]

/-- Every chunk of the snapshot has a digest. -/
theorem Serves.digest {snapshot : List UInt8} {r : AuthenticatedReader S} (hr : Serves sha256 snapshot r)
    {index : Nat} (hindex : index * readerChunkBytes < r.length) :
    ∃ digest, r.hashes[index]? = some digest := by
  rw [hr.length] at hindex
  rw [hr.hashes, List.getElem?_map, List.getElem?_chunks readerChunkBytes_pos _ hindex]
  exact ⟨_, rfl⟩

variable {sha256} in
/-- A chunk of the snapshot is cached or refused by an error; there is no panic. -/
theorem cacheChunk_spec {snapshot : List UInt8} {index : Nat} {r : AuthenticatedReader S}
    (hr : Serves sha256 snapshot r) (hindex : index * readerChunkBytes < r.length) :
    ∃ q r', cacheChunk sha256 source index r = (q, r') ∧ q ≠ .error .panic ∧
      Serves sha256 snapshot r' ∧ r'.position = r.position ∧
      ∀ u, q = .ok u → r'.cachedChunk = some index := by
  unfold cacheChunk
  split
  · rename_i hcached
    exact ⟨_, _, rfl, fun h => (by cases h), hr, rfl, fun _ _ => hcached⟩
  · dsimp only
    rw [if_neg (Nat.not_lt.mpr hindex.le)]
    generalize hcount : min (r.length - index * readerChunkBytes) readerChunkBytes = count
    have hle : count ≤ r.buffer.length := by
      rw [hr.buffer]
      omega
    split
    · exact ⟨_, _, rfl, fun h => (by cases h),
        ⟨hr.length, hr.hashes, hr.buffer, fun i hi => (by cases hi)⟩, rfl, fun u hu => (by cases hu)⟩
    · rename_i s _
      have hslice := source.readExact_length (r.buffer.take count) s
      rw [List.length_take, Nat.min_eq_left hle] at hslice
      have hbuffer : ∀ slice : List UInt8, slice.length = count →
          (slice ++ r.buffer.drop count).length = readerChunkBytes := by
        intro slice hslice
        rw [List.length_append, hslice, List.length_drop, ← hr.buffer]
        omega
      split
      · rename_i hread
        rw [hread] at hslice
        exact ⟨_, _, rfl, fun h => (by cases h),
          ⟨hr.length, hr.hashes, hbuffer _ hslice, fun i hi => (by cases hi)⟩, rfl,
          fun u hu => (by cases hu)⟩
      · rename_i slice s' hread
        rw [hread] at hslice
        obtain ⟨digest, hdigest⟩ := hr.digest sha256 hindex
        rw [hdigest]
        dsimp only
        split
        · exact ⟨_, _, rfl, fun h => (by cases h),
            ⟨hr.length, hr.hashes, hbuffer _ hslice, fun i hi => (by cases hi)⟩, rfl,
            fun u hu => (by cases hu)⟩
        · rename_i hash
          refine ⟨_, _, rfl, fun h => (by cases h),
            ⟨hr.length, hr.hashes, hbuffer _ hslice, fun i hi => ?_⟩, rfl, fun _ _ => rfl⟩
          cases hi
          dsimp only
          rw [hcount, hdigest, Decidable.not_not.mp hash]

/-! ## What is shown -/

/-- The snapshot's chunk around a position. -/
def chunkAt (snapshot : List UInt8) (position : Nat) : List UInt8 :=
  (snapshot.drop (position / readerChunkBytes * readerChunkBytes)).take readerChunkBytes

/-- The bytes are the snapshot's, or those of a chunk that collides with the snapshot's. -/
def Shows (snapshot : List UInt8) (position : Nat) (bytes : List UInt8) : Prop :=
  bytes = (snapshot.drop position).take bytes.length ∨
    ∃ chunk, chunk ≠ chunkAt snapshot position ∧
      sha256 chunk = sha256 (chunkAt snapshot position) ∧
      chunk.length = (chunkAt snapshot position).length ∧
      bytes = (chunk.drop (position % readerChunkBytes)).take bytes.length

/-- How many bytes a read delivers: none at the end, and never beyond the chunk. -/
def readLength (length position size : Nat) : Nat :=
  if size = 0 ∨ position ≥ length then 0
  else min (min size (readerChunkBytes - position % readerChunkBytes)) (length - position)

/-- A part of a chunk's part. -/
theorem drop_take_take {α : Type} (l : List α) {offset count size : Nat}
    (h : offset + count ≤ size) :
    ((l.take size).drop offset).take count = (l.drop offset).take count := by
  rw [List.drop_take, List.take_take, Nat.min_eq_left (by omega)]

variable {sha256} in
/-- A cached chunk has the digest of the snapshot's chunk, and its size. -/
theorem Serves.cached_chunk {snapshot : List UInt8} {r : AuthenticatedReader S}
    (hr : Serves sha256 snapshot r) (hposition : r.position < snapshot.length)
    (hcached : r.cachedChunk = some (r.position / readerChunkBytes)) :
    ∃ size, (r.buffer.take size).length = size ∧
      size = min readerChunkBytes
        (snapshot.length - r.position / readerChunkBytes * readerChunkBytes) ∧
      sha256 (r.buffer.take size) = sha256 (chunkAt snapshot r.position) ∧
      (r.buffer.take size).length = (chunkAt snapshot r.position).length := by
  have hstart : r.position / readerChunkBytes * readerChunkBytes < snapshot.length :=
    Nat.lt_of_le_of_lt (Nat.div_mul_le_self _ _) hposition
  have hash := hr.cached _ hcached
  rw [hr.hashes, List.getElem?_map, List.getElem?_chunks readerChunkBytes_pos _ hstart,
    hr.length, Nat.min_comm] at hash
  have hlength : (r.buffer.take (min readerChunkBytes
      (snapshot.length - r.position / readerChunkBytes * readerChunkBytes))).length =
      min readerChunkBytes
        (snapshot.length - r.position / readerChunkBytes * readerChunkBytes) := by
    rw [List.length_take, hr.buffer]
    omega
  refine ⟨_, hlength, rfl, Option.some.inj hash, ?_⟩
  rw [hlength, chunkAt, List.length_take, List.length_drop]

variable {sha256} in
theorem read_spec {snapshot : List UInt8} (size : Nat) {r : AuthenticatedReader S}
    (hr : Serves sha256 snapshot r) : ∃ q r', read sha256 source size r = (q, r') ∧
      q ≠ .error .panic ∧ Serves sha256 snapshot r' ∧
      (∀ bytes, q = .ok bytes → Shows sha256 snapshot r.position bytes ∧
        bytes.length = readLength snapshot.length r.position size ∧
        r'.position = r.position + bytes.length) ∧
      ∀ e, q = .error e → size ≠ 0 ∧ r.position < snapshot.length ∧
        r'.position = r.position := by
  unfold read readLength
  rw [← hr.length]
  split
  · refine ⟨_, _, rfl, fun h => (by cases h), hr, fun bytes hbytes => ?_, fun e he => (by cases he)⟩
    cases hbytes
    exact ⟨.inl rfl, rfl, rfl⟩
  · rename_i hmore
    have hposition : r.position < r.length := by omega
    have hindex : r.position / readerChunkBytes * readerChunkBytes < r.length :=
      Nat.lt_of_le_of_lt (Nat.div_mul_le_self _ _) hposition
    obtain ⟨q, r', hcache, hsafe, hr', hposition', hcached⟩ := cacheChunk_spec source hr hindex
    dsimp only
    rw [hcache]
    cases q with
    | error e =>
      refine ⟨_, _, rfl, fun h => hsafe (by rw [Except.error.inj h]), hr',
        fun bytes hbytes => (by cases hbytes), fun e' _ => ?_⟩
      exact ⟨by omega, hposition, hposition'⟩
    | ok u =>
      refine ⟨_, _, rfl, fun h => (by cases h), ⟨hr'.length, hr'.hashes, hr'.buffer, hr'.cached⟩,
        fun bytes hbytes => ?_, fun e he => (by cases he)⟩
      cases hbytes
      have hr'length : r'.length = snapshot.length := hr'.length
      obtain ⟨chunkSize, hsize, hsizeEq, hash, hlength⟩ := hr'.cached_chunk
        (by rw [hposition', ← hr.length]; exact hposition) (by rw [hposition']; exact hcached u rfl)
      rw [hposition'] at hsizeEq hash hlength ⊢
      rw [hr'length, hr.length]
      rw [hr.length] at hposition
      have hoffset := Nat.mod_lt r.position readerChunkBytes_pos
      have hdiv := Nat.div_add_mod' r.position readerChunkBytes
      generalize hcount : min (min size (readerChunkBytes - r.position % readerChunkBytes))
        (min (snapshot.length - r.position) readerChunkBytes) = count
      have hin : r.position % readerChunkBytes + count ≤ chunkSize := by omega
      have hbytes : ((r'.buffer.drop (r.position % readerChunkBytes)).take count).length =
          count := by
        rw [List.length_take, List.length_drop, hr'.buffer]
        omega
      refine ⟨?_, by rw [hbytes]; omega, by rw [hbytes]⟩
      unfold Shows
      rw [hbytes]
      by_cases heq : r'.buffer.take chunkSize = chunkAt snapshot r.position
      · left
        rw [← drop_take_take _ hin, heq, chunkAt, drop_take_take _ (by omega), List.drop_drop, hdiv]
      · exact .inr ⟨r'.buffer.take chunkSize, heq, hash, hlength, (drop_take_take _ hin).symm⟩

/-! ## Runs -/

/-- The outcomes of calls on a cursor over the snapshot, from a position on. A read shows
bytes of the snapshot and moves past them, or fails where it is, and not at the end. No read
panics. -/
def Obeys (snapshot : List UInt8) : Nat → List (Op S) → List Outcome → Prop
  | _, [], [] => True
  | position, .read size :: ops, .bytes (.ok bytes) :: outcomes =>
    Shows sha256 snapshot position bytes ∧
      bytes.length = readLength snapshot.length position size ∧
      Obeys snapshot (position + bytes.length) ops outcomes
  | position, .read size :: ops, .bytes (.error (.error _)) :: outcomes =>
    size ≠ 0 ∧ position < snapshot.length ∧ Obeys snapshot position ops outcomes
  | position, .seek target :: ops, .position (.ok reached) :: outcomes =>
    target.target position snapshot.length = some reached ∧
      Obeys snapshot reached ops outcomes
  | position, .seek target :: ops, .position (.error _) :: outcomes =>
    target.target position snapshot.length = none ∧ Obeys snapshot position ops outcomes
  | position, .tamper _ :: ops, .tampered :: outcomes => Obeys snapshot position ops outcomes
  | _, _, _ => False

variable {sha256} in
theorem run_obeys {snapshot : List UInt8} (ops : List (Op S)) : ∀ {r : AuthenticatedReader S},
    Serves sha256 snapshot r →
    Obeys sha256 snapshot r.position ops (run sha256 source ops r).1 := by
  induction ops with
  | nil => exact fun _ => trivial
  | cons op ops ih =>
    intro r hr
    unfold run
    cases op with
    | read size =>
      obtain ⟨q, r', hread, hsafe, hr', hok, herror⟩ := read_spec source size hr
      dsimp only [step]
      rw [hread]
      cases q with
      | ok bytes =>
        obtain ⟨hshows, hlength, hposition⟩ := hok bytes rfl
        exact ⟨hshows, hlength, hposition ▸ ih hr'⟩
      | error stop =>
        obtain ⟨hsize, hmore, hposition⟩ := herror stop rfl
        cases stop with
        | panic => exact absurd rfl hsafe
        | error e => exact ⟨hsize, hmore, hposition ▸ ih hr'⟩
    | seek target =>
      dsimp only [step]
      unfold seek
      rw [hr.length]
      cases htarget : target.target r.position snapshot.length with
      | none => exact ⟨htarget, ih hr⟩
      | some position =>
        refine ⟨htarget, ?_⟩
        rw [← hr.length]
        exact ih (r := { r with position }) ⟨hr.length, hr.hashes, hr.buffer, hr.cached⟩
    | tamper change =>
      exact ih (r := { r with source := change r.source })
        ⟨hr.length, hr.hashes, hr.buffer, hr.cached⟩

/-- After a successful construction, whatever the source does and whatever is called, the
reader behaves as a cursor over one snapshot with the expected digest. -/
theorem reads_show_the_snapshot {rounds : Nat} {s : S} {expected : String}
    {r : AuthenticatedReader S} (h : new sha256 source rounds s expected = some (.ok r)) :
    ∃ snapshot, decodeSha256 expected = .ok (sha256 snapshot) ∧
      ∀ ops, Obeys sha256 snapshot 0 ops (run sha256 source ops r).1 := by
  obtain ⟨snapshot, hdigest, hserves, hposition⟩ := new_serves sha256 source h
  exact ⟨snapshot, hdigest, fun ops => hposition ▸ run_obeys source ops hserves⟩

/-- A source over bytes that stay, with a position. -/
def cursor : Source (List UInt8 × Nat) where
  read slice s :=
    let bytes := (s.1.drop s.2).take slice.length
    ((.ok bytes.length, bytes ++ slice.drop bytes.length), (s.1, s.2 + bytes.length))
  readExact slice s :=
    let bytes := (s.1.drop s.2).take slice.length
    ((if bytes.length = slice.length then .ok () else .error ⟨.unexpectedEof, "eof"⟩,
      bytes ++ slice.drop bytes.length), (s.1, s.2 + bytes.length))
  seekStart position s := (.ok (), (s.1, position))
  read_length slice s := by
    simp only [List.length_append, List.length_take, List.length_drop]
    omega
  read_count slice s count h := by
    cases h
    rw [List.length_take]
    omega
  readExact_length slice s := by
    simp only [List.length_append, List.length_take, List.length_drop]
    omega

/-- The digest of the bytes `abc`, the only input it is computed on here. -/
def abcDigest (_ : List UInt8) : List UInt8 :=
  [0xba, 0x78, 0x16, 0xbf, 0x8f, 0x01, 0xcf, 0xea, 0x41, 0x41, 0x40, 0xde, 0x5d, 0xae, 0x22, 0x23,
    0xb0, 0x03, 0x61, 0xa3, 0x96, 0x17, 0x7a, 0x9c, 0xb4, 0x10, 0xff, 0x61, 0xf2, 0x00, 0x15, 0xad]

def abcPin : String := "ba7816bf8f01cfea414140de5dae2223b00361a396177a9cb410ff61f20015ad"

def abcBytes : List UInt8 := [0x61, 0x62, 0x63]

theorem cursor_read_abc {slice : List UInt8} (h : 3 < slice.length) :
    cursor.read slice (abcBytes, 0) = ((.ok 3, abcBytes ++ slice.drop 3), (abcBytes, 3)) := by
  have htake : (abcBytes.drop 0).take slice.length = abcBytes :=
    List.take_of_length_le (Nat.le_of_lt h)
  simp only [cursor, htake]
  rfl

theorem cursor_read_end (slice : List UInt8) :
    cursor.read slice (abcBytes, 3) = ((.ok 0, slice), (abcBytes, 3)) := by
  have htake : (abcBytes.drop 3).take slice.length = [] := List.take_nil
  simp only [cursor, htake]
  rfl

theorem fill_abc {buffer : List UInt8} (h : 3 < buffer.length) :
    fill cursor 3 buffer 0 (abcBytes, 0) =
      some ((.ok 3, abcBytes ++ buffer.drop 3), (abcBytes, 3)) := by
  have hmore : 0 + 3 < (abcBytes ++ buffer.drop 3).length := by
    rw [List.length_append, List.length_drop, show abcBytes.length = 3 from rfl]
    omega
  rw [fill, if_pos (Nat.lt_of_le_of_lt (Nat.zero_le 3) h), List.drop_zero, cursor_read_abc h]
  dsimp only
  rw [if_neg (by decide), List.take_zero, List.nil_append, fill, if_pos hmore, cursor_read_end]
  dsimp only
  rw [if_pos rfl, List.take_append_drop]

theorem pass_abc {buffer : List UInt8} (h : 3 < buffer.length) :
    pass abcDigest cursor 3 3 ⟨[], [], buffer⟩ (abcBytes, 0) =
      some (.ok ⟨abcBytes, [abcDigest abcBytes], abcBytes ++ buffer.drop 3⟩, (abcBytes, 3)) := by
  have htake : (abcBytes ++ buffer.drop 3).take 3 = abcBytes := List.take_left' rfl
  rw [pass, fill_abc h]
  dsimp only
  rw [if_neg (by decide), htake, List.nil_append, if_neg (by decide), if_pos (by decide),
    List.nil_append]

theorem new_ok {rounds : Nat} {s s₁ s₂ : S} {expected : String} {digest : List UInt8} {p : Pass}
    (hdecode : decodeSha256 expected = .ok digest) (hseek : source.seekStart 0 s = (.ok (), s₁))
    (hpass : pass sha256 source rounds rounds ⟨[], [], List.replicate readerChunkBytes 0⟩ s₁ =
      some (.ok p, s₂)) (hash : sha256 p.seen = digest) :
    new sha256 source rounds s expected =
      some (.ok ⟨s₂, p.seen.length, 0, p.hashes, p.buffer, none⟩) := by
  rw [new, hdecode]
  dsimp only
  rw [hseek]
  dsimp only
  rw [hpass]
  dsimp only
  rw [verifyDigest, hdecode]
  dsimp only
  rw [if_neg (not_not_intro hash)]

theorem new_abc : ∃ r, new abcDigest cursor 3 (abcBytes, 0) abcPin = some (.ok r) := by
  have hbuffer : 3 < (List.replicate readerChunkBytes (0 : UInt8)).length := by
    rw [List.length_replicate]
    decide
  have hdecode : decodeSha256 abcPin = .ok (abcDigest abcBytes) := by decide
  exact ⟨_, new_ok abcDigest cursor hdecode rfl (pass_abc hbuffer) rfl⟩

/-- A reader over three bytes. -/
theorem reads_show_abc : ∃ r snapshot, decodeSha256 abcPin = .ok (abcDigest snapshot) ∧
    ∀ ops, Obeys abcDigest snapshot 0 ops (run abcDigest cursor ops r).1 := by
  obtain ⟨r, h⟩ := new_abc
  exact ⟨r, reads_show_the_snapshot abcDigest cursor h⟩

end Curvy.Prover.AuthenticatedReader
