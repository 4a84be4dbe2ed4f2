import Curvy.Prover.ManifestReader

/-!
# Manifests are exact

A stream holds some bytes and hands them over in pieces of its choice. Generation over a stream
writes the manifest of its bytes, parsing reads that manifest back, and the recheck accepts a
stream exactly if its chunks and the whole of it have the digests of the manifest.
-/

namespace Curvy.Prover

set_option autoImplicit false

open Sparrow (hexDigest)

/-- The source is a stream: `left` is what it has not handed over yet. -/
structure Streams {S : Type} (source : Source S) (left : S → List UInt8) : Prop where
  read : ∀ slice s, ∃ count, count ≤ (left s).length ∧ (slice ≠ [] → left s ≠ [] → 0 < count) ∧
    (source.read slice s).1 = (.ok count, (left s).take count ++ slice.drop count) ∧
    left (source.read slice s).2 = (left s).drop count
  readExact : ∀ slice s, slice.length ≤ (left s).length →
    (source.readExact slice s).1 = (.ok (), (left s).take slice.length) ∧
    left (source.readExact slice s).2 = (left s).drop slice.length
  readExact_short : ∀ slice s, (left s).length < slice.length →
    ∃ e, (source.readExact slice s).1.1 = .error e ∧ e.kind = .unexpectedEof

namespace ZkeyChunkManifest

variable {S : Type} {sha256 : List UInt8 → List UInt8} {source : Source S} {left : S → List UInt8}

/-! ## Generation -/

theorem fillChunk_stream (hstream : Streams source left) {rounds : Nat} :
    ∀ (chunk : List UInt8) (filled : Nat) (s : S), filled ≤ chunk.length → (left s).length < rounds →
      ∃ chunk' s', fillChunk source rounds chunk filled s =
          some ((.ok (filled + min (chunk.length - filled) (left s).length), chunk'), s') ∧
        chunk'.length = chunk.length ∧
        chunk'.take (filled + min (chunk.length - filled) (left s).length) =
          chunk.take filled ++ (left s).take (chunk.length - filled) ∧
        left s' = (left s).drop (chunk.length - filled) := by
  induction rounds with
  | zero =>
    intro chunk filled s _ h
    cases h
  | succ rounds ih =>
    intro chunk filled s hfilled hrounds
    unfold fillChunk
    by_cases hfull : filled = chunk.length
    · refine ⟨chunk, s, ?_, rfl, ?_, ?_⟩
      · rw [if_neg (not_not.mpr hfull), hfull]
        simp
      · simp [hfull]
      · simp [hfull]
    · rw [if_pos hfull]
      obtain ⟨count, hle, hpos, hread, hleft⟩ := hstream.read (chunk.drop filled) s
      have hcount := source.read_count (chunk.drop filled) s count (by rw [hread])
      rw [List.length_drop] at hcount
      cases hcall : source.read (chunk.drop filled) s with
      | mk result s' =>
        rw [hcall] at hread hleft
        change result = _ at hread
        change left s' = _ at hleft
        subst hread
        have hsome : chunk.drop filled ≠ [] := by
          apply List.ne_nil_of_length_pos
          rw [List.length_drop]
          omega
        by_cases hzero : count = 0
        · -- only an exhausted stream answers with no byte
          have hnil : left s = [] := by
            by_contra hne
            have := hpos hsome hne
            omega
          subst hzero
          refine ⟨chunk, s', ?_, rfl, ?_, ?_⟩
          · simp [hnil]
          · simp [hnil]
          · rw [hleft, hnil]
            simp
        · simp only [if_neg hzero]
          have hsize : (chunk.take filled ++ ((left s).take count ++
              (chunk.drop filled).drop count)).length = chunk.length := by
            simp only [List.length_append, List.length_take, List.length_drop]
            omega
          obtain ⟨chunk', s'', hfill, hlength, htake, hrest⟩ :=
            ih (chunk.take filled ++ ((left s).take count ++ (chunk.drop filled).drop count))
              (filled + count) s' (by omega) (by rw [hleft, List.length_drop]; omega)
          have hamount : filled + count + min (chunk.length - (filled + count)) (left s').length =
              filled + min (chunk.length - filled) (left s).length := by
            rw [hleft, List.length_drop]
            omega
          rw [hsize, hamount] at hfill htake
          rw [hsize] at hlength hrest
          refine ⟨chunk', s'', hfill, hlength, ?_, ?_⟩
          · have hfront : (chunk.take filled ++ ((left s).take count ++
                (chunk.drop filled).drop count)).take (filled + count) =
                chunk.take filled ++ (left s).take count := by
              rw [← List.append_assoc]
              apply List.take_left'
              rw [List.length_append, List.length_take, List.length_take]
              omega
            have hmore : chunk.length - filled = count + (chunk.length - (filled + count)) := by omega
            rw [htake, hleft, hfront, hmore, List.take_add, List.append_assoc]
          · rw [hrest, hleft, List.drop_drop]
            congr 1
            omega

theorem fillChunk_from_start (hstream : Streams source left) {rounds : Nat} (chunk : List UInt8) {s : S}
    (hrounds : (left s).length < rounds) :
    ∃ chunk' s', fillChunk source rounds chunk 0 s =
        some ((.ok (min chunk.length (left s).length), chunk'), s') ∧
      chunk'.length = chunk.length ∧
      chunk'.take (min chunk.length (left s).length) = (left s).take chunk.length ∧
      left s' = (left s).drop chunk.length := by
  obtain ⟨chunk', s', hcall, hlength, htake, hrest⟩ :=
    fillChunk_stream hstream chunk 0 s (Nat.zero_le _) hrounds
  rw [Nat.sub_zero, Nat.zero_add] at hcall htake
  exact ⟨chunk', s', hcall, hlength, htake, hrest⟩

theorem hashChunks_stream (hstream : Streams source left) {size fillRounds : Nat} (hsize : 0 < size)
    (rest : List UInt8) : ∀ {rounds : Nat} {h : Hashed} {chunk : List UInt8} {s : S},
      chunk.length = size → left s = rest → rest.length < fillRounds → rest.length < rounds →
      h.zkey.length < 2 ^ 64 →
      hashChunks sha256 source fillRounds rounds h chunk s =
        some (if h.zkey.length + rest.length < 2 ^ 64 then
            .ok ⟨h.zkey ++ rest, h.chunkHashes ++ (rest.chunks size).map sha256⟩
          else invalid "zkey size overflow") := by
  induction rest using List.chunks_induction hsize with
  | nil =>
    intro rounds h chunk s hchunk hleft hfill hrounds hshort
    obtain ⟨chunk', s', hcall, -, -, -⟩ :=
      fillChunk_from_start hstream chunk (hleft.symm ▸ hfill)
    rw [hleft, List.length_nil, Nat.min_zero] at hcall
    cases rounds with
    | zero => cases hrounds
    | succ rounds =>
      simp only [hashChunks, hcall, if_true, List.length_nil, Nat.add_zero, if_pos hshort,
        List.append_nil, List.chunks_nil, List.map_nil]
  | cut rest hne ih =>
    intro rounds h chunk s hchunk hleft hfill hrounds hshort
    have hpos := List.length_pos_of_ne_nil hne
    obtain ⟨chunk', s', hcall, hlength, htake, hrest⟩ :=
      fillChunk_from_start hstream chunk (hleft.symm ▸ hfill)
    rw [hleft, hchunk] at hcall htake hrest
    rw [hchunk] at hlength
    cases rounds with
    | zero => omega
    | succ rounds =>
      simp only [hashChunks, hcall, htake]
      rw [if_neg (by omega)]
      by_cases hfits : h.zkey.length + min size rest.length < 2 ^ 64
      · rw [if_neg (by omega)]
        by_cases hlong : size ≤ rest.length
        · have hmin : min size rest.length = size := Nat.min_eq_left hlong
          have htaken : (h.zkey ++ rest.take size).length = h.zkey.length + size := by
            rw [List.length_append, List.length_take, hmin]
          have hsum : (h.zkey ++ rest.take size).length + (rest.drop size).length =
              h.zkey.length + rest.length := by
            rw [htaken, List.length_drop]
            omega
          have hsum' : (h.zkey ++ rest.take size).length < 2 ^ 64 := by
            rw [htaken]
            omega
          rw [hmin, if_neg (by omega), ih hlength hrest (by rw [List.length_drop]; omega)
            (by rw [List.length_drop]; omega) (hsum' : (h.zkey ++ rest.take size).length < 2 ^ 64)]
          simp only [hsum]
          rw [List.append_assoc, List.take_append_drop, List.append_assoc,
            List.chunks_of_ne_nil hsize hne]
          rfl
        · have hdrop : rest.drop size = [] := List.drop_eq_nil_of_le (by omega)
          rw [if_pos (by omega), if_pos (by omega), List.chunks_of_ne_nil hsize hne, hdrop,
            List.take_of_length_le (by omega)]
          rfl
      · rw [if_pos (by omega), if_neg (by omega)]

theorem hashChunks_all (hstream : Streams source left) {rounds chunkBytes : Nat} {s : S}
    (hpos : 0 < chunkBytes) (hrounds : (left s).length < rounds) :
    hashChunks sha256 source rounds rounds ⟨[], []⟩ (List.replicate chunkBytes 0) s =
      some (if (left s).length < 2 ^ 64 then .ok ⟨left s, ((left s).chunks chunkBytes).map sha256⟩
        else invalid "zkey size overflow") := by
  rw [hashChunks_stream hstream hpos (left s) List.length_replicate rfl hrounds hrounds (by decide)]
  simp only [List.length_nil, Nat.zero_add, List.nil_append]

theorem generate_stream (hstream : Streams source left) {rounds chunkBytes : Nat} {s : S}
    (hrounds : (left s).length < rounds) (hvalid : ValidChunkBytes chunkBytes)
    (hsize : (left s).length < 2 ^ 64) :
    generate sha256 source rounds chunkBytes s =
      some (if (left s).length = 0 then invalid "cannot manifest an empty zkey"
        else if chunkCount (left s).length chunkBytes ≥ 2 ^ 32 then invalid "too many manifest chunks"
        else
          let encoded := encode chunkBytes (left s).length (sha256 (left s))
            (((left s).chunks chunkBytes).map sha256)
          .ok (encoded, hexDigest (sha256 encoded))) := by
  have hpos : 0 < chunkBytes := Nat.lt_of_lt_of_le (by decide) hvalid.1.1
  have hcount : (((left s).chunks chunkBytes).map sha256).length = chunkCount (left s).length chunkBytes := by
    rw [List.length_map, List.length_chunks hpos, chunkCount]
  unfold generate
  rw [if_neg (not_not.mpr hvalid), hashChunks_all hstream hpos hrounds, if_pos hsize]
  simp only [hcount]
  split
  · rfl
  · split <;> rfl

/-- An invalid chunk size, no byte and more chunks than the header counts are refused. -/
theorem generate_refuses (hstream : Streams source left) {rounds chunkBytes : Nat} {s : S}
    (hrounds : (left s).length < rounds)
    (hbad : ¬ (ValidChunkBytes chunkBytes ∧ left s ≠ [] ∧
      chunkCount (left s).length chunkBytes < 2 ^ 32)) :
    ∃ e, generate sha256 source rounds chunkBytes s = some (.error e) := by
  by_cases hvalid : ValidChunkBytes chunkBytes
  · by_cases hsize : (left s).length < 2 ^ 64
    · rw [generate_stream hstream hrounds hvalid hsize]
      by_cases hempty : (left s).length = 0
      · rw [if_pos hempty]
        exact ⟨_, rfl⟩
      · have hmany : chunkCount (left s).length chunkBytes ≥ 2 ^ 32 := by
          by_contra hfew
          exact hbad ⟨hvalid, fun hnil => hempty (by rw [hnil]; rfl), Nat.lt_of_not_le hfew⟩
        rw [if_neg hempty, if_pos hmany]
        exact ⟨_, rfl⟩
    · have hpos : 0 < chunkBytes := Nat.lt_of_lt_of_le (by decide) hvalid.1.1
      unfold generate
      rw [if_neg (not_not.mpr hvalid), hashChunks_all hstream hpos hrounds, if_neg hsize]
      exact ⟨_, rfl⟩
  · unfold generate
    rw [if_pos hvalid]
    exact ⟨_, rfl⟩

/-! ## Parsing what generation wrote -/

theorem slice_split (before field : List UInt8) {bytes after : List UInt8} {start stop : Nat}
    (h : bytes = before ++ (field ++ after)) (hstart : before.length = start)
    (hstop : start + field.length = stop) : slice bytes start stop = field := by
  rw [h, slice, List.drop_left' hstart]
  exact List.take_left' (by omega)

theorem hexDigit_spec : ∀ n, n < 16 →
    isAsciiHexdigit (Sparrow.hexDigit n) = true ∧ (Sparrow.hexDigit n).toLower = Sparrow.hexDigit n := by
  decide

theorem mem_hexDigest {d : List UInt8} {c : Char} (h : c ∈ (hexDigest d).toList) :
    isAsciiHexdigit c = true ∧ c.toLower = c := by
  rw [hexDigest, String.toList_ofList] at h
  obtain ⟨b, -, hc⟩ := List.mem_flatMap.mp h
  have hb := b.toNat_lt
  rcases List.mem_cons.mp hc with rfl | hc
  · exact hexDigit_spec _ (by omega)
  · rw [List.mem_singleton.mp hc]
    exact hexDigit_spec _ (by omega)

theorem length_hexDigest (d : List UInt8) : (hexDigest d).toList.length = 2 * d.length := by
  rw [hexDigest, String.toList_ofList]
  induction d with
  | nil => rfl
  | cons b d ih =>
    rw [List.flatMap_cons, List.length_append, ih, List.length_cons]
    simp only [List.length_cons, List.length_nil]
    omega

/-- A spelled digest is already in the form the parser compares. -/
theorem normalizeHash_hexDigest {d : List UInt8} (hlength : d.length = hashBytes) :
    normalizeHash (hexDigest d) = .ok (hexDigest d) := by
  have hall : (hexDigest d).toList.all isAsciiHexdigit = true :=
    List.all_eq_true.mpr fun c hc => (mem_hexDigest hc).1
  have hlower : (hexDigest d).toList.map Char.toLower = (hexDigest d).toList := by
    conv => rhs; rw [← List.map_id (hexDigest d).toList]
    exact List.map_congr_left fun c hc => (mem_hexDigest hc).2
  unfold normalizeHash
  rw [if_neg, toAsciiLowercase, hlower, String.ofList_toList]
  rw [length_hexDigest, hlength, hall]
  decide

/-- The fields of an encoding, read at their places. -/
structure Fields (bytes : List UInt8) (chunkBytes zkeyBytes : Nat) (zkeyDigest : List UInt8)
    (chunkHashes : List (List UInt8)) : Prop where
  magic : bytes.take 8 = manifestMagic
  version : leNat (slice bytes 8 12) = manifestVersion
  chunkBytes : leNat (slice bytes 12 16) = chunkBytes
  zkeyBytes : leNat (slice bytes 16 24) = zkeyBytes
  zkeyDigest : slice bytes 24 56 = zkeyDigest
  count : leNat (slice bytes 56 60) = chunkHashes.length
  table : bytes.drop headerBytes = chunkHashes.flatten
  length : bytes.length = headerBytes + chunkHashes.length * hashBytes

theorem encode_fields {chunkBytes zkeyBytes : Nat} {zkeyDigest : List UInt8}
    {chunkHashes : List (List UInt8)} (hchunk : chunkBytes < 2 ^ 32) (hzkey : zkeyBytes < 2 ^ 64)
    (hdigest : zkeyDigest.length = 32) (hcount : chunkHashes.length < 2 ^ 32)
    (hhashes : ∀ hash ∈ chunkHashes, hash.length = hashBytes) :
    Fields (encode chunkBytes zkeyBytes zkeyDigest chunkHashes) chunkBytes zkeyBytes zkeyDigest
      chunkHashes := by
  have hmagic : manifestMagic.length = 8 := rfl
  have hflatten : chunkHashes.flatten.length = chunkHashes.length * hashBytes :=
    List.length_flatten_of_forall hhashes
  have hrest : (manifestMagic ++ leBytes 4 manifestVersion ++ leBytes 4 chunkBytes ++
      leBytes 8 zkeyBytes ++ zkeyDigest ++ leBytes 4 chunkHashes.length).length = headerBytes := by
    simp [hmagic, hdigest, headerBytes]
  constructor
  · exact List.take_left' hmagic
  · rw [slice_split manifestMagic (leBytes 4 manifestVersion)
      (by simp only [encode]; rfl) hmagic (by simp)]
    exact leNat_leBytes (by decide)
  · rw [slice_split (manifestMagic ++ leBytes 4 manifestVersion) (leBytes 4 chunkBytes)
      (by simp only [encode, List.append_assoc]; rfl) (by simp [hmagic]) (by simp)]
    exact leNat_leBytes hchunk
  · rw [slice_split (manifestMagic ++ leBytes 4 manifestVersion ++ leBytes 4 chunkBytes)
      (leBytes 8 zkeyBytes) (by simp only [encode, List.append_assoc]; rfl) (by simp [hmagic])
      (by simp)]
    exact leNat_leBytes hzkey
  · exact slice_split (manifestMagic ++ leBytes 4 manifestVersion ++ leBytes 4 chunkBytes ++
      leBytes 8 zkeyBytes) zkeyDigest (by simp only [encode, List.append_assoc]; rfl)
      (by simp [hmagic]) (by rw [hdigest])
  · rw [slice_split (manifestMagic ++ leBytes 4 manifestVersion ++ leBytes 4 chunkBytes ++
      leBytes 8 zkeyBytes ++ zkeyDigest) (leBytes 4 chunkHashes.length)
      (by simp only [encode, List.append_assoc]; rfl) (by simp [hmagic, hdigest]) (by simp)]
    exact leNat_leBytes hcount
  · have hsplit : (manifestMagic ++ leBytes 4 manifestVersion ++ leBytes 4 chunkBytes ++
        leBytes 8 zkeyBytes ++ zkeyDigest ++ leBytes 4 chunkHashes.length ++
        chunkHashes.flatten).drop headerBytes = chunkHashes.flatten := List.drop_left' hrest
    simp only [List.append_assoc] at hsplit
    exact hsplit
  · simp only [encode, List.length_append, hmagic, leBytes_length, hdigest, hflatten, headerBytes]
    omega

theorem decode_encode {chunkBytes zkeyBytes : Nat} {zkeyDigest : List UInt8}
    {chunkHashes : List (List UInt8)} (hvalid : ValidChunkBytes chunkBytes) (hpos : 0 < zkeyBytes)
    (hzkey : zkeyBytes < 2 ^ 64) (hdigest : zkeyDigest.length = hashBytes)
    (hcount : chunkHashes.length = chunkCount zkeyBytes chunkBytes)
    (hfew : chunkHashes.length < 2 ^ 32) (hhashes : ∀ hash ∈ chunkHashes, hash.length = hashBytes) :
    ∃ m, decode (encode chunkBytes zkeyBytes zkeyDigest chunkHashes) (hexDigest zkeyDigest) = .ok m ∧
      m.chunkBytes = chunkBytes ∧ m.zkeyBytes = zkeyBytes ∧ m.zkeySha256 = hexDigest zkeyDigest ∧
      m.chunkHashes = chunkHashes := by
  have hsmall : chunkBytes < 2 ^ 32 := Nat.lt_of_le_of_lt hvalid.1.2 (by decide)
  obtain ⟨hmagic, hversion, hchunk, hbytes, hclaimed, hnumber, htable, hlength⟩ :=
    encode_fields hsmall hzkey hdigest hfew hhashes
  generalize encode chunkBytes zkeyBytes zkeyDigest chunkHashes = bytes at *
  subst hchunk hbytes hclaimed
  unfold decode
  rw [if_neg (not_or.mpr ⟨by omega, not_not.mpr hmagic⟩), if_neg (not_not.mpr hversion),
    dif_pos hvalid, normalizeHash_hexDigest hdigest]
  simp only [ne_eq, not_true_eq_false, if_false]
  have hchecks : (leNat (slice bytes 16 24) ≠ 0 ∧ leNat (slice bytes 56 60) =
      chunkCount (leNat (slice bytes 16 24)) (leNat (slice bytes 12 16))) ∧
      bytes.length = headerBytes + leNat (slice bytes 56 60) * hashBytes := by
    rw [hnumber]
    exact ⟨⟨by omega, hcount⟩, hlength⟩
  rw [dif_pos hchecks]
  refine ⟨_, rfl, rfl, rfl, rfl, ?_⟩
  change (bytes.drop headerBytes).chunks hashBytes = chunkHashes
  rw [htable]
  exact List.chunks_flatten (by decide) hhashes

/-! ## Rechecking a stream -/

/-- What the table promises of the bytes from `received` on. -/
def Promised (sha256 : List UInt8 → List UInt8) (m : ZkeyChunkManifest) (hashes : List (List UInt8))
    (received : Nat) (rest : List UInt8) : Prop :=
  m.zkeyBytes - received ≤ rest.length ∧
    ((rest.take (m.zkeyBytes - received)).chunks m.chunkBytes).map sha256 = hashes

theorem chunkCount_step {remaining size count : Nat} (hsize : 0 < size)
    (h : count + 1 = chunkCount remaining size) :
    0 < remaining ∧ count = chunkCount (remaining - min remaining size) size := by
  unfold chunkCount at *
  by_cases hlong : size ≤ remaining
  · rw [show remaining + (size - 1) = remaining - size + (size - 1) + size by omega,
      Nat.add_div_right _ hsize] at h
    rw [Nat.min_eq_right hlong]
    exact ⟨by omega, by omega⟩
  · have hpos : 0 < remaining := by
      by_contra hzero
      rw [Nat.div_eq_of_lt (by omega)] at h
      omega
    rw [show remaining + (size - 1) = remaining - 1 + size by omega, Nat.add_div_right _ hsize,
      Nat.div_eq_of_lt (by omega)] at h
    rw [Nat.min_eq_left (by omega), Nat.sub_self, Nat.div_eq_of_lt (by omega)]
    exact ⟨hpos, by omega⟩

theorem promised_cons {m : ZkeyChunkManifest} {expected : List UInt8} {hashes : List (List UInt8)}
    {received count : Nat} {rest : List UInt8} (hmore : 0 < m.zkeyBytes - received)
    (hcount : count = min (m.zkeyBytes - received) m.chunkBytes) :
    Promised sha256 m (expected :: hashes) received rest ↔
      count ≤ rest.length ∧ sha256 (rest.take count) = expected ∧
        Promised sha256 m hashes (received + count) (rest.drop count) := by
  have hpos := ManifestReader.chunkBytes_pos m
  have hremaining : m.zkeyBytes - (received + count) = m.zkeyBytes - received - count := by omega
  unfold Promised
  rw [List.length_drop, hremaining]
  by_cases hlong : m.zkeyBytes - received ≤ rest.length
  · have hne : rest.take (m.zkeyBytes - received) ≠ [] := by
      apply List.ne_nil_of_length_pos
      rw [List.length_take]
      omega
    have htake : (rest.take (m.zkeyBytes - received)).take m.chunkBytes = rest.take count := by
      rw [List.take_take, Nat.min_comm, hcount]
    have hdrop : (rest.take (m.zkeyBytes - received)).drop m.chunkBytes =
        (rest.drop count).take (m.zkeyBytes - received - count) := by
      rw [← List.drop_take]
      by_cases hfull : m.chunkBytes ≤ m.zkeyBytes - received
      · rw [show count = m.chunkBytes by omega]
      · rw [List.drop_eq_nil_of_le (by rw [List.length_take]; omega),
          List.drop_eq_nil_of_le (by rw [List.length_take]; omega)]
    rw [List.chunks_of_ne_nil hpos hne, List.map_cons, htake, hdrop, List.cons.injEq]
    constructor
    · rintro ⟨-, hhash, hrest⟩
      exact ⟨by omega, hhash, by omega, hrest⟩
    · rintro ⟨-, hhash, -, hrest⟩
      exact ⟨hlong, hhash, hrest⟩
  · constructor
    · rintro ⟨hle, -⟩
      exact absurd hle hlong
    · rintro ⟨hle, -, hle', -⟩
      omega

variable (sha256) in
theorem verifyChunks_stream (hstream : Streams source left) (m : ZkeyChunkManifest)
    (hashes : List (List UInt8)) : ∀ (index received : Nat) (chunk whole : List UInt8) (s : S),
      hashes.length = chunkCount (m.zkeyBytes - received) m.chunkBytes → received ≤ m.zkeyBytes →
      chunk.length = m.chunkBytes →
      (Promised sha256 m hashes received (left s) ∧ ∃ chunk' s',
          verifyChunks sha256 source m hashes index received chunk whole s =
            (.ok (chunk', whole ++ (left s).take (m.zkeyBytes - received)), s') ∧
          chunk'.length = m.chunkBytes ∧ left s' = (left s).drop (m.zkeyBytes - received)) ∨
      (¬ Promised sha256 m hashes received (left s) ∧ ∃ e s',
          verifyChunks sha256 source m hashes index received chunk whole s = (.error e, s')) := by
  have hpos := ManifestReader.chunkBytes_pos m
  induction hashes with
  | nil =>
    intro index received chunk whole s hcount hreceived hchunk
    have hzero : m.zkeyBytes - received = 0 := by
      by_contra hmore
      have hlt : 0 < chunkCount (m.zkeyBytes - received) m.chunkBytes :=
        Nat.div_pos (by omega) hpos
      rw [← hcount] at hlt
      cases hlt
    refine .inl ⟨⟨by omega, ?_⟩, chunk, s, ?_, hchunk, ?_⟩
    · rw [hzero, List.take_zero, List.chunks_nil, List.map_nil]
    · rw [verifyChunks, hzero, List.take_zero, List.append_nil]
    · rw [hzero, List.drop_zero]
  | cons expected hashes ih =>
    intro index received chunk whole s hcount hreceived hchunk
    obtain ⟨hmore, hcount'⟩ := chunkCount_step hpos hcount
    obtain ⟨n, hn⟩ : ∃ n, n = min (m.zkeyBytes - received) m.chunkBytes := ⟨_, rfl⟩
    rw [promised_cons hmore hn]
    rw [← hn] at hcount'
    unfold verifyChunks
    rw [if_neg (by omega)]
    simp only [← hn]
    have htake : (chunk.take n).length = n := by
      rw [List.length_take]
      omega
    by_cases hlong : n ≤ (left s).length
    · obtain ⟨hread, hleft⟩ := hstream.readExact (chunk.take n) s (by rw [htake]; exact hlong)
      rw [htake] at hread hleft
      cases hcall : source.readExact (chunk.take n) s with
      | mk result s' =>
        rw [hcall] at hread hleft
        change result = _ at hread
        change left s' = _ at hleft
        subst hread
        simp only
        by_cases hhash : sha256 ((left s).take n) = expected
        · rw [if_neg (not_not.mpr hhash)]
          have hlength : ((left s).take n ++ chunk.drop n).length = m.chunkBytes := by
            rw [List.length_append, List.length_take, List.length_drop]
            omega
          have hremaining : m.zkeyBytes - received = n + (m.zkeyBytes - (received + n)) := by omega
          rcases ih (index + 1) (received + n) ((left s).take n ++ chunk.drop n)
              (whole ++ (left s).take n) s' (by rw [hcount']; congr 1; omega) (by omega) hlength with
            ⟨hpromised, chunk', s'', hrun, hlength', hrest⟩ | ⟨hbroken, e, s'', hrun⟩
          · rw [hleft] at hpromised hrun hrest
            refine .inl ⟨⟨hlong, hhash, hpromised⟩, chunk', s'', ?_, hlength', ?_⟩
            · rw [hrun, List.append_assoc, ← List.take_add, ← hremaining]
            · rw [hrest, List.drop_drop, ← hremaining]
          · rw [hleft] at hbroken
            exact .inr ⟨fun h => hbroken h.2.2, e, s'', hrun⟩
        · rw [if_pos hhash]
          exact .inr ⟨fun h => hhash h.2.1, _, s', rfl⟩
    · obtain ⟨e, hread, hkind⟩ := hstream.readExact_short (chunk.take n) s (by rw [htake]; omega)
      cases hcall : source.readExact (chunk.take n) s with
      | mk result s' =>
        obtain ⟨outcome, slice⟩ := result
        rw [hcall] at hread
        change outcome = .error e at hread
        subst hread
        exact .inr ⟨fun h => hlong h.1, _, s', rfl⟩

/-- The recheck accepts the streams whose chunks have the digests of the table and whose whole
has the digest the manifest claims. -/
theorem verifyReader_stream (hstream : Streams source left) (m : ZkeyChunkManifest) (s : S) :
    verifyReader sha256 source m s = .ok () ↔
      (left s).length = m.zkeyBytes ∧ ((left s).chunks m.chunkBytes).map sha256 = m.chunkHashes ∧
        hexDigest (sha256 (left s)) = m.zkeySha256 := by
  have hpos := ManifestReader.chunkBytes_pos m
  unfold verifyReader
  rcases verifyChunks_stream sha256 hstream m m.chunkHashes 0 0
      (List.replicate m.chunkBytes 0) [] s m.chunkHashes_length (Nat.zero_le _)
      List.length_replicate with ⟨hpromised, chunk, s', hrun, hlength, hrest⟩ | ⟨hbroken, e, s', hrun⟩
  · obtain ⟨hle, hhashes⟩ := hpromised
    rw [Nat.sub_zero] at hle hhashes hrun hrest
    obtain ⟨count, hcount, hcount', hread, -⟩ := hstream.read (chunk.take 1) s'
    have hone : chunk.take 1 ≠ [] := by
      apply List.ne_nil_of_length_pos
      rw [List.length_take]
      omega
    simp only [hrun, hread, List.nil_append]
    rw [hrest] at hcount hcount'
    rw [List.length_drop] at hcount
    by_cases hmore : m.zkeyBytes < (left s).length
    · have hpositive := hcount' hone (List.ne_nil_of_length_pos (by rw [List.length_drop]; omega))
      rw [if_pos (by omega)]
      exact ⟨fun h => (by cases h), fun h => absurd h.1 (by omega)⟩
    · have hall : (left s).take m.zkeyBytes = left s := List.take_of_length_le (by omega)
      rw [hall] at hhashes
      rw [if_neg (by omega), hall]
      split
      · rename_i hdigest
        exact ⟨fun h => (by cases h), fun h => absurd h.2.2 hdigest⟩
      · rename_i hdigest
        exact ⟨fun _ => ⟨by omega, hhashes, not_not.mp hdigest⟩, fun _ => rfl⟩
  · simp only [hrun]
    refine ⟨fun h => (by cases h), fun ⟨hsize, hhashes, _⟩ => absurd ?_ hbroken⟩
    refine ⟨by omega, ?_⟩
    rw [Nat.sub_zero, ← hsize, List.take_length]
    exact hhashes

/-! ## Manifests authenticate -/

/-- The chunks of `bytes` have the digests of the table. -/
def DigestsMatch (sha256 : List UInt8 → List UInt8) (m : ZkeyChunkManifest) (bytes : List UInt8) : Prop :=
  (bytes.chunks m.chunkBytes).map sha256 = m.chunkHashes

/-- Two byte strings whose chunks at one place differ and have one digest. -/
def Collide (sha256 : List UInt8 → List UInt8) (size : Nat) (bytes bytes' : List UInt8) : Prop :=
  ∃ (index : Nat) (chunk chunk' : List UInt8), (bytes.chunks size)[index]? = some chunk ∧
    (bytes'.chunks size)[index]? = some chunk' ∧ chunk ≠ chunk' ∧ sha256 chunk = sha256 chunk'

theorem eq_or_collide {size : Nat} (hsize : 0 < size) {bytes bytes' : List UInt8}
    (h : (bytes.chunks size).map sha256 = (bytes'.chunks size).map sha256) :
    bytes = bytes' ∨ Collide sha256 size bytes bytes' := by
  by_cases hsame : bytes.chunks size = bytes'.chunks size
  · refine .inl ?_
    rw [← List.flatten_chunks hsize bytes, hsame, List.flatten_chunks hsize]
  · have hlength : (bytes.chunks size).length = (bytes'.chunks size).length := by
      have hmapped := congrArg List.length h
      rwa [List.length_map, List.length_map] at hmapped
    obtain ⟨index, hindex⟩ : ∃ index, (bytes.chunks size)[index]? ≠ (bytes'.chunks size)[index]? := by
      by_contra hall
      exact hsame (List.ext_getElem? fun index => not_not.mp fun hne => hall ⟨index, hne⟩)
    have hlt : index < (bytes.chunks size).length := by
      by_contra hge
      apply hindex
      rw [List.getElem?_eq_none (by omega), List.getElem?_eq_none (by omega)]
    have hlt' : index < (bytes'.chunks size).length := by omega
    have hget := List.getElem?_eq_getElem hlt
    have hget' := List.getElem?_eq_getElem hlt'
    refine .inr ⟨index, _, _, hget, hget', fun heq => hindex (by rw [hget, hget', heq]), ?_⟩
    have hhash := congrArg (·[index]?) h
    simp only [List.getElem?_map, hget, hget', Option.map_some, Option.some.injEq] at hhash
    exact hhash

/-- The manifest that generation writes for `zkey`. -/
structure IsManifestOf (sha256 : List UInt8 → List UInt8) (m : ZkeyChunkManifest) (chunkBytes : Nat)
    (zkey : List UInt8) : Prop where
  chunkBytes : m.chunkBytes = chunkBytes
  zkeyBytes : m.zkeyBytes = zkey.length
  zkeySha256 : m.zkeySha256 = hexDigest (sha256 zkey)
  chunkHashes : m.chunkHashes = (zkey.chunks m.chunkBytes).map sha256

/-- Fewer than `2 ^ 32` chunks hold fewer than `2 ^ 64` bytes. -/
theorem zkey_length_lt {zkeyBytes chunkBytes : Nat} (hvalid : ValidChunkBytes chunkBytes)
    (hfew : chunkCount zkeyBytes chunkBytes < 2 ^ 32) : zkeyBytes < 2 ^ 64 := by
  have hmin : 0 < chunkBytes := Nat.lt_of_lt_of_le (by decide) hvalid.1.1
  have hmax : chunkBytes ≤ 2 ^ 23 := hvalid.1.2
  by_contra hlarge
  have hmany : 2 ^ 32 ≤ chunkCount zkeyBytes chunkBytes := by
    unfold chunkCount
    rw [Nat.le_div_iff_mul_le hmin]
    omega
  omega

theorem fromBytes_generated (hsha : ∀ bytes, (sha256 bytes).length = hashBytes) {chunkBytes : Nat}
    {zkey : List UInt8} (hvalid : ValidChunkBytes chunkBytes) (hzkey : zkey ≠ [])
    (hfew : chunkCount zkey.length chunkBytes < 2 ^ 32) :
    ∃ m, IsManifestOf sha256 m chunkBytes zkey ∧
      let encoded := encode m.chunkBytes m.zkeyBytes (sha256 zkey) m.chunkHashes
      encoded = encode chunkBytes zkey.length (sha256 zkey) ((zkey.chunks chunkBytes).map sha256) ∧
      fromBytes sha256 encoded (hexDigest (sha256 encoded)) (hexDigest (sha256 zkey)) = .ok m := by
  have hpos : 0 < chunkBytes := Nat.lt_of_lt_of_le (by decide) hvalid.1.1
  have hcount : ((zkey.chunks chunkBytes).map sha256).length = chunkCount zkey.length chunkBytes := by
    rw [List.length_map, List.length_chunks hpos, chunkCount]
  have hsize := zkey_length_lt hvalid hfew
  obtain ⟨m, hdecode, hchunk, hbytes, hclaimed, hhashes⟩ := decode_encode hvalid
    (List.length_pos_of_ne_nil hzkey) hsize (hsha zkey) hcount (by rw [hcount]; exact hfew)
    (by
      intro hash hmem
      obtain ⟨chunk, -, rfl⟩ := List.mem_map.mp hmem
      exact hsha chunk)
  refine ⟨m, ⟨hchunk, hbytes, hclaimed, by rw [hhashes, hchunk]⟩, ?_⟩
  rw [hchunk, hbytes, hhashes]
  refine ⟨rfl, ?_⟩
  unfold fromBytes
  rw [normalizeHash_hexDigest (hsha _)]
  simp only [ne_eq, not_true_eq_false, if_false]
  exact hdecode

theorem generated_accepts {T : Type} {source' : Source T} {left' : T → List UInt8}
    (hstream : Streams source' left') {m : ZkeyChunkManifest} {chunkBytes : Nat} {zkey : List UInt8}
    (hm : IsManifestOf sha256 m chunkBytes zkey) (t : T) :
    (verifyReader sha256 source' m t = .ok () → DigestsMatch sha256 m (left' t)) ∧
      (DigestsMatch sha256 m (left' t) → verifyReader sha256 source' m t = .ok () ∨
        Collide sha256 m.chunkBytes zkey (left' t)) := by
  refine ⟨fun h => ((verifyReader_stream hstream m t).mp h).2.1, fun h => ?_⟩
  have hsame : (zkey.chunks m.chunkBytes).map sha256 = ((left' t).chunks m.chunkBytes).map sha256 := by
    rw [← hm.chunkHashes]
    exact h.symm
  rcases eq_or_collide (ManifestReader.chunkBytes_pos m) hsame with heq | hcollide
  · refine .inl ((verifyReader_stream hstream m t).mpr ⟨?_, h, ?_⟩)
    · rw [← heq, hm.zkeyBytes]
    · rw [← heq, hm.zkeySha256]
  · exact .inr hcollide

/-- A reader shows chunks with the digests of its manifest only, whatever its source does and
however often a failed read is retried, and it finishes with all of them shown. Generation over
a stream writes a manifest that parses back, and the recheck with it goes by the chunk digests
unless two chunks collide. -/
theorem manifests_authenticate {S : Type} (sha256 : List UInt8 → List UInt8) (source : Source S)
    (hsha : ∀ bytes, (sha256 bytes).length = hashBytes) :
    (∀ (m : ZkeyChunkManifest) (s : S) (sizes : List Nat),
      let result := ManifestReader.run sha256 source sizes (.new s m)
      (∀ outcome ∈ result.1, outcome ≠ .error .panic) ∧
      ∃ chunks, ManifestReader.Matches sha256 m chunks ∧
        ManifestReader.returned result.1 <+: chunks.flatten ∧
        ∀ rounds, ManifestReader.finish source rounds result.2 = some (.ok ()) →
          (ManifestReader.returned result.1).length = m.zkeyBytes ∧
          ManifestReader.returned result.1 = chunks.flatten ∧ chunks.map sha256 = m.chunkHashes ∧
          ManifestReader.AtEnd source result.2.source) ∧
    ∀ left : S → List UInt8, Streams source left → ∀ (s : S) (chunkBytes rounds : Nat), left s ≠ [] →
      (left s).length < rounds →
      if ValidChunkBytes chunkBytes ∧ chunkCount (left s).length chunkBytes < 2 ^ 32 then
        ∃ m, IsManifestOf sha256 m chunkBytes (left s) ∧
          let encoded := encode m.chunkBytes m.zkeyBytes (sha256 (left s)) m.chunkHashes
          generate sha256 source rounds chunkBytes s = some (.ok (encoded, hexDigest (sha256 encoded))) ∧
          fromBytes sha256 encoded (hexDigest (sha256 encoded)) (hexDigest (sha256 (left s))) = .ok m ∧
          ∀ (T : Type) (source' : Source T) (left' : T → List UInt8), Streams source' left' → ∀ t,
            (verifyReader sha256 source' m t = .ok () → DigestsMatch sha256 m (left' t)) ∧
            (DigestsMatch sha256 m (left' t) → verifyReader sha256 source' m t = .ok () ∨
              Collide sha256 m.chunkBytes (left s) (left' t))
      else ∃ e, generate sha256 source rounds chunkBytes s = some (.error e) := by
  constructor
  · intro m s sizes result
    have hnew : ManifestReader.Serves sha256 m [] (.new s m) := ManifestReader.new_serves s m
    obtain ⟨hserves, hsafe⟩ := ManifestReader.run_spec source sizes hnew
    rw [List.nil_append] at hserves
    obtain ⟨chunks, hchunks, hnext, hout⟩ := hserves.chunks
    exact ⟨hsafe, chunks, hchunks, ⟨_, hout⟩, fun rounds hfinish =>
      ManifestReader.finish_ok source hserves hchunks hout hfinish⟩
  · intro left hstream s chunkBytes rounds hsome hrounds
    split
    · rename_i hgood
      obtain ⟨m, hm, hencoded, hparse⟩ := fromBytes_generated hsha hgood.1 hsome hgood.2
      refine ⟨m, hm, ?_, hparse, fun T source' left' hstream' t => generated_accepts hstream' hm t⟩
      rw [generate_stream hstream hrounds hgood.1 (zkey_length_lt hgood.1 hgood.2), if_neg,
        if_neg (by omega), ← hencoded]
      exact fun hzero => hsome (List.eq_nil_of_length_eq_zero hzero)
    · rename_i hbad
      exact generate_refuses hstream hrounds fun h => hbad ⟨h.1, h.2.2⟩

/-- A stream in memory that hands over as much as the slice takes. -/
def listSource : Source (List UInt8) where
  read slice s := ((.ok (min slice.length s.length),
    s.take (min slice.length s.length) ++ slice.drop (min slice.length s.length)),
    s.drop (min slice.length s.length))
  readExact slice s :=
    if slice.length ≤ s.length then ((.ok (), s.take slice.length), s.drop slice.length)
    else ((.error ⟨.unexpectedEof, "failed to fill whole buffer"⟩, s ++ slice.drop s.length), [])
  seekStart position s := (.ok (), s.drop position)
  read_length slice s := by
    simp only [List.length_append, List.length_take, List.length_drop]
    omega
  read_count slice s count h := by
    rw [← Except.ok.inj h]
    exact Nat.min_le_left _ _
  readExact_length slice s := by
    split <;> simp only [List.length_append, List.length_take, List.length_drop] <;> omega

theorem listSource_streams : Streams listSource id where
  read slice s := by
    refine ⟨min slice.length s.length, Nat.min_le_right _ _, fun hslice hs => ?_, rfl, rfl⟩
    have hslice' := List.length_pos_of_ne_nil hslice
    have hs' : 0 < s.length := List.length_pos_of_ne_nil hs
    omega
  readExact slice s h := by
    have hle : slice.length ≤ s.length := h
    simp only [listSource, if_pos hle]
    exact ⟨rfl, rfl⟩
  readExact_short slice s h := by
    have hlt : ¬ slice.length ≤ s.length := Nat.not_le.mpr h
    simp only [listSource, if_neg hlt]
    exact ⟨_, rfl, rfl⟩

/-- The digest of the byte `0`. -/
def zeroByteDigest : List UInt8 :=
  [110, 52, 11, 156, 255, 179, 122, 152, 156, 165, 68, 230, 187, 120, 10, 44,
    120, 144, 29, 63, 179, 55, 56, 118, 133, 17, 163, 6, 23, 175, 160, 29]

/-- The digest of the manifest of the byte `0` in chunks of 64 KiB. -/
def zeroByteManifestDigest : List UInt8 :=
  [209, 85, 204, 161, 26, 105, 167, 133, 169, 233, 21, 177, 64, 101, 191, 20,
    207, 158, 241, 192, 189, 50, 41, 163, 254, 27, 132, 121, 72, 90, 166, 96]

/-- SHA-256 on the byte `0` and its manifest, the only inputs it is computed on here. -/
def zeroByteSha256 (bytes : List UInt8) : List UInt8 :=
  if bytes = [0] then zeroByteDigest
  else if bytes = encode 65536 1 zeroByteDigest [zeroByteDigest] then zeroByteManifestDigest
  else List.replicate 32 0

/-! ### A zkey of two chunks -/

def zeros : List UInt8 := List.replicate minChunkBytes 0

theorem zeros_length : zeros.length = minChunkBytes := List.length_replicate

/-- The zkey is the zeros and the byte `1`. -/
theorem twoChunks_length : (zeros ++ [1]).length = minChunkBytes + 1 := by
  rw [List.length_append, zeros_length, List.length_singleton]

theorem twoChunks_chunks : (zeros ++ [1]).chunks minChunkBytes = [zeros, [1]] := by
  have hpos : 0 < minChunkBytes := by decide
  rw [List.chunks_of_ne_nil hpos (by simp), List.take_left' zeros_length, List.drop_left' zeros_length]
  rfl

def zerosDigest : List UInt8 :=
  [222, 47, 37, 96, 100, 160, 175, 121, 119, 71, 194, 185, 117, 5, 220, 11,
    159, 61, 240, 222, 79, 72, 158, 172, 115, 28, 35, 174, 156, 169, 204, 49]

def oneDigest : List UInt8 :=
  [75, 245, 18, 47, 52, 69, 84, 197, 59, 222, 46, 187, 140, 210, 183, 227,
    209, 96, 10, 214, 49, 195, 133, 165, 215, 204, 226, 60, 119, 133, 69, 154]

def twoDigest : List UInt8 :=
  [219, 193, 180, 201, 0, 255, 228, 141, 87, 91, 93, 165, 198, 56, 4, 1,
    37, 246, 93, 176, 254, 62, 36, 73, 75, 118, 234, 152, 100, 87, 217, 134]

/-- The digest of the whole zkey. -/
def twoChunksDigest : List UInt8 :=
  [161, 227, 0, 120, 119, 168, 100, 62, 111, 254, 152, 53, 134, 179, 178, 190,
    113, 170, 189, 112, 183, 222, 150, 63, 251, 37, 167, 159, 83, 201, 88, 110]

def twoChunksManifest : List UInt8 :=
  encode minChunkBytes (minChunkBytes + 1) twoChunksDigest [zerosDigest, oneDigest]

def twoChunksManifestDigest : List UInt8 :=
  [169, 92, 139, 167, 42, 87, 252, 183, 77, 53, 35, 206, 96, 113, 51, 12,
    68, 249, 86, 158, 83, 5, 21, 142, 197, 74, 186, 5, 160, 239, 181, 238]

/-- SHA-256 on what the example hashes, the only inputs it is computed on here. -/
def twoChunksSha256 (bytes : List UInt8) : List UInt8 :=
  if bytes = [1] then oneDigest
  else if bytes = [2] then twoDigest
  else if bytes = twoChunksManifest then twoChunksManifestDigest
  else if bytes = zeros then zerosDigest
  else if bytes = zeros ++ [1] then twoChunksDigest
  else List.replicate 32 0

theorem twoChunksSha256_length (bytes : List UInt8) : (twoChunksSha256 bytes).length = hashBytes := by
  unfold twoChunksSha256
  repeat' split
  all_goals rfl

theorem twoChunksManifest_length : twoChunksManifest.length = 124 := by
  simp [twoChunksManifest, encode, leBytes_length, manifestMagic, twoChunksDigest, zerosDigest, oneDigest]

theorem twoChunksSha256_manifest : twoChunksSha256 twoChunksManifest = twoChunksManifestDigest := by
  have hone : ∀ byte : UInt8, twoChunksManifest ≠ [byte] := by
    intro byte h
    have hlength := congrArg List.length h
    rw [twoChunksManifest_length] at hlength
    cases hlength
  rw [twoChunksSha256, if_neg (hone 1), if_neg (hone 2), if_pos rfl]

/-- Longer than the other strings. -/
theorem twoChunksSha256_long {bytes : List UInt8} (h : minChunkBytes ≤ bytes.length) :
    twoChunksSha256 bytes = if bytes = zeros then zerosDigest
      else if bytes = zeros ++ [1] then twoChunksDigest else List.replicate 32 0 := by
  have hlonger : ∀ short : List UInt8, short.length < minChunkBytes → bytes ≠ short := by
    rintro short hshort rfl
    omega
  rw [twoChunksSha256, if_neg (hlonger [1] (by decide)), if_neg (hlonger [2] (by decide)),
    if_neg (hlonger twoChunksManifest (by rw [twoChunksManifest_length]; decide))]

theorem twoChunksSha256_zeros : twoChunksSha256 zeros = zerosDigest := by
  rw [twoChunksSha256_long zeros_length.ge, if_pos rfl]

theorem twoChunksSha256_whole : twoChunksSha256 (zeros ++ [1]) = twoChunksDigest := by
  have hlength := twoChunks_length
  have hzeros : zeros ++ [1] ≠ zeros := by
    intro h
    have := congrArg List.length h
    rw [hlength, zeros_length] at this
    omega
  rw [twoChunksSha256_long (by omega), if_neg hzeros, if_pos rfl]

/-- What an interrupted source answers. -/
def stalled : IoError := ⟨.other, "resource temporarily unavailable"⟩

/-- The same stream, which first fails as often as its state says. -/
def stallingSource : Source (Nat × List UInt8) where
  read slice
    | (stalls + 1, s) => ((.error stalled, slice), (stalls, s))
    | (0, s) => ((listSource.read slice s).1, (0, (listSource.read slice s).2))
  readExact slice
    | (stalls + 1, s) => ((.error stalled, slice), (stalls, s))
    | (0, s) => ((listSource.readExact slice s).1, (0, (listSource.readExact slice s).2))
  seekStart position
    | (stalls, s) => ((listSource.seekStart position s).1, (stalls, (listSource.seekStart position s).2))
  read_length slice
    | (_ + 1, _) => rfl
    | (0, s) => listSource.read_length slice s
  read_count slice
    | (_ + 1, _), _, h => (by cases h)
    | (0, s), count, h => listSource.read_count slice s count h
  readExact_length slice
    | (_ + 1, _) => rfl
    | (0, s) => listSource.readExact_length slice s

theorem stallingSource_readExact (slice : List UInt8) {bytes : List UInt8} (rest : List UInt8)
    (hbytes : bytes.length = slice.length) :
    stallingSource.readExact slice (0, bytes ++ rest) = ((.ok (), bytes), (0, rest)) := by
  have hle : slice.length ≤ (bytes ++ rest).length := by
    rw [List.length_append]
    omega
  simp only [stallingSource, listSource, if_pos hle, List.take_left' hbytes, List.drop_left' hbytes]

open ManifestReader (resize copy fetch read finish readEnd mismatch)

section Stalling
variable {r : ManifestReader (Nat × List UInt8)} {stalls size count : Nat}

theorem fetch_stalled {bytes : List UInt8} (hsource : r.source = (stalls + 1, bytes))
    (hcount : min (r.manifest.zkeyBytes - r.delivered) r.manifest.chunkBytes = count) :
    fetch sha256 stallingSource r =
      (.error (.error stalled),
        { r with source := (stalls, bytes), chunk := resize r.chunk count, position := count }) := by
  simp only [fetch, hcount, hsource, stallingSource]

theorem fetch_reads (bytes rest : List UInt8) {expected : List UInt8}
    (hsource : r.source = (0, bytes ++ rest))
    (hcount : min (r.manifest.zkeyBytes - r.delivered) r.manifest.chunkBytes = bytes.length)
    (hexpected : r.manifest.chunkHashes[r.nextChunk]? = some expected) :
    fetch sha256 stallingSource r =
      if sha256 bytes ≠ expected then
        (.error (.error (mismatch r.nextChunk expected (sha256 bytes))),
          { r with source := (0, rest), chunk := bytes, position := bytes.length })
      else (.ok (),
        { r with source := (0, rest), chunk := bytes, nextChunk := r.nextChunk + 1, position := 0 }) := by
  have hresize := (ManifestReader.resize_length r.chunk bytes.length).symm
  simp only [fetch, hcount, hsource, stallingSource_readExact _ rest hresize, hexpected]

theorem read_fetches (hsize : size ≠ 0) (hleft : r.delivered ≠ r.manifest.zkeyBytes)
    (hempty : r.position = r.chunk.length) : ManifestReader.read sha256 stallingSource size r =
      Outcome.next (fetch sha256 stallingSource r) fun _ r => copy size r := by
  unfold ManifestReader.read
  rw [if_neg (not_or.mpr ⟨hsize, hleft⟩), if_pos hempty]

theorem read_copies (hsize : size ≠ 0) (hleft : r.delivered ≠ r.manifest.zkeyBytes)
    (hbusy : r.position < r.chunk.length) : ManifestReader.read sha256 stallingSource size r =
      (.ok ((r.chunk.drop r.position).take size),
        { r with position := r.position + min size (r.chunk.length - r.position),
                 delivered := r.delivered + min size (r.chunk.length - r.position) }) := by
  unfold ManifestReader.read copy
  rw [if_neg (not_or.mpr ⟨hsize, hleft⟩), if_neg hbusy.ne, if_neg (by omega)]
  have htake := List.take_eq_take_min (i := size) (l := r.chunk.drop r.position)
  rw [List.length_drop] at htake
  rw [htake]

end Stalling

/-- The source stalls once, and its byte `2` takes the place of the last chunk until that is read
again. -/
theorem twoChunks_run {m : ZkeyChunkManifest} (hchunk : m.chunkBytes = minChunkBytes)
    (hzkey : m.zkeyBytes = minChunkBytes + 1) (hhashes : m.chunkHashes = [zerosDigest, oneDigest]) :
    let result := ManifestReader.run twoChunksSha256 stallingSource [4, 4, minChunkBytes, 1, 1]
      (.new (1, zeros ++ [2, 1]) m)
    result.1 = [.error (.error stalled), .ok (zeros.take 4), .ok (zeros.drop 4),
        .error (.error (mismatch 1 oneDigest twoDigest)), .ok [1]] ∧
      finish stallingSource 1 result.2 = some (.ok ()) := by
  have hsize : minChunkBytes = 4 + 65532 := rfl
  have hzeros := zeros_length
  have hfirst : min (m.zkeyBytes - 0) m.chunkBytes = minChunkBytes := by omega
  have hlast : min (m.zkeyBytes - minChunkBytes) m.chunkBytes = 1 := by omega
  have hmore : ∀ n, n ≤ minChunkBytes → n ≠ m.zkeyBytes := by omega
  have hgood : ¬ twoChunksSha256 zeros ≠ zerosDigest := not_not.mpr twoChunksSha256_zeros
  have h₁ : ManifestReader.read twoChunksSha256 stallingSource 4 (.new (1, zeros ++ [2, 1]) m) =
      (.error (.error stalled),
        ⟨(0, zeros ++ [2, 1]), m, resize [] minChunkBytes, minChunkBytes, 0, 0⟩) := by
    rw [read_fetches (by decide) (hmore 0 (Nat.zero_le _)) rfl, fetch_stalled rfl hfirst]
    rfl
  have h₂ : ManifestReader.read twoChunksSha256 stallingSource 4
        ⟨(0, zeros ++ [2, 1]), m, resize [] minChunkBytes, minChunkBytes, 0, 0⟩ =
      (.ok (zeros.take 4), ⟨(0, [2, 1]), m, zeros, 4, 1, 4⟩) := by
    rw [read_fetches (by decide) (hmore 0 (Nat.zero_le _)) (ManifestReader.resize_length _ _).symm,
      fetch_reads zeros [2, 1] rfl (hfirst.trans hzeros.symm) (by rw [hhashes]; rfl), if_neg hgood,
      Outcome.next_ok]
    simp [copy, hzeros, hsize]
  have h₃ : ManifestReader.read twoChunksSha256 stallingSource minChunkBytes
        ⟨(0, [2, 1]), m, zeros, 4, 1, 4⟩ =
      (.ok (zeros.drop 4), ⟨(0, [2, 1]), m, zeros, minChunkBytes, 1, minChunkBytes⟩) := by
    have hrest : (zeros.drop 4).length ≤ minChunkBytes := by
      rw [List.length_drop, hzeros]
      omega
    have hcopied : 4 + min minChunkBytes (minChunkBytes - 4) = minChunkBytes := by omega
    have hbusy : 4 < zeros.length := by omega
    rw [read_copies (by decide) (hmore 4 (by decide)) hbusy, List.take_of_length_le hrest, hzeros]
    simp only [hcopied]
  have h₄ : ManifestReader.read twoChunksSha256 stallingSource 1
        ⟨(0, [2, 1]), m, zeros, minChunkBytes, 1, minChunkBytes⟩ =
      (.error (.error (mismatch 1 oneDigest twoDigest)), ⟨(0, [1]), m, [2], 1, 1, minChunkBytes⟩) := by
    rw [read_fetches (by decide) (hmore _ (Nat.le_refl _)) hzeros.symm,
      fetch_reads (r := ⟨(0, [2, 1]), m, zeros, minChunkBytes, 1, minChunkBytes⟩) [2] [1] rfl hlast
        (by rw [hhashes]; rfl), if_pos (by decide)]
    rfl
  have h₅ : ManifestReader.read twoChunksSha256 stallingSource 1 ⟨(0, [1]), m, [2], 1, 1, minChunkBytes⟩ =
      (.ok [1], ⟨(0, []), m, [1], 1, 2, minChunkBytes + 1⟩) := by
    rw [read_fetches (by decide) (hmore _ (Nat.le_refl _)) rfl,
      fetch_reads (r := ⟨(0, [1]), m, [2], 1, 1, minChunkBytes⟩) [1] [] rfl hlast
        (by rw [hhashes]; rfl), if_neg (by decide)]
    rfl
  intro result
  have hresult : result = ([.error (.error stalled), .ok (zeros.take 4), .ok (zeros.drop 4),
      .error (.error (mismatch 1 oneDigest twoDigest)), .ok [1]],
      ⟨(0, []), m, [1], 1, 2, minChunkBytes + 1⟩) := by
    simp only [result, ManifestReader.run, h₁, h₂, h₃, h₄, h₅]
  rw [hresult]
  refine ⟨rfl, ?_⟩
  rw [finish, if_neg (not_not.mpr hzkey.symm)]
  rfl

-- the linter would evaluate the condition on the length of the zkey
set_option linter.constructorNameAsVariable false in
theorem manifests_authenticate_example : ∃ m,
    generate twoChunksSha256 listSource (minChunkBytes + 2) minChunkBytes (zeros ++ [1]) =
        some (.ok (twoChunksManifest, hexDigest twoChunksManifestDigest)) ∧
      fromBytes twoChunksSha256 twoChunksManifest (hexDigest twoChunksManifestDigest)
        (hexDigest twoChunksDigest) = .ok m ∧
      verifyReader twoChunksSha256 listSource m (zeros ++ [1]) = .ok () ∧
      let result := ManifestReader.run twoChunksSha256 stallingSource [4, 4, minChunkBytes, 1, 1]
        (.new (1, zeros ++ [2, 1]) m)
      result.1 = [.error (.error stalled), .ok (zeros.take 4), .ok (zeros.drop 4),
          .error (.error (mismatch 1 oneDigest twoDigest)), .ok [1]] ∧
        ∃ chunks : List (List UInt8), ManifestReader.returned result.1 = chunks.flatten ∧
          chunks.map twoChunksSha256 = [zerosDigest, oneDigest] := by
  have hvalid : ValidChunkBytes minChunkBytes ∧
      chunkCount (id (zeros ++ [1])).length minChunkBytes < 2 ^ 32 := by
    rw [id, twoChunks_length]
    decide
  have h := (manifests_authenticate twoChunksSha256 listSource twoChunksSha256_length).2 id
    listSource_streams (zeros ++ [1]) minChunkBytes (minChunkBytes + 2) (by simp)
    (by rw [id, twoChunks_length]; exact Nat.lt_succ_self _)
  rw [if_pos hvalid] at h
  obtain ⟨m, hm, hgenerate, hparse, haccepts⟩ := h
  have hchunk : m.chunkBytes = minChunkBytes := hm.chunkBytes
  have hzkey : m.zkeyBytes = minChunkBytes + 1 := hm.zkeyBytes.trans twoChunks_length
  have hhashes : m.chunkHashes = [zerosDigest, oneDigest] := by
    rw [hm.chunkHashes, hchunk, id, twoChunks_chunks, List.map_cons, twoChunksSha256_zeros]
    rfl
  have hencoded : encode m.chunkBytes m.zkeyBytes (twoChunksSha256 (id (zeros ++ [1]))) m.chunkHashes =
      twoChunksManifest := by
    rw [hchunk, hzkey, hhashes, id, twoChunksSha256_whole, twoChunksManifest]
  simp only [hencoded, twoChunksSha256_manifest] at hgenerate hparse
  rw [id, twoChunksSha256_whole] at hparse
  obtain ⟨houtcomes, hfinish⟩ := twoChunks_run hchunk hzkey hhashes
  refine ⟨m, hgenerate, hparse, ?_, houtcomes, ?_⟩
  · rcases (haccepts _ listSource id listSource_streams (zeros ++ [1])).2 hm.chunkHashes.symm with
      haccepted | ⟨index, chunk, chunk', hget, hget', hne, -⟩
    · exact haccepted
    · exact absurd (Option.some.inj (hget.symm.trans hget')) hne
  · obtain ⟨-, chunks, -, -, hdone⟩ := (manifests_authenticate twoChunksSha256 stallingSource
      twoChunksSha256_length).1 m (1, zeros ++ [2, 1]) [4, 4, minChunkBytes, 1, 1]
    obtain ⟨-, hreturned, hall, -⟩ := hdone 1 hfinish
    exact ⟨chunks, hreturned, hall.trans hhashes⟩

end ZkeyChunkManifest

end Curvy.Prover
