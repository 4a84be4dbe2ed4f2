import Curvy.Sparrow.ManifestOps
import Mathlib.Data.List.Forall2

/-!
# Only authenticated chunks are framed

Over any run the framer is handed, in order and without a gap, a prefix of the received
bytes, in chunks that have the digest of their position. The position counter stands still
after a refusal, so only up to the first refusal is the position of a chunk its index.
-/

namespace Curvy.Sparrow

set_option autoImplicit false

/-! ## Prefixes of a concatenation -/

/-- A prefix of a concatenation cuts each piece to a prefix of it. -/
theorem prefix_flatten {α : Type} : ∀ {pieces : List (List α)} {l : List α},
    l <+: pieces.flatten → ∃ cut, List.Forall₂ (· <+: ·) cut pieces ∧ l = cut.flatten := by
  intro pieces
  induction pieces with
  | nil =>
    intro l h
    exact ⟨[], .nil, List.prefix_nil.mp h⟩
  | cons piece pieces ih =>
    intro l h
    rw [List.flatten_cons] at h
    rcases List.prefix_or_prefix_of_prefix h (List.prefix_append piece _) with hshort | ⟨rest, rfl⟩
    · obtain ⟨cut, hcut, hnil⟩ := ih (List.nil_prefix (l := pieces.flatten))
      refine ⟨l :: cut, .cons hshort hcut, ?_⟩
      rw [List.flatten_cons, ← hnil, List.append_nil]
    · obtain ⟨cut, hcut, hrest⟩ := ih ((List.prefix_append_right_inj piece).mp h)
      refine ⟨piece :: cut, .cons List.prefix_rfl hcut, ?_⟩
      rw [List.flatten_cons, ← hrest]

theorem prefixes_trans {α : Type} {ks ls ms : List (List α)}
    (h : List.Forall₂ (· <+: ·) ks ls) (h' : List.Forall₂ (· <+: ·) ls ms) :
    List.Forall₂ (· <+: ·) ks ms := by
  induction h generalizing ms with
  | nil =>
    cases h'
    exact .nil
  | cons head _ ih =>
    cases h' with
    | cons head' tail' => exact .cons (head.trans head') (ih tail')

namespace ManifestProofStream

variable {F B : Type} (sha256 : List UInt8 → List UInt8) (ops : Framer F B)

/-! ## Runs -/

/-- What every run from a fresh stream keeps. -/
structure Reached (m : ZkeyChunkManifest) (calls : List Call)
    (results : List (Except StreamingError Unit)) (s : Logged F) : Prop where
  manifest : s.manifest = m
  pending_lt : s.pending.length < m.chunkBytes
  view : s.view.Ok sha256 m.chunkHashes
  taken : ∃ pieces, List.Forall₂ (· <+: ·) pieces (calls.map Call.bytes) ∧
    s.view.offered.flatten ++ s.pending = pieces.flatten ∧
    ((∀ r ∈ results, r = .ok ()) → pieces = calls.map Call.bytes)
  ledger : Log.Clean s.framer.2 → Ledger s s.view.offered

theorem Reached.new (manifest : ZkeyChunkManifest) (framer : F) :
    Reached sha256 manifest [] [] (new manifest (framer, [])) where
  manifest := rfl
  pending_lt := chunkBytes_pos manifest
  view := ⟨0, .nil, rfl, fun c h => by cases h⟩
  taken := ⟨[], .nil, rfl, fun _ => rfl⟩
  ledger _ := .inr ⟨⟨0, rfl, .inl rfl⟩, .inl fun c h => by cases h⟩

variable {sha256} in
theorem Reached.step {manifest : ZkeyChunkManifest} {calls : List Call} {call : Call}
    {results : List (Except StreamingError Unit)} {r : Except StreamingError Unit}
    {s s' : Logged F} {cs : List (List UInt8)} (h : Reached sha256 manifest calls results s)
    (heffect : Effect sha256 call.bytes s r s' cs) :
    Reached sha256 manifest (calls ++ [call]) (results ++ [r]) s' where
  manifest := heffect.manifest.trans h.manifest
  pending_lt := h.manifest ▸ heffect.pending_lt
  view := Moves.keeps (h.manifest ▸ heffect.moves) h.view
  taken := by
    obtain ⟨pieces, hpieces, hflat, hall⟩ := h.taken
    have hlast : List.Forall₂ (· <+: ·) (pieces ++ [call.bytes])
        ((calls ++ [call]).map Call.bytes) := by
      rw [List.map_append]
      exact List.rel_append hpieces (.cons List.prefix_rfl .nil)
    have hreceived : (pieces ++ [call.bytes]).flatten =
        s.view.offered.flatten ++ (s.pending ++ call.bytes) := by
      rw [List.flatten_append, ← hflat, List.append_assoc]
      simp
    rw [heffect.moves.offered, List.flatten_append, List.append_assoc]
    cases r with
    | ok u =>
      refine ⟨pieces ++ [call.bytes], hlast, ?_, fun hok => ?_⟩
      · rw [heffect.all rfl, hreceived]
      · rw [List.map_append, hall fun r hr => hok r (List.mem_append_left _ hr)]
        rfl
    | error e =>
      have hcut := (List.prefix_append_right_inj s.view.offered.flatten).mpr heffect.cut
      rw [← hreceived] at hcut
      obtain ⟨cut, hcut, hflat'⟩ := prefix_flatten hcut
      refine ⟨cut, prefixes_trans hcut hlast, hflat', fun hok => ?_⟩
      cases hok (.error e) (List.mem_append_right _ (List.mem_singleton.mpr rfl))
  ledger hclean := by
    obtain ⟨tail, htail⟩ : s.framer.2 <+: s'.framer.2 := heffect.moves.log_prefix
    rw [heffect.moves.offered]
    refine heffect.ledger hclean _ (h.ledger ?_)
    rw [← htail] at hclean
    exact hclean.of_append

theorem Reached.run (parallel : Bool) {manifest : ZkeyChunkManifest} (calls : List Call) :
    ∀ {before : List Call} {results : List (Except StreamingError Unit)} {s : Logged F},
      Reached sha256 manifest before results s →
      Reached sha256 manifest (before ++ calls) (results ++ (run sha256 ops.logged parallel calls s).1)
        (run sha256 ops.logged parallel calls s).2 := by
  induction calls with
  | nil =>
    intro before results s h
    rw [List.append_nil]
    simpa [ManifestProofStream.run] using h
  | cons call calls ih =>
    intro before results s h
    obtain ⟨r, s', cs, hstep, heffect⟩ := step_spec sha256 ops parallel call
      (s := s) (h.manifest ▸ h.pending_lt)
    have := ih (h.step heffect)
    unfold ManifestProofStream.run
    rw [hstep]
    simpa using this

/-! ## Finishing -/

/-- A stream that counted the manifest's size and offers as many chunks as the manifest has
dropped nothing. -/
theorem Ledger.whole {s : Logged F} {offered : List (List UInt8)} (h : Ledger s offered)
    (hreceived : s.received = s.manifest.zkeyBytes)
    (hcount : (offered ++ lastChunk s).length = s.manifest.chunkHashes.length) :
    (offered ++ lastChunk s).flatten.length = s.manifest.zkeyBytes := by
  have hpos := chunkBytes_pos s.manifest
  have henough : s.manifest.zkeyBytes ≤
      s.manifest.chunkHashes.length * s.manifest.chunkBytes := by
    rw [s.manifest.chunkHashes_length]
    have := Nat.div_add_mod' (s.manifest.zkeyBytes + (s.manifest.chunkBytes - 1))
      s.manifest.chunkBytes
    have := Nat.mod_lt (s.manifest.zkeyBytes + (s.manifest.chunkBytes - 1)) hpos
    omega
  rw [← hcount] at henough
  rw [List.flatten_append, List.length_append, lastChunk_flatten]
  rcases h with hmore | ⟨⟨d, hd, hdropped⟩, hsizes⟩
  · omega
  · have hlast : s.pending = [] ∧ (offered ++ lastChunk s).length = offered.length ∨
        0 < s.pending.length ∧ (offered ++ lastChunk s).length = offered.length + 1 := by
      unfold lastChunk
      by_cases hempty : s.pending = []
      · exact .inl ⟨hempty, by simp [hempty]⟩
      · exact .inr ⟨List.length_pos_of_ne_nil hempty, by simp [hempty]⟩
    rcases hsizes with hfull | ⟨-, hempty, hshort⟩
    · have hflat := flatten_length_of_full hfull
      rcases hlast with ⟨hempty, hlength⟩ | ⟨hpending, hlength⟩
      · rw [hlength] at henough
        rw [hempty, List.length_nil] at hd ⊢
        omega
      · rw [hlength, Nat.add_mul, Nat.one_mul] at henough
        omega
    · rcases hlast with ⟨-, hlength⟩ | ⟨hpending, -⟩
      · rw [hlength] at henough
        rw [hempty, List.length_nil] at hd ⊢
        omega
      · rw [hempty] at hpending
        cases hpending

theorem finish_ok {s : Logged F} {b : B} {log : Log}
    (h : finish sha256 ops.logged s = .ok (b, log)) : s.received = s.manifest.zkeyBytes ∧
      ∃ u s', drain sha256 ops.logged s = (.ok u, s') ∧ s'.framer.2 = log := by
  unfold finish at h
  split at h
  · cases h
  · rename_i hreceived
    refine ⟨Decidable.not_not.mp hreceived, ?_⟩
    cases hdrain : drain sha256 ops.logged s with
    | mk r s' =>
      rw [hdrain] at h
      cases r with
      | error e => cases h
      | ok u =>
        refine ⟨u, s', rfl, ?_⟩
        dsimp only [Framer.logged] at h
        cases hfinish : ops.finish s'.framer.1 with
        | error e =>
          rw [hfinish] at h
          cases h
        | ok b' =>
          rw [hfinish] at h
          cases h
          rfl

/-! ## Main result -/

/-- What may have been handed over once the bytes of `pieces` were received. -/
structure Handed (manifest : ZkeyChunkManifest) (pieces : List (List UInt8)) (log : Log) :
    Prop where
  delivered : ∃ m, Delivered sha256 manifest.chunkHashes m log
  /-- Up to the first refused chunk, that one included, the position is the index. -/
  authentic : Log.Clean log.dropLast → Authentic sha256 manifest.chunkHashes (log.map Prod.fst)
  received : (log.map Prod.fst).flatten <+: pieces.flatten

theorem Handed.of_view {manifest : ZkeyChunkManifest} {pieces : List (List UInt8)} {v : View}
    (hv : v.Ok sha256 manifest.chunkHashes) (hoffered : v.offered.flatten <+: pieces.flatten)
    {log : Log} (hcut : log <+: v.log) : Handed sha256 manifest pieces log := by
  obtain ⟨m, hdelivered, -, -⟩ := hv.delivered
  obtain ⟨k, hlog⟩ := hdelivered.of_prefix hcut
  refine ⟨⟨k, hlog⟩, hlog.authentic_until_refusal, ?_⟩
  obtain ⟨tail, htail⟩ := hcut
  refine List.IsPrefix.trans ⟨(tail.map Prod.fst).flatten ++ v.delayed.toList.flatten, ?_⟩ hoffered
  rw [View.offered, ← htail, List.map_append, List.flatten_append, List.flatten_append,
    List.append_assoc]

/-- At every point of a run, and while the stream is finished, the framer was handed a prefix
of the received bytes in authenticated chunks, position after position. It finishes only when
every position was handed over, and exactly the manifest's bytes if nothing was refused. -/
theorem only_authenticated_chunks_are_framed (parallel : Bool) (manifest : ZkeyChunkManifest)
    (framer : F) (calls : List Call) :
    ∃ pieces, List.Forall₂ (· <+: ·) pieces (calls.map Call.bytes) ∧
      ((∀ r ∈ (run sha256 ops.logged parallel calls (new manifest (framer, []))).1, r = .ok ()) →
        pieces = calls.map Call.bytes) ∧
      (∀ log, log <+: (run sha256 ops.logged parallel calls (new manifest (framer, []))).2.framer.2 →
        Handed sha256 manifest pieces log) ∧
      (∀ log, log <+: (drain sha256 ops.logged
          (run sha256 ops.logged parallel calls (new manifest (framer, []))).2).2.framer.2 →
        Handed sha256 manifest pieces log) ∧
      ∀ b log, finish sha256 ops.logged
          (run sha256 ops.logged parallel calls (new manifest (framer, []))).2 = .ok (b, log) →
        Delivered sha256 manifest.chunkHashes manifest.chunkHashes.length log ∧
        (log.map Prod.fst).flatten = pieces.flatten ∧
        (Log.Clean log → Authentic sha256 manifest.chunkHashes (log.map Prod.fst) ∧
          (log.map Prod.fst).length = manifest.chunkHashes.length ∧
          (log.map Prod.fst).flatten.length = manifest.zkeyBytes) := by
  have h := Reached.run sha256 ops parallel calls (Reached.new sha256 manifest framer)
  generalize (run sha256 ops.logged parallel calls (new manifest (framer, []))).2 = s at h ⊢
  rw [List.nil_append, List.nil_append] at h
  obtain ⟨hmanifest, -, hview, ⟨pieces, hpieces, hflat, hall⟩, hledger⟩ := h
  obtain ⟨r, s', cs, hdrain, hmoves, hcs, hok⟩ := drain_spec sha256 ops s
  rw [hmanifest] at hmoves hok
  have hview' := hmoves.keeps hview
  have hoffered : s'.view.offered.flatten <+: pieces.flatten := by
    rw [hmoves.offered, List.flatten_append, ← hflat]
    rcases hcs with rfl | rfl
    · rw [List.flatten_nil, List.append_nil]
      exact List.prefix_append _ _
    · exact ⟨[], by rw [lastChunk_flatten, List.append_nil]⟩
  refine ⟨pieces, hpieces, hall, fun log hlog => ?_, fun log hlog => ?_, fun b log hfinish => ?_⟩
  · exact .of_view sha256 hview (hflat ▸ List.prefix_append _ _) hlog
  · rw [hdrain] at hlog
    exact .of_view sha256 hview' hoffered hlog
  · obtain ⟨hreceived, u, s'', hdrain', rfl⟩ := finish_ok sha256 ops hfinish
    rw [hdrain] at hdrain'
    cases hdrain'
    obtain ⟨rfl, hdelayed, hnext⟩ := hok rfl
    obtain ⟨m, hdelivered, hm, -⟩ := hview'.delivered
    have hlog : s'.view.offered = s'.framer.2.map Prod.fst := by
      simp [View.offered, view, hdelayed]
    have hcount : m = manifest.chunkHashes.length := by
      rw [← hnext]
      simpa [view, hdelayed] using hm
    subst hcount
    have hall' := hmoves.offered
    rw [hlog] at hall'
    refine ⟨hdelivered, ?_, fun hclean => ?_⟩
    · rw [hall', List.flatten_append, lastChunk_flatten, hflat]
    · obtain ⟨hlength, hauth⟩ := hdelivered.authentic hclean
      refine ⟨hauth, hlength, ?_⟩
      obtain ⟨tail, htail⟩ : s.framer.2 <+: s'.framer.2 := hmoves.log_prefix
      have hbefore : Log.Clean s.framer.2 := Log.Clean.of_append (htail.symm ▸ hclean)
      have hwhole := (hledger hbefore).whole hreceived (by
        rw [← hall', hmanifest]
        exact hlength)
      rw [hall', hwhole, hmanifest]

/-! ## After a refusal

The first chunk of this stream is no zkey file. The framer refuses it, the position counter
stays, and the same chunk is authenticated and framed again. -/

theorem authenticateChunk_refused {s : Logged F} {c : List UInt8} {e : StreamingError} {f : F}
    (hdelayed : s.authenticated = none)
    (hash : s.manifest.chunkHashes[s.nextChunk]? = some (sha256 c))
    (hrefused : ops.push c s.framer.1 = (.error e, f)) :
    authenticateChunk sha256 ops.logged c s =
      (.error e, { s with framer := (f, s.framer.2 ++ [(c, false)]) }) := by
  unfold authenticateChunk frameAuthenticated
  rw [hdelayed]
  dsimp only
  rw [Outcome.next_ok, hash]
  dsimp only
  rw [if_neg (not_not_intro rfl)]
  simp only [frame, Framer.logged, hrefused, Outcome.next_error, hdelayed]
  rfl

/-- A framer over a builder whose sections are never reached. -/
def headerFramer : Framer (ZkeyFramer Unit Unit) (StreamingProofBuilder Unit Unit) :=
  let sections : Sections Unit Unit :=
    ⟨fun _ _ _ => .error .unexpectedEof, fun p _ => (.ok (), p), fun s _ _ => .ok s⟩
  ⟨ZkeyFramer.push sections, ZkeyFramer.finish⟩

@[irreducible] def zeroChunk : List UInt8 := List.replicate 65536 0

theorem zeroChunk_length : zeroChunk.length = 65536 := by
  unfold zeroChunk
  exact List.length_replicate

theorem zeroChunk_ne_nil : zeroChunk ≠ [] :=
  List.ne_nil_of_length_pos (by rw [zeroChunk_length]; decide)

/-- The digest of `zeroChunk`, the only input it is computed on here. -/
def zeroDigest (_ : List UInt8) : List UInt8 :=
  [222, 47, 37, 96, 100, 160, 175, 121, 119, 71, 194, 185, 117, 5, 220, 11,
    159, 61, 240, 222, 79, 72, 158, 172, 115, 28, 35, 174, 156, 169, 204, 49]

def twoChunks : ZkeyChunkManifest where
  chunkBytes := 65536
  zkeyBytes := 131072
  chunkHashes := [zeroDigest zeroChunk, List.replicate 32 0]
  chunkBytes_mem := by decide
  zkeyBytes_pos := by decide
  chunkHashes_length := by decide

theorem headerFramer_refuses {f : ZkeyFramer Unit Unit} (hstate : f.state = .fileHeader)
    (hheader : f.header = []) (hbuilder : f.builder = .new ()) :
    headerFramer.push zeroChunk f = (.error (.invalidZkey "unsupported zkey file header"), f) := by
  have hrounds : zeroChunk.length = 65535 + 1 := zeroChunk_length
  have htake : zeroChunk.take 12 = List.replicate 12 0 := by
    unfold zeroChunk
    exact List.take_replicate
  obtain ⟨builder, state, header, sections⟩ := f
  cases hstate
  cases hheader
  cases hbuilder
  simp only [headerFramer, ZkeyFramer.push]
  rw [hrounds, ZkeyFramer.pushRounds, if_neg zeroChunk_ne_nil]
  simp only [ZkeyFramer.round, sectionHeaderBytes, List.length_nil, Nat.sub_zero, hrounds,
    List.nil_append]
  rw [show min 12 (65535 + 1) = 12 from rfl, htake]
  rfl

theorem push_zeroChunk {s : Logged (ZkeyFramer Unit Unit)} (hmanifest : s.manifest = twoChunks)
    (hnext : s.nextChunk = 0) (hpending : s.pending = []) (hdelayed : s.authenticated = none)
    (hreceived : s.received ≤ 65536) (hstate : s.framer.1.state = .fileHeader)
    (hheader : s.framer.1.header = []) (hbuilder : s.framer.1.builder = .new ()) :
    push zeroDigest headerFramer.logged zeroChunk s =
      (.error (.invalidZkey "unsupported zkey file header"), { s with
        received := s.received + 65536
        framer := (s.framer.1, s.framer.2 ++ [(zeroChunk, false)]) }) := by
  have hlength := zeroChunk_length
  have hrefused := headerFramer_refuses hstate hheader hbuilder
  obtain ⟨manifest, next, received, pending, authenticated, framer⟩ := s
  dsimp only at hmanifest hnext hpending hdelayed hreceived hrefused ⊢
  subst hmanifest hnext hpending hdelayed
  have hsize : ¬received + 65536 ≥ 2 ^ 64 := by omega
  have hfits : ¬received + 65536 > twoChunks.zkeyBytes := by
    simp only [twoChunks]
    omega
  have hfull : zeroChunk.take (min (twoChunks.chunkBytes - ([] : List UInt8).length) 65536) =
      zeroChunk := List.take_of_length_le (by rw [hlength]; decide)
  unfold push
  rw [hlength, if_neg hsize]
  dsimp only
  rw [if_neg hfits, show (65536 : Nat) = 65535 + 1 from rfl, pushRounds, if_neg zeroChunk_ne_nil, hlength]
  dsimp only
  rw [hfull, List.nil_append, hlength, if_pos (show 65536 = twoChunks.chunkBytes from rfl)]
  rw [authenticatePending, authenticateChunk_refused zeroDigest headerFramer rfl rfl hrefused]
  rfl

theorem run_two {parallel : Bool} {bytes bytes' : List UInt8} {s t u : Logged F}
    {r r' : Except StreamingError Unit} (h : push sha256 ops.logged bytes s = (r, t))
    (h' : push sha256 ops.logged bytes' t = (r', u)) :
    (run sha256 ops.logged parallel [.push bytes, .push bytes'] s).2 = u := by
  simp only [run, step, h, h']

/-- The received chunk reaches the framer twice, so that what was handed over is no prefix of
chunks with the digests of the manifest, in order. -/
theorem refused_chunk_framed_twice :
    ∃ s, (run zeroDigest headerFramer.logged false [.push zeroChunk, .push zeroChunk]
        (new twoChunks (ZkeyFramer.new (.new ()), []))).2 = s ∧
      s.framer.2.map Prod.fst = [zeroChunk, zeroChunk] ∧
      ¬∃ chunks, Authentic zeroDigest twoChunks.chunkHashes chunks ∧
        (∀ c ∈ chunks, c.length ≤ twoChunks.chunkBytes) ∧
        (s.framer.2.map Prod.fst).flatten <+: chunks.flatten := by
  have hrun : (run zeroDigest headerFramer.logged false [.push zeroChunk, .push zeroChunk]
      (new twoChunks (ZkeyFramer.new (.new ()), []))).2.framer.2 =
        [(zeroChunk, false), (zeroChunk, false)] := by
    rw [run_two zeroDigest headerFramer
      (push_zeroChunk rfl rfl rfl rfl (Nat.zero_le _) rfl rfl rfl)
      (push_zeroChunk rfl rfl rfl rfl (Nat.le_refl _) rfl rfl rfl)]
    rfl
  refine ⟨_, rfl, by rw [hrun]; rfl, ?_⟩
  rintro ⟨chunks, hauth, hsizes, hcut⟩
  rw [hrun] at hcut
  have hlength := hcut.length_le
  simp only [List.map_cons, List.map_nil, List.flatten_cons, List.flatten_nil, List.append_nil,
    List.length_append, zeroChunk_length] at hlength
  cases chunks with
  | nil => simp at hlength
  | cons c rest =>
    cases rest with
    | nil =>
      have hsize : c.length ≤ 65536 := hsizes c (List.mem_singleton.mpr rfl)
      simp only [List.flatten_cons, List.flatten_nil, List.append_nil] at hlength
      omega
    | cons c' rest =>
      -- the second entry of the manifest is the digest of another chunk
      cases hauth 1 c' rfl

end ManifestProofStream

end Curvy.Sparrow
