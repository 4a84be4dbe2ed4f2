import Curvy.Sparrow.ManifestRuns

/-!
# Each call as a sequence of moves

What a call accepts is cut from the bytes still pending and the bytes it brings, in order.
The ledger balances the byte counter against the offered chunks, so that a stream that
offered one chunk per manifest entry and counted the manifest's size dropped nothing.
-/

namespace Curvy.Sparrow

set_option autoImplicit false

open Outcome

namespace ManifestProofStream

variable {F B : Type} (sha256 : List UInt8 → List UInt8) (ops : Framer F B)

/-- A stream over a logged framer. -/
abbrev Logged (F : Type) := ManifestProofStream (F × Log)

def view (s : Logged F) : View := ⟨s.nextChunk, s.authenticated, s.framer.2⟩

/-- The fields that hashing and framing leave alone. -/
structure Same (s s' : Logged F) : Prop where
  manifest : s'.manifest = s.manifest
  received : s'.received = s.received
  pending : s'.pending = s.pending

theorem Same.refl (s : Logged F) : Same s s := ⟨rfl, rfl, rfl⟩

theorem Same.trans {s t u : Logged F} (h : Same s t) (h' : Same t u) : Same s u :=
  ⟨h'.manifest.trans h.manifest, h'.received.trans h.received, h'.pending.trans h.pending⟩

theorem chunkBytes_pos (m : ZkeyChunkManifest) : 0 < m.chunkBytes := by
  have := m.chunkBytes_mem.1
  omega

/-! ### Framing and hashing -/

theorem frameAuthenticated_spec (s : Logged F) : ∃ r s', frameAuthenticated ops.logged s = (r, s') ∧
    Same s s' ∧ s'.authenticated = none ∧ s'.nextChunk = s.nextChunk ∧
    Moves sha256 s.manifest.chunkHashes s.view [] s'.view := by
  unfold frameAuthenticated
  cases hdelayed : s.authenticated with
  | none =>
    refine ⟨.ok (), s, rfl, .refl s, hdelayed, rfl, .refl _⟩
  | some c =>
    refine ⟨_, _, rfl, ⟨rfl, rfl, rfl⟩, rfl, rfl, .single ?_⟩
    simp only [view, hdelayed]
    exact .frameDelayed _ _ c _

/-- Framing a chunk that has just been authenticated, and counting it if it was taken. -/
theorem frame_moves {s : Logged F} {c : List UInt8} (hdelayed : s.authenticated = none)
    (hash : s.manifest.chunkHashes[s.nextChunk]? = some (sha256 c)) :
    ∃ r s', frame ops.logged c s = (r, s') ∧ Same s s' ∧ s'.authenticated = none ∧
      s'.nextChunk = s.nextChunk ∧
      (r = .ok () → Moves sha256 s.manifest.chunkHashes s.view [c]
        { s'.view with next := s.nextChunk + 1 }) ∧
      (∀ e, r = .error e → ¬Log.Clean s'.framer.2 ∧
        Moves sha256 s.manifest.chunkHashes s.view [c] s'.view) := by
  refine ⟨_, _, rfl, ⟨rfl, rfl, rfl⟩, hdelayed, rfl, fun hok => ?_, fun e he => ⟨?_, ?_⟩⟩
  · refine .single ?_
    simp only [Framer.logged] at hok
    simp only [view, hdelayed, Framer.logged, hok]
    exact .take _ _ c hash
  · intro hclean
    simp only [Framer.logged] at he
    have := hclean (c, false) (by simp [Framer.logged, he, Except.isOk, Except.toBool])
    cases this
  · refine .single ?_
    simp only [Framer.logged] at he
    simp only [view, hdelayed, Framer.logged, he]
    exact .refuse _ _ c hash

/-- What authenticating a chunk does: it is handed over, or nothing is. -/
structure Offer (bytes : List UInt8) (s : Logged F) (r : Except StreamingError Unit)
    (s' : Logged F) (cs : List (List UInt8)) : Prop where
  same : Same s s'
  moves : Moves sha256 s.manifest.chunkHashes s.view cs s'.view
  offered : cs = [bytes] ∧ (r ≠ .ok () → ¬Log.Clean s'.framer.2) ∨ cs = [] ∧ r ≠ .ok ()

theorem authenticateChunk_spec (bytes : List UInt8) (s : Logged F) :
    ∃ r s' cs, authenticateChunk sha256 ops.logged bytes s = (r, s') ∧
      Offer sha256 bytes s r s' cs := by
  obtain ⟨r, s₁, hframe, hsame, hdelayed, hnext, hmoves⟩ := frameAuthenticated_spec sha256 ops s
  unfold authenticateChunk
  rw [hframe]
  cases r with
  | error e => exact ⟨_, _, [], rfl, hsame, hmoves, .inr ⟨rfl, fun h => (by cases h)⟩⟩
  | ok u =>
    rw [next_ok, hsame.manifest]
    cases hexpected : s.manifest.chunkHashes[s₁.nextChunk]? with
    | none => exact ⟨_, _, [], rfl, hsame, hmoves, .inr ⟨rfl, fun h => (by cases h)⟩⟩
    | some expected =>
      by_cases hash : sha256 bytes = expected
      · obtain ⟨r, s₂, hframe₂, hsame₂, hdelayed₂, hnext₂, hok, herror⟩ :=
          frame_moves sha256 ops (c := bytes) hdelayed (by rw [hsame.manifest, hexpected, hash])
        simp only [hash, ne_eq, not_true_eq_false, if_false]
        rw [hframe₂]
        cases r with
        | error e =>
          obtain ⟨hrefused, hlast⟩ := herror e rfl
          exact ⟨_, _, [bytes], rfl, hsame.trans hsame₂, hmoves.trans (hsame.manifest ▸ hlast),
            .inl ⟨rfl, fun _ => hrefused⟩⟩
        | ok u =>
          have hlast := hmoves.trans (hsame.manifest ▸ hok rfl)
          rw [← hnext₂] at hlast
          exact ⟨_, _, [bytes], rfl, ⟨hsame₂.manifest.trans hsame.manifest,
            hsame₂.received.trans hsame.received, hsame₂.pending.trans hsame.pending⟩, hlast,
            .inl ⟨rfl, fun h => (h rfl).elim⟩⟩
      · dsimp only
        rw [if_pos hash]
        exact ⟨_, _, [], rfl, hsame, hmoves, .inr ⟨rfl, fun h => (by cases h)⟩⟩

/-! ### The ledger -/

/-- Either more bytes were counted than the manifest has, or the counter is the offered and
pending bytes and the dropped ones, of which there are none or at least a chunk. Offered
chunks are full; a short one ends the stream. -/
def Ledger (s : Logged F) (offered : List (List UInt8)) : Prop :=
  s.manifest.zkeyBytes < s.received ∨
    (∃ d, s.received = offered.flatten.length + s.pending.length + d ∧
      (d = 0 ∨ s.manifest.chunkBytes ≤ d)) ∧
    ((∀ c ∈ offered, c.length = s.manifest.chunkBytes) ∨
      s.received = s.manifest.zkeyBytes ∧ s.pending = [] ∧
        offered.length * s.manifest.chunkBytes <
          offered.flatten.length + s.manifest.chunkBytes)

/-- What a call does with the bytes it brings. -/
structure Effect (sha256 : List UInt8 → List UInt8) (bytes : List UInt8) (s : Logged F)
    (r : Except StreamingError Unit) (s' : Logged F) (cs : List (List UInt8)) : Prop where
  manifest : s'.manifest = s.manifest
  pending_lt : s'.pending.length < s.manifest.chunkBytes
  moves : Moves sha256 s.manifest.chunkHashes s.view cs s'.view
  /-- Offered chunks and the new pending bytes are cut from the old pending bytes and the
  call's; a call that succeeds drops nothing. -/
  cut : cs.flatten ++ s'.pending <+: s.pending ++ bytes
  all : r = .ok () → cs.flatten ++ s'.pending = s.pending ++ bytes
  ledger : Log.Clean s'.framer.2 → ∀ offered, Ledger s offered → Ledger s' (offered ++ cs)

variable {sha256} in
/-- A call that changes nothing the specification speaks about. -/
theorem Effect.nothing {bytes : List UInt8} {s s' : Logged F}
    (hpending : s.pending.length < s.manifest.chunkBytes) (hsame : Same s s')
    (hmoves : Moves sha256 s.manifest.chunkHashes s.view [] s'.view) (e : StreamingError) :
    Effect sha256 bytes s (.error e) s' [] where
  manifest := hsame.manifest
  pending_lt := by rw [hsame.pending]; exact hpending
  moves := hmoves
  cut := by
    rw [hsame.pending]
    exact List.prefix_append _ _
  all h := by cases h
  ledger _ offered h := by
    rw [List.append_nil]
    unfold Ledger at h ⊢
    rw [hsame.manifest, hsame.received, hsame.pending]
    exact h

variable {sha256} in
theorem Same.effect {bytes : List UInt8} {s : Logged F}
    (hpending : s.pending.length < s.manifest.chunkBytes) (e : StreamingError) :
    Effect sha256 bytes s (.error e) s [] := .nothing hpending (.refl s) (.refl _) e

/-! ### Arbitrary slices -/

/-- What the rounds of a push do: full chunks are handed over until one is turned down. -/
structure Rounds (sha256 : List UInt8 → List UInt8) (bytes : List UInt8) (s : Logged F)
    (r : Except StreamingError Unit) (s' : Logged F) (cs : List (List UInt8))
    (lost : List UInt8) : Prop where
  manifest : s'.manifest = s.manifest
  received : s'.received = s.received
  pending_lt : s'.pending.length < s.manifest.chunkBytes
  moves : Moves sha256 s.manifest.chunkHashes s.view cs s'.view
  cut : s.pending ++ bytes = cs.flatten ++ s'.pending ++ lost
  dropped : Log.Clean s'.framer.2 → lost = [] ∨ s.manifest.chunkBytes ≤ lost.length
  all : r = .ok () → lost = []
  full : ∀ c ∈ cs, c.length = s.manifest.chunkBytes

theorem pushRounds_spec {rounds : Nat} : ∀ (bytes : List UInt8) {s : Logged F},
    bytes.length ≤ rounds → s.pending.length < s.manifest.chunkBytes →
    ∃ r s' cs dropped, pushRounds sha256 ops.logged rounds bytes s = (r, s') ∧
      Rounds sha256 bytes s r s' cs dropped := by
  induction rounds with
  | zero =>
    intro bytes s hlen hpending
    have hbytes : bytes = [] := List.eq_nil_of_length_eq_zero (by omega)
    exact ⟨.ok (), s, [], [], rfl, rfl, rfl, hpending, .refl _, by simp [hbytes],
      fun _ => .inl rfl, fun _ => rfl, by simp⟩
  | succ rounds ih =>
    intro bytes s hlen hpending
    unfold pushRounds
    by_cases hbytes : bytes = []
    · rw [if_pos hbytes]
      exact ⟨.ok (), s, [], [], rfl, rfl, rfl, hpending, .refl _, by simp [hbytes],
        fun _ => .inl rfl, fun _ => rfl, by simp⟩
    · rw [if_neg hbytes]
      have hpos := List.length_pos_of_ne_nil hbytes
      generalize htake : min (s.manifest.chunkBytes - s.pending.length) bytes.length = take
      have hdrop : (bytes.drop take).length ≤ rounds := by
        rw [List.length_drop]
        omega
      have hfilled : (s.pending ++ bytes.take take).length = s.pending.length + take := by
        rw [List.length_append, List.length_take]
        omega
      dsimp only
      split
      · rename_i hfull
        -- a chunk is complete: it is hashed and framed, and the buffer starts afresh
        unfold authenticatePending
        obtain ⟨r₁, s₁, cs₁, hauth, hsame, hmoves, hoffered⟩ := authenticateChunk_spec sha256 ops
          (s.pending ++ bytes.take take) ({ s with pending := [] } : Logged F)
        rw [hauth]
        have hpending₁ : s₁.pending = [] := hsame.pending
        have hmanifest₁ : s₁.manifest = s.manifest := hsame.manifest
        cases r₁ with
        | error e =>
          rcases hoffered with ⟨rfl, hrefused⟩ | ⟨rfl, -⟩
          · refine ⟨_, _, [s.pending ++ bytes.take take], bytes.drop take, rfl, ?_⟩
            exact {
              manifest := hmanifest₁
              received := hsame.received
              pending_lt := by
                rw [hpending₁]
                exact chunkBytes_pos _
              moves := hmoves
              cut := by simp [hpending₁]
              dropped := fun hclean => (hrefused (fun h => (by cases h)) hclean).elim
              all := fun h => by cases h
              full := fun c hc => by
                rw [List.mem_singleton.mp hc]
                exact hfull }
          · refine ⟨_, _, [], s.pending ++ bytes, rfl, ?_⟩
            exact {
              manifest := hmanifest₁
              received := hsame.received
              pending_lt := by
                rw [hpending₁]
                exact chunkBytes_pos _
              moves := hmoves
              cut := by simp [hpending₁]
              dropped := fun _ => .inr (by rw [List.length_append]; omega)
              all := fun h => by cases h
              full := by simp }
        | ok u =>
          obtain ⟨rfl, -⟩ : cs₁ = [s.pending ++ bytes.take take] ∧ _ :=
            hoffered.resolve_right fun h => h.2 rfl
          obtain ⟨r, s', cs, dropped, hrest, h⟩ := ih (bytes.drop take) hdrop
            (by rw [hpending₁]; exact chunkBytes_pos _)
          refine ⟨r, s', (s.pending ++ bytes.take take) :: cs, dropped, hrest, ?_⟩
          exact {
            manifest := h.manifest.trans hmanifest₁
            received := h.received.trans hsame.received
            pending_lt := hmanifest₁ ▸ h.pending_lt
            moves := Moves.trans hmoves (hmanifest₁ ▸ h.moves)
            cut := by
              have := h.cut
              rw [hpending₁, List.nil_append] at this
              rw [List.flatten_cons, List.append_assoc, List.append_assoc, ← List.append_assoc cs.flatten,
                ← this, List.append_assoc, List.take_append_drop]
            dropped := fun hclean => hmanifest₁ ▸ h.dropped hclean
            all := h.all
            full := List.forall_mem_cons.mpr ⟨hfull, hmanifest₁ ▸ h.full⟩ }
      · rename_i hshort
        obtain ⟨r, s', cs, dropped, hrest, h⟩ := ih (bytes.drop take)
          (s := { s with pending := s.pending ++ bytes.take take }) hdrop (by
            dsimp only at hshort ⊢
            omega)
        refine ⟨r, s', cs, dropped, hrest, ?_⟩
        exact {
          manifest := h.manifest
          received := h.received
          pending_lt := h.pending_lt
          moves := h.moves
          cut := by
            have := h.cut
            rw [List.append_assoc, List.take_append_drop] at this
            exact this
          dropped := h.dropped
          all := h.all
          full := h.full }

theorem flatten_length_of_full {n : Nat} {cs : List (List UInt8)} (h : ∀ c ∈ cs, c.length = n) :
    cs.flatten.length = cs.length * n := by
  induction cs with
  | nil => simp
  | cons c cs ih =>
    obtain ⟨hc, hcs⟩ := List.forall_mem_cons.mp h
    rw [List.flatten_cons, List.length_append, ih hcs, hc, List.length_cons, Nat.succ_mul]
    omega

theorem push_spec (bytes : List UInt8) {s : Logged F}
    (hpending : s.pending.length < s.manifest.chunkBytes) :
    ∃ r s' cs, push sha256 ops.logged bytes s = (r, s') ∧ Effect sha256 bytes s r s' cs := by
  unfold push
  split
  · exact ⟨_, _, [], rfl, Same.effect hpending _⟩
  · dsimp only
    split
    · rename_i hover
      refine ⟨_, _, [], rfl, ?_⟩
      exact {
        manifest := rfl
        pending_lt := hpending
        moves := .refl _
        cut := List.prefix_append _ _
        all := fun h => by cases h
        ledger := fun _ _ _ => .inl hover }
    · rename_i hsize
      obtain ⟨r, s', cs, dropped, hrounds, h⟩ := pushRounds_spec sha256 ops
        bytes (s := { s with received := s.received + bytes.length }) (Nat.le_refl _)
        hpending
      refine ⟨r, s', cs, hrounds, ?_⟩
      have hlength := congrArg List.length h.cut
      simp only [List.length_append] at hlength
      have hcs : cs.flatten.length = cs.length * s.manifest.chunkBytes :=
        flatten_length_of_full h.full
      have hpos := chunkBytes_pos s.manifest
      exact {
        manifest := h.manifest
        pending_lt := h.pending_lt
        moves := h.moves
        cut := ⟨dropped, h.cut.symm⟩
        all := fun hr => by
          have := h.cut
          rw [h.all hr, List.append_nil] at this
          exact this.symm
        ledger := by
          rintro hclean offered (hmore | ⟨⟨d, hd, hdropped⟩, hsizes⟩)
          · omega
          · have hmanifest : s'.manifest = s.manifest := h.manifest
            have hreceived : s'.received = s.received + bytes.length := h.received
            refine .inr ⟨⟨d + dropped.length, ?_, ?_⟩, ?_⟩
            · rw [List.flatten_append, List.length_append]
              omega
            · have hlong : dropped = [] ∨ s.manifest.chunkBytes ≤ dropped.length :=
                h.dropped hclean
              rw [hmanifest]
              rcases hlong with hnil | hlong
              · rw [hnil]
                exact hdropped
              · omega
            · rw [hmanifest, hreceived]
              rcases hsizes with hfull | ⟨hdone, hempty, hlt⟩
              · left
                intro c hc
                rcases List.mem_append.mp hc with hc | hc
                · exact hfull c hc
                · exact h.full c hc
              · right
                rw [hempty, List.length_nil] at hlength
                have hcs0 : cs.length = 0 := by
                  rcases Nat.eq_zero_or_pos cs.length with h0 | h0
                  · exact h0
                  · have := Nat.le_mul_of_pos_left s.manifest.chunkBytes h0
                    omega
                rw [List.length_eq_zero_iff.mp hcs0, List.append_nil]
                refine ⟨by omega, List.eq_nil_of_length_eq_zero (by omega), hlt⟩ }

/-! ### Whole chunks -/

theorem checkCompleteChunk_ok {bytes : List UInt8} {s : Logged F} {u : Unit}
    (h : checkCompleteChunk bytes s = .ok u) : s.pending = [] ∧
      s.received ≤ s.manifest.zkeyBytes ∧ 0 < bytes.length ∧
      bytes.length = min (s.manifest.zkeyBytes - s.received) s.manifest.chunkBytes := by
  unfold checkCompleteChunk at h
  split at h
  · cases h
  · rename_i hpending
    split at h
    · cases h
    · dsimp only at h
      split at h
      · cases h
      · rename_i hsize
        exact ⟨Decidable.not_not.mp hpending, by omega, by omega, by omega⟩

/-- The ledger after one more offered chunk of the size the check demands. -/
theorem Ledger.complete {bytes : List UInt8} {s s' : Logged F} {offered : List (List UInt8)}
    {u : Unit} (h : Ledger s offered) (hcheck : checkCompleteChunk bytes s = .ok u)
    (hmanifest : s'.manifest = s.manifest) (hpending : s'.pending = s.pending)
    (hreceived : s'.received = s.received + bytes.length) : Ledger s' (offered ++ [bytes]) := by
  obtain ⟨hempty, hle, hpos, hlength⟩ := checkCompleteChunk_ok hcheck
  rcases h with hmore | ⟨⟨d, hd, hdropped⟩, hsizes⟩
  · omega
  · refine .inr ⟨⟨d, ?_, hmanifest ▸ hdropped⟩, ?_⟩
    · rw [List.flatten_append, List.length_append, hpending, hreceived]
      simp only [List.flatten_cons, List.flatten_nil, List.append_nil]
      omega
    · rw [hmanifest, hreceived, hpending]
      rcases hsizes with hfull | ⟨hdone, -, -⟩
      · by_cases hchunk : bytes.length = s.manifest.chunkBytes
        · left
          intro c hc
          rcases List.mem_append.mp hc with hc | hc
          · exact hfull c hc
          · rw [List.mem_singleton.mp hc, hchunk]
        · right
          refine ⟨by omega, hempty, ?_⟩
          have hflat := flatten_length_of_full hfull
          simp only [List.flatten_append, List.length_append, List.length_singleton,
            List.flatten_cons, List.flatten_nil, List.append_nil, Nat.succ_mul]
          omega
      · omega

variable {sha256} in
/-- A whole chunk that was taken, whether it is framed at once or later. -/
theorem Effect.complete {bytes : List UInt8} {s s' : Logged F} {u : Unit}
    (hcheck : checkCompleteChunk bytes s = .ok u)
    (hmanifest : s'.manifest = s.manifest) (hpending : s'.pending = s.pending)
    (hreceived : s'.received = s.received + bytes.length)
    (hmoves : Moves sha256 s.manifest.chunkHashes s.view [bytes] s'.view) :
    Effect sha256 bytes s (.ok ()) s' [bytes] := by
  have hempty := (checkCompleteChunk_ok hcheck).1
  have hcut : [bytes].flatten ++ s'.pending = s.pending ++ bytes := by
    simp [hpending, hempty]
  exact {
    manifest := hmanifest
    pending_lt := by
      rw [hpending, hempty]
      exact chunkBytes_pos _
    moves := hmoves
    cut := hcut ▸ List.prefix_rfl
    all := fun _ => hcut
    ledger := fun _ _ h => h.complete hcheck hmanifest hpending hreceived }

variable {sha256} in
/-- A whole chunk that was handed over and refused. -/
theorem Effect.refused {bytes : List UInt8} {s s' : Logged F} {e : StreamingError}
    (hempty : s.pending = []) (hsame : Same s s') (hrefused : ¬Log.Clean s'.framer.2)
    (hmoves : Moves sha256 s.manifest.chunkHashes s.view [bytes] s'.view) :
    Effect sha256 bytes s (.error e) s' [bytes] where
  manifest := hsame.manifest
  pending_lt := by
    rw [hsame.pending, hempty]
    exact chunkBytes_pos _
  moves := hmoves
  cut := by simp [hsame.pending, hempty]
  all h := by cases h
  ledger hclean := (hrefused hclean).elim

theorem pushCompleteChunkRef_spec (bytes : List UInt8) {s : Logged F}
    (hpending : s.pending.length < s.manifest.chunkBytes) :
    ∃ r s' cs, pushCompleteChunkRef sha256 ops.logged bytes s = (r, s') ∧
      Effect sha256 bytes s r s' cs := by
  unfold pushCompleteChunkRef
  cases hcheck : checkCompleteChunk bytes s with
  | error e => exact ⟨_, _, [], rfl, Same.effect hpending e⟩
  | ok u =>
    obtain ⟨r, s₁, cs, hauth, hsame, hmoves, hoffered⟩ := authenticateChunk_spec sha256 ops bytes s
    dsimp only
    rw [hauth]
    cases r with
    | error e =>
      rcases hoffered with ⟨rfl, hrefused⟩ | ⟨rfl, -⟩
      · exact ⟨_, _, [bytes], rfl, .refused (checkCompleteChunk_ok hcheck).1 hsame
          (hrefused fun h => (by cases h)) hmoves⟩
      · exact ⟨_, _, [], rfl, .nothing hpending hsame hmoves e⟩
    | ok u =>
      obtain ⟨rfl, -⟩ : cs = [bytes] ∧ _ := hoffered.resolve_right fun h => h.2 rfl
      refine ⟨_, _, [bytes], rfl, .complete hcheck hsame.manifest hsame.pending ?_ hmoves⟩
      exact congrArg (· + bytes.length) hsame.received

theorem pushCompleteChunk_spec (parallel : Bool) (bytes : List UInt8) {s : Logged F}
    (hpending : s.pending.length < s.manifest.chunkBytes) :
    ∃ r s' cs, pushCompleteChunk sha256 ops.logged parallel bytes s = (r, s') ∧
      Effect sha256 bytes s r s' cs := by
  unfold pushCompleteChunk
  cases parallel with
  | false => exact pushCompleteChunkRef_spec sha256 ops bytes hpending
  | true =>
    rw [if_pos rfl]
    cases hcheck : checkCompleteChunk bytes s with
    | error e => exact ⟨_, _, [], rfl, Same.effect hpending e⟩
    | ok u =>
      dsimp only
      cases hexpected : s.manifest.chunkHashes[s.nextChunk]? with
      | none => exact ⟨_, _, [], rfl, Same.effect hpending _⟩
      | some expected =>
        obtain ⟨r, s₁, hframe, hsame, hdelayed, hnext, hmoves⟩ :=
          frameAuthenticated_spec sha256 ops s
        dsimp only
        rw [hframe]
        cases r with
        | error e => exact ⟨_, _, [], rfl, .nothing hpending hsame hmoves e⟩
        | ok u =>
          by_cases hash : sha256 bytes = expected
          · simp only [next_ok, hash, ne_eq, not_true_eq_false, if_false]
            refine ⟨_, _, [bytes], rfl, .complete hcheck hsame.manifest hsame.pending ?_ ?_⟩
            · exact congrArg (· + bytes.length) hsame.received
            · have hmove : Move sha256 s.manifest.chunkHashes s₁.view [bytes]
                  ⟨s₁.nextChunk + 1, some bytes, s₁.framer.2⟩ := by
                simp only [view, hdelayed]
                exact .delay _ _ bytes (by rw [hnext, hexpected, hash])
              exact hmoves.trans (.single hmove)
          · simp only [next_ok]
            rw [if_pos hash]
            exact ⟨_, _, [], rfl, .nothing hpending hsame hmoves _⟩

/-! ### Batches -/

variable {sha256} in
theorem verifyChunks_ok : ∀ {chunks hashes : List (List UInt8)} {index : Nat} {u : Unit},
    verifyChunks sha256 index chunks hashes = .ok u → chunks.length ≤ hashes.length →
    ∀ (i : Nat) (c : List UInt8), chunks[i]? = some c → hashes[i]? = some (sha256 c) := by
  intro chunks
  induction chunks with
  | nil => simp
  | cons chunk chunks ih =>
    intro hashes index u h hlength i c hi
    cases hashes with
    | nil => simp at hlength
    | cons expected hashes =>
      unfold verifyChunks at h
      split at h
      · cases h
      · rename_i hash
        cases i with
        | zero =>
          cases hi
          exact congrArg some (Decidable.not_not.mp hash).symm
        | succ i => exact ih h (by simpa using hlength) i c hi

/-- Framing a verified batch hands over its chunks in order until one is refused. -/
theorem frameChunks_spec : ∀ (chunks : List (List UInt8)) {s : Logged F},
    s.authenticated = none →
    (∀ (i : Nat) (c : List UInt8), chunks[i]? = some c →
      s.manifest.chunkHashes[s.nextChunk + i]? = some (sha256 c)) →
    ∃ r s' cs, frameChunks ops.logged chunks s = (r, s') ∧ cs <+: chunks ∧
      (r = .ok () → cs = chunks) ∧ s'.manifest = s.manifest ∧ s'.pending = s.pending ∧
      (Log.Clean s'.framer.2 → s'.received = s.received + cs.flatten.length) ∧
      Moves sha256 s.manifest.chunkHashes s.view cs s'.view := by
  intro chunks
  induction chunks with
  | nil =>
    intro s _ _
    exact ⟨_, _, [], rfl, List.prefix_rfl, fun _ => rfl, rfl, rfl, fun _ => rfl, .refl _⟩
  | cons chunk chunks ih =>
    intro s hdelayed hashes
    obtain ⟨r, s₁, hframe, hsame, hdelayed₁, hnext, hok, herror⟩ :=
      frame_moves sha256 ops hdelayed (hashes 0 chunk rfl)
    unfold frameChunks
    rw [hframe]
    cases r with
    | error e =>
      obtain ⟨hrefused, hmoves⟩ := herror e rfl
      exact ⟨_, _, [chunk], rfl, List.cons_prefix_cons.mpr ⟨rfl, List.nil_prefix⟩,
        fun h => (by cases h), hsame.manifest, hsame.pending,
        fun hclean => (hrefused hclean).elim, hmoves⟩
    | ok u =>
      obtain ⟨r, s', cs, hrest, hpre, hall, hmanifest, hpending, hreceived, hmoves⟩ := ih
        (s := { s₁ with nextChunk := s₁.nextChunk + 1, received := s₁.received + chunk.length })
        hdelayed₁ (by
          intro i c hi
          have := hashes (i + 1) c hi
          dsimp only
          rw [hsame.manifest, hnext, Nat.add_right_comm, Nat.add_assoc]
          exact this)
      refine ⟨r, s', chunk :: cs, hrest, List.cons_prefix_cons.mpr ⟨rfl, hpre⟩,
        fun h => by rw [hall h], hmanifest.trans hsame.manifest, hpending.trans hsame.pending, ?_, ?_⟩
      · intro hclean
        have hreceived₁ := hsame.received
        have hreceived' := hreceived hclean
        dsimp only at hreceived'
        rw [List.flatten_cons, List.length_append]
        omega
      · have hfirst := hok rfl
        rw [← hnext] at hfirst
        exact hfirst.trans (hsame.manifest ▸ hmoves)

/-- A batch that fits: all of it, or whole chunks. -/
theorem Ledger.batch {bytes : List UInt8} {s s' : Logged F} {offered cs : List (List UInt8)}
    (h : Ledger s offered) (hempty : s.pending = []) (hbytes : bytes ≠ [])
    (hle : s.received ≤ s.manifest.zkeyBytes)
    (hfit : bytes.length ≤ s.manifest.zkeyBytes - s.received ∧
      (bytes.length = s.manifest.zkeyBytes - s.received ∨
        bytes.length % s.manifest.chunkBytes = 0))
    (hpre : cs <+: bytes.chunks s.manifest.chunkBytes)
    (hmanifest : s'.manifest = s.manifest) (hpending : s'.pending = s.pending)
    (hreceived : s'.received = s.received + cs.flatten.length) : Ledger s' (offered ++ cs) := by
  have hpos := chunkBytes_pos s.manifest
  have hlen := List.length_pos_of_ne_nil hbytes
  rcases h with hmore | ⟨⟨d, hd, hdropped⟩, hsizes⟩
  · omega
  · refine .inr ⟨⟨d, ?_, hmanifest ▸ hdropped⟩, ?_⟩
    · rw [List.flatten_append, List.length_append, hpending, hreceived]
      omega
    · rcases hsizes with hfull | ⟨hdone, -, -⟩
      · rw [hmanifest, hreceived, hpending]
        rcases List.chunks_sizes hpos bytes with ⟨hall, -⟩ | ⟨full, last, heq, hall, hlast, hshort⟩
        · left
          intro c hc
          rcases List.mem_append.mp hc with hc | hc
          · exact hfull c hc
          · exact hall c (hpre.subset hc)
        · rw [heq] at hpre
          rcases List.prefix_concat_iff.mp hpre with rfl | hpre
          · -- the short chunk is there, so the batch ends the stream
            right
            have hcs : (full ++ [last]).flatten.length = bytes.length := by
              rw [← heq, List.flatten_chunks hpos]
            have hflat := flatten_length_of_full hfull
            have hflat' := flatten_length_of_full hall
            simp only [List.flatten_append, List.length_append, List.flatten_cons, List.flatten_nil,
              List.append_nil] at hcs
            have hmod : bytes.length % s.manifest.chunkBytes ≠ 0 := by
              have hlast' := List.length_pos_of_ne_nil hlast
              rw [← hcs, hflat', Nat.mul_add_mod_of_lt hshort]
              omega
            refine ⟨?_, hempty, ?_⟩
            · simp only [List.flatten_append, List.length_append, List.flatten_cons,
                List.flatten_nil, List.append_nil]
              omega
            · have hlast' := List.length_pos_of_ne_nil hlast
              simp only [List.flatten_append, List.length_append, List.flatten_cons,
                List.flatten_nil, List.append_nil, List.length_singleton, Nat.add_mul, Nat.one_mul]
              omega
          · left
            intro c hc
            rcases List.mem_append.mp hc with hc | hc
            · exact hfull c hc
            · exact hall c (hpre.subset hc)
      · omega

theorem pushCompleteChunksRef_spec (bytes : List UInt8) {s : Logged F}
    (hpending : s.pending.length < s.manifest.chunkBytes) :
    ∃ r s' cs, pushCompleteChunksRef sha256 ops.logged bytes s = (r, s') ∧
      Effect sha256 bytes s r s' cs := by
  unfold pushCompleteChunksRef
  split
  · exact ⟨_, _, [], rfl, Same.effect hpending _⟩
  · rename_i hstart
    obtain ⟨hempty, hbytes⟩ : s.pending = [] ∧ bytes ≠ [] := by
      refine ⟨Decidable.not_not.mp fun h => hstart (.inl h), fun h => hstart (.inr h)⟩
    obtain ⟨r, s₁, hframe, hsame, hdelayed, hnext, hmoves⟩ :=
      frameAuthenticated_spec sha256 ops s
    rw [hframe]
    cases r with
    | error e => exact ⟨_, _, [], rfl, .nothing hpending hsame hmoves e⟩
    | ok u =>
      simp only [next_ok]
      split
      · exact ⟨_, _, [], rfl, .nothing hpending hsame hmoves _⟩
      · rename_i hle
        split
        · exact ⟨_, _, [], rfl, .nothing hpending hsame hmoves _⟩
        · rename_i hfit
          split
          · exact ⟨_, _, [], rfl, .nothing hpending hsame hmoves _⟩
          · rename_i hcount
            split
            · exact ⟨_, _, [], rfl, .nothing hpending hsame hmoves _⟩
            · rename_i hverify
              have hexpected := verifyChunks_ok hverify (by
                rw [List.length_take, List.length_drop]
                omega)
              obtain ⟨r, s', cs, hframes, hpre, hall, hmanifest, hpending', hreceived, hcs⟩ :=
                frameChunks_spec sha256 ops
                  (bytes.chunks s₁.manifest.chunkBytes) hdelayed (by
                    intro i c hi
                    have := hexpected i c hi
                    rw [List.getElem?_take] at this
                    split at this
                    · rwa [List.getElem?_drop] at this
                    · cases this)
              refine ⟨r, s', cs, hframes, ?_⟩
              rw [hsame.manifest] at hfit hpre hall hmanifest hle hcs
              rw [hsame.received] at hfit hle hreceived
              rw [hsame.pending] at hpending'
              have hpos := chunkBytes_pos s.manifest
              have hflat : (bytes.chunks s.manifest.chunkBytes).flatten = bytes :=
                List.flatten_chunks hpos bytes
              exact {
                manifest := hmanifest
                pending_lt := by
                  rw [hpending']
                  exact hpending
                moves := hmoves.trans hcs
                cut := by
                  rw [hpending', hempty, List.append_nil, List.nil_append]
                  obtain ⟨tail, htail⟩ := hpre
                  refine ⟨tail.flatten, ?_⟩
                  rw [← List.flatten_append, htail, hflat]
                all := fun h => by
                  rw [hall h, hpending', hempty, List.append_nil, List.nil_append, hflat]
                ledger := fun hclean _ h => h.batch hempty hbytes (by omega) (by omega) hpre
                  hmanifest hpending' (hreceived hclean) }

/-- A call of any kind. -/
theorem step_spec (parallel : Bool) (call : Call) {s : Logged F}
    (hpending : s.pending.length < s.manifest.chunkBytes) :
    ∃ r s' cs, step sha256 ops.logged parallel call s = (r, s') ∧
      Effect sha256 call.bytes s r s' cs := by
  cases call with
  | push bytes => exact push_spec sha256 ops bytes hpending
  | completeChunk bytes => exact pushCompleteChunk_spec sha256 ops parallel bytes hpending
  | completeChunksRef bytes => exact pushCompleteChunksRef_spec sha256 ops bytes hpending

/-! ### Finishing -/

/-- The chunk that `finish` takes from the pending bytes. -/
def lastChunk (s : Logged F) : List (List UInt8) := if s.pending ≠ [] then [s.pending] else []

theorem lastChunk_flatten (s : Logged F) : (lastChunk s).flatten = s.pending := by
  unfold lastChunk
  split
  · simp
  · rename_i h
    exact (Decidable.not_not.mp h).symm

theorem drain_spec (s : Logged F) : ∃ r s' cs, drain sha256 ops.logged s = (r, s') ∧
    Moves sha256 s.manifest.chunkHashes s.view cs s'.view ∧ (cs = [] ∨ cs = lastChunk s) ∧
    (r = .ok () → cs = lastChunk s ∧ s'.authenticated = none ∧
      s'.nextChunk = s.manifest.chunkHashes.length) := by
  have hlast : ∃ r s₁ cs, (if s.pending ≠ [] then authenticatePending sha256 ops.logged s
      else (.ok (), s)) = (r, s₁) ∧ s₁.manifest = s.manifest ∧
      Moves sha256 s.manifest.chunkHashes s.view cs s₁.view ∧ (cs = [] ∨ cs = lastChunk s) ∧
      (r = .ok () → cs = lastChunk s) := by
    unfold lastChunk
    split
    · obtain ⟨r, s₁, cs, hauth, hsame, hmoves, hoffered⟩ := authenticateChunk_spec sha256 ops
        s.pending ({ s with pending := [] } : Logged F)
      refine ⟨r, s₁, cs, hauth, hsame.manifest, hmoves, ?_, fun hr => ?_⟩
      · rcases hoffered with ⟨rfl, -⟩ | ⟨rfl, -⟩
        · exact .inr rfl
        · exact .inl rfl
      · rcases hoffered with ⟨rfl, -⟩ | ⟨-, herror⟩
        · rfl
        · exact (herror hr).elim
    · exact ⟨_, _, [], rfl, rfl, .refl _, .inl rfl, fun _ => rfl⟩
  obtain ⟨r, s₁, cs, hpending, hmanifest, hmoves, hcs, hok⟩ := hlast
  unfold drain
  rw [hpending]
  cases r with
  | error e => exact ⟨_, _, cs, rfl, hmoves, hcs, fun h => (by cases h)⟩
  | ok u =>
    rw [next_ok]
    split
    · exact ⟨_, _, cs, rfl, hmoves, hcs, fun h => (by cases h)⟩
    · rename_i hcount
      obtain ⟨r, s', hframe, hsame, hdelayed, hnext, hmoves'⟩ :=
        frameAuthenticated_spec sha256 ops s₁
      refine ⟨r, s', cs, hframe, ?_, hcs, fun _ => ⟨hok rfl, hdelayed, ?_⟩⟩
      · have := hmoves.trans (hmanifest ▸ hmoves')
        rwa [List.append_nil] at this
      · rw [hnext, ← hmanifest]
        exact Decidable.not_not.mp hcount

end ManifestProofStream

end Curvy.Sparrow
