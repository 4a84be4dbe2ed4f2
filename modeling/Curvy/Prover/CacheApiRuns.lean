import Curvy.Prover.CacheApi
import Curvy.Prover.WasmStreamingProverRuns

/-!
# Two passes under concurrency

The recorded hashes are those of one pass, but the authenticator is shared: they are the hashes
of the pinned file as long as a pass feeds and finishes only what its own reset began.
-/

namespace Curvy.Prover.CacheApi

set_option autoImplicit false

open Sparrow (hexDigest)
open WasmStreamingProver (Call Event Tracks passBytes)

variable {G A B M : Type} {sha256 : List UInt8 → List UInt8}

/-- The step uses the authenticator. -/
def Pass.feeds (p : Pass) : Bool :=
  match p.stage with
  | .hashing _ _ | .finishing => true
  | _ => false

def Pass.live (p : Pass) : Bool :=
  match p.stage with
  | .reading _ | .hashing _ _ | .finishing => true
  | _ => false

/-- A pass feeds and finishes an open authenticator only when the latest reset was its own. -/
def Orderly (w : Page G B M) (a : Action) : Prop :=
  ∀ i p, a = .pass i → w.passes[i]? = some p → p.feeds = true →
    w.shared.prover.authenticator ≠ none → w.latest = some i

variable (sha256) in
/-- The hashes are those of the chunks the pass fed, and the chunks make up the pinned file. -/
structure Pass.Authenticates (pinned : String) (hashes : List String) (p : Pass) : Prop where
  done : ∃ bytes, p.stage = .done bytes
  hashes : hashes = p.fed.map (sha256Hex sha256)
  pinned : sha256Hex sha256 p.fed.flatten = pinned

variable (sha256) in
def Page.Backed (pinned : String) (hashes : List String) (w : Page G B M) : Prop :=
  ∃ (i : Nat) (p : Pass), w.passes[i]? = some p ∧ p.Authenticates sha256 pinned hashes

/-- The bytes of a header that are there. -/
def ProofStage.read : ProofStage → List UInt8
  | .fileHeader read | .sectionHeader _ read => read
  | _ => []

/-- What passed the check was handed over, is on its way or was dropped by a failure; `read`
is what is held of a header. -/
def Proof.Accounts (read : List UInt8) (q : Proof) : Prop :=
  ∃ lost, q.handed ++ (read ++ (q.pending ++ (q.checked.queue.flatten ++ lost))) =
    q.checked.passed.flatten ∧ (q.checked.state = .readable → lost = [])

variable (sha256) in
structure Proof.Checks (q : Proof) : Prop where
  index : q.checked.index = q.checked.passed.length
  passed : q.checked.passed.map (sha256Hex sha256) <+: q.hashes
  accounts : q.Accounts q.stage.read

/-! ## Calls on the prover -/

variable (sha256) in
def Follows (pinned : String) (s : Shared G B M) : Prop := Tracks sha256 pinned s.past s.prover

variable (sha256) in
/-- What calls outside the authentication leave of the shared state. -/
structure Quiet (pinned : String) (s s' : Shared G B M) : Prop where
  recorded : s'.recorded = s.recorded
  authenticator : s'.prover.authenticator = s.prover.authenticator
  bytes : passBytes s'.past = passBytes s.past
  follows : Follows sha256 pinned s → Follows sha256 pinned s'

section Calls
variable (engine : Engine G A B M) {pinned : String}

theorem Quiet.refl (s : Shared G B M) : Quiet sha256 pinned s s := ⟨rfl, rfl, rfl, id⟩

theorem Quiet.trans {s s' s'' : Shared G B M} (h : Quiet sha256 pinned s s')
    (h' : Quiet sha256 pinned s' s'') : Quiet sha256 pinned s s'' where
  recorded := h'.recorded.trans h.recorded
  authenticator := h'.authenticator.trans h.authenticator
  bytes := h'.bytes.trans h.bytes
  follows := h'.follows ∘ h.follows

theorem call_follows (hpinned : normalizeHash pinned = .ok pinned) {s : Shared G B M}
    (h : Follows sha256 pinned s) (call : Call) :
    Follows sha256 pinned (s.call sha256 engine call).2 :=
  WasmStreamingProver.step_tracks engine hpinned h call

variable (sha256) in
theorem call_quiet (hpinned : normalizeHash pinned = .ok pinned) {call : Call}
    (hcall : call.isAuthentication = false) (s : Shared G B M) :
    Quiet sha256 pinned s (s.call sha256 engine call).2 := by
  have hbytes := WasmStreamingProver.passStep_other hcall (passBytes s.past)
    (s.prover.step sha256 engine call).1
  refine ⟨rfl, ?_, ?_, fun h => call_follows engine hpinned h call⟩
  · have hsame : (s.prover.step sha256 engine call).2.authentication = s.prover.authentication := by
      by_cases hbegin : call.isBegin = true
      · rcases WasmStreamingProver.begin_cases sha256 engine hbegin s.prover with
          ⟨e, hstep⟩ | ⟨reply, s', hstep, hbegan⟩
        · rw [hstep]
        · rw [hstep]
          exact hbegan.authentication
      · exact (WasmStreamingProver.other_cases sha256 engine (Bool.eq_false_iff.mpr hbegin) hcall _).2
    exact (Prod.mk.inj hsame).1
  · exact (WasmStreamingProver.passBytes_concat _ _).trans hbytes

variable (sha256) in
/-- A chunk that is fed extends the bytes of an open pass; a refused one changes nothing. -/
theorem feed_cases {s : Shared G B M} (chunk : List UInt8) :
    (∃ reply s', s.call sha256 engine (.authenticateZkeyChunk chunk) = (.ok reply, s') ∧
        s'.recorded = s.recorded ∧ s.prover.authenticator ≠ none ∧
        passBytes s'.past = passBytes s.past ++ chunk) ∨
      ∃ e s', s.call sha256 engine (.authenticateZkeyChunk chunk) = (.error e, s') ∧
        s'.recorded = s.recorded ∧ passBytes s'.past = passBytes s.past ∧
        (s'.prover.authenticator ≠ none → s.prover.authenticator ≠ none) := by
  cases hreply : (s.prover.step sha256 engine (.authenticateZkeyChunk chunk)).1 with
  | ok reply =>
    refine .inl ⟨reply, _, Prod.ext hreply rfl, rfl, ?_, ?_⟩
    · intro hclosed
      simp only [WasmStreamingProver.step, WasmStreamingProver.authenticateZkeyChunk, hclosed] at hreply
      cases hreply
    · simp only [Shared.call, WasmStreamingProver.passBytes_concat, hreply]
      rfl
  | error e =>
    refine .inr ⟨e, _, Prod.ext hreply rfl, rfl, ?_, ?_⟩
    · simp only [Shared.call, WasmStreamingProver.passBytes_concat, hreply]
      rfl
    · intro hopen hclosed
      apply hopen
      simp only [Shared.call, WasmStreamingProver.step, WasmStreamingProver.authenticateZkeyChunk, hclosed]

/-- A finish that succeeds has compared an open pass with the pin; no pass is open behind it. -/
theorem finish_cases {s : Shared G B M} (h : Follows sha256 pinned s) :
    (∃ bytes s', s.call sha256 engine .finishZkeyAuthentication = (.ok (.count bytes), s') ∧
        s.prover.authenticator ≠ none ∧ sha256Hex sha256 (passBytes s.past) = pinned ∧
        s'.prover.authenticator = none) ∨
      ∃ e s', s.call sha256 engine .finishZkeyAuthentication = (.error e, s') ∧
        s'.recorded = s.recorded ∧
        (s'.prover.authenticator ≠ none → s.prover.authenticator ≠ none) := by
  have hcall : s.call sha256 engine .finishZkeyAuthentication =
      ((s.prover.finishZkeyAuthentication sha256).1,
        ⟨(s.prover.finishZkeyAuthentication sha256).2, s.recorded,
          s.past ++ [(.finishZkeyAuthentication, (s.prover.finishZkeyAuthentication sha256).1)]⟩) := rfl
  rw [hcall]
  unfold WasmStreamingProver.finishZkeyAuthentication
  cases hopen : s.prover.authenticator with
  | none => exact .inr ⟨_, _, rfl, rfl, fun h => absurd hopen h⟩
  | some a =>
    obtain ⟨rfl, -⟩ := h.open_pass a hopen
    simp only [StreamingAuthenticator.finish]
    by_cases hdigest : hexDigest (sha256 (passBytes s.past)) = pinned
    · rw [if_neg (not_not.mpr hdigest)]
      exact .inl ⟨_, _, rfl, Option.some_ne_none _, hdigest, rfl⟩
    · rw [if_pos hdigest]
      refine .inr ?_
      cases s.prover.freshAuthenticator with
      | error e => exact ⟨_, _, rfl, rfl, fun _ => Option.some_ne_none _⟩
      | ok fresh => exact ⟨_, _, rfl, rfl, fun _ => Option.some_ne_none _⟩

variable (sha256) in
/-- A reset that succeeds starts the bytes again. -/
theorem reset_cases (s : Shared G B M) :
    (∃ reply s', s.call sha256 engine .resetZkeyAuthentication = (.ok reply, s') ∧
        s'.recorded = s.recorded ∧ passBytes s'.past = []) ∨
      ∃ e s', s.call sha256 engine .resetZkeyAuthentication = (.error e, s') ∧
        s'.recorded = s.recorded ∧ s'.prover = s.prover ∧ passBytes s'.past = passBytes s.past := by
  have hcall : s.call sha256 engine .resetZkeyAuthentication =
      (s.prover.resetZkeyAuthentication.1, ⟨s.prover.resetZkeyAuthentication.2, s.recorded,
        s.past ++ [(.resetZkeyAuthentication, s.prover.resetZkeyAuthentication.1)]⟩) := rfl
  rw [hcall]
  unfold WasmStreamingProver.resetZkeyAuthentication
  split
  · exact .inr ⟨_, _, rfl, rfl, rfl, WasmStreamingProver.passBytes_concat _ _⟩
  · cases s.prover.freshAuthenticator with
    | error e => exact .inr ⟨_, _, rfl, rfl, rfl, WasmStreamingProver.passBytes_concat _ _⟩
    | ok fresh => exact .inl ⟨_, _, rfl, rfl, WasmStreamingProver.passBytes_concat _ _⟩

end Calls

/-! ## A proof -/

variable (sha256) in
/-- A step of a proof: it checks no hash and hands no byte over out of turn. -/
structure Moves (pinned : String) (q : Proof) (s : Shared G B M) (next : Proof × Shared G B M) :
    Prop where
  hashes : next.1.hashes = q.hashes
  index : next.1.checked.index = q.checked.index
  passed : next.1.checked.passed = q.checked.passed
  accounts : next.1.Accounts next.1.stage.read
  quiet : Quiet sha256 pinned s next.2

theorem Moves.checks {pinned : String} {q : Proof} {s : Shared G B M} {next : Proof × Shared G B M}
    (h : Moves sha256 pinned q s next) (hchecks : q.Checks sha256) : next.1.Checks sha256 := by
  refine ⟨?_, ?_, h.accounts⟩
  · rw [h.index, h.passed]
    exact hchecks.index
  · rw [h.passed, h.hashes]
    exact hchecks.passed

section Proofs
variable (sha256) (engine : Engine G A B M) {pinned : String} (hpinned : normalizeHash pinned = .ok pinned)
variable {q : Proof} {read : List UInt8} {s : Shared G B M}
include hpinned

theorem fail_moves (h : q.Accounts read) :
    Moves sha256 pinned q s (q.fail sha256 engine s) := by
  obtain ⟨lost, hbytes, -⟩ := h
  refine ⟨rfl, rfl, rfl, ⟨read ++ (q.pending ++ (q.checked.queue.flatten ++ lost)), hbytes, ?_⟩,
    call_quiet sha256 engine hpinned (show Call.abortProof.isAuthentication = false from rfl) s⟩
  intro hreadable
  simp only [Proof.fail, CheckedResponse.cancel] at hreadable
  split at hreadable <;> cases hreadable

theorem hand_moves {call : Call} {stage : ProofStage} (hcall : call.isAuthentication = false)
    (h : q.Accounts read) (hstage : stage.read = []) :
    Moves sha256 pinned q s (q.hand sha256 engine read call stage s) := by
  obtain ⟨lost, hbytes, hlost⟩ := h
  have hhanded : Proof.Accounts [] { q with handed := q.handed ++ read } := by
    refine ⟨lost, ?_, hlost⟩
    rw [List.nil_append, List.append_assoc]
    exact hbytes
  have hquiet := call_quiet sha256 engine hpinned hcall s
  unfold Proof.hand
  split
  · rename_i reply s' hreply
    rw [hreply] at hquiet
    refine ⟨rfl, rfl, rfl, ?_, hquiet⟩
    rw [hstage]
    exact hhanded
  · rename_i e s' hreply
    rw [hreply] at hquiet
    have hmoves := fail_moves sha256 engine hpinned (s := s') hhanded
    exact ⟨hmoves.hashes, hmoves.index, hmoves.passed, hmoves.accounts, hquiet.trans hmoves.quiet⟩

theorem ended_moves (h : q.Accounts q.stage.read) :
    Moves sha256 pinned q s (q.ended sha256 engine s) := by
  unfold Proof.ended
  split
  · rename_i hstage
    have hquiet : Quiet sha256 pinned s (s.call sha256 engine .finishProof).2 :=
      call_quiet sha256 engine hpinned rfl s
    rw [hstage] at h
    split
    · rename_i json s' hreply
      rw [hreply] at hquiet
      exact ⟨rfl, rfl, rfl, h, hquiet⟩
    · rename_i s' _ hreply
      rw [hreply] at hquiet
      have hmoves := fail_moves sha256 engine hpinned (s := s') h
      exact { hmoves with quiet := hquiet.trans hmoves.quiet }
  · exact fail_moves sha256 engine hpinned h

theorem nextChunk_moves {next : Proof × Shared G B M} (h : q.Accounts q.stage.read)
    (hpending : q.pending = []) (hstep : q.nextChunk sha256 engine s = some next) :
    Moves sha256 pinned q s next := by
  unfold Proof.nextChunk at hstep
  split at hstep
  · rename_i value queue hqueue
    cases hstep
    obtain ⟨lost, hbytes, hlost⟩ := h
    refine ⟨rfl, rfl, rfl, ⟨lost, ?_, hlost⟩, Quiet.refl s⟩
    rw [hpending, hqueue, List.flatten_cons, List.nil_append, List.append_assoc] at hbytes
    exact hbytes
  · split at hstep
    · cases hstep
    · cases hstep
      exact ended_moves sha256 engine hpinned h
    · cases hstep
      exact fail_moves sha256 engine hpinned h

theorem readHeader_moves {next : Proof × Shared G B M} {stage : List UInt8 → ProofStage}
    (hstage : ∀ read, (stage read).read = read) (hread : q.stage = stage read)
    (h : q.Accounts q.stage.read)
    (hstep : q.readHeader sha256 engine stage read s = some next) :
    Moves sha256 pinned q s next := by
  unfold Proof.readHeader at hstep
  split at hstep
  · rename_i hpending
    exact nextChunk_moves sha256 engine hpinned h (List.isEmpty_iff.mp hpending) hstep
  · cases hstep
    obtain ⟨lost, hbytes, hlost⟩ := h
    rw [hread, hstage] at hbytes
    refine ⟨rfl, rfl, rfl, ⟨lost, ?_, hlost⟩, Quiet.refl s⟩
    rw [hstage, List.append_assoc, ← List.append_assoc (List.take _ _), List.take_append_drop]
    exact hbytes

theorem advance_moves {next : Proof × Shared G B M} (h : q.Accounts q.stage.read)
    (hstep : q.advance sha256 engine s = some next) : Moves sha256 pinned q s next := by
  unfold Proof.advance at hstep
  split at hstep
  · rename_i read hread
    split at hstep
    · exact readHeader_moves sha256 engine hpinned (fun _ => rfl) hread h hstep
    · cases hstep
      rw [hread] at h
      exact hand_moves sha256 engine hpinned rfl h rfl
  · rename_i hread
    cases hstep
    rw [hread] at h
    exact ⟨rfl, rfl, rfl, h, Quiet.refl s⟩
  · rename_i left hread
    cases hstep
    rw [hread] at h
    exact ⟨rfl, rfl, rfl, h, Quiet.refl s⟩
  · rename_i left read hread
    split at hstep
    · exact readHeader_moves sha256 engine hpinned (fun _ => rfl) hread h hstep
    · dsimp only at hstep
      split at hstep
      · cases hstep
        exact fail_moves sha256 engine hpinned h
      · cases hstep
        rw [hread] at h
        exact hand_moves sha256 engine hpinned rfl h rfl
  · rename_i left hread
    cases hstep
    rw [hread] at h
    exact hand_moves sha256 engine hpinned rfl h rfl
  · rename_i left remaining hread
    split at hstep
    · rename_i hpending
      exact nextChunk_moves sha256 engine hpinned h (List.isEmpty_iff.mp hpending) hstep
    · cases hstep
      obtain ⟨lost, hbytes, hlost⟩ := h
      rw [hread] at hbytes
      have htaken : Proof.Accounts (q.pending.take (min (remaining + 1) q.pending.length))
          { q with pending := q.pending.drop (min (remaining + 1) q.pending.length) } := by
        refine ⟨lost, ?_, hlost⟩
        rw [← List.append_assoc (List.take _ _), List.take_append_drop]
        exact hbytes
      have hcall : (Call.pushZkeySectionChunk
          (q.pending.take (min (remaining + 1) q.pending.length))).isAuthentication = false := rfl
      have hstage : (ProofStage.section left (remaining + 1 - min (remaining + 1) q.pending.length)).read =
          [] := rfl
      have hmoves := hand_moves sha256 engine hpinned (s := s) hcall htaken hstage
      exact ⟨hmoves.hashes, hmoves.index, hmoves.passed, hmoves.accounts, hmoves.quiet⟩
  · split at hstep
    · rename_i hpending
      exact nextChunk_moves sha256 engine hpinned h (List.isEmpty_iff.mp hpending) hstep
    · cases hstep
      exact fail_moves sha256 engine hpinned h
  · cases hstep
  · cases hstep

end Proofs

theorem pull_checks {q : Proof} {checked : CheckedResponse} (h : q.Checks sha256)
    (hstep : q.checked.pull sha256 q.hashes = some checked) :
    Proof.Checks sha256 { q with checked } := by
  obtain ⟨hindex, hpassed, lost, hbytes, hlost⟩ := h
  unfold CheckedResponse.pull at hstep
  split at hstep
  · rename_i hidle
    obtain ⟨hreadable, hqueue⟩ := hidle
    have herror : Proof.Checks sha256 { q with checked := q.checked.error } := by
      refine ⟨hindex, hpassed, q.checked.queue.flatten ++ lost, hbytes, fun hstate => ?_⟩
      cases hstate
    split at hstep
    · cases hstep
      exact herror
    · split at hstep
      · cases hstep
        exact herror
      · cases hstep
        exact ⟨hindex, hpassed, lost, hbytes, fun hstate => (by cases hstate)⟩
    · rename_i value chunks hnext
      split at hstep
      · cases hstep
        exact herror
      · rename_i hmatch
        cases hstep
        obtain ⟨hlt, hhash⟩ := not_or.mp hmatch
        rw [not_not] at hhash
        refine ⟨?_, ?_, lost, ?_, fun _ => hlost hreadable⟩
        · rw [List.length_append, hindex]
          rfl
        · obtain ⟨rest, hrest⟩ := hpassed
          rw [hindex, ← hrest, List.getElem?_append_right (by rw [List.length_map]),
            List.length_map, Nat.sub_self] at hhash
          obtain ⟨rest, rfl⟩ := List.head?_eq_some_iff.mp (List.head?_eq_getElem?.trans hhash)
          refine ⟨rest, ?_⟩
          rw [List.map_append, List.append_assoc, ← hrest]
          rfl
        · rw [hlost hreadable, List.append_nil] at hbytes ⊢
          rw [hqueue] at hbytes ⊢
          have hgrown : (q.checked.passed ++ [value]).flatten = q.checked.passed.flatten ++ value := by
            rw [List.flatten_append, List.flatten_singleton]
          change _ = (q.checked.passed ++ [value]).flatten
          rw [hgrown, ← hbytes]
          simp only [List.flatten_nil, List.nil_append, List.append_nil, List.flatten_singleton,
            List.append_assoc]
  · cases hstep

/-! ## The page -/

variable (sha256) in
/-- The state of a page on which every step so far was orderly. -/
structure Inv (pinned : String) (w : Page G B M) : Prop where
  follows : Follows sha256 pinned w.shared
  hashes : ∀ (i : Nat) (p : Pass), w.passes[i]? = some p → p.live = true →
    p.hashes = p.fed.map (sha256Hex sha256)
  latest : ∀ (i : Nat) (p : Pass), w.latest = some i → w.passes[i]? = some p → p.live = true →
    w.shared.prover.authenticator ≠ none → passBytes w.shared.past = p.fed.flatten
  recorded : ∀ r, w.shared.recorded = some r → w.Backed sha256 pinned r.hashes
  proofs : ∀ q ∈ w.proofs, w.Backed sha256 pinned q.hashes ∧ q.Checks sha256

section Pages
variable (engine : Engine G A B M) {pinned : String} (hpinned : normalizeHash pinned = .ok pinned)
variable {w w' : Page G B M}

/-- A step that changes the shared state quietly and no pass. -/
theorem Inv.quiet (h : Inv sha256 pinned w) (hshared : Quiet sha256 pinned w.shared w'.shared)
    (hpasses : w'.passes = w.passes) (hlatest : w'.latest = w.latest)
    (hproofs : ∀ q ∈ w'.proofs, w.Backed sha256 pinned q.hashes ∧ q.Checks sha256) :
    Inv sha256 pinned w' := by
  have hbacked : ∀ hashes, w.Backed sha256 pinned hashes → w'.Backed sha256 pinned hashes := by
    intro hashes hbacked
    unfold Page.Backed
    rw [hpasses]
    exact hbacked
  refine ⟨hshared.follows h.follows, ?_, ?_, ?_, fun q hq => ⟨hbacked _ (hproofs q hq).1, (hproofs q hq).2⟩⟩
  · rw [hpasses]
    exact h.hashes
  · rw [hpasses, hlatest, hshared.authenticator, hshared.bytes]
    exact h.latest
  · rw [hshared.recorded]
    exact fun r hr => hbacked _ (h.recorded r hr)

/-- A step of the pass `i`, which is not done before it. -/
theorem backed_set {i : Nat} {p p' : Pass} {hashes : List String} (shared : Shared G B M)
    (hp : w.passes[i]? = some p) (hlive : p.live = true) (h : w.Backed sha256 pinned hashes) :
    Page.Backed sha256 pinned hashes { w with shared, passes := w.passes.set i p' } := by
  obtain ⟨j, q, hq, hdone⟩ := h
  refine ⟨j, q, ?_, hdone⟩
  by_cases hij : i = j
  · subst hij
    obtain ⟨bytes, hbytes⟩ := hdone.done
    cases hp.symm.trans hq
    unfold Pass.live at hlive
    rw [hbytes] at hlive
    cases hlive
  · exact (List.getElem?_set_ne hij).trans hq

theorem getElem?_set_cases {i j : Nat} {p p' q : Pass} {passes : List Pass} (hp : passes[i]? = some p)
    (h : (passes.set i p')[j]? = some q) : j = i ∧ q = p' ∨ j ≠ i ∧ passes[j]? = some q := by
  by_cases hij : i = j
  · subst hij
    rw [List.getElem?_set_self (List.getElem?_eq_some_iff.mp hp).1] at h
    exact .inl ⟨rfl, (Option.some.inj h).symm⟩
  · rw [List.getElem?_set_ne hij] at h
    exact .inr ⟨Ne.symm hij, h⟩

theorem getElem?_concat_cases {i : Nat} {p q : Pass} {passes : List Pass}
    (h : (passes ++ [p])[i]? = some q) : passes[i]? = some q ∨ i = passes.length ∧ q = p := by
  rcases Nat.lt_or_ge i passes.length with hlt | hge
  · rw [List.getElem?_append_left hlt] at h
    exact .inl h
  · rw [List.getElem?_append_right hge] at h
    obtain ⟨hlt, heq⟩ := List.getElem?_eq_some_iff.mp h
    rw [List.length_singleton] at hlt
    rw [List.getElem_singleton] at heq
    exact .inr ⟨by omega, heq.symm⟩

theorem Inv.set {i : Nat} {p p' : Pass} {shared : Shared G B M} (h : Inv sha256 pinned w)
    (hp : w.passes[i]? = some p) (hlive : p.live = true) (hfollows : Follows sha256 pinned shared)
    (hhashes : p'.live = true → p'.hashes = p'.fed.map (sha256Hex sha256))
    (hown : w.latest = some i → p'.live = true → shared.prover.authenticator ≠ none →
      passBytes shared.past = p'.fed.flatten)
    (hother : w.latest ≠ some i → shared.prover.authenticator ≠ none →
      w.shared.prover.authenticator ≠ none ∧ passBytes shared.past = passBytes w.shared.past)
    (hrecorded : ∀ r, shared.recorded = some r →
      Page.Backed sha256 pinned r.hashes { w with shared, passes := w.passes.set i p' }) :
    Inv sha256 pinned { w with shared, passes := w.passes.set i p' } := by
  refine ⟨hfollows, ?_, ?_, hrecorded, ?_⟩
  · intro j q hq hq'
    rcases getElem?_set_cases hp hq with ⟨rfl, rfl⟩ | ⟨-, hq⟩
    · exact hhashes hq'
    · exact h.hashes j q hq hq'
  · intro j q hlatest hq hq' hopen
    rcases getElem?_set_cases hp hq with ⟨rfl, rfl⟩ | ⟨hij, hq⟩
    · exact hown hlatest hq' hopen
    · have hnot : w.latest ≠ some i := fun heq => hij (Option.some.inj (hlatest.symm.trans heq))
      obtain ⟨hopen', hbytes⟩ := hother hnot hopen
      exact hbytes.trans (h.latest j q hlatest hq hq' hopen')
  · intro q hq
    obtain ⟨hbacked, hchecks⟩ := h.proofs q hq
    exact ⟨backed_set shared hp hlive hbacked, hchecks⟩

include hpinned in
theorem Inv.pass {i : Nat} {p p' : Pass} {shared : Shared G B M} (h : Inv sha256 pinned w)
    (hp : w.passes[i]? = some p)
    (horder : p.feeds = true → w.shared.prover.authenticator ≠ none → w.latest = some i)
    (hstep : p.advance sha256 engine w.shared = some (p', shared)) :
    Inv sha256 pinned { w with shared, passes := w.passes.set i p' } := by
  have hkept : ∀ {p' : Pass} {shared : Shared G B M}, p.live = true →
      shared.recorded = w.shared.recorded → ∀ r, shared.recorded = some r →
        Page.Backed sha256 pinned r.hashes { w with shared, passes := w.passes.set i p' } := by
    intro p' shared hlive hsame r hr
    rw [hsame] at hr
    exact backed_set shared hp hlive (h.recorded r hr)
  unfold Pass.advance at hstep
  split at hstep
  · rename_i chunks hstage
    have hlive : p.live = true := by rw [Pass.live, hstage]
    -- The shared state and the chunks that were fed stay.
    have hread : ∀ stage, Inv sha256 pinned
        { w with passes := w.passes.set i { p with stage } } := fun stage =>
      h.set hp hlive h.follows (fun _ => h.hashes i p hp hlive)
        (fun hlatest _ hopen => h.latest i p hlatest hp hlive hopen) (fun _ hopen => ⟨hopen, rfl⟩)
        (hkept hlive rfl)
    split at hstep <;> cases hstep <;> exact hread _
  · rename_i chunk chunks hstage
    have hlive : p.live = true := by rw [Pass.live, hstage]
    have hfeeds : p.feeds = true := by rw [Pass.feeds, hstage]
    have hfollows := call_follows engine hpinned h.follows (.authenticateZkeyChunk chunk)
    rcases feed_cases sha256 engine (s := w.shared) chunk with
      ⟨reply, s', hcall, hsame, hopen, hbytes⟩ | ⟨e, s', hcall, hsame, hbytes, hopen⟩
    · rw [hcall] at hstep hfollows
      cases hstep
      have hlatest := horder hfeeds hopen
      refine h.set hp hlive hfollows (fun _ => ?_) (fun _ _ _ => ?_) (fun hnot => absurd hlatest hnot)
        (hkept hlive hsame)
      · rw [List.map_append, h.hashes i p hp hlive]
        rfl
      · rw [hbytes, h.latest i p hlatest hp hlive hopen, List.flatten_append, List.flatten_singleton]
    · rw [hcall] at hstep hfollows
      cases hstep
      exact h.set hp hlive hfollows (fun hfailed => (by cases hfailed)) (fun _ hfailed => (by cases hfailed))
        (fun _ hopen' => ⟨hopen hopen', hbytes⟩) (hkept hlive hsame)
  · rename_i hstage
    have hlive : p.live = true := by rw [Pass.live, hstage]
    have hfeeds : p.feeds = true := by rw [Pass.feeds, hstage]
    have hfollows := call_follows engine hpinned h.follows .finishZkeyAuthentication
    rcases finish_cases engine h.follows with
      ⟨bytes, s', hcall, hopen, hdigest, hclosed⟩ | ⟨e, s', hcall, hsame, hopen⟩
    · rw [hcall] at hstep hfollows
      cases hstep
      have hlatest := horder hfeeds hopen
      refine h.set hp hlive hfollows (fun hdone => (by cases hdone)) (fun _ hdone => (by cases hdone))
        (fun _ hopen' => absurd hclosed hopen') ?_
      intro r hr
      cases hr
      refine ⟨i, _, List.getElem?_set_self (List.getElem?_eq_some_iff.mp hp).1, ⟨bytes, rfl⟩, ?_, ?_⟩
      · exact h.hashes i p hp hlive
      · rw [h.latest i p hlatest hp hlive hopen] at hdigest
        exact hdigest
    · rw [hcall] at hstep hfollows
      cases hstep
      exact h.set hp hlive hfollows (fun hfailed => (by cases hfailed)) (fun _ hfailed => (by cases hfailed))
        (fun hnot hopen' => absurd (horder hfeeds (hopen hopen')) hnot) (hkept hlive hsame)
  · cases hstep
  · cases hstep

theorem backed_append (shared : Shared G B M) (p : Pass) (latest : Option Nat) {hashes : List String}
    (h : w.Backed sha256 pinned hashes) :
    Page.Backed sha256 pinned hashes { w with shared, passes := w.passes ++ [p], latest } := by
  obtain ⟨i, q, hq, hdone⟩ := h
  refine ⟨i, q, ?_, hdone⟩
  exact (List.getElem?_append_left (List.getElem?_eq_some_iff.mp hq).1).trans hq

include hpinned in
theorem Inv.authenticate {body : Option Body} (h : Inv sha256 pinned w)
    (hstep : w.step sha256 engine (.authenticate body) = some w') : Inv sha256 pinned w' := by
  have hfollows := call_follows engine hpinned h.follows .resetZkeyAuthentication
  simp only [Page.step, authenticateResponse] at hstep
  by_cases hearly : (w.shared.recorded.isSome && w.shared.prover.authenticated) = true
  · rw [if_pos hearly] at hstep
    cases hstep
    exact h
  rw [if_neg hearly] at hstep
  cases body with
  | none =>
    cases hstep
    exact h
  | some body =>
    rcases reset_cases sha256 engine w.shared with
      ⟨reply, s', hcall, hsame, hbytes⟩ | ⟨e, s', hcall, hsame, hprover, hbytes⟩
    · simp only [hcall] at hstep hfollows
      cases hstep
      refine ⟨hfollows, ?_, ?_, ?_, ?_⟩
      · intro i p hp hlive
        rcases getElem?_concat_cases hp with hp | ⟨-, rfl⟩
        · exact h.hashes i p hp hlive
        · rfl
      · intro i p hlatest hp _ _
        rcases getElem?_concat_cases hp with hp | ⟨-, rfl⟩
        · cases hlatest
          exact absurd (List.getElem?_eq_some_iff.mp hp).1 (Nat.lt_irrefl _)
        · exact hbytes
      · intro r hr
        rw [hsame] at hr
        exact backed_append _ _ _ (h.recorded r hr)
      · intro q hq
        exact ⟨backed_append _ _ _ (h.proofs q hq).1, (h.proofs q hq).2⟩
    · simp only [hcall] at hstep hfollows
      cases hstep
      exact h.quiet ⟨hsame, by rw [hprover], hbytes, fun _ => hfollows⟩ rfl rfl h.proofs

include hpinned in
theorem Inv.prove {inputJson : String} {body : Option Body} {oneShot : Bool} (h : Inv sha256 pinned w)
    (hstep : w.step sha256 engine (.prove inputJson body oneShot) = some w') : Inv sha256 pinned w' := by
  have hquiet : Quiet sha256 pinned w.shared (w.shared.call sha256 engine
      (if oneShot then .beginOneShotProof inputJson else .beginProof inputJson)).2 :=
    call_quiet sha256 engine hpinned (by cases oneShot <;> rfl) w.shared
  simp only [Page.step, proveResponse] at hstep
  cases body with
  | none =>
    cases hstep
    exact h
  | some body =>
    cases hhashes : w.shared.authenticatedChunkHashes with
    | none =>
      simp only [hhashes] at hstep
      cases hstep
      exact h
    | some hashes =>
      have hbacked : w.Backed sha256 pinned hashes := by
        unfold Shared.authenticatedChunkHashes at hhashes
        split at hhashes
        · cases hhashes
        · rename_i r hr
          split at hhashes
          · cases hhashes
            exact h.recorded r hr
          · cases hhashes
      simp only [hhashes] at hstep
      split at hstep
      · rename_i shared hcall
        cases hstep
        split at hcall
        · rename_i e s' hreply
          cases hcall
          rw [hreply] at hquiet
          exact h.quiet hquiet rfl rfl h.proofs
        · cases hcall
      · rename_i q shared hcall
        cases hstep
        split at hcall
        · cases hcall
        · rename_i reply s' hreply
          cases hcall
          rw [hreply] at hquiet
          refine h.quiet hquiet rfl rfl fun q hq => ?_
          rcases List.mem_append.mp hq with hq | hq
          · exact h.proofs q hq
          · rw [List.mem_singleton.mp hq]
            exact ⟨hbacked, rfl, List.nil_prefix, [], rfl, fun _ => rfl⟩

include hpinned in
/-- One orderly step. -/
theorem step_inv {a : Action} (h : Inv sha256 pinned w) (horder : Orderly w a)
    (hstep : w.step sha256 engine a = some w') : Inv sha256 pinned w' := by
  cases a with
  | authenticate body => exact h.authenticate engine hpinned hstep
  | prove inputJson body oneShot => exact h.prove engine hpinned hstep
  | pass i =>
    obtain ⟨p, hp, hstep⟩ := Option.bind_eq_some_iff.mp hstep
    obtain ⟨⟨p', shared⟩, hadvance, hstep⟩ := Option.bind_eq_some_iff.mp hstep
    cases hstep
    exact h.pass engine hpinned hp (horder i p rfl hp) hadvance
  | pull i =>
    obtain ⟨q, hq, hstep⟩ := Option.bind_eq_some_iff.mp hstep
    obtain ⟨checked, hpull, hstep⟩ := Option.bind_eq_some_iff.mp hstep
    cases hstep
    obtain ⟨hbacked, hchecks⟩ := h.proofs q (List.mem_of_getElem? hq)
    refine h.quiet (Quiet.refl _) rfl rfl fun q' hq' => ?_
    rcases List.mem_or_eq_of_mem_set hq' with hq' | rfl
    · exact h.proofs q' hq'
    · exact ⟨hbacked, pull_checks hchecks hpull⟩
  | proof i =>
    obtain ⟨q, hq, hstep⟩ := Option.bind_eq_some_iff.mp hstep
    obtain ⟨next, hadvance, hstep⟩ := Option.bind_eq_some_iff.mp hstep
    cases hstep
    obtain ⟨hbacked, hchecks⟩ := h.proofs q (List.mem_of_getElem? hq)
    have hmoves := advance_moves sha256 engine hpinned hchecks.accounts hadvance
    refine h.quiet hmoves.quiet rfl rfl fun q' hq' => ?_
    rcases List.mem_or_eq_of_mem_set hq' with hq' | rfl
    · exact h.proofs q' hq'
    · rw [hmoves.hashes]
      exact ⟨hbacked, hmoves.checks hchecks⟩

include hpinned in
theorem reachable_inv {start : Page G B M} (hstart : Inv sha256 pinned start)
    (h : Page.Reachable sha256 engine Orderly start w) : Inv sha256 pinned w := by
  induction h with
  | start => exact hstart
  | step _ horder hstep ih => exact step_inv engine hpinned ih horder hstep

end Pages

/-! ## The pinned file -/

/-- Two of the byte strings have one digest. -/
def Collide (sha256 : List UInt8 → List UInt8) (strings : List (List UInt8)) : Prop :=
  ∃ x ∈ strings, ∃ y ∈ strings, x ≠ y ∧ sha256 x = sha256 y

/-- What is hashed on the page, and the pinned file. -/
def Page.strings (file : List UInt8) (w : Page G B M) : List (List UInt8) :=
  file :: (w.passes.flatMap fun p => p.fed.flatten :: p.fed) ++ w.proofs.flatMap fun q => q.checked.passed

theorem hexDigest_injective {a b : List UInt8} (h : hexDigest a = hexDigest b) : a = b := by
  have hdigit : ∀ m, m < 16 → ∀ n, n < 16 → Sparrow.hexDigit m = Sparrow.hexDigit n → m = n := by decide
  have hlist := String.ofList_injective h
  clear h
  induction a generalizing b with
  | nil =>
    cases b with
    | nil => rfl
    | cons y b => cases hlist
  | cons x a ih =>
    cases b with
    | nil => cases hlist
    | cons y b =>
      rw [List.flatMap_cons, List.flatMap_cons] at hlist
      obtain ⟨hhigh, hrest⟩ := List.cons.inj hlist
      obtain ⟨hlow, hrest⟩ := List.cons.inj hrest
      have hx := x.toNat_lt
      have hy := y.toNat_lt
      have hhigh' := hdigit _ (by omega) _ (by omega) hhigh
      have hlow' := hdigit _ (by omega) _ (by omega) hlow
      have hbyte : x = y := UInt8.toNat_inj.mp (by omega)
      rw [hbyte, ih hrest]

theorem eq_of_not_collide {strings : List (List UInt8)} (h : ¬ Collide sha256 strings)
    {x y : List UInt8} (hx : x ∈ strings) (hy : y ∈ strings)
    (hhash : sha256Hex sha256 x = sha256Hex sha256 y) : x = y := by
  by_contra hne
  exact h ⟨x, hx, y, hy, hne, hexDigest_injective hhash⟩

theorem prefix_of_hashes {strings : List (List UInt8)} (h : ¬ Collide sha256 strings)
    (passed : List (List UInt8)) : ∀ fed : List (List UInt8), (∀ x ∈ passed, x ∈ strings) →
      (∀ x ∈ fed, x ∈ strings) → passed.map (sha256Hex sha256) <+: fed.map (sha256Hex sha256) →
      passed <+: fed := by
  induction passed with
  | nil => exact fun _ _ _ _ => List.nil_prefix
  | cons x passed ih =>
    intro fed hpassed hfed hhashes
    cases fed with
    | nil => exact absurd hhashes.length_le (by simp)
    | cons y fed =>
      obtain ⟨hx, hpassed⟩ := List.forall_mem_cons.mp hpassed
      obtain ⟨hy, hfed⟩ := List.forall_mem_cons.mp hfed
      obtain ⟨hhash, hhashes⟩ := List.cons_prefix_cons.mp hhashes
      rw [eq_of_not_collide h hx hy hhash]
      exact List.cons_prefix_cons.mpr ⟨rfl, ih fed hpassed hfed hhashes⟩

variable (sha256) in
/-- The hashes of a proof come from one pass over the pinned file, and the framing methods got a
prefix of it. -/
structure Authentic (pinned : String) (w : Page G B M) (q : Proof) : Prop where
  single : w.Backed sha256 pinned q.hashes
  handed : ∀ file, sha256Hex sha256 file = pinned → ¬ Collide sha256 (w.strings file) → q.handed <+: file

theorem Inv.authentic {pinned : String} {w : Page G B M} (h : Inv sha256 pinned w) {q : Proof}
    (hq : q ∈ w.proofs) : Authentic sha256 pinned w q := by
  obtain ⟨hbacked, -, hpassed, lost, hbytes, -⟩ := h.proofs q hq
  refine ⟨hbacked, fun file hfile hcollide => ?_⟩
  obtain ⟨i, p, hp, -, hhashes, hpinned⟩ := hbacked
  have hfed : ∀ x ∈ p.fed.flatten :: p.fed, x ∈ w.strings file := fun x hx =>
    List.mem_append_left _ (List.mem_cons_of_mem _
      (List.mem_flatMap.mpr ⟨p, List.mem_of_getElem? hp, hx⟩))
  have hchecked : ∀ x ∈ q.checked.passed, x ∈ w.strings file := fun x hx =>
    List.mem_append_right _ (List.mem_flatMap.mpr ⟨q, hq, hx⟩)
  have hwhole : p.fed.flatten = file :=
    eq_of_not_collide hcollide (hfed _ List.mem_cons_self) List.mem_cons_self (hpinned.trans hfile.symm)
  rw [hhashes] at hpassed
  obtain ⟨rest, hrest⟩ := prefix_of_hashes hcollide _ _ hchecked
    (fun x hx => hfed x (List.mem_cons_of_mem _ hx)) hpassed
  refine ⟨q.stage.read ++ (q.pending ++ (q.checked.queue.flatten ++ lost)) ++ rest.flatten, ?_⟩
  rw [← List.append_assoc, hbytes, ← List.flatten_append, hrest, hwhole]

/-- A run whose actions keep `P` and are allowed by it. -/
theorem Page.Reachable.run {engine : Engine G A B M} {allowed : Page G B M → Action → Prop}
    {start w w' : Page G B M} (h : Page.Reachable sha256 engine allowed start w)
    {P : Page G B M → Prop} (actions : List Action)
    (hallowed : ∀ a ∈ actions, ∀ w, P w → allowed w a)
    (hkeeps : ∀ a ∈ actions, ∀ w w', P w → w.step sha256 engine a = some w' → P w') (hw : P w)
    (hrun : w.run sha256 engine actions = some w') : Page.Reachable sha256 engine allowed start w' := by
  induction actions generalizing w with
  | nil =>
    cases hrun
    exact h
  | cons a actions ih =>
    obtain ⟨hallow, hallowed⟩ := List.forall_mem_cons.mp hallowed
    obtain ⟨hkeep, hkeeps⟩ := List.forall_mem_cons.mp hkeeps
    obtain ⟨next, hstep, hrun⟩ := Option.bind_eq_some_iff.mp hrun
    exact ih (h.step (hallow w hw) hstep) hallowed hkeeps (hkeep w next hw hstep) hrun

theorem Page.run_cons {engine : Engine G A B M} {a : Action} {actions : List Action}
    {w w' : Page G B M} (h : w.step sha256 engine a = some w') :
    w.run sha256 engine (a :: actions) = w'.run sha256 engine actions := by
  simp only [Page.run, h, Option.bind_eq_bind, Option.bind_some]

theorem Page.run_append {engine : Engine G A B M} {w w' : Page G B M} {before after : List Action}
    (h : w.run sha256 engine before = some w') :
    w.run sha256 engine (before ++ after) = w'.run sha256 engine after := by
  induction before generalizing w with
  | nil =>
    cases h
    rfl
  | cons a before ih =>
    obtain ⟨next, hstep, hrun⟩ := Option.bind_eq_some_iff.mp h
    rw [List.cons_append, Page.run_cons hstep]
    exact ih hrun

/-- Passes that do not overlap on the authenticator keep every proof to the pinned file. -/
theorem orderly_proofs_authentic {engine : Engine G A B M} {graph : Except String G} {expected : String}
    {prover : WasmStreamingProver G B M} (hnew : WasmStreamingProver.new graph expected = .ok prover)
    {w : Page G B M} (h : Page.Reachable sha256 engine Orderly (.new prover) w) :
    ∀ q ∈ w.proofs, Authentic sha256 (toAsciiLowercase expected) w q := by
  obtain ⟨hpinned, hinv⟩ :
      _ ∧ WasmStreamingProver.Inv sha256 (toAsciiLowercase expected) [] prover :=
    WasmStreamingProver.new_inv hnew
  have hstart : Inv sha256 (toAsciiLowercase expected) (Page.new prover) :=
    ⟨hinv.tracks, fun i p hp => (by cases hp), fun i p hlatest => (by cases hlatest),
      fun r hr => (by cases hr), fun q hq => (by cases hq)⟩
  exact fun q hq => (reachable_inv engine hpinned hstart h).authentic hq

/-! ### A value as long as a chunk -/

def zkeyHeader (sections : UInt8) : List UInt8 := [0x7a, 0x6b, 0x65, 0x79, 1, 0, 0, 0, sections, 0, 0, 0]

/-- The header and zeros up to the length of a chunk. -/
def zkeyChunk (sections : UInt8) : List UInt8 :=
  zkeyHeader sections ++ List.replicate (authChunkBytes - 12) 0

theorem zkeyChunk_length (sections : UInt8) : (zkeyChunk sections).length = authChunkBytes := by
  have hheader : (zkeyHeader sections).length = 12 := rfl
  have hroom : 12 ≤ authChunkBytes := by decide
  rw [zkeyChunk, List.length_append, List.length_replicate, hheader, Nat.add_sub_cancel' hroom]

theorem zkeyChunk_take (sections : UInt8) : (zkeyChunk sections).take 12 = zkeyHeader sections :=
  List.take_left' rfl

/-- The generator yields without having read the end of the body. -/
theorem next_whole {value : List UInt8} (h : value.length = authChunkBytes) (fails : Bool) :
    (fixedChunks ⟨[value], fails⟩).next = .chunk value ⟨[], [], fails⟩ := by
  have htake : value.take authChunkBytes = value := List.take_of_length_le h.le
  have hdrop : value.drop authChunkBytes = [] := List.drop_eq_nil_of_le h.le
  have hpos : ¬ 0 = authChunkBytes := by decide
  simp [FixedChunks.next, fixedChunks, fill, h, htake, hdrop, hpos]

theorem update_whole {value : List UInt8} (h : value.length = authChunkBytes) (pinned : String) :
    StreamingAuthenticator.update value ⟨pinned, [], 0⟩ = (.ok (), ⟨pinned, value, authChunkBytes⟩) := by
  have hsmall : ¬ authChunkBytes ≥ 2 ^ 64 := by decide
  simp only [StreamingAuthenticator.update, h, Nat.zero_add, if_neg hsmall, List.nil_append]

/-! ### Two passes that overlap -/

section Overlap
variable {pinned : String} {past : List Event} {passes : List Pass} {latest : Option Nat}

/-- A page on which no pass has finished and no proof has begun. -/
def openPage (a : StreamingAuthenticator) (past : List Event) (passes : List Pass) (latest : Option Nat) :
    Page Unit (Sparrow.StreamingProofBuilder Unit Unit)
      (Sparrow.ManifestProofStream (Sparrow.ZkeyFramer Unit Unit)) :=
  ⟨⟨⟨some (), a.expectedSha256, some a, false, 0, none, none⟩, none, past⟩, passes, [], latest⟩

theorem openPage_authenticate (hpinned : normalizeHash pinned = .ok pinned) (hashed : List UInt8)
    (bytes : Nat) (body : Body) :
    (openPage ⟨pinned, hashed, bytes⟩ past passes latest).step sha256
        WasmStreamingProver.emptyObjectEngine (.authenticate (some body)) =
      some (openPage ⟨pinned, [], 0⟩ (past ++ [(.resetZkeyAuthentication, .ok .done)])
        (passes ++ [⟨.reading (fixedChunks body), [], []⟩]) (some passes.length)) := by
  have hfresh : StreamingAuthenticator.new pinned = .ok ⟨pinned, [], 0⟩ := by
    rw [StreamingAuthenticator.new, hpinned]
  simp [openPage, Page.step, authenticateResponse, Shared.call, WasmStreamingProver.step,
    WasmStreamingProver.resetZkeyAuthentication, WasmStreamingProver.proofActive,
    WasmStreamingProver.freshAuthenticator, hfresh]

theorem openPage_read {a : StreamingAuthenticator} {value : List UInt8} {i : Nat}
    (hvalue : value.length = authChunkBytes)
    (hpass : passes[i]? = some ⟨.reading (fixedChunks ⟨[value], false⟩), [], []⟩) :
    (openPage a past passes latest).step sha256 WasmStreamingProver.emptyObjectEngine (.pass i) =
      some (openPage a past (passes.set i ⟨.hashing value ⟨[], [], false⟩, [], []⟩) latest) := by
  simp [openPage, Page.step, hpass, Pass.advance, next_whole hvalue]

theorem openPage_feed {value : List UInt8} {i : Nat} (hvalue : value.length = authChunkBytes)
    (hpass : passes[i]? = some ⟨.hashing value ⟨[], [], false⟩, [], []⟩) :
    (openPage ⟨pinned, [], 0⟩ past passes latest).step sha256
        WasmStreamingProver.emptyObjectEngine (.pass i) =
      some (openPage ⟨pinned, value, authChunkBytes⟩ (past ++ [(.authenticateZkeyChunk value, .ok .done)])
        (passes.set i ⟨.reading ⟨[], [], false⟩, [sha256Hex sha256 value], [value]⟩) latest) := by
  simp [openPage, Page.step, hpass, Pass.advance, Shared.call, WasmStreamingProver.step,
    WasmStreamingProver.authenticateZkeyChunk, update_whole hvalue]

variable (sha256) in
/-- Both passes have fed their chunk and wait for the end of their body; the first one's comes. -/
theorem overlap_fed {x g : List UInt8} (hx : x.length = authChunkBytes) (hg : g.length = authChunkBytes)
    (hpinned : normalizeHash pinned = .ok pinned) : ∃ past,
    (openPage ⟨pinned, [], 0⟩ [] [] none).run sha256 WasmStreamingProver.emptyObjectEngine
        [.authenticate (some ⟨[x], false⟩), .pass 0, .pass 0, .authenticate (some ⟨[g], false⟩),
          .pass 1, .pass 1, .pass 0] =
      some (openPage ⟨pinned, g, authChunkBytes⟩ past
        [⟨.finishing, [sha256Hex sha256 x], [x]⟩, ⟨.reading ⟨[], [], false⟩, [sha256Hex sha256 g], [g]⟩]
        (some 1)) := by
  rw [Page.run_cons (openPage_authenticate hpinned _ _ _), Page.run_cons (openPage_read hx rfl),
    Page.run_cons (openPage_feed hx rfl), Page.run_cons (openPage_authenticate hpinned _ _ _),
    Page.run_cons (openPage_read hg rfl), Page.run_cons (openPage_feed hg rfl)]
  exact ⟨_, rfl⟩

/-- A framing call counts as handed whether it accepts the bytes or not. -/
theorem hand_handed {engine : Engine G A B M} (bytes : List UInt8) (call : Call) (stage : ProofStage)
    (q : Proof) (s : Shared G B M) :
    (q.hand sha256 engine bytes call stage s).1.handed = q.handed ++ bytes ∧
      (q.hand sha256 engine bytes call stage s).1.checked.passed = q.checked.passed := by
  unfold Proof.hand
  split
  · exact ⟨rfl, rfl⟩
  · exact ⟨rfl, rfl⟩

/-- The first pass finishes on what the second fed, and its own hashes are recorded. -/
theorem overlap_finished {x g : List UInt8} (hgood : sha256Hex sha256 g = pinned) (second : Pass) :
    (openPage ⟨pinned, g, authChunkBytes⟩ past [⟨.finishing, [sha256Hex sha256 x], [x]⟩, second]
        latest).step sha256 WasmStreamingProver.emptyObjectEngine (.pass 0) =
      some ⟨⟨⟨some (), pinned, none, true, authChunkBytes, none, none⟩,
          some ⟨[sha256Hex sha256 x], authChunkBytes⟩,
          past ++ [(.finishZkeyAuthentication, .ok (.count authChunkBytes))]⟩,
        [⟨.done authChunkBytes, [sha256Hex sha256 x], [x]⟩, second], [], latest⟩ := by
  have hdigest : hexDigest (sha256 g) = pinned := hgood
  simp [openPage, Page.step, Pass.advance, Shared.call, WasmStreamingProver.step,
    WasmStreamingProver.finishZkeyAuthentication, StreamingAuthenticator.finish, hdigest]

/-- From there a proof over the first body gets its header to the framing methods. -/
theorem overlap_proved (past : List Event) (latest : Option Nat) {x g : List UInt8}
    (hx : x.length = authChunkBytes) (hgood : sha256Hex sha256 g = pinned) : ∃ w q,
    (openPage ⟨pinned, g, authChunkBytes⟩ past
        [⟨.finishing, [sha256Hex sha256 x], [x]⟩, ⟨.reading ⟨[], [], false⟩, [sha256Hex sha256 g], [g]⟩]
        latest).run sha256 WasmStreamingProver.emptyObjectEngine
        [.pass 0, .prove "\x7b\x7d" (some ⟨[x], false⟩) false, .pull 0, .proof 0, .proof 0, .proof 0] =
          some w ∧
      w.proofs = [q] ∧ q.handed = x.take 12 ∧ w.strings g = [g, x, x, g, g, x] := by
  have hsome : x ≠ [] := by
    rintro rfl
    cases hx
  have hmin : min 12 authChunkBytes = 12 := by decide
  rw [Page.run_cons (overlap_finished hgood _), Page.run_cons rfl]
  simp [Page.run, Page.step, CheckedResponse.pull, next_whole hx, Proof.advance, Proof.readHeader,
    Proof.nextChunk, hsome, hx, hmin, hand_handed, Page.strings]

end Overlap

/-! ### A file of one header -/

/-- The digest of the header of ten sections. -/
def tenSectionsDigest : List UInt8 :=
  [104, 11, 191, 119, 235, 124, 42, 182, 229, 254, 9, 153, 17, 180, 156, 232,
    227, 145, 138, 96, 209, 205, 54, 175, 45, 128, 53, 138, 60, 216, 89, 209]

/-- SHA-256 on the header of ten sections, the only input it is computed on here. -/
def headerSha256 (bytes : List UInt8) : List UInt8 :=
  if bytes = zkeyHeader 10 then tenSectionsDigest else List.replicate 32 0

/-- The page of a prover pinned to the header of ten sections, after `actions`. -/
def headerPage (actions : List Action) :
    Option (Page Unit (Sparrow.StreamingProofBuilder Unit Unit)
      (Sparrow.ManifestProofStream (Sparrow.ZkeyFramer Unit Unit))) := do
  let prover ← (WasmStreamingProver.new (.ok ()) (hexDigest tenSectionsDigest)).toOption
  (Page.new prover).run headerSha256 WasmStreamingProver.emptyObjectEngine actions

theorem headerPage_some {actions : List Action}
    {w : Page Unit (Sparrow.StreamingProofBuilder Unit Unit)
      (Sparrow.ManifestProofStream (Sparrow.ZkeyFramer Unit Unit))}
    (h : headerPage actions = some w) :
    ∃ prover, WasmStreamingProver.new (.ok ()) (hexDigest tenSectionsDigest) = .ok prover ∧
      (Page.new prover).run headerSha256 WasmStreamingProver.emptyObjectEngine actions = some w := by
  unfold headerPage at h
  obtain ⟨prover, hprover, hrun⟩ := Option.bind_eq_some_iff.mp h
  refine ⟨prover, ?_, hrun⟩
  cases hnew : WasmStreamingProver.new (.ok ()) (hexDigest tenSectionsDigest) with
  | error e =>
    rw [hnew] at hprover
    cases hprover
  | ok prover' =>
    rw [hnew] at hprover
    cases hprover
    rfl

/-- The digests of the chunks with ten and with nine sections in the header. -/
def tenSectionsChunkDigest : List UInt8 :=
  [233, 187, 154, 142, 209, 176, 72, 172, 190, 44, 104, 44, 165, 19, 75, 29,
    28, 228, 8, 111, 79, 132, 165, 41, 6, 161, 123, 247, 86, 101, 152, 39]

def nineSectionsChunkDigest : List UInt8 :=
  [79, 31, 85, 247, 240, 49, 52, 135, 17, 175, 247, 183, 90, 164, 133, 214,
    201, 234, 149, 181, 199, 76, 62, 2, 173, 183, 39, 55, 244, 72, 236, 11]

/-- SHA-256 on the two chunks, the only inputs it is computed on here. -/
def chunkSha256 (bytes : List UInt8) : List UInt8 :=
  if bytes = zkeyChunk 10 then tenSectionsChunkDigest
  else if bytes = zkeyChunk 9 then nineSectionsChunkDigest
  else List.replicate 32 0

theorem zkeyChunk_ne : zkeyChunk 9 ≠ zkeyChunk 10 := by
  intro h
  have htake := congrArg (List.take 12) h
  rw [zkeyChunk_take, zkeyChunk_take] at htake
  revert htake
  decide

/-- The first pass has fed the other chunk and waits for the end of its body when the second
resets; the second feeds the pinned chunk, and the first finishes on it. -/
def overlappingPasses : List Action :=
  [.authenticate (some ⟨[zkeyChunk 9], false⟩), .pass 0, .pass 0,
    .authenticate (some ⟨[zkeyChunk 10], false⟩), .pass 1, .pass 1, .pass 0, .pass 0,
    .prove "\x7b\x7d" (some ⟨[zkeyChunk 9], false⟩) false, .pull 0, .proof 0, .proof 0, .proof 0]

theorem overlapping_passes_hand_over_another_file :
    ∃ (prover : WasmStreamingProver Unit _ _) (w : Page Unit _ _) (q : Proof),
      WasmStreamingProver.new (.ok ()) (hexDigest tenSectionsChunkDigest) = .ok prover ∧
      (Page.new prover).run chunkSha256 WasmStreamingProver.emptyObjectEngine overlappingPasses = some w ∧
      Page.Reachable chunkSha256 WasmStreamingProver.emptyObjectEngine (fun _ _ => True) (.new prover) w ∧
      q ∈ w.proofs ∧
      sha256Hex chunkSha256 (zkeyChunk 10) = toAsciiLowercase (hexDigest tenSectionsChunkDigest) ∧
      ¬ Collide chunkSha256 (w.strings (zkeyChunk 10)) ∧ ¬ q.handed <+: zkeyChunk 10 := by
  have hpinned : normalizeHash (hexDigest tenSectionsChunkDigest) = .ok (hexDigest tenSectionsChunkDigest) :=
    ZkeyChunkManifest.normalizeHash_hexDigest rfl
  have hlower : toAsciiLowercase (hexDigest tenSectionsChunkDigest) = hexDigest tenSectionsChunkDigest := by
    decide
  have hten : chunkSha256 (zkeyChunk 10) = tenSectionsChunkDigest := if_pos rfl
  have hnine : chunkSha256 (zkeyChunk 9) = nineSectionsChunkDigest := by
    rw [chunkSha256, if_neg zkeyChunk_ne, if_pos rfl]
  have hgood : sha256Hex chunkSha256 (zkeyChunk 10) = hexDigest tenSectionsChunkDigest := by
    rw [sha256Hex, hten]
  obtain ⟨past, hfed⟩ :=
    overlap_fed chunkSha256 (zkeyChunk_length 9) (zkeyChunk_length 10) hpinned
  obtain ⟨w, q, hproved, hproofs, hhanded, hstrings⟩ :=
    overlap_proved past (some 1) (zkeyChunk_length 9) hgood
  have hrun : (openPage ⟨hexDigest tenSectionsChunkDigest, [], 0⟩ [] [] none).run chunkSha256
      WasmStreamingProver.emptyObjectEngine overlappingPasses = some w :=
    (Page.run_append hfed).trans hproved
  refine ⟨_, w, q, ?_, hrun, ?_, ?_, hgood.trans hlower.symm, ?_, ?_⟩
  · rw [WasmStreamingProver.new, StreamingAuthenticator.new, hpinned, hlower]
    rfl
  · exact Page.Reachable.start.run (P := fun _ => True) overlappingPasses (fun _ _ _ _ => trivial)
      (fun _ _ _ _ _ _ => trivial) trivial hrun
  · rw [hproofs]
    exact List.mem_singleton_self q
  · have htwo : ∀ s ∈ w.strings (zkeyChunk 10), s = zkeyChunk 10 ∨ s = zkeyChunk 9 := by
      rw [hstrings]
      simp
    have hne : tenSectionsChunkDigest ≠ nineSectionsChunkDigest := by decide
    rintro ⟨a, ha, b, hb, hdiffer, hsame⟩
    rcases htwo a ha with rfl | rfl <;> rcases htwo b hb with rfl | rfl
    · exact hdiffer rfl
    · exact hne (hten.symm.trans (hsame.trans hnine))
    · exact hne (hten.symm.trans (hsame.symm.trans hnine))
    · exact hdiffer rfl
  · intro hprefix
    have htake : q.handed = (zkeyChunk 10).take 12 := by
      rw [List.prefix_iff_eq_take.mp hprefix, hhanded, List.length_take, zkeyChunk_length]
      rfl
    rw [hhanded, zkeyChunk_take, zkeyChunk_take] at htake
    revert htake
    decide

/-- One authentication, one proof behind it. -/
def onePass : List Action :=
  [.pass 0, .pass 0, .pass 0, .pass 0, .prove "\x7b\x7d" (some ⟨[zkeyHeader 10], false⟩) false,
    .pull 0, .proof 0, .proof 0, .proof 0]

/-- At most one pass has begun. -/
def OnePass (w : Page G B M) : Prop := w.passes = [] ∨ w.latest = some 0

theorem onePass_authenticate {engine : Engine G A B M} {prover : WasmStreamingProver G B M}
    {body : Option Body} {w : Page G B M}
    (h : (Page.new prover).step sha256 engine (.authenticate body) = some w) : OnePass w := by
  simp only [Page.step] at h
  split at h
  · cases h
    exact .inl rfl
  · cases h
    exact .inr rfl

theorem onePass_keeps {engine : Engine G A B M} {a : Action} (ha : a ∈ onePass) {w w' : Page G B M}
    (h : OnePass w) (hstep : w.step sha256 engine a = some w') : OnePass w' := by
  have hsame : w'.latest = w.latest ∧ (w.passes = [] → w'.passes = []) := by
    cases a with
    | authenticate body => simp [onePass] at ha
    | prove inputJson body oneShot =>
      simp only [Page.step] at hstep
      split at hstep <;> cases hstep <;> exact ⟨rfl, id⟩
    | pass i =>
      obtain ⟨p, hp, hstep⟩ := Option.bind_eq_some_iff.mp hstep
      obtain ⟨next, -, hstep⟩ := Option.bind_eq_some_iff.mp hstep
      cases hstep
      refine ⟨rfl, fun hnil => ?_⟩
      rw [hnil] at hp
      cases hp
    | pull i =>
      obtain ⟨q, -, hstep⟩ := Option.bind_eq_some_iff.mp hstep
      obtain ⟨checked, -, hstep⟩ := Option.bind_eq_some_iff.mp hstep
      cases hstep
      exact ⟨rfl, id⟩
    | proof i =>
      obtain ⟨q, -, hstep⟩ := Option.bind_eq_some_iff.mp hstep
      obtain ⟨next, -, hstep⟩ := Option.bind_eq_some_iff.mp hstep
      cases hstep
      exact ⟨rfl, id⟩
  rcases h with hnil | hlatest
  · exact .inl (hsame.2 hnil)
  · exact .inr (hsame.1.trans hlatest)

theorem onePass_orderly {a : Action} (ha : a ∈ onePass) {w : Page G B M} (h : OnePass w) :
    Orderly w a := by
  intro i p hpass hp _ _
  subst hpass
  have hi : i = 0 := by simpa [onePass] using ha
  rcases h with hnil | hlatest
  · rw [hnil] at hp
    cases hp
  · rw [hi]
    exact hlatest

theorem orderly_proofs_authentic_example :
    ∃ (prover : WasmStreamingProver Unit _ _) (w : Page Unit _ _) (q : Proof),
      WasmStreamingProver.new (.ok ()) (hexDigest tenSectionsDigest) = .ok prover ∧
      Page.Reachable headerSha256 WasmStreamingProver.emptyObjectEngine Orderly (.new prover) w ∧
      q ∈ w.proofs ∧ q.handed = zkeyHeader 10 ∧
      Authentic headerSha256 (toAsciiLowercase (hexDigest tenSectionsDigest)) w q := by
  have hend : (headerPage (.authenticate (some ⟨[zkeyHeader 10], false⟩) :: onePass)).map
      (fun w => w.proofs.map Proof.handed) = some [zkeyHeader 10] := by
    decide
  obtain ⟨w, hw, hhanded⟩ := Option.map_eq_some_iff.mp hend
  obtain ⟨prover, hnew, hrun⟩ := headerPage_some hw
  obtain ⟨q, rest, hproofs, hq, -⟩ := List.map_eq_cons_iff.mp hhanded
  obtain ⟨next, hstep, hrun⟩ := Option.bind_eq_some_iff.mp hrun
  have hfirst : Orderly (.new prover) (.authenticate (some ⟨[zkeyHeader 10], false⟩)) :=
    fun i p hpass => (by cases hpass)
  have hnext : Page.Reachable headerSha256 WasmStreamingProver.emptyObjectEngine Orderly
      (.new prover) next := .step .start hfirst hstep
  have hreachable : Page.Reachable headerSha256 WasmStreamingProver.emptyObjectEngine Orderly
      (.new prover) w :=
    hnext.run (P := OnePass) onePass (fun _ ha _ h => onePass_orderly ha h)
      (fun _ ha _ _ h hstep => onePass_keeps ha h hstep) (onePass_authenticate hstep) hrun
  have hmem : q ∈ w.proofs := by
    rw [hproofs]
    exact List.mem_cons_self
  exact ⟨prover, w, q, hnew, hreachable, hmem, hq, orderly_proofs_authentic hnew hreachable q hmem⟩

end Curvy.Prover.CacheApi
