import Curvy.Prover.ChunkManifestExact
import Curvy.Prover.WasmStreamingProver

/-!
# Runs of the browser prover

What one call can do to the authentication, to the two proofs and to the graph, and from it
the invariant that ties the state to the calls made so far.
-/

namespace Curvy.Prover.WasmStreamingProver

set_option autoImplicit false

open Sparrow (hexDigest)

variable {G A B M : Type} (sha256 : List UInt8 → List UInt8) (engine : Engine G A B M)

/-! ## What a run says -/

def Call.isFramedBegin : Call → Bool
  | .beginProof _ | .beginOneShotProof _ => true
  | _ => false

def Call.isOneShot : Call → Bool
  | .beginOneShotProof _ | .beginOneShotManifestProof _ _ _ => true
  | _ => false

def Call.isBegin (call : Call) : Bool := call.isFramedBegin || call.isOneShot

def Call.isAuthentication : Call → Bool
  | .authenticateZkeyChunk _ | .finishZkeyAuthentication | .resetZkeyAuthentication => true
  | _ => false

/-- The call returned without an error. -/
def Succeeded (e : Event) : Prop := ∃ reply, e.2 = .ok reply

def OneShotSucceeded (e : Event) : Prop := e.1.isOneShot = true ∧ Succeeded e

def BeginSucceeded (e : Event) : Prop := e.1.isBegin = true ∧ Succeeded e

def ResetSucceeded (e : Event) : Prop := e.1 = .resetZkeyAuthentication ∧ Succeeded e

def FinishSucceeded (e : Event) : Prop := e.1 = .finishZkeyAuthentication ∧ Succeeded e

/-- The bytes of the authentication pass: a reset and a failed finish start it again. -/
def passStep (bytes : List UInt8) : Event → List UInt8
  | (.authenticateZkeyChunk chunk, .ok _) => bytes ++ chunk
  | (.finishZkeyAuthentication, .error _) => []
  | (.resetZkeyAuthentication, .ok _) => []
  | _ => bytes

def passBytes (past : List Event) : List UInt8 := past.foldl passStep []

/-- A finish succeeded after the last reset, over bytes with the pinned digest. -/
def Authenticated (pinned : String) (past : List Event) : Prop :=
  ∃ before finish after, past = before ++ finish :: after ∧ FinishSucceeded finish ∧
    (∀ e ∈ after, ¬ ResetSucceeded e) ∧ hexDigest (sha256 (passBytes before)) = pinned

theorem passBytes_concat (past : List Event) (e : Event) :
    passBytes (past ++ [e]) = passStep (passBytes past) e := by
  rw [passBytes, List.foldl_append]
  rfl

theorem authenticated_concat (pinned : String) (past : List Event) (e : Event) :
    Authenticated sha256 pinned (past ++ [e]) ↔
      FinishSucceeded e ∧ hexDigest (sha256 (passBytes past)) = pinned ∨
        ¬ ResetSucceeded e ∧ Authenticated sha256 pinned past := by
  constructor
  · intro ⟨before, finish, after, hsplit, hfinish, hquiet, hdigest⟩
    rcases List.eq_nil_or_concat after with rfl | ⟨after, last, rfl⟩
    · obtain ⟨rfl, heq⟩ := List.append_inj' hsplit rfl
      cases heq
      exact .inl ⟨hfinish, hdigest⟩
    · rw [List.concat_eq_append] at hsplit hquiet
      have hsplit' : past ++ [e] = (before ++ finish :: after) ++ [last] := by
        rw [hsplit, List.append_assoc, List.cons_append]
      obtain ⟨rfl, heq⟩ := List.append_inj' hsplit' rfl
      cases heq
      exact .inr ⟨hquiet e (by simp), before, finish, after, rfl, hfinish,
        fun f hf => hquiet f (List.mem_append_left _ hf), hdigest⟩
  · intro h
    rcases h with ⟨hfinish, hdigest⟩ | ⟨hreset, before, finish, after, rfl, hfinish, hquiet, hdigest⟩
    · exact ⟨past, e, [], rfl, hfinish, fun f hf => (by cases hf), hdigest⟩
    · refine ⟨before, finish, after ++ [e], by simp, hfinish, ?_, hdigest⟩
      intro f hf
      rcases List.mem_append.mp hf with hf | hf
      · exact hquiet f hf
      · rw [List.mem_singleton.mp hf]
        exact hreset

/-! ## What a call can do -/

/-- The authentication, as one value. -/
def authentication (s : WasmStreamingProver G B M) : Option StreamingAuthenticator × Bool × Nat :=
  (s.authenticator, s.authenticated, s.authenticatedBytes)

/-- A begin that succeeded. -/
structure Began (call : Call) (s s' : WasmStreamingProver G B M) : Prop where
  idle : s.proof = none ∧ s.manifestProof = none
  graph : s.prover ≠ none
  authenticated : call.isFramedBegin = true → s.authenticated = true
  prover : s'.prover = if call.isOneShot then none else s.prover
  expected : s'.expectedZkeySha256 = s.expectedZkeySha256
  authentication : s'.authentication = s.authentication
  proofs : s'.manifestProof = none ∧ call.isFramedBegin = true ∨ s'.proof = none

theorem checkCanBegin_ok {requiresAuthentication : Bool} {s : WasmStreamingProver G B M}
    (h : s.checkCanBegin requiresAuthentication = .ok ()) :
    (s.proof = none ∧ s.manifestProof = none) ∧ s.prover ≠ none ∧
      (requiresAuthentication = true → s.authenticated = true) := by
  unfold checkCanBegin at h
  split at h
  · cases h
  · rename_i hidle
    split at h
    · cases h
    · rename_i hgraph
      split at h
      · cases h
      · rename_i hauth
        refine ⟨?_, fun hnone => hgraph (by rw [hnone]; rfl), ?_⟩
        · cases hproof : s.proof <;> cases hmanifest : s.manifestProof <;>
            simp_all [proofActive]
        · intro hrequires
          cases hauthenticated : s.authenticated
          · rw [hrequires, hauthenticated] at hauth
            exact absurd rfl hauth
          · rfl

theorem buildThenRelease_some {T U : Type} (value : T) (build : T → Except String U) :
    (∃ built, buildThenRelease (some value) build = (some (.ok built), none)) ∨
      ∃ e, buildThenRelease (some value) build = (some (.error e), some value) := by
  unfold buildThenRelease
  cases hbuild : build value with
  | error e => exact .inr ⟨e, by simp [hbuild]⟩
  | ok built => exact .inl ⟨built, by simp [hbuild]⟩

/-- A begin that fails changes nothing at all. -/
theorem begin_cases {call : Call} (hbegin : call.isBegin = true) (s : WasmStreamingProver G B M) :
    (∃ e, step sha256 engine call s = (.error e, s)) ∨
      ∃ reply s', step sha256 engine call s = (.ok reply, s') ∧ Began call s s' := by
  cases call with
  | beginProof inputJson =>
    simp only [step, beginProof]
    cases hcheck : s.checkCanBegin true with
    | error e => exact .inl ⟨e, rfl⟩
    | ok u =>
      obtain ⟨hidle, hgraph, hauth⟩ := checkCanBegin_ok hcheck
      obtain ⟨prover, hprover⟩ := Option.ne_none_iff_exists'.mp hgraph
      simp only [hprover]
      cases engine.calculateWitnessJson prover inputJson with
      | error e => exact .inl ⟨e, rfl⟩
      | ok assignment =>
        simp only
        cases s.newFramedProof engine assignment with
        | error e => exact .inl ⟨e, rfl⟩
        | ok proof =>
          exact .inr ⟨_, _, rfl, hidle, hgraph, fun _ => hauth rfl, hprover.symm, rfl, rfl,
            .inl ⟨hidle.2, rfl⟩⟩
  | beginOneShotProof inputJson =>
    simp only [step, beginOneShotProof]
    cases hcheck : s.checkCanBegin true with
    | error e => exact .inl ⟨e, rfl⟩
    | ok u =>
      obtain ⟨hidle, hgraph, hauth⟩ := checkCanBegin_ok hcheck
      obtain ⟨prover, hprover⟩ := Option.ne_none_iff_exists'.mp hgraph
      simp only [hprover]
      rcases buildThenRelease_some prover fun prover => do
        let assignment ← engine.calculateWitnessJson prover inputJson
        s.newFramedProof engine assignment with ⟨built, hbuild⟩ | ⟨e, hbuild⟩
      · rw [hbuild]
        exact .inr ⟨_, _, rfl, hidle, hgraph, fun _ => hauth rfl, rfl, rfl, rfl, .inl ⟨hidle.2, rfl⟩⟩
      · rw [hbuild, ← hprover]
        exact .inl ⟨e, rfl⟩
  | beginOneShotManifestProof inputJson manifestBytes expectedManifestSha256 =>
    simp only [step, beginOneShotManifestProof]
    cases hcheck : s.checkCanBegin false with
    | error e => exact .inl ⟨e, rfl⟩
    | ok u =>
      obtain ⟨hidle, hgraph, -⟩ := checkCanBegin_ok hcheck
      obtain ⟨prover, hprover⟩ := Option.ne_none_iff_exists'.mp hgraph
      cases ZkeyChunkManifest.fromBytes sha256 manifestBytes expectedManifestSha256 s.expectedZkeySha256 with
      | error e => exact .inl ⟨_, rfl⟩
      | ok manifest =>
        simp only [hprover]
        rcases buildThenRelease_some prover fun prover => do
          let assignment ← engine.calculateWitnessJson prover inputJson
          engine.newManifestProof assignment manifest with ⟨built, hbuild⟩ | ⟨e, hbuild⟩
        · rw [hbuild]
          exact .inr ⟨_, _, rfl, hidle, hgraph, fun hframed => (by cases hframed), rfl, rfl, rfl,
            .inr hidle.1⟩
        · rw [hbuild, ← hprover]
          exact .inl ⟨e, rfl⟩
  | _ => cases hbegin

/-- A call that starts nothing: the graph stays and no proof becomes active. -/
structure Leaves (s s' : WasmStreamingProver G B M) : Prop where
  prover : s'.prover = s.prover
  expected : s'.expectedZkeySha256 = s.expectedZkeySha256
  proof : s.proof = none → s'.proof = none
  manifestProof : s.manifestProof = none → s'.manifestProof = none

theorem onProof_cases (call : B → Except String Unit × B) (s : WasmStreamingProver G B M) :
    Leaves s (s.onProof call).2 ∧ (s.onProof call).2.authentication = s.authentication := by
  unfold onProof
  split
  · exact ⟨⟨rfl, rfl, id, id⟩, rfl⟩
  · rename_i proof hproof
    exact ⟨⟨rfl, rfl, fun hnone => absurd (hproof.symm.trans hnone) (Option.some_ne_none proof), id⟩, rfl⟩

theorem other_cases {call : Call} (hbegin : call.isBegin = false)
    (hauthentication : call.isAuthentication = false) (s : WasmStreamingProver G B M) :
    Leaves s (step sha256 engine call s).2 ∧
      (step sha256 engine call s).2.authentication = s.authentication := by
  cases call with
  | authenticateZkeyChunk bytes => cases hauthentication
  | finishZkeyAuthentication => cases hauthentication
  | resetZkeyAuthentication => cases hauthentication
  | beginProof inputJson => cases hbegin
  | beginOneShotProof inputJson => cases hbegin
  | beginOneShotManifestProof inputJson manifestBytes expectedManifestSha256 => cases hbegin
  | abortProof => exact ⟨⟨rfl, rfl, fun _ => rfl, fun _ => rfl⟩, rfl⟩
  | pushManifestZkeyChunk bytes =>
    simp only [step, pushManifestZkeyChunk]
    split
    · exact ⟨⟨rfl, rfl, id, id⟩, rfl⟩
    · rename_i proof hproof
      exact ⟨⟨rfl, rfl, id, fun hnone => absurd (hproof.symm.trans hnone) (Option.some_ne_none proof)⟩, rfl⟩
  | finishManifestProof =>
    simp only [step, finishManifestProof]
    split
    · exact ⟨⟨rfl, rfl, id, id⟩, rfl⟩
    · exact ⟨⟨rfl, rfl, id, fun _ => rfl⟩, rfl⟩
  | beginZkey header => exact onProof_cases _ s
  | beginZkeySection header => exact onProof_cases _ s
  | pushZkeySectionChunk bytes => exact onProof_cases _ s
  | endZkeySection => exact onProof_cases _ s
  | finishProof =>
    simp only [step, finishProof]
    split
    · exact ⟨⟨rfl, rfl, id, id⟩, rfl⟩
    · exact ⟨⟨rfl, rfl, fun _ => rfl, id⟩, rfl⟩
  | compiledSageProgram =>
    simp only [step, compiledSageProgram]
    split
    · exact ⟨⟨rfl, rfl, id, id⟩, rfl⟩
    · exact ⟨⟨rfl, rfl, id, id⟩, rfl⟩

/-! ## The authentication pass -/

/-- The authentication against the calls so far: an open pass has hashed the bytes of the pass,
a closed one has been found to have the pinned digest. -/
structure Tracks (pinned : String) (past : List Event) (s : WasmStreamingProver G B M) : Prop where
  expected : s.expectedZkeySha256 = pinned
  open_pass : ∀ a, s.authenticator = some a →
    a = ⟨pinned, passBytes past, (passBytes past).length⟩ ∧ s.authenticated = false
  closed_pass : s.authenticator = none → s.authenticated = true
  authenticated : s.authenticated = true ↔ Authenticated sha256 pinned past

theorem freshAuthenticator_ok {pinned : String} (hpinned : normalizeHash pinned = .ok pinned)
    {s : WasmStreamingProver G B M} (h : s.expectedZkeySha256 = pinned) :
    s.freshAuthenticator = .ok ⟨pinned, [], 0⟩ := by
  unfold freshAuthenticator StreamingAuthenticator.new
  rw [h, hpinned]

variable {sha256}

/-- An event that is neither a finish nor a reset keeps the verdict. -/
theorem authenticated_other {pinned : String} {past : List Event} {e : Event}
    (hfinish : ¬ FinishSucceeded e) (hreset : ¬ ResetSucceeded e) :
    Authenticated sha256 pinned (past ++ [e]) ↔ Authenticated sha256 pinned past := by
  rw [authenticated_concat]
  constructor
  · intro h
    rcases h with ⟨h, -⟩ | ⟨-, h⟩
    · exact absurd h hfinish
    · exact h
  · exact fun h => .inr ⟨hreset, h⟩

theorem tracks_of_same {pinned : String} {past : List Event} {e : Event}
    {s s' : WasmStreamingProver G B M} (h : Tracks sha256 pinned past s)
    (hauthentication : s'.authentication = s.authentication)
    (hexpected : s'.expectedZkeySha256 = s.expectedZkeySha256)
    (hbytes : passStep (passBytes past) e = passBytes past)
    (hfinish : ¬ FinishSucceeded e) (hreset : ¬ ResetSucceeded e) :
    Tracks sha256 pinned (past ++ [e]) s' := by
  obtain ⟨hauthenticator, hrest⟩ := Prod.mk.inj hauthentication
  obtain ⟨hauthenticated, -⟩ := Prod.mk.inj hrest
  refine ⟨hexpected.trans h.expected, ?_, ?_, ?_⟩
  · rw [hauthenticator, hauthenticated, passBytes_concat, hbytes]
    exact h.open_pass
  · rw [hauthenticator, hauthenticated]
    exact h.closed_pass
  · rw [hauthenticated, authenticated_other hfinish hreset]
    exact h.authenticated

theorem tracks_authenticate {pinned : String} {past : List Event} {s : WasmStreamingProver G B M}
    (h : Tracks sha256 pinned past s) (bytes : List UInt8) :
    Tracks sha256 pinned (past ++ [(.authenticateZkeyChunk bytes, (s.authenticateZkeyChunk bytes).1)])
      (s.authenticateZkeyChunk bytes).2 := by
  have hfinish : ∀ reply, ¬ FinishSucceeded (.authenticateZkeyChunk bytes, reply) :=
    fun _ hfinish => (by cases hfinish.1)
  have hreset : ∀ reply, ¬ ResetSucceeded (.authenticateZkeyChunk bytes, reply) :=
    fun _ hreset => (by cases hreset.1)
  unfold authenticateZkeyChunk
  cases hopen : s.authenticator with
  | none => exact tracks_of_same h rfl rfl rfl (hfinish _) (hreset _)
  | some a =>
    obtain ⟨rfl, hunauthenticated⟩ := h.open_pass a hopen
    simp only [StreamingAuthenticator.update]
    by_cases hlong : (passBytes past).length + bytes.length ≥ 2 ^ 64
    · rw [if_pos hlong]
      refine tracks_of_same h ?_ rfl rfl (hfinish _) (hreset _)
      rw [authentication, authentication, hopen]
    · rw [if_neg hlong]
      refine ⟨h.expected, ?_, fun hnone => (by cases hnone), ?_⟩
      · intro a ha
        cases ha
        rw [passBytes_concat]
        refine ⟨?_, hunauthenticated⟩
        change _ = StreamingAuthenticator.mk pinned (passBytes past ++ bytes) (passBytes past ++ bytes).length
        rw [List.length_append]
      · rw [authenticated_other (hfinish _) (hreset _)]
        exact h.authenticated

theorem tracks_finish {pinned : String} (hpinned : normalizeHash pinned = .ok pinned)
    {past : List Event} {s : WasmStreamingProver G B M} (h : Tracks sha256 pinned past s) :
    Tracks sha256 pinned (past ++ [(.finishZkeyAuthentication, (s.finishZkeyAuthentication sha256).1)])
      (s.finishZkeyAuthentication sha256).2 := by
  have hreset : ∀ reply, ¬ ResetSucceeded (.finishZkeyAuthentication, reply) :=
    fun _ hreset => (by cases hreset.1)
  have hfailed : ∀ e, ¬ FinishSucceeded (.finishZkeyAuthentication, .error e) :=
    fun _ ⟨_, _, hreply⟩ => (by cases hreply)
  unfold finishZkeyAuthentication
  cases hopen : s.authenticator with
  | none =>
    refine ⟨h.expected, fun a ha => ?_, h.closed_pass, ?_⟩
    · cases hopen.symm.trans ha
    · rw [authenticated_other (hfailed _) (hreset _)]
      exact h.authenticated
  | some a =>
    obtain ⟨rfl, hunauthenticated⟩ := h.open_pass a hopen
    simp only [StreamingAuthenticator.finish]
    by_cases hdigest : hexDigest (sha256 (passBytes past)) = pinned
    · rw [if_neg (not_not.mpr hdigest)]
      refine ⟨h.expected, fun a ha => (by cases ha), fun _ => rfl, fun _ => ?_, fun _ => rfl⟩
      exact (authenticated_concat _ _ _ _).mpr (.inl ⟨⟨rfl, _, rfl⟩, hdigest⟩)
    · rw [if_pos hdigest, freshAuthenticator_ok hpinned h.expected]
      refine ⟨h.expected, ?_, fun hnone => (by cases hnone), ?_⟩
      · intro a ha
        cases ha
        rw [passBytes_concat]
        exact ⟨rfl, hunauthenticated⟩
      · rw [authenticated_other (hfailed _) (hreset _)]
        exact h.authenticated

theorem tracks_reset {pinned : String} (hpinned : normalizeHash pinned = .ok pinned)
    {past : List Event} {s : WasmStreamingProver G B M} (h : Tracks sha256 pinned past s) :
    Tracks sha256 pinned (past ++ [(.resetZkeyAuthentication, s.resetZkeyAuthentication.1)])
      s.resetZkeyAuthentication.2 := by
  have hfinish : ∀ reply, ¬ FinishSucceeded (.resetZkeyAuthentication, reply) :=
    fun _ hfinish => (by cases hfinish.1)
  unfold resetZkeyAuthentication
  split
  · exact tracks_of_same h rfl rfl rfl (hfinish _) fun ⟨_, _, hreply⟩ => (by cases hreply)
  · rw [freshAuthenticator_ok hpinned h.expected]
    refine ⟨h.expected, ?_, fun hnone => (by cases hnone), ?_⟩
    · intro a ha
      cases ha
      rw [passBytes_concat]
      exact ⟨rfl, rfl⟩
    · rw [authenticated_concat]
      refine ⟨fun hfalse => (by cases hfalse), fun hverdict => ?_⟩
      rcases hverdict with ⟨hfinished, -⟩ | ⟨hquiet, -⟩
      · exact absurd hfinished (hfinish _)
      · exact absurd ⟨rfl, _, rfl⟩ hquiet

theorem passStep_other {call : Call} (h : call.isAuthentication = false) (bytes : List UInt8)
    (reply : Except String Reply) : passStep bytes (call, reply) = bytes := by
  cases call with
  | authenticateZkeyChunk chunk => cases h
  | finishZkeyAuthentication => cases h
  | resetZkeyAuthentication => cases h
  | _ => rfl

theorem not_finish_of_other {call : Call} (h : call.isAuthentication = false)
    (reply : Except String Reply) :
    ¬ FinishSucceeded (call, reply) ∧ ¬ ResetSucceeded (call, reply) := by
  constructor
  · intro ⟨hcall, _⟩
    rw [show call = .finishZkeyAuthentication from hcall] at h
    cases h
  · intro ⟨hcall, _⟩
    rw [show call = .resetZkeyAuthentication from hcall] at h
    cases h

theorem step_tracks {pinned : String} (hpinned : normalizeHash pinned = .ok pinned)
    {past : List Event} {s : WasmStreamingProver G B M} (h : Tracks sha256 pinned past s) (call : Call) :
    Tracks sha256 pinned (past ++ [(call, (step sha256 engine call s).1)])
      (step sha256 engine call s).2 := by
  by_cases hauthentication : call.isAuthentication = true
  · cases call with
    | authenticateZkeyChunk bytes => exact tracks_authenticate h bytes
    | finishZkeyAuthentication => exact tracks_finish hpinned h
    | resetZkeyAuthentication => exact tracks_reset hpinned h
    | _ => cases hauthentication
  · have hother : call.isAuthentication = false := Bool.eq_false_iff.mpr hauthentication
    have hevents := not_finish_of_other hother (step sha256 engine call s).1
    have hbytes := passStep_other hother (passBytes past) (step sha256 engine call s).1
    by_cases hbegin : call.isBegin = true
    · rcases begin_cases sha256 engine hbegin s with ⟨e, hstep⟩ | ⟨reply, s', hstep, hbegan⟩
      · rw [hstep] at hevents hbytes ⊢
        exact tracks_of_same h rfl rfl hbytes hevents.1 hevents.2
      · rw [hstep] at hevents hbytes ⊢
        exact tracks_of_same h hbegan.authentication hbegan.expected hbytes hevents.1 hevents.2
    · obtain ⟨hleaves, hsame⟩ := other_cases sha256 engine (Bool.eq_false_iff.mpr hbegin) hother s
      exact tracks_of_same h hsame hleaves.expected hbytes hevents.1 hevents.2

/-! ## The graph and the proofs -/

variable (sha256) in
theorem leaves_of_not_begin {call : Call} (hbegin : call.isBegin = false) (s : WasmStreamingProver G B M) :
    Leaves s (step sha256 engine call s).2 := by
  by_cases hauthentication : call.isAuthentication = true
  · cases call with
    | authenticateZkeyChunk bytes =>
      simp only [step, authenticateZkeyChunk]
      split
      · exact ⟨rfl, rfl, id, id⟩
      · split <;> exact ⟨rfl, rfl, id, id⟩
    | finishZkeyAuthentication =>
      simp only [step, finishZkeyAuthentication]
      split
      · exact ⟨rfl, rfl, id, id⟩
      · split
        · exact ⟨rfl, rfl, id, id⟩
        · split <;> exact ⟨rfl, rfl, id, id⟩
    | resetZkeyAuthentication =>
      simp only [step, resetZkeyAuthentication]
      split
      · exact ⟨rfl, rfl, id, id⟩
      · split <;> exact ⟨rfl, rfl, id, id⟩
    | _ => cases hauthentication
  · exact (other_cases sha256 engine hbegin (Bool.eq_false_iff.mpr hauthentication) s).1

theorem proofActive_iff (s : WasmStreamingProver G B M) :
    s.proofActive = true ↔ s.proof ≠ none ∨ s.manifestProof ≠ none := by
  unfold proofActive
  cases s.proof <;> cases s.manifestProof <;> simp

variable (sha256) in
/-- While a framed proof is active a completed pass stays completed. -/
theorem stays_authenticated {call : Call} (hbegin : call.isBegin = false) {s : WasmStreamingProver G B M}
    (hproof : s.proof ≠ none) (hclosed : s.authenticator = none) :
    (step sha256 engine call s).2.authenticated = s.authenticated := by
  by_cases hauthentication : call.isAuthentication = true
  · cases call with
    | authenticateZkeyChunk bytes => simp only [step, authenticateZkeyChunk, hclosed]
    | finishZkeyAuthentication => simp only [step, finishZkeyAuthentication, hclosed]
    | resetZkeyAuthentication =>
      simp only [step, resetZkeyAuthentication]
      rw [if_pos ((proofActive_iff s).mpr (.inl hproof))]
    | _ => cases hauthentication
  · have hsame := (other_cases sha256 engine hbegin (Bool.eq_false_iff.mpr hauthentication) s).2
    exact (Prod.mk.inj (Prod.mk.inj hsame).2).1

variable (sha256) in
/-- The prover after the calls `past`. -/
structure Inv (pinned : String) (past : List Event) (s : WasmStreamingProver G B M) : Prop where
  tracks : Tracks sha256 pinned past s
  exclusive : s.proof = none ∨ s.manifestProof = none
  framed : s.proof ≠ none → s.authenticated = true
  released : s.prover = none ↔ ∃ e ∈ past, OneShotSucceeded e
  silent : past.Pairwise fun e e' => OneShotSucceeded e → ¬ BeginSucceeded e'

theorem exists_concat_iff {past : List Event} {e : Event} (h : ¬ OneShotSucceeded e) :
    (∃ f ∈ past ++ [e], OneShotSucceeded f) ↔ ∃ f ∈ past, OneShotSucceeded f := by
  constructor
  · intro ⟨f, hf, hone⟩
    rcases List.mem_append.mp hf with hf | hf
    · exact ⟨f, hf, hone⟩
    · rw [List.mem_singleton.mp hf] at hone
      exact absurd hone h
  · intro ⟨f, hf, hone⟩
    exact ⟨f, List.mem_append_left _ hf, hone⟩

theorem pairwise_concat {past : List Event} {e : Event}
    (h : past.Pairwise fun e e' => OneShotSucceeded e → ¬ BeginSucceeded e')
    (he : ∀ f ∈ past, OneShotSucceeded f → ¬ BeginSucceeded e) :
    (past ++ [e]).Pairwise fun e e' => OneShotSucceeded e → ¬ BeginSucceeded e' := by
  refine List.pairwise_append.mpr ⟨h, List.pairwise_singleton _ _, fun f hf e' he' => ?_⟩
  rw [List.mem_singleton.mp he']
  exact he f hf

theorem begin_of_oneShot {call : Call} (h : call.isOneShot = true) : call.isBegin = true := by
  unfold Call.isBegin
  rw [h, Bool.or_true]

theorem step_inv {pinned : String} (hpinned : normalizeHash pinned = .ok pinned) {past : List Event}
    {s : WasmStreamingProver G B M} (h : Inv sha256 pinned past s) (call : Call) :
    Inv sha256 pinned (past ++ [(call, (step sha256 engine call s).1)]) (step sha256 engine call s).2 := by
  have htracks := step_tracks engine hpinned h.tracks call
  by_cases hbegin : call.isBegin = true
  · rcases begin_cases sha256 engine hbegin s with ⟨e, hstep⟩ | ⟨reply, s', hstep, hbegan⟩
    · rw [hstep] at htracks ⊢
      have hfailed : ¬ OneShotSucceeded (call, .error e) := fun ⟨_, _, hreply⟩ => (by cases hreply)
      refine ⟨htracks, h.exclusive, h.framed, ?_, ?_⟩
      · rw [exists_concat_iff hfailed]
        exact h.released
      · exact pairwise_concat h.silent fun _ _ _ ⟨_, _, hreply⟩ => (by cases hreply)
    · rw [hstep] at htracks ⊢
      have hauthenticated : s'.authenticated = s.authenticated :=
        (Prod.mk.inj (Prod.mk.inj hbegan.authentication).2).1
      have hpast : ¬ ∃ e ∈ past, OneShotSucceeded e := fun hreleased =>
        hbegan.graph (h.released.mpr hreleased)
      refine ⟨htracks, ?_, ?_, ?_, ?_⟩
      · rcases hbegan.proofs with ⟨hmanifest, -⟩ | hproof
        · exact .inr hmanifest
        · exact .inl hproof
      · intro hproof
        rcases hbegan.proofs with ⟨-, hframed⟩ | hnone
        · rw [hauthenticated]
          exact hbegan.authenticated hframed
        · exact absurd hnone hproof
      · by_cases hone : call.isOneShot = true
        · rw [hbegan.prover, if_pos hone]
          exact ⟨fun _ => ⟨_, List.mem_append_right _ List.mem_cons_self, hone, reply, rfl⟩, fun _ => rfl⟩
        · rw [hbegan.prover, if_neg hone, exists_concat_iff fun hsucceeded => hone hsucceeded.1]
          exact h.released
      · exact pairwise_concat h.silent fun f hf hone => absurd ⟨f, hf, hone⟩ hpast
  · have hother : call.isBegin = false := Bool.eq_false_iff.mpr hbegin
    have hleaves := leaves_of_not_begin sha256 engine hother s
    refine ⟨htracks, ?_, ?_, ?_, ?_⟩
    · rcases h.exclusive with hproof | hmanifest
      · exact .inl (hleaves.proof hproof)
      · exact .inr (hleaves.manifestProof hmanifest)
    · intro hactive
      have hproof : s.proof ≠ none := fun hnone => hactive (hleaves.proof hnone)
      have hdone := h.framed hproof
      have hclosed : s.authenticator = none := by
        cases hopen : s.authenticator with
        | none => rfl
        | some a =>
          have hfalse := (h.tracks.open_pass a hopen).2
          rw [hdone] at hfalse
          cases hfalse
      rw [stays_authenticated sha256 engine hother hproof hclosed]
      exact hdone
    · rw [hleaves.prover, exists_concat_iff fun hsucceeded => hbegin (begin_of_oneShot hsucceeded.1)]
      exact h.released
    · exact pairwise_concat h.silent fun _ _ _ hsucceeded => hbegin hsucceeded.1

theorem run_inv {pinned : String} (hpinned : normalizeHash pinned = .ok pinned) (calls : List Call) :
    ∀ {past : List Event} {s : WasmStreamingProver G B M}, Inv sha256 pinned past s →
      Inv sha256 pinned (past ++ (run sha256 engine calls s).1) (run sha256 engine calls s).2 := by
  induction calls with
  | nil =>
    intro past s h
    rw [run, List.append_nil]
    exact h
  | cons call calls ih =>
    intro past s h
    have hrest := ih (step_inv engine hpinned h call)
    rw [List.append_assoc] at hrest
    exact hrest

/-! ## From the constructor on -/

theorem isAsciiHexdigit_toNat_lt {c : Char} (h : isAsciiHexdigit c = true) : c.toNat < 128 := by
  unfold isAsciiHexdigit at h
  simp only [Bool.or_eq_true, Bool.and_eq_true, decide_eq_true_eq, Char.le_def,
    UInt32.le_iff_toNat_le] at h
  have hnine : ('9' : Char).val.toNat = 57 := rfl
  have hlower : ('f' : Char).val.toNat = 102 := rfl
  have hupper : ('F' : Char).val.toNat = 70 := rfl
  have hval : c.toNat = c.val.toNat := rfl
  omega

theorem toLower_ascii : ∀ n, n < 128 → isAsciiHexdigit (Char.ofNat n) = true →
    isAsciiHexdigit (Char.ofNat n).toLower = true ∧
      (Char.ofNat n).toLower.toLower = (Char.ofNat n).toLower := by
  decide

theorem toLower_hexdigit {c : Char} (h : isAsciiHexdigit c = true) :
    isAsciiHexdigit c.toLower = true ∧ c.toLower.toLower = c.toLower := by
  have hascii := toLower_ascii c.toNat (isAsciiHexdigit_toNat_lt h)
  rw [Char.ofNat_toNat] at hascii
  exact hascii h

/-- The digest the prover keeps is accepted again, so a fresh pass never fails. -/
theorem normalizeHash_again {value pinned : String} (h : normalizeHash value = .ok pinned) :
    pinned = toAsciiLowercase value ∧ normalizeHash pinned = .ok pinned := by
  unfold normalizeHash at h
  split at h
  · cases h
  · rename_i hvalid
    obtain ⟨hlength, hall⟩ := not_or.mp hvalid
    have hdigits := List.all_eq_true.mp (not_not.mp hall)
    cases h
    refine ⟨rfl, ?_⟩
    have hlist : (toAsciiLowercase value).toList = value.toList.map Char.toLower := by
      rw [toAsciiLowercase, String.toList_ofList]
    have hlower : toAsciiLowercase (toAsciiLowercase value) = toAsciiLowercase value := by
      rw [toAsciiLowercase, hlist, List.map_map, toAsciiLowercase]
      congr 1
      exact List.map_congr_left fun c hc => (toLower_hexdigit (hdigits c hc)).2
    unfold normalizeHash
    rw [hlist, if_neg, hlower]
    refine not_or.mpr ⟨?_, not_not.mpr ?_⟩
    · rw [List.length_map]
      exact hlength
    · apply List.all_eq_true.mpr
      intro c hc
      obtain ⟨d, hd, rfl⟩ := List.mem_map.mp hc
      exact (toLower_hexdigit (hdigits d hd)).1

theorem new_inv {graph : Except String G} {expectedZkeySha256 : String} {s : WasmStreamingProver G B M}
    (h : new graph expectedZkeySha256 = .ok s) :
    normalizeHash (toAsciiLowercase expectedZkeySha256) = .ok (toAsciiLowercase expectedZkeySha256) ∧
      Inv sha256 (toAsciiLowercase expectedZkeySha256) [] s := by
  obtain ⟨prover, -, h⟩ := Fallible.bind_ok.mp h
  obtain ⟨authenticator, hauthenticator, h⟩ := Fallible.bind_ok.mp h
  cases h
  unfold StreamingAuthenticator.new at hauthenticator
  cases hnormal : normalizeHash expectedZkeySha256 with
  | error e =>
    rw [hnormal] at hauthenticator
    cases hauthenticator
  | ok pinned =>
    obtain ⟨hpinned, hagain⟩ := normalizeHash_again hnormal
    rw [hnormal] at hauthenticator
    cases hauthenticator
    rw [← hpinned]
    refine ⟨hagain, ⟨rfl, fun a ha => ?_, fun hnone => (by cases hnone), ?_⟩, .inl rfl,
      fun hproof => absurd rfl hproof, ?_, .nil⟩
    · cases ha
      exact ⟨rfl, rfl⟩
    · refine ⟨fun hfalse => (by cases hfalse), fun ⟨before, finish, after, hsplit, _⟩ => ?_⟩
      exact absurd hsplit (by simp)
    · exact ⟨fun hnone => (by cases hnone), fun ⟨e, hmem, _⟩ => (by cases hmem)⟩

/-- What holds of the prover in the state `s` after the calls `past`, whatever is called next. -/
structure Sound (sha256 : List UInt8 → List UInt8) (engine : Engine G A B M) (pinned : String)
    (past : List Event) (s : WasmStreamingProver G B M) : Prop where
  authenticated : s.authenticated = true ↔ Authenticated sha256 pinned past
  exclusive : s.proof = none ∨ s.manifestProof = none
  framed : s.proof ≠ none → s.authenticated = true
  framed_begin : ∀ call, call.isFramedBegin = true →
    BeginSucceeded (call, (step sha256 engine call s).1) → s.authenticated = true
  only_begins : ∀ call, call.isBegin = false → Leaves s (step sha256 engine call s).2
  reset_refused : s.proofActive = true → ∃ e, step sha256 engine .resetZkeyAuthentication s = (.error e, s)
  failed_begin : ∀ call, call.isBegin = true → ∀ e, (step sha256 engine call s).1 = .error e →
    (step sha256 engine call s).2 = s
  released : s.prover = none ↔ ∃ e ∈ past, OneShotSucceeded e
  releases : ∀ call, s.prover ≠ none → ((step sha256 engine call s).2.prover = none ↔
    OneShotSucceeded (call, (step sha256 engine call s).1))
  last : s.prover = none → ∀ call, ¬ BeginSucceeded (call, (step sha256 engine call s).1)
  silent : past.Pairwise fun e e' => OneShotSucceeded e → ¬ BeginSucceeded e'

theorem Inv.sound {pinned : String} {past : List Event} {s : WasmStreamingProver G B M}
    (h : Inv sha256 pinned past s) : Sound sha256 engine pinned past s := by
  have hbegan : ∀ call, BeginSucceeded (call, (step sha256 engine call s).1) →
      Began call s (step sha256 engine call s).2 := by
    intro call hsucceeded
    obtain ⟨reply, hreply⟩ := hsucceeded.2
    rcases begin_cases sha256 engine hsucceeded.1 s with ⟨e, hstep⟩ | ⟨reply', s', hstep, hbegan⟩
    · rw [hstep] at hreply
      cases hreply
    · rw [hstep]
      exact hbegan
  refine ⟨h.tracks.authenticated, h.exclusive, h.framed, ?_, ?_, ?_, ?_, h.released, ?_, ?_, h.silent⟩
  · intro call hframed hsucceeded
    exact (hbegan call hsucceeded).authenticated hframed
  · exact fun call hother => leaves_of_not_begin sha256 engine hother s
  · intro hactive
    simp only [step, resetZkeyAuthentication]
    rw [if_pos hactive]
    exact ⟨_, rfl⟩
  · intro call hbegin e hfailed
    rcases begin_cases sha256 engine hbegin s with ⟨e', hstep⟩ | ⟨reply, s', hstep, -⟩
    · rw [hstep]
    · rw [hstep] at hfailed
      cases hfailed
  · intro call hgraph
    constructor
    · intro hreleased
      by_cases hbegin : call.isBegin = true
      · rcases begin_cases sha256 engine hbegin s with ⟨e, hstep⟩ | ⟨reply, s', hstep, hbegan⟩
        · rw [hstep] at hreleased
          exact absurd hreleased hgraph
        · rw [hstep] at hreleased ⊢
          refine ⟨?_, reply, rfl⟩
          by_contra hone
          have hprover := hbegan.prover
          rw [if_neg hone] at hprover
          exact hgraph (hprover.symm.trans hreleased)
      · have hleaves := leaves_of_not_begin sha256 engine (Bool.eq_false_iff.mpr hbegin) s
        exact absurd (hleaves.prover.symm.trans hreleased) hgraph
    · intro hsucceeded
      have hprover := (hbegan call ⟨begin_of_oneShot hsucceeded.1, hsucceeded.2⟩).prover
      rwa [if_pos hsucceeded.1] at hprover
  · exact fun hreleased call hsucceeded => (hbegan call hsucceeded).graph hreleased

/-- After any calls on a prover from a constructor its state is sound. -/
theorem streaming_prover_sound {graph : Except String G} {expectedZkeySha256 : String}
    {s : WasmStreamingProver G B M} (hnew : new graph expectedZkeySha256 = .ok s) (calls : List Call) :
    Sound sha256 engine (toAsciiLowercase expectedZkeySha256) (run sha256 engine calls s).1
      (run sha256 engine calls s).2 := by
  obtain ⟨hpinned, hinv⟩ : _ ∧ Inv sha256 (toAsciiLowercase expectedZkeySha256) [] s := new_inv hnew
  have hrun := run_inv engine hpinned calls hinv
  rw [List.nil_append] at hrun
  exact hrun.sound engine

/-- A prover whose only input is the empty object, over a framer that is never reached. -/
def emptyObjectEngine : Engine Unit Unit (Sparrow.StreamingProofBuilder Unit Unit)
    (Sparrow.ManifestProofStream (Sparrow.ZkeyFramer Unit Unit)) :=
  .framing ⟨fun _ _ _ => .error .unexpectedEof, fun p _ => (.ok (), p), fun s _ _ => .ok s⟩ false
    ZkeyChunkManifest.zeroByteSha256
    (fun _ inputJson => if inputJson = "\x7b\x7d" then .ok () else .error "invalid input")
    (fun _ => .ok []) .ok (fun _ s => s) fun _ => .error "generated Groth16 proof did not verify"

theorem streaming_prover_sound_example : ∃ s : WasmStreamingProver Unit _ _,
    new (.ok ()) (hexDigest ZkeyChunkManifest.zeroByteDigest) = .ok s ∧
      Sound ZkeyChunkManifest.zeroByteSha256 emptyObjectEngine
        (toAsciiLowercase (hexDigest ZkeyChunkManifest.zeroByteDigest))
        (run ZkeyChunkManifest.zeroByteSha256 emptyObjectEngine
          [.authenticateZkeyChunk [0], .finishZkeyAuthentication, .beginOneShotProof "\x7b\x7d"] s).1
        (run ZkeyChunkManifest.zeroByteSha256 emptyObjectEngine
          [.authenticateZkeyChunk [0], .finishZkeyAuthentication, .beginOneShotProof "\x7b\x7d"] s).2 := by
  have hnormal : normalizeHash (hexDigest ZkeyChunkManifest.zeroByteDigest) =
      .ok (hexDigest ZkeyChunkManifest.zeroByteDigest) :=
    ZkeyChunkManifest.normalizeHash_hexDigest rfl
  have hnew : ∃ s : WasmStreamingProver Unit (Sparrow.StreamingProofBuilder Unit Unit)
      (Sparrow.ManifestProofStream (Sparrow.ZkeyFramer Unit Unit)),
      new (.ok ()) (hexDigest ZkeyChunkManifest.zeroByteDigest) = .ok s := by
    simp only [new, StreamingAuthenticator.new, hnormal]
    exact ⟨_, rfl⟩
  obtain ⟨s, hs⟩ := hnew
  exact ⟨s, hs, streaming_prover_sound emptyObjectEngine hs _⟩

end Curvy.Prover.WasmStreamingProver
