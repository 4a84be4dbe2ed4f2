import Curvy.Prover.ChunkManifest

/-!
# The browser prover

The calls of the streaming prover that a page makes. The compiled graph, the framed proof and
the manifest proof are parameters with their own fallible calls; errors are their texts.
-/

namespace Curvy.Prover

set_option autoImplicit false

open Sparrow (hexDigest)

def ArtifactError.display : ArtifactError → String
  | .invalidExpectedHash => "expected SHA-256 must be exactly 64 hexadecimal characters"
  | .zkeyHashMismatch expected actual => s!"zkey SHA-256 mismatch: expected {expected}, got {actual}"
  | .manifestHashMismatch expected actual =>
    s!"zkey manifest SHA-256 mismatch: expected {expected}, got {actual}"
  | .manifestZkeyHashMismatch expected actual =>
    s!"zkey manifest identifies {actual}, but protocol metadata pins {expected}"
  | .zkeyChunkHashMismatch index expected actual =>
    s!"zkey chunk {index} SHA-256 mismatch: expected {expected}, got {actual}"
  | .invalidZkey message => s!"invalid zkey artifact: {message}"
  | .unexpectedEof => "zkey stream ended early"
  | .io error => s!"zkey I/O failed: {error.message}"

/-! ## The authentication pass -/

/-- `hashed` is what the hasher was fed. -/
structure StreamingAuthenticator where
  expectedSha256 : String
  hashed : List UInt8
  bytes : Nat
  deriving DecidableEq

namespace StreamingAuthenticator

def new (expectedSha256 : String) : Except String StreamingAuthenticator :=
  match normalizeHash expectedSha256 with
  | .error _ => .error "expected zkey SHA-256 must be exactly 64 hexadecimal characters"
  | .ok expectedSha256 => .ok ⟨expectedSha256, [], 0⟩

def update (bytes : List UInt8) (a : StreamingAuthenticator) :
    Except String Unit × StreamingAuthenticator :=
  if a.bytes + bytes.length ≥ 2 ^ 64 then
    (.error "invalid zkey for SPARROW: artifact byte count overflow", a)
  else (.ok (), { a with hashed := a.hashed ++ bytes, bytes := a.bytes + bytes.length })

def finish (sha256 : List UInt8 → List UInt8) (a : StreamingAuthenticator) : Except String Nat :=
  if hexDigest (sha256 a.hashed) ≠ a.expectedSha256 then
    .error (ArtifactError.zkeyHashMismatch a.expectedSha256 (hexDigest (sha256 a.hashed))).display
  else .ok a.bytes

end StreamingAuthenticator

/-! ## The prover -/

/-- The compiled graph `G`, its assignments `A`, framed proofs `B` and manifest proofs `M`. -/
structure Engine (G A B M : Type) where
  calculateWitnessJson : G → String → Except String A
  compiledSageBytes : G → Except String (List UInt8)
  newProof : A → (expectedSha256 : String) → Except String B
  withAuthenticatedLength : Nat → B → B
  beginZkey : List UInt8 → B → Except String Unit × B
  beginSection : List UInt8 → B → Except String Unit × B
  pushSectionChunk : List UInt8 → B → Except String Unit × B
  endSection : B → Except String Unit × B
  finishProof : B → Except String String
  newManifestProof : A → ZkeyChunkManifest → Except String M
  pushCompleteChunk : List UInt8 → M → Except String Unit × M
  finishManifestProof : M → Except String String

def displayStreaming : Sparrow.StreamingError → String
  | .zkeyHashMismatch expected actual => s!"zkey SHA-256 mismatch: expected {expected}, got {actual}"
  | .zkeyChunkHashMismatch index expected actual =>
    s!"zkey chunk {index} SHA-256 mismatch: expected {expected}, got {actual}"
  | .invalidZkey message => s!"invalid zkey for SPARROW: {message}"
  | .unexpectedEof => "zkey stream ended early"

/-- The engine over the stream protocol of the builder and over the manifest stream. What a
section means stays a parameter, and so do the witness and the proof. -/
def Engine.framing {G A S P : Type} (sections : Sparrow.Sections S P) (parallel : Bool)
    (sha256 : List UInt8 → List UInt8) (calculateWitnessJson : G → String → Except String A)
    (compiledSageBytes : G → Except String (List UInt8)) (start : A → Except String S)
    (limit : Nat → S → S) (prove : S → Except String String) :
    Engine G A (Sparrow.StreamingProofBuilder S P)
      (Sparrow.ManifestProofStream (Sparrow.ZkeyFramer S P)) where
  calculateWitnessJson := calculateWitnessJson
  compiledSageBytes := compiledSageBytes
  newProof assignment _ := (start assignment).map .new
  withAuthenticatedLength bytes b := { b with data := limit bytes b.data }
  beginZkey header b := ((b.beginZkey header).1.mapError displayStreaming, (b.beginZkey header).2)
  beginSection header b :=
    ((b.beginSection sections header).1.mapError displayStreaming, (b.beginSection sections header).2)
  pushSectionChunk bytes b :=
    ((b.pushSectionChunk sections bytes).1.mapError displayStreaming,
      (b.pushSectionChunk sections bytes).2)
  endSection b := ((b.endSection sections).1.mapError displayStreaming, (b.endSection sections).2)
  finishProof b :=
    if b.active.isSome ∨ ¬ b.began ∨ b.sectionCount ≠ Sparrow.zkeySections then
      .error (displayStreaming (.invalidZkey "incomplete zkey stream"))
    else prove b.data
  newManifestProof assignment manifest := (start assignment).map fun data =>
    .new manifest.toZkeyChunkManifest (.new (.new (limit manifest.zkeyBytes data)))
  pushCompleteChunk bytes m :=
    let pushed := m.pushCompleteChunk sha256 ⟨Sparrow.ZkeyFramer.push sections, Sparrow.ZkeyFramer.finish⟩
      parallel bytes
    (pushed.1.mapError displayStreaming, pushed.2)
  finishManifestProof m :=
    match m.finish sha256 ⟨Sparrow.ZkeyFramer.push sections, Sparrow.ZkeyFramer.finish⟩ with
    | .error e => .error (displayStreaming e)
    | .ok b => prove b.data

structure WasmStreamingProver (G B M : Type) where
  prover : Option G
  expectedZkeySha256 : String
  authenticator : Option StreamingAuthenticator
  authenticated : Bool
  authenticatedBytes : Nat
  proof : Option B
  manifestProof : Option M

/-- What a call returns. -/
inductive Reply where
  | done
  | count (bytes : Nat)
  | bundle (json : String)
  | program (bytes : List UInt8)
  deriving DecidableEq, Repr

namespace WasmStreamingProver

variable {G A B M : Type} (sha256 : List UInt8 → List UInt8) (engine : Engine G A B M)

def graphReleased : String :=
  "the one-shot SAGE graph has already been released; construct a new WasmStreamingProver"

def authenticationComplete : String :=
  "zkey authentication pass is already complete; call resetZkeyAuthentication to authenticate again"

/-- Both constructors, after they have compiled or loaded the graph. -/
def new (graph : Except String G) (expectedZkeySha256 : String) :
    Except String (WasmStreamingProver G B M) := do
  let prover ← graph
  let authenticator ← StreamingAuthenticator.new expectedZkeySha256
  pure {
    prover := some prover
    expectedZkeySha256 := toAsciiLowercase expectedZkeySha256
    authenticator := some authenticator
    authenticated := false
    authenticatedBytes := 0
    proof := none
    manifestProof := none }

def proofActive (s : WasmStreamingProver G B M) : Bool := s.proof.isSome || s.manifestProof.isSome

def freshAuthenticator (s : WasmStreamingProver G B M) : Except String StreamingAuthenticator :=
  StreamingAuthenticator.new s.expectedZkeySha256

def authenticateZkeyChunk (bytes : List UInt8) (s : WasmStreamingProver G B M) :
    Except String Reply × WasmStreamingProver G B M :=
  match s.authenticator with
  | none => (.error authenticationComplete, s)
  | some authenticator =>
    match authenticator.update bytes with
    | (.error e, authenticator) => (.error e, { s with authenticator := some authenticator })
    | (.ok (), authenticator) => (.ok .done, { s with authenticator := some authenticator })

def finishZkeyAuthentication (s : WasmStreamingProver G B M) :
    Except String Reply × WasmStreamingProver G B M :=
  match s.authenticator with
  | none => (.error authenticationComplete, s)
  | some authenticator =>
    match authenticator.finish sha256 with
    | .ok bytes =>
      (.ok (.count bytes),
        { s with authenticator := none, authenticated := true, authenticatedBytes := bytes })
    | .error error =>
      match s.freshAuthenticator with
      | .error e => (.error e, { s with authenticator := none })
      | .ok fresh =>
        (.error s!"{error}; zkey authentication restarted, feed the zkey again from byte 0",
          { s with authenticator := some fresh })

def resetZkeyAuthentication (s : WasmStreamingProver G B M) :
    Except String Reply × WasmStreamingProver G B M :=
  if s.proofActive then
    (.error "cannot reset zkey authentication while a SPARROW proof is active; call abortProof first", s)
  else
    match s.freshAuthenticator with
    | .error e => (.error e, s)
    | .ok fresh =>
      (.ok .done,
        { s with authenticator := some fresh, authenticated := false, authenticatedBytes := 0 })

def abortProof (s : WasmStreamingProver G B M) : Except String Reply × WasmStreamingProver G B M :=
  (.ok .done, { s with proof := none, manifestProof := none })

def checkCanBegin (requiresAuthentication : Bool) (s : WasmStreamingProver G B M) : Except String Unit :=
  if s.proofActive then .error "a SPARROW proof is already active; finish it or call abortProof"
  else if s.prover.isNone then .error graphReleased
  else if requiresAuthentication && !s.authenticated then
    .error "authenticate the zkey before beginning a proof"
  else .ok ()

/-- `None` is a source that was already released. -/
def buildThenRelease {T U : Type} (source : Option T) (build : T → Except String U) :
    Option (Except String U) × Option T :=
  match source with
  | none => (none, none)
  | some value =>
    match build value with
    | .ok built => (some (.ok built), none)
    | .error e => (some (.error e), some value)

def newFramedProof (assignment : A) (s : WasmStreamingProver G B M) : Except String B := do
  let proof ← engine.newProof assignment s.expectedZkeySha256
  pure (engine.withAuthenticatedLength s.authenticatedBytes proof)

def beginProof (inputJson : String) (s : WasmStreamingProver G B M) :
    Except String Reply × WasmStreamingProver G B M :=
  match s.checkCanBegin true with
  | .error e => (.error e, s)
  | .ok () =>
    match s.prover with
    | none => (.error graphReleased, s)
    | some prover =>
      match engine.calculateWitnessJson prover inputJson with
      | .error e => (.error e, s)
      | .ok assignment =>
        match s.newFramedProof engine assignment with
        | .error e => (.error e, s)
        | .ok proof => (.ok .done, { s with proof := some proof })

def beginOneShotProof (inputJson : String) (s : WasmStreamingProver G B M) :
    Except String Reply × WasmStreamingProver G B M :=
  match s.checkCanBegin true with
  | .error e => (.error e, s)
  | .ok () =>
    match buildThenRelease s.prover fun prover => do
      let assignment ← engine.calculateWitnessJson prover inputJson
      s.newFramedProof engine assignment with
    | (none, prover) => (.error graphReleased, { s with prover })
    | (some (.error e), prover) => (.error e, { s with prover })
    | (some (.ok proof), prover) => (.ok .done, { s with prover, proof := some proof })

def beginOneShotManifestProof (inputJson : String) (manifestBytes : List UInt8)
    (expectedManifestSha256 : String) (s : WasmStreamingProver G B M) :
    Except String Reply × WasmStreamingProver G B M :=
  match s.checkCanBegin false with
  | .error e => (.error e, s)
  | .ok () =>
    match ZkeyChunkManifest.fromBytes sha256 manifestBytes expectedManifestSha256 s.expectedZkeySha256 with
    | .error e => (.error e.display, s)
    | .ok manifest =>
      match buildThenRelease s.prover fun prover => do
        let assignment ← engine.calculateWitnessJson prover inputJson
        engine.newManifestProof assignment manifest with
      | (none, prover) => (.error graphReleased, { s with prover })
      | (some (.error e), prover) => (.error e, { s with prover })
      | (some (.ok proof), prover) => (.ok .done, { s with prover, manifestProof := some proof })

def pushManifestZkeyChunk (bytes : List UInt8) (s : WasmStreamingProver G B M) :
    Except String Reply × WasmStreamingProver G B M :=
  match s.manifestProof with
  | none => (.error "no manifest-authenticated proof is active", s)
  | some proof =>
    ((engine.pushCompleteChunk bytes proof).1.map fun _ => .done,
      { s with manifestProof := some (engine.pushCompleteChunk bytes proof).2 })

def finishManifestProof (s : WasmStreamingProver G B M) :
    Except String Reply × WasmStreamingProver G B M :=
  match s.manifestProof with
  | none => (.error "no manifest-authenticated proof is active", s)
  | some proof => ((engine.finishManifestProof proof).map .bundle, { s with manifestProof := none })

/-- A framing call on the active proof, `proof_mut`. -/
def onProof (call : B → Except String Unit × B) (s : WasmStreamingProver G B M) :
    Except String Reply × WasmStreamingProver G B M :=
  match s.proof with
  | none => (.error "no SPARROW proof is active", s)
  | some proof => ((call proof).1.map fun _ => .done, { s with proof := some (call proof).2 })

def beginZkey (header : List UInt8) (s : WasmStreamingProver G B M) :
    Except String Reply × WasmStreamingProver G B M := s.onProof (engine.beginZkey header)

def beginZkeySection (header : List UInt8) (s : WasmStreamingProver G B M) :
    Except String Reply × WasmStreamingProver G B M := s.onProof (engine.beginSection header)

def pushZkeySectionChunk (bytes : List UInt8) (s : WasmStreamingProver G B M) :
    Except String Reply × WasmStreamingProver G B M := s.onProof (engine.pushSectionChunk bytes)

def endZkeySection (s : WasmStreamingProver G B M) :
    Except String Reply × WasmStreamingProver G B M := s.onProof engine.endSection

def finishProof (s : WasmStreamingProver G B M) : Except String Reply × WasmStreamingProver G B M :=
  match s.proof with
  | none => (.error "no SPARROW proof is active", s)
  | some proof => ((engine.finishProof proof).map .bundle, { s with proof := none })

def compiledSageProgram (s : WasmStreamingProver G B M) :
    Except String Reply × WasmStreamingProver G B M :=
  match s.prover with
  | none => (.error graphReleased, s)
  | some prover => ((engine.compiledSageBytes prover).map .program, s)

/-! ## Calls -/

inductive Call where
  | authenticateZkeyChunk (bytes : List UInt8)
  | finishZkeyAuthentication
  | resetZkeyAuthentication
  | abortProof
  | beginProof (inputJson : String)
  | beginOneShotProof (inputJson : String)
  | beginOneShotManifestProof (inputJson : String) (manifestBytes : List UInt8)
      (expectedManifestSha256 : String)
  | pushManifestZkeyChunk (bytes : List UInt8)
  | finishManifestProof
  | beginZkey (header : List UInt8)
  | beginZkeySection (header : List UInt8)
  | pushZkeySectionChunk (bytes : List UInt8)
  | endZkeySection
  | finishProof
  | compiledSageProgram

def step : Call → WasmStreamingProver G B M → Except String Reply × WasmStreamingProver G B M
  | .authenticateZkeyChunk bytes, s => s.authenticateZkeyChunk bytes
  | .finishZkeyAuthentication, s => s.finishZkeyAuthentication sha256
  | .resetZkeyAuthentication, s => s.resetZkeyAuthentication
  | .abortProof, s => s.abortProof
  | .beginProof inputJson, s => s.beginProof engine inputJson
  | .beginOneShotProof inputJson, s => s.beginOneShotProof engine inputJson
  | .beginOneShotManifestProof inputJson manifestBytes expectedManifestSha256, s =>
    s.beginOneShotManifestProof sha256 engine inputJson manifestBytes expectedManifestSha256
  | .pushManifestZkeyChunk bytes, s => s.pushManifestZkeyChunk engine bytes
  | .finishManifestProof, s => s.finishManifestProof engine
  | .beginZkey header, s => s.beginZkey engine header
  | .beginZkeySection header, s => s.beginZkeySection engine header
  | .pushZkeySectionChunk bytes, s => s.pushZkeySectionChunk engine bytes
  | .endZkeySection, s => s.endZkeySection engine
  | .finishProof, s => s.finishProof engine
  | .compiledSageProgram, s => s.compiledSageProgram engine

/-- A call with what it returned. -/
abbrev Event := Call × Except String Reply

def run : List Call → WasmStreamingProver G B M → List Event × WasmStreamingProver G B M
  | [], s => ([], s)
  | call :: calls, s =>
    let (reply, s) := step sha256 engine call s
    let (events, s) := run calls s
    ((call, reply) :: events, s)

end WasmStreamingProver

end Curvy.Prover
