import Curvy.Prover.WasmStreamingProver

/-!
# The two-pass adapter of the browser

The calls `authenticateResponse` and `proveResponse` on one prover. Between two awaits a call
runs alone; what it does there is one step over the prover and the hashes recorded for it.
Fields marked as history are never read by the code.
-/

namespace Curvy.Prover.CacheApi

set_option autoImplicit false

open Sparrow (hexDigest)
open WasmStreamingProver (Call Event)

/-! ## Chunks of a response -/

def authChunkBytes : Nat := 64 * 1024

def maxSafeInteger : Nat := 9007199254740991

/-- The values a body delivers, and whether it fails behind them. -/
structure Body where
  values : List (List UInt8)
  fails : Bool

/-- The generator at a yield; `value` is what is left of the value it read last. -/
structure FixedChunks where
  value : List UInt8
  body : Body

inductive Next where
  | chunk (bytes : List UInt8) (rest : FixedChunks)
  | done
  | failed

/-- A copy that does not fill the buffer uses the value up. -/
def fill (fails : Bool) (filled value : List UInt8) (values : List (List UInt8)) : Next :=
  let count := min (authChunkBytes - filled.length) value.length
  let filled := filled ++ value.take count
  if filled.length = authChunkBytes then .chunk filled ⟨value.drop count, values, fails⟩
  else match values with
    | value :: values => fill fails filled value values
    | [] =>
      if fails then .failed
      else if filled.isEmpty then .done
      else .chunk filled ⟨[], [], fails⟩

def fixedChunks (body : Body) : FixedChunks := ⟨[], body⟩

def FixedChunks.next (c : FixedChunks) : Next := fill c.body.fails [] c.value c.body.values

/-! ## The shared state -/

structure Recorded where
  hashes : List String
  bytes : Nat

/-- The prover and its entry of `authenticatedResponses`. History: the calls on the prover. -/
structure Shared (G B M : Type) where
  prover : WasmStreamingProver G B M
  recorded : Option Recorded
  past : List Event

section Steps
variable {G A B M : Type} (sha256 : List UInt8 → List UInt8) (engine : Engine G A B M)

def sha256Hex (bytes : List UInt8) : String := hexDigest (sha256 bytes)

def Shared.call (call : Call) (s : Shared G B M) : Except String Reply × Shared G B M :=
  let (reply, prover) := s.prover.step sha256 engine call
  (reply, { s with prover, past := s.past ++ [(call, reply)] })

/-! ## `authenticateResponse` -/

inductive PassStage where
  | reading (chunks : FixedChunks)
  | hashing (chunk : List UInt8) (chunks : FixedChunks)
  | finishing
  | done (bytes : Nat)
  | failed

/-- A call past its reset. History: the chunks it has fed. -/
structure Pass where
  stage : PassStage
  hashes : List String
  fed : List (List UInt8)

/-- Up to the first await; `none` is a call that returns or throws there. -/
def authenticateResponse (body : Option Body) (s : Shared G B M) : Option Pass × Shared G B M :=
  if s.recorded.isSome && s.prover.authenticated then (none, s)
  else match body with
    | none => (none, s)
    | some body =>
      match s.call sha256 engine .resetZkeyAuthentication with
      | (.error _, s) => (none, s)
      | (.ok _, s) => (some ⟨.reading (fixedChunks body), [], []⟩, s)

def Pass.advance (p : Pass) (s : Shared G B M) : Option (Pass × Shared G B M) :=
  match p.stage with
  | .reading chunks =>
    match chunks.next with
    | .chunk chunk chunks => some ({ p with stage := .hashing chunk chunks }, s)
    | .done => some ({ p with stage := .finishing }, s)
    | .failed => some ({ p with stage := .failed }, s)
  | .hashing chunk chunks =>
    let hashes := p.hashes ++ [sha256Hex sha256 chunk]
    match s.call sha256 engine (.authenticateZkeyChunk chunk) with
    | (.ok _, s) => some (⟨.reading chunks, hashes, p.fed ++ [chunk]⟩, s)
    | (.error _, s) => some ({ p with stage := .failed, hashes }, s)
  | .finishing =>
    match s.call sha256 engine .finishZkeyAuthentication with
    | (.ok (.count bytes), s) =>
      some ({ p with stage := .done bytes }, { s with recorded := some ⟨p.hashes, bytes⟩ })
    | (_, s) => some ({ p with stage := .failed }, s)
  | .done _ | .failed => none

/-! ## `proveResponse` -/

inductive StreamState where
  | readable
  | closed
  | errored
  deriving DecidableEq

/-- The stream of `checkedResponse`. History: the chunks that passed the check. -/
structure CheckedResponse where
  chunks : FixedChunks
  index : Nat
  queue : List (List UInt8)
  state : StreamState
  passed : List (List UInt8)

/-- An error drops what is queued. -/
def CheckedResponse.error (c : CheckedResponse) : CheckedResponse := { c with state := .errored, queue := [] }

/-- The stream pulls one chunk ahead of its reader. -/
def CheckedResponse.pull (hashes : List String) (c : CheckedResponse) : Option CheckedResponse :=
  if c.state = .readable ∧ c.queue = [] then
    match c.chunks.next with
    | .failed => some c.error
    | .done => if c.index ≠ hashes.length then some c.error else some { c with state := .closed }
    | .chunk value chunks =>
      if c.index ≥ hashes.length ∨ hashes[c.index]? ≠ some (sha256Hex sha256 value) then some c.error
      else some { c with chunks, index := c.index + 1, queue := c.queue ++ [value],
                         passed := c.passed ++ [value] }
  else none

/-- A cancelled stream; an errored one stays as it is. -/
def CheckedResponse.cancel (c : CheckedResponse) : CheckedResponse :=
  { c with state := if c.state = .errored then .errored else .closed, queue := [] }

/-- What the call waits for: twelve bytes of a header, the rest of a section, or the end.
`sections` is the head of the loop; `left` counts the sections behind the current one. -/
inductive ProofStage where
  | fileHeader (read : List UInt8)
  | sections (left : Nat)
  | sectionHeader (left : Nat) (read : List UInt8)
  | section (left remaining : Nat)
  | atEnd
  | done (json : String)
  | failed

/-- A call past its begin. `pending` is what is left of the value its reader holds. History:
the bytes handed to the framing methods. -/
structure Proof where
  hashes : List String
  checked : CheckedResponse
  pending : List UInt8
  stage : ProofStage
  handed : List UInt8

/-- `authenticatedChunkHashes`. -/
def Shared.authenticatedChunkHashes (s : Shared G B M) : Option (List String) :=
  match s.recorded with
  | none => none
  | some recorded => if s.prover.authenticated then some recorded.hashes else none

/-- Up to the first await; `none` is a call that throws there. -/
def proveResponse (inputJson : String) (body : Option Body) (oneShot : Bool) (s : Shared G B M) :
    Option Proof × Shared G B M :=
  match body, s.authenticatedChunkHashes with
  | some body, some hashes =>
    match s.call sha256 engine (if oneShot then .beginOneShotProof inputJson else .beginProof inputJson) with
    | (.error _, s) => (none, s)
    | (.ok _, s) => (some ⟨hashes, ⟨fixedChunks body, 0, [], .readable, []⟩, [], .fileHeader [], []⟩, s)
  | _, _ => (none, s)

namespace Proof

/-- `abortQuietly` and the cancelled stream. -/
def fail (p : Proof) (s : Shared G B M) : Proof × Shared G B M :=
  ({ p with stage := .failed, pending := [], checked := p.checked.cancel },
    (s.call sha256 engine .abortProof).2)

/-- A framing call over `bytes`, on the way to `stage`. -/
def hand (bytes : List UInt8) (call : Call) (stage : ProofStage) (p : Proof) (s : Shared G B M) :
    Proof × Shared G B M :=
  match s.call sha256 engine call with
  | (.ok _, s) => ({ p with stage, handed := p.handed ++ bytes }, s)
  | (.error _, s) => fail sha256 engine { p with handed := p.handed ++ bytes } s

/-- The end of the stream. -/
def ended (p : Proof) (s : Shared G B M) : Proof × Shared G B M :=
  match p.stage with
  | .atEnd =>
    match s.call sha256 engine .finishProof with
    | (.ok (.bundle json), s) => ({ p with stage := .done json }, s)
    | (_, s) => p.fail sha256 engine s
  | _ => p.fail sha256 engine s

/-- `nextChunk` with nothing pending. A value without bytes is read over. -/
def nextChunk (p : Proof) (s : Shared G B M) : Option (Proof × Shared G B M) :=
  match p.checked.queue with
  | value :: queue => some ({ p with pending := value, checked := { p.checked with queue } }, s)
  | [] =>
    match p.checked.state with
    | .readable => none
    | .closed => some (p.ended sha256 engine s)
    | .errored => some (p.fail sha256 engine s)

/-- `readExact` of a header of which `read` is there. -/
def readHeader (stage : List UInt8 → ProofStage) (read : List UInt8) (p : Proof) (s : Shared G B M) :
    Option (Proof × Shared G B M) :=
  if p.pending.isEmpty then p.nextChunk sha256 engine s
  else
    let take := min (12 - read.length) p.pending.length
    some ({ p with stage := stage (read ++ p.pending.take take), pending := p.pending.drop take }, s)

def advance (p : Proof) (s : Shared G B M) : Option (Proof × Shared G B M) :=
  match p.stage with
  | .fileHeader read =>
    if read.length < 12 then p.readHeader sha256 engine .fileHeader read s
    else
      let sectionCount := leNat ((read.drop 8).take 4)
      some (p.hand sha256 engine read (.beginZkey read) (.sections sectionCount) s)
  | .sections 0 => some ({ p with stage := .atEnd }, s)
  | .sections (left + 1) => some ({ p with stage := .sectionHeader left [] }, s)
  | .sectionHeader left read =>
    if read.length < 12 then p.readHeader sha256 engine (.sectionHeader left) read s
    else
      let length := leNat ((read.drop 4).take 8)
      if length > maxSafeInteger then some (p.fail sha256 engine s)
      else some (p.hand sha256 engine read (.beginZkeySection read) (.section left length) s)
  | .section left 0 => some (p.hand sha256 engine [] .endZkeySection (.sections left) s)
  | .section left (remaining + 1) =>
    if p.pending.isEmpty then p.nextChunk sha256 engine s
    else
      let take := min (remaining + 1) p.pending.length
      let chunk := p.pending.take take
      some (hand sha256 engine chunk (.pushZkeySectionChunk chunk) (.section left (remaining + 1 - take))
        { p with pending := p.pending.drop take } s)
  | .atEnd =>
    if p.pending.isEmpty then p.nextChunk sha256 engine s else some (p.fail sha256 engine s)
  | .done _ | .failed => none

end Proof

/-! ## One prover under many calls -/

/-- History: the pass that made the latest reset. -/
structure Page (G B M : Type) where
  shared : Shared G B M
  passes : List Pass
  proofs : List Proof
  latest : Option Nat

inductive Action where
  | authenticate (body : Option Body)
  | prove (inputJson : String) (body : Option Body) (oneShot : Bool)
  | pass (index : Nat)
  | pull (index : Nat)
  | proof (index : Nat)

namespace Page

def new (prover : WasmStreamingProver G B M) : Page G B M := ⟨⟨prover, none, []⟩, [], [], none⟩

/-- `none` when the call is blocked or over. -/
def step (w : Page G B M) : Action → Option (Page G B M)
  | .authenticate body =>
    match authenticateResponse sha256 engine body w.shared with
    | (none, shared) => some { w with shared }
    | (some p, shared) =>
      some { w with shared, passes := w.passes ++ [p], latest := some w.passes.length }
  | .prove inputJson body oneShot =>
    match proveResponse sha256 engine inputJson body oneShot w.shared with
    | (none, shared) => some { w with shared }
    | (some p, shared) => some { w with shared, proofs := w.proofs ++ [p] }
  | .pass index => do
    let p ← w.passes[index]?
    let (p, shared) ← p.advance sha256 engine w.shared
    some { w with shared, passes := w.passes.set index p }
  | .pull index => do
    let p ← w.proofs[index]?
    let checked ← p.checked.pull sha256 p.hashes
    some { w with proofs := w.proofs.set index { p with checked } }
  | .proof index => do
    let p ← w.proofs[index]?
    let (p, shared) ← p.advance sha256 engine w.shared
    some { w with shared, proofs := w.proofs.set index p }

def run : List Action → Page G B M → Option (Page G B M)
  | [], w => some w
  | a :: actions, w => do run actions (← w.step sha256 engine a)

/-- The pages the `allowed` actions lead to. -/
inductive Reachable (allowed : Page G B M → Action → Prop) (start : Page G B M) : Page G B M → Prop where
  | start : Reachable allowed start start
  | step {w w' : Page G B M} {a : Action} (h : Reachable allowed start w) (ha : allowed w a)
    (hstep : w.step sha256 engine a = some w') : Reachable allowed start w'

end Page

end Steps

end Curvy.Prover.CacheApi
