import Curvy.Lib.Chunks
import Curvy.Witness.Field

/-!
# Circuit-input decoding

The JSON parser is outside the repository: `SerdeJson` gives what it reports for a text,
a failure standing where the parser would raise it. The visitors are the code's. A failure
kept aside by the object visitor takes precedence over the parser's own, so the visitor
returns it directly. An index out of range stops the program (`none`).
-/

namespace Curvy.Witness

set_option autoImplicit false

/-- What the deserializer reports; a sequence or map may break off with an error. -/
inductive Json where
  | u64 (value : Nat)
  | i64 (value : Int)
  | f64 (isZero : Bool)
  | str (value : String)
  | bool (value : Bool)
  | null
  | seq (elements : List Json) (stop : Option JsonError)
  | map (members : List (String × Json)) (stop : Option JsonError)
  | broken (error : JsonError)

structure SerdeJson where
  /-- The value at the start of a text. -/
  value : String → Json
  /-- The check that only whitespace follows it. -/
  finish : String → Except JsonError Unit

structure InputMapping where
  hash : Nat
  signalId : Nat
  signalSize : Nat
  deriving DecidableEq, Repr

def fnv1a (value : String) : Nat :=
  value.toUTF8.toList.foldl
    (fun hash byte => (hash ^^^ byte.toNat) * 0x100000001B3 % 2 ^ 64) 0xCBF29CE484222325

/-! ## Decimal strings -/

def digitWord (chunk : List UInt8) : Nat := chunk.foldl (fun n b => n * 10 + (b.toNat - 48)) 0

def parseField (value : String) : Option Fr :=
  let bytes := value.toUTF8.toList
  let (negative, digits) := match bytes with
    | 0x2d :: digits => (true, digits)
    | _ => (false, bytes)
  if digits = [] ∨ ¬ digits.all (fun b => 48 ≤ b.toNat ∧ b.toNat ≤ 57) then none
  else
    let radix : Fr := 10000000000000000000
    let field := (digits.chunks 19).foldl (fun (field : Fr) chunk =>
      let scale := if chunk.length = 19 then radix else ((10 ^ chunk.length : Nat) : Fr)
      field * scale + (digitWord chunk : Fr)) 0
    some (if negative then -field else field)

/-! ## The value visitor -/

namespace Fields

/-- The mapped slice of the buffer and the number of values placed in it. -/
abbrev Output := List Fr × Nat

def push (out : Output) (value : Fr) : Except JsonError Output :=
  if out.2 < out.1.length then .ok (out.1.set out.2 value, out.2 + 1)
  else .error (.custom "too many input values")

mutual
def visit : Json → Output → Except JsonError Output
  | .str value, out =>
    match parseField value with
    | some field => push out field
    | none => .error (.custom "invalid decimal field value")
  | .u64 value, out => push out (value : Fr)
  | .i64 value, out =>
    let field : Fr := (value.natAbs : Fr)
    push out (if value < 0 then -field else field)
  | .f64 isZero, out =>
    if isZero then push out 0
    else .error (.custom ("JSON numbers must be integers in the 64-bit range without a fraction " ++
      "or exponent; use decimal strings for larger integers"))
  | .bool _, _ => .error (.custom "unsupported input value")
  | .null, _ => .error (.custom "unsupported input value")
  | .seq elements stop, out => visitSeq elements stop out
  | .map _ _, _ => .error (.custom "invalid type: map, expected decimal integers or arrays")
  | .broken error, _ => .error error

def visitSeq : List Json → Option JsonError → Output → Except JsonError Output
  | [], none, out => .ok out
  | [], some error, _ => .error error
  | element :: elements, stop, out =>
    match visit element out with
    | .ok out => visitSeq elements stop out
    | .error error => .error error
end

end Fields

/-! ## The object visitor -/

def maxEchoedNameBytes : Nat := 128

def boundedName (name : String) : String :=
  if name.utf8ByteSize ≤ maxEchoedNameBytes then name else "<oversized signal name>"

namespace InputObject

structure State where
  values : List Fr
  matched : List Bool

def visitMember (mappings : List InputMapping) (s : State) (name : String) (value : Json) :
    Option (Except WitnessError State) :=
  match mappings.findIdx? (fun m => m.hash = fnv1a name) with
  | none => some (.error (.unknownInput (boundedName name)))
  | some index => do
    let mapping ← mappings[index]?
    if ← s.matched[index]? then
      some (.error (.invalidInputJson
        (.custom "duplicate input signal or signal-name hash collision")))
    else
      let start := mapping.signalId
      let size := mapping.signalSize
      if s.values.length < start + size then none
      else
        match Fields.visit value ((s.values.drop start).take size, 0) with
        | .error error => some (.error (.invalidInputJson error))
        | .ok (output, count) =>
          if count ≠ size then
            some (.error (.inputLength (boundedName name) size count))
          else
            some (.ok {
              values := s.values.take start ++ output ++ s.values.drop (start + size)
              matched := s.matched.set index true })

def visitMap (mappings : List InputMapping) :
    List (String × Json) → Option JsonError → State → Option (Except WitnessError State)
  | [], none, s => some (.ok s)
  | [], some error, _ => some (.error (.invalidInputJson error))
  | (name, value) :: members, stop, s =>
    match visitMember mappings s name value with
    | none => none
    | some (.error error) => some (.error error)
    | some (.ok s) => visitMap mappings members stop s

def visit (mappings : List InputMapping) (s : State) : Json → Option (Except WitnessError State)
  | .map members stop => visitMap mappings members stop s
  | .u64 _ | .i64 _ | .f64 _ | .str _ =>
    some (.error (.invalidInputJson (.custom "witness input must be an object")))
  | .bool value =>
    some (.error (.invalidInputJson
      (.custom s!"invalid type: boolean `{value}`, expected a circuit input object")))
  | .null =>
    some (.error (.invalidInputJson (.custom "invalid type: null, expected a circuit input object")))
  | .seq _ _ =>
    some (.error (.invalidInputJson
      (.custom "invalid type: sequence, expected a circuit input object")))
  | .broken error => some (.error (.invalidInputJson error))

end InputObject

def buildInputBuffer (serde : SerdeJson) (mappings : List InputMapping) (length : Nat)
    (json : String) (limits : Limits) : Option (Except WitnessError (List Fr)) :=
  if json.utf8ByteSize > limits.inputJsonBytes then
    some (.error (.inputTooLarge limits.inputJsonBytes))
  else if length = 0 then none
  else
    let initial : InputObject.State := {
      values := (List.replicate length (0 : Fr)).set 0 1
      matched := List.replicate mappings.length false }
    match InputObject.visit mappings initial (serde.value json) with
    | none => none
    | some (.error error) => some (.error error)
    | some (.ok s) =>
      match serde.finish json with
      | .error error => some (.error (.invalidInputJson error))
      | .ok () => some (.ok s.values)

/-! ## What a decoded buffer satisfies -/

namespace Fields

theorem push_length {out out' : Output} {value : Fr} (h : push out value = .ok out') :
    out'.1.length = out.1.length := by
  unfold push at h
  split at h
  · cases h
    simp
  · cases h

mutual
theorem visit_length : ∀ (json : Json) (out out' : Output), visit json out = .ok out' →
    out'.1.length = out.1.length
  | .str value, out, out', h => by
    unfold visit at h
    split at h
    · exact push_length h
    · cases h
  | .u64 _, _, _, h => push_length (by simpa [visit] using h)
  | .i64 _, _, _, h => push_length (by simpa only [visit] using h)
  | .f64 isZero, out, out', h => by
    unfold visit at h
    split at h
    · exact push_length h
    · cases h
  | .bool _, _, _, h => by simp [visit] at h
  | .null, _, _, h => by simp [visit] at h
  | .seq elements stop, out, out', h => visitSeq_length elements stop out out' (by simpa [visit] using h)
  | .map _ _, _, _, h => by simp [visit] at h
  | .broken _, _, _, h => by simp [visit] at h

theorem visitSeq_length : ∀ (elements : List Json) (stop : Option JsonError) (out out' : Output),
    visitSeq elements stop out = .ok out' → out'.1.length = out.1.length
  | [], none, out, out', h => by
    simp only [visitSeq, Except.ok.injEq] at h
    rw [h]
  | [], some _, _, _, h => by simp [visitSeq] at h
  | element :: elements, stop, out, out', h => by
    unfold visitSeq at h
    split at h
    · rename_i out₁ hout
      rw [visitSeq_length elements stop out₁ out' h, visit_length element out out₁ hout]
    · cases h
end

end Fields

/-- The mappings of a graph whose input buffer has `length` slots. -/
def MappingsFit (mappings : List InputMapping) (length : Nat) : Prop :=
  ∀ m ∈ mappings, m.signalId + m.signalSize ≤ length

namespace InputObject

/-- A call returns normally: no out-of-range access, the state keeps its shape, and a
failure is never one of the compiler's. -/
structure Returns (mappings : List InputMapping) (length : Nat)
    (r : Option (Except WitnessError State)) : Prop where
  some : ∃ x, r = some x
  shape : ∀ s, r = .some (.ok s) → s.values.length = length ∧ s.matched.length = mappings.length
  input : ∀ e, r = .some (.error e) → e.internal = false

variable {mappings : List InputMapping} {length : Nat}

theorem Returns.error {e : WitnessError} (h : e.internal = false) :
    Returns mappings length (.some (.error e)) :=
  ⟨⟨_, rfl⟩, fun _ h => by simp at h, fun _ h' => by cases h'; exact h⟩

theorem Returns.ok {s : State} (hvalues : s.values.length = length)
    (hmatched : s.matched.length = mappings.length) : Returns mappings length (.some (.ok s)) :=
  ⟨⟨_, rfl⟩, fun _ h => by cases h; exact ⟨hvalues, hmatched⟩, fun _ h => by simp at h⟩

theorem visitMember_returns (hfit : MappingsFit mappings length) {s : State}
    (hvalues : s.values.length = length) (hmatched : s.matched.length = mappings.length)
    (name : String) (value : Json) :
    Returns mappings length (visitMember mappings s name value) := by
  unfold visitMember
  split
  · exact .error rfl
  · rename_i index hindex
    have hlt : index < mappings.length := (List.findIdx?_eq_some_iff_getElem.mp hindex).1
    have hbound := hfit _ (List.getElem_mem hlt)
    have hlt' : index < s.matched.length := by omega
    have hm : s.matched[index]? = .some s.matched[index] := List.getElem?_eq_getElem hlt'
    simp only [List.getElem?_eq_getElem hlt, hm, Option.bind_eq_bind, Option.bind_some]
    split
    · exact .error rfl
    · rw [if_neg (by omega)]
      split
      · exact .error rfl
      · rename_i output count hvisit
        have hlen := Fields.visit_length _ _ _ hvisit
        split
        · exact .error rfl
        · refine .ok ?_ (by simpa using hmatched)
          simp only [List.length_append, List.length_take, List.length_drop] at hlen ⊢
          omega

theorem visitMap_returns (hfit : MappingsFit mappings length) (members : List (String × Json))
    (stop : Option JsonError) {s : State} (hvalues : s.values.length = length)
    (hmatched : s.matched.length = mappings.length) :
    Returns mappings length (visitMap mappings members stop s) := by
  induction members generalizing s with
  | nil =>
    cases stop with
    | none => exact .ok hvalues hmatched
    | some error => exact .error rfl
  | cons member members ih =>
    obtain ⟨name, value⟩ := member
    have hstep := visitMember_returns hfit hvalues hmatched name value
    obtain ⟨x, hx⟩ := hstep.some
    unfold visitMap
    rw [hx]
    cases x with
    | error e => exact .error (hstep.input e hx)
    | ok t =>
      obtain ⟨hv, hm⟩ := hstep.shape t hx
      exact ih hv hm

theorem visit_returns (hfit : MappingsFit mappings length) {s : State} (json : Json)
    (hvalues : s.values.length = length) (hmatched : s.matched.length = mappings.length) :
    Returns mappings length (visit mappings s json) := by
  cases json with
  | map members stop => exact visitMap_returns hfit members stop hvalues hmatched
  | _ => exact .error rfl

end InputObject

/-- The buffer has the declared length, and a failure blames the input. -/
theorem buildInputBuffer_returns (serde : SerdeJson) {mappings : List InputMapping} {length : Nat}
    (hfit : MappingsFit mappings length) (hlength : length ≠ 0) (json : String) (limits : Limits) :
    ∃ r, buildInputBuffer serde mappings length json limits = some r ∧
      (∀ values, r = .ok values → values.length = length) ∧
      ∀ e, r = .error e → e.internal = false := by
  unfold buildInputBuffer
  split
  · exact ⟨_, rfl, by simp, fun e h => by cases h; rfl⟩
  · dsimp only
    generalize hinitial : InputObject.State.mk ((List.replicate length (0 : Fr)).set 0 1)
      (List.replicate mappings.length false) = initial
    have hreturns := InputObject.visit_returns hfit (s := initial) (serde.value json)
      (by simp [← hinitial]) (by simp [← hinitial])
    obtain ⟨x, hx⟩ := hreturns.some
    rw [hx]
    cases x with
    | error e =>
      refine ⟨_, rfl, by simp, fun e' h => ?_⟩
      cases h
      exact hreturns.input e hx
    | ok s =>
      cases hfinish : serde.finish json with
      | error e => exact ⟨_, rfl, by simp, fun e' h => by cases h; rfl⟩
      | ok u =>
        refine ⟨_, rfl, fun values h => ?_, by simp⟩
        cases h
        exact (hreturns.shape s hx).1

end Curvy.Witness
