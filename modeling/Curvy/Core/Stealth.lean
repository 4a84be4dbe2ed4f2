import Curvy.Core.DecimalU256
import Curvy.Core.Secp256k1
import Curvy.Lib.Hex
import Curvy.Prover.BaseField

/-!
# Stealth addresses

Spending keys live on secp256k1, viewing keys and ephemeral points on the G1 of BN254. The points
are those of the two curves; what a pairing with the generator of G2 leaves in its lowest
coefficient is a parameter. Texts that are cut or compared are given as their bytes.
-/

namespace Curvy.Stealth

set_option autoImplicit false

open Prover (Fq)
open Witness (Fr)

/-- `StealthError`. -/
structure StealthError where
  text : String
deriving DecidableEq

def err {α : Type} (text : String) : Except StealthError α := .error ⟨text⟩

/-- The points of `y² = x³ + 3`. -/
abbrev BnPoint := (JacobianMul.curve ((3 : ℕ) : Fq)).Point

theorem bn_smooth : 432 * ((3 : ℕ) : Fq) ^ 2 ≠ 0 := by
  have hcast : ((3888 : ℕ) : Fq) ≠ 0 := by
    rw [Ne, ZMod.natCast_eq_zero_iff]
    decide
  have hvalue : 432 * ((3 : ℕ) : Fq) ^ 2 = ((3888 : ℕ) : Fq) := by
    push_cast
    ring
  rw [hvalue]
  exact hcast

theorem bnGenerator_nonsingular :
    (JacobianMul.curve ((3 : ℕ) : Fq)).Nonsingular ((1 : ℤ) : Fq) ((2 : ℤ) : Fq) := by
  apply JacobianMul.nonsingular_of_equation bn_smooth
  push_cast
  ring

/-- `BnG1::generator()`. -/
def bnGenerator : BnPoint := .some _ _ bnGenerator_nonsingular

/-! ### Hex -/

inductive HexDecodeError where
  | oddLength (actual : Nat)
  | invalidCharacter (character : UInt8) (index : Nat)
  | wrongLength (expected actual : Nat)

/-- The pairs of `from_hex_exact` from `index` on. -/
def decodePairs : Nat → List UInt8 → Except HexDecodeError (List UInt8)
  | index, high :: low :: digits =>
    match Hex.nibble high, Hex.nibble low with
    | none, _ => .error (.invalidCharacter high index)
    | some _, none => .error (.invalidCharacter low (index + 1))
    | some h, some l => do
      let decoded ← decodePairs (index + 2) digits
      .ok ((h <<< 4 ||| l) :: decoded)
  | _, _ => .ok []

def fromHexExact (length : Nat) (s : List UInt8) : Except HexDecodeError (List UInt8) :=
  if s.length % 2 ≠ 0 then .error (.oddLength s.length)
  else if s.take 2 = [48, 120] ∨ s.take 2 = [48, 88] then .error (.invalidCharacter 120 1)
  else if s.length ≠ length * 2 then .error (.wrongLength length (s.length / 2))
  else decodePairs 0 s

/-! ### Points and scalars as texts -/

section Points

variable (p : ℕ)

/-- One coordinate of `parse_xy`. -/
def parseCoordinate (s : List UInt8) : Except StealthError (ZMod p) :=
  if s = [] ∨ s.length > 78 ∨ ¬ s.all (fun b => decide (Decimal.IsDigit b))
      ∨ (s.length > 1 ∧ s.head? = some 48) then
    err "point coordinates must be unsigned canonical decimals"
  else if Decimal.value s ≥ p then err "point coordinate exceeds field modulus"
  else .ok (Decimal.value s : ZMod p)

def splitOnce (separator : UInt8) : List UInt8 → Option (List UInt8 × List UInt8)
  | [] => none
  | b :: rest =>
    if b = separator then some ([], rest)
    else (splitOnce separator rest).map fun parts => (b :: parts.1, parts.2)

def parseXY (s : List UInt8) : Except StealthError (ZMod p × ZMod p) :=
  if s.length > 160 then err "point encoding exceeds 160 characters"
  else
    match splitOnce 46 s with
    | none => err "point must be X.Y"
    | some (x, y) => do
      let x ← parseCoordinate p x
      let y ← parseCoordinate p y
      .ok (x, y)

variable {p} [Fact p.Prime] {b : ZMod p}

/-- `parse_bn` and `parse_secp`: the identity is written with zeros, which satisfy no equation. -/
def parsePoint (hsmooth : 432 * b ^ 2 ≠ 0) (curve : String) (s : List UInt8) (what : String) :
    Except StealthError (JacobianMul.curve b).Point := do
  let xy ← parseXY p s
  if xy.1 = 0 ∧ xy.2 = 0 then err (what ++ " is the point at infinity")
  else if h : xy.2 ^ 2 = xy.1 ^ 3 + b then
    .ok (.some xy.1 xy.2 (JacobianMul.nonsingular_of_equation hsmooth h))
  else err (what ++ " is not on " ++ curve)

/-- `xy_bn` and `xy_secp`: the identity has no text. -/
def formatPoint : (JacobianMul.curve b).Point → Option (List UInt8)
  | .zero => none
  | .some x y _ => some (Decimal.spell x.val ++ 46 :: Decimal.spell y.val)

end Points

def parseBn (s : List UInt8) (what : String) : Except StealthError BnPoint :=
  parsePoint bn_smooth "BN254 G1" s what

def parseSecp (s : List UInt8) (what : String) : Except StealthError SecpPoint :=
  parsePoint secp_smooth "secp256k1" s what

/-- A point that has a text, or an error. -/
def pointText {p : ℕ} [Fact p.Prime] {b : ZMod p} (point : (JacobianMul.curve b).Point)
    (what : String) : Except StealthError (List UInt8) :=
  match formatPoint point with
  | some text => .ok text
  | none => err (what ++ " is the point at infinity")

def parseScalar (order : ℕ) (hex : List UInt8) (what : String) : Except StealthError (ZMod order) :=
  match fromHexExact 32 hex with
  | .error _ => err (what ++ " must be exactly 32 bytes of unprefixed hex")
  | .ok bytes =>
    let scalar : ZMod order := (beNat bytes : ZMod order)
    if scalar = 0 then err (what ++ " reduces to zero") else .ok scalar

def parseSecpScalar (hex : List UInt8) (what : String) : Except StealthError SecpFr :=
  parseScalar secpOrder hex what

def parseBnScalar (hex : List UInt8) (what : String) : Except StealthError Fr :=
  parseScalar Witness.frModulus hex what

def bnMul (point : BnPoint) (scalar : Fr) : BnPoint := scalar.val • point

def secpMul (point : SecpPoint) (scalar : SecpFr) : SecpPoint := scalar.val • point

/-! ### Keys, sending and scanning -/

/-- `view_tag`: the first two hex digits of `x`. -/
def viewTag : BnPoint → Option (List UInt8)
  | .zero => none
  | .some x _ _ => some ((Hex.spell x.val).take 2)

/-- `vt.get(..2)`: none where two bytes are no prefix or cut a character. -/
def firstTwo (text : List UInt8) : Option (List UInt8) :=
  if text.length < 2 then none
  else if text[2]?.any (fun b => decide (128 ≤ b ∧ b < 192)) then none
  else some (text.take 2)

def tagMatches (point : BnPoint) (tag : List UInt8) : Bool :=
  (firstTwo tag).any fun start => (viewTag point).any fun own => own == start

def getMeta (kHex vHex : List UInt8) : Except StealthError (List UInt8 × List UInt8) := do
  let s ← parseSecpScalar kHex "spend private key"
  let bigS := secpMul secpGenerator s
  let v ← parseBnScalar vHex "view private key"
  let bigV := bnMul bnGenerator v
  let spend ← pointText bigS "spend public key"
  let view ← pointText bigV "view public key"
  .ok (spend, view)

structure SendOutput where
  bigR : List UInt8
  viewTag : List UInt8
  spendingPubKey : List UInt8

structure ScanMatch where
  index : UInt32
  spendingPubKey : List UInt8
  spendingPrivKey : List UInt8

structure ViewerMatch where
  index : UInt32
  spendingPubKey : List UInt8

/-- What `Display` writes for a `Bn254FrError`. -/
def scalarErrorText : Bn254FrError → String
  | .invalidDecimal => "invalid unsigned decimal field element"
  | .nonCanonicalDecimal => "non-canonical decimal field element"
  | .outOfRange => "field element is greater than or equal to the BN254 modulus"

section Pairing

-- the lowest coefficient of the pairing of a point with the generator of G2
variable (pairing : BnPoint → Fq)

/-- `compute_b` of the pairing. -/
def computeB (point : BnPoint) : SecpFr := ((pairing point).val : SecpFr)

def sendWithR (rDec : String) (bigK bigV : List UInt8) : Except StealthError SendOutput :=
  match tryFromDec rDec with
  | .error error => err ("invalid ephemeral scalar r: " ++ scalarErrorText error)
  | .ok r =>
    if r = 0 then err "ephemeral r must be nonzero"
    else do
      let bigVPoint ← parseBn bigV "recipient view key V"
      let bigKPoint ← parseSecp bigK "recipient spend key K"
      let bigR := bnMul bnGenerator r
      let rv := bnMul bigVPoint r
      let spendingKey := secpMul bigKPoint (computeB pairing rv)
      let bigRText ← pointText bigR "ephemeral R"
      let tag ← match viewTag rv with
        | some tag => .ok tag
        | none => err "shared point r·V is the point at infinity"
      let spendingText ← pointText spendingKey "spending public key"
      .ok ⟨bigRText, tag, spendingText⟩

/-- What `scan` makes of one announcement, at its position. -/
def scanOne (s : SecpFr) (bigS : SecpPoint) (v : Fr)
    (announcement : (List UInt8 × List UInt8) × Nat) : Option ScanMatch :=
  match parseBn announcement.1.1 "announcement R" with
  | .error _ => none
  | .ok ri =>
    let vri := bnMul ri v
    if ¬ tagMatches vri announcement.1.2 then none
    else
      let b := computeB pairing vri
      let sb := s * b
      (formatPoint (secpMul bigS b)).map fun key =>
        ⟨UInt32.ofNat announcement.2, key, 48 :: 120 :: Hex.padded 64 sb.val⟩

def lengthError (rs viewTags : List (List UInt8)) : String :=
  "Rs.len (" ++ toString rs.length ++ ") != viewTags.len (" ++ toString viewTags.length ++ ")"

def scan (kHex vHex : List UInt8) (rs viewTags : List (List UInt8)) :
    Except StealthError (List ScanMatch) :=
  if rs.length ≠ viewTags.length then err (lengthError rs viewTags)
  else do
    let s ← parseSecpScalar kHex "spend private key"
    let bigS := secpMul secpGenerator s
    let v ← parseBnScalar vHex "view private key"
    .ok ((rs.zip viewTags).zipIdx.filterMap (scanOne pairing s bigS v))

/-- What `viewer_scan` makes of one announcement, at its position. -/
def viewOne (s : SecpPoint) (v : Fr) (announcement : (List UInt8 × List UInt8) × Nat) :
    Option ViewerMatch :=
  match parseBn announcement.1.1 "announcement R" with
  | .error _ => none
  | .ok ri =>
    let vri := bnMul ri v
    if ¬ tagMatches vri announcement.1.2 then none
    else
      (formatPoint (secpMul s (computeB pairing vri))).map fun key =>
        ⟨UInt32.ofNat announcement.2, key⟩

def viewerScan (vHex bigS : List UInt8) (rs viewTags : List (List UInt8)) :
    Except StealthError (List ViewerMatch) :=
  if rs.length ≠ viewTags.length then err (lengthError rs viewTags)
  else do
    let v ← parseBnScalar vHex "view private key"
    let s ← parseSecp bigS "spend public key S"
    .ok ((rs.zip viewTags).zipIdx.filterMap (viewOne pairing s v))

end Pairing

end Curvy.Stealth
