import Curvy.Core.Stealth

/-!
# Finding what was sent

Points survive their texts, sender and recipient meet in the shared point, and a scan treats
every announcement on its own.
-/

namespace Curvy.Stealth

set_option autoImplicit false

open Prover (Fq fqModulus)
open Witness (Fr frModulus)

/-! ### Texts of points -/

theorem splitOnce_append {separator : UInt8} {front : List UInt8} (h : separator ∉ front)
    (back : List UInt8) : splitOnce separator (front ++ separator :: back) = some (front, back) := by
  induction front with
  | nil =>
      rw [List.nil_append, splitOnce, if_pos rfl]
  | cons b front ih =>
      obtain ⟨hne, hmem⟩ := not_or.mp (List.mem_cons.not.mp h)
      rw [List.cons_append, splitOnce, if_neg (Ne.symm hne), ih hmem]
      rfl

/-- Numbers below `10 ^ 78` take at most 78 digits. -/
theorem spell_length_le {n : ℕ} (h : n < 10 ^ 78) : (Decimal.spell n).length ≤ 78 := by
  by_contra hlong
  have hle := Decimal.le_value (Decimal.spell_canonical n) (by omega)
  rw [Decimal.value_spell] at hle
  have hpow : 10 ^ 78 ≤ 10 ^ ((Decimal.spell n).length - 1) :=
    Nat.pow_le_pow_right (by omega) (by omega)
  omega

theorem parseCoordinate_spell {p n : ℕ} (hp : p ≤ 10 ^ 78) (h : n < p) :
    parseCoordinate p (Decimal.spell n) = .ok (n : ZMod p) := by
  have hlength := spell_length_le (h.trans_le hp)
  obtain ⟨⟨hne, hdigits⟩, hlead⟩ := Decimal.spell_canonical n
  have hall : (Decimal.spell n).all (fun b => decide (Decimal.IsDigit b)) = true := by
    rw [List.all_eq_true]
    intro b hb
    exact decide_eq_true (hdigits b hb)
  rw [parseCoordinate, if_neg, if_neg, Decimal.value_spell]
  · rw [Decimal.value_spell]
    omega
  · rintro (hnil | hlong | hdigit | hzero)
    · exact hne hnil
    · omega
    · exact hdigit hall
    · exact hlead hzero.1 hzero.2

theorem dot_not_mem (n : ℕ) : (46 : UInt8) ∉ Decimal.spell n := by
  intro h
  have hdigit := Decimal.spell_digits n 46 h
  exact absurd hdigit (by decide)

section Points

variable {p : ℕ} [Fact p.Prime] {b : ZMod p}

/-- A point is read back from its text. -/
theorem parsePoint_formatPoint (hsmooth : 432 * b ^ 2 ≠ 0) (hp : p ≤ 10 ^ 78) (curve : String)
    {point : (JacobianMul.curve b).Point} {text : List UInt8}
    (h : formatPoint point = some text) (what : String) :
    parsePoint hsmooth curve text what = .ok point := by
  cases point with
  | zero => cases h
  | some x y hxy =>
      cases h
      have hlengthX := spell_length_le ((ZMod.val_lt x).trans_le hp)
      have hlengthY := spell_length_le ((ZMod.val_lt y).trans_le hp)
      have hcoordinates : parseXY p (Decimal.spell x.val ++ 46 :: Decimal.spell y.val)
          = .ok (x, y) := by
        rw [parseXY, if_neg, splitOnce_append (dot_not_mem _)]
        · simp only [parseCoordinate_spell hp (ZMod.val_lt x),
            parseCoordinate_spell hp (ZMod.val_lt y), ZMod.natCast_zmod_val]
          rfl
        · rw [List.length_append, List.length_cons]
          omega
      have hequation : y ^ 2 = x ^ 3 + b := by
        have heq := (WeierstrassCurve.Affine.equation_iff _ _).mp hxy.1
        simp only [JacobianMul.curve] at heq
        linear_combination heq
      have hnonzero : ¬ (x = 0 ∧ y = 0) := by
        rintro ⟨rfl, rfl⟩
        apply hsmooth
        have hb : b = 0 := by linear_combination -hequation
        rw [hb, zero_pow (by decide), mul_zero]
      rw [parsePoint, hcoordinates]
      simp only [bind, Except.bind, if_neg hnonzero, dif_pos hequation]

theorem pointText_ok {point : (JacobianMul.curve b).Point} {what : String} {text : List UInt8} :
    pointText point what = .ok text ↔ formatPoint point = some text := by
  rw [pointText]
  cases formatPoint point with
  | none =>
      constructor
      · intro h
        cases h
      · intro h
        cases h
  | some own =>
      constructor
      · intro h
        rw [Except.ok.inj h]
      · intro h
        rw [Option.some.inj h]

end Points

theorem parseBn_formatPoint {point : BnPoint} {text : List UInt8}
    (h : formatPoint point = some text) (what : String) : parseBn text what = .ok point :=
  parsePoint_formatPoint bn_smooth (by decide) _ h what

theorem parseSecp_formatPoint {point : SecpPoint} {text : List UInt8}
    (h : formatPoint point = some text) (what : String) : parseSecp text what = .ok point :=
  parsePoint_formatPoint secp_smooth (by decide) _ h what

/-! ### What the calls have made when they succeed -/

theorem getMeta_ok {kHex vHex bigK bigV : List UInt8} (h : getMeta kHex vHex = .ok (bigK, bigV)) :
    ∃ s v, parseSecpScalar kHex "spend private key" = .ok s ∧
      parseBnScalar vHex "view private key" = .ok v ∧
      formatPoint (secpMul secpGenerator s) = some bigK ∧
      formatPoint (bnMul bnGenerator v) = some bigV := by
  unfold getMeta at h
  cases hs : parseSecpScalar kHex "spend private key" with
  | error e =>
      rw [hs] at h
      cases h
  | ok s =>
      cases hv : parseBnScalar vHex "view private key" with
      | error e =>
          rw [hs, hv] at h
          cases h
      | ok v =>
          cases hspend : pointText (secpMul secpGenerator s) "spend public key" with
          | error e =>
              rw [hs, hv] at h
              simp only [bind, Except.bind, hspend] at h
              cases h
          | ok spend =>
              cases hview : pointText (bnMul bnGenerator v) "view public key" with
              | error e =>
                  rw [hs, hv] at h
                  simp only [bind, Except.bind, hspend, hview] at h
                  cases h
              | ok view =>
                  rw [hs, hv] at h
                  simp only [bind, Except.bind, hspend, hview] at h
                  cases h
                  exact ⟨s, v, rfl, rfl, pointText_ok.mp hspend, pointText_ok.mp hview⟩

section Sending

variable {pairing : BnPoint → Fq}

theorem sendWithR_ok {rDec : String} {bigK bigV : List UInt8} {sent : SendOutput}
    (h : sendWithR pairing rDec bigK bigV = .ok sent) {spend : SecpPoint} {view : BnPoint}
    (hspend : formatPoint spend = some bigK) (hview : formatPoint view = some bigV) :
    ∃ r : Fr, formatPoint (bnMul bnGenerator r) = some sent.bigR ∧
      viewTag (bnMul view r) = some sent.viewTag ∧
      formatPoint (secpMul spend (computeB pairing (bnMul view r))) = some sent.spendingPubKey := by
  unfold sendWithR at h
  split at h
  · cases h
  · case h_2 r hr =>
      split at h
      · cases h
      · rw [parseBn_formatPoint hview, parseSecp_formatPoint hspend] at h
        simp only [bind, Except.bind] at h
        cases hbigR : pointText (bnMul bnGenerator r) "ephemeral R" with
        | error e =>
            rw [hbigR] at h
            cases h
        | ok bigR =>
            cases htag : viewTag (bnMul view r) with
            | none =>
                rw [hbigR, htag] at h
                cases h
            | some tag =>
                cases hkey : pointText (secpMul spend (computeB pairing (bnMul view r)))
                    "spending public key" with
                | error e =>
                    rw [hbigR, htag] at h
                    simp only [hkey] at h
                    cases h
                | ok key =>
                    rw [hbigR, htag] at h
                    simp only [hkey] at h
                    cases h
                    exact ⟨r, pointText_ok.mp hbigR, htag, pointText_ok.mp hkey⟩

/-! ### Scanning -/

/-- Sender and recipient multiply in either order. -/
theorem bnMul_comm (point : BnPoint) (v r : Fr) : bnMul (bnMul point r) v = bnMul (bnMul point v) r :=
  smul_comm v.val r.val point

theorem tagMatches_own {point : BnPoint} {tag : List UInt8} (htag : viewTag point = some tag)
    (hlength : tag.length = 2) : tagMatches point tag = true := by
  have hfirst : firstTwo tag = some tag := by
    have hend : tag[2]? = none := List.getElem?_eq_none (by omega)
    rw [firstTwo, if_neg (by omega), hend, if_neg (by decide), ← hlength, List.take_length]
  rw [tagMatches, hfirst, htag]
  exact beq_self_eq_true tag

/-- The one-time private key is the key of the one-time public key. -/
theorem secpMul_mul (s b : SecpFr) : (s * b).val • secpGenerator
    = secpMul (secpMul secpGenerator s) b := by
  have hwhole : (s.val * b.val / secpOrder * secpOrder) • secpGenerator = 0 := by
    rw [mul_smul, secpOrder_smul_generator]
    exact nsmul_zero _
  calc (s * b).val • secpGenerator
      = (s.val * b.val % secpOrder) • secpGenerator := by rw [ZMod.val_mul]
    _ = (s.val * b.val / secpOrder * secpOrder + s.val * b.val % secpOrder) • secpGenerator := by
        rw [add_smul, hwhole, zero_add]
    _ = secpMul (secpMul secpGenerator s) b := by
        rw [Nat.div_add_mod', mul_comm, secpMul, secpMul, smul_smul]

/-- The match without its private key. -/
def ScanMatch.viewed (found : ScanMatch) : ViewerMatch := ⟨found.index, found.spendingPubKey⟩

theorem viewOne_eq (s : SecpFr) (v : Fr) (announcement : (List UInt8 × List UInt8) × Nat) :
    viewOne pairing (secpMul secpGenerator s) v announcement =
      (scanOne pairing s (secpMul secpGenerator s) v announcement).map ScanMatch.viewed := by
  unfold viewOne scanOne
  split
  · rfl
  · dsimp only
    split
    · rfl
    · rw [Option.map_map]
      rfl

theorem scan_ok {kHex vHex : List UInt8} {s : SecpFr} {v : Fr}
    (hs : parseSecpScalar kHex "spend private key" = .ok s)
    (hv : parseBnScalar vHex "view private key" = .ok v) {rs viewTags : List (List UInt8)}
    (hlength : rs.length = viewTags.length) : scan pairing kHex vHex rs viewTags
      = .ok ((rs.zip viewTags).zipIdx.filterMap
          (scanOne pairing s (secpMul secpGenerator s) v)) := by
  rw [scan, if_neg (not_not.mpr hlength), hs, hv]
  rfl

/-- A viewer finds what a scan finds. -/
theorem viewerScan_ok {vHex bigK : List UInt8} {s : SecpFr} {v : Fr}
    (hv : parseBnScalar vHex "view private key" = .ok v)
    (hspend : formatPoint (secpMul secpGenerator s) = some bigK) {rs viewTags : List (List UInt8)}
    (hlength : rs.length = viewTags.length) : viewerScan pairing vHex bigK rs viewTags
      = .ok (((rs.zip viewTags).zipIdx.filterMap
          (scanOne pairing s (secpMul secpGenerator s) v)).map ScanMatch.viewed) := by
  rw [viewerScan, if_neg (not_not.mpr hlength), hv, parseSecp_formatPoint hspend,
    List.map_filterMap]
  have hone : viewOne pairing (secpMul secpGenerator s) v = fun announcement =>
      (scanOne pairing s (secpMul secpGenerator s) v announcement).map ScanMatch.viewed :=
    funext (viewOne_eq s v)
  rw [← hone]
  rfl

theorem scanOne_index {s : SecpFr} {bigS : SecpPoint} {v : Fr}
    {announcement : (List UInt8 × List UInt8) × Nat} {found : ScanMatch}
    (h : scanOne pairing s bigS v announcement = some found) :
    found.index = UInt32.ofNat announcement.2 := by
  unfold scanOne at h
  split at h
  · cases h
  · dsimp only at h
    split at h
    · cases h
    · obtain ⟨key, -, rfl⟩ := Option.map_eq_some_iff.mp h
      rfl

/-! ### Every sent note -/

/-- What is kept of a list splits at any position. -/
theorem filterMap_split {α β : Type} (f : α × Nat → Option β) (front : List α) (a : α)
    (back : List α) : (front ++ a :: back).zipIdx.filterMap f = front.zipIdx.filterMap f ++
      (f (a, front.length)).toList ++ (back.zipIdx (front.length + 1)).filterMap f := by
  rw [List.zipIdx_append, List.zipIdx_cons, List.filterMap_append, List.append_assoc]
  congr 1
  rw [Nat.zero_add, List.filterMap_cons]
  cases f (a, front.length) with
  | none => rfl
  | some b => rfl

theorem zip_set {α β : Type} (l : List α) (l' : List β) (j : Nat) (a : α) (b : β) :
    (l.set j a).zip (l'.set j b) = (l.zip l').set j (a, b) := by
  induction l generalizing l' j with
  | nil => simp
  | cons x l ih =>
      cases l' with
      | nil => simp
      | cons y l' =>
          cases j with
          | zero => rfl
          | succ j => exact congrArg _ (ih l' j)

/-- Another entry at one position changes what is kept there and nothing else. -/
theorem filterMap_set {α β : Type} (f : α × Nat → Option β) {l : List α} {j : Nat} (a : α)
    (hj : j < l.length) : ∃ front own back, l.zipIdx.filterMap f = front ++ own.toList ++ back ∧
      (l.set j a).zipIdx.filterMap f = front ++ (f (a, j)).toList ++ back ∧
      ∃ b, own = f (b, j) := by
  have hfront : (l.take j).length = j := List.length_take_of_le (Nat.le_of_lt hj)
  have hset : ∀ b, l.set j b = l.take j ++ b :: l.drop (j + 1) := by
    intro b
    rw [List.set_eq_take_append_cons_drop, if_pos hj]
  have hself : l = l.take j ++ l[j] :: l.drop (j + 1) := by
    rw [← hset, List.set_getElem_self]
  refine ⟨(l.take j).zipIdx.filterMap f, f (l[j], j), ((l.drop (j + 1)).zipIdx (j + 1)).filterMap f,
    ?_, ?_, _, rfl⟩
  · conv_lhs => rw [hself]
    rw [filterMap_split, hfront]
  · rw [hset, filterMap_split, hfront]

/-- The announcement of a sent note is a match, with the private key of its public key. -/
theorem scanOne_sent {s : SecpFr} {v r : Fr} {sent : SendOutput}
    (hbigR : formatPoint (bnMul bnGenerator r) = some sent.bigR)
    (htag : viewTag (bnMul (bnMul bnGenerator v) r) = some sent.viewTag)
    (hkey : formatPoint (secpMul (secpMul secpGenerator s)
      (computeB pairing (bnMul (bnMul bnGenerator v) r))) = some sent.spendingPubKey)
    (hlength : sent.viewTag.length = 2) (i : Nat) :
    ∃ found, scanOne pairing s (secpMul secpGenerator s) v ((sent.bigR, sent.viewTag), i)
        = some found ∧ found.index = UInt32.ofNat i ∧
      found.spendingPubKey = sent.spendingPubKey ∧
      formatPoint (Hex.value (found.spendingPrivKey.drop 2) • secpGenerator)
        = some found.spendingPubKey := by
  have hshared := bnMul_comm bnGenerator v r
  have hmatches := tagMatches_own htag hlength
  rw [← hshared] at hmatches
  refine ⟨⟨UInt32.ofNat i, sent.spendingPubKey, 48 :: 120 :: Hex.padded 64
    (s * computeB pairing (bnMul (bnMul bnGenerator v) r)).val⟩, ?_, rfl, rfl, ?_⟩
  · rw [scanOne, parseBn_formatPoint hbigR]
    dsimp only
    rw [if_neg (not_not.mpr hmatches), hshared, hkey]
    rfl
  · rw [List.drop_succ_cons, List.drop_succ_cons, List.drop_zero, Hex.value_padded, secpMul_mul]
    exact hkey

/-- A sent note with a whole tag is found at its position with its keys, the viewer finds the same,
and whatever stands at one position changes the result there only. -/
theorem sent_note_found {kHex vHex bigK bigV : List UInt8}
    (hmeta : getMeta kHex vHex = .ok (bigK, bigV)) {rDec : String} {sent : SendOutput}
    (hsend : sendWithR pairing rDec bigK bigV = .ok sent) (hwhole : sent.viewTag.length = 2)
    {rs viewTags : List (List UInt8)} (hlength : rs.length = viewTags.length) {i : Nat}
    (hr : rs[i]? = some sent.bigR) (ht : viewTags[i]? = some sent.viewTag) :
    ∃ found, scan pairing kHex vHex rs viewTags = .ok found ∧
      viewerScan pairing vHex bigK rs viewTags = .ok (found.map ScanMatch.viewed) ∧
      (∃ own ∈ found, own.index = UInt32.ofNat i ∧ own.spendingPubKey = sent.spendingPubKey ∧
        formatPoint (Hex.value (own.spendingPrivKey.drop 2) • secpGenerator)
          = some own.spendingPubKey) ∧
      ∀ j bigR tag, j < rs.length → ∃ front own other back,
        found = front ++ own ++ back ∧
        scan pairing kHex vHex (rs.set j bigR) (viewTags.set j tag)
          = .ok (front ++ other ++ back) ∧
        viewerScan pairing vHex bigK (rs.set j bigR) (viewTags.set j tag)
          = .ok ((front ++ other ++ back).map ScanMatch.viewed) ∧
        own.length ≤ 1 ∧ other.length ≤ 1 ∧
        ∀ found ∈ own ++ other, found.index = UInt32.ofNat j := by
  obtain ⟨s, v, hs, hv, hspend, hview⟩ := getMeta_ok hmeta
  obtain ⟨r, hbigR, htag, hkey⟩ := sendWithR_ok hsend hspend hview
  refine ⟨_, scan_ok hs hv hlength, viewerScan_ok hv hspend hlength, ?_, ?_⟩
  · obtain ⟨own, hown, hfacts⟩ := scanOne_sent hbigR htag hkey hwhole i
    refine ⟨own, ?_, hfacts⟩
    apply List.mem_filterMap.mpr
    refine ⟨((sent.bigR, sent.viewTag), i), ?_, hown⟩
    rw [List.mem_zipIdx_iff_getElem?]
    exact List.getElem?_zip_eq_some.mpr ⟨hr, ht⟩
  · intro j bigR tag hj
    have hj' : j < (rs.zip viewTags).length := by
      rw [List.length_zip]
      omega
    have hlength' : (rs.set j bigR).length = (viewTags.set j tag).length := by
      rw [List.length_set, List.length_set]
      exact hlength
    obtain ⟨front, own, back, hfound, hother, b, hown⟩ :=
      filterMap_set (scanOne pairing s (secpMul secpGenerator s) v) (bigR, tag) hj'
    refine ⟨front, own.toList, (scanOne pairing s (secpMul secpGenerator s) v
      ((bigR, tag), j)).toList, back, hfound, ?_, ?_, own.length_toList_le, Option.length_toList_le,
      ?_⟩
    · rw [scan_ok hs hv hlength', zip_set, hother]
    · rw [viewerScan_ok hv hspend hlength', zip_set, hother]
    · intro found hmem
      rcases List.mem_append.mp hmem with h | h
      · exact scanOne_index (hown ▸ Option.mem_toList.mp h)
      · exact scanOne_index (Option.mem_toList.mp h)

end Sending

/-! ### The shared point decides -/

theorem formatPoint_of_ne_zero {p : ℕ} [Fact p.Prime] {b : ZMod p}
    {point : (JacobianMul.curve b).Point} (h : point ≠ 0) :
    ∃ text, formatPoint point = some text := by
  cases point with
  | zero => exact absurd rfl h
  | some x y hxy => exact ⟨_, rfl⟩

theorem pointText_eq {p : ℕ} [Fact p.Prime] {b : ZMod p} {point : (JacobianMul.curve b).Point}
    {text : List UInt8} (h : formatPoint point = some text) (what : String) :
    pointText point what = .ok text := pointText_ok.mpr h

theorem getMeta_eq {kHex vHex bigK bigV : List UInt8} {s : SecpFr} {v : Fr}
    (hs : parseSecpScalar kHex "spend private key" = .ok s)
    (hv : parseBnScalar vHex "view private key" = .ok v)
    (hspend : formatPoint (secpMul secpGenerator s) = some bigK)
    (hview : formatPoint (bnMul bnGenerator v) = some bigV) :
    getMeta kHex vHex = .ok (bigK, bigV) := by
  rw [getMeta, hs, hv]
  simp only [bind, Except.bind, pointText_eq hspend, pointText_eq hview]

theorem sendWithR_eq {pairing : BnPoint → Fq} {rDec : String} {r : Fr} {spend : SecpPoint}
    {view : BnPoint} {bigK bigV : List UInt8} {sent : SendOutput} (hr : tryFromDec rDec = .ok r)
    (hne : r ≠ 0) (hspend : formatPoint spend = some bigK) (hview : formatPoint view = some bigV)
    (hbigR : formatPoint (bnMul bnGenerator r) = some sent.bigR)
    (htag : viewTag (bnMul view r) = some sent.viewTag)
    (hkey : formatPoint (secpMul spend (computeB pairing (bnMul view r)))
      = some sent.spendingPubKey) : sendWithR pairing rDec bigK bigV = .ok sent := by
  rw [sendWithR, hr]
  simp only [if_neg hne, parseBn_formatPoint hview, parseSecp_formatPoint hspend, bind,
    Except.bind, pointText_eq hbigR, htag, pointText_eq hkey]

/-- The key 1. -/
def oneHex : List UInt8 := List.replicate 63 48 ++ [49]

theorem parseScalar_one {order : ℕ} (h : 1 < order) (what : String) :
    parseScalar order oneHex what = .ok 1 := by
  have : Fact (1 < order) := ⟨h⟩
  have hbytes : fromHexExact 32 oneHex = .ok (List.replicate 31 0 ++ [1]) := rfl
  have hone : beNat (List.replicate 31 0 ++ [1]) = 1 := rfl
  rw [parseScalar, hbytes]
  simp only [hone, Nat.cast_one, one_ne_zero, if_false]

theorem secpMul_one (point : SecpPoint) : secpMul point 1 = point := by
  have : Fact (1 < secpOrder) := ⟨by decide⟩
  rw [secpMul, ZMod.val_one, one_smul]

theorem bnMul_one (point : BnPoint) : bnMul point 1 = point := by
  rw [bnMul, ZMod.val_one, one_smul]

/-- What the pairing with the generator of G2 has in its lowest coefficient, for the generator. -/
def coefficientOne : ℕ :=
  17264119758069723980713015158403419364912226240334615592005620718956030922389

/-- The same for twice the generator. -/
def coefficientTwo : ℕ :=
  7875962072468464035206275435797205383654885902349401986543703810748086579308

theorem computeB_val {n : ℕ} (hq : n < fqModulus) (hn : n < secpOrder) (point : BnPoint) :
    (computeB (fun _ => (n : Fq)) point).val = n := by
  rw [computeB, ZMod.val_cast_of_lt hq, ZMod.val_cast_of_lt hn]

theorem secp_multiple_ne_zero {bits n : ℕ} (hlow : 2 ^ bits ≤ n) (hhigh : n < 2 ^ (bits + 1))
    (hz : (JacobianMul.multiple secpModulus secpX secpY bits n).Z % secpModulus ≠ 0) :
    n • secpGenerator ≠ 0 :=
  JacobianMul.multiple_ne_zero secpGenerator_nonsingular bits n hlow hhigh hz

theorem secp_multiples_computed :
    (JacobianMul.multiple secpModulus secpX secpY 253 coefficientOne).Z % secpModulus ≠ 0 ∧
    (JacobianMul.multiple secpModulus secpX secpY 252 coefficientTwo).Z % secpModulus ≠ 0 := by
  decide +kernel

theorem bnGenerator_ne_zero : bnGenerator ≠ 0 :=
  WeierstrassCurve.Affine.Point.some_ne_zero bnGenerator_nonsingular

theorem secpGenerator_ne_zero : secpGenerator ≠ 0 :=
  WeierstrassCurve.Affine.Point.some_ne_zero secpGenerator_nonsingular

/-- The keys of the key 1. -/
theorem getMeta_one : ∃ bigK bigV, formatPoint secpGenerator = some bigK ∧
    formatPoint bnGenerator = some bigV ∧ getMeta oneHex oneHex = .ok (bigK, bigV) := by
  obtain ⟨bigK, hbigK⟩ := formatPoint_of_ne_zero secpGenerator_ne_zero
  obtain ⟨bigV, hbigV⟩ := formatPoint_of_ne_zero bnGenerator_ne_zero
  refine ⟨bigK, bigV, hbigK, hbigV, ?_⟩
  apply getMeta_eq (parseScalar_one (by decide) _) (parseScalar_one (by decide) _)
  · rw [secpMul_one]
    exact hbigK
  · rw [bnMul_one]
    exact hbigV

/-- Spending and viewing key 1 and `r = 1`: the shared point is the generator, whose tag is "1". -/
theorem short_tag_not_found : ∃ bigK bigV sent,
    getMeta oneHex oneHex = .ok (bigK, bigV) ∧
    sendWithR (fun _ => (coefficientOne : Fq)) "1" bigK bigV = .ok sent ∧
    scan (fun _ => (coefficientOne : Fq)) oneHex oneHex [sent.bigR] [sent.viewTag] = .ok [] := by
  obtain ⟨bigK, bigV, hbigK, hbigV, hmeta⟩ := getMeta_one
  have hkey : secpMul secpGenerator (computeB (fun _ => (coefficientOne : Fq)) bnGenerator) ≠ 0 := by
    rw [secpMul, computeB_val (by decide) (by decide)]
    exact secp_multiple_ne_zero (by decide : 2 ^ 253 ≤ coefficientOne) (by decide)
      secp_multiples_computed.1
  obtain ⟨key, hkey⟩ := formatPoint_of_ne_zero hkey
  have htag : viewTag bnGenerator = some [49] := by
    have hx : (((1 : ℤ) : Fq)).val = 1 := by
      rw [Int.cast_one, ZMod.val_one]
    rw [bnGenerator, viewTag, hx]
    rfl
  refine ⟨bigK, bigV, ⟨bigV, [49], key⟩, hmeta, ?_, ?_⟩
  · apply sendWithR_eq (r := 1) (tryFromDec_iff.mpr rfl) one_ne_zero hbigK hbigV
    · rw [bnMul_one]
      exact hbigV
    · rw [bnMul_one]
      exact htag
    · rw [bnMul_one]
      exact hkey
  · have hscan : scan (fun _ => (coefficientOne : Fq)) oneHex oneHex [bigV] [[49]]
        = .ok (([bigV].zip [[49]]).zipIdx.filterMap (scanOne (fun _ => (coefficientOne : Fq)) 1
          (secpMul secpGenerator 1) 1)) :=
      scan_ok (parseScalar_one (by decide) _) (parseScalar_one (by decide) _) rfl
    have hmiss : scanOne (fun _ => (coefficientOne : Fq)) 1 (secpMul secpGenerator 1) 1
        ((bigV, [49]), 0) = none := by
      rw [scanOne, parseBn_formatPoint hbigV]
      rfl
    refine hscan.trans ?_
    simp only [List.zip_cons_cons, List.zip_nil_left, List.zipIdx_cons, List.zipIdx_nil,
      List.filterMap_cons, hmiss, List.filterMap_nil]

theorem twice_bnGenerator : ∃ h, 2 • bnGenerator = WeierstrassCurve.Affine.Point.some
    ((1368015179489954701390400359078579693043519447331113978918064868415326638035 : ℤ) : Fq)
    ((9918110051302171585080402603319702774565515993150576347155970296011118125764 : ℤ) : Fq) h :=
  JacobianMul.multiple_eq bnGenerator_nonsingular 1 2 _ _ (by decide) (by decide)
    (by decide) (by decide) (by decide)

/-- Spending and viewing key 1 and `r = 2`, behind an announcement that is none. -/
theorem sent_note_found_example : ∃ bigK bigV sent found,
    getMeta oneHex oneHex = .ok (bigK, bigV) ∧
    sendWithR (fun _ => (coefficientTwo : Fq)) "2" bigK bigV = .ok sent ∧
    scan (fun _ => (coefficientTwo : Fq)) oneHex oneHex [[0], sent.bigR] [[255], sent.viewTag]
      = .ok found ∧
    ∃ own ∈ found, own.index = 1 ∧ own.spendingPubKey = sent.spendingPubKey := by
  obtain ⟨bigK, bigV, hbigK, hbigV, hmeta⟩ := getMeta_one
  obtain ⟨htwice, heq⟩ := twice_bnGenerator
  have htwo : ((2 : Fr)).val = 2 := rfl
  have hshared : bnMul bnGenerator 2 = 2 • bnGenerator := by rw [bnMul, htwo]
  have hkey : secpMul secpGenerator (computeB (fun _ => (coefficientTwo : Fq))
      (bnMul bnGenerator 2)) ≠ 0 := by
    rw [secpMul, computeB_val (by decide) (by decide)]
    exact secp_multiple_ne_zero (by decide : 2 ^ 252 ≤ coefficientTwo) (by decide)
      secp_multiples_computed.2
  have hne : bnMul bnGenerator 2 ≠ 0 := by
    rw [hshared, heq]
    exact WeierstrassCurve.Affine.Point.some_ne_zero htwice
  obtain ⟨key, hkey⟩ := formatPoint_of_ne_zero hkey
  obtain ⟨bigR, hbigR⟩ := formatPoint_of_ne_zero hne
  obtain ⟨tag, htag, hwhole⟩ : ∃ tag, viewTag (bnMul bnGenerator 2) = some tag ∧
      tag.length = 2 := by
    rw [hshared, heq]
    refine ⟨_, rfl, Hex.take_two_length ?_⟩
    decide
  have hsend : sendWithR (fun _ => (coefficientTwo : Fq)) "2" bigK bigV = .ok ⟨bigR, tag, key⟩ :=
    sendWithR_eq (tryFromDec_iff.mpr rfl) (by decide) hbigK hbigV hbigR htag hkey
  have hlength : [[0], bigR].length = [[255], tag].length := rfl
  have hr : [[0], bigR][1]? = some bigR := rfl
  obtain ⟨found, hscan, -, ⟨own, hmem, hindex, hspending, -⟩, -⟩ :=
    sent_note_found hmeta hsend hwhole hlength hr rfl
  exact ⟨bigK, bigV, _, found, hmeta, hsend, hscan, own, hmem, hindex, hspending⟩

end Curvy.Stealth
