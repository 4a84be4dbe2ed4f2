import Curvy.Lib.Decoder
import Curvy.Prover.WtnsExact
import Curvy.Signet.Wtns

/-!
# The two witness readers agree

The validation reader takes any width-checked header and the last of several sections. On a file
that the strict reader accepts it sees the same header and the same data section.
-/

namespace Curvy.Signet.Wtns

set_option autoImplicit false

open Cursor (Slice Stands)
open Panic (word)
open Prover.Wtns (Accepts AcceptsAll IsWitnessFile Scan Section bodies bn254FieldBytes dataBody
  fileBytes fileBytes_stand headerBody readWtns)
open Witness (Fr frModulus)

/-! ## Reads -/

variable {bytes piece behind : List UInt8} {position : Nat}

theorem array_eq (hbytes : bytes.length < 2 ^ 64) (h : Stands bytes position (piece ++ behind)) :
    array bytes piece.length position = .ok (piece, position + piece.length) := by
  have hend := h.advance.1
  have hadd : checkedAdd position piece.length = some (position + piece.length) :=
    if_pos (Nat.lt_of_le_of_lt hend hbytes)
  have hget : get bytes position (position + piece.length) = some piece := by
    rw [get, if_pos ⟨Nat.le_add_right _ _, hend⟩, h.2, Nat.add_sub_cancel_left, List.take_left]
  unfold array
  rw [hadd, okOr, Option.elim_some, Fallible.ok_bind, hget, okOr, Option.elim_some]
  rfl

theorem u32_eq (hbytes : bytes.length < 2 ^ 64) {value : Nat} (hvalue : value < 2 ^ 32)
    (h : Stands bytes position (leBytes 4 value ++ behind)) :
    u32 bytes position = .ok (value, position + 4) := by
  have harray := array_eq hbytes h
  rw [leBytes_length] at harray
  have hnumber : leNat (leBytes 4 value) = value := leNat_leBytes hvalue
  rw [u32, harray, Fallible.ok_bind, hnumber]
  rfl

theorem u64_eq (hbytes : bytes.length < 2 ^ 64) {value : Nat} (hvalue : value < 2 ^ 64)
    (h : Stands bytes position (leBytes 8 value ++ behind)) :
    u64 bytes position = .ok (value, position + 8) := by
  have harray := array_eq hbytes h
  rw [leBytes_length] at harray
  have hnumber : leNat (leBytes 8 value) = value := leNat_leBytes hvalue
  rw [u64, harray, Fallible.ok_bind, hnumber]
  rfl

/-! ## The same sections -/

/-- What the validation reader has seen where the strict one has `scan`. -/
def seenOf (scan : Scan) : Seen := ⟨scan.witnessCount, scan.dataSection⟩

theorem readBody_agrees (hbytes : bytes.length < 2 ^ 64) {s : Section}
    (h : Stands bytes position (s.body ++ behind)) {scan next : Scan}
    (haccepts : Accepts scan position s next) :
    readBody bytes (seenOf scan) s.id s.body.length position = .ok (seenOf next) := by
  unfold Accepts at haccepts
  unfold readBody
  by_cases hheader : s.id = 1
  · rw [if_pos hheader] at haccepts ⊢
    obtain ⟨_, count, _, hlt, hbody, rfl⟩ := haccepts
    rw [hbody, headerBody, List.append_assoc, List.append_assoc] at h
    have h4 := h.advance
    have h36 := h4.advance
    rw [leBytes_length] at h4 h36
    rw [leBytes_length] at h36
    have hwidth : u32 bytes position = .ok (32, position + 4) := u32_eq hbytes (by decide) h
    have hmodulus := array_eq hbytes h4
    rw [leBytes_length] at hmodulus
    rw [hwidth, Fallible.ok_bind, if_neg (not_not.mpr rfl), hmodulus, Fallible.ok_bind,
      u32_eq hbytes hlt h36, Fallible.ok_bind]
    rfl
  · rw [if_neg hheader] at haccepts ⊢
    by_cases hdata : s.id = 2
    · rw [if_pos hdata] at haccepts ⊢
      rw [haccepts.2]
      rfl
    · rw [if_neg hdata] at haccepts ⊢
      rw [haccepts]

theorem readSection_agrees (hbytes : bytes.length < 2 ^ 64) {s : Section}
    (h : Stands bytes position (s.spell ++ behind)) {scan next : Scan}
    (haccepts : Accepts scan (position + 12) s next) :
    readSection bytes (seenOf scan) position = .ok (seenOf next, position + s.spell.length) := by
  obtain ⟨h4, h12, hend⟩ := Prover.Wtns.spell_stands h
  rw [Section.spell, List.append_assoc, List.append_assoc] at h
  have hstop : okOr (checkedAdd (position + 12) s.body.length) "section overruns the file" =
      .ok (position + 12 + s.body.length) := by
    rw [checkedAdd, if_pos (Nat.lt_of_le_of_lt hend.1 hbytes)]
    rfl
  rw [readSection, u32_eq hbytes s.id_lt h, Fallible.ok_bind, u64_eq hbytes s.size_lt h4,
    Fallible.ok_bind, readBody_agrees hbytes h12 haccepts, Fallible.ok_bind, hstop,
    Fallible.ok_bind, Prover.Wtns.Section.spell_length, ← Nat.add_assoc]
  rfl

theorem readSections_agrees (hbytes : bytes.length < 2 ^ 64) {sections : List Section}
    {scan next : Scan}
    (h : Stands bytes position (sections.flatMap Section.spell ++ behind))
    (hall : AcceptsAll scan position sections next) :
    readSections bytes sections.length (seenOf scan) position =
      .ok (seenOf next, position + (sections.flatMap Section.spell).length) := by
  induction sections generalizing scan position with
  | nil =>
    rw [hall]
    rfl
  | cons s sections ih =>
    obtain ⟨mid, haccepts, hall⟩ := hall
    rw [List.flatMap_cons, List.append_assoc] at h
    rw [List.length_cons, readSections, readSection_agrees hbytes h haccepts, Fallible.ok_bind,
      ih h.advance hall, List.flatMap_cons, List.length_append, Nat.add_assoc]

/-! ## The same elements -/

theorem fromLeBytesModOrder_eq (x : Fr) : fromLeBytesModOrder (leBytes 32 x.val) = x := by
  have hval : x.val < 256 ^ 32 := Nat.lt_trans (ZMod.val_lt x) (by decide)
  rw [fromLeBytesModOrder, leNat_leBytes hval, ZMod.natCast_zmod_val]

theorem readElements_agrees (hbytes : bytes.length < 2 ^ 64) {start index : Nat} {values : List Fr}
    (h : Stands bytes (start + index * 32) (dataBody values ++ behind)) :
    readElements bytes start values.length index = .ok values := by
  induction values generalizing index with
  | nil => rfl
  | cons x values ih =>
    rw [dataBody, List.flatMap_cons, List.append_assoc, ← dataBody] at h
    have hnext := h.advance
    have hend := hnext.1
    rw [leBytes_length] at hnext hend
    have hskipped : (word (index * 32) : Outcome Nat) = .ok (index * 32) := if_pos (by omega)
    have hoffset : (word (start + index * 32) : Outcome Nat) = .ok (start + index * 32) :=
      if_pos (by omega)
    have hstop : (word (start + index * 32 + 32) : Outcome Nat) = .ok (start + index * 32 + 32) :=
      if_pos (by omega)
    have hget : get bytes (start + index * 32) (start + index * 32 + 32) =
        some (leBytes 32 x.val) := by
      rw [get, if_pos ⟨Nat.le_add_right _ _, hend⟩, h.2, Nat.add_sub_cancel_left,
        List.take_left' (leBytes_length _ _)]
    have hindex : start + index * 32 + 32 = start + (index + 1) * 32 := by omega
    rw [hindex] at hnext
    rw [List.length_cons, readElements, hskipped, Fallible.ok_bind, hoffset, Fallible.ok_bind, hstop,
      Fallible.ok_bind, hget, okOr, Option.elim_some, Fallible.ok_bind, ih hnext, Fallible.ok_bind,
      fromLeBytesModOrder_eq]
    rfl

theorem read_agrees (hbytes : bytes.length < 2 ^ 64) {values : List Fr}
    (h : IsWitnessFile bytes values) : read bytes = .ok values := by
  obtain ⟨sections, trailing, hfile, hsections, hpos, hlt, hheader, hdata⟩ := h
  obtain ⟨h4, h8, h12⟩ := fileBytes_stand hfile
  obtain ⟨start, tail, hall, hstands⟩ := Prover.Wtns.acceptsAll_file hfile hpos hlt hheader hdata
  have h0 : Stands bytes 0 (fileBytes sections trailing) := by
    rw [← hfile]
    exact Stands.start bytes
  have hmagic : array bytes 4 0 = .ok ([0x77, 0x74, 0x6e, 0x73], 4) := array_eq hbytes h0
  have hversion : u32 bytes 4 = .ok (2, 8) := u32_eq hbytes (by decide) h4
  have hcount : u32 bytes 8 = .ok (sections.length, 12) := u32_eq hbytes hsections h8
  have hseen := readSections_agrees hbytes h12 hall
  have hwords : (word (values.length * 32) : Outcome Nat) = .ok (values.length * 32) :=
    if_pos (by omega)
  have hvalues : readElements bytes start values.length 0 = .ok values := by
    apply readElements_agrees hbytes
    rw [Nat.zero_mul, Nat.add_zero]
    exact hstands
  unfold read
  rw [hmagic, Fallible.ok_bind, if_neg (not_not.mpr rfl), hversion, Fallible.ok_bind,
    if_neg (not_not.mpr rfl), hcount, Fallible.ok_bind]
  change readSections bytes sections.length (seenOf .new) 12 >>= _ = _
  rw [hseen, Fallible.ok_bind]
  unfold readData seenOf
  dsimp only [okOr, Option.elim_some]
  rw [Fallible.ok_bind, Fallible.ok_bind, hwords, Fallible.ok_bind, if_neg (not_not.mpr rfl)]
  exact hvalues

/-! ## No panic -/

theorem okOr_safe {α : Type} {value : Option α} {message : String} :
    (okOr value message : Outcome α) ≠ .error .panic := by
  cases value with
  | none => exact fun h => (by cases h)
  | some a => exact fun h => (by cases h)

theorem invalid_safe {α : Type} {message : String} :
    (invalid message : Outcome α) ≠ .error .panic := fun h => (by cases h)

theorem array_safe {count : Nat} : array bytes count position ≠ .error .panic := by
  apply Panic.bind_safe okOr_safe
  intro stop _
  apply Panic.bind_safe okOr_safe
  exact fun _ _ h => (by cases h)

theorem u32_safe : u32 bytes position ≠ .error .panic := by
  apply Panic.bind_safe array_safe
  exact fun _ _ h => (by cases h)

theorem u64_safe : u64 bytes position ≠ .error .panic := by
  apply Panic.bind_safe array_safe
  exact fun _ _ h => (by cases h)

theorem readBody_safe {seen : Seen} {id size : Nat} :
    readBody bytes seen id size position ≠ .error .panic := by
  unfold readBody
  split
  · apply Panic.bind_safe u32_safe
    intro width _
    split
    · exact invalid_safe
    · apply Panic.bind_safe array_safe
      intro modulus _
      apply Panic.bind_safe u32_safe
      exact fun _ _ h => (by cases h)
  · split
    · exact fun h => (by cases h)
    · exact fun h => (by cases h)

theorem readSection_safe {seen : Seen} : readSection bytes seen position ≠ .error .panic := by
  apply Panic.bind_safe u32_safe
  intro id _
  apply Panic.bind_safe u64_safe
  intro size _
  apply Panic.bind_safe readBody_safe
  intro seen _
  apply Panic.bind_safe okOr_safe
  exact fun _ _ h => (by cases h)

theorem readSections_safe {rounds : Nat} {seen : Seen} :
    readSections bytes rounds seen position ≠ .error .panic := by
  induction rounds generalizing seen position with
  | zero => exact fun h => (by cases h)
  | succ rounds ih => exact Panic.bind_safe readSection_safe fun _ _ => ih

/-! ## What the sections leave -/

theorem okOr_ok {α : Type} {value : Option α} {message : String} {a : α}
    (h : (okOr value message : Outcome α) = .ok a) : value = some a := by
  cases value with
  | none => cases h
  | some b => rw [Except.ok.inj h]

theorem checkedAdd_some {a b stop : Nat} (h : checkedAdd a b = some stop) :
    stop = a + b ∧ stop < 2 ^ 64 := by
  unfold checkedAdd at h
  split at h
  · rename_i hlt
    rw [← Option.some.inj h]
    exact ⟨rfl, hlt⟩
  · cases h

theorem array_length {count : Nat} {read : List UInt8 × Nat}
    (h : array bytes count position = .ok read) : read.1.length ≤ count := by
  obtain ⟨stop, hstop, h⟩ := Fallible.bind_ok.mp h
  obtain ⟨value, hvalue, h⟩ := Fallible.bind_ok.mp h
  have hadd := (checkedAdd_some (okOr_ok hstop)).1
  have hget := okOr_ok hvalue
  unfold get at hget
  split at hget
  · rw [← Except.ok.inj h, ← Option.some.inj hget, hadd, Nat.add_sub_cancel_left]
    exact List.length_take_le _ _
  · cases hget

theorem u32_lt {read : Nat × Nat} (h : u32 bytes position = .ok read) : read.1 < 2 ^ 32 := by
  obtain ⟨value, hvalue, h⟩ := Fallible.bind_ok.mp h
  rw [← Except.ok.inj h]
  have hpow : 256 ^ value.1.length ≤ 256 ^ 4 := Nat.pow_le_pow_right (by omega) (array_length hvalue)
  exact Nat.lt_of_lt_of_le (leNat_lt value.1) hpow

/-- The number that was declared is a word, and the data section ends below `2 ^ 64`. -/
structure Fits (seen : Seen) : Prop where
  declared : ∀ count, seen.declared = some count → count < 2 ^ 32
  data : ∀ data, seen.data = some data → data.1 + data.2 < 2 ^ 64

/-- The end of a section is checked behind its branch, so that the record fits only then. -/
theorem readBody_fits {seen next : Seen} {id size : Nat} (hfits : Fits seen)
    (hend : position + size < 2 ^ 64) (h : readBody bytes seen id size position = .ok next) :
    Fits next := by
  unfold readBody at h
  split at h
  · obtain ⟨width, _, h⟩ := Fallible.bind_ok.mp h
    split at h
    · cases h
    · obtain ⟨modulus, _, h⟩ := Fallible.bind_ok.mp h
      obtain ⟨declared, hdeclared, h⟩ := Fallible.bind_ok.mp h
      rw [← Except.ok.inj h]
      refine ⟨fun count hcount => ?_, hfits.data⟩
      rw [← Option.some.inj hcount]
      exact u32_lt hdeclared
  · split at h
    · rw [← Except.ok.inj h]
      refine ⟨hfits.declared, fun data hdata => ?_⟩
      rw [← Option.some.inj hdata]
      exact hend
    · rw [← Except.ok.inj h]
      exact hfits

theorem readSection_fits {seen : Seen} {next : Seen × Nat} (hfits : Fits seen)
    (h : readSection bytes seen position = .ok next) : Fits next.1 := by
  obtain ⟨id, _, h⟩ := Fallible.bind_ok.mp h
  obtain ⟨size, _, h⟩ := Fallible.bind_ok.mp h
  obtain ⟨seen', hseen, h⟩ := Fallible.bind_ok.mp h
  obtain ⟨stop, hstop, h⟩ := Fallible.bind_ok.mp h
  obtain ⟨hadd, hlt⟩ := checkedAdd_some (okOr_ok hstop)
  rw [hadd] at hlt
  rw [← Except.ok.inj h]
  exact readBody_fits hfits hlt hseen

theorem readSections_fits {rounds : Nat} {seen : Seen} {next : Seen × Nat} (hfits : Fits seen)
    (h : readSections bytes rounds seen position = .ok next) : Fits next.1 := by
  induction rounds generalizing seen position with
  | zero =>
    rw [← Except.ok.inj h]
    exact hfits
  | succ rounds ih =>
    obtain ⟨mid, hmid, h⟩ := Fallible.bind_ok.mp h
    exact ih (readSection_fits hfits hmid) h

theorem readElements_safe {start rounds index : Nat}
    (hfits : start + (index + rounds) * 32 < 2 ^ 64) :
    readElements bytes start rounds index ≠ .error .panic := by
  induction rounds generalizing index with
  | zero => exact fun h => (by cases h)
  | succ rounds ih =>
    have hskipped : (word (index * 32) : Outcome Nat) = .ok (index * 32) := if_pos (by omega)
    have hoffset : (word (start + index * 32) : Outcome Nat) = .ok (start + index * 32) :=
      if_pos (by omega)
    have hstop : (word (start + index * 32 + 32) : Outcome Nat) = .ok (start + index * 32 + 32) :=
      if_pos (by omega)
    rw [readElements, hskipped, Fallible.ok_bind, hoffset, Fallible.ok_bind, hstop,
      Fallible.ok_bind]
    apply Panic.bind_safe okOr_safe
    intro encoded _
    apply Panic.bind_safe (ih (by omega))
    exact fun _ _ h => (by cases h)

theorem readData_safe {seen : Seen} (hfits : Fits seen) : readData bytes seen ≠ .error .panic := by
  apply Panic.bind_safe okOr_safe
  intro declared hdeclared
  apply Panic.bind_safe okOr_safe
  intro data hdata
  have hlt := hfits.declared declared (okOr_ok hdeclared)
  have hend := hfits.data data (okOr_ok hdata)
  have hexpected : (word (declared * 32) : Outcome Nat) = .ok (declared * 32) := if_pos (by omega)
  rw [hexpected, Fallible.ok_bind]
  split
  · exact invalid_safe
  · exact readElements_safe (by omega)

theorem read_safe : read bytes ≠ .error .panic := by
  apply Panic.bind_safe array_safe
  intro magic _
  split
  · exact invalid_safe
  · apply Panic.bind_safe u32_safe
    intro version _
    split
    · exact invalid_safe
    · apply Panic.bind_safe u32_safe
      intro sections _
      apply Panic.bind_safe readSections_safe
      intro seen hseen
      apply readData_safe
      exact readSections_fits ⟨fun _ h => (by cases h), fun _ h => (by cases h)⟩ hseen

/-! ## Both readers -/

/-- The strict reader accepts the witness files, with their elements. The other one accepts them
with the same elements, and no byte string makes it panic. -/
theorem witness_readers_agree (bytes : Slice) :
    (∀ values, readWtns bytes.val = .ok values ↔ IsWitnessFile bytes.val values) ∧
      (∀ values, readWtns bytes.val = .ok values → read bytes.val = .ok values) ∧
      read bytes.val ≠ .error .panic := by
  have hbytes : bytes.val.length < 2 ^ 64 := Nat.lt_trans bytes.2 (by decide)
  refine ⟨fun values => Prover.Wtns.readWtns_iff hbytes, fun values hread => ?_, read_safe⟩
  exact read_agrees hbytes ((Prover.Wtns.readWtns_iff hbytes).mp hread)

end Curvy.Signet.Wtns
