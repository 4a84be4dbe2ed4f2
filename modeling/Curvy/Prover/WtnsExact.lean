import Curvy.Lib.Cursor
import Curvy.Prover.Wtns

/-!
# What the strict reader accepts

A witness file spells its sections one behind the other. The reader accepts exactly the files with
one header and one data section, wherever these stand, and returns the elements of the data
section.
-/

namespace Curvy.Prover.Wtns

set_option autoImplicit false

open Cursor (Stands)
open Fallible (bind_ok)
open Witness (Fr frModulus)

/-! ## Reads -/

variable {bytes rest : List UInt8} {position : Nat}

theorem readExact_ok (h : Stands bytes position rest) {count : Nat} {read : List UInt8 × Nat} :
    readExact bytes count position = .ok read ↔ read.1.length = count ∧
      read.2 = position + count ∧ ∃ behind, rest = read.1 ++ behind ∧ Stands bytes read.2 behind := by
  obtain ⟨piece, stop⟩ := read
  have hiff := @Stands.take_iff bytes rest piece position count h
  unfold readExact
  constructor
  · intro hread
    split at hread
    · rename_i hroom
      obtain ⟨hpiece, rfl⟩ := Prod.mk.inj (Except.ok.inj hread)
      obtain ⟨hlength, behind, hrest, hbehind⟩ := hiff.mp ⟨hroom, hpiece⟩
      exact ⟨hlength, rfl, behind, hrest, hbehind⟩
    · cases hread
  · rintro ⟨hlength, rfl, behind, hrest, hbehind⟩
    obtain ⟨hroom, hpiece⟩ := hiff.mpr ⟨hlength, behind, hrest, hbehind⟩
    rw [if_pos hroom, hpiece]

/-- What a read of a number in `length` bytes amounts to. -/
def ReadsNumber (bytes : List UInt8) (length position : Nat) (rest : List UInt8)
    (read : Nat × Nat) : Prop :=
  read.1 < 256 ^ length ∧ read.2 = position + length ∧
    ∃ behind, rest = leBytes length read.1 ++ behind ∧ Stands bytes read.2 behind

theorem readNumber_ok (h : Stands bytes position rest) {length : Nat} {read : Nat × Nat} :
    (do let read ← readExact bytes length position; return (leNat read.1, read.2)) =
      Except.ok read ↔ ReadsNumber bytes length position rest read := by
  rw [bind_ok]
  constructor
  · rintro ⟨⟨piece, stop⟩, hread, hvalue⟩
    obtain ⟨hlength, hstop, behind, hrest, hbehind⟩ := (readExact_ok h).mp hread
    have hread' : (leNat piece, stop) = read := Except.ok.inj hvalue
    subst hread'
    obtain ⟨hlt, hpiece⟩ := Cursor.leNat_iff.mp ⟨hlength, rfl⟩
    refine ⟨hlt, hstop, behind, ?_, hbehind⟩
    rw [hrest, ← hpiece]
  · rintro ⟨hlt, hstop, behind, hrest, hbehind⟩
    obtain ⟨value, stop⟩ := read
    refine ⟨(leBytes length value, stop), (readExact_ok h).mpr ?_, ?_⟩
    · exact ⟨leBytes_length _ _, hstop, behind, hrest, hbehind⟩
    · dsimp only
      rw [leNat_leBytes hlt]
      rfl

theorem readU32_ok (h : Stands bytes position rest) {read : Nat × Nat} :
    readU32 bytes position = .ok read ↔ ReadsNumber bytes 4 position rest read := readNumber_ok h

theorem readU64_ok (h : Stands bytes position rest) {read : Nat × Nat} :
    readU64 bytes position = .ok read ↔ ReadsNumber bytes 8 position rest read := readNumber_ok h

/-- Two numbers one behind the other spell one number. -/
theorem readsNumber_add (h : Stands bytes position rest) {low more : Nat} {read : Nat × Nat} :
    ReadsNumber bytes (low + more) position rest read ↔
      ∃ first, ReadsNumber bytes low position rest first ∧
        ∃ mid, Stands bytes first.2 mid ∧ ∃ second, ReadsNumber bytes more first.2 mid second ∧
          read = (first.1 + 256 ^ low * second.1, second.2) := by
  have hpos : 0 < 256 ^ low := Nat.pow_pos (by omega)
  constructor
  · rintro ⟨hlt, hstop, behind, hrest, hbehind⟩
    rw [leBytes_add, List.append_assoc, ← leBytes_mod] at hrest
    rw [Nat.pow_add] at hlt
    have hmid : Stands bytes (position + low) (leBytes more (read.1 / 256 ^ low) ++ behind) := by
      rw [hrest] at h
      have hnext := h.advance
      rwa [leBytes_length] at hnext
    refine ⟨(read.1 % 256 ^ low, position + low), ⟨Nat.mod_lt _ hpos, rfl, _, hrest, hmid⟩, _,
      hmid, (read.1 / 256 ^ low, read.2), ⟨Nat.div_lt_of_lt_mul hlt, ?_, behind, rfl, hbehind⟩, ?_⟩
    · rw [hstop, Nat.add_assoc]
    · rw [Nat.mod_add_div]
  · rintro ⟨first, ⟨hlt, hstop, behind, hrest, hbehind⟩, mid, hmid, second,
      ⟨hlt', hstop', last, hlast, hlast'⟩, rfl⟩
    have hsame : behind = mid := hbehind.2.symm.trans hmid.2
    have hlow : (first.1 + 256 ^ low * second.1) % 256 ^ low = first.1 := by
      rw [Nat.add_mul_mod_self_left, Nat.mod_eq_of_lt hlt]
    have hhigh : (first.1 + 256 ^ low * second.1) / 256 ^ low = second.1 := by
      rw [Nat.add_mul_div_left _ _ hpos, Nat.div_eq_of_lt hlt, Nat.zero_add]
    refine ⟨?_, ?_, last, ?_, hlast'⟩
    · rw [Nat.pow_add]
      calc first.1 + 256 ^ low * second.1 < 256 ^ low * (second.1 + 1) := by
            rw [Nat.mul_succ]
            omega
        _ ≤ 256 ^ low * 256 ^ more := Nat.mul_le_mul_left _ hlt'
    · dsimp only
      rw [hstop', hstop, Nat.add_assoc]
    · dsimp only
      rw [leBytes_add, hhigh, ← leBytes_mod, hlow, List.append_assoc, ← hlast, ← hsame, hrest]

theorem readBigInteger_ok (h : Stands bytes position rest) {read : Nat × Nat} :
    readBigInteger bytes position = .ok read ↔ ReadsNumber bytes 32 position rest read := by
  have hradix : 2 ^ 64 = 256 ^ 8 := by decide
  unfold readBigInteger
  rw [hradix]
  constructor
  · intro hread
    obtain ⟨w0, h0, hread⟩ := bind_ok.mp hread
    obtain ⟨w1, h1, hread⟩ := bind_ok.mp hread
    obtain ⟨w2, h2, hread⟩ := bind_ok.mp hread
    obtain ⟨w3, h3, hread⟩ := bind_ok.mp hread
    have hword0 := (readU64_ok h).mp h0
    obtain ⟨_, _, mid1, _, hmid1⟩ := id hword0
    have hword1 := (readU64_ok hmid1).mp h1
    obtain ⟨_, _, mid2, _, hmid2⟩ := id hword1
    have hword2 := (readU64_ok hmid2).mp h2
    obtain ⟨_, _, mid3, _, hmid3⟩ := id hword2
    have hword3 := (readU64_ok hmid3).mp h3
    have htop := (readsNumber_add hmid2).mpr ⟨w2, hword2, mid3, hmid3, w3, hword3, rfl⟩
    have hhigh := (readsNumber_add hmid1).mpr ⟨w1, hword1, mid2, hmid2, _, htop, rfl⟩
    have hall := (readsNumber_add h).mpr ⟨w0, hword0, mid1, hmid1, _, hhigh, rfl⟩
    rw [← Except.ok.inj hread]
    exact hall
  · intro hread
    obtain ⟨w0, hword0, mid1, hmid1, high, hhigh, rfl⟩ :=
      (@readsNumber_add bytes rest position h 8 24 read).mp hread
    obtain ⟨w1, hword1, mid2, hmid2, top, htop, rfl⟩ :=
      (@readsNumber_add bytes mid1 _ hmid1 8 16 _).mp hhigh
    obtain ⟨w2, hword2, mid3, hmid3, w3, hword3, rfl⟩ :=
      (@readsNumber_add bytes mid2 _ hmid2 8 8 _).mp htop
    rw [(readU64_ok h).mpr hword0, Fallible.ok_bind, (readU64_ok hmid1).mpr hword1,
      Fallible.ok_bind, (readU64_ok hmid2).mpr hword2, Fallible.ok_bind,
      (readU64_ok hmid3).mpr hword3, Fallible.ok_bind]
    rfl

/-! ## Sections -/

/-- A section of the file: its kind and its bytes. -/
structure Section where
  id : Nat
  body : List UInt8
  id_lt : id < 2 ^ 32
  size_lt : body.length < 2 ^ 64

namespace Section

def spell (s : Section) : List UInt8 := leBytes 4 s.id ++ (leBytes 8 s.body.length ++ s.body)

theorem spell_length (s : Section) : s.spell.length = 12 + s.body.length := by
  rw [spell, List.length_append, List.length_append, leBytes_length, leBytes_length]
  omega

end Section

/-- The body of a header section. -/
def headerBody (count : Nat) : List UInt8 :=
  leBytes 4 bn254FieldBytes ++ (leBytes 32 frModulus ++ leBytes 4 count)

theorem headerBody_length (count : Nat) : (headerBody count).length = 40 := by
  rw [headerBody, List.length_append, List.length_append, leBytes_length, leBytes_length,
    leBytes_length]

/-- What a section that starts at `start` makes of the scan. -/
def Accepts (scan : Scan) (start : Nat) (s : Section) (next : Scan) : Prop :=
  if s.id = 1 then scan.fieldBytes = none ∧ ∃ count, 0 < count ∧ count < 2 ^ 32 ∧
    s.body = headerBody count ∧
      next = { scan with fieldBytes := some bn254FieldBytes, witnessCount := some count }
  else if s.id = 2 then scan.dataSection = none ∧
    next = { scan with dataSection := some (start, s.body.length) }
  else next = scan

theorem readHeader_ok (h : Stands bytes position rest) {scan next : Scan} {size : Nat} :
    readHeader bytes scan size position = .ok next ↔ scan.fieldBytes = none ∧ size = 40 ∧
      ∃ count, 0 < count ∧ count < 2 ^ 32 ∧ (∃ behind, rest = headerBody count ++ behind) ∧
        next = { scan with fieldBytes := some bn254FieldBytes, witnessCount := some count } := by
  unfold readHeader
  constructor
  · intro hread
    split at hread
    · cases hread
    · rename_i hnone
      obtain ⟨n8, hn8, hread⟩ := bind_ok.mp hread
      obtain ⟨_, _, rest1, hrest, hrest1⟩ := (readU32_ok h).mp hn8
      split at hread
      · cases hread
      · rename_i hwidth
        rw [not_not] at hwidth
        rw [hwidth] at hread hrest
        obtain ⟨expected, hexpected, hread⟩ := bind_ok.mp hread
        have hforty : 40 = expected := Except.ok.inj hexpected
        split at hread
        · cases hread
        · rename_i hsize
          rw [not_not] at hsize
          obtain ⟨modulus, hmodulus, hread⟩ := bind_ok.mp hread
          obtain ⟨_, _, rest2, hrest1', hrest2⟩ := (readBigInteger_ok hrest1).mp hmodulus
          split at hread
          · cases hread
          · rename_i hfield
            rw [not_not] at hfield
            rw [hfield] at hrest1'
            obtain ⟨count, hcount, hread⟩ := bind_ok.mp hread
            obtain ⟨hlt, _, rest3, hrest2', _⟩ := (readU32_ok hrest2).mp hcount
            split at hread
            · cases hread
            · rename_i hpos
              refine ⟨Option.not_isSome_iff_eq_none.mp hnone, hsize.trans hforty.symm, count.1,
                Nat.pos_of_ne_zero hpos, hlt, ⟨rest3, ?_⟩, (Except.ok.inj hread).symm⟩
              rw [hrest, hrest1', hrest2', headerBody, List.append_assoc, List.append_assoc]
  · rintro ⟨hnone, rfl, count, hpos, hlt, ⟨behind, rfl⟩, rfl⟩
    rw [headerBody, List.append_assoc, List.append_assoc] at h
    have h1 := h.advance
    have h2 := h1.advance
    have h3 := h2.advance
    rw [leBytes_length] at h1 h2 h3
    rw [leBytes_length] at h2 h3
    rw [leBytes_length] at h3
    have hwidth : bn254FieldBytes < 256 ^ 4 := by decide
    have hfield : frModulus < 256 ^ 32 := by decide
    have hn8 : readU32 bytes position = .ok (bn254FieldBytes, position + 4) :=
      (readU32_ok h).mpr ⟨hwidth, rfl, _, rfl, h1⟩
    have hmodulus : readBigInteger bytes (position + 4) = .ok (frModulus, position + 4 + 32) :=
      (readBigInteger_ok h1).mpr ⟨hfield, rfl, _, rfl, h2⟩
    have hcount : readU32 bytes (position + 4 + 32) = .ok (count, position + 4 + 32 + 4) :=
      (readU32_ok h2).mpr ⟨hlt, rfl, _, rfl, h3⟩
    have hexpected : okOr (checkedAdd 8 bn254FieldBytes) .invalidHeader = .ok 40 := rfl
    rw [hnone, if_neg (by exact Bool.false_ne_true), hn8, Fallible.ok_bind, if_neg (not_not.mpr rfl),
      hexpected, Fallible.ok_bind, if_neg (not_not.mpr rfl), hmodulus, Fallible.ok_bind,
      if_neg (not_not.mpr rfl), hcount, Fallible.ok_bind, if_neg (Nat.ne_of_gt hpos)]

/-- Behind the two numbers of a section stands its body. -/
theorem spell_stands {s : Section} {behind : List UInt8}
    (h : Stands bytes position (s.spell ++ behind)) :
    Stands bytes (position + 4) (leBytes 8 s.body.length ++ (s.body ++ behind)) ∧
      Stands bytes (position + 12) (s.body ++ behind) ∧
      Stands bytes (position + 12 + s.body.length) behind := by
  rw [Section.spell, List.append_assoc, List.append_assoc] at h
  have h1 := h.advance
  rw [leBytes_length] at h1
  have h2 := h1.advance
  rw [leBytes_length] at h2
  exact ⟨h1, h2, h2.advance⟩

theorem readBody_ok {s : Section} {behind : List UInt8}
    (h : Stands bytes position (s.body ++ behind)) {scan next : Scan} :
    readBody bytes scan s.id s.body.length position = .ok next ↔ Accepts scan position s next := by
  unfold readBody Accepts
  by_cases hheader : s.id = 1
  · rw [if_pos hheader, if_pos hheader, readHeader_ok h]
    apply and_congr_right
    intro _
    constructor
    · rintro ⟨hsize, count, hpos, hlt, ⟨tail, hbody⟩, hnext⟩
      refine ⟨count, hpos, hlt, ?_, hnext⟩
      exact (List.append_inj hbody (hsize.trans (headerBody_length count).symm)).1
    · rintro ⟨count, hpos, hlt, hbody, hnext⟩
      rw [hbody]
      exact ⟨headerBody_length count, count, hpos, hlt, ⟨behind, rfl⟩, hnext⟩
  · rw [if_neg hheader, if_neg hheader]
    by_cases hdata : s.id = 2
    · rw [if_pos hdata, if_pos hdata]
      cases hseen : scan.dataSection with
      | none =>
        rw [if_neg (by exact Bool.false_ne_true), Except.ok.injEq, eq_comm, and_iff_right rfl]
      | some data =>
        rw [if_pos (by exact rfl)]
        exact ⟨fun hread => (by cases hread), fun haccepts => (by cases haccepts.1)⟩
    · rw [if_neg hdata, if_neg hdata, Except.ok.injEq, eq_comm]

theorem sectionEnd_ok (hbytes : bytes.length < 2 ^ 64) {start size stop : Nat} {error : WtnsError} :
    okOr ((checkedAdd start size).filter (· ≤ bytes.length)) error = .ok stop ↔
      stop = start + size ∧ start + size ≤ bytes.length := by
  unfold checkedAdd
  by_cases hfits : start + size < 2 ^ 64
  · rw [if_pos hfits]
    by_cases hbounds : start + size ≤ bytes.length
    · rw [Option.filter_some, if_pos (decide_eq_true hbounds), okOr, Option.elim_some,
        Except.ok.injEq, and_iff_left hbounds]
      exact eq_comm
    · rw [Option.filter_some, if_neg (by rwa [decide_eq_true_eq])]
      exact ⟨fun h => (by cases h), fun h => absurd h.2 hbounds⟩
  · rw [if_neg hfits]
    exact ⟨fun h => (by cases h), fun h => absurd (Nat.lt_of_le_of_lt h.2 hbytes) hfits⟩

/-- A round of the loop reads a section that stays within the bytes. -/
theorem readSection_ok (hbytes : bytes.length < 2 ^ 64) (h : Stands bytes position rest)
    {scan : Scan} {next : Scan × Nat} :
    readSection bytes scan position = .ok next ↔ ∃ s : Section, ∃ behind,
      rest = s.spell ++ behind ∧ Stands bytes next.2 behind ∧
        next.2 = position + s.spell.length ∧ Accepts scan (position + 12) s next.1 := by
  unfold readSection
  constructor
  · intro hread
    obtain ⟨id, hid, hread⟩ := bind_ok.mp hread
    obtain ⟨hidlt, hidstop, rest1, hrest, hrest1⟩ := (readU32_ok h).mp hid
    obtain ⟨size, hsize, hread⟩ := bind_ok.mp hread
    obtain ⟨hsizelt, hsizestop, rest2, hrest', hrest2⟩ := (readU64_ok hrest1).mp hsize
    obtain ⟨stop, hstop, hread⟩ := bind_ok.mp hread
    obtain ⟨scan', hbody, hread⟩ := bind_ok.mp hread
    obtain ⟨rfl, hbounds⟩ := (sectionEnd_ok hbytes).mp hstop
    have hnext : (scan', size.2 + size.1) = next := Except.ok.inj hread
    subst hnext
    have hroom := hrest2.length
    have hlength : (rest2.take size.1).length = size.1 := List.length_take_of_le (by omega)
    have hsplit : rest2 = rest2.take size.1 ++ rest2.drop size.1 :=
      (List.take_append_drop _ _).symm
    generalize rest2.take size.1 = body at hlength hsplit
    generalize rest2.drop size.1 = behind at hsplit
    subst hsplit
    have hspelled : rest = leBytes 4 id.1 ++ (leBytes 8 body.length ++ body) ++ behind := by
      rw [hrest, hrest', hlength, List.append_assoc, List.append_assoc]
    have hposition : size.2 = position + 12 := by omega
    rw [hposition] at hrest2
    rw [hposition, ← hlength] at hbody
    refine ⟨⟨id.1, body, hidlt, by omega⟩, behind, hspelled, ?_, ?_, ?_⟩
    · rw [hposition, ← hlength]
      exact hrest2.advance
    · rw [Section.spell_length, hposition, hlength, Nat.add_assoc]
    · exact (readBody_ok (s := ⟨id.1, body, hidlt, by omega⟩) hrest2).mp hbody
  · rintro ⟨s, behind, rfl, hbehind, hstop, haccepts⟩
    obtain ⟨h1, h2, h3⟩ := spell_stands h
    have hid : readU32 bytes position = .ok (s.id, position + 4) :=
      (readU32_ok h).mpr ⟨s.id_lt, rfl, _, by rw [Section.spell, List.append_assoc,
        List.append_assoc], h1⟩
    have hsize : readU64 bytes (position + 4) = .ok (s.body.length, position + 12) :=
      (readU64_ok h1).mpr ⟨s.size_lt, rfl, _, rfl, h2⟩
    have hend : okOr ((checkedAdd (position + 12) s.body.length).filter (· ≤ bytes.length))
        .sectionOutOfBounds = .ok (position + 12 + s.body.length) :=
      (sectionEnd_ok hbytes).mpr ⟨rfl, h3.1⟩
    have hnext : next.2 = position + 12 + s.body.length := by
      rw [hstop, Section.spell_length, Nat.add_assoc]
    rw [hid, Fallible.ok_bind, hsize, Fallible.ok_bind, hend, Fallible.ok_bind,
      (readBody_ok h2).mpr haccepts, Fallible.ok_bind, ← hnext]
    rfl

/-- What sections one behind the other make of the scan. -/
def AcceptsAll : Scan → Nat → List Section → Scan → Prop
  | scan, _, [], next => next = scan
  | scan, position, s :: sections, next => ∃ mid, Accepts scan (position + 12) s mid ∧
    AcceptsAll mid (position + s.spell.length) sections next

theorem readSections_ok (hbytes : bytes.length < 2 ^ 64) (h : Stands bytes position rest)
    {rounds : Nat} {scan : Scan} {next : Scan × Nat} :
    readSections bytes rounds scan position = .ok next ↔ ∃ sections : List Section, ∃ behind,
      sections.length = rounds ∧ rest = sections.flatMap Section.spell ++ behind ∧
        next.2 = position + (sections.flatMap Section.spell).length ∧
        AcceptsAll scan position sections next.1 := by
  induction rounds generalizing scan position rest with
  | zero =>
    rw [readSections, Except.ok.injEq]
    constructor
    · rintro rfl
      exact ⟨[], rest, rfl, rfl, rfl, rfl⟩
    · rintro ⟨sections, behind, hlength, _, hstop, haccepts⟩
      obtain rfl := List.eq_nil_of_length_eq_zero hlength
      exact Prod.ext haccepts.symm hstop.symm
  | succ rounds ih =>
    rw [readSections, bind_ok]
    constructor
    · rintro ⟨mid, hmid, hrest⟩
      obtain ⟨s, behind, rfl, hbehind, hstop, haccepts⟩ := (readSection_ok hbytes h).mp hmid
      obtain ⟨sections, last, hlength, rfl, hend, hall⟩ := (ih hbehind).mp hrest
      refine ⟨s :: sections, last, by rw [List.length_cons, hlength], ?_, ?_, mid.1, haccepts, ?_⟩
      · rw [List.flatMap_cons, List.append_assoc]
      · rw [List.flatMap_cons, List.length_append, hend, hstop, Nat.add_assoc]
      · rwa [hstop] at hall
    · rintro ⟨sections, last, hlength, rfl, hend, hall⟩
      obtain ⟨s, sections, rfl⟩ := List.exists_cons_of_length_eq_add_one hlength
      obtain ⟨mid, haccepts, hall⟩ := hall
      rw [List.flatMap_cons, List.append_assoc] at h
      have hbehind := h.advance
      refine ⟨(mid, position + s.spell.length), (readSection_ok hbytes h).mpr ?_,
        (ih hbehind).mpr ?_⟩
      · exact ⟨s, _, rfl, hbehind, rfl, haccepts⟩
      · refine ⟨sections, last, Nat.succ.inj hlength, rfl, ?_, hall⟩
        rw [hend, List.flatMap_cons, List.length_append, Nat.add_assoc]

/-! ## The header and the data section among the others -/

/-- The bodies of the sections of a kind. -/
def bodies (id : Nat) (sections : List Section) : List (List UInt8) :=
  (sections.filter fun s => s.id = id).map Section.body

/-- Where the data sections stand, and their sizes. -/
def dataStarts : Nat → List Section → List (Nat × Nat)
  | _, [] => []
  | position, s :: sections =>
    if s.id = 2 then (position + 12, s.body.length) :: dataStarts (position + s.spell.length) sections
    else dataStarts (position + s.spell.length) sections

theorem bodies_cons (id : Nat) (s : Section) (sections : List Section) :
    bodies id (s :: sections) =
      if s.id = id then s.body :: bodies id sections else bodies id sections := by
  unfold bodies
  by_cases h : s.id = id
  · simp only [h, List.filter_cons, decide_true, if_true, List.map_cons]
  · simp only [h, List.filter_cons, decide_false, Bool.false_eq_true, if_false]

def HeaderScan (scan : Scan) (sections : List Section) (next : Scan) : Prop :=
  (bodies 1 sections = [] ∧ next.fieldBytes = scan.fieldBytes ∧
    next.witnessCount = scan.witnessCount) ∨
  (scan.fieldBytes = none ∧ ∃ count, 0 < count ∧ count < 2 ^ 32 ∧
    bodies 1 sections = [headerBody count] ∧ next.fieldBytes = some bn254FieldBytes ∧
      next.witnessCount = some count)

def DataScan (scan : Scan) (position : Nat) (sections : List Section) (next : Scan) : Prop :=
  (dataStarts position sections = [] ∧ next.dataSection = scan.dataSection) ∨
  (scan.dataSection = none ∧ ∃ data, dataStarts position sections = [data] ∧
    next.dataSection = some data)

theorem acceptsAll_iff {scan next : Scan} {sections : List Section} :
    AcceptsAll scan position sections next ↔
      HeaderScan scan sections next ∧ DataScan scan position sections next := by
  induction sections generalizing scan position with
  | nil =>
    have hheader : HeaderScan scan [] next ↔
        next.fieldBytes = scan.fieldBytes ∧ next.witnessCount = scan.witnessCount := by
      constructor
      · rintro (h | ⟨_, _, _, _, h, _⟩)
        · exact h.2
        · cases h
      · exact fun h => Or.inl ⟨rfl, h⟩
    have hdata : DataScan scan position [] next ↔ next.dataSection = scan.dataSection := by
      constructor
      · rintro (h | ⟨_, _, h, _⟩)
        · exact h.2
        · cases h
      · exact fun h => Or.inl ⟨rfl, h⟩
    rw [AcceptsAll, hheader, hdata]
    cases next
    cases scan
    simp only [Scan.mk.injEq, and_assoc]
  | cons s sections ih =>
    simp only [AcceptsAll, ih]
    unfold Accepts HeaderScan DataScan
    rw [bodies_cons, dataStarts]
    by_cases hheader : s.id = 1
    · have hdata : s.id ≠ 2 := by omega
      simp only [hheader, if_true, if_neg (by decide : ¬ (1 = 2))]
      constructor
      · rintro ⟨mid, ⟨hnone, count, hpos, hlt, hbody, rfl⟩, hrest | hrest, hscan⟩
        · obtain ⟨hempty, hfield, hcount⟩ := hrest
          exact ⟨Or.inr ⟨hnone, count, hpos, hlt, by rw [hbody, hempty], hfield, hcount⟩, hscan⟩
        · cases hrest.1
      · rintro ⟨hrest | hrest, hscan⟩
        · cases hrest.1
        · obtain ⟨hnone, count, hpos, hlt, hbodies, hfield, hcount⟩ := hrest
          obtain ⟨hbody, hempty⟩ := List.cons.inj hbodies
          exact ⟨_, ⟨hnone, count, hpos, hlt, hbody, rfl⟩, Or.inl ⟨hempty, hfield, hcount⟩, hscan⟩
    · by_cases hdata : s.id = 2
      · simp only [hdata, if_neg (by decide : ¬ (2 = 1)), if_true]
        constructor
        · rintro ⟨mid, ⟨hnone, rfl⟩, hscan, hrest | hrest⟩
          · exact ⟨hscan, Or.inr ⟨hnone, _, by rw [hrest.1], hrest.2⟩⟩
          · cases hrest.1
        · rintro ⟨hscan, hrest | hrest⟩
          · cases hrest.1
          · obtain ⟨hnone, data, hstarts, hnext⟩ := hrest
            obtain ⟨hfirst, hempty⟩ := List.cons.inj hstarts
            exact ⟨_, ⟨hnone, rfl⟩, hscan, Or.inl ⟨hempty, by rw [hnext, hfirst]⟩⟩
      · simp only [hheader, hdata, if_false, exists_eq_left]

/-- The data sections stand where the scan finds them. -/
theorem dataStarts_stand {sections : List Section} {behind : List UInt8}
    (h : Stands bytes position (sections.flatMap Section.spell ++ behind)) :
    List.Forall₂ (fun body data => data.2 = body.length ∧
      ∃ tail, Stands bytes data.1 (body ++ tail)) (bodies 2 sections) (dataStarts position sections) := by
  induction sections generalizing position with
  | nil => exact List.Forall₂.nil
  | cons s sections ih =>
    rw [List.flatMap_cons, List.append_assoc] at h
    have hrest := ih h.advance
    rw [bodies_cons, dataStarts]
    by_cases hdata : s.id = 2
    · rw [if_pos hdata, if_pos hdata]
      exact List.Forall₂.cons ⟨rfl, _, (spell_stands h).2.1⟩ hrest
    · rw [if_neg hdata, if_neg hdata]
      exact hrest

/-! ## Elements -/

/-- The body of a data section. -/
def dataBody (values : List Fr) : List UInt8 := values.flatMap fun x => leBytes 32 x.val

theorem dataBody_length (values : List Fr) : (dataBody values).length = values.length * 32 := by
  induction values with
  | nil => rfl
  | cons x values ih =>
    rw [dataBody, List.flatMap_cons, List.length_append, leBytes_length, ← dataBody, ih,
      List.length_cons, Nat.succ_mul, Nat.add_comm]

theorem fromBigint_ok {value index : Nat} {x : Fr} :
    okOr (fromBigint value) (.nonCanonicalField index) = .ok x ↔ value = x.val := by
  unfold fromBigint
  by_cases hlt : value < frModulus
  · rw [if_pos hlt, okOr, Option.elim_some, Except.ok.injEq]
    constructor
    · intro hx
      rw [← hx, ZMod.val_natCast_of_lt hlt]
    · intro hvalue
      rw [hvalue, ZMod.natCast_zmod_val]
  · rw [if_neg hlt]
    constructor
    · exact fun h => (by cases h)
    · intro hvalue
      have hval := ZMod.val_lt x
      omega

theorem readElements_ok (h : Stands bytes position rest) {rounds index : Nat} {values : List Fr} :
    readElements bytes rounds index position = .ok values ↔
      values.length = rounds ∧ ∃ behind, rest = dataBody values ++ behind := by
  induction rounds generalizing index position rest values with
  | zero =>
    rw [readElements, Except.ok.injEq]
    constructor
    · intro hvalues
      rw [← hvalues]
      exact ⟨rfl, rest, rfl⟩
    · rintro ⟨hlength, _⟩
      exact (List.eq_nil_of_length_eq_zero hlength).symm
  | succ rounds ih =>
    rw [readElements, bind_ok]
    constructor
    · rintro ⟨value, hvalue, hread⟩
      obtain ⟨x, hx, hread⟩ := bind_ok.mp hread
      obtain ⟨xs, hxs, hread⟩ := bind_ok.mp hread
      obtain ⟨_, _, mid, hrest, hmid⟩ := (readBigInteger_ok h).mp hvalue
      obtain ⟨hlength, behind, hbehind⟩ := (ih hmid).mp hxs
      rw [← Except.ok.inj hread]
      refine ⟨by rw [List.length_cons, hlength], behind, ?_⟩
      rw [hrest, fromBigint_ok.mp hx, hbehind, ← List.append_assoc]
      rfl
    · rintro ⟨hlength, behind, rfl⟩
      obtain ⟨x, xs, rfl⟩ := List.exists_cons_of_length_eq_add_one hlength
      rw [dataBody, List.flatMap_cons, List.append_assoc, ← dataBody] at h
      have hmid := h.advance
      rw [leBytes_length] at hmid
      have hval : x.val < 256 ^ 32 := Nat.lt_trans (ZMod.val_lt x) (by decide)
      have hvalue : readBigInteger bytes position = .ok (x.val, position + 32) :=
        (readBigInteger_ok h).mpr ⟨hval, rfl, _, rfl, hmid⟩
      have hxs : readElements bytes rounds (index + 1) (position + 32) = .ok xs :=
        (ih hmid).mpr ⟨Nat.succ.inj hlength, behind, rfl⟩
      refine ⟨_, hvalue, ?_⟩
      rw [fromBigint_ok.mpr rfl, Fallible.ok_bind, hxs, Fallible.ok_bind]
      rfl

/-! ## Files -/

/-- A file in version 2 whose sections are `sections`, with anything behind them. -/
def fileBytes (sections : List Section) (trailing : List UInt8) : List UInt8 :=
  magic ++ (leBytes 4 wtnsVersion ++ (leBytes 4 sections.length ++
    (sections.flatMap Section.spell ++ trailing)))

/-- The bytes are a witness file of the elements: among its sections are one header, which
declares their number, and one data section, which holds them. -/
def IsWitnessFile (bytes : List UInt8) (values : List Fr) : Prop :=
  ∃ sections trailing, bytes = fileBytes sections trailing ∧ sections.length < 2 ^ 32 ∧
    0 < values.length ∧ values.length < 2 ^ 32 ∧
    bodies 1 sections = [headerBody values.length] ∧ bodies 2 sections = [dataBody values]

theorem fileBytes_stand {sections : List Section} {trailing : List UInt8}
    (h : bytes = fileBytes sections trailing) :
    Stands bytes 4 (leBytes 4 wtnsVersion ++ (leBytes 4 sections.length ++
        (sections.flatMap Section.spell ++ trailing))) ∧
      Stands bytes 8 (leBytes 4 sections.length ++
        (sections.flatMap Section.spell ++ trailing)) ∧
      Stands bytes 12 (sections.flatMap Section.spell ++ trailing) := by
  have h0 := Stands.start bytes
  rw [h, fileBytes] at h0
  have h4 := h0.advance
  rw [← fileBytes, ← h] at h4
  have h8 := h4.advance
  have h12 := h8.advance
  rw [leBytes_length] at h8 h12
  rw [leBytes_length] at h12
  exact ⟨h4, h8, h12⟩

/-- The scan of the sections of a witness file. -/
theorem acceptsAll_file {sections : List Section} {trailing : List UInt8} {values : List Fr}
    (h : bytes = fileBytes sections trailing) (hpos : 0 < values.length)
    (hlt : values.length < 2 ^ 32) (hheader : bodies 1 sections = [headerBody values.length])
    (hdata : bodies 2 sections = [dataBody values]) :
    ∃ start tail, AcceptsAll .new 12 sections
        ⟨some bn254FieldBytes, some values.length, some (start, values.length * 32)⟩ ∧
      Stands bytes start (dataBody values ++ tail) := by
  have hstarts := dataStarts_stand (fileBytes_stand h).2.2
  rw [hdata] at hstarts
  obtain ⟨data, others, ⟨hsize, tail, hstands⟩, hnil, heq⟩ := List.forall₂_cons_left_iff.mp hstarts
  rw [List.forall₂_nil_left_iff.mp hnil] at heq
  rw [dataBody_length] at hsize
  refine ⟨data.1, tail, acceptsAll_iff.mpr ⟨?_, ?_⟩, hstands⟩
  · exact Or.inr ⟨rfl, values.length, hpos, hlt, hheader, rfl, rfl⟩
  · exact Or.inr ⟨rfl, data, heq, by rw [← hsize]⟩

theorem readData_ok {start count size : Nat} {body tail : List UInt8} (hlt : count < 2 ^ 32)
    (h : Stands bytes start (body ++ tail)) (hsize : size = body.length) {values : List Fr} :
    readData bytes ⟨some bn254FieldBytes, some count, some (start, size)⟩ = .ok values ↔
      values.length = count ∧ body = dataBody values := by
  have hexpected : okOr (checkedMul count bn254FieldBytes) .sectionOutOfBounds =
      .ok (count * 32) := by
    have hfits : count * bn254FieldBytes < 2 ^ 64 := by
      unfold bn254FieldBytes
      omega
    rw [checkedMul, if_pos hfits, okOr, Option.elim_some]
    rfl
  have hread : readData bytes ⟨some bn254FieldBytes, some count, some (start, size)⟩ =
      if size ≠ count * 32 then .error .sectionOutOfBounds
      else readElements bytes count 0 start := by
    unfold readData
    dsimp only [okOr, Option.elim_some] at hexpected ⊢
    rw [Fallible.ok_bind, Fallible.ok_bind, Fallible.ok_bind, hexpected, Fallible.ok_bind]
  rw [hread]
  constructor
  · intro hvalues
    split at hvalues
    · cases hvalues
    · rename_i hfull
      rw [not_not] at hfull
      obtain ⟨hlength, behind, hbehind⟩ := (readElements_ok h).mp hvalues
      refine ⟨hlength, (List.append_inj hbehind ?_).1⟩
      rw [dataBody_length, hlength, ← hfull, hsize]
  · rintro ⟨hlength, hbody⟩
    have hfull : size = count * 32 := by rw [hsize, hbody, dataBody_length, hlength]
    rw [if_neg (not_not.mpr hfull)]
    exact (readElements_ok h).mpr ⟨hlength, tail, by rw [hbody]⟩

/-- A scan that leads to elements has seen both sections. -/
theorem readData_seen {scan : Scan} {values : List Fr} (h : readData bytes scan = .ok values) :
    scan.fieldBytes ≠ none ∧ scan.dataSection ≠ none := by
  obtain ⟨_, hfield, h⟩ := bind_ok.mp h
  obtain ⟨_, _, h⟩ := bind_ok.mp h
  obtain ⟨_, hdata, _⟩ := bind_ok.mp h
  constructor
  · intro hnone
    rw [hnone] at hfield
    cases hfield
  · intro hnone
    rw [hnone] at hdata
    cases hdata

/-- What a scan that leads to elements has seen. -/
theorem scanned_file {sections : List Section} {trailing : List UInt8} {scan : Scan}
    (hstands : Stands bytes position (sections.flatMap Section.spell ++ trailing))
    (hall : AcceptsAll .new position sections scan) {values : List Fr}
    (hread : readData bytes scan = .ok values) :
    0 < values.length ∧ values.length < 2 ^ 32 ∧ bodies 1 sections = [headerBody values.length] ∧
      bodies 2 sections = [dataBody values] := by
  obtain ⟨hseen, hseen'⟩ := readData_seen hread
  obtain ⟨hheader, hdata⟩ := acceptsAll_iff.mp hall
  rcases hheader with ⟨_, hnone, _⟩ | ⟨_, count, hpos, hlt, hheader, hfield, hcount⟩
  · exact absurd hnone hseen
  · rcases hdata with ⟨_, hnone⟩ | ⟨_, data, hstarts, hdata⟩
    · exact absurd hnone hseen'
    · have hbodies := dataStarts_stand hstands
      rw [hstarts] at hbodies
      obtain ⟨body, others, ⟨hsize, tail, hbody⟩, hnil, heq⟩ :=
        List.forall₂_cons_right_iff.mp hbodies
      rw [List.forall₂_nil_right_iff.mp hnil] at heq
      obtain ⟨field, number, place⟩ := scan
      dsimp only at hfield hcount hdata
      subst hfield hcount hdata
      obtain ⟨hlength, hvalues⟩ := (readData_ok hlt hbody hsize).mp hread
      rw [hlength]
      exact ⟨hpos, hlt, hheader, by rw [heq, hvalues]⟩

theorem readWtns_iff (hbytes : bytes.length < 2 ^ 64) {values : List Fr} :
    readWtns bytes = .ok values ↔ IsWitnessFile bytes values := by
  have h0 := Stands.start bytes
  unfold readWtns
  constructor
  · intro hread
    obtain ⟨start, hstart, hread⟩ := bind_ok.mp hread
    obtain ⟨_, _, rest1, hrest0, hrest1⟩ := (readExact_ok h0).mp hstart
    split at hread
    · cases hread
    · rename_i hmagic
      rw [not_not] at hmagic
      obtain ⟨version, hversion, hread⟩ := bind_ok.mp hread
      obtain ⟨_, _, rest2, hrest1', hrest2⟩ := (readU32_ok hrest1).mp hversion
      split at hread
      · cases hread
      · rename_i hversion2
        rw [not_not] at hversion2
        obtain ⟨count, hcount, hread⟩ := bind_ok.mp hread
        obtain ⟨hlt, _, rest3, hrest2', hrest3⟩ := (readU32_ok hrest2).mp hcount
        obtain ⟨scanned, hscanned, hread⟩ := bind_ok.mp hread
        obtain ⟨sections, trailing, hlength, hrest3', _, hall⟩ :=
          (readSections_ok hbytes hrest3).mp hscanned
        have hfile : bytes = fileBytes sections trailing := by
          rw [hrest0, hmagic, hrest1', hversion2, hrest2', hrest3', ← hlength, fileBytes]
        obtain ⟨hpos, hlt', hheader, hdata⟩ := scanned_file (hrest3' ▸ hrest3) hall hread
        exact ⟨sections, trailing, hfile, hlength ▸ hlt, hpos, hlt', hheader, hdata⟩
  · rintro ⟨sections, trailing, hfile, hsections, hpos, hlt, hheader, hdata⟩
    obtain ⟨h4, h8, h12⟩ := fileBytes_stand hfile
    obtain ⟨start, tail, hall, hstands⟩ := acceptsAll_file hfile hpos hlt hheader hdata
    have hversion : wtnsVersion < 256 ^ 4 := by decide
    have hmagic : readExact bytes 4 0 = .ok (magic, 4) :=
      (readExact_ok h0).mpr ⟨rfl, rfl, _, hfile, h4⟩
    have hread : readU32 bytes 4 = .ok (wtnsVersion, 8) :=
      (readU32_ok h4).mpr ⟨hversion, rfl, _, rfl, h8⟩
    have hcount : readU32 bytes 8 = .ok (sections.length, 12) :=
      (readU32_ok h8).mpr ⟨hsections, rfl, _, rfl, h12⟩
    have hscanned := (@readSections_ok bytes _ 12 hbytes h12 sections.length .new
      (⟨some bn254FieldBytes, some values.length, some (start, values.length * 32)⟩,
        12 + (sections.flatMap Section.spell).length)).mpr
      ⟨sections, trailing, rfl, rfl, rfl, hall⟩
    rw [hmagic, Fallible.ok_bind, if_neg (not_not.mpr rfl), hread, Fallible.ok_bind,
      if_neg (not_not.mpr rfl), hcount, Fallible.ok_bind, hscanned, Fallible.ok_bind]
    exact (readData_ok hlt hstands (dataBody_length values).symm).mpr ⟨rfl, rfl⟩

end Curvy.Prover.Wtns
