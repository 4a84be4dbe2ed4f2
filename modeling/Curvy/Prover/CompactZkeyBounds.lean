import Curvy.Prover.CompactZkeyDecode

/-!
# Bounds of the compact zkey decoder

The tables are read exactly as they are spelled, and their sum bounds every size that follows.
The decoder then panics in one place only: where the payload reaches a coefficient section
declared shorter than its own count field.
-/

namespace Curvy.Prover.CompactZkey

set_option autoImplicit false

open Decoder

/-! ### The tables -/

/-- The header of a compact file. -/
def spellFileHeader (zkeySha256 : List UInt8) (zkeyBytes : Nat) : List UInt8 :=
  magic ++ (zkeySha256 ++ leBytes 8 zkeyBytes)

theorem readFileHeader_computes (maxZkeyBytes : Nat) :
    Computes (readFileHeader maxZkeyBytes) fun piece header => header.1.length = 32 ∧
      header.2 < 2 ^ 64 ∧ header.2 ≤ maxZkeyBytes ∧ piece = spellFileHeader header.1 header.2 := by
  unfold readFileHeader
  refine ((readExact_computes none headerBytes).bind (S := fun header back result =>
    ¬ header.take 8 ≠ magic ∧ ¬ leNat ((header.drop 40).take 8) > maxZkeyBytes ∧
      back = [] ∧ result = ((header.drop 8).take 32, leNat ((header.drop 40).take 8))) ?_).congr ?_
  · rintro piece _ ⟨hlength, rfl⟩
    refine .refuse fun _ => .value (intAt_of_le (by rw [hlength, headerBytes])) ?_
    exact .refuse fun _ => .pure _
  · rintro piece ⟨sha, zkeyBytes⟩
    constructor
    · rintro ⟨_, header, _, ⟨hlength, rfl⟩, ⟨hmagic, hmax, rfl, hresult⟩, rfl⟩
      obtain ⟨rfl, rfl⟩ := Prod.mk.inj hresult
      rw [headerBytes] at hlength
      have hlast : ((header.drop 40).take 8).length = 8 := by
        rw [List.length_take, List.length_drop, hlength]
        rfl
      refine ⟨by rw [List.length_take, List.length_drop, hlength]; rfl, ?_, Nat.not_lt.mp hmax, ?_⟩
      · have hlt := leNat_lt ((header.drop 40).take 8)
        rw [hlast] at hlt
        exact hlt
      · have hbytes := leBytes_leNat ((header.drop 40).take 8)
        rw [hlast] at hbytes
        have htail : (header.drop 40).take 8 = header.drop 40 :=
          List.take_of_length_le (by rw [List.length_drop, hlength])
        rw [spellFileHeader, hbytes, htail, ← not_not.mp hmagic, List.append_nil]
        have hsplit := List.take_append_drop 32 (header.drop 8)
        rw [List.drop_drop] at hsplit
        rw [hsplit, List.take_append_drop]
    · rintro ⟨hsha, hword, hmax, rfl⟩
      have hmagic : magic.length = 8 := rfl
      have hfront : (magic ++ sha).length = 40 := by rw [List.length_append, hmagic, hsha]
      have htake : (spellFileHeader sha zkeyBytes).take 8 = magic := List.take_left' hmagic
      have hdigest : ((spellFileHeader sha zkeyBytes).drop 8).take 32 = sha := by
        rw [spellFileHeader, List.drop_left' hmagic, List.take_left' hsha]
      have hvalue : leNat (((spellFileHeader sha zkeyBytes).drop 40).take 8) = zkeyBytes := by
        rw [spellFileHeader, ← List.append_assoc, List.drop_left' hfront,
          List.take_of_length_le (by rw [leBytes_length]), leNat_leBytes hword]
      refine ⟨_, _, [], ⟨?_, rfl⟩, ⟨not_not.mpr htake, ?_, rfl, ?_⟩, (List.append_nil _).symm⟩
      · rw [spellFileHeader, ← List.append_assoc, List.length_append, hfront, leBytes_length]
        rfl
      · rw [hvalue]
        exact Nat.not_lt.mpr hmax
      · rw [hdigest, hvalue]

theorem fromTag_eq {tag : UInt8} {encoding : SectionEncoding} :
    SectionEncoding.fromTag tag = some encoding ↔ tag = encoding.tag := by
  unfold SectionEncoding.fromTag
  constructor
  · intro h
    repeat (split at h; · cases h; assumption)
    cases h
  · rintro rfl
    cases encoding <;> rfl

theorem entryEncoding_ok {tag : UInt8} {encoding : SectionEncoding} :
    entryEncoding tag = .ok encoding ↔ tag = encoding.tag := by
  rw [← fromTag_eq]
  unfold entryEncoding fail
  split <;> simp [*]

theorem entryEncoding_safe {tag : UInt8} : entryEncoding tag ≠ .error .panic := by
  unfold entryEncoding fail
  split <;> exact fun h => by cases h

/-- An entry of the table that is read back as it is spelled. -/
structure EntryFits (entry : CompactSection) : Prop where
  id : entry.id < 2 ^ 32
  zkeyBytes : entry.zkeyBytes < 2 ^ 64
  whole : entry.zkeyBytes % entry.encoding.unit = 0

theorem spellEntry_length (entry : CompactSection) : (spellEntry entry).length = sectionEntryBytes := by
  simp [spellEntry, sectionEntryBytes]

/-- The three fields of an entry, by offset. -/
theorem spellEntry_fields {bytes : List UInt8} (hlength : bytes.length = sectionEntryBytes) :
    ∃ tag, bytes[12]? = some tag ∧ bytes = leBytes 4 (leNat ((bytes.drop 0).take 4)) ++
      leBytes 8 (leNat ((bytes.drop 4).take 8)) ++ [tag] := by
  rw [sectionEntryBytes] at hlength
  have hid : (bytes.take 4).length = 4 := by
    rw [List.length_take, hlength]
    rfl
  have hsize : ((bytes.drop 4).take 8).length = 8 := by
    rw [List.length_take, List.length_drop, hlength]
    rfl
  have hid' := leBytes_leNat (bytes.take 4)
  have hsize' := leBytes_leNat ((bytes.drop 4).take 8)
  rw [hid] at hid'
  rw [hsize] at hsize'
  obtain ⟨tag, htag⟩ := List.length_eq_one_iff.mp
    (show (bytes.drop 12).length = 1 by rw [List.length_drop, hlength])
  refine ⟨tag, ?_, ?_⟩
  · have hget : (bytes.drop 12)[0]? = bytes[12 + 0]? := List.getElem?_drop
    rw [htag] at hget
    exact hget.symm
  · have htail := List.take_append_drop 8 (bytes.drop 4)
    rw [List.drop_drop, htag] at htail
    rw [List.drop_zero, hid', hsize', List.append_assoc, htail, List.take_append_drop]

theorem readEntry_computes (failure : Option IoError) :
    Computes (readEntry failure) fun piece entry => EntryFits entry ∧ piece = spellEntry entry := by
  unfold readEntry
  refine ((readExact_computes failure sectionEntryBytes).bind (S := fun bytes back entry =>
    ∃ tag, expect bytes[12]? = .ok tag ∧ ∃ encoding, entryEncoding tag = .ok encoding ∧
      ¬ leNat ((bytes.drop 4).take 8) % encoding.unit ≠ 0 ∧ back = [] ∧
        entry = ⟨leNat ((bytes.drop 0).take 4), leNat ((bytes.drop 4).take 8), encoding⟩) ?_).congr ?_
  · rintro piece _ ⟨hlength, rfl⟩
    obtain ⟨tag, htag, _⟩ := spellEntry_fields hlength
    rw [sectionEntryBytes] at hlength
    refine .value (intAt_of_le (by omega)) (.value (intAt_of_le (by omega)) ?_)
    refine .call (by rw [htag]; exact fun h => by cases h) fun tag _ => ?_
    exact .call entryEncoding_safe fun encoding _ => .refuse fun _ => .pure _
  · intro piece entry
    constructor
    · rintro ⟨_, bytes, _, ⟨hlength, rfl⟩, ⟨tag, htag, encoding, hencoding, hwhole, rfl, rfl⟩, rfl⟩
      obtain ⟨tag', htag', hbytes⟩ := spellEntry_fields hlength
      obtain rfl := Option.some.inj (htag'.symm.trans (Panic.expect_ok.mp htag))
      obtain rfl := entryEncoding_ok.mp hencoding
      refine ⟨⟨Nat.lt_of_lt_of_le (leNat_lt _)
          (Nat.pow_le_pow_right (by decide) (List.length_take_le 4 _)),
        Nat.lt_of_lt_of_le (leNat_lt _)
          (Nat.pow_le_pow_right (by decide) (List.length_take_le 8 _)), not_not.mp hwhole⟩, ?_⟩
      rw [List.append_nil, spellEntry]
      exact hbytes
    · rintro ⟨hfits, rfl⟩
      have hid : (leBytes 4 entry.id).length = 4 := leBytes_length _ _
      have hfront : (leBytes 4 entry.id ++ leBytes 8 entry.zkeyBytes).length = 12 := by
        rw [List.length_append, leBytes_length, leBytes_length]
      have hvalue : leNat (((spellEntry entry).drop 0).take 4) = entry.id := by
        rw [List.drop_zero, spellEntry, List.append_assoc, List.take_left' hid, leNat_leBytes hfits.id]
      have hvalue' : leNat (((spellEntry entry).drop 4).take 8) = entry.zkeyBytes := by
        rw [spellEntry, List.append_assoc, List.drop_left' hid,
          List.take_left' (leBytes_length _ _), leNat_leBytes hfits.zkeyBytes]
      have htag : (spellEntry entry)[12]? = some entry.encoding.tag := by
        rw [spellEntry, List.getElem?_append_right (by rw [hfront]), hfront]
        rfl
      refine ⟨_, _, [], ⟨spellEntry_length entry, rfl⟩, ⟨_, Panic.expect_ok.mpr htag, entry.encoding,
        entryEncoding_ok.mpr rfl, ?_, rfl, ?_⟩, (List.append_nil _).symm⟩
      · rw [hvalue', hfits.whole]
        exact fun h => h rfl
      · rw [hvalue, hvalue']

/-- What the sections of a table add to a zkey. -/
def tableBytes (entries : List CompactSection) : Nat :=
  (entries.map fun entry => zkeySectionHeaderBytes + entry.zkeyBytes).sum

theorem tableBytes_cons (entry : CompactSection) (entries : List CompactSection) :
    tableBytes (entry :: entries) = zkeySectionHeaderBytes + entry.zkeyBytes + tableBytes entries := by
  rw [tableBytes, List.map_cons, List.sum_cons, tableBytes]

theorem readEntries_computes (failure : Option IoError) (count : Nat) {total : Nat}
    (htotal : total < 2 ^ 64) : Computes (readEntries failure count total) fun piece result =>
      (∀ entry ∈ result.1, EntryFits entry) ∧ result.1.length = count ∧
        result.2 = total + tableBytes result.1 ∧ result.2 < 2 ^ 64 ∧
          piece = result.1.flatMap spellEntry := by
  induction count generalizing total with
  | zero =>
    refine (Computes.pure _).congr ?_
    rintro piece ⟨entries, total'⟩
    constructor
    · rintro ⟨rfl, h⟩
      obtain ⟨rfl, rfl⟩ := Prod.mk.inj h
      exact ⟨by simp, rfl, rfl, htotal, rfl⟩
    · rintro ⟨_, hlength, htotal', _, rfl⟩
      obtain rfl := List.eq_nil_of_length_eq_zero hlength
      exact ⟨rfl, Prod.ext rfl htotal'⟩
  | succ count ih =>
    rw [readEntries]
    refine ((readEntry_computes failure).bind fun _ entry _ => .refuse fun hfits =>
      (ih (Nat.not_le.mp hfits)).bind fun _ result _ => .pure _).congr ?_
    rintro piece ⟨entries, total'⟩
    constructor
    · rintro ⟨front, entry, back, ⟨hentry, rfl⟩, ⟨_, front', result, _, ⟨hall, hcount, htotal', hword, rfl⟩,
        ⟨rfl, h⟩, rfl⟩, rfl⟩
      obtain ⟨rfl, rfl⟩ := Prod.mk.inj h
      refine ⟨List.forall_mem_cons.mpr ⟨hentry, hall⟩, by rw [List.length_cons, hcount], ?_, hword, ?_⟩
      · rw [htotal', tableBytes_cons]
        omega
      · rw [List.flatMap_cons, List.append_nil]
    · rintro ⟨hall, hcount, htotal', hword, rfl⟩
      dsimp only at hall hcount htotal' hword
      subst htotal'
      obtain ⟨entry, entries, rfl⟩ := List.exists_cons_of_length_eq_add_one hcount
      obtain ⟨hentry, hentries⟩ := List.forall_mem_cons.mp hall
      rw [tableBytes_cons] at hword
      refine ⟨_, entry, _, ⟨hentry, rfl⟩, ⟨by omega, _,
        ⟨entries, total + zkeySectionHeaderBytes + entry.zkeyBytes + tableBytes entries⟩, [],
        ⟨hentries, ?_, rfl, ?_, rfl⟩, ⟨rfl, ?_⟩, (List.append_nil _).symm⟩, List.flatMap_cons⟩
      · simpa using hcount
      · dsimp only
        omega
      · dsimp only
        rw [tableBytes_cons]
        congr 1
        omega

/-- A table that adds up to the declared length. -/
structure TableFits (zkeyBytes version : Nat) (entries : List CompactSection) : Prop where
  version : version < 2 ^ 32
  fit : ∀ entry ∈ entries, EntryFits entry
  count : entries.length ≤ maxSections
  total : zkeyHeaderBytes + tableBytes entries = zkeyBytes
  word : zkeyBytes < 2 ^ 64

def spellTable (version : Nat) (entries : List CompactSection) : List UInt8 :=
  leBytes 4 version ++ (leBytes 4 entries.length ++ entries.flatMap spellEntry)

theorem length_le_tableBytes (entries : List CompactSection) :
    entries.length * zkeySectionHeaderBytes ≤ tableBytes entries := by
  induction entries with
  | nil => simp [tableBytes]
  | cons entry entries ih =>
    rw [tableBytes_cons, List.length_cons, Nat.succ_mul]
    omega

theorem readBodyHeader_computes (failure : Option IoError) (zkeyBytes : Nat) :
    Computes (readBodyHeader failure zkeyBytes) fun piece table =>
      TableFits zkeyBytes table.1 table.2 ∧ piece = spellTable table.1 table.2 := by
  unfold readBodyHeader
  refine ((readExact_computes failure bodyHeaderBytes).bind (S := fun header back table =>
    ¬ leNat ((header.drop 4).take 4) > maxSections ∧
      ¬ leNat ((header.drop 4).take 4) > (zkeyBytes - zkeyHeaderBytes) / zkeySectionHeaderBytes ∧
        ∃ (front : List UInt8) (result : List CompactSection × Nat) (rest : List UInt8),
          ((∀ entry ∈ result.1, EntryFits entry) ∧
          result.1.length = leNat ((header.drop 4).take 4) ∧
            result.2 = zkeyHeaderBytes + tableBytes result.1 ∧ result.2 < 2 ^ 64 ∧
              front = result.1.flatMap spellEntry) ∧
          (¬ result.2 ≠ zkeyBytes ∧ rest = [] ∧ table = (leNat ((header.drop 0).take 4), result.1)) ∧
            back = front ++ rest) ?_).congr ?_
  · rintro piece _ ⟨hlength, rfl⟩
    rw [bodyHeaderBytes] at hlength
    refine .value (intAt_of_le (by omega)) (.value (intAt_of_le (by omega)) ?_)
    refine .refuse fun _ => .refuse fun _ => ?_
    exact (readEntries_computes failure _ (by decide)).bind
      fun _ result _ => .refuse fun _ => .pure _
  · rintro piece ⟨version, entries⟩
    constructor
    · rintro ⟨_, header, _, ⟨hlength, rfl⟩, ⟨hcount, _, _, ⟨entries', total⟩, _,
        ⟨hall, hlen, htotal, hword, rfl⟩, ⟨hsum, rfl, h⟩, rfl⟩, rfl⟩
      obtain ⟨rfl, rfl⟩ := Prod.mk.inj h
      dsimp only at hall hlen htotal hword hsum
      rw [bodyHeaderBytes] at hlength
      rw [not_not] at hsum
      rw [Nat.not_lt] at hcount
      have hsplit : ∀ bytes : List UInt8, bytes.length = 4 → leBytes 4 (leNat bytes) = bytes := by
        intro bytes h4
        rw [← h4]
        exact leBytes_leNat bytes
      refine ⟨⟨Nat.lt_of_lt_of_le (leNat_lt _)
        (Nat.pow_le_pow_right (by decide) (List.length_take_le 4 _)), hall, hlen ▸ hcount,
        by rw [← htotal, hsum], by omega⟩, ?_⟩
      have htail : (header.drop 4).take 4 = header.drop 4 :=
        List.take_of_length_le (by rw [List.length_drop, hlength])
      rw [spellTable, hlen, List.append_nil,
        hsplit _ (by rw [List.length_take, List.drop_zero, hlength]; rfl),
        hsplit _ (by rw [List.length_take, List.length_drop, hlength]; rfl), htail, List.drop_zero,
        ← List.append_assoc, List.take_append_drop]
    · rintro ⟨⟨hversion, hall, hcount, htotal, hword⟩, rfl⟩
      dsimp only at hversion hall hcount htotal
      have hsmall : entries.length < 2 ^ 32 := by
        rw [maxSections] at hcount
        omega
      have hfour : (leBytes 4 version).length = 4 := leBytes_length _ _
      have hheader : (leBytes 4 version ++ leBytes 4 entries.length).length = bodyHeaderBytes := by
        rw [List.length_append, leBytes_length, leBytes_length]
        rfl
      have hvalue : leNat (((leBytes 4 version ++ leBytes 4 entries.length).drop 0).take 4) = version := by
        rw [List.drop_zero, List.take_left' hfour, leNat_leBytes hversion]
      have hvalue' : leNat (((leBytes 4 version ++ leBytes 4 entries.length).drop 4).take 4) =
          entries.length := by
        rw [List.drop_left' hfour, List.take_of_length_le (by rw [leBytes_length]),
          leNat_leBytes hsmall]
      have hfew : entries.length ≤ (zkeyBytes - zkeyHeaderBytes) / zkeySectionHeaderBytes := by
        rw [Nat.le_div_iff_mul_le (by decide)]
        have := length_le_tableBytes entries
        omega
      refine ⟨_, _, _, ⟨hheader, rfl⟩, ⟨?_, ?_, _, (entries, zkeyBytes), [], ⟨hall, hvalue'.symm,
        htotal.symm, hword, rfl⟩, ⟨fun h => h rfl, rfl, ?_⟩, (List.append_nil _).symm⟩, ?_⟩
      · rw [hvalue']
        exact Nat.not_lt.mpr hcount
      · rw [hvalue']
        exact Nat.not_lt.mpr hfew
      · rw [hvalue]
      · rw [spellTable, List.append_assoc]

/-! ### Sections -/

/-- A section header of a zkey. -/
def spellSection (entry : CompactSection) : List UInt8 :=
  leBytes 4 entry.id ++ leBytes 8 entry.zkeyBytes

theorem spellSection_length (entry : CompactSection) :
    (spellSection entry).length = zkeySectionHeaderBytes := by
  rw [spellSection, List.length_append, leBytes_length, leBytes_length]
  rfl

/-- The sections of a table restored onto the zkey so far. -/
inductive SectionsRestore (ark : Arkworks) :
    List CompactSection → List UInt8 → List UInt8 → List UInt8 → Prop where
  | nil (zkey : List UInt8) : SectionsRestore ark [] zkey [] zkey
  | cons {entry : CompactSection} {entries : List CompactSection}
      {zkey front region back out : List UInt8}
      (head : SectionRestores ark entry (List.replicate entry.zkeyBytes 0) front region)
      (rest : SectionsRestore ark entries (zkey ++ spellSection entry ++ region) back out) :
      SectionsRestore ark (entry :: entries) zkey (front ++ back) out

/-- A coefficient section too short for its count. -/
structure ShortCount (entry : CompactSection) : Prop where
  encoding : entry.encoding = .coefficients
  short : entry.zkeyBytes < 4

/-- One round of the section loop. -/
theorem decodeSections_cons (ark : Arkworks) (failure : Option IoError) {entry : CompactSection}
    (entries : List CompactSection) {zkey : List UInt8} (bytes : List UInt8)
    (hword : (zkey ++ spellSection entry).length + entry.zkeyBytes < 2 ^ 64) :
    decodeSections ark failure (entry :: entries) zkey bytes =
      decodeSection ark failure entry (List.replicate entry.zkeyBytes 0) bytes >>= fun done =>
        decodeSections ark failure entries (zkey ++ spellSection entry ++ done.1) done.2 := by
  have hzkey : zkey ++ leBytes 4 entry.id ++ leBytes 8 entry.zkeyBytes = zkey ++ spellSection entry :=
    List.append_assoc _ _ _
  rw [decodeSections, hzkey, word_of_lt hword, lift_ok_bind, Nat.add_sub_cancel_left, bind_apply]

theorem decodeSection_short {ark : Arkworks} {failure : Option IoError} {entry : CompactSection}
    (h : ShortCount entry) (bytes : List UInt8) :
    decodeSection ark failure entry (List.replicate entry.zkeyBytes 0) bytes = .error .panic := by
  have hshort : ¬ 4 ≤ (List.replicate entry.zkeyBytes (0 : UInt8)).length := by
    rw [List.length_replicate]
    exact Nat.not_le.mpr h.short
  unfold decodeSection
  rw [h.encoding]
  dsimp only
  rw [decodeCoefficients, bind_apply]
  unfold require Panic.require
  rw [if_neg hshort]
  rfl

/-- A section shorter than its count is restored from nothing. -/
theorem SectionRestores.not_short {ark : Arkworks} {entry : CompactSection}
    {region piece out : List UInt8} (h : SectionRestores ark entry region piece out) :
    ¬ ShortCount entry := by
  rintro ⟨hencoding, hshort⟩
  unfold SectionRestores at h
  rw [hencoding] at h
  obtain ⟨head, _, _, hhead, ⟨count, hcount⟩, _⟩ := h
  obtain ⟨_, _, hfill⟩ := (coefficientCount_ok hhead).mp hcount
  omega

/-- What the section loop comes to, section by section. -/
structure LoopMeets (ark : Arkworks) (failure : Option IoError) (entries : List CompactSection)
    (zkey bytes : List UInt8) : Prop where
  ok : ∀ out rest, decodeSections ark failure entries zkey bytes = .ok (out, rest) ↔
    ∃ piece, SectionsRestore ark entries zkey piece out ∧ bytes = piece ++ rest
  panic : decodeSections ark failure entries zkey bytes = .error .panic ↔
    ∃ before entry after piece out rest, entries = before ++ entry :: after ∧ ShortCount entry ∧
      SectionsRestore ark before zkey piece out ∧ bytes = piece ++ rest

theorem decodeSections_meets (ark : Arkworks) (failure : Option IoError)
    {entries : List CompactSection} (hfit : ∀ entry ∈ entries, EntryFits entry)
    {zkey : List UInt8} (hword : zkey.length + tableBytes entries < 2 ^ 64) (bytes : List UInt8) :
    LoopMeets ark failure entries zkey bytes := by
  induction entries generalizing zkey bytes with
  | nil =>
    refine ⟨fun out rest => ?_, ?_⟩
    · rw [decodeSections, pure_ok]
      constructor
      · rintro ⟨rfl, rfl⟩
        exact ⟨[], .nil _, rfl⟩
      · rintro ⟨piece, h, rfl⟩
        cases h
        exact ⟨rfl, rfl⟩
    · constructor
      · exact fun h => by cases h
      · rintro ⟨before, entry, after, _, _, _, h, _⟩
        cases before <;> cases h
  | cons entry entries ih =>
    obtain ⟨hentry, hentries⟩ := List.forall_mem_cons.mp hfit
    rw [tableBytes_cons] at hword
    have hlength : (zkey ++ spellSection entry).length = zkey.length + zkeySectionHeaderBytes := by
      rw [List.length_append, spellSection_length]
    have hregion : (List.replicate entry.zkeyBytes (0 : UInt8)).length = entry.zkeyBytes :=
      List.length_replicate
    have hround := decodeSections_cons ark failure entries bytes (show
      (zkey ++ spellSection entry).length + entry.zkeyBytes < 2 ^ 64 by rw [hlength]; omega)
    by_cases hshort : ShortCount entry
    · rw [decodeSection_short hshort] at hround
      refine ⟨fun out rest => ?_, ?_⟩
      · rw [hround]
        constructor
        · exact fun h => by cases h
        · rintro ⟨piece, h, _⟩
          cases h with
          | cons head _ => exact absurd hshort head.not_short
      · rw [hround]
        exact iff_of_true rfl ⟨[], entry, entries, [], zkey, bytes, rfl, hshort, .nil _, rfl⟩
    · have hdecodable : Decodable entry := by
        refine ⟨hentry.whole, fun hencoding => ?_⟩
        by_contra hless
        exact hshort ⟨hencoding, by omega⟩
      have hsection := decodeSection_computes ark failure hdecodable hregion
        (by rw [hregion]; exact hentry.zkeyBytes)
      have hnext : ∀ {front region : List UInt8},
          SectionRestores ark entry (List.replicate entry.zkeyBytes 0) front region → ∀ rest,
            LoopMeets ark failure entries (zkey ++ spellSection entry ++ region) rest := by
        intro front region h rest
        refine ih hentries ?_ rest
        rw [List.length_append, hlength, h.out_length hentry.whole hregion]
        omega
      refine ⟨fun out rest => ?_, ?_⟩
      · rw [hround, Fallible.bind_ok]
        constructor
        · rintro ⟨⟨region, u⟩, hdone, hrest⟩
          obtain ⟨front, hhead, rfl⟩ := (hsection.ok _ _ _).mp hdone
          obtain ⟨back, hback, rfl⟩ := ((hnext hhead u).ok out rest).mp hrest
          exact ⟨front ++ back, .cons hhead hback, (List.append_assoc _ _ _).symm⟩
        · rintro ⟨piece, h, rfl⟩
          cases h with
          | cons head tail =>
            refine ⟨_, (hsection.ok _ _ _).mpr ⟨_, head, List.append_assoc _ _ _⟩, ?_⟩
            exact ((hnext head _).ok out rest).mpr ⟨_, tail, rfl⟩
      · rw [hround]
        constructor
        · intro h
          cases hdone : decodeSection ark failure entry (List.replicate entry.zkeyBytes 0) bytes with
          | error stop =>
            rw [hdone] at h
            obtain rfl := Except.error.inj h
            exact absurd hdone (hsection.safe bytes)
          | ok done =>
            obtain ⟨region, u⟩ := done
            rw [hdone] at h
            obtain ⟨front, hhead, rfl⟩ := (hsection.ok _ _ _).mp hdone
            obtain ⟨before, short, after, piece, out, rest, rfl, hshort', hbefore, rfl⟩ :=
              (hnext hhead u).panic.mp h
            exact ⟨entry :: before, short, after, front ++ piece, out, rest, rfl, hshort',
              .cons hhead hbefore, (List.append_assoc _ _ _).symm⟩
        · rintro ⟨before, short, after, piece, out, rest, hsplit, hshort', hbefore, rfl⟩
          cases before with
          | nil =>
            obtain ⟨rfl, rfl⟩ := List.cons.inj hsplit
            exact absurd hshort' hshort
          | cons first before =>
            obtain ⟨rfl, rfl⟩ := List.cons.inj hsplit
            cases hbefore with
            | cons head tail =>
              rw [(hsection.ok _ _ _).mpr ⟨_, head, List.append_assoc _ _ _⟩, Fallible.ok_bind]
              exact (hnext head _).panic.mpr ⟨before, short, after, _, out, rest, rfl, hshort', tail, rfl⟩

namespace SectionsRestore

variable {ark : Arkworks} {entries : List CompactSection} {zkey piece out : List UInt8}

theorem out_length (hfit : ∀ entry ∈ entries, EntryFits entry)
    (h : SectionsRestore ark entries zkey piece out) :
    out.length = zkey.length + tableBytes entries := by
  induction h with
  | nil => rfl
  | cons head _ ih =>
    obtain ⟨hentry, hentries⟩ := List.forall_mem_cons.mp hfit
    rw [ih hentries, List.length_append, List.length_append, spellSection_length,
      head.out_length hentry.whole List.length_replicate, tableBytes_cons]
    omega

/-- What a payload restores does not depend on the zkey so far. -/
theorem rebase (h : SectionsRestore ark entries zkey piece out) (zkey' : List UInt8) :
    ∃ out', SectionsRestore ark entries zkey' piece out' := by
  induction h generalizing zkey' with
  | nil => exact ⟨zkey', .nil zkey'⟩
  | cons head _ ih =>
    obtain ⟨out', hrest⟩ := ih _
    exact ⟨out', .cons head hrest⟩

end SectionsRestore

/-! ### The decoder -/

/-- The payload of a table's sections is there and decodes. -/
def Readable (ark : Arkworks) (entries : List CompactSection) (payload : List UInt8) : Prop :=
  ∃ out, SectionsRestore ark entries [] payload out

/-- The body passes the checks of its table, the declared length is reserved and the payload
decodes up to a coefficient section shorter than its own count. -/
def BodyReachesShortCount (ark : Arkworks) (grants : Allocator) (zkeyBytes : Nat)
    (body : List UInt8) : Prop :=
  ∃ version before entry after payload rest, TableFits zkeyBytes version (before ++ entry :: after) ∧
    Reserves grants zkeyBytes ∧ ShortCount entry ∧ Readable ark before payload ∧
      body = spellTable version (before ++ entry :: after) ++ (payload ++ rest)

def ReachesShortCount (zstd : ZstdDecoder) (ark : Arkworks) (grants : Allocator)
    (file : List UInt8) (maxZkeyBytes : Nat) : Prop :=
  ∃ zkeySha256 zkeyBytes compressed frame, file = spellFileHeader zkeySha256 zkeyBytes ++ compressed ∧
    zkeySha256.length = 32 ∧ zkeyBytes ≤ maxZkeyBytes ∧ zstd compressed = .ok frame ∧
      BodyReachesShortCount ark grants zkeyBytes frame.body

section Body
variable {sha256 : Sha256} {ark : Arkworks} {grants : Allocator} {failure : Option IoError}
variable {zkeySha256 : List UInt8} {zkeyBytes : Nat} {bytes : List UInt8}

theorem zkeyHeader_length (version count : Nat) :
    (zkeyMagic ++ leBytes 4 version ++ leBytes 4 count).length = zkeyHeaderBytes := by
  rw [List.length_append, List.length_append, leBytes_length, leBytes_length]
  rfl

/-- The section loop on a table that fits. -/
theorem TableFits.loop {version : Nat} {entries : List CompactSection}
    (h : TableFits zkeyBytes version entries) (ark : Arkworks) (failure : Option IoError) :
    ∀ payload, LoopMeets ark failure entries
      (zkeyMagic ++ leBytes 4 version ++ leBytes 4 entries.length) payload := by
  refine decodeSections_meets ark failure h.fit ?_
  rw [zkeyHeader_length, h.total]
  exact h.word

theorem decodeBody_ok_length {zkey rest : List UInt8}
    (h : decodeBody sha256 ark grants failure zkeySha256 zkeyBytes bytes = .ok (zkey, rest)) :
    zkey.length = zkeyBytes := by
  obtain ⟨⟨version, entries⟩, payload, htable, h₁⟩ := Decoder.bind_ok.mp h
  obtain ⟨_, _, h₁⟩ := lift_bind_ok.mp h₁
  obtain ⟨_, _, h₁⟩ := lift_bind_ok.mp h₁
  obtain ⟨zkey', rest', hloop, h₂⟩ := Decoder.bind_ok.mp h₁
  obtain ⟨_, _, h₃⟩ := lift_bind_ok.mp h₂
  obtain ⟨rfl, rfl⟩ := pure_ok.mp h₃
  obtain ⟨_, ⟨hfits, _⟩, _⟩ := ((readBodyHeader_computes failure zkeyBytes).ok _ _ _).mp htable
  obtain ⟨_, hrestore, _⟩ := ((hfits.loop ark failure payload).ok _ _).mp hloop
  rw [hrestore.out_length hfits.fit, zkeyHeader_length]
  exact hfits.total

theorem decodeBody_panic : decodeBody sha256 ark grants failure zkeySha256 zkeyBytes bytes = .error .panic ↔
    BodyReachesShortCount ark grants zkeyBytes bytes := by
  have htable := readBodyHeader_computes failure zkeyBytes
  unfold decodeBody
  rw [bind_apply, Fallible.bind_error]
  constructor
  · rintro (h | ⟨⟨⟨version, entries⟩, payload⟩, hread, h⟩)
    · exact absurd h (htable.safe bytes)
    obtain ⟨_, ⟨hfits, rfl⟩, rfl⟩ := (htable.ok _ _ _).mp hread
    dsimp only at hfits h
    rcases lift_bind_error.mp h with h | ⟨_, _, h⟩
    · exact absurd h Panic.refuse_safe
    rcases lift_bind_error.mp h with h | ⟨_, hreserve, h⟩
    · exact absurd h Panic.refuse_safe
    rw [bind_apply, Fallible.bind_error] at h
    rcases h with h | ⟨⟨zkey, rest⟩, _, h⟩
    · obtain ⟨before, entry, after, piece, out, rest, rfl, hshort, hbefore, rfl⟩ :=
        (hfits.loop ark failure payload).panic.mp h
      obtain ⟨out', hreadable⟩ := hbefore.rebase []
      exact ⟨version, before, entry, after, piece, rest, hfits,
        not_not.mp (Panic.refuse_ok.mp hreserve), hshort, ⟨out', hreadable⟩, rfl⟩
    · rcases lift_bind_error.mp h with h | ⟨_, _, h⟩
      · exact absurd h Panic.refuse_safe
      · cases h
  · rintro ⟨version, before, entry, after, payload, rest, hfits, hreserve, hshort,
      ⟨out, hreadable⟩, rfl⟩
    obtain ⟨out', hbefore⟩ := hreadable.rebase
      (zkeyMagic ++ leBytes 4 version ++ leBytes 4 (before ++ entry :: after).length)
    refine .inr ⟨_, htable.reads (a := (version, before ++ entry :: after)) ⟨hfits, rfl⟩ _, ?_⟩
    refine lift_bind_error.mpr (.inr ⟨(), Panic.refuse_ok.mpr (Nat.not_le.mpr hfits.word), ?_⟩)
    refine lift_bind_error.mpr (.inr ⟨(), Panic.refuse_ok.mpr (not_not.mpr hreserve), ?_⟩)
    rw [bind_apply, Fallible.bind_error]
    exact .inl ((hfits.loop ark failure _).panic.mpr
      ⟨before, entry, after, payload, out', rest, rfl, hshort, hbefore, rfl⟩)

end Body

/-- The length a compact file declares. -/
def declaredLength (file : List UInt8) : Nat := leNat ((file.drop 40).take 8)

/-- Decoding returns an error or a file of the declared length. -/
def Bounded (zstd : ZstdDecoder) (sha256 : Sha256) (ark : Arkworks) (grants : Allocator)
    (file : List UInt8) (maxZkeyBytes : Nat) : Prop :=
  inflate zstd sha256 ark grants file maxZkeyBytes ≠ .error .panic ∧
    ∀ zkey, inflate zstd sha256 ark grants file maxZkeyBytes = .ok zkey →
      zkey.length = declaredLength file

section Inflate
variable {zstd : ZstdDecoder} {sha256 : Sha256} {ark : Arkworks} {grants : Allocator}
variable {file : List UInt8} {maxZkeyBytes : Nat}

theorem declaredLength_spell {zkeySha256 : List UInt8} {zkeyBytes : Nat}
    (hsha : zkeySha256.length = 32) (hword : zkeyBytes < 2 ^ 64) (rest : List UInt8) :
    declaredLength (spellFileHeader zkeySha256 zkeyBytes ++ rest) = zkeyBytes := by
  have hfront : (magic ++ zkeySha256).length = 40 := by
    rw [List.length_append, hsha]
    rfl
  rw [declaredLength, spellFileHeader, ← List.append_assoc, List.append_assoc,
    List.drop_left' hfront, List.take_left' (leBytes_length _ _), leNat_leBytes hword]

theorem readSome_safe (remaining : List UInt8) (failure : Option IoError) :
    readSome remaining failure ≠ .error .panic := by
  unfold readSome fail
  split
  · exact fun h => by cases h
  · split <;> exact fun h => by cases h

theorem zstdDecoder_safe (compressed : List UInt8) :
    zstdDecoder zstd compressed ≠ .error .panic := by
  unfold zstdDecoder fail
  split <;> exact fun h => by cases h

theorem zstdDecoder_ok {compressed : List UInt8} {frame : Frame} :
    zstdDecoder zstd compressed = .ok frame ↔ zstd compressed = .ok frame := by
  unfold zstdDecoder fail
  split <;> simp [*]

theorem inflate_panic : inflate zstd sha256 ark grants file maxZkeyBytes = .error .panic ↔
    ReachesShortCount zstd ark grants file maxZkeyBytes := by
  have hheader := readFileHeader_computes maxZkeyBytes
  unfold inflate
  rw [Fallible.bind_error]
  constructor
  · rintro (h | ⟨⟨⟨zkeySha256, zkeyBytes⟩, compressed⟩, hread, h⟩)
    · exact absurd h (hheader.safe file)
    obtain ⟨_, ⟨hsha, _, hmax, rfl⟩, rfl⟩ := (hheader.ok _ _ _).mp hread
    dsimp only at hsha hmax h
    rcases Fallible.bind_error.mp h with h | ⟨frame, hframe, h⟩
    · exact absurd h (zstdDecoder_safe _)
    refine ⟨zkeySha256, zkeyBytes, compressed, frame, rfl, hsha, hmax, zstdDecoder_ok.mp hframe, ?_⟩
    rcases Fallible.bind_error.mp h with h | ⟨⟨zkey, remaining⟩, _, h⟩
    · exact decodeBody_panic.mp h
    -- the checks behind the body only fail with errors
    rcases Fallible.bind_error.mp h with h | ⟨_, _, h⟩
    · exact absurd h (readSome_safe _ _)
    rcases Fallible.bind_error.mp h with h | ⟨_, _, h⟩
    · exact absurd h Panic.refuse_safe
    rcases Fallible.bind_error.mp h with h | ⟨_, _, h⟩
    · exact absurd h Panic.refuse_safe
    rcases Fallible.bind_error.mp h with h | ⟨_, _, h⟩
    · exact absurd h (readSome_safe _ _)
    rcases Fallible.bind_error.mp h with h | ⟨_, _, h⟩
    · exact absurd h Panic.refuse_safe
    · cases h
  · rintro ⟨zkeySha256, zkeyBytes, compressed, frame, rfl, hsha, hmax, hframe, hbody⟩
    obtain ⟨_, _, _, _, _, _, hfits, _⟩ := id hbody
    refine .inr
      ⟨_, hheader.reads (a := (zkeySha256, zkeyBytes)) ⟨hsha, hfits.word, hmax, rfl⟩ _, ?_⟩
    refine Fallible.bind_error.mpr (.inr ⟨frame, zstdDecoder_ok.mpr hframe, ?_⟩)
    exact Fallible.bind_error.mpr (.inl (decodeBody_panic.mpr hbody))

theorem inflate_ok_length {zkey : List UInt8}
    (h : inflate zstd sha256 ark grants file maxZkeyBytes = .ok zkey) :
    zkey.length = declaredLength file := by
  obtain ⟨⟨⟨zkeySha256, zkeyBytes⟩, compressed⟩, hread, h₁⟩ := Fallible.bind_ok.mp h
  obtain ⟨frame, _, h₂⟩ := Fallible.bind_ok.mp h₁
  obtain ⟨⟨zkey', remaining⟩, hbody, h₃⟩ := Fallible.bind_ok.mp h₂
  obtain ⟨_, _, h₄⟩ := Fallible.bind_ok.mp h₃
  obtain ⟨_, _, h₅⟩ := Fallible.bind_ok.mp h₄
  obtain ⟨_, _, h₆⟩ := Fallible.bind_ok.mp h₅
  obtain ⟨_, _, h₇⟩ := Fallible.bind_ok.mp h₆
  obtain ⟨_, _, h₈⟩ := Fallible.bind_ok.mp h₇
  obtain rfl := Except.ok.inj h₈
  obtain ⟨_, ⟨hsha, hword, _, rfl⟩, rfl⟩ :=
    ((readFileHeader_computes maxZkeyBytes).ok _ _ _).mp hread
  rw [decodeBody_ok_length hbody, declaredLength_spell hsha hword]

end Inflate

/-- A coefficient section too short for its count is the one place where the decoder panics. -/
theorem inflate_bounded_iff (zstd : ZstdDecoder) (sha256 : Sha256) (ark : Arkworks)
    (grants : Allocator) (file : List UInt8) (maxZkeyBytes : Nat) :
    Bounded zstd sha256 ark grants file maxZkeyBytes ↔
      ¬ ReachesShortCount zstd ark grants file maxZkeyBytes := by
  constructor
  · exact fun h hreaches => h.1 (inflate_panic.mpr hreaches)
  · exact fun h => ⟨fun hpanic => h (inflate_panic.mp hpanic), fun _ hok => inflate_ok_length hok⟩

/-! ### A file that panics -/

/-- One empty coefficient section. -/
def shortCountBody : List UInt8 :=
  [1, 0, 0, 0, 1, 0, 0, 0, 4, 0, 0, 0, 0, 0, 0, 0, 0, 0, 0, 0, 3]

/-- The body in a zstd frame of one raw block, without a checksum. -/
def shortCountFrame : List UInt8 :=
  [0x28, 0xb5, 0x2f, 0xfd, 0x20, 0x15, 0xa9, 0, 0] ++ shortCountBody

def shortCountFile : List UInt8 := spellFileHeader (List.replicate 32 0) 24 ++ shortCountFrame

def shortCountDecoder : ZstdDecoder := fun compressed =>
  if compressed = shortCountFrame then .ok ⟨shortCountBody, none, none, none, []⟩
  else .error "not the frame"

def refusingArkworks : Arkworks where
  g1 := ⟨fun _ => none, fun _ => g1Infinity, 3, fun _ _ => false⟩
  g2 := ⟨fun _ => none, fun _ => g2Infinity, 0, fun _ _ => false⟩

/-- Four gigabytes of memory. -/
def fourGigabytes : Allocator := fun bytes => bytes ≤ 2 ^ 32

theorem short_count_panics : ¬ Bounded shortCountDecoder (fun _ => Vector.replicate 32 0)
    refusingArkworks fourGigabytes shortCountFile 24 := by
  have hpanic : inflate shortCountDecoder (fun _ => Vector.replicate 32 0) refusingArkworks
      fourGigabytes shortCountFile 24 = .error .panic := by
    rfl
  exact fun h => h.1 hpanic

end Curvy.Prover.CompactZkey
