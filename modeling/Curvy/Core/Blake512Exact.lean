import Curvy.Core.Blake512Compress

/-!
# Incremental BLAKE-512 is BLAKE-512

After any pieces the hasher holds the chaining value of the full blocks, the bytes behind them and
the bits of the full blocks as its count. The padding lowers the count so that the last
compressions find the bits of the message.
-/

namespace Curvy

set_option autoImplicit false

namespace Blake512

open Blake (words byteBits)

/-! ## The count -/

/-- The limbs of a count below `2 ^ 64`. -/
def limbs (n : Nat) : List Int := [(n % 2 ^ 32 : Nat), (n / 2 ^ 32 : Nat), 0, 0]

theorem lengthCarry_small {low high : Int} (h : low < 2 ^ 32) :
    lengthCarry [low, high, 0, 0] = [low, high, 0, 0] := if_pos h

theorem lengthCarry_limbs {low high : Nat} (hlow : low ≤ 2 ^ 32)
    (hsmall : low + high * 2 ^ 32 < 2 ^ 64) :
    lengthCarry [(low : Int), (high : Int), 0, 0] = limbs (low + high * 2 ^ 32) := by
  unfold limbs
  rcases Nat.lt_or_eq_of_le hlow with hlt | heq
  · rw [lengthCarry_small (by exact_mod_cast hlt), Nat.add_mul_mod_self_right,
      Nat.mod_eq_of_lt hlt, Nat.add_mul_div_right _ _ (by decide), Nat.div_eq_of_lt hlt,
      Nat.zero_add]
  · have hnext : carry ((high : Int) + 1) [0, 0] = [(high : Int) + 1, 0, 0] := if_pos (by omega)
    have hcarry : lengthCarry [(low : Int), (high : Int), 0, 0] = [0, (high : Int) + 1, 0, 0] := by
      rw [lengthCarry, carry, if_neg (by omega), hnext, heq]
      rfl
    have hhigh : (low + high * 2 ^ 32) / 2 ^ 32 = high + 1 := by omega
    have hzero : (low + high * 2 ^ 32) % 2 ^ 32 = 0 := by omega
    rw [hcarry, hhigh, hzero]
    rfl

/-- The count of the full blocks plus the bits of the last one. -/
theorem lengthCarry_count {q extra : Nat} (hextra : extra ≤ 1024)
    (hsmall : 1024 * q + extra < 2 ^ 64) :
    lengthCarry ((limbs (1024 * q)).modifyHead (· + (extra : Int))) = limbs (1024 * q + extra) := by
  have hhead : (limbs (1024 * q)).modifyHead (· + (extra : Int)) =
      [((1024 * q % 2 ^ 32 + extra : Nat) : Int), ((1024 * q / 2 ^ 32 : Nat) : Int), 0, 0] := rfl
  have hparts : 1024 * q % 2 ^ 32 + extra + 1024 * q / 2 ^ 32 * 2 ^ 32 = 1024 * q + extra := by
    omega
  rw [hhead, lengthCarry_limbs (by omega) (by omega), hparts]

theorem ofInt_natCast (n : Nat) : UInt64.ofInt (n : Int) = UInt64.ofNat n := by
  have hmod : ((n : Int) % 2 ^ 64).toNat = n % 2 ^ 64 := by omega
  rw [UInt64.ofInt, hmod]
  apply UInt64.toNat_inj.mp
  rw [UInt64.toNat_ofNat', UInt64.toNat_ofNat', Nat.mod_mod]

theorem join_eq {low high : Nat} (hlow : low < 2 ^ 32) (hhigh : high < 2 ^ 32) :
    (UInt64.ofNat high <<< 32) ||| (UInt64.ofNat low &&& 0xffffffff) =
      UInt64.ofNat (high * 2 ^ 32 + low) := by
  have hmask : low &&& 4294967295 = low := by
    have h := Nat.and_two_pow_sub_one_eq_mod low 32
    rwa [Nat.mod_eq_of_lt hlow] at h
  have hlow' : low % 2 ^ 64 = low := Nat.mod_eq_of_lt (by omega)
  have hhigh' : high % 2 ^ 64 = high := Nat.mod_eq_of_lt (by omega)
  apply UInt64.toNat_inj.mp
  rw [UInt64.toNat_or, UInt64.toNat_shiftLeft, UInt64.toNat_and, UInt64.toNat_ofNat',
    UInt64.toNat_ofNat', UInt64.toNat_ofNat', hlow', hhigh']
  have hthirty : UInt64.toNat 32 % 64 = 32 := by decide
  have hthirtytwo : high <<< 32 = high * 2 ^ 32 := Nat.shiftLeft_eq _ _
  have hsum : (high * 2 ^ 32 + low) % 2 ^ 64 = high * 2 ^ 32 + low := Nat.mod_eq_of_lt (by omega)
  have htop : high * 2 ^ 32 % 2 ^ 64 = high * 2 ^ 32 := Nat.mod_eq_of_lt (by omega)
  have hfull : UInt64.toNat 0xffffffff = 4294967295 := by decide
  rw [hthirty, hthirtytwo, hfull, hmask, hsum, htop, ← hthirtytwo,
    Nat.shiftLeft_add_eq_or_of_lt hlow]

theorem counts_limbs {s : Blake512} {n : Nat} (hn : n < 2 ^ 64) (h : s.length = limbs n) :
    s.Counts (if s.nullt then 0 else n) := by
  have hzero : n / 2 ^ 64 = 0 := by omega
  have hjoin : n / 2 ^ 32 * 2 ^ 32 + n % 2 ^ 32 = n := by omega
  unfold Counts
  cases s.nullt with
  | true => rfl
  | false =>
    refine ⟨?_, ?_⟩
    · unfold t0 limb
      rw [h]
      have heq := @join_eq (n % 2 ^ 32) (n / 2 ^ 32) (by omega) (by omega)
      rw [hjoin] at heq
      rw [if_neg Bool.false_ne_true, ← heq, ← ofInt_natCast, ← ofInt_natCast]
      rfl
    · unfold t1 limb
      have htop : (limbs n).getD 3 0 = 0 ∧ (limbs n).getD 2 0 = 0 := ⟨rfl, rfl⟩
      rw [h, if_neg Bool.false_ne_true, hzero, htop.1, htop.2]
      decide

/-! ## Bytes into the block -/

/-- What a hasher between two calls holds. -/
structure Holds (s : Blake512) (h : Vector UInt64 8) (buffer : List UInt8) (length : List Int)
    (nullt : Bool) : Prop where
  h_eq : s.h = h
  offset : s.blockOffset = buffer.length
  buffer_eq : s.block.toList.take buffer.length = buffer
  length_eq : s.length = length
  nullt_eq : s.nullt = nullt

theorem holds_new : Holds new iv [] (limbs 0) false :=
  ⟨rfl, rfl, rfl, rfl, rfl⟩

variable {s : Blake512} {h : Vector UInt64 8} {buffer : List UInt8} {length : List Int}
  {nullt : Bool}

theorem take_set {l : List UInt8} {n : Nat} (hn : n < l.length) (byte : UInt8) :
    (l.set n byte).take (n + 1) = l.take n ++ [byte] := by
  have hlength : (l.take n ++ [byte]).length = n + 1 := by
    rw [List.length_append, List.length_take, List.length_singleton]
    omega
  rw [List.set_eq_take_append_cons_drop, if_pos hn, List.append_cons, List.take_left' hlength]

theorem Holds.store (hs : Holds s h buffer length nullt) (hroom : buffer.length < 128)
    (byte : UInt8) :
    ∃ t, s.store byte = some t ∧ Holds t h (buffer ++ [byte]) length nullt := by
  have hoffset := hs.offset
  have hroom' : s.blockOffset < 128 := by omega
  refine ⟨_, dif_pos hroom', hs.h_eq, ?_, ?_, hs.length_eq, hs.nullt_eq⟩
  · rw [List.length_append, List.length_singleton, ← hoffset]
  · have hlist : (s.block.set s.blockOffset byte hroom').toList =
        s.block.toList.set s.blockOffset byte := Vector.toList_set _
    rw [hlist, List.length_append, List.length_singleton, hoffset, take_set, hs.buffer_eq]
    rw [Vector.length_toList]
    exact hroom

theorem Holds.storeAll (data : List UInt8) (hs : Holds s h buffer length nullt)
    (hroom : buffer.length + data.length ≤ 128) :
    ∃ t, data.foldlM Blake512.store s = some t ∧ Holds t h (buffer ++ data) length nullt := by
  induction data generalizing s buffer with
  | nil =>
    rw [List.append_nil]
    exact ⟨s, rfl, hs⟩
  | cons byte data ih =>
    rw [List.length_cons] at hroom
    obtain ⟨t, hstore, ht⟩ := hs.store (by omega) byte
    obtain ⟨u, hrest, hu⟩ := ih ht (by rw [List.length_append, List.length_singleton]; omega)
    refine ⟨u, ?_, ?_⟩
    · rw [List.foldlM_cons, hstore]
      exact hrest
    · rwa [List.append_assoc] at hu

theorem Holds.fill (data rest : List UInt8) (hs : Holds s h buffer length nullt)
    (hfull : buffer.length + data.length = 128) :
    ∃ t, Blake512.fill (data ++ rest) s = some (t, rest) ∧
      Holds t h (buffer ++ data) length nullt := by
  induction data generalizing s buffer with
  | nil =>
    have hoffset : ¬ s.blockOffset < blockBytes := by
      rw [hs.offset]
      exact Nat.not_lt.mpr (Nat.le_of_eq hfull.symm)
    rw [List.append_nil]
    refine ⟨s, ?_, hs⟩
    cases rest with
    | nil => exact if_neg hoffset
    | cons byte rest => exact if_neg hoffset
  | cons byte data ih =>
    rw [List.length_cons] at hfull
    obtain ⟨t, hstore, ht⟩ := hs.store (by omega) byte
    obtain ⟨u, hrest, hu⟩ := ih ht (by rw [List.length_append, List.length_singleton]; omega)
    refine ⟨u, ?_, ?_⟩
    · have hoffset : s.blockOffset < blockBytes := by
        rw [hs.offset]
        exact Nat.lt_of_lt_of_le (by omega : buffer.length < 128) (Nat.le_refl _)
      rw [List.cons_append, Blake512.fill, if_pos hoffset, hstore]
      exact hrest
    · rwa [List.append_assoc] at hu

/-! ## Full blocks -/

/-- One block on a chaining value. -/
def absorb (h : Vector UInt64 8) (block : List UInt8) (count : Nat) : Vector UInt64 8 :=
  Blake.compress (Vector.replicate 4 0) h (words (byteBits block)) count

/-- The compression of the code where the limbs spell a count. -/
def Compresses (compress : Blake512 → Option Blake512) : Prop :=
  ∀ s n, n < 2 ^ 64 → s.length = limbs n → compress s = some s.compress

variable {compress : Blake512 → Option Blake512}

theorem Holds.close (hcompress : Compresses compress) (hs : Holds s h buffer length nullt)
    (hfull : buffer.length = 128) {n : Nat} (hn : n < 2 ^ 64)
    (hlength : lengthCarry (length.modifyHead (· + 1024)) = limbs n) :
    ∃ t, Blake512.close compress s = some t ∧
      Holds t (absorb h buffer (if nullt then 0 else n)) [] (limbs n) nullt := by
  have hblock : s.block.toList = buffer := by
    have hbuffer := hs.buffer_eq
    rwa [hfull, List.take_of_length_le (Nat.le_of_eq s.block.length_toList)] at hbuffer
  generalize hcount : ({ s with length := limbs n } : Blake512) = counted
  have hclose : Blake512.close compress s =
      (compress counted).map fun s => { s with blockOffset := 0 } := by
    rw [← hcount, ← hlength, ← hs.length_eq]
    rfl
  have hlimbs : counted.length = limbs n := by rw [← hcount]
  have hchain : counted.compress.h = absorb h buffer (if nullt then 0 else n) := by
    have hcounts := counts_limbs hn hlimbs
    have hm : counted.m = words (byteBits buffer) := by
      rw [Blake.words_byteBits, ← hblock, ← hcount]
      rfl
    have hkept : counted.nullt = nullt ∧ counted.h = h := by
      rw [← hcount]
      exact ⟨hs.nullt_eq, hs.h_eq⟩
    rw [compress_h hcounts, hm, hkept.1, hkept.2, absorb]
  refine ⟨{ counted.compress with blockOffset := 0 }, ?_, hchain, rfl, rfl, hlimbs, ?_⟩
  · rw [hclose, hcompress counted n hn hlimbs]
    rfl
  · rw [← hs.nullt_eq, ← hcount]
    rfl

/-- The bytes up to the end of the block, in a call with more of them. -/
theorem Holds.fillBlock (hcompress : Compresses compress) (data rest : List UInt8) (fuel : Nat)
    (hs : Holds s h buffer length nullt) (hfull : buffer.length + data.length = 128) {n : Nat}
    (hn : n < 2 ^ 64) (hlength : lengthCarry (length.modifyHead (· + 1024)) = limbs n) :
    ∃ t, updateLoop compress (fuel + 1) (data ++ rest) s = updateLoop compress fuel rest t ∧
      Holds t (absorb h (buffer ++ data) (if nullt then 0 else n)) [] (limbs n) nullt := by
  obtain ⟨u, hfill, hu⟩ := hs.fill data rest hfull
  obtain ⟨t, hclose, ht⟩ := hu.close hcompress
    (by rw [List.length_append, hfull]) hn hlength
  refine ⟨t, ?_, ht⟩
  have hlong : blockBytes ≤ s.blockOffset + (data ++ rest).length := by
    rw [hs.offset, List.length_append, ← Nat.add_assoc, hfull]
    exact Nat.le_add_right _ _
  rw [updateLoop, if_pos hlong, hfill]
  dsimp only [Option.bind_eq_bind, Option.bind_some]
  rw [hclose]
  rfl

theorem Holds.updateLoop_short (compress : Blake512 → Option Blake512) (fuel : Nat)
    (data : List UInt8) (hs : Holds s h buffer length nullt)
    (hshort : buffer.length + data.length < 128) :
    ∃ t, updateLoop compress (fuel + 1) data s = some t ∧
      Holds t h (buffer ++ data) length nullt := by
  obtain ⟨t, hstore, ht⟩ := hs.storeAll data (Nat.le_of_lt hshort)
  have hoffset : ¬ blockBytes ≤ s.blockOffset + data.length := by
    rw [hs.offset]
    exact Nat.not_le.mpr hshort
  exact ⟨t, by rw [updateLoop, if_neg hoffset, hstore], ht⟩

theorem Holds.update_short (compress : Blake512 → Option Blake512) (data : List UInt8)
    (hs : Holds s h buffer length nullt) (hshort : buffer.length + data.length < 128) :
    ∃ t, update compress data s = some t ∧ Holds t h (buffer ++ data) length nullt :=
  hs.updateLoop_short compress data.length data hshort

theorem Holds.update_full (hcompress : Compresses compress) (data : List UInt8)
    (hs : Holds s h buffer length nullt) (hfull : buffer.length + data.length = 128)
    (hdata : data ≠ []) {n : Nat} (hn : n < 2 ^ 64)
    (hlength : lengthCarry (length.modifyHead (· + 1024)) = limbs n) :
    ∃ t, update compress data s = some t ∧
      Holds t (absorb h (buffer ++ data) (if nullt then 0 else n)) [] (limbs n) nullt := by
  obtain ⟨t, hloop, ht⟩ := hs.fillBlock hcompress data [] data.length hfull hn hlength
  rw [List.append_nil] at hloop
  obtain ⟨byte, rest, rfl⟩ := List.exists_cons_of_ne_nil hdata
  obtain ⟨u, hdone, hu⟩ := ht.updateLoop_short compress rest.length [] (by decide)
  rw [List.append_nil] at hu
  exact ⟨u, by rw [update, hloop]; exact hdone, hu⟩

/-! ## Any pieces -/

/-- The chaining value behind full blocks of the message. -/
def chain (blocks : List (List UInt8)) : Vector UInt64 8 :=
  blocks.zipIdx.foldl (fun h block => absorb h block.1 (1024 * (block.2 + 1))) iv

/-- The hasher after the bytes `message`. -/
def Absorbed (s : Blake512) (message : List UInt8) : Prop :=
  ∃ blocks tail, message = blocks.flatten ++ tail ∧ (∀ block ∈ blocks, block.length = 128) ∧
    tail.length < 128 ∧ Holds s (chain blocks) tail (limbs (1024 * blocks.length)) false

theorem absorbed_new : Absorbed new [] :=
  ⟨[], [], rfl, fun _ h => absurd h List.not_mem_nil, by decide, holds_new⟩

theorem chain_concat (blocks : List (List UInt8)) (block : List UInt8) :
    chain (blocks ++ [block]) = absorb (chain blocks) block (1024 * (blocks.length + 1)) := by
  rw [chain, List.zipIdx_append, List.foldl_append, ← chain, Nat.zero_add]
  rfl

theorem updateLoop_absorbed (hcompress : Compresses compress) {fuel : Nat} {data : List UInt8}
    {message : List UInt8} (hs : Absorbed s message) (hfuel : data.length < fuel)
    (hsmall : (message ++ data).length < 2 ^ 61) :
    ∃ t, updateLoop compress fuel data s = some t ∧ Absorbed t (message ++ data) := by
  induction fuel generalizing s data message with
  | zero => exact absurd hfuel (Nat.not_lt_zero _)
  | succ fuel ih =>
    obtain ⟨blocks, tail, rfl, hblocks, htail, hholds⟩ := hs
    by_cases hshort : tail.length + data.length < 128
    · obtain ⟨t, hloop, ht⟩ := hholds.updateLoop_short compress fuel data hshort
      refine ⟨t, hloop, blocks, tail ++ data, ?_, hblocks, ?_, ht⟩
      · rw [List.append_assoc]
      · rwa [List.length_append]
    · -- the first bytes complete the block, the others start from an empty one
      obtain ⟨first, rest, rfl, hfull⟩ : ∃ first rest, data = first ++ rest ∧
          tail.length + first.length = 128 := by
        refine ⟨data.take (128 - tail.length), data.drop (128 - tail.length),
          (List.take_append_drop _ _).symm, ?_⟩
        rw [List.length_take]
        omega
      have hflat := List.length_flatten_of_forall hblocks
      have hlength : (blocks.flatten ++ tail ++ (first ++ rest)).length =
          blocks.length * 128 + 128 + rest.length := by
        rw [List.length_append, List.length_append, List.length_append, hflat]
        omega
      rw [hlength] at hsmall
      obtain ⟨u, hloop, hu⟩ := hholds.fillBlock hcompress first rest fuel hfull
        (by omega : 1024 * (blocks.length + 1) < 2 ^ 64)
        (@lengthCarry_count blocks.length 1024 (Nat.le_refl _) (by omega))
      have hnext : Absorbed u (blocks.flatten ++ tail ++ first) := by
        refine ⟨blocks ++ [tail ++ first], [], ?_, ?_, by decide, ?_⟩
        · rw [List.flatten_append, List.flatten_singleton, List.append_nil, List.append_assoc]
        · intro block hblock
          rcases List.mem_append.mp hblock with hold | hnew
          · exact hblocks block hold
          · rw [List.mem_singleton.mp hnew, List.length_append, hfull]
        · rw [chain_concat, List.length_append, List.length_singleton]
          exact hu
      rw [List.length_append] at hfuel
      rw [← hlength, ← List.append_assoc] at hsmall
      obtain ⟨t, hrest, ht⟩ := ih hnext (by omega : rest.length < fuel) hsmall
      rw [List.append_assoc] at ht
      exact ⟨t, by rw [hloop, hrest], ht⟩

theorem foldlM_absorbed (hcompress : Compresses compress) {pieces : List (List UInt8)}
    {message : List UInt8} (hs : Absorbed s message)
    (hsmall : (message ++ pieces.flatten).length < 2 ^ 61) :
    ∃ t, pieces.foldlM (fun s data => update compress data s) s = some t ∧
      Absorbed t (message ++ pieces.flatten) := by
  induction pieces generalizing s message with
  | nil =>
    rw [List.flatten_nil, List.append_nil]
    exact ⟨s, rfl, hs⟩
  | cons data pieces ih =>
    rw [List.flatten_cons, ← List.append_assoc] at hsmall ⊢
    have hfirst : (message ++ data).length < 2 ^ 61 := by
      rw [List.length_append] at hsmall
      omega
    obtain ⟨u, hupdate, hu⟩ := updateLoop_absorbed hcompress hs (Nat.lt_succ_self _) hfirst
    obtain ⟨t, hrest, ht⟩ := ih hu hsmall
    refine ⟨t, ?_, ht⟩
    rw [List.foldlM_cons, update, hupdate]
    exact hrest

/-! ## Padding -/

theorem msglen_eq {message : List UInt8} (hs : Absorbed s message)
    (hsmall : message.length < 2 ^ 61) : s.msglen = beBytes 16 (8 * message.length) := by
  obtain ⟨blocks, tail, rfl, hblocks, htail, hholds⟩ := hs
  have hflat := List.length_flatten_of_forall hblocks
  have hlength : (blocks.flatten ++ tail).length = blocks.length * 128 + tail.length := by
    rw [List.length_append, hflat]
  generalize hbits : 8 * (blocks.flatten ++ tail).length = bits
  have hcarry : lengthCarry (s.addLength (s.blockOffset * 8)).length = limbs bits := by
    have h := @lengthCarry_count blocks.length (8 * tail.length) (by omega) (by omega)
    have hcount : 1024 * blocks.length + 8 * tail.length = bits := by omega
    rw [hcount] at h
    have hoffset : (s.blockOffset * 8 : Int) = (8 * tail.length : Nat) := by
      rw [hholds.offset]
      omega
    rw [← h, addLength, hholds.length_eq, hoffset]
  have hlow : (((bits % 2 ^ 32 : Nat) : Int) % 0x100000000).toNat = bits % 256 ^ 4 := by omega
  have hhigh : (((bits / 2 ^ 32 : Nat) : Int) % 0x100000000).toNat = bits / 256 ^ 4 % 256 ^ 4 := by
    omega
  have hzero : bits / 256 ^ 4 / 256 ^ 4 = 0 := by omega
  have hparts : s.msglen = beBytes 4 0 ++ (beBytes 4 0 ++ (beBytes 4
      (((bits / 2 ^ 32 : Nat) : Int) % 0x100000000).toNat ++ (beBytes 4
        (((bits % 2 ^ 32 : Nat) : Int) % 0x100000000).toNat ++ []))) := by
    rw [msglen, hcarry]
    rfl
  rw [hparts, hlow, hhigh, beBytes_mod, beBytes_mod, List.append_nil, beBytes_add 12 4 bits,
    beBytes_add 8 4, hzero, List.append_assoc]
  rfl

theorem paddingSlice_zero {gap : Nat} (hpos : 0 < gap) (hgap : gap ≤ 128) :
    paddingSlice 0 gap = some (0x80 :: List.replicate (gap - 1) 0) := by
  have hlong : gap ≤ padding.length := hgap
  obtain ⟨gap, rfl⟩ := Nat.exists_eq_succ_of_ne_zero (Nat.ne_of_gt hpos)
  rw [paddingSlice, if_pos ⟨Nat.zero_le _, hlong⟩, padding, List.take_succ_cons,
    List.take_replicate, Nat.min_eq_left (Nat.le_of_succ_le_succ hgap)]
  rfl

theorem Holds.addLength (hs : Holds s h buffer length nullt) (bits : Int) :
    Holds (s.addLength bits) h buffer (length.modifyHead (· + bits)) nullt :=
  ⟨hs.h_eq, hs.offset, hs.buffer_eq, congrArg (List.modifyHead (· + bits)) hs.length_eq,
    hs.nullt_eq⟩

theorem Holds.setNull (hs : Holds s h buffer length nullt) :
    Holds { s with nullt := true } h buffer length true :=
  ⟨hs.h_eq, hs.offset, hs.buffer_eq, hs.length_eq, rfl⟩

theorem modifyHead_add (a b : Int) (length : List Int) :
    (length.modifyHead (· + a)).modifyHead (· + b) = length.modifyHead (· + (a + b)) := by
  cases length with
  | nil => rfl
  | cons limb rest => exact congrArg (· :: rest) (Int.add_assoc limb a b)

/-- A count moved down and up again. -/
theorem lengthCarry_moved {q extra : Nat} {moves : Int} (hmoves : moves = extra)
    (hextra : extra ≤ 1024) (hsmall : 1024 * q + extra < 2 ^ 64) :
    lengthCarry ((limbs (1024 * q)).modifyHead (· + moves)) = limbs (1024 * q + extra) := by
  rw [hmoves]
  exact lengthCarry_count hextra hsmall

theorem lengthCarry_back {n : Nat} {moves : Int} (hmoves : moves = 0) :
    lengthCarry ((limbs n).modifyHead (· + moves)) = limbs n := by
  have hlow : ((n % 2 ^ 32 : Nat) : Int) < 2 ^ 32 := by omega
  rw [hmoves, limbs, List.modifyHead_cons, Int.add_zero]
  exact lengthCarry_small hlow

/-- A hasher that needs the length and nothing else: the count that the last compression finds is
that of the message. -/
def Padded (s : Blake512) (message : List UInt8) : Prop :=
  ∃ h buffer length nullt, Holds s h buffer length nullt ∧ buffer.length = 112 ∧
    lengthCarry (length.modifyHead (· + 896)) = limbs (8 * message.length) ∧
    absorb h (buffer ++ beBytes 16 (8 * message.length))
      (if nullt then 0 else 8 * message.length) =
        Blake.hashBits (Vector.replicate 4 0) (byteBits message)

/-! ## The specification block by block -/

theorem foldl_blocks (blocks : List (List UInt8)) (f : Nat → Nat) (k : Nat) (h : Vector UInt64 8) :
    ((blocks.map byteBits).zipIdx k).foldl
        (fun h block => Blake.compress (Vector.replicate 4 0) h (words block.1) (f block.2)) h =
      (blocks.zipIdx k).foldl (fun h block => absorb h block.1 (f block.2)) h := by
  induction blocks generalizing k h with
  | nil => rfl
  | cons block blocks ih =>
    rw [List.map_cons, List.zipIdx_cons, List.foldl_cons, ih, List.zipIdx_cons, List.foldl_cons,
      absorb]

theorem hashBits_blocks {blocks last : List (List UInt8)} {tail : List UInt8}
    (hblocks : ∀ block ∈ blocks, block.length = 128) (hlast : ∀ block ∈ last, block.length = 128)
    {n : Nat} (hn : n = (blocks.flatten ++ tail).length)
    (hpadded : tail ++ Blake.marker n ++ beBytes 16 (8 * n) = last.flatten) :
    Blake.hashBits (Vector.replicate 4 0) (byteBits (blocks.flatten ++ tail)) =
      (last.zipIdx blocks.length).foldl
        (fun h block => absorb h block.1 (Blake.counter (8 * n) block.2)) (chain blocks) := by
  have hall : ∀ block ∈ blocks ++ last, block.length = 128 := by
    intro block hblock
    rcases List.mem_append.mp hblock with hfirst | hlater
    · exact hblocks block hfirst
    · exact hlast block hlater
  have hpad : Blake.pad (byteBits (blocks.flatten ++ tail)) =
      ((blocks ++ last).map byteBits).flatten := by
    rw [Blake.pad_byteBits, ← hn, List.append_assoc, List.append_assoc, ← List.append_assoc tail,
      hpadded, ← List.flatten_append, Blake.byteBits_flatten]
  have hchunks : List.chunks 1024 (Blake.pad (byteBits (blocks.flatten ++ tail))) =
      (blocks ++ last).map byteBits := by
    rw [hpad]
    apply List.chunks_flatten (by decide)
    intro digits hdigits
    obtain ⟨block, hblock, rfl⟩ := List.mem_map.mp hdigits
    rw [Blake.byteBits_length, hall block hblock]
  have hflat := List.length_flatten_of_forall hblocks
  have hchain : blocks.zipIdx.foldl
      (fun h block => absorb h block.1 (Blake.counter (8 * n) block.2)) iv = chain blocks := by
    apply List.foldl_ext
    intro h block hblock
    have hindex := (List.mem_zipIdx hblock).2.1
    have hcounter : Blake.counter (8 * n) block.2 = 1024 * (block.2 + 1) := by
      rw [List.length_append, hflat] at hn
      rw [Blake.counter, if_pos (by omega)]
      exact Nat.min_eq_right (by omega)
    rw [hcounter]
  rw [Blake.hashBits, hchunks, foldl_blocks (blocks ++ last) (Blake.counter _),
    Blake.byteBits_length, ← hn, List.zipIdx_append, List.foldl_append, Nat.zero_add, ← hchain]
  rfl

/-- The counter of the block that holds the last message bits, if any. -/
theorem counter_tail {q r : Nat} (hr : r < 128) :
    Blake.counter (8 * (128 * q + r)) q = if r = 0 then 0 else 8 * (128 * q + r) := by
  unfold Blake.counter
  by_cases hzero : r = 0
  · rw [if_neg (by omega), if_pos hzero]
  · rw [if_pos (by omega), if_neg hzero]
    exact Nat.min_eq_left (by omega)

theorem counter_beyond {q r : Nat} (hr : r < 128) : Blake.counter (8 * (128 * q + r)) (q + 1) = 0 :=
  if_neg (by omega)

/-! ## The three paddings -/

variable {blocks : List (List UInt8)} {tail : List UInt8}

theorem length_message (tail : List UInt8) (hblocks : ∀ block ∈ blocks, block.length = 128) :
    (blocks.flatten ++ tail).length = 128 * blocks.length + tail.length := by
  rw [List.length_append, List.length_flatten_of_forall hblocks, Nat.mul_comm]

theorem marker_tail (q : Nat) {r : Nat} (hr : r < 128) : Blake.marker (128 * q + r) =
    if r = 111 then [0x81]
    else if r < 111 then 0x80 :: (List.replicate (110 - r) 0 ++ [0x01])
    else 0x80 :: (List.replicate (127 - r) 0 ++ (List.replicate 111 0 ++ [0x01])) := by
  unfold Blake.marker
  dsimp only
  by_cases h111 : r = 111
  · rw [if_pos h111, if_pos (by omega)]
  · rw [if_neg h111, if_neg (by omega)]
    by_cases hbelow : r < 111
    · have hgap : (239 - (128 * q + r) % 128) % 128 - 1 = 110 - r := by omega
      rw [if_pos hbelow, hgap]
    · have hgap : (239 - (128 * q + r) % 128) % 128 - 1 = 127 - r + 111 := by omega
      rw [if_neg hbelow, hgap, List.replicate_add, List.append_assoc]

/-- One block takes the tail, the marker and the length. -/
theorem hashBits_one (hblocks : ∀ block ∈ blocks, block.length = 128) (htail : tail.length ≤ 111)
    (nullt : Bool) (hnull : nullt = decide (tail.length = 0)) {n : Nat}
    (hn : n = (blocks.flatten ++ tail).length) :
    (tail ++ Blake.marker n).length = 112 ∧
    absorb (chain blocks) (tail ++ Blake.marker n ++ beBytes 16 (8 * n))
      (if nullt then 0 else 8 * n) =
        Blake.hashBits (Vector.replicate 4 0) (byteBits (blocks.flatten ++ tail)) := by
  have hsize : (tail ++ Blake.marker n).length = 112 := by
    rw [hn, length_message tail hblocks, marker_tail _ (by omega), List.length_append]
    split
    · rw [List.length_singleton]
      omega
    · rw [if_pos (by omega), List.length_cons, List.length_append, List.length_replicate,
        List.length_singleton]
      omega
  refine ⟨hsize, ?_⟩
  have hlast : ∀ block ∈ [tail ++ Blake.marker n ++ beBytes 16 (8 * n)], block.length = 128 := by
    intro block hblock
    rw [List.mem_singleton.mp hblock, List.length_append, hsize, beBytes_length]
  rw [hashBits_blocks hblocks hlast hn (List.flatten_singleton).symm]
  have hcounter := @counter_tail blocks.length tail.length (by omega)
  rw [← length_message tail hblocks, ← hn] at hcounter
  rw [List.zipIdx_singleton, List.foldl_cons, List.foldl_nil, hcounter, hnull]
  simp only [decide_eq_true_eq]

theorem pad_exact (hblocks : ∀ block ∈ blocks, block.length = 128)
    (hholds : Holds s (chain blocks) tail (limbs (1024 * blocks.length)) false)
    (htail : tail.length = 111) (hsmall : (blocks.flatten ++ tail).length < 2 ^ 61) :
    ∃ t, padMarker compress s = some t ∧ Padded t (blocks.flatten ++ tail) := by
  obtain ⟨t, hupdate, ht⟩ := (hholds.addLength (-8)).update_short compress [0x81]
    (by rw [htail]; decide)
  have hoffset : s.blockOffset = 111 := hholds.offset.trans htail
  have hlength := length_message tail hblocks
  generalize hn : (blocks.flatten ++ tail).length = n at hlength hsmall
  have hmarker : Blake.marker n = [0x81] := by
    rw [hlength, marker_tail _ (by omega), if_pos htail]
  have hone := hashBits_one hblocks (by omega) false (by rw [htail]; rfl) hn.symm
  rw [hmarker] at hone
  have hcount := @lengthCarry_moved blocks.length (8 * tail.length) (-8 + 896) (by omega) (by omega)
    (by omega)
  have hbits : 1024 * blocks.length + 8 * tail.length = 8 * n := by omega
  refine ⟨t, by rw [padMarker, if_pos hoffset, hupdate], _, _, _, _, ht, hone.1, ?_, ?_⟩
  · rw [modifyHead_add, hcount, hn, hbits]
  · rw [hn]
    exact hone.2

theorem Holds.update_one (compress : Blake512 → Option Blake512)
    (hs : Holds s h buffer length nullt) (hbuffer : buffer.length = 111) :
    ∃ t, update compress [0x01] s = some t ∧
      Holds (t.addLength (-8)) h (buffer ++ [0x01]) (length.modifyHead (· + -8)) nullt := by
  obtain ⟨t, hupdate, ht⟩ := hs.update_short compress [0x01] (by rw [hbuffer]; decide)
  exact ⟨t, hupdate, ht.addLength (-8)⟩

theorem Holds.padBelow (compress : Blake512 → Option Blake512)
    (hs : Holds s h buffer length false) (hbuffer : buffer.length < 111) :
    ∃ t, Blake512.padBelow compress s = some t ∧
      Holds t h (buffer ++ 0x80 :: List.replicate (110 - buffer.length) 0)
        (length.modifyHead (· + -((111 - buffer.length : Nat) * 8 : Int)))
        (decide (buffer.length = 0)) := by
  have hoffset := hs.offset
  have hgap : minus 111 s.blockOffset = some (111 - buffer.length) := by
    rw [minus, if_pos (by omega), hoffset]
  have hslice := @paddingSlice_zero (111 - buffer.length) (by omega) (by omega)
  have hzeros : 111 - buffer.length - 1 = 110 - buffer.length := by omega
  rw [hzeros] at hslice
  have hmarked : Holds (if s.blockOffset = 0 then { s with nullt := true } else s) h buffer length
      (decide (buffer.length = 0)) := by
    by_cases hempty : buffer.length = 0
    · rw [if_pos (hoffset.trans hempty), decide_eq_true hempty]
      exact hs.setNull
    · rw [if_neg (by omega), decide_eq_false hempty]
      exact hs
  have hlowered := hmarked.addLength (-((111 - buffer.length : Nat) * 8 : Int))
  obtain ⟨t, hupdate, ht⟩ := hlowered.update_short compress
    (0x80 :: List.replicate (110 - buffer.length) 0)
    (by rw [List.length_cons, List.length_replicate]; omega)
  refine ⟨t, ?_, ht⟩
  rw [Blake512.padBelow, hgap, Option.bind_eq_bind, Option.bind_some, hslice, Option.bind_eq_bind,
    Option.bind_some]
  exact hupdate

theorem pad_below (hblocks : ∀ block ∈ blocks, block.length = 128)
    (hholds : Holds s (chain blocks) tail (limbs (1024 * blocks.length)) false)
    (htail : tail.length < 111) (hsmall : (blocks.flatten ++ tail).length < 2 ^ 61) :
    ∃ t, padMarker compress s = some t ∧ Padded t (blocks.flatten ++ tail) := by
  obtain ⟨u, hbelow, hu⟩ := hholds.padBelow compress htail
  have hbuffer : (tail ++ 0x80 :: List.replicate (110 - tail.length) 0).length = 111 := by
    rw [List.length_append, List.length_cons, List.length_replicate]
    omega
  obtain ⟨t, hone, ht⟩ := hu.update_one compress hbuffer
  have hoffset : s.blockOffset = tail.length := hholds.offset
  have hlength := length_message tail hblocks
  generalize hn : (blocks.flatten ++ tail).length = n at hlength hsmall
  have hmarker : tail ++ Blake.marker n =
      tail ++ 0x80 :: List.replicate (110 - tail.length) 0 ++ [0x01] := by
    rw [hlength, marker_tail _ (by omega), if_neg (by omega), if_pos htail, List.append_assoc,
      List.cons_append]
  have hspec := hashBits_one hblocks (Nat.le_of_lt htail) _ rfl hn.symm
  rw [hmarker] at hspec
  have hcount := @lengthCarry_moved blocks.length (8 * tail.length)
    (-((111 - tail.length : Nat) * 8 : Int) + (-8 + 896)) (by omega) (by omega) (by omega)
  have hbits : 1024 * blocks.length + 8 * tail.length = 8 * n := by omega
  refine ⟨t.addLength (-8), ?_, _, _, _, _, ht, hspec.1, ?_, ?_⟩
  · rw [padMarker, if_neg (by omega), if_pos (by omega), hbelow, Option.bind_eq_bind,
      Option.bind_some, hone]
    rfl
  · rw [modifyHead_add, modifyHead_add, hcount, hn, hbits]
  · rw [hn]
    exact hspec.2

/-- The rest of the block is compressed under the count of the message; the next block starts with
the zeros behind it and is not counted. -/
theorem Holds.padAbove (hcompress : Compresses compress) {q : Nat}
    (hs : Holds s h buffer (limbs (1024 * q)) false) (hlow : 111 < buffer.length)
    (hhigh : buffer.length < 128) (hsmall : 1024 * q + 8 * buffer.length < 2 ^ 64) :
    ∃ t, Blake512.padAbove compress s = some t ∧
      Holds t (absorb h (buffer ++ 0x80 :: List.replicate (127 - buffer.length) 0)
          (1024 * q + 8 * buffer.length))
        (List.replicate 111 0)
        ((limbs (1024 * q + 8 * buffer.length)).modifyHead (· + -(111 * 8 : Int))) true := by
  have hoffset := hs.offset
  have hgap : minus 128 s.blockOffset = some (128 - buffer.length) := by
    rw [minus, if_pos (by omega), hoffset]
  have hslice := @paddingSlice_zero (128 - buffer.length) (by omega) (by omega)
  have hzeros : 128 - buffer.length - 1 = 127 - buffer.length := by omega
  rw [hzeros] at hslice
  have hcount := @lengthCarry_moved q (8 * buffer.length)
    (-((128 - buffer.length : Nat) * 8 : Int) + 1024) (by omega) (by omega) hsmall
  rw [← modifyHead_add] at hcount
  obtain ⟨u, hfirst, hu⟩ := (hs.addLength (-((128 - buffer.length : Nat) * 8 : Int))).update_full
    hcompress (0x80 :: List.replicate (127 - buffer.length) 0)
    (by rw [List.length_cons, List.length_replicate]; omega) (List.cons_ne_nil _ _) hsmall hcount
  rw [if_neg Bool.false_ne_true] at hu
  have hrest : paddingSlice 1 (1 + 111) = some (List.replicate 111 0) := by decide +kernel
  obtain ⟨t, hsecond, ht⟩ := (hu.addLength (-(111 * 8 : Int))).update_short compress
    (List.replicate 111 0) (by rw [List.length_replicate]; decide)
  refine ⟨{ t with nullt := true }, ?_, ht.setNull⟩
  simp only [Blake512.padAbove, Option.bind_eq_bind, hgap, Option.bind_some, hslice, hfirst, hrest, hsecond]

/-- Two blocks take the tail, the marker and the length. -/
theorem hashBits_two (hblocks : ∀ block ∈ blocks, block.length = 128) (hlow : 111 < tail.length)
    (hhigh : tail.length < 128) {n : Nat} (hn : n = (blocks.flatten ++ tail).length) :
    absorb (absorb (chain blocks) (tail ++ 0x80 :: List.replicate (127 - tail.length) 0) (8 * n))
      (List.replicate 111 0 ++ [0x01] ++ beBytes 16 (8 * n)) 0 =
        Blake.hashBits (Vector.replicate 4 0) (byteBits (blocks.flatten ++ tail)) := by
  have hmarker : Blake.marker n = 0x80 :: (List.replicate (127 - tail.length) 0 ++
      (List.replicate 111 0 ++ [0x01])) := by
    rw [hn, length_message tail hblocks, marker_tail _ hhigh, if_neg (by omega), if_neg (by omega)]
  have hlast : ∀ block ∈ [tail ++ 0x80 :: List.replicate (127 - tail.length) 0,
      List.replicate 111 0 ++ [0x01] ++ beBytes 16 (8 * n)], block.length = 128 := by
    intro block hblock
    rcases List.mem_cons.mp hblock with rfl | hblock
    · rw [List.length_append, List.length_cons, List.length_replicate]
      omega
    · rw [List.mem_singleton.mp hblock, List.length_append, List.length_append,
        List.length_replicate, List.length_singleton, beBytes_length]
  rw [hashBits_blocks hblocks hlast hn]
  · have hfirst := @counter_tail blocks.length tail.length hhigh
    have hsecond := @counter_beyond blocks.length tail.length hhigh
    rw [← length_message tail hblocks, ← hn] at hfirst hsecond
    rw [if_neg (by omega)] at hfirst
    rw [List.zipIdx_cons, List.zipIdx_singleton, List.foldl_cons, List.foldl_cons, List.foldl_nil,
      hfirst, hsecond]
  · rw [hmarker]
    simp only [List.flatten_cons, List.flatten_nil, List.append_assoc, List.cons_append,
      List.append_nil]

theorem pad_above (hcompress : Compresses compress)
    (hblocks : ∀ block ∈ blocks, block.length = 128)
    (hholds : Holds s (chain blocks) tail (limbs (1024 * blocks.length)) false)
    (hlow : 111 < tail.length) (hhigh : tail.length < 128)
    (hsmall : (blocks.flatten ++ tail).length < 2 ^ 61) :
    ∃ t, padMarker compress s = some t ∧ Padded t (blocks.flatten ++ tail) := by
  have hlength := length_message tail hblocks
  have hspec := hashBits_two hblocks hlow hhigh rfl
  have hoffset : s.blockOffset = tail.length := hholds.offset
  generalize hn : (blocks.flatten ++ tail).length = n at hlength hsmall hspec
  have hbits : 1024 * blocks.length + 8 * tail.length = 8 * n := by omega
  obtain ⟨u, habove, hu⟩ := hholds.padAbove hcompress hlow hhigh (by omega)
  rw [hbits] at hu
  obtain ⟨t, hone, ht⟩ := hu.update_one compress List.length_replicate
  refine ⟨t.addLength (-8), ?_, _, _, _, _, ht, ?_, ?_, ?_⟩
  · rw [padMarker, if_neg (by omega), if_neg (by omega), habove, Option.bind_eq_bind,
      Option.bind_some, hone]
    rfl
  · rw [List.length_append, List.length_replicate, List.length_singleton]
  · rw [modifyHead_add, modifyHead_add, hn]
    exact lengthCarry_back (by decide)
  · rw [hn]
    exact hspec

theorem padMarker_spec (hcompress : Compresses compress) {message : List UInt8}
    (hs : Absorbed s message) (hsmall : message.length < 2 ^ 61) :
    ∃ t, padMarker compress s = some t ∧ Padded t message := by
  obtain ⟨blocks, tail, rfl, hblocks, htail, hholds⟩ := hs
  rcases Nat.lt_trichotomy tail.length 111 with hlt | heq | hgt
  · exact pad_below hblocks hholds hlt hsmall
  · exact pad_exact hblocks hholds heq hsmall
  · exact pad_above hcompress hblocks hholds hgt htail hsmall

theorem digest_spec (hcompress : Compresses compress) {message : List UInt8}
    (hs : Absorbed s message) (hsmall : message.length < 2 ^ 61) :
    digest compress s = some (Blake.hash message) := by
  obtain ⟨u, hmarker, h, buffer, length, nullt, hu, hbuffer, hcount, hspec⟩ :=
    padMarker_spec hcompress hs hsmall
  have hmsglen := msglen_eq hs hsmall
  have hmoves : (-128 + 1024 : Int) = 896 := by decide
  rw [← hmoves, ← modifyHead_add] at hcount
  obtain ⟨t, hupdate, ht⟩ := (hu.addLength (-128)).update_full hcompress
    (beBytes 16 (8 * message.length)) (by rw [hbuffer, beBytes_length])
    (List.ne_nil_of_length_pos (by rw [beBytes_length]; decide)) (by omega) hcount
  have hpad : pad compress s = some t := by
    rw [pad, hmarker, Option.bind_eq_bind, Option.bind_some, hmsglen, hupdate]
  have hchain : t.h = Blake.hashBits (Vector.replicate 4 0) (byteBits message) :=
    ht.h_eq.trans hspec
  rw [digest, hpad, Option.map_some, hchain, Blake.hash]

theorem hashPieces_spec (hcompress : Compresses compress) {pieces : List (List UInt8)}
    (hsmall : pieces.flatten.length < 2 ^ 61) :
    hashPieces compress pieces = some (Blake.hash pieces.flatten) := by
  obtain ⟨s, hfold, hs⟩ := foldlM_absorbed hcompress absorbed_new hsmall
  rw [List.nil_append] at hs
  rw [hashPieces, hfold, Option.bind_some, digest_spec hcompress hs hsmall]

theorem compresses_checked : Compresses compressedChecked := by
  intro s n hn hlength
  have hrange : (limbs n).all (fun limb => 0 ≤ limb && limb < 0x100000000) = true := by
    simp [limbs]
    omega
  rw [compressedChecked, hlength, if_pos hrange]

/-- Whatever the pieces, the digest is that of the whole message; no index leaves the block, and
a compression that refuses limbs out of range changes nothing. -/
theorem incremental_is_blake512 (pieces : List (List UInt8))
    (hsmall : pieces.flatten.length < 2 ^ 61) :
    hashPieces compressed pieces = some (Blake.hash pieces.flatten) ∧
      hashPieces compressedChecked pieces = some (Blake.hash pieces.flatten) :=
  ⟨hashPieces_spec (fun _ _ _ _ => rfl) hsmall, hashPieces_spec compresses_checked hsmall⟩

theorem incremental_is_blake512_example :
    hashPieces compressed [[], [0x61], [0x62, 0x63]] = some (Blake.hash [0x61, 0x62, 0x63]) :=
  (incremental_is_blake512 [[], [0x61], [0x62, 0x63]] (by decide)).1

/-! ## Every message has a digest -/

theorem holds_self (hroom : s.blockOffset ≤ 128) :
    Holds s s.h (s.block.toList.take s.blockOffset) s.length s.nullt := by
  have hlength : (s.block.toList.take s.blockOffset).length = s.blockOffset := by
    rw [List.length_take, Vector.length_toList]
    exact Nat.min_eq_left hroom
  exact ⟨rfl, hlength.symm, by rw [hlength], rfl, rfl⟩

theorem updateLoop_total {fuel : Nat} {data : List UInt8} (hfuel : data.length < fuel)
    (hroom : s.blockOffset < 128) :
    ∃ t, updateLoop compressed fuel data s = some t ∧
      t.blockOffset = (s.blockOffset + data.length) % 128 := by
  induction fuel generalizing s data with
  | zero => exact absurd hfuel (Nat.not_lt_zero _)
  | succ fuel ih =>
    have hself := holds_self (Nat.le_of_lt hroom)
    have hbuffer := hself.offset
    by_cases hshort : s.blockOffset + data.length < 128
    · obtain ⟨t, hloop, ht⟩ := hself.updateLoop_short compressed fuel data (by omega)
      refine ⟨t, hloop, ?_⟩
      rw [ht.offset, List.length_append, ← hbuffer, Nat.mod_eq_of_lt hshort]
    · obtain ⟨first, rest, rfl, hfull⟩ : ∃ first rest, data = first ++ rest ∧
          s.blockOffset + first.length = 128 := by
        refine ⟨data.take (128 - s.blockOffset), data.drop (128 - s.blockOffset),
          (List.take_append_drop _ _).symm, ?_⟩
        rw [List.length_take]
        omega
      obtain ⟨u, hfill, _⟩ := hself.fill first rest (by omega)
      rw [List.length_append] at hfuel
      have hlong : blockBytes ≤ s.blockOffset + (first ++ rest).length := by
        rw [List.length_append, ← Nat.add_assoc, hfull]
        exact Nat.le_add_right _ _
      -- the block is closed with the offset back at its start
      obtain ⟨v, hclose, hv⟩ : ∃ v, Blake512.close compressed u = some v ∧ v.blockOffset = 0 :=
        ⟨_, rfl, rfl⟩
      obtain ⟨t, hrest, ht⟩ := @ih v rest (by omega) (by omega)
      refine ⟨t, ?_, ?_⟩
      · rw [updateLoop, if_pos hlong, hfill]
        dsimp only [Option.bind_eq_bind, Option.bind_some]
        rw [hclose]
        exact hrest
      · rw [ht, hv, List.length_append, ← Nat.add_assoc, hfull, Nat.zero_add, Nat.add_mod_left]

theorem update_total (data : List UInt8) (hroom : s.blockOffset < 128) :
    ∃ t, update compressed data s = some t ∧
      t.blockOffset = (s.blockOffset + data.length) % 128 :=
  updateLoop_total (Nat.lt_succ_self _) hroom

theorem paddingSlice_some {start stop : Nat} (hle : start ≤ stop) (hstop : stop ≤ 128) :
    ∃ bytes, paddingSlice start stop = some bytes ∧ bytes.length = stop - start := by
  have hlength : padding.length = 128 := rfl
  refine ⟨(padding.take stop).drop start, if_pos ⟨hle, by omega⟩, ?_⟩
  rw [List.length_drop, List.length_take, hlength]
  omega

theorem padBelow_total (hroom : s.blockOffset < 111) :
    ∃ t, padBelow compressed s = some t ∧ t.blockOffset = 111 := by
  obtain ⟨bytes, hslice, hlength⟩ := @paddingSlice_some 0 (111 - s.blockOffset) (by omega) (by omega)
  have hgap : minus 111 s.blockOffset = some (111 - s.blockOffset) := if_pos (by omega)
  unfold padBelow
  rw [hgap]
  dsimp only [Option.bind_eq_bind, Option.bind_some]
  rw [hslice]
  dsimp only [Option.bind_some]
  generalize hmarked : (if s.blockOffset = 0 then ({ s with nullt := true } : Blake512) else s) = u
  have hoffset : u.blockOffset = s.blockOffset := by
    rw [← hmarked]
    split <;> rfl
  obtain ⟨t, hupdate, ht⟩ := @update_total (u.addLength (-((111 - s.blockOffset : Nat) * 8))) bytes
    (by rw [addLength, hoffset]; omega)
  have hsum : (u.addLength (-((111 - s.blockOffset : Nat) * 8))).blockOffset = s.blockOffset := hoffset
  refine ⟨t, hupdate, ?_⟩
  rw [ht, hsum, hlength]
  omega

theorem padAbove_total (hlow : 111 < s.blockOffset) (hroom : s.blockOffset < 128) :
    ∃ t, padAbove compressed s = some t ∧ t.blockOffset = 111 := by
  obtain ⟨zeros, hzeros, hlength⟩ := @paddingSlice_some 0 (128 - s.blockOffset) (by omega) (by omega)
  obtain ⟨more, hmore, hlength'⟩ := @paddingSlice_some 1 (1 + 111) (by omega) (by omega)
  have hgap : minus 128 s.blockOffset = some (128 - s.blockOffset) := if_pos (by omega)
  have hsame : (s.addLength (-((128 - s.blockOffset : Nat) * 8))).blockOffset = s.blockOffset := rfl
  obtain ⟨u, hfirst, hu⟩ := @update_total (s.addLength (-((128 - s.blockOffset : Nat) * 8))) zeros hroom
  have hmoved : (u.addLength (-(111 * 8))).blockOffset = u.blockOffset := rfl
  rw [hsame, hlength] at hu
  obtain ⟨t, hsecond, ht⟩ := @update_total (u.addLength (-(111 * 8))) more (by omega)
  rw [hmoved, hlength'] at ht
  refine ⟨{ t with nullt := true }, ?_, by dsimp only; omega⟩
  unfold padAbove
  rw [hgap]
  dsimp only [Option.bind_eq_bind, Option.bind_some]
  rw [hzeros]
  dsimp only [Option.bind_some]
  rw [hfirst]
  dsimp only [Option.bind_some]
  rw [hmore]
  dsimp only [Option.bind_some]
  rw [hsecond]
  rfl

theorem padMarker_total (hroom : s.blockOffset < 128) :
    ∃ t, padMarker compressed s = some t ∧ t.blockOffset = 112 := by
  unfold padMarker
  by_cases hexact : s.blockOffset = 111
  · rw [if_pos hexact]
    obtain ⟨t, hupdate, ht⟩ := @update_total (s.addLength (-8)) [0x81] hroom
    have hsame : (s.addLength (-8)).blockOffset = s.blockOffset := rfl
    refine ⟨t, hupdate, ?_⟩
    rw [ht, hsame, hexact]
    rfl
  · rw [if_neg hexact]
    obtain ⟨u, hpad, hu⟩ : ∃ u, (if s.blockOffset < 111 then padBelow compressed s
        else padAbove compressed s) = some u ∧ u.blockOffset = 111 := by
      by_cases hbelow : s.blockOffset < 111
      · rw [if_pos hbelow]
        exact padBelow_total hbelow
      · rw [if_neg hbelow]
        exact padAbove_total (by omega) hroom
    rw [hpad]
    obtain ⟨t, hupdate, ht⟩ := @update_total u [0x01] (by omega)
    rw [hu] at ht
    dsimp only [Option.bind_eq_bind, Option.bind_some]
    rw [hupdate]
    exact ⟨_, rfl, ht⟩

theorem length_words (words : List UInt64) :
    (words.flatMap fun w => beBytes 8 w.toNat).length = 8 * words.length := by
  induction words with
  | nil => rfl
  | cons w words ih =>
    rw [List.flatMap_cons, List.length_append, beBytes_length, ih, List.length_cons]
    omega

/-- The counter may have wrapped, but no index ever leaves the block. -/
theorem blake512_total (data : List UInt8) :
    ∃ digest, blake512 data = some digest ∧ digest.length = 64 := by
  obtain ⟨s, hdata, hs⟩ := @update_total new data (by decide)
  obtain ⟨padded, hmarker, hpadded⟩ := @padMarker_total s (by omega)
  have hmoved : (padded.addLength (-128)).blockOffset = padded.blockOffset := rfl
  obtain ⟨t, hupdate, _⟩ := @update_total (padded.addLength (-128)) s.msglen (by omega)
  refine ⟨t.h.toList.flatMap fun w => beBytes 8 w.toNat, ?_, ?_⟩
  · rw [blake512, hdata, Option.bind_some, digest, pad, hmarker, Option.bind_eq_bind,
      Option.bind_some, hupdate, Option.map_some]
  · rw [length_words, Vector.length_toList]

end Blake512

end Curvy
