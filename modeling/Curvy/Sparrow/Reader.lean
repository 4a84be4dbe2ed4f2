import Curvy.Sparrow.FramerCalls

/-!
# The reader-driven prover

`proveReader` pulls the headers and the section bodies from a reader over the whole file and
makes the builder calls itself, the body in buffers of `ioChunkBytes`. A body that the end of
the file cuts short loses the bytes of its last, incomplete buffer.
-/

namespace Curvy.Sparrow

set_option autoImplicit false

open Outcome

/-- A validated configuration. -/
structure StreamingConfig where
  windowBits : Nat
  msmChunkPoints : Nat
  ioChunkBytes : Nat
  windowBits_mem : windowBits = 0 ∨ 4 ≤ windowBits ∧ windowBits ≤ 16
  msmChunkPoints_mem : 1 ≤ msmChunkPoints ∧ msmChunkPoints ≤ 1048576
  ioChunkBytes_mem : fileHeaderBytes ≤ ioChunkBytes ∧ ioChunkBytes ≤ 8 * 1024 * 1024

theorem StreamingConfig.ioChunkBytes_pos (config : StreamingConfig) : 0 < config.ioChunkBytes :=
  Nat.lt_of_lt_of_le (by decide) config.ioChunkBytes_mem.1

section Reader

variable {S P : Type} (ops : Sections S P)

/-- The next `count` bytes and the bytes behind them. -/
def readExactStream (count : Nat) (rest : List UInt8) :
    Except StreamingError (List UInt8 × List UInt8) :=
  if rest.length < count then .error .unexpectedEof else .ok (rest.take count, rest.drop count)

/-- Runs a read, then the rest of a call on the builder. -/
def reading {α β : Type} (x : Except StreamingError α) (b : StreamingProofBuilder S P)
    (k : α → Except StreamingError β × StreamingProofBuilder S P) :
    Except StreamingError β × StreamingProofBuilder S P :=
  match x with
  | .error e => (.error e, b)
  | .ok a => k a

/-- The section body loop. A round reads at least one byte, so `remaining` rounds suffice. -/
def readBody (ioChunkBytes : Nat) : Nat → Nat → List UInt8 → StreamingProofBuilder S P →
    Except StreamingError (List UInt8) × StreamingProofBuilder S P
  | 0, _, rest, b => (.ok rest, b)
  | rounds + 1, remaining, rest, b =>
    if remaining = 0 then (.ok rest, b)
    else
      let wanted := min remaining ioChunkBytes
      reading (readExactStream wanted rest) b fun (bytes, rest) =>
        next (StreamingProofBuilder.pushSectionChunk ops bytes b) fun _ b =>
          readBody ioChunkBytes rounds (remaining - wanted) rest b

def readSections (ioChunkBytes : Nat) : Nat → List UInt8 → StreamingProofBuilder S P →
    Except StreamingError (List UInt8) × StreamingProofBuilder S P
  | 0, rest, b => (.ok rest, b)
  | sections + 1, rest, b =>
    reading (readExactStream sectionHeaderBytes rest) b fun (header, rest) =>
      let remaining := leNat (header.drop 4)
      next (StreamingProofBuilder.beginSection ops header b) fun _ b =>
        next (readBody ops ioChunkBytes remaining remaining rest b) fun rest b =>
          next (StreamingProofBuilder.endSection ops b) fun _ b =>
            readSections ioChunkBytes sections rest b

/-- The calls up to `builder.finish()`, on the bytes of the authenticated file. -/
def proveReaderOwned (config : StreamingConfig) (bytes : List UInt8)
    (b : StreamingProofBuilder S P) : Except StreamingError Unit × StreamingProofBuilder S P :=
  reading (readExactStream fileHeaderBytes bytes) b fun (header, rest) =>
    next (StreamingProofBuilder.beginZkey header b) fun _ b =>
      next (readSections ops config.ioChunkBytes zkeySections rest b) fun rest b =>
        if rest ≠ [] then (.error (.invalidZkey "trailing bytes after zkey sections"), b)
        else (.ok (), b)

/-! ## Outcomes -/

/-- How the calls a byte string makes can end. -/
inductive Drive (b : StreamingProofBuilder S P) (t : Trace) (limit : Nat) :
    Except StreamingError Unit → StreamingProofBuilder S P → Prop
  | complete {b' : StreamingProofBuilder S P} {calls : List BuilderCall} (u : Unit)
      (makes : Makes ops b calls (.ok u) b') (trace : t = (effects calls, .complete)) :
      Drive b t limit (.ok u) b'
  | refused {b' : StreamingProofBuilder S P} {calls : List BuilderCall} {e : StreamingError}
      (makes : Makes ops b calls (.error e) b') (trace : effects calls <+: t.1) :
      Drive b t limit (.error e) b'
  | truncated {b' : StreamingProofBuilder S P} {calls : List BuilderCall} {e : StreamingError}
      (lost : List UInt8) (u : Unit) (makes : Makes ops b calls (.ok u) b')
      (short : lost.length < limit)
      (trace : t = (effects calls ++ lost.map .byte, .truncated)) : Drive b t limit (.error e) b'
  | trailing {b' : StreamingProofBuilder S P} {calls : List BuilderCall} {e : StreamingError}
      (u : Unit) (makes : Makes ops b calls (.ok u) b')
      (trace : t = (effects calls, .trailing)) : Drive b t limit (.error e) b'

variable {ops}

theorem Drive.after {b b₁ b' : StreamingProofBuilder S P} {t : Trace} {limit : Nat}
    {calls : List BuilderCall} {u : Unit} {r : Except StreamingError Unit}
    (makes : Makes ops b calls (.ok u) b₁) (h : Drive ops b₁ t limit r b') :
    Drive ops b (t.after (effects calls)) limit r b' := by
  cases h with
  | complete u' makes' trace =>
    refine .complete u' (makes.append rfl makes') ?_
    rw [trace, effects_append]
    rfl
  | refused makes' trace =>
    refine .refused (makes.append rfl makes') ?_
    rw [effects_append]
    exact (List.prefix_append_right_inj _).mpr trace
  | truncated lost u' makes' short trace =>
    refine .truncated lost u' (makes.append rfl makes') short ?_
    rw [trace, effects_append, List.append_assoc]
    rfl
  | trailing u' makes' trace =>
    refine .trailing u' (makes.append rfl makes') ?_
    rw [trace, effects_append]
    rfl

/-- A refused call at the front of the trace. -/
theorem Drive.stopped {b b' : StreamingProofBuilder S P} {t : Trace} {limit : Nat}
    {call : BuilderCall} {e : StreamingError} (h : b.call ops call = (.error e, b'))
    (nonempty : call ≠ .push []) : Drive ops b (t.after call.effects) limit (.error e) b' :=
  .refused (.refused h nonempty) (by simp)

/-- The file ends before the next call. -/
theorem Drive.cut {b : StreamingProofBuilder S P} {limit : Nat} (lost : List UInt8)
    {e : StreamingError} (short : lost.length < limit) :
    Drive ops b (lost.map .byte, .truncated) limit (.error e) b :=
  .truncated lost () (.nil b) short rfl

variable (ops)

/-- Either the whole body is pushed, or the calls end in it. -/
theorem readBody_spec {ioChunkBytes : Nat} (hio : 0 < ioChunkBytes)
    (after : List UInt8 → Trace) {rounds : Nat} : ∀ {remaining : Nat} (rest : List UInt8)
    (b : StreamingProofBuilder S P), remaining ≤ rounds →
    ∃ r b', readBody ops ioChunkBytes rounds remaining rest b = (r, b') ∧
      (∀ left, r = .ok left → ∃ calls u, Makes ops b calls (.ok u) b' ∧
        bodyTrace after remaining rest = (bodyTrace after 0 left).after (effects calls)) ∧
      ∀ e, r = .error e → Drive ops b (bodyTrace after remaining rest) ioChunkBytes (.error e) b' := by
  induction rounds with
  | zero =>
    intro remaining rest b h
    rw [Nat.le_zero.mp h]
    refine ⟨_, _, rfl, fun left hleft => ?_, fun e he => (by cases he)⟩
    cases hleft
    exact ⟨[], (), .nil b, rfl⟩
  | succ rounds ih =>
    intro remaining rest b h
    unfold readBody
    by_cases hzero : remaining = 0
    · rw [if_pos hzero, hzero]
      refine ⟨_, _, rfl, fun left hleft => ?_, fun e he => (by cases he)⟩
      cases hleft
      exact ⟨[], (), .nil b, rfl⟩
    · rw [if_neg hzero]
      dsimp only
      generalize hwanted : min remaining ioChunkBytes = wanted
      unfold readExactStream
      by_cases hshort : rest.length < wanted
      · rw [if_pos hshort]
        refine ⟨_, _, rfl, fun left hleft => (by cases hleft), fun e _ => ?_⟩
        unfold bodyTrace
        rw [if_pos (by omega)]
        exact .cut rest (by omega)
      · rw [if_neg hshort]
        have htake : (rest.take wanted).length = wanted := by
          rw [List.length_take]
          omega
        have hpush : BuilderCall.push (rest.take wanted) ≠ .push [] := by
          intro h
          rw [BuilderCall.push.inj h, List.length_nil] at htake
          omega
        have htrace := bodyTrace_append after remaining (rest.take wanted) (by omega)
          (rest.drop wanted)
        rw [List.take_append_drop, htake] at htrace
        dsimp only [reading]
        cases hcall : b.pushSectionChunk ops (rest.take wanted) with
        | mk r b₁ =>
          have hcall' : b.call ops (.push (rest.take wanted)) = (r, b₁) := hcall
          cases r with
          | error e =>
            refine ⟨_, _, rfl, fun left hleft => (by cases hleft), fun e' he' => ?_⟩
            cases he'
            rw [htrace]
            exact .stopped hcall' hpush
          | ok u =>
            rw [next_ok]
            obtain ⟨r, b', hbody, hok, herror⟩ := ih (rest.drop wanted) b₁
              (Nat.sub_le_of_le_add (show remaining ≤ rounds + wanted by omega))
            have hmade : Makes ops b [.push (rest.take wanted)] (.ok u) b₁ :=
              .taken hcall' hpush (.nil b₁)
            refine ⟨r, b', hbody, fun left hleft => ?_, fun e he => ?_⟩
            · obtain ⟨calls, u', hcalls, hleft'⟩ := hok left hleft
              refine ⟨_, u', hmade.append rfl hcalls, ?_⟩
              rw [htrace, hleft', Trace.after_after, effects_append, effects_singleton]
              rfl
            · rw [htrace]
              have := (herror e he).after hmade
              rw [effects_singleton] at this
              exact this

theorem readSections_spec {ioChunkBytes : Nat} (hio : 0 < ioChunkBytes) (sections : Nat) :
    ∀ (rest : List UInt8) (b : StreamingProofBuilder S P),
    ∃ r b', readSections ops ioChunkBytes sections rest b = (r, b') ∧
      (∀ left, r = .ok left → ∃ calls u, Makes ops b calls (.ok u) b' ∧
        sectionsTrace sections rest = (sectionsTrace 0 left).after (effects calls)) ∧
      ∀ e, r = .error e →
        Drive ops b (sectionsTrace sections rest) ioChunkBytes (.error e) b' := by
  induction sections with
  | zero =>
    intro rest b
    refine ⟨_, _, rfl, fun left hleft => ?_, fun e he => (by cases he)⟩
    cases hleft
    exact ⟨[], (), .nil b, rfl⟩
  | succ sections ih =>
    intro rest b
    unfold readSections readExactStream
    by_cases hshort : rest.length < sectionHeaderBytes
    · rw [if_pos hshort]
      refine ⟨_, _, rfl, fun left hleft => (by cases hleft), fun e _ => ?_⟩
      unfold sectionsTrace
      rw [if_pos hshort]
      exact Drive.cut [] hio
    · rw [if_neg hshort]
      have htake : (rest.take sectionHeaderBytes).length = sectionHeaderBytes := by
        rw [List.length_take]
        omega
      have htrace := sectionsTrace_header htake sections (rest.drop sectionHeaderBytes)
      rw [List.take_append_drop] at htrace
      dsimp only [reading]
      generalize rest.take sectionHeaderBytes = header at htake htrace ⊢
      cases hcall : b.beginSection ops header with
      | mk r b₁ =>
        have hcall' : b.call ops (.beginSection header) = (r, b₁) := hcall
        cases r with
        | error e =>
          refine ⟨_, _, rfl, fun left hleft => (by cases hleft), fun e' he' => ?_⟩
          cases he'
          rw [htrace]
          exact .stopped hcall' (fun h => by cases h)
        | ok u =>
          rw [next_ok]
          have hmade : Makes ops b [.beginSection header] (.ok u) b₁ :=
            .taken hcall' (fun h => by cases h) (.nil b₁)
          obtain ⟨r, b₂, hbody, hok, herror⟩ := readBody_spec ops hio (sectionsTrace sections)
            (rest.drop sectionHeaderBytes) b₁ (Nat.le_refl (leNat (header.drop 4)))
          rw [hbody]
          cases r with
          | error e =>
            refine ⟨_, _, rfl, fun left hleft => (by cases hleft), fun e' he' => ?_⟩
            cases he'
            rw [htrace]
            exact (herror e rfl).after hmade
          | ok left =>
            rw [next_ok]
            obtain ⟨calls, u', hcalls, hleft⟩ := hok left rfl
            have hmade' := hmade.append rfl hcalls
            rw [hleft, bodyTrace_zero, Trace.after_after] at htrace
            cases hend : b₂.endSection ops with
            | mk r b₃ =>
              have hend' : b₂.call ops .endSection = (r, b₃) := hend
              cases r with
              | error e =>
                refine ⟨_, _, rfl, fun left hleft => (by cases hleft), fun e' he' => ?_⟩
                cases he'
                have hstopped : Drive ops b₂ _ ioChunkBytes (.error e) b₃ :=
                  .stopped (t := sectionsTrace sections left) hend' (fun h => by cases h)
                have := hstopped.after hmade'
                rw [Trace.after_after] at this
                rw [htrace]
                simpa [Trace.after_after, BuilderCall.effects] using this
              | ok u'' =>
                rw [next_ok]
                have hmade'' := hmade'.append rfl (.taken hend' (fun h => by cases h) (.nil b₃))
                obtain ⟨r, b', hrest, hok', herror'⟩ := ih left b₃
                refine ⟨r, b', hrest, fun left' hleft' => ?_, fun e he => ?_⟩
                · obtain ⟨calls', u', hcalls', htrace'⟩ := hok' left' hleft'
                  refine ⟨_, u', hmade''.append rfl hcalls', ?_⟩
                  rw [htrace, htrace']
                  simp [Trace.after_after, BuilderCall.effects]
                · have := (herror' e he).after hmade''
                  rw [htrace]
                  simpa [Trace.after_after, BuilderCall.effects] using this

/-- What the prover made of the builder when it stopped. -/
theorem proveReaderOwned_spec (config : StreamingConfig) (bytes : List UInt8)
    (b : StreamingProofBuilder S P) :
    ∃ r b', proveReaderOwned ops config bytes b = (r, b') ∧
      Drive ops b (trace bytes) config.ioChunkBytes r b' := by
  have hio := config.ioChunkBytes_pos
  unfold proveReaderOwned readExactStream
  by_cases hshort : bytes.length < fileHeaderBytes
  · rw [if_pos hshort]
    refine ⟨_, _, rfl, ?_⟩
    unfold trace
    rw [if_pos hshort]
    exact Drive.cut [] hio
  · rw [if_neg hshort]
    have htake : (bytes.take fileHeaderBytes).length = fileHeaderBytes := by
      rw [List.length_take]
      omega
    have htrace := trace_header htake (bytes.drop fileHeaderBytes)
    rw [List.take_append_drop] at htrace
    dsimp only [reading]
    cases hcall : b.beginZkey (bytes.take fileHeaderBytes) with
    | mk r b₁ =>
      have hcall' : b.call ops (.beginZkey (bytes.take fileHeaderBytes)) = (r, b₁) := hcall
      cases r with
      | error e =>
        refine ⟨_, _, rfl, ?_⟩
        rw [htrace]
        exact .stopped hcall' (fun h => by cases h)
      | ok u =>
        rw [next_ok]
        have hmade : Makes ops b [.beginZkey (bytes.take fileHeaderBytes)] (.ok u) b₁ :=
          .taken hcall' (fun h => by cases h) (.nil b₁)
        obtain ⟨r, b', hsections, hok, herror⟩ := readSections_spec ops hio
          zkeySections (bytes.drop fileHeaderBytes) b₁
        rw [hsections, htrace]
        cases r with
        | error e => exact ⟨_, _, rfl, (herror e rfl).after hmade⟩
        | ok left =>
          obtain ⟨calls, u', hcalls, hleft⟩ := hok left rfl
          have hmade' := hmade.append rfl hcalls
          rw [next_ok, hleft, Trace.after_after]
          by_cases hend : left = []
          · rw [if_neg (not_not_intro hend), hend]
            refine ⟨_, _, rfl, ?_⟩
            refine .complete u' hmade' ?_
            simp [sectionsTrace, Trace.after, BuilderCall.effects]
          · rw [if_pos hend]
            refine ⟨_, _, rfl, ?_⟩
            refine .trailing u' hmade' ?_
            simp [sectionsTrace, Trace.after, BuilderCall.effects, hend]

end Reader

end Curvy.Sparrow
