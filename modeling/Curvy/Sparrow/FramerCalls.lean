import Curvy.Sparrow.Framer

/-!
# What a zkey stream makes of the builder

The calls that a byte string makes on the proof builder, with section bytes counted one by
one, so that two ways of cutting a section make the same effects. `trace` reads the effects
off the bytes alone. The framer makes a prefix of it, and all of it unless a call is refused.
-/

namespace Curvy.Sparrow

set_option autoImplicit false

open Outcome

/-! ## Builder calls -/

inductive BuilderCall where
  | beginZkey (header : List UInt8)
  | beginSection (header : List UInt8)
  | push (bytes : List UInt8)
  | endSection
  deriving DecidableEq, Repr

inductive Effect where
  | zkey (header : List UInt8)
  | section (header : List UInt8)
  | byte (b : UInt8)
  | close
  deriving DecidableEq, Repr

def BuilderCall.effects : BuilderCall → List Effect
  | .beginZkey header => [.zkey header]
  | .beginSection header => [.section header]
  | .push bytes => bytes.map .byte
  | .endSection => [.close]

def effects (calls : List BuilderCall) : List Effect := calls.flatMap BuilderCall.effects

@[simp] theorem effects_nil : effects [] = [] := rfl

@[simp] theorem effects_cons (call : BuilderCall) (calls : List BuilderCall) :
    effects (call :: calls) = call.effects ++ effects calls := rfl

theorem effects_singleton (call : BuilderCall) : effects [call] = call.effects := List.append_nil _

@[simp] theorem effects_append (calls calls' : List BuilderCall) :
    effects (calls ++ calls') = effects calls ++ effects calls' := List.flatMap_append

section Calls

variable {S P : Type} (ops : Sections S P)

def StreamingProofBuilder.call : BuilderCall → StreamingProofBuilder S P →
    Except StreamingError Unit × StreamingProofBuilder S P
  | .beginZkey header => beginZkey header
  | .beginSection header => beginSection ops header
  | .push bytes => pushSectionChunk ops bytes
  | .endSection => endSection ops

/-- Calls made one after the other, up to the first that is refused. No push is empty. -/
inductive Makes : StreamingProofBuilder S P → List BuilderCall → Except StreamingError Unit →
    StreamingProofBuilder S P → Prop
  | nil (b : StreamingProofBuilder S P) : Makes b [] (.ok ()) b
  | taken {b b' b'' : StreamingProofBuilder S P} {call : BuilderCall} {calls : List BuilderCall}
      {r : Except StreamingError Unit} {u : Unit} (h : b.call ops call = (.ok u, b'))
      (nonempty : call ≠ .push []) (rest : Makes b' calls r b'') :
      Makes b (call :: calls) r b''
  | refused {b b' : StreamingProofBuilder S P} {call : BuilderCall} {e : StreamingError}
      (h : b.call ops call = (.error e, b')) (nonempty : call ≠ .push []) : Makes b [call] (.error e) b'

variable {ops} in
theorem Makes.append {b b' b'' : StreamingProofBuilder S P} {calls calls' : List BuilderCall}
    {q r : Except StreamingError Unit} (h : Makes ops b calls q b') {u : Unit} (hq : q = .ok u)
    (h' : Makes ops b' calls' r b'') : Makes ops b (calls ++ calls') r b'' := by
  induction h with
  | nil b => exact h'
  | taken h nonempty rest ih => exact .taken h nonempty (ih hq h')
  | refused h nonempty => cases hq

end Calls

/-! ## The trace of a byte string -/

/-- Where a byte string stops: after ten sections, inside them, or behind them. -/
inductive Ending where
  | complete
  | truncated
  | trailing
  deriving DecidableEq, Repr

abbrev Trace := List Effect × Ending

/-- A section body of `length` bytes, and what follows it. -/
def bodyTrace (after : List UInt8 → Trace) (length : Nat) (rest : List UInt8) : Trace :=
  if rest.length < length then (rest.map .byte, .truncated)
  else ((rest.take length).map .byte ++ .close :: (after (rest.drop length)).1,
    (after (rest.drop length)).2)

def sectionsTrace : Nat → List UInt8 → Trace
  | 0, rest => ([], if rest = [] then .complete else .trailing)
  | sections + 1, rest =>
    if rest.length < sectionHeaderBytes then ([], .truncated)
    else
      let header := rest.take sectionHeaderBytes
      let t := bodyTrace (sectionsTrace sections) (leNat (header.drop 4))
        (rest.drop sectionHeaderBytes)
      (.section header :: t.1, t.2)

def trace (bytes : List UInt8) : Trace :=
  if bytes.length < fileHeaderBytes then ([], .truncated)
  else
    let t := sectionsTrace zkeySections (bytes.drop fileHeaderBytes)
    (.zkey (bytes.take fileHeaderBytes) :: t.1, t.2)

/-- The trace with effects in front. -/
def Trace.after (t : Trace) (es : List Effect) : Trace := (es ++ t.1, t.2)

@[simp] theorem Trace.after_fst (t : Trace) (es : List Effect) : (t.after es).1 = es ++ t.1 := rfl

@[simp] theorem Trace.after_snd (t : Trace) (es : List Effect) : (t.after es).2 = t.2 := rfl

@[simp] theorem Trace.after_nil (t : Trace) : t.after [] = t := rfl

theorem Trace.after_after (t : Trace) (es es' : List Effect) :
    (t.after es').after es = t.after (es ++ es') := by
  simp [Trace.after]

theorem bodyTrace_zero (after : List UInt8 → Trace) (rest : List UInt8) :
    bodyTrace after 0 rest = (after rest).after [.close] := by
  simp [bodyTrace, Trace.after]

/-- Body bytes that are there already. -/
theorem bodyTrace_append (after : List UInt8 → Trace) (length : Nat) (bytes : List UInt8)
    (h : bytes.length ≤ length) (rest : List UInt8) :
    bodyTrace after length (bytes ++ rest) =
      (bodyTrace after (length - bytes.length) rest).after (bytes.map .byte) := by
  unfold bodyTrace
  rw [List.length_append]
  by_cases hshort : rest.length < length - bytes.length
  · rw [if_pos hshort, if_pos (by omega)]
    simp [Trace.after]
  · rw [if_neg hshort, if_neg (by omega), List.take_append, List.drop_append,
      List.take_of_length_le h, List.drop_of_length_le h]
    simp [Trace.after]

/-- A complete section header. -/
theorem sectionsTrace_header {header : List UInt8} (h : header.length = sectionHeaderBytes)
    (sections : Nat) (rest : List UInt8) :
    sectionsTrace (sections + 1) (header ++ rest) =
      (bodyTrace (sectionsTrace sections) (leNat (header.drop 4)) rest).after
        [.section header] := by
  unfold sectionsTrace
  rw [if_neg (by rw [List.length_append]; omega)]
  dsimp only
  rw [List.take_left' h, List.drop_left' h]
  rfl

theorem trace_header {header : List UInt8} (h : header.length = fileHeaderBytes)
    (rest : List UInt8) :
    trace (header ++ rest) = (sectionsTrace zkeySections rest).after [.zkey header] := by
  unfold trace
  rw [if_neg (by rw [List.length_append]; omega), List.take_left' h, List.drop_left' h]
  rfl

/-! ## The framer -/

namespace ZkeyFramer

variable {S P : Type} (ops : Sections S P)

/-- The trace that the framer still makes of the bytes to come. -/
def remaining (f : ZkeyFramer S P) (rest : List UInt8) : Trace :=
  match f.state with
  | .fileHeader => trace (f.header ++ rest)
  | .sectionHeader => sectionsTrace (zkeySections - f.sections) (f.header ++ rest)
  | .sectionBody length =>
    bodyTrace (sectionsTrace (zkeySections - (f.sections + 1))) length rest
  | .done => sectionsTrace 0 rest

structure WellFormed (f : ZkeyFramer S P) : Prop where
  header : f.header.length < sectionHeaderBytes
  fileHeader : f.state = .fileHeader → f.sections = 0
  sectionHeader : f.state = .sectionHeader → f.sections < zkeySections
  sectionBody : ∀ length, f.state = .sectionBody length →
    f.sections < zkeySections ∧ 0 < length ∧ f.header = []
  done : f.state = .done → f.header = []

/-- What the framer does with `bytes`: it takes them but for the bytes left, or a builder call
is refused, or they go on behind the last section. -/
inductive Framed (f : ZkeyFramer S P) (bytes : List UInt8) :
    Except StreamingError (List UInt8) → ZkeyFramer S P → Prop
  | taken {f' : ZkeyFramer S P} {calls : List BuilderCall} {left : List UInt8} (u : Unit)
      (makes : Makes ops f.builder calls (.ok u) f'.builder) (ok : f'.WellFormed)
      (trace : ∀ more, f.remaining (bytes ++ more) =
        (f'.remaining (left ++ more)).after (effects calls)) : Framed f bytes (.ok left) f'
  | refused {f' : ZkeyFramer S P} {calls : List BuilderCall} {e : StreamingError}
      (makes : Makes ops f.builder calls (.error e) f'.builder)
      (trace : ∀ more, effects calls <+: (f.remaining (bytes ++ more)).1) :
      Framed f bytes (.error e) f'
  | trailing {f' : ZkeyFramer S P} {calls : List BuilderCall} {message : String} (u : Unit)
      (makes : Makes ops f.builder calls (.ok u) f'.builder)
      (trace : ∀ more, f.remaining (bytes ++ more) = (effects calls, .trailing)) :
      Framed f bytes (.error (.invalidZkey message)) f'

variable {ops} in
theorem Framed.append {f f₁ f₂ : ZkeyFramer S P} {bytes left : List UInt8} (rest : List UInt8)
    {r : Except StreamingError (List UInt8)} (h : Framed ops f bytes (.ok left) f₁)
    (h' : Framed ops f₁ (left ++ rest) r f₂) : Framed ops f (bytes ++ rest) r f₂ := by
  cases h with
  | @taken _ calls _ u makes ok trace =>
    have htrace : ∀ more, f.remaining (bytes ++ rest ++ more) =
        (f₁.remaining (left ++ rest ++ more)).after (effects calls) := by
      intro more
      rw [List.append_assoc, List.append_assoc]
      exact trace (rest ++ more)
    cases h' with
    | taken u' makes' ok' trace' =>
      refine .taken u' (makes.append rfl makes') ok' fun more => ?_
      rw [htrace, trace', Trace.after_after, effects_append]
    | refused makes' trace' =>
      refine .refused (makes.append rfl makes') fun more => ?_
      rw [htrace, effects_append]
      exact (List.prefix_append_right_inj _).mpr (trace' more)
    | trailing u' makes' trace' =>
      refine .trailing u' (makes.append rfl makes') fun more => ?_
      rw [htrace, trace', effects_append]
      rfl

variable {ops} in
/-- Bytes behind those that a step looks at are left by it. -/
theorem Framed.frame {f g f' : ZkeyFramer S P} (bytes rest : List UInt8) {mid : List UInt8}
    {r : Except StreamingError (List UInt8)} (h : Framed ops g mid r f')
    (hbuilder : g.builder = f.builder)
    (hremaining : ∀ more, f.remaining (bytes ++ more) = g.remaining (mid ++ (rest ++ more))) :
    Framed ops f bytes (r.map (· ++ rest)) f' := by
  cases h with
  | taken u makes ok trace =>
    refine .taken u (hbuilder ▸ makes) ok fun more => ?_
    rw [hremaining, trace, List.append_assoc]
  | refused makes trace =>
    refine .refused (hbuilder ▸ makes) fun more => ?_
    rw [hremaining]
    exact trace (rest ++ more)
  | trailing u makes trace =>
    refine .trailing u (hbuilder ▸ makes) fun more => ?_
    rw [hremaining]
    exact trace (rest ++ more)

/-- Ending a section moves on to the next header, or to the end. -/
theorem endSection_spec {f : ZkeyFramer S P} (hsections : f.sections < zkeySections)
    (hheader : f.header = []) : ∃ r f', endSection ops f = (r, f') ∧
      Makes ops f.builder [.endSection] r f'.builder ∧ (∀ u, r = .ok u → f'.WellFormed ∧
        ∀ rest, f'.remaining rest = sectionsTrace (zkeySections - (f.sections + 1)) rest) := by
  unfold endSection withBuilder
  cases hcall : f.builder.endSection ops with
  | mk r b =>
    cases r with
    | error e => exact ⟨_, _, rfl, .refused hcall (fun h => by cases h), fun u h => (by cases h)⟩
    | ok u =>
      refine ⟨_, _, rfl, .taken hcall (fun h => by cases h) (.nil b), fun _ _ => ?_⟩
      dsimp only
      split
      · rename_i hlast
        refine ⟨⟨by rw [hheader]; decide, fun h => (by cases h), fun h => (by cases h),
          fun _ h => (by cases h), fun _ => hheader⟩, fun rest => ?_⟩
        rw [hlast, Nat.sub_self]
        rfl
      · rename_i hmore
        refine ⟨⟨by rw [hheader]; decide, fun h => (by cases h), fun _ => by dsimp only; omega,
          fun _ h => (by cases h), fun h => (by cases h)⟩, fun rest => ?_⟩
        simp only [remaining, hheader, List.nil_append]

/-- A complete header in a header state. -/
theorem takeHeader_spec {f : ZkeyFramer S P} (header : List UInt8)
    (hlength : header.length = sectionHeaderBytes) (hempty : f.header = [])
    (hstate : f.state = .fileHeader ∧ f.sections = 0 ∨
      f.state = .sectionHeader ∧ f.sections < zkeySections) :
    ∃ r f', takeHeader ops f.state header f = (r, f') ∧
      Framed ops { f with header } [] (r.map fun _ => []) f' := by
  rcases hstate with ⟨hstate, hsections⟩ | ⟨hstate, hsections⟩
  · have htrace : ∀ more, remaining { f with header } ([] ++ more) =
        (sectionsTrace zkeySections more).after [.zkey header] := by
      intro more
      simp only [remaining, hstate, List.nil_append]
      exact trace_header hlength more
    rw [hstate] at htrace ⊢
    unfold takeHeader withBuilder
    cases hcall : f.builder.beginZkey header with
    | mk r b =>
      have hcall' : f.builder.call ops (.beginZkey header) = (r, b) := hcall
      cases r with
      | error e =>
        refine ⟨_, _, rfl, .refused (.refused hcall' (fun h => by cases h)) fun more => ?_⟩
        rw [htrace]
        exact List.prefix_append _ _
      | ok u =>
        refine ⟨_, _, rfl, .taken () (.taken hcall' (fun h => by cases h) (.nil b)) ⟨by rw [hempty]; decide,
          fun h => (by cases h), fun _ => ?_, fun _ h => (by cases h), fun h => (by cases h)⟩
          fun more => ?_⟩
        · dsimp only
          rw [hsections]
          decide
        · rw [htrace]
          simp only [remaining, hempty, hsections, List.nil_append, Nat.sub_zero]
          rfl
  · have htrace : ∀ more, remaining { f with header } ([] ++ more) =
        (bodyTrace (sectionsTrace (zkeySections - (f.sections + 1))) (leNat (header.drop 4))
          more).after [.section header] := by
      intro more
      simp only [remaining, hstate, List.nil_append]
      rw [show zkeySections - f.sections = zkeySections - (f.sections + 1) + 1 by omega]
      exact sectionsTrace_header hlength _ more
    rw [hstate] at htrace ⊢
    unfold takeHeader withBuilder
    cases hcall : f.builder.beginSection ops header with
    | mk r b =>
      have hcall' : f.builder.call ops (.beginSection header) = (r, b) := hcall
      cases r with
      | error e =>
        refine ⟨_, _, rfl, .refused (.refused hcall' (fun h => by cases h)) fun more => ?_⟩
        rw [htrace]
        exact List.prefix_append _ _
      | ok u =>
        simp only [next_ok]
        split
        · rename_i hzero
          -- an empty section ends at once, before another byte arrives
          obtain ⟨r, f', hend, hmakes, hok⟩ := endSection_spec ops
            (f := { f with builder := b }) hsections hempty
          refine ⟨r, f', hend, ?_⟩
          rw [hzero] at htrace
          cases r with
          | error e =>
            refine .refused (.taken hcall' (fun h => by cases h) hmakes) fun more => ?_
            rw [htrace, bodyTrace_zero]
            exact ⟨_, rfl⟩
          | ok u' =>
            obtain ⟨hwf, hremaining⟩ := hok u' rfl
            refine .taken u' (.taken hcall' (fun h => by cases h) hmakes) hwf fun more => ?_
            rw [htrace, bodyTrace_zero, List.nil_append, hremaining, Trace.after_after]
            rfl
        · rename_i hlong
          refine ⟨_, _, rfl, .taken () (.taken hcall' (fun h => by cases h) (.nil b)) ⟨by rw [hempty]; decide,
            fun h => (by cases h), fun h => (by cases h), fun length h => ?_,
            fun h => (by cases h)⟩ fun more => ?_⟩
          · cases h
            exact ⟨hsections, Nat.pos_of_ne_zero hlong, hempty⟩
          · rw [htrace]
            rfl

theorem round_spec {f : ZkeyFramer S P} (hf : f.WellFormed) {bytes : List UInt8}
    (hbytes : bytes ≠ []) : ∃ r f', round ops bytes f = (r, f') ∧ Framed ops f bytes r f' ∧
      ∀ left, r = .ok left → left.length < bytes.length := by
  have hpos := List.length_pos_iff.mpr hbytes
  have hheader := hf.header
  unfold round
  split
  · rename_i length hstate
    obtain ⟨hsections, hlength, hempty⟩ := hf.sectionBody length hstate
    have htake : min length bytes.length ≤ bytes.length := Nat.min_le_right _ _
    have hlen : (bytes.take (min length bytes.length)).length = min length bytes.length := by
      rw [List.length_take]
      omega
    -- the bytes that go to the section now
    have htrace : ∀ more, f.remaining (bytes ++ more) =
        (bodyTrace (sectionsTrace (zkeySections - (f.sections + 1)))
          (length - min length bytes.length)
          (bytes.drop (min length bytes.length) ++ more)).after
          ((bytes.take (min length bytes.length)).map .byte) := by
      intro more
      have := bodyTrace_append (sectionsTrace (zkeySections - (f.sections + 1)))
        length (bytes.take (min length bytes.length)) (by omega)
        (bytes.drop (min length bytes.length) ++ more)
      rw [← List.append_assoc, List.take_append_drop, hlen] at this
      rw [← this]
      simp only [remaining, hstate]
    dsimp only
    unfold withBuilder
    cases hcall : f.builder.pushSectionChunk ops (bytes.take (min length bytes.length)) with
    | mk r b =>
      have hcall' : f.builder.call ops (.push (bytes.take (min length bytes.length))) = (r, b) :=
        hcall
      have hpush : BuilderCall.push (bytes.take (min length bytes.length)) ≠ .push [] := by
        intro h
        rw [BuilderCall.push.inj h, List.length_nil] at hlen
        omega
      cases r with
      | error e =>
        refine ⟨_, _, rfl, .refused (.refused hcall' hpush) fun more => ?_, fun _ h => (by cases h)⟩
        rw [htrace]
        simp only [effects_cons, effects_nil, List.append_nil]
        exact List.prefix_append _ _
      | ok u =>
        simp only [next_ok]
        have hdrop : (bytes.drop (min length bytes.length)).length < bytes.length := by
          rw [List.length_drop]
          omega
        split
        · rename_i hzero
          obtain ⟨r, f', hend, hmakes, hok⟩ := endSection_spec ops
            (f := { f with builder := b }) hsections hempty
          rw [hend]
          rw [hzero] at htrace
          cases r with
          | error e =>
            refine ⟨_, _, rfl, .refused (.taken hcall' hpush hmakes) fun more => ?_,
              fun _ h => (by cases h)⟩
            rw [htrace, bodyTrace_zero, Trace.after_after]
            exact ⟨_, rfl⟩
          | ok u' =>
            obtain ⟨hwf, hremaining⟩ := hok u' rfl
            refine ⟨_, _, rfl, .taken u' (.taken hcall' hpush hmakes) hwf fun more => ?_, ?_⟩
            · rw [htrace, bodyTrace_zero, hremaining, Trace.after_after]
              rfl
            · intro left h
              cases h
              exact hdrop
        · rename_i hmore
          refine ⟨_, _, rfl, .taken () (.taken hcall' hpush (.nil b)) ⟨hheader, fun h => (by cases h),
            fun h => (by cases h), fun length' h => ?_, fun h => (by cases h)⟩ fun more => ?_, ?_⟩
          · cases h
            exact ⟨hsections, Nat.pos_of_ne_zero hmore, hempty⟩
          · rw [htrace]
            simp only [remaining, effects_cons, effects_nil, List.append_nil]
            rfl
          · intro left h
            cases h
            exact hdrop
  · rename_i hstate
    refine ⟨_, _, rfl, .trailing () (.nil _) fun more => ?_, fun _ h => (by cases h)⟩
    simp only [remaining, hstate, sectionsTrace, effects_nil]
    rw [if_neg (by simp [hbytes])]
  · rename_i state hbody hdone
    have hstate : f.state = .fileHeader ∧ f.sections = 0 ∨
        f.state = .sectionHeader ∧ f.sections < zkeySections := by
      cases hs : f.state with
      | fileHeader => exact .inl ⟨rfl, hf.fileHeader hs⟩
      | sectionHeader => exact .inr ⟨rfl, hf.sectionHeader hs⟩
      | sectionBody length => exact (hbody length hs).elim
      | done => exact (hdone hs).elim
    dsimp only
    generalize htake : min (sectionHeaderBytes - f.header.length) bytes.length = take
    have hdrop : (bytes.drop take).length < bytes.length := by
      rw [List.length_drop]
      omega
    have hremaining : ∀ more, f.remaining (bytes ++ more) =
        remaining { f with header := f.header ++ bytes.take take } (bytes.drop take ++ more) := by
      intro more
      have hbytes : f.header ++ bytes.take take ++ (bytes.drop take ++ more) =
          f.header ++ (bytes ++ more) := by
        rw [List.append_assoc, ← List.append_assoc (bytes.take take), List.take_append_drop]
      rcases hstate with ⟨hstate, -⟩ | ⟨hstate, -⟩
      · simp only [remaining, hstate, hbytes]
      · simp only [remaining, hstate, hbytes]
    split
    · rename_i hshort
      have hheader' : (f.header ++ bytes.take take).length < sectionHeaderBytes := by
        rw [List.length_append, List.length_take] at hshort ⊢
        omega
      refine ⟨_, _, rfl, .taken () (.nil _) ⟨hheader', hf.fileHeader, hf.sectionHeader,
        fun length h => (hbody length h).elim, fun h => (hdone h).elim⟩ hremaining, ?_⟩
      intro left h
      cases h
      exact hdrop
    · rename_i hfull
      obtain ⟨r, f', htaken, hframed⟩ := takeHeader_spec ops
        (f := { f with header := [] }) (f.header ++ bytes.take take)
        (Decidable.not_not.mp hfull) rfl hstate
      have hframed' : Framed ops f bytes (r.map fun _ => bytes.drop take) f' := by
        have := hframed.frame (f := f) bytes (bytes.drop take) rfl hremaining
        cases r <;> exact this
      rw [htaken]
      cases r with
      | error e => exact ⟨_, _, rfl, hframed', fun _ h => (by cases h)⟩
      | ok u =>
        refine ⟨_, _, rfl, hframed', ?_⟩
        intro left h
        cases h
        exact hdrop

theorem pushRounds_spec {rounds : Nat} : ∀ (bytes : List UInt8) {f : ZkeyFramer S P},
    f.WellFormed → bytes.length ≤ rounds → ∃ r f', pushRounds ops rounds bytes f = (r, f') ∧
      Framed ops f bytes (r.map fun _ => []) f' := by
  induction rounds with
  | zero =>
    intro bytes f hf hlength
    rw [List.eq_nil_of_length_eq_zero (Nat.le_zero.mp hlength)]
    exact ⟨_, _, rfl, .taken () (.nil _) hf fun more => rfl⟩
  | succ rounds ih =>
    intro bytes f hf hlength
    unfold pushRounds
    by_cases hbytes : bytes = []
    · rw [if_pos hbytes, hbytes]
      exact ⟨_, _, rfl, .taken () (.nil _) hf fun more => rfl⟩
    · rw [if_neg hbytes]
      obtain ⟨r, f₁, hround, hframed, hless⟩ := round_spec ops hf hbytes
      rw [hround]
      cases r with
      | error e =>
        refine ⟨_, _, rfl, ?_⟩
        cases hframed with
        | refused makes trace => exact .refused makes trace
        | trailing u makes trace => exact .trailing u makes trace
      | ok left =>
        have hleft := hless left rfl
        cases hframed with
        | taken u makes ok trace =>
          obtain ⟨r, f', hpush, hrest⟩ := ih left ok (by omega)
          refine ⟨r, f', hpush, ?_⟩
          have := Framed.append [] (.taken u makes ok trace)
            (by rw [List.append_nil]; exact hrest)
          rwa [List.append_nil] at this

theorem push_spec {f : ZkeyFramer S P} (hf : f.WellFormed) (bytes : List UInt8) :
    ∃ r f', push ops bytes f = (r, f') ∧ Framed ops f bytes (r.map fun _ => []) f' :=
  pushRounds_spec ops bytes hf (Nat.le_refl _)

/-! ## Pieces -/

/-- Feeds the pieces of a stream, up to the first error. -/
def feed : List (List UInt8) → ZkeyFramer S P → Except StreamingError Unit × ZkeyFramer S P
  | [], f => (.ok (), f)
  | piece :: pieces, f => next (push ops piece f) fun _ f => feed pieces f

theorem feed_spec (pieces : List (List UInt8)) : ∀ {f : ZkeyFramer S P}, f.WellFormed →
    ∃ r f', feed ops pieces f = (r, f') ∧
      Framed ops f pieces.flatten (r.map fun _ => []) f' := by
  induction pieces with
  | nil =>
    intro f hf
    exact ⟨_, _, rfl, .taken () (.nil _) hf fun more => rfl⟩
  | cons piece pieces ih =>
    intro f hf
    obtain ⟨r, f₁, hpush, hframed⟩ := push_spec ops hf piece
    rw [feed, hpush, List.flatten_cons]
    cases r with
    | error e =>
      refine ⟨_, _, rfl, ?_⟩
      exact hframed.frame (piece ++ pieces.flatten) pieces.flatten rfl
        fun more => by rw [List.append_assoc]
    | ok u =>
      rw [next_ok]
      cases hframed with
      | taken u makes ok trace =>
        obtain ⟨r, f', hfeed, hrest⟩ := ih ok
        exact ⟨r, f', hfeed, Framed.append pieces.flatten (.taken u makes ok trace) hrest⟩

end ZkeyFramer

end Curvy.Sparrow
