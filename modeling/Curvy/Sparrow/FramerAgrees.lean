import Curvy.Sparrow.Reader

/-!
# Any cut makes the same calls

The framer, fed the pieces of a stream, and the reader-driven prover make the effects that
`trace` reads off the bytes. They part only where a builder call is refused, or where the
stream ends inside a section body. If the processors do not depend on the cut either, both
reach the end with one builder, or neither does.
-/

namespace Curvy.Sparrow

set_option autoImplicit false

open Outcome

section Agreement

variable {S P : Type} (ops : Sections S P)

/-- Feeds all pieces to a new framer and tells it that the stream has ended. -/
def frameAll (pieces : List (List UInt8)) (b : StreamingProofBuilder S P) :
    Except StreamingError Unit × StreamingProofBuilder S P :=
  let (result, f) := ZkeyFramer.feed ops pieces (ZkeyFramer.new b)
  match result with
  | .error e => (.error e, f.builder)
  | .ok () => (f.finish.map fun _ => (), f.builder)

/-- A framer that is not done still wants bytes. -/
theorem ZkeyFramer.WellFormed.remaining_nil {f : ZkeyFramer S P} (hf : f.WellFormed) :
    f.remaining [] = ([], if f.state = .done then .complete else .truncated) := by
  have hheader := hf.header
  unfold ZkeyFramer.remaining
  cases hstate : f.state with
  | fileHeader =>
    dsimp only
    unfold trace
    rw [List.append_nil, if_pos (show f.header.length < fileHeaderBytes from hheader)]
    rfl
  | sectionHeader =>
    have hmore := hf.sectionHeader hstate
    dsimp only
    rw [show zkeySections - f.sections = zkeySections - (f.sections + 1) + 1 by omega,
      List.append_nil, sectionsTrace, if_pos hheader]
    rfl
  | sectionBody length =>
    obtain ⟨-, hlength, -⟩ := hf.sectionBody length hstate
    dsimp only
    unfold bodyTrace
    rw [if_pos (by exact hlength)]
    rfl
  | done => rfl

theorem frameAll_spec (pieces : List (List UInt8)) (b : StreamingProofBuilder S P) :
    ∃ r b', frameAll ops pieces b = (r, b') ∧ Drive ops b (trace pieces.flatten) 1 r b' := by
  have hnew : (ZkeyFramer.new b).WellFormed :=
    ⟨Nat.succ_pos _, fun _ => rfl, fun h => (by cases h), fun _ h => (by cases h),
      fun h => (by cases h)⟩
  obtain ⟨r, f, hfeed, hframed⟩ := ZkeyFramer.feed_spec ops pieces hnew
  have hremaining : (ZkeyFramer.new b).remaining (pieces.flatten ++ []) =
      trace pieces.flatten := by
    rw [List.append_nil]
    rfl
  unfold frameAll
  rw [hfeed]
  cases r with
  | error e =>
    refine ⟨_, _, rfl, ?_⟩
    cases hframed with
    | refused makes htrace => exact .refused makes (hremaining ▸ htrace [])
    | trailing u makes htrace => exact .trailing u makes (by rw [← hremaining, htrace])
  | ok u =>
    cases hframed with
    | @taken _ calls _ u' makes ok htrace =>
      have hend := htrace []
      rw [hremaining, List.append_nil, ok.remaining_nil] at hend
      dsimp only
      unfold ZkeyFramer.finish
      by_cases hdone : f.state = .done
      · rw [if_neg (by simp [hdone, ok.done hdone])]
        refine ⟨_, _, rfl, .complete () makes ?_⟩
        rw [hend, if_pos hdone]
        simp [Trace.after]
      · rw [if_pos (.inl hdone)]
        refine ⟨_, _, rfl, Drive.truncated [] u' makes Nat.one_pos ?_⟩
        rw [hend, if_neg hdone]
        simp [Trace.after]

/-! ## Processors that do not depend on the cut -/

/-- Feeds a processor piece by piece, up to the first error. -/
def Sections.pushAll : List (List UInt8) → P → Except StreamingError P
  | [], p => .ok p
  | piece :: pieces, p =>
    match ops.push p piece with
    | (.error e, _) => .error e
    | (.ok (), p) => Sections.pushAll pieces p

/-- A section closes with the same data, or fails, however its bytes were cut. -/
def Sections.CutFree : Prop :=
  ∀ (s : S) (id length : Nat) (p : P) (pieces pieces' : List (List UInt8)),
    ops.processorFor s id length = .ok p → pieces.flatten = pieces'.flatten →
    pieces.flatten.length = length →
    ((ops.pushAll pieces p).bind (ops.close s id)).toOption =
      ((ops.pushAll pieces' p).bind (ops.close s id)).toOption

theorem Sections.pushAll_append_error {e : StreamingError} (more : List (List UInt8)) :
    ∀ {pieces : List (List UInt8)} {p : P}, ops.pushAll pieces p = .error e →
      ops.pushAll (pieces ++ more) p = .error e := by
  intro pieces
  induction pieces with
  | nil =>
    intro p h
    cases h
  | cons piece pieces ih =>
    intro p h
    rw [List.cons_append]
    unfold Sections.pushAll at h ⊢
    split at h
    · exact h
    · exact ih h

/-- The builder once the open section has been closed. -/
def StreamingProofBuilder.closed (b : StreamingProofBuilder S P) (id : Nat) (data : S) :
    StreamingProofBuilder S P :=
  { b with
    active := none, data
    seenSections := id :: b.seenSections
    sectionCount := b.sectionCount + 1 }

/-- Bytes at the front of a section's effects are bytes of its body. -/
theorem bytes_of_prefix {es more : List Effect} {bytes : List UInt8} :
    ∀ {body : List UInt8}, bytes.map .byte ++ es <+: body.map .byte ++ .close :: more →
      ∃ rest, body = bytes ++ rest ∧ es <+: rest.map .byte ++ .close :: more := by
  induction bytes with
  | nil => exact fun {body} h => ⟨body, rfl, h⟩
  | cons x bytes ih =>
    intro body h
    cases body with
    | nil => cases (List.cons_prefix_cons.mp h).1
    | cons y body =>
      obtain ⟨hxy, htail⟩ := List.cons_prefix_cons.mp h
      cases hxy
      obtain ⟨rest, rfl, hrest⟩ := ih htail
      exact ⟨rest, rfl, hrest⟩

theorem pushSectionChunk_open {b : StreamingProofBuilder S P} {active : ActiveSection P}
    (bytes : List UInt8) (hactive : b.active = some active) (hlength : active.length < 2 ^ 64)
    (hfit : active.received + bytes.length ≤ active.length) :
    b.pushSectionChunk ops bytes = match ops.push active.processor bytes with
      | (.error e, processor) => (.error e, { b with active := some { active with processor } })
      | (.ok (), processor) => (.ok (), { b with
          active := some { active with
            processor, received := active.received + bytes.length } }) := by
  unfold StreamingProofBuilder.pushSectionChunk
  rw [hactive]
  dsimp only
  rw [if_neg (by omega)]
  exact if_neg (by omega)

theorem endSection_open {b : StreamingProofBuilder S P} {active : ActiveSection P}
    (hactive : b.active = some active) (hfull : active.received = active.length) :
    b.endSection ops = match ops.close b.data active.id active.processor with
      | .error e => (.error e, { b with active := none })
      | .ok data => (.ok (), b.closed active.id data) := by
  unfold StreamingProofBuilder.endSection
  rw [hactive]
  dsimp only
  exact if_neg (not_not_intro hfull)

/-- Calls inside an open section: pushes that stay in it, or pushes, its end, and more. -/
theorem Makes.in_section {calls : List BuilderCall} :
    ∀ {b b' : StreamingProofBuilder S P} {r : Except StreamingError Unit}
      {active : ActiveSection P} {body : List UInt8} {more : List Effect},
    Makes ops b calls r b' → b.active = some active → active.length < 2 ^ 64 →
    active.received + body.length = active.length →
    effects calls <+: body.map .byte ++ .close :: more →
    (∃ pieces, calls = pieces.map .push ∧ pieces.flatten <+: body ∧
      ∀ e, r = .error e → ops.pushAll pieces active.processor = .error e) ∨
    ∃ pieces rest p, calls = pieces.map .push ++ .endSection :: rest ∧ pieces.flatten = body ∧
      ops.pushAll pieces active.processor = .ok p ∧
      ((∃ e, ops.close b.data active.id p = .error e ∧ r = .error e) ∨
        ∃ data, ops.close b.data active.id p = .ok data ∧
          Makes ops (b.closed active.id data) rest r b' ∧ effects rest <+: more) := by
  induction calls with
  | nil =>
    intro b b' r active body more hmakes _ _ _ _
    cases hmakes
    exact .inl ⟨[], rfl, List.nil_prefix, fun e h => (by cases h)⟩
  | cons call calls ih =>
    intro b b' r active body more hmakes hactive hlength hsize hpre
    cases call with
    | beginZkey header =>
      cases body with
      | nil => cases (List.cons_prefix_cons.mp hpre).1
      | cons x body => cases (List.cons_prefix_cons.mp hpre).1
    | beginSection header =>
      cases body with
      | nil => cases (List.cons_prefix_cons.mp hpre).1
      | cons x body => cases (List.cons_prefix_cons.mp hpre).1
    | push bytes =>
      obtain ⟨rest, rfl, hrest⟩ := bytes_of_prefix hpre
      rw [List.length_append] at hsize
      have hcall := pushSectionChunk_open ops bytes hactive hlength (by omega)
      cases hpush : ops.push active.processor bytes with
      | mk q p =>
        rw [hpush] at hcall
        cases q with
        | error e =>
          refine .inl ⟨[bytes], ?_⟩
          cases hmakes with
          | taken h nonempty _ => cases (hcall.symm.trans h)
          | refused h nonempty =>
            refine ⟨rfl, by simp, fun e' he' => ?_⟩
            cases he'
            cases hcall.symm.trans h
            simp [Sections.pushAll, hpush]
        | ok u =>
          cases hmakes with
          | refused h nonempty => cases (hcall.symm.trans h)
          | taken h nonempty hmakes =>
            cases hcall.symm.trans h
            rcases ih hmakes rfl hlength (by dsimp only; omega) hrest with
              ⟨pieces, rfl, hpieces, herror⟩ | ⟨pieces, calls, p', rfl, rfl, hall, hclose⟩
            · refine .inl ⟨bytes :: pieces, rfl, ?_, fun e he => ?_⟩
              · exact (List.prefix_append_right_inj bytes).mpr hpieces
              · simp only [Sections.pushAll, hpush]
                exact herror e he
            · refine .inr ⟨bytes :: pieces, calls, p', rfl, rfl, ?_, hclose⟩
              simp only [Sections.pushAll, hpush]
              exact hall
    | endSection =>
      cases body with
      | cons x body => cases (List.cons_prefix_cons.mp hpre).1
      | nil =>
        have hcall := endSection_open ops hactive hsize
        have hrest : effects calls <+: more := (List.cons_prefix_cons.mp hpre).2
        refine .inr ⟨[], calls, active.processor, rfl, rfl, rfl, ?_⟩
        cases hclose : ops.close b.data active.id active.processor with
        | error e =>
          rw [hclose] at hcall
          cases hmakes with
          | taken h nonempty _ => cases (hcall.symm.trans h)
          | refused h nonempty =>
            cases hcall.symm.trans h
            exact .inl ⟨e, rfl, rfl⟩
        | ok data =>
          rw [hclose] at hcall
          cases hmakes with
          | refused h nonempty => cases (hcall.symm.trans h)
          | taken h nonempty hmakes =>
            cases hcall.symm.trans h
            exact .inr ⟨data, rfl, hmakes, hrest⟩

theorem effects_pushes (pieces : List (List UInt8)) :
    effects (pieces.map .push) = pieces.flatten.map .byte := by
  induction pieces with
  | nil => rfl
  | cons piece pieces ih =>
    rw [List.map_cons, effects_cons, ih, List.flatten_cons, List.map_append]
    rfl

theorem effects_of_header {header : List UInt8} {calls : List BuilderCall} {es : List Effect}
    (h : effects (.beginSection header :: calls) = .section header :: es) : effects calls = es :=
  (List.cons.inj h).2

theorem effects_of_body {pieces : List (List UInt8)} {body : List UInt8}
    {calls : List BuilderCall} {es : List Effect} (hbody : pieces.flatten = body)
    (h : effects (pieces.map .push ++ .endSection :: calls) = body.map .byte ++ .close :: es) :
    effects calls = es := by
  rw [effects_append, effects_pushes, hbody] at h
  exact (List.cons.inj (List.append_cancel_left h)).2

theorem close_not_pushed (pieces : List (List UInt8)) :
    Effect.close ∉ effects (pieces.map .push) := by
  rw [effects_pushes]
  simp

theorem Makes.eq_nil {b b' : StreamingProofBuilder S P} {calls : List BuilderCall}
    {r : Except StreamingError Unit} (h : Makes ops b calls r b') (heffects : effects calls = []) :
    calls = [] := by
  cases h with
  | nil => rfl
  | @taken _ _ _ call _ _ _ _ nonempty _ | @refused _ _ call _ _ nonempty =>
    exfalso
    rw [effects_cons] at heffects
    have hcall := (List.append_eq_nil_iff.mp heffects).1
    cases call with
    | push bytes => exact nonempty (by rw [List.map_eq_nil_iff.mp hcall])
    | _ => cases hcall

/-- The only call that makes an effect other than a byte. -/
theorem Makes.begins {b b' : StreamingProofBuilder S P} {calls : List BuilderCall}
    {r : Except StreamingError Unit} {x : Effect} {es : List Effect}
    (h : Makes ops b calls r b') (first : BuilderCall) (hfirst : first.effects = [x])
    (hbyte : ∀ y, x ≠ .byte y) (hpre : effects calls <+: x :: es) :
    calls = [] ∨ ∃ rest, calls = first :: rest ∧ effects rest <+: es := by
  have honly : ∀ call : BuilderCall, call.effects = [x] → call = first := by
    intro call hcall
    rw [← hfirst] at hcall
    cases call with
    | push bytes =>
      rw [hfirst] at hcall
      obtain ⟨y, -, hy⟩ := List.mem_map.mp (hcall ▸ List.mem_singleton.mpr rfl)
      exact (hbyte y hy.symm).elim
    | beginZkey header | beginSection header | endSection =>
      cases first with
      | push bytes =>
        obtain ⟨y, -, hy⟩ := List.mem_map.mp (hfirst ▸ List.mem_singleton.mpr rfl)
        exact (hbyte y hy.symm).elim
      | _ => cases hcall <;> rfl
  cases calls with
  | nil => exact .inl rfl
  | cons call calls =>
    have hcall : (∃ bytes, call = .push bytes) ∨ ∃ y, call.effects = [y] := by
      cases call with
      | push bytes => exact .inl ⟨bytes, rfl⟩
      | _ => exact .inr ⟨_, rfl⟩
    rcases hcall with ⟨bytes, rfl⟩ | ⟨y, hy⟩
    · cases bytes with
      | cons y bytes => exact (hbyte y (List.cons_prefix_cons.mp hpre).1.symm).elim
      | nil =>
        cases h with
        | taken _ nonempty _ => exact (nonempty rfl).elim
        | refused _ nonempty => exact (nonempty rfl).elim
    · rw [effects_cons, hy] at hpre
      obtain ⟨rfl, hrest⟩ := List.cons_prefix_cons.mp hpre
      rw [honly call hy]
      exact .inr ⟨calls, rfl, hrest⟩

theorem beginSection_ok {b b' : StreamingProofBuilder S P} {header : List UInt8} {u : Unit}
    (h : b.beginSection ops header = (.ok u, b')) : header.length = sectionHeaderBytes ∧
      ∃ p, ops.processorFor b.data (leNat (header.take 4)) (leNat (header.drop 4)) = .ok p ∧
        b' = { b with active := some ⟨leNat (header.take 4), leNat (header.drop 4), 0, p⟩ } := by
  unfold StreamingProofBuilder.beginSection at h
  split at h
  · cases h
  · rename_i hstate
    have hlength : header.length = sectionHeaderBytes :=
      Decidable.not_not.mp fun hne => hstate (.inr (.inr hne))
    dsimp only at h
    split at h
    · cases h
    · split at h
      · cases h
      · rename_i p hp
        cases h
        exact ⟨hlength, p, hp, rfl⟩

/-- A section whose body is complete. -/
theorem sectionsTrace_complete {sections : Nat} {rest : List UInt8}
    (h : (sectionsTrace (sections + 1) rest).2 = .complete) :
    ∃ header body rest' : List UInt8,
      sectionsTrace (sections + 1) rest = (sectionsTrace sections rest').after
        (.section header :: (body.map .byte ++ [.close])) ∧
      body.length = leNat (header.drop 4) := by
  by_cases hshort : rest.length < sectionHeaderBytes
  · rw [sectionsTrace, if_pos hshort] at h
    cases h
  · have htake : (rest.take sectionHeaderBytes).length = sectionHeaderBytes := by
      rw [List.length_take]
      omega
    have htrace := sectionsTrace_header htake sections (rest.drop sectionHeaderBytes)
    rw [List.take_append_drop] at htrace
    generalize rest.take sectionHeaderBytes = header at htrace
    generalize rest.drop sectionHeaderBytes = tail at htrace
    rw [htrace] at h ⊢
    rw [Trace.after_snd, bodyTrace] at h
    split at h
    · cases h
    · rename_i hbody
      refine ⟨header, tail.take (leNat (header.drop 4)), tail.drop (leNat (header.drop 4)), ?_, ?_⟩
      · rw [bodyTrace, if_neg hbody]
        simp [Trace.after]
      · rw [List.length_take]
        omega

/-- Two ways to make the calls of complete sections: if the one succeeds, the other, as far as
it got, was not refused, and if it got to the end, it left the same builder. -/
theorem sections_agree (hfree : ops.CutFree) {sections : Nat} :
    ∀ {rest : List UInt8} {b b' b'' : StreamingProofBuilder S P} {calls calls' : List BuilderCall}
      {r : Except StreamingError Unit} {u : Unit},
    (sectionsTrace sections rest).2 = .complete →
    Makes ops b calls (.ok u) b' → effects calls = (sectionsTrace sections rest).1 →
    Makes ops b calls' r b'' → effects calls' <+: (sectionsTrace sections rest).1 →
    (∃ u', r = .ok u') ∧ (effects calls' = (sectionsTrace sections rest).1 → b'' = b') := by
  induction sections with
  | zero =>
    intro rest b b' b'' calls calls' r u _ hmakes hall hmakes' hpre
    have hcalls' := hmakes'.eq_nil ops (List.prefix_nil.mp hpre)
    subst hcalls'
    have hcalls := hmakes.eq_nil ops hall
    subst hcalls
    cases hmakes
    cases hmakes'
    exact ⟨⟨(), rfl⟩, fun _ => rfl⟩
  | succ sections ih =>
    intro rest b b' b'' calls calls' r u hcomplete hmakes hall hmakes' hpre
    obtain ⟨header, body, rest', htrace, hbody⟩ := sectionsTrace_complete hcomplete
    rw [htrace] at hcomplete hall hpre ⊢
    have hshape : ((sectionsTrace sections rest').after
        (.section header :: (body.map .byte ++ [.close]))).1 =
        .section header :: (body.map .byte ++ .close :: (sectionsTrace sections rest').1) := by
      simp [Trace.after]
    rw [hshape] at hall hpre ⊢
    -- the first run opens the section, pushes its body and closes it
    obtain rfl | ⟨calls, rfl, hcalls⟩ := hmakes.begins ops (.beginSection header) rfl (fun _ h => by cases h)
      ⟨[], by rw [hall, List.append_nil]⟩
    · cases hall
    · cases hmakes with
      | taken hbegin _ hmakes =>
        obtain ⟨hheader, p, hp, rfl⟩ := beginSection_ok ops hbegin
        have hlength : leNat (header.drop 4) < 2 ^ 64 := by
          have hlt := leNat_lt (header.drop 4)
          rw [List.length_drop, hheader] at hlt
          exact hlt
        obtain ⟨pieces, rfl, hpieces, -⟩ | ⟨pieces, calls, p', rfl, hpieces, hpush, hclose⟩ :=
          hmakes.in_section ops rfl hlength (by simpa using hbody) hcalls
        · -- pushes alone do not make the closing effect
          have := effects_of_header hall
          exact (close_not_pushed pieces (by rw [this]; simp)).elim
        · obtain ⟨e, -, he⟩ | ⟨data, hdata, hmakes, -⟩ := hclose
          · cases he
          · have hall' := effects_of_body hpieces (effects_of_header hall)
            have hsize : pieces.flatten.length = leNat (header.drop 4) := by rw [hpieces, hbody]
            -- the second run opens the section too, and then stands somewhere in its body
            obtain rfl | ⟨calls', rfl, hcalls'⟩ :=
              hmakes'.begins ops (.beginSection header) rfl (fun _ h => by cases h) hpre
            · cases hmakes'
              exact ⟨⟨(), rfl⟩, fun h => (by cases h)⟩
            · cases hmakes' with
              | refused h _ => cases hbegin.symm.trans h
              | taken h _ hmakes' =>
                cases hbegin.symm.trans h
                obtain ⟨pieces', rfl, hpieces', herror⟩ |
                  ⟨pieces', calls', p'', rfl, hpieces', hpush', hclose'⟩ :=
                  hmakes'.in_section ops rfl hlength (by simpa using hbody) hcalls'
                · refine ⟨?_, fun h => ?_⟩
                  · cases r with
                    | ok u' => exact ⟨u', rfl⟩
                    | error e =>
                      obtain ⟨tail, htail⟩ := hpieces'
                      have hsame := hfree b.data (leNat (header.take 4)) _ p pieces
                        (pieces' ++ [tail]) hp (by simp [hpieces, htail]) hsize
                      rw [hpush, ops.pushAll_append_error [tail] (herror e rfl)] at hsame
                      dsimp only [Except.bind] at hsame
                      rw [hdata] at hsame
                      cases hsame
                  · have := effects_of_header h
                    exact (close_not_pushed pieces' (by rw [this]; simp)).elim
                · have hsame := hfree b.data (leNat (header.take 4)) _ p pieces pieces' hp
                    (by rw [hpieces, hpieces']) hsize
                  rw [hpush, hpush'] at hsame
                  dsimp only [Except.bind] at hsame
                  rw [hdata] at hsame
                  obtain ⟨e, he, -⟩ | ⟨data', hdata', hmakes', hrest'⟩ := hclose'
                  · rw [he] at hsame
                    cases hsame
                  · rw [hdata'] at hsame
                    cases hsame
                    obtain ⟨hok, hend⟩ := ih hcomplete hmakes hall' hmakes' hrest'
                    exact ⟨hok, fun h => hend (effects_of_body hpieces' (effects_of_header h))⟩

theorem stream_agrees (hfree : ops.CutFree) {bytes : List UInt8}
    {b b' b'' : StreamingProofBuilder S P} {calls calls' : List BuilderCall}
    {r : Except StreamingError Unit} {u : Unit} (hcomplete : (trace bytes).2 = .complete)
    (hmakes : Makes ops b calls (.ok u) b') (hall : effects calls = (trace bytes).1)
    (hmakes' : Makes ops b calls' r b'') (hpre : effects calls' <+: (trace bytes).1) :
    (∃ u', r = .ok u') ∧ (effects calls' = (trace bytes).1 → b'' = b') := by
  unfold trace at hcomplete hall hpre ⊢
  by_cases hshort : bytes.length < fileHeaderBytes
  · rw [if_pos hshort] at hcomplete
    cases hcomplete
  · rw [if_neg hshort] at hcomplete hall hpre ⊢
    dsimp only at hcomplete hall hpre ⊢
    generalize bytes.take fileHeaderBytes = header at hall hpre ⊢
    obtain rfl | ⟨calls, rfl, -⟩ := hmakes.begins ops (.beginZkey header) rfl (fun _ h => by cases h)
      ⟨[], by rw [hall, List.append_nil]⟩
    · cases hall
    · obtain rfl | ⟨calls', rfl, hcalls'⟩ := hmakes'.begins ops (.beginZkey header) rfl
        (fun _ h => by cases h) hpre
      · cases hmakes'
        exact ⟨⟨(), rfl⟩, fun h => (by cases h)⟩
      · cases hmakes with
        | taken h _ hmakes =>
          cases hmakes' with
          | refused h' _ => cases h.symm.trans h'
          | taken h' _ hmakes' =>
            cases h.symm.trans h'
            obtain ⟨hok, hend⟩ := sections_agree ops hfree hcomplete hmakes
              (List.cons.inj hall).2 hmakes' hcalls'
            exact ⟨hok, fun h => hend (List.cons.inj h).2⟩

/-! ## Main result -/

/-- What a run made of the builder, put against the trace of the bytes. -/
theorem Drive.explain {b b' : StreamingProofBuilder S P} {t : Trace} {limit : Nat}
    {r : Except StreamingError Unit} (h : Drive ops b t limit r b') (hlimit : 0 < limit) :
    ∃ calls q lost, Makes ops b calls q b' ∧ effects calls ++ lost.map .byte <+: t.1 ∧
      lost.length < limit ∧ (t.2 ≠ .truncated → lost = []) ∧
      (q = .ok () → effects calls ++ lost.map .byte = t.1 ∧ (r = .ok () ↔ t.2 = .complete)) ∧
      ∀ e, q = .error e → r = .error e := by
  cases h with
  | complete u makes htrace =>
    refine ⟨_, _, [], makes, ?_, hlimit, fun _ => rfl, fun _ => ?_, fun e h => (by cases h)⟩
    · simp [htrace]
    · simp [htrace]
  | @refused _ _ e makes htrace =>
    refine ⟨_, _, [], makes, by simpa using htrace, hlimit, fun _ => rfl, fun h => (by cases h),
      fun e' h => ?_⟩
    cases h
    rfl
  | truncated lost u makes short htrace =>
    refine ⟨_, _, lost, makes, by simp [htrace], short, fun h => ?_, fun _ => by simp [htrace],
      fun e h => (by cases h)⟩
    rw [htrace] at h
    exact (h rfl).elim
  | trailing u makes htrace =>
    refine ⟨_, _, [], makes, by simp [htrace], hlimit, fun _ => rfl, fun _ => by simp [htrace],
      fun e h => (by cases h)⟩

/-- The framer on the pieces and the reader-driven prover on the whole make the effects of the
bytes' trace, the prover without the last, incomplete buffer of a body that is cut short.
Unless a call is refused, the framer accepts the end exactly when the prover reaches its own. -/
theorem framer_agrees_with_reader (config : StreamingConfig) (pieces : List (List UInt8))
    (b : StreamingProofBuilder S P) :
    ∃ calls calls' r r' lost,
      Makes ops b calls r (frameAll ops pieces b).2 ∧
      Makes ops b calls' r' (proveReaderOwned ops config pieces.flatten b).2 ∧
      effects calls <+: (trace pieces.flatten).1 ∧
      effects calls' ++ lost.map .byte <+: (trace pieces.flatten).1 ∧
      lost.length < config.ioChunkBytes ∧ ((trace pieces.flatten).2 ≠ .truncated → lost = []) ∧
      (r = .ok () → effects calls = (trace pieces.flatten).1 ∧
        ((frameAll ops pieces b).1 = .ok () ↔ (trace pieces.flatten).2 = .complete)) ∧
      (r' = .ok () → effects calls' ++ lost.map .byte = (trace pieces.flatten).1 ∧
        ((proveReaderOwned ops config pieces.flatten b).1 = .ok () ↔
          (trace pieces.flatten).2 = .complete)) ∧
      (∀ e, r = .error e → (frameAll ops pieces b).1 = .error e) ∧
      (∀ e, r' = .error e → (proveReaderOwned ops config pieces.flatten b).1 = .error e) ∧
      (ops.CutFree → ((frameAll ops pieces b).1 = .ok () ↔
          (proveReaderOwned ops config pieces.flatten b).1 = .ok ()) ∧
        ((frameAll ops pieces b).1 = .ok () →
          (frameAll ops pieces b).2 = (proveReaderOwned ops config pieces.flatten b).2)) := by
  obtain ⟨q, b₁, hframe, hdrive⟩ := frameAll_spec ops pieces b
  obtain ⟨q', b₂, hprove, hdrive'⟩ := proveReaderOwned_spec ops config pieces.flatten b
  rw [hframe, hprove]
  obtain ⟨calls, r, none, hmakes, hpre, hnone, -, hok, herror⟩ := hdrive.explain ops Nat.one_pos
  obtain ⟨calls', r', lost, hmakes', hpre', hshort, hlost, hok', herror'⟩ :=
    hdrive'.explain ops config.ioChunkBytes_pos
  rw [List.eq_nil_of_length_eq_zero (Nat.lt_one_iff.mp hnone), List.map_nil, List.append_nil]
    at hpre hok
  refine ⟨calls, calls', r, r', lost, hmakes, hmakes', hpre, hpre', hshort, hlost, hok, hok',
    herror, herror', fun hfree => ?_⟩
  by_cases hcomplete : (trace pieces.flatten).2 = .complete
  · rw [hlost (by rw [hcomplete]; decide), List.map_nil, List.append_nil] at hpre' hok'
    have hforth : r = .ok () → r' = .ok () ∧ b₁ = b₂ := by
      intro hr
      rw [hr] at hmakes
      obtain ⟨⟨u, hr'⟩, hsame⟩ := stream_agrees ops hfree hcomplete hmakes (hok hr).1 hmakes' hpre'
      exact ⟨hr', (hsame (hok' hr').1).symm⟩
    have hback : r' = .ok () → r = .ok () := by
      intro hr'
      rw [hr'] at hmakes'
      exact (stream_agrees ops hfree hcomplete hmakes' (hok' hr').1 hmakes hpre).1.elim
        fun _ hr => hr
    have hq : q = .ok () ↔ r = .ok () := by
      refine ⟨fun hq => ?_, fun hr => ((hok hr).2.mpr hcomplete)⟩
      cases r with
      | ok u => rfl
      | error e => cases hq.symm.trans (herror e rfl)
    have hq' : q' = .ok () ↔ r' = .ok () := by
      refine ⟨fun hq => ?_, fun hr => ((hok' hr).2.mpr hcomplete)⟩
      cases r' with
      | ok u => rfl
      | error e => cases hq.symm.trans (herror' e rfl)
    refine ⟨⟨fun h => hq'.mpr (hforth (hq.mp h)).1, fun h => hq.mpr (hback (hq'.mp h))⟩, fun h => ?_⟩
    exact (hforth (hq.mp h)).2
  · -- neither reaches the end of a stream that is not complete
    have hq : q ≠ .ok () := by
      intro hq
      cases r with
      | ok u => exact hcomplete ((hok rfl).2.mp hq)
      | error e => cases hq.symm.trans (herror e rfl)
    have hq' : q' ≠ .ok () := by
      intro hq
      cases r' with
      | ok u => exact hcomplete ((hok' rfl).2.mp hq)
      | error e => cases hq.symm.trans (herror' e rfl)
    exact ⟨⟨fun h => (hq h).elim, fun h => (hq' h).elim⟩, fun h => (hq h).elim⟩

end Agreement

/-! ## Where the two part -/

/-- A builder that keeps the bytes of the open section; `refuse` makes it turn pushes down. -/
def keepBytes (refuse : List UInt8 → Bool) : Sections Unit (List UInt8) where
  processorFor _ _ _ := .ok []
  push kept bytes := if refuse bytes then (.error .unexpectedEof, kept) else (.ok (), kept ++ bytes)
  close _ _ _ := .ok ()

/-- The file header, and the header of a section of four bytes. -/
def shortFile : List UInt8 :=
  [0x7a, 0x6b, 0x65, 0x79, 1, 0, 0, 0, 10, 0, 0, 0, 1, 0, 0, 0, 4, 0, 0, 0, 0, 0, 0, 0]

def defaultConfig : StreamingConfig where
  windowBits := 13
  msmChunkPoints := 65536
  ioChunkBytes := 1024 * 1024
  windowBits_mem := by decide
  msmChunkPoints_mem := by decide
  ioChunkBytes_mem := by decide

/-- A body of two bytes out of four reaches the builder through the framer only. A refused
push holds two bytes of the body here and all of it there. -/
theorem cut_body_parts :
    ((frameAll (keepBytes fun _ => false) [shortFile ++ [5, 6]] (.new ())).2.active.map
        (·.processor) = some [5, 6] ∧
      (proveReaderOwned (keepBytes fun _ => false) defaultConfig (shortFile ++ [5, 6])
        (.new ())).2.active.map (·.processor) = some []) ∧
    ((frameAll (keepBytes fun bytes => 7 ∈ bytes) [shortFile ++ [5, 6], [7, 8]]
        (.new ())).2.active.map (·.processor) = some [5, 6] ∧
      (proveReaderOwned (keepBytes fun bytes => 7 ∈ bytes) defaultConfig
        (shortFile ++ [5, 6, 7, 8]) (.new ())).2.active.map (·.processor) = some []) := by
  decide

end Curvy.Sparrow
