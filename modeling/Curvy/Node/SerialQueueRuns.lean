import Curvy.Node.SerialQueueInv
import Mathlib.Algebra.GroupWithZero.Nat
import Mathlib.Algebra.Order.BigOperators.Group.List
import Mathlib.Data.List.Nodup

/-!
# Runs of the serial queue

What holds in every state, how many steps of the drain a job can wait for, and what holds of
the callbacks while no close falls between the taking of the pool and its drop.
-/

namespace Curvy.Node

set_option autoImplicit false

variable {T C : Type}

namespace Thread

/-- The steps since the job of the thread was popped. -/
def offset : Thread T C → Nat
  | .execute _ => 1
  | .release _ => 2
  | .complete _ => 3
  | _ => 0

/-- A bound on the steps of a thread that finds nothing waiting. -/
def effort : Thread T C → Nat
  | .pop => 3
  | .complete _ => 4
  | .release _ => 5
  | .execute _ => 6
  | .dropPool _ onRelease => onRelease.length + 2
  | .releases onRelease => onRelease.length + 1

end Thread

namespace SerialQueue

variable {capacity : Nat} {q q' : SerialQueue T C}

/-! ### No panic and no stuck thread -/

theorem Inv.submit_total (hinv : Inv capacity q) (job : T) :
    ∃ q', q.submit capacity job = some q' := by
  rcases submit_cases hinv job with ⟨_, heq⟩ | ⟨_, _, heq⟩
  · exact ⟨_, heq⟩
  · exact ⟨_, heq⟩

theorem Inv.advance_total (hinv : Inv capacity q) {i : Nat} (hi : i < q.threads.length) :
    ∃ q', q.advance i = some q' := by
  obtain ⟨x, hx⟩ : ∃ x, q.threads[i].advance q.state q.history = some x := by
    have hthreads : q.threads = q.threads.take i ++ q.threads[i] :: q.threads.drop (i + 1) := by
      rw [List.getElem_cons_drop, List.take_append_drop]
    generalize q.threads[i] = t at hthreads
    cases t with
    | pop =>
      unfold Thread.advance
      rcases pop_cases q.state with ⟨_, _, _, hpop⟩ | ⟨_, _, hpop⟩ | ⟨_, _, hpop⟩
      · exact ⟨_, by rw [hpop]⟩
      · exact ⟨_, by rw [hpop]⟩
      · exact ⟨_, by rw [hpop]⟩
    | execute job => exact ⟨_, rfl⟩
    | release job =>
      -- the running job still counts as outstanding
      obtain ⟨_, ⟨hstarted, _, hfreed⟩, _⟩ := hinv.alone hthreads rfl
      have hcount := hinv.outstanding
      rw [hinv.order, hstarted, hfreed, List.length_append, List.length_append,
        List.length_singleton] at hcount
      unfold Thread.advance State.release
      rcases houtstanding : q.state.outstanding with _ | outstanding
      · omega
      · exact ⟨_, rfl⟩
    | complete job => exact ⟨_, rfl⟩
    | dropPool pool onRelease => exact ⟨_, rfl⟩
    | releases onRelease =>
      cases onRelease with
      | nil => exact ⟨_, rfl⟩
      | cons callback onRelease => exact ⟨_, rfl⟩
  unfold advance
  rw [List.getElem?_eq_getElem hi, Option.bind_eq_bind, Option.bind_some, hx, Option.bind_eq_bind,
    Option.bind_some]
  exact ⟨_, rfl⟩

/-! ### How far the drain is -/

/-- The steps drains have spent on jobs. -/
def work (q : SerialQueue T C) : Nat :=
  4 * q.history.completed.length + (q.threads.map Thread.offset).sum

theorem Inv.work_le (hinv : Inv capacity q) : q.work ≤ 4 * q.history.completed.length + 3 := by
  apply Nat.add_le_add_left
  cases hactive : q.state.active with
  | true =>
    obtain ⟨t, ht, _⟩ := hinv.busy hactive
    rw [ht, List.map_singleton, List.sum_singleton]
    cases t <;> simp [Thread.offset]
  | false =>
    have hout := (hinv.idle hactive).2.2
    have hzero : ∀ n ∈ q.threads.map Thread.offset, n = 0 := by
      intro n hn
      obtain ⟨t, ht, rfl⟩ := List.mem_map.mp hn
      have := hout t ht
      cases t with
      | pop | execute | release | complete => cases this
      | dropPool | releases => rfl
    rw [List.sum_eq_zero hzero]
    omega

/-- A step of another kind leaves the drain where it is. -/
structure Grows (q q' : SerialQueue T C) : Prop where
  accepted : q.history.accepted.length ≤ q'.history.accepted.length
  completed : q.history.completed.length ≤ q'.history.completed.length
  work : q.work ≤ q'.work

/-- What one step of a drain does: it works on a job, unless there is none. -/
theorem drain_works (hinv : Inv capacity q) {t : Thread T C} (hthreads : q.threads = [t])
    (hholds : t.Holds q.history) {next : List (Thread T C)} {state : State T C}
    {history : History T C} (h : t.advance q.state q.history = some (next, state, history)) :
    Grows q ⟨state, next, history⟩ ∧
      (q.work + 1 ≤ (⟨state, next, history⟩ : SerialQueue T C).work ∨
        q.history.completed.length = q.history.accepted.length) := by
  cases t with
  | pop =>
    unfold Thread.advance at h
    have hidle : q.state.waiting = [] →
        q.history.completed.length = q.history.accepted.length := by
      intro hwaiting
      rw [hinv.order, hwaiting, List.append_nil, hholds.1]
    rcases pop_cases q.state with ⟨job, waiting, hwaiting, hpop⟩ | ⟨hwaiting, _, hpop⟩ |
      ⟨hwaiting, _, hpop⟩
    · rw [hpop] at h
      cases h
      refine ⟨⟨le_rfl, le_rfl, ?_⟩, Or.inl ?_⟩
      · simp [work, hthreads, Thread.offset]
      · simp [work, hthreads, Thread.offset]
    · rw [hpop] at h
      cases h
      exact ⟨⟨le_rfl, le_rfl, by simp [work, hthreads, Thread.offset]⟩, Or.inr (hidle hwaiting)⟩
    · rw [hpop] at h
      cases h
      exact ⟨⟨le_rfl, le_rfl, by simp [work, hthreads, Thread.offset]⟩, Or.inr (hidle hwaiting)⟩
  | execute job =>
    cases h
    exact ⟨⟨le_rfl, le_rfl, by simp [work, hthreads, Thread.offset]⟩,
      Or.inl (by simp [work, hthreads, Thread.offset])⟩
  | release job =>
    unfold Thread.advance at h
    obtain ⟨s, hs, h⟩ := Option.map_eq_some_iff.mp h
    cases h
    exact ⟨⟨le_rfl, le_rfl, by simp [work, hthreads, Thread.offset]⟩,
      Or.inl (by simp [work, hthreads, Thread.offset])⟩
  | complete job =>
    cases h
    refine ⟨⟨le_rfl, by simp, ?_⟩, Or.inl ?_⟩
    · simp [work, hthreads, Thread.offset]
      omega
    · simp [work, hthreads, Thread.offset]
      omega
  | dropPool pool onRelease => cases hholds
  | releases onRelease => cases hholds

theorem step_grows (hinv : Inv capacity q) {a : Action T C} (h : q.step capacity a = some q') :
    Grows q q' := by
  cases a with
  | submit job =>
    rcases submit_cases hinv job with ⟨r, heq⟩ | ⟨_, _, heq⟩
    · obtain rfl := Option.some.inj (heq.symm.trans h)
      exact ⟨by rw [accepted_refused], le_rfl, le_rfl⟩
    · obtain rfl := Option.some.inj (heq.symm.trans h)
      refine ⟨by rw [accepted_takenIn]; simp, le_rfl, ?_⟩
      cases hactive : q.state.active with
      | true => exact le_rfl
      | false => simp [work, takenIn]
  | close onRelease =>
    obtain rfl := Option.some.inj h
    rcases close_cases q onRelease with ⟨_, heq⟩ | ⟨_, heq⟩
    · rw [heq]
      exact ⟨le_rfl, le_rfl, le_rfl⟩
    · rw [heq]
      exact ⟨le_rfl, le_rfl, by simp [work]⟩
  | advance i =>
    obtain ⟨pre, t, post, next, state, history, hthreads, _, hnext, rfl⟩ := advance_cases h
    cases ht : t.inLoop with
    | true =>
      obtain ⟨_, hholds, rfl, rfl⟩ := hinv.alone hthreads ht
      rw [List.nil_append, List.append_nil]
      exact (drain_works hinv hthreads hholds hnext).1
    | false =>
      cases t with
      | pop | execute | release | complete => cases ht
      | dropPool pool onRelease =>
        cases hnext
        exact ⟨le_rfl, le_rfl, by simp [work, hthreads, Thread.offset]⟩
      | releases onRelease =>
        cases onRelease with
        | nil =>
          cases hnext
          exact ⟨le_rfl, le_rfl, by simp [work, hthreads, Thread.offset]⟩
        | cons callback onRelease =>
          cases hnext
          exact ⟨le_rfl, le_rfl, by simp [work, hthreads, Thread.offset]⟩

/-- Runs in which drains take at least `n` steps in their loop, among any others. -/
inductive Runs (capacity : Nat) (q : SerialQueue T C) : Nat → SerialQueue T C → Prop where
  | start : Runs capacity q 0 q
  | any {n : Nat} {q' q'' : SerialQueue T C} {a : Action T C} (h : Runs capacity q n q')
    (hstep : q'.step capacity a = some q'') : Runs capacity q n q''
  | drain {n i : Nat} {q' q'' : SerialQueue T C} {t : Thread T C} (h : Runs capacity q n q')
    (hthread : q'.threads[i]? = some t) (hloop : t.inLoop = true) (hstep : q'.advance i = some q'') :
    Runs capacity q (n + 1) q''

theorem runs_work (hinv : Inv capacity q) {n k : Nat} (hk : k < q.history.accepted.length)
    (h : Runs capacity q n q') :
    Inv capacity q' ∧ k < q'.history.accepted.length ∧
      (k < q'.history.completed.length ∨ q.work + n ≤ q'.work) := by
  induction h with
  | start => exact ⟨hinv, hk, Or.inr le_rfl⟩
  | @any n q' q'' a _ hstep ih =>
    obtain ⟨hinv', haccepted, hor⟩ := ih
    obtain ⟨ha, hc, hw⟩ := step_grows hinv' hstep
    refine ⟨step_inv hinv' hstep, by omega, ?_⟩
    rcases hor with hdone | hwork
    · exact Or.inl (by omega)
    · exact Or.inr (by omega)
  | @drain n i q' q'' t _ hthread hloop hstep ih =>
    obtain ⟨hinv', haccepted, hor⟩ := ih
    have hinv'' : Inv capacity q'' := step_inv (a := .advance i) hinv' hstep
    obtain ⟨pre, u, post, next, state, history, hthreads, hu, hnext, rfl⟩ := advance_cases hstep
    obtain rfl := Option.some.inj (hthread.symm.trans hu)
    obtain ⟨_, hholds, rfl, rfl⟩ := hinv'.alone hthreads hloop
    rw [List.nil_append, List.append_nil] at hinv'' ⊢
    obtain ⟨⟨ha, hc, hw⟩, hworks⟩ := drain_works hinv' hthreads hholds hnext
    refine ⟨hinv'', by omega, ?_⟩
    rcases hor with hdone | hwork
    · exact Or.inl (by omega)
    · rcases hworks with hmore | hnone
      · exact Or.inr (by omega)
      · exact Or.inl (by omega)

/-- A job is completed once drains have taken four steps for it and for each job before it. -/
theorem job_completes (hinv : Inv capacity q) {n k : Nat} (hk : k < q.history.accepted.length)
    (h : Runs capacity q n q') (hn : 4 * (k + 1) ≤ n) : k < q'.history.completed.length := by
  obtain ⟨hinv', _, hdone | hwork⟩ := runs_work hinv hk h
  · exact hdone
  · have := hinv'.work_le
    omega

/-! ### Without further calls -/

/-- What the threads of a queue can still do without another call. -/
def effort (q : SerialQueue T C) : Nat :=
  (q.threads.map Thread.effort).sum + 4 * q.state.waiting.length + q.state.onRelease.length

theorem advance_effort {i : Nat} (h : q.advance i = some q') :
    q'.effort + 1 ≤ q.effort := by
  obtain ⟨pre, t, post, next, state, history, hthreads, _, hnext, rfl⟩ := advance_cases h
  simp only [effort, hthreads, List.map_append, List.map_cons, List.sum_append, List.sum_cons]
  cases t with
  | pop =>
    unfold Thread.advance at hnext
    rcases pop_cases q.state with ⟨job, waiting, hwaiting, hpop⟩ | ⟨hwaiting, _, hpop⟩ |
      ⟨hwaiting, _, hpop⟩
    · rw [hpop] at hnext
      cases hnext
      simp only [hwaiting, Thread.effort, List.length_cons, List.map_cons, List.map_nil,
        List.sum_cons, List.sum_nil]
      omega
    · rw [hpop] at hnext
      cases hnext
      simp only [Thread.effort, List.map_nil, List.sum_nil]
      omega
    · rw [hpop] at hnext
      cases hnext
      simp only [hwaiting, Thread.effort, List.length_nil, List.map_cons, List.map_nil, List.sum_cons,
        List.sum_nil]
      omega
  | release job =>
    unfold Thread.advance State.release at hnext
    rcases houtstanding : q.state.outstanding with _ | outstanding
    · rw [houtstanding] at hnext
      cases hnext
    · rw [houtstanding] at hnext
      cases hnext
      simp only [Thread.effort, List.map_cons, List.map_nil, List.sum_cons, List.sum_nil]
      omega
  | execute job | complete job | dropPool pool onRelease =>
    cases hnext
    simp only [Thread.effort, List.map_cons, List.map_nil, List.sum_cons, List.sum_nil]
    omega
  | releases onRelease =>
    cases onRelease with
    | nil =>
      cases hnext
      simp only [Thread.effort, List.length_nil, List.map_nil, List.sum_nil]
      omega
    | cons callback onRelease =>
      cases hnext
      simp only [Thread.effort, List.length_cons, List.map_cons, List.map_nil, List.sum_cons, List.sum_nil]
      omega

/-- Runs of the threads alone. -/
inductive Advances (q : SerialQueue T C) : Nat → SerialQueue T C → Prop where
  | start : Advances q 0 q
  | step {n i : Nat} {q' q'' : SerialQueue T C} (h : Advances q n q')
    (hstep : q'.advance i = some q'') : Advances q (n + 1) q''

theorem advances_effort (hinv : Inv capacity q) {n : Nat} (h : Advances q n q') :
    Inv capacity q' ∧ q'.effort + n ≤ q.effort := by
  induction h with
  | start => exact ⟨hinv, le_rfl⟩
  | @step n i q' q'' _ hstep ih =>
    obtain ⟨hinv', hle⟩ := ih
    have := advance_effort hstep
    exact ⟨step_inv (a := .advance i) hinv' hstep, by omega⟩

/-! ### While every close is calm -/

/-- Until the pool is dropped no callback has run, and what has left the loop holds it. -/
def Unreleased (q : SerialQueue T C) : Prop :=
  q.history.poolDropped = false →
    q.history.released = [] ∧ ∀ t ∈ q.threads, t.inLoop = true ∨ t.holdsPool = true

theorem Inv.dropped (hinv : Inv capacity q) (hpool : q.state.pool = none)
    (hnone : ∀ t ∈ q.threads, t.holdsPool = false) : q.history.poolDropped = true := by
  have hone := hinv.pool
  have hzero : q.holders = 0 := by
    apply List.countP_eq_zero.mpr
    intro t ht
    rw [hnone t ht]
    exact Bool.false_ne_true
  rw [hpool, hzero] at hone
  cases hdropped : q.history.poolDropped with
  | true => rfl
  | false =>
    rw [hdropped] at hone
    cases hone

theorem step_unreleased (hinv : Inv capacity q) (hq : q.Unreleased) {a : Action T C}
    (calm : a.Calm q) (h : q.step capacity a = some q') : q'.Unreleased := by
  cases a with
  | submit job =>
    rcases submit_cases hinv job with ⟨r, heq⟩ | ⟨_, _, heq⟩
    · obtain rfl := Option.some.inj (heq.symm.trans h)
      exact hq
    · obtain rfl := Option.some.inj (heq.symm.trans h)
      intro hdropped
      obtain ⟨hreleased, hall⟩ := hq hdropped
      refine ⟨hreleased, fun t ht => ?_⟩
      dsimp only at ht
      split at ht
      · exact hall t ht
      · rcases List.mem_append.mp ht with ht | ht
        · exact hall t ht
        · obtain rfl := List.mem_singleton.mp ht
          exact Or.inl rfl
  | close onRelease =>
    obtain rfl := Option.some.inj h
    rcases close_cases q onRelease with ⟨_, heq⟩ | ⟨hactive, heq⟩
    · rw [heq]
      exact hq
    · rw [heq]
      intro hdropped
      obtain ⟨hreleased, hall⟩ := hq hdropped
      refine ⟨hreleased, fun t ht => ?_⟩
      rcases List.mem_append.mp ht with ht | ht
      · exact hall t ht
      · obtain rfl := List.mem_singleton.mp ht
        cases hpool : q.state.pool with
        | some pool => exact Or.inr rfl
        | none =>
          -- no pool to take: then it was dropped, for nobody holds it
          rcases calm with hbusy | hnone
          · rw [hactive] at hbusy
            cases hbusy
          · have hgone := hinv.dropped hpool hnone
            change q.history.poolDropped = false at hdropped
            rw [hgone] at hdropped
            cases hdropped
  | advance i =>
    obtain ⟨pre, t, post, next, state, history, hthreads, _, hnext, rfl⟩ := advance_cases h
    have hmem : t ∈ q.threads := by rw [hthreads]; simp
    intro hdropped
    cases t with
    | pop =>
      obtain ⟨hactive, _, rfl, rfl⟩ := hinv.alone hthreads rfl
      obtain ⟨hpool, hreleased, _⟩ := hinv.before (not_finished_of_active hactive)
      unfold Thread.advance at hnext
      rcases pop_cases q.state with ⟨job, waiting, _, hpop⟩ | ⟨_, _, hpop⟩ | ⟨_, _, hpop⟩
      · rw [hpop] at hnext
        cases hnext
        exact ⟨hreleased, List.forall_mem_singleton.mpr (Or.inl rfl)⟩
      · rw [hpop] at hnext
        cases hnext
        exact ⟨hreleased, List.forall_mem_nil _⟩
      · rw [hpop] at hnext
        cases hnext
        exact ⟨hreleased, List.forall_mem_singleton.mpr (Or.inr hpool)⟩
    | execute job =>
      obtain ⟨hactive, _, rfl, rfl⟩ := hinv.alone hthreads rfl
      cases hnext
      exact ⟨(hinv.before (not_finished_of_active hactive)).2.1,
        List.forall_mem_singleton.mpr (Or.inl rfl)⟩
    | release job =>
      obtain ⟨hactive, _, rfl, rfl⟩ := hinv.alone hthreads rfl
      obtain ⟨s, _, hs⟩ := Option.map_eq_some_iff.mp hnext
      cases hs
      exact ⟨(hinv.before (not_finished_of_active hactive)).2.1,
        List.forall_mem_singleton.mpr (Or.inl rfl)⟩
    | complete job =>
      obtain ⟨hactive, _, rfl, rfl⟩ := hinv.alone hthreads rfl
      cases hnext
      exact ⟨(hinv.before (not_finished_of_active hactive)).2.1,
        List.forall_mem_singleton.mpr (Or.inl rfl)⟩
    | dropPool pool onRelease =>
      cases hnext
      obtain ⟨hbefore, hpool⟩ := Bool.or_eq_false_iff.mp hdropped
      rcases (hq hbefore).2 _ hmem with hloop | hholds
      · cases hloop
      · change pool.isSome = true at hholds
        rw [hpool] at hholds
        cases hholds
    | releases onRelease =>
      have hbefore : q.history.poolDropped = false := by
        cases onRelease with
        | nil =>
          cases hnext
          exact hdropped
        | cons callback onRelease =>
          cases hnext
          exact hdropped
      rcases (hq hbefore).2 _ hmem with hloop | hholds
      · cases hloop
      · cases hholds

theorem CalmlyReachable.reachable (h : CalmlyReachable capacity q) : Reachable capacity q := by
  induction h with
  | new => exact .new
  | step _ _ hstep ih => exact .step ih hstep

theorem CalmlyReachable.unreleased (h : CalmlyReachable capacity q) : q.Unreleased := by
  induction h with
  | new => exact fun _ => ⟨rfl, List.forall_mem_nil _⟩
  | step h calm hstep ih => exact step_unreleased h.reachable.inv ih calm hstep

theorem advance_last {s : State T C} {h : History T C} {threads next : List (Thread T C)}
    {t : Thread T C} {state : State T C} {history : History T C}
    (ht : t.advance s h = some (next, state, history)) :
    advance threads.length ⟨s, threads ++ [t], h⟩ = some ⟨state, threads ++ next, history⟩ := by
  simp [advance, ht]

/-- A close that is not calm runs its callback in two steps, with the pool still there. -/
theorem rash_close (hinv : Inv capacity q) {onRelease : C}
    (hrash : ¬ (Action.close onRelease : Action T C).Calm q) :
    ∃ q₁ q₂, (q.close onRelease).advance q.threads.length = some q₁ ∧
      q₁.advance q.threads.length = some q₂ ∧ q₂.history.released ≠ [] ∧
      q₂.history.poolDropped = false := by
  obtain ⟨hactive, hheld⟩ := not_or.mp hrash
  have hidle : q.state.active = false := Bool.not_eq_true _ ▸ hactive
  have hcount : 0 < q.holders := by
    by_contra hzero
    apply hheld
    intro t ht
    have := List.countP_eq_zero.mp (Nat.eq_zero_of_not_pos hzero) t ht
    exact Bool.not_eq_true _ ▸ this
  have hone := hinv.pool
  have hpool : q.state.pool = none := by
    cases hpool : q.state.pool with
    | none => rfl
    | some pool =>
      rw [hpool] at hone
      change 1 + q.holders + _ = 1 at hone
      omega
  have hdropped : q.history.poolDropped = false := by
    cases hdropped : q.history.poolDropped with
    | false => rfl
    | true =>
      rw [hdropped] at hone
      change _ + q.holders + 1 = 1 at hone
      omega
  rcases close_cases q onRelease with ⟨hbusy, _⟩ | ⟨_, heq⟩
  · exact absurd hbusy hactive
  rw [heq, hpool]
  refine ⟨_, _, advance_last rfl, advance_last rfl, ?_, ?_⟩
  · exact List.append_ne_nil_of_right_ne_nil _ (List.cons_ne_nil _ _)
  · change (q.history.poolDropped || false) = false
    rw [hdropped]
    rfl

/-! ### What holds in every state -/

/-- What every reachable state satisfies. -/
structure Safe (capacity : Nat) (q : SerialQueue T C) : Prop where
  order : q.history.accepted = q.history.started ++ q.state.waiting
  once : q.history.completed <+: q.history.freed ∧ q.history.freed <+: q.history.ran ∧
    q.history.ran <+: q.history.started
  oneAtATime : q.threads.countP Thread.executing ≤ 1 ∧
    q.history.started.length ≤ q.history.completed.length + 1
  bound : q.history.accepted.length - q.history.freed.length ≤ capacity
  rejected : (q.history.calls.map Prod.fst).Nodup →
    ∀ job ∈ q.history.rejected, job ∉ q.history.started
  scheduled : q.state.waiting ≠ [] → ∃ t ∈ q.threads, t.inLoop = true
  callbacks : (q.history.released ++ q.pending ++ q.state.onRelease).Perm q.history.passed
  after : q.history.released ≠ [] →
    q.state.closed = true ∧ q.history.completed = q.history.accepted
  total : (∀ job, ∃ q', q.submit capacity job = some q') ∧
    ∀ i < q.threads.length, ∃ q', q.advance i = some q'
  settled : q.threads = [] →
    q.history.completed = q.history.accepted ∧ q.history.released.Perm q.history.passed

theorem Inv.once (hinv : Inv capacity q) : q.history.completed <+: q.history.freed ∧
    q.history.freed <+: q.history.ran ∧ q.history.ran <+: q.history.started ∧
    q.history.started.length ≤ q.history.completed.length + 1 := by
  obtain ⟨t, hholds⟩ : ∃ t : Thread T C, t.Holds q.history := by
    cases hactive : q.state.active with
    | true =>
      obtain ⟨t, _, hholds⟩ := hinv.busy hactive
      exact ⟨t, hholds⟩
    | false => exact ⟨.pop, (hinv.idle hactive).2.1⟩
  cases t with
  | pop =>
    obtain ⟨hstarted, hran, hfreed⟩ := hholds
    rw [hstarted, hran, hfreed]
    exact ⟨List.prefix_rfl, List.prefix_rfl, List.prefix_rfl, Nat.le_succ _⟩
  | execute job =>
    obtain ⟨hstarted, hran, hfreed⟩ := hholds
    rw [hstarted, hran, hfreed, List.length_append]
    exact ⟨List.prefix_rfl, List.prefix_rfl, List.prefix_append _ _, le_rfl⟩
  | release job =>
    obtain ⟨hstarted, hran, hfreed⟩ := hholds
    rw [hstarted, hran, hfreed, List.length_append]
    exact ⟨List.prefix_rfl, List.prefix_append _ _, List.prefix_rfl, le_rfl⟩
  | complete job =>
    obtain ⟨hstarted, hran, hfreed⟩ := hholds
    rw [hstarted, hran, hfreed, List.length_append]
    exact ⟨List.prefix_append _ _, List.prefix_rfl, List.prefix_rfl, le_rfl⟩
  | dropPool pool onRelease => cases hholds
  | releases onRelease => cases hholds

theorem not_accepted_of_rejected (h : History T C) (hnodup : (h.calls.map Prod.fst).Nodup) (job : T)
    (hrejected : job ∈ h.rejected) : job ∉ h.accepted := by
  intro haccepted
  obtain ⟨⟨_, _ | r⟩, hcall, hjob⟩ := List.mem_filterMap.mp hrejected
  · cases hjob
  · obtain ⟨⟨_, _ | r'⟩, hcall', hjob'⟩ := List.mem_filterMap.mp haccepted
    · obtain rfl := Option.some.inj hjob
      obtain rfl := Option.some.inj hjob'
      have := List.inj_on_of_nodup_map hnodup hcall hcall' rfl
      cases this
    · cases hjob'

theorem Inv.safe (hinv : Inv capacity q) : Safe capacity q := by
  obtain ⟨hcompleted, hfreed, hran, hone⟩ := hinv.once
  have hsettled : q.state.active = false → q.history.completed = q.history.accepted := by
    intro hidle
    obtain ⟨hwaiting, ⟨hstarted, _⟩, _⟩ := hinv.idle hidle
    rw [hinv.order, hwaiting, List.append_nil, hstarted]
  refine ⟨hinv.order, ⟨hcompleted, hfreed, hran⟩, ⟨?_, hone⟩, ?_, ?_, ?_, hinv.callbacks, ?_,
    ⟨hinv.submit_total, fun i hi => hinv.advance_total hi⟩, ?_⟩
  · cases hactive : q.state.active with
    | true =>
      obtain ⟨t, ht, _⟩ := hinv.busy hactive
      rw [ht]
      exact List.countP_le_length
    | false =>
      have hzero : q.threads.countP Thread.executing = 0 := by
        apply List.countP_eq_zero.mpr
        intro t ht hexecuting
        have hout := (hinv.idle hactive).2.2 t ht
        cases t with
        | execute job => cases hout
        | pop | release | complete | dropPool | releases => cases hexecuting
      omega
  · have := hinv.outstanding
    have := hinv.bounded
    omega
  · intro hnodup job hrejected hstarted
    apply not_accepted_of_rejected q.history hnodup job hrejected
    rw [hinv.order]
    exact List.mem_append_left _ hstarted
  · intro hwaiting
    cases hactive : q.state.active with
    | true =>
      obtain ⟨t, ht, hholds⟩ := hinv.busy hactive
      exact ⟨t, by rw [ht]; exact List.mem_singleton_self t, hholds.inLoop⟩
    | false => exact absurd (hinv.idle hactive).1 hwaiting
  · intro hreleased
    have hfinished : q.Finished := by
      by_contra hnot
      exact hreleased (hinv.before hnot).2.1
    exact ⟨hfinished.1, hsettled hfinished.2⟩
  · intro hthreads
    have hactive : q.state.active = false := by
      cases hactive : q.state.active with
      | false => rfl
      | true =>
        obtain ⟨t, ht, _⟩ := hinv.busy hactive
        rw [hthreads] at ht
        cases ht
    refine ⟨hsettled hactive, ?_⟩
    have hperm := hinv.callbacks
    cases hclosed : q.state.closed with
    | true =>
      rw [(hinv.after ⟨hclosed, hactive⟩).2, pending, hthreads, List.flatMap_nil, List.append_nil,
        List.append_nil] at hperm
      exact hperm
    | false =>
      rw [hinv.opened hclosed, (hinv.before (not_finished_of_open hclosed)).2.1]

/-- In every reachable state the queue is safe, a job waits for at most four steps of the drain
for itself and for each job before it, and without calls the threads end. In runs whose closes
are all calm a callback runs after the drop of the pool; a close that is not calm can run its
callback before. -/
theorem queue_safe_and_releases (capacity : Nat) (q : SerialQueue T C) :
    (Reachable capacity q → Safe capacity q ∧
      (∀ k n q', k < q.history.accepted.length → Runs capacity q n q' → 4 * (k + 1) ≤ n →
        k < q'.history.completed.length) ∧
      (∀ n q', Advances q n q' → n ≤ q.effort) ∧
      ∀ onRelease, ¬ (Action.close onRelease : Action T C).Calm q →
        ∃ q₁ q₂, (q.close onRelease).advance q.threads.length = some q₁ ∧
          q₁.advance q.threads.length = some q₂ ∧ q₂.history.released ≠ [] ∧
          q₂.history.poolDropped = false) ∧
    (CalmlyReachable capacity q → Safe capacity q ∧
      (q.history.released ≠ [] → q.history.poolDropped = true)) := by
  constructor
  · intro h
    refine ⟨h.inv.safe, ?_, ?_, fun onRelease hrash => rash_close h.inv hrash⟩
    · intro k n q' hk hruns hn
      exact job_completes h.inv hk hruns hn
    · intro n q' hruns
      have := (advances_effort h.inv hruns).2
      omega
  · intro h
    refine ⟨h.reachable.inv.safe, fun hreleased => ?_⟩
    cases hdropped : q.history.poolDropped with
    | true => rfl
    | false => exact absurd (h.unreleased hdropped).1 hreleased

/-- One job, and a close while it waits. -/
theorem queue_safe_and_releases_example : ∃ q : SerialQueue Nat Nat,
    q.history.completed = [7] ∧ q.history.released = [1] ∧ q.threads = [] ∧ Safe 2 q ∧
      q.history.poolDropped = true := by
  have h₀ : CalmlyReachable 2 (new : SerialQueue Nat Nat) := .new
  have h₁ := h₀.step (a := .submit 7) trivial rfl
  have h₂ := h₁.step (a := .close 1) (Or.inl rfl) rfl
  have h₃ := h₂.step (a := .advance 0) trivial rfl
  have h₄ := h₃.step (a := .advance 0) trivial rfl
  have h₅ := h₄.step (a := .advance 0) trivial rfl
  have h₆ := h₅.step (a := .advance 0) trivial rfl
  have h₇ := h₆.step (a := .advance 0) trivial rfl
  have h₈ := h₇.step (a := .advance 0) trivial rfl
  have h₉ := h₈.step (a := .advance 0) trivial rfl
  have h := h₉.step (a := .advance 0) trivial rfl
  obtain ⟨hsafe, hdropped⟩ := (queue_safe_and_releases 2 _).2 h
  exact ⟨_, rfl, rfl, rfl, hsafe, hdropped (List.cons_ne_nil 1 [])⟩

/-- A second close while the drain holds the pool it took: the second callback runs, the pool
is still there. -/
theorem close_outruns_drop : ∃ q : SerialQueue Nat Nat, Reachable 2 q ∧
    q.history.completed = [7] ∧ q.history.released = [2] ∧ q.history.poolDropped = false ∧
      q.threads = [.dropPool (some ⟨⟩) [1], .releases []] := by
  have h₀ : Reachable 2 (new : SerialQueue Nat Nat) := .new
  have h₁ := h₀.step (a := .submit 7) rfl
  have h₂ := h₁.step (a := .close 1) rfl
  have h₃ := h₂.step (a := .advance 0) rfl
  have h₄ := h₃.step (a := .advance 0) rfl
  have h₅ := h₄.step (a := .advance 0) rfl
  have h₆ := h₅.step (a := .advance 0) rfl
  have h₇ := h₆.step (a := .advance 0) rfl
  have h₈ := h₇.step (a := .close 2) rfl
  have h₉ := h₈.step (a := .advance 1) rfl
  have h := h₉.step (a := .advance 1) rfl
  exact ⟨_, h, rfl, rfl, rfl, rfl⟩

end SerialQueue
end Curvy.Node
