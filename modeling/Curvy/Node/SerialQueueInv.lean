import Curvy.Node.SerialQueue

/-!
# The invariant of the serial queue

While the queue is active exactly one thread is in the loop of a drain, and the history is
that thread's position. Nothing has left the loop before the queue is closed and idle.
-/

namespace Curvy.Node

set_option autoImplicit false

variable {T C : Type}

/-! ### Threads -/

namespace Thread

/-- The history of jobs as a thread in the loop leaves it. -/
def Holds (h : History T C) : Thread T C → Prop
  | .pop => h.started = h.completed ∧ h.ran = h.completed ∧ h.freed = h.completed
  | .execute job => h.started = h.completed ++ [job] ∧ h.ran = h.completed ∧ h.freed = h.completed
  | .release job =>
    h.started = h.completed ++ [job] ∧ h.ran = h.completed ++ [job] ∧ h.freed = h.completed
  | .complete job =>
    h.started = h.completed ++ [job] ∧ h.ran = h.completed ++ [job] ∧ h.freed = h.completed ++ [job]
  | .dropPool _ _ | .releases _ => False

theorem pending_of_inLoop {t : Thread T C} (h : t.inLoop = true) : t.pending = [] := by
  cases t with
  | dropPool pool onRelease => cases h
  | releases onRelease => cases h
  | pop | execute | release | complete => rfl

theorem holdsPool_of_inLoop {t : Thread T C} (h : t.inLoop = true) : t.holdsPool = false := by
  cases t with
  | dropPool pool onRelease => cases h
  | releases onRelease => cases h
  | pop | execute | release | complete => rfl

theorem Holds.inLoop {t : Thread T C} {h : History T C} (hholds : t.Holds h) : t.inLoop = true := by
  cases t with
  | dropPool pool onRelease => cases hholds
  | releases onRelease => cases hholds
  | pop | execute | release | complete => rfl

end Thread

namespace SerialQueue

variable {capacity : Nat} {q q' : SerialQueue T C}

def pending (q : SerialQueue T C) : List C := q.threads.flatMap Thread.pending

def holders (q : SerialQueue T C) : Nat := q.threads.countP Thread.holdsPool

/-- Closed, and the last drain has ended. -/
def Finished (q : SerialQueue T C) : Prop := q.state.closed = true ∧ q.state.active = false

structure Inv (capacity : Nat) (q : SerialQueue T C) : Prop where
  order : q.history.accepted = q.history.started ++ q.state.waiting
  busy : q.state.active = true → ∃ t, q.threads = [t] ∧ t.Holds q.history
  idle : q.state.active = false →
    q.state.waiting = [] ∧ Thread.pop.Holds q.history ∧ ∀ t ∈ q.threads, t.inLoop = false
  outstanding : q.history.accepted.length = q.history.freed.length + q.state.outstanding
  bounded : q.state.outstanding ≤ capacity
  before : ¬ q.Finished →
    q.state.pool.isSome ∧ q.history.released = [] ∧ ∀ t ∈ q.threads, t.inLoop = true
  opened : q.state.closed = false → q.history.passed = []
  after : q.Finished → q.state.pool = none ∧ q.state.onRelease = []
  callbacks : (q.history.released ++ q.pending ++ q.state.onRelease).Perm q.history.passed
  pool : q.state.pool.isSome.toNat + q.holders + q.history.poolDropped.toNat = 1

theorem inv_new : Inv capacity (new : SerialQueue T C) where
  order := rfl
  busy := by
    intro h
    cases h
  idle := fun _ => ⟨rfl, ⟨rfl, rfl, rfl⟩, List.forall_mem_nil _⟩
  outstanding := rfl
  bounded := Nat.zero_le _
  before := fun _ => ⟨rfl, rfl, List.forall_mem_nil _⟩
  opened := fun _ => rfl
  after := by
    rintro ⟨h, _⟩
    cases h
  callbacks := List.Perm.refl _
  pool := rfl

theorem not_finished_of_active (h : q.state.active = true) : ¬ q.Finished := by
  rintro ⟨_, hidle⟩
  rw [h] at hidle
  cases hidle

theorem not_finished_of_open (h : q.state.closed = false) : ¬ q.Finished := by
  rintro ⟨hclosed, _⟩
  rw [h] at hclosed
  cases hclosed

/-- An open queue with nothing to do has no thread. -/
theorem Inv.quiet (hinv : Inv capacity q) (hopen : q.state.closed = false)
    (hactive : q.state.active = false) : q.threads = [] := by
  obtain ⟨_, _, hloop⟩ := hinv.before (not_finished_of_open hopen)
  obtain ⟨_, _, hout⟩ := hinv.idle hactive
  cases hthreads : q.threads with
  | nil => rfl
  | cons t threads =>
    have hin := hloop t (by rw [hthreads]; exact List.mem_cons_self)
    rw [hout t (by rw [hthreads]; exact List.mem_cons_self)] at hin
    cases hin

/-- While a drain is in its loop there is no other thread. -/
theorem Inv.alone (hinv : Inv capacity q) {pre post : List (Thread T C)} {t : Thread T C}
    (hthreads : q.threads = pre ++ t :: post) (ht : t.inLoop = true) :
    q.state.active = true ∧ t.Holds q.history ∧ pre = [] ∧ post = [] := by
  cases hactive : q.state.active with
  | false =>
    have hout := (hinv.idle hactive).2.2 t (by rw [hthreads]; simp)
    rw [ht] at hout
    cases hout
  | true =>
    obtain ⟨u, hu, hholds⟩ := hinv.busy hactive
    rw [hthreads] at hu
    rcases List.append_eq_singleton_iff.mp hu with ⟨rfl, hcons⟩ | ⟨_, hnil⟩
    · obtain ⟨rfl, rfl⟩ := List.cons.inj hcons
      exact ⟨rfl, hholds, rfl, rfl⟩
    · cases hnil

/-! ### What a step can do -/

/-- The history after a refused and after an accepted submit. -/
def refused (job : T) (r : Rejection) (h : History T C) : History T C :=
  { h with calls := h.calls ++ [(job, some r)] }

def takenIn (job : T) (h : History T C) : History T C :=
  { h with calls := h.calls ++ [(job, none)] }

theorem accepted_refused (job : T) (r : Rejection) (h : History T C) :
    (refused job r h).accepted = h.accepted := by
  simp [refused, History.accepted, History.acceptedCall]

theorem accepted_takenIn (job : T) (h : History T C) :
    (takenIn job h).accepted = h.accepted ++ [job] := by
  simp [takenIn, History.accepted, History.acceptedCall]

theorem submit_cases (hinv : Inv capacity q) (job : T) :
    (∃ r, q.submit capacity job = some ⟨q.state, q.threads, refused job r q.history⟩) ∨
    (q.state.closed = false ∧ q.state.outstanding < capacity ∧
      q.submit capacity job = some
        ⟨{ q.state with
            waiting := q.state.waiting ++ [job]
            outstanding := q.state.outstanding + 1
            active := true },
          if q.state.active then q.threads else q.threads ++ [.pop], takenIn job q.history⟩) := by
  unfold submit State.submit
  by_cases hclosed : q.state.closed = true
  · rw [if_pos hclosed]
    exact Or.inl ⟨.closed, rfl⟩
  rw [if_neg hclosed]
  by_cases hfull : capacity ≤ q.state.outstanding
  · rw [if_pos hfull]
    exact Or.inl ⟨.full, rfl⟩
  rw [if_neg hfull]
  refine Or.inr ⟨Bool.not_eq_true _ ▸ hclosed, Nat.not_le.mp hfull, ?_⟩
  dsimp only
  cases hactive : q.state.active with
  | true =>
    simp only [if_true, Option.map_some, Bool.false_eq_true, if_false]
    rfl
  | false =>
    -- an open queue owns its pool
    obtain ⟨pool, hpool⟩ := Option.isSome_iff_exists.mp
      (hinv.before fun hfinished => hclosed hfinished.1).1
    simp only [hpool, Bool.false_eq_true, if_false, Option.map_some, if_true]
    rfl

theorem close_cases (q : SerialQueue T C) (onRelease : C) :
    (q.state.active = true ∧ q.close onRelease =
      ⟨{ q.state with closed := true, onRelease := q.state.onRelease ++ [onRelease] }, q.threads,
        { q.history with passed := q.history.passed ++ [onRelease] }⟩) ∨
    (q.state.active = false ∧ q.close onRelease =
      ⟨{ q.state with closed := true, pool := none },
        q.threads ++ [.dropPool q.state.pool [onRelease]],
        { q.history with passed := q.history.passed ++ [onRelease] }⟩) := by
  unfold close State.close
  cases hactive : q.state.active with
  | true => exact Or.inl ⟨rfl, by simp [hactive]⟩
  | false => exact Or.inr ⟨rfl, by simp [hactive]⟩

/-- A step of a thread replaces it, in its place. -/
theorem advance_cases {i : Nat} (h : q.advance i = some q') :
    ∃ pre t post next state history, q.threads = pre ++ t :: post ∧ q.threads[i]? = some t ∧
      t.advance q.state q.history = some (next, state, history) ∧
      q' = ⟨state, pre ++ next ++ post, history⟩ := by
  unfold advance at h
  obtain ⟨t, ht, hrest⟩ := Option.bind_eq_some_iff.mp h
  obtain ⟨⟨next, state, history⟩, hnext, heq⟩ := Option.bind_eq_some_iff.mp hrest
  obtain ⟨hi, rfl⟩ := List.getElem?_eq_some_iff.mp ht
  refine ⟨q.threads.take i, q.threads[i], q.threads.drop (i + 1), next, state, history, ?_, ht,
    hnext, ?_⟩
  · rw [List.getElem_cons_drop, List.take_append_drop]
  · exact (Option.some.inj heq).symm

theorem pop_cases (s : State T C) :
    (∃ job waiting, s.waiting = job :: waiting ∧ s.pop = (.job job, { s with waiting })) ∨
    (s.waiting = [] ∧ s.closed = false ∧ s.pop = (.idle, { s with active := false })) ∨
    (s.waiting = [] ∧ s.closed = true ∧
      s.pop = (.finished s.pool s.onRelease, { s with active := false, pool := none, onRelease := [] })) := by
  unfold State.pop
  cases hwaiting : s.waiting with
  | cons job waiting => exact Or.inl ⟨job, waiting, rfl, rfl⟩
  | nil =>
    cases hclosed : s.closed with
    | false => exact Or.inr (Or.inl ⟨rfl, rfl, by simp⟩)
    | true => exact Or.inr (Or.inr ⟨rfl, rfl, by simp⟩)

/-! ### The invariant over the steps -/

theorem submit_inv (hinv : Inv capacity q) {job : T} (h : q.submit capacity job = some q') :
    Inv capacity q' := by
  rcases submit_cases hinv job with ⟨r, heq⟩ | ⟨hopen, hroom, heq⟩
  · obtain rfl := Option.some.inj (heq.symm.trans h)
    refine ⟨?_, hinv.busy, hinv.idle, ?_, hinv.bounded, hinv.before, hinv.opened, hinv.after,
      hinv.callbacks, hinv.pool⟩
    · rw [accepted_refused]
      exact hinv.order
    · rw [accepted_refused]
      exact hinv.outstanding
  · obtain rfl := Option.some.inj (heq.symm.trans h)
    obtain ⟨hpool, hreleased, hloop⟩ := hinv.before (not_finished_of_open hopen)
    -- the threads after the submit are one drain, found or spawned
    obtain ⟨t, hthreads, hholds, hpending, hholders⟩ : ∃ t : Thread T C,
        (if q.state.active then q.threads else q.threads ++ [.pop]) = [t] ∧ t.Holds q.history ∧
        q.pending = [] ∧ q.holders = 0 := by
      cases hactive : q.state.active with
      | true =>
        obtain ⟨t, ht, hholds⟩ := hinv.busy hactive
        refine ⟨t, ht, hholds, ?_, ?_⟩
        · simp [pending, ht, Thread.pending_of_inLoop hholds.inLoop]
        · simp [holders, ht, Thread.holdsPool_of_inLoop hholds.inLoop]
      | false =>
        have hnil := hinv.quiet hopen hactive
        exact ⟨.pop, by simp [hnil], (hinv.idle hactive).2.1, by simp [pending, hnil],
          by simp [holders, hnil]⟩
    have hperm := hinv.callbacks
    have hone := hinv.pool
    rw [hpending, List.append_nil] at hperm
    rw [hholders] at hone
    refine ⟨?_, ?_, ?_, ?_, hroom, ?_, hinv.opened, ?_, ?_, ?_⟩
    · rw [accepted_takenIn, hinv.order, List.append_assoc]
      rfl
    · intro _
      exact ⟨t, hthreads, by cases t <;> exact hholds⟩
    · intro hactive
      cases hactive
    · rw [accepted_takenIn, List.length_append, hinv.outstanding]
      rfl
    · intro _
      refine ⟨hpool, hreleased, ?_⟩
      dsimp only
      rw [hthreads]
      exact List.forall_mem_singleton.mpr hholds.inLoop
    · rintro ⟨_, hactive⟩
      cases hactive
    · simp only [pending, hthreads, List.flatMap_cons, List.flatMap_nil, List.append_nil,
        Thread.pending_of_inLoop hholds.inLoop]
      exact hperm
    · simp only [holders, hthreads, List.countP_singleton,
        Thread.holdsPool_of_inLoop hholds.inLoop]
      exact hone

theorem close_inv (hinv : Inv capacity q) (onRelease : C) : Inv capacity (q.close onRelease) := by
  rcases close_cases q onRelease with ⟨hactive, heq⟩ | ⟨hactive, heq⟩
  · rw [heq]
    have hnot := not_finished_of_active hactive
    refine ⟨hinv.order, ?_, hinv.idle, hinv.outstanding, hinv.bounded, fun _ => hinv.before hnot, ?_,
      ?_, ?_, hinv.pool⟩
    · intro _
      obtain ⟨t, ht, hholds⟩ := hinv.busy hactive
      exact ⟨t, ht, by cases t <;> exact hholds⟩
    · intro hopen
      cases hopen
    · rintro ⟨_, hidle⟩
      exact absurd hidle (by simp [hactive])
    · rw [← List.append_assoc]
      exact hinv.callbacks.append_right [onRelease]
  · rw [heq]
    obtain ⟨hwaiting, hholds, hout⟩ := hinv.idle hactive
    have hregistered : q.state.onRelease = [] := by
      cases hclosed : q.state.closed with
      | true => exact (hinv.after ⟨hclosed, hactive⟩).2
      | false =>
        have hperm := hinv.callbacks
        rw [hinv.opened hclosed] at hperm
        exact (List.append_eq_nil_iff.mp hperm.eq_nil).2
    refine ⟨hinv.order, ?_, fun _ => ⟨hwaiting, hholds, ?_⟩, hinv.outstanding, hinv.bounded, ?_, ?_,
      fun _ => ⟨rfl, hregistered⟩, ?_, ?_⟩
    · intro hbusy
      exact absurd hbusy (by simp [hactive])
    · intro t ht
      rcases List.mem_append.mp ht with ht | ht
      · exact hout t ht
      · obtain rfl := List.mem_singleton.mp ht
        rfl
    · intro hnot
      exact absurd ⟨rfl, hactive⟩ hnot
    · intro hopen
      cases hopen
    · have hperm := hinv.callbacks
      simp only [pending, hregistered, List.append_nil, List.flatMap_append, List.flatMap_cons,
        List.flatMap_nil, Thread.pending] at hperm ⊢
      rw [← List.append_assoc]
      exact hperm.append_right [onRelease]
    · have hone := hinv.pool
      simp only [holders, List.countP_append, List.countP_singleton, Thread.holdsPool] at hone ⊢
      refine Eq.trans ?_ hone
      cases q.state.pool with
      | none => rfl
      | some pool =>
        simp only [Option.isSome_some, Option.isSome_none, Bool.toNat_true, Bool.toNat_false, if_true]
        omega

section Drain
variable {t t' : Thread T C}

theorem drain_step_inv (hinv : Inv capacity q) (hthreads : q.threads = [t])
    (hactive : q.state.active = true) (ht : t.inLoop = true)
    {waiting started ran freed completed : List T} {outstanding : Nat}
    (horder : q.history.accepted = started ++ waiting)
    (hcount : q.history.accepted.length = freed.length + outstanding)
    (hbounded : outstanding ≤ capacity)
    (hholds : t'.Holds { q.history with started, ran, freed, completed }) :
    Inv capacity ⟨{ q.state with waiting, outstanding }, [t'],
      { q.history with started, ran, freed, completed }⟩ := by
  have hnot := not_finished_of_active hactive
  obtain ⟨hpool, hreleased, _⟩ := hinv.before hnot
  refine ⟨horder, fun _ => ⟨t', rfl, hholds⟩, ?_, hcount, hbounded, ?_, hinv.opened, ?_, ?_, ?_⟩
  · intro hidle
    exact absurd hidle (by simp [hactive])
  · intro _
    exact ⟨hpool, hreleased, List.forall_mem_singleton.mpr hholds.inLoop⟩
  · intro hfinished
    exact absurd hfinished hnot
  · have hperm := hinv.callbacks
    simp only [pending, hthreads, List.flatMap_cons, List.flatMap_nil, List.append_nil,
      Thread.pending_of_inLoop ht, Thread.pending_of_inLoop hholds.inLoop] at hperm ⊢
    exact hperm
  · have hone := hinv.pool
    simp only [holders, hthreads, List.countP_singleton,
      Thread.holdsPool_of_inLoop ht, Thread.holdsPool_of_inLoop hholds.inLoop] at hone ⊢
    exact hone

variable {next : List (Thread T C)} {state : State T C} {history : History T C}

theorem pop_inv (hinv : Inv capacity q) (hthreads : q.threads = [.pop])
    (hactive : q.state.active = true) (hholds : Thread.pop.Holds q.history)
    (h : Thread.pop.advance q.state q.history = some (next, state, history)) :
    Inv capacity ⟨state, next, history⟩ := by
  obtain ⟨hstarted, hran, hfreed⟩ := hholds
  obtain ⟨hpool, hreleased, _⟩ := hinv.before (not_finished_of_active hactive)
  have hperm := hinv.callbacks
  have hone := hinv.pool
  simp only [pending, hthreads, hreleased, List.flatMap_cons, List.flatMap_nil, Thread.pending,
    List.nil_append] at hperm
  simp only [holders, hthreads, hpool, List.countP_singleton, Thread.holdsPool] at hone
  unfold Thread.advance at h
  rcases pop_cases q.state with ⟨job, waiting, hwaiting, hpop⟩ | ⟨hwaiting, hopen, hpop⟩ |
    ⟨hwaiting, hclosed, hpop⟩
  · rw [hpop] at h
    cases h
    apply drain_step_inv hinv hthreads hactive rfl
    · rw [hinv.order, hwaiting, List.append_assoc]
      rfl
    · exact hinv.outstanding
    · exact hinv.bounded
    · exact ⟨by rw [hstarted], hran, hfreed⟩
  · rw [hpop] at h
    cases h
    refine ⟨hinv.order, ?_, fun _ => ⟨hwaiting, ⟨hstarted, hran, hfreed⟩, List.forall_mem_nil _⟩,
      hinv.outstanding, hinv.bounded, fun _ => ⟨hpool, hreleased, List.forall_mem_nil _⟩,
      hinv.opened, ?_, ?_, ?_⟩
    · intro hbusy
      cases hbusy
    · rintro ⟨hclosed, _⟩
      exact absurd hclosed (by simp [hopen])
    · simpa only [pending, hreleased, List.flatMap_nil, List.nil_append] using hperm
    · simpa [holders, hpool] using hone
  · rw [hpop] at h
    cases h
    refine ⟨hinv.order, ?_, fun _ => ⟨hwaiting, ⟨hstarted, hran, hfreed⟩, ?_⟩, hinv.outstanding,
      hinv.bounded, ?_, ?_, fun _ => ⟨rfl, rfl⟩, ?_, ?_⟩
    · intro hbusy
      cases hbusy
    · exact List.forall_mem_singleton.mpr rfl
    · intro hopen
      exact absurd ⟨hclosed, rfl⟩ hopen
    · intro hopen
      exact absurd hopen (by simp [hclosed])
    · simpa only [pending, hreleased, List.flatMap_cons, List.flatMap_nil, List.append_nil,
        List.nil_append, Thread.pending] using hperm
    · simpa [holders, hpool, Thread.holdsPool] using hone

/-- A thread in the loop of a drain advances. -/
theorem drain_inv (hinv : Inv capacity q) (hthreads : q.threads = [t])
    (hactive : q.state.active = true) (hholds : t.Holds q.history)
    (h : t.advance q.state q.history = some (next, state, history)) :
    Inv capacity ⟨state, next, history⟩ := by
  cases t with
  | pop => exact pop_inv hinv hthreads hactive hholds h
  | execute job =>
    obtain ⟨hstarted, hran, hfreed⟩ := hholds
    cases h
    apply drain_step_inv hinv hthreads hactive rfl hinv.order hinv.outstanding hinv.bounded
    exact ⟨hstarted, by rw [hran], hfreed⟩
  | release job =>
    obtain ⟨hstarted, hran, hfreed⟩ := hholds
    unfold Thread.advance State.release at h
    have hcount := hinv.outstanding
    have hbounded := hinv.bounded
    rcases houtstanding : q.state.outstanding with _ | outstanding
    · rw [houtstanding] at h
      cases h
    · rw [houtstanding] at h hcount hbounded
      cases h
      apply drain_step_inv hinv hthreads hactive rfl hinv.order
      · rw [hcount, List.length_append, List.length_singleton]
        omega
      · omega
      · exact ⟨hstarted, hran, by rw [hfreed]⟩
  | complete job =>
    obtain ⟨hstarted, hran, hfreed⟩ := hholds
    cases h
    apply drain_step_inv hinv hthreads hactive rfl hinv.order hinv.outstanding hinv.bounded
    exact ⟨hstarted, hran, hfreed⟩
  | dropPool pool onRelease => cases hholds
  | releases onRelease => cases hholds

end Drain

/-- A thread that has left the loop, or the section of a close, ends. -/
theorem end_inv (hinv : Inv capacity q) {pre post : List (Thread T C)} {t : Thread T C}
    (hthreads : q.threads = pre ++ t :: post) (ht : t.inLoop = false)
    {next : List (Thread T C)} {state : State T C} {history : History T C}
    (h : t.advance q.state q.history = some (next, state, history)) :
    Inv capacity ⟨state, pre ++ next ++ post, history⟩ := by
  have hmem : t ∈ q.threads := by rw [hthreads]; simp
  have hfinished : q.Finished := by
    by_contra hnot
    have := (hinv.before hnot).2.2 t hmem
    rw [ht] at this
    cases this
  obtain ⟨hwaiting, hholds, hout⟩ := hinv.idle hfinished.2
  have hperm := hinv.callbacks
  have hone := hinv.pool
  have hlike : ∀ next : List (Thread T C), (∀ u ∈ next, u.inLoop = false) →
      ∀ u ∈ pre ++ next ++ post, u.inLoop = false := by
    intro next hnext u hu
    rw [hthreads] at hout
    rcases List.mem_append.mp hu with hu | hu
    · rcases List.mem_append.mp hu with hu | hu
      · exact hout u (List.mem_append_left _ hu)
      · exact hnext u hu
    · exact hout u (List.mem_append_right _ (List.mem_cons_of_mem _ hu))
  have hbusy : q.state.active = true → ∃ u, pre ++ next ++ post = [u] ∧ u.Holds history := by
    intro hactive
    exact absurd hfinished (not_finished_of_active hactive)
  simp only [pending, holders, hthreads, List.flatMap_append, List.flatMap_cons, List.countP_append,
    List.countP_cons] at hperm hone
  cases t with
  | pop | execute | release | complete => cases ht
  | dropPool pool onRelease =>
    cases h
    refine ⟨hinv.order, hbusy, fun _ => ⟨hwaiting, hholds, ?_⟩, hinv.outstanding, hinv.bounded,
      fun hnot => absurd hfinished hnot, hinv.opened, hinv.after, ?_, ?_⟩
    · exact hlike [.releases onRelease] (List.forall_mem_singleton.mpr rfl)
    · simpa only [pending, List.flatMap_append, List.flatMap_cons, List.flatMap_nil, List.append_nil,
        List.append_assoc, Thread.pending] using hperm
    · simp only [holders, List.countP_append, List.countP_singleton, Thread.holdsPool] at hone ⊢
      cases pool with
      | none =>
        simp only [Option.isSome_none, Bool.or_false]
        exact hone
      | some pool =>
        simp only [Option.isSome_some, Bool.or_true, Bool.toNat_true, if_true, Bool.false_eq_true,
          if_false] at hone ⊢
        have := Bool.toNat_le q.history.poolDropped
        omega
  | releases onRelease =>
    cases onRelease with
    | nil =>
      cases h
      refine ⟨hinv.order, hbusy, fun _ => ⟨hwaiting, hholds, ?_⟩, hinv.outstanding, hinv.bounded,
        fun hnot => absurd hfinished hnot, hinv.opened, hinv.after, ?_, ?_⟩
      · exact hlike [] (List.forall_mem_nil _)
      · simpa only [pending, List.flatMap_append, List.append_nil, List.nil_append,
          Thread.pending] using hperm
      · simpa only [holders, List.countP_append, List.append_nil, Thread.holdsPool,
          Bool.false_eq_true, if_false, Nat.add_zero] using hone
    | cons callback onRelease =>
      cases h
      refine ⟨hinv.order, hbusy, fun _ => ⟨hwaiting, hholds, ?_⟩, hinv.outstanding, hinv.bounded,
        fun hnot => absurd hfinished hnot, hinv.opened, hinv.after, ?_, ?_⟩
      · exact hlike [.releases onRelease] (List.forall_mem_singleton.mpr rfl)
      · refine List.Perm.trans ?_ hperm
        simp only [pending, List.flatMap_append, List.flatMap_cons, Thread.pending, List.append_assoc,
          List.cons_append, List.nil_append]
        exact (List.perm_middle.symm).append_left _
      · simpa only [holders, List.countP_append, List.countP_singleton, Thread.holdsPool,
          Bool.false_eq_true, if_false, Nat.add_zero] using hone

/-- Every step keeps the invariant. -/
theorem step_inv (hinv : Inv capacity q) {a : Action T C} (h : q.step capacity a = some q') :
    Inv capacity q' := by
  cases a with
  | submit job => exact submit_inv hinv h
  | close onRelease =>
    obtain rfl := Option.some.inj h
    exact close_inv hinv onRelease
  | advance i =>
    obtain ⟨pre, t, post, next, state, history, hthreads, _, hnext, rfl⟩ := advance_cases h
    cases ht : t.inLoop with
    | true =>
      obtain ⟨hactive, hholds, rfl, rfl⟩ := hinv.alone hthreads ht
      rw [List.nil_append, List.append_nil]
      exact drain_inv hinv hthreads hactive hholds hnext
    | false => exact end_inv hinv hthreads ht hnext

theorem Reachable.inv (h : Reachable capacity q) : Inv capacity q := by
  induction h with
  | new => exact inv_new
  | step _ hstep ih => exact step_inv ih hstep

end SerialQueue
end Curvy.Node
