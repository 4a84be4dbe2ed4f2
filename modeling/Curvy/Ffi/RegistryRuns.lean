import Curvy.Ffi.Registry
import Mathlib.Data.List.Nodup

/-!
# Runs of the handle registry

Handles are never given twice, so an object belongs to the handle given with it. Its lock is
held by one call at a time, and its value is what the replies so far make of the value inserted.
-/

namespace Curvy.Ffi

set_option autoImplicit false

variable {T : Type}

theorem Registry.insert_entries (r : Registry T) (handle : Nat) (value : T) (handle' : Nat) :
    (r.insert handle value).entries handle' =
      if handle' = handle then some r.objects.length else r.entries handle' :=
  Function.update_apply _ _ _ _

theorem Registry.take_entries (r : Registry T) (handle handle' : Nat) :
    (r.take handle).entries handle' = if handle' = handle then none else r.entries handle' :=
  Function.update_apply _ _ _ _

/-! ### One step -/

/-- What a call can do next, with the registry behind it and what is seen. -/
inductive Move (r : Registry T) (i : Nat) (call : Call T) :
    Stage T → Stage T → Registry T → List (Event T) → Prop where
  | numbered {value : T} (room : r.nextHandle + 1 < 2 ^ 64) :
    Move r i call (.insert value) (.inserting r.nextHandle value)
      { r with nextHandle := r.nextHandle + 1 } []
  | exhausted {value : T} :
    Move r i call (.insert value) (.done .exhausted) r [.replied i call .exhausted]
  | published {handle : Nat} {value : T} :
    Move r i call (.inserting handle value) (.done (.handle handle)) (r.insert handle value)
      [.replied i call (.handle handle)]
  | found {handle object : Nat} {task : Task T} (entry : r.entries handle = some object) :
    Move r i call (.lookup handle task) (.awaiting handle object task) r []
  | unknown {handle : Nat} {task : Task T} (entry : r.entries handle = none) :
    Move r i call (.lookup handle task) (.done .unknown) r [.replied i call .unknown]
  | taken {handle object : Nat} {clear : T → T} (entry : r.entries handle = some object) :
    Move r i call (.remove handle clear) (.awaiting handle object (.clear clear)) (r.take handle)
      [.took i call]
  | missing {handle : Nat} {clear : T → T} (entry : r.entries handle = none) :
    Move r i call (.remove handle clear) (.done (.removed false)) r [.replied i call (.removed false)]
  | locked {handle object : Nat} {task : Task T} {o : Object T} (stored : r.objects[object]? = some o)
    (free : o.locked = false) :
    Move r i call (.awaiting handle object task) (.holding handle object task)
      (r.setObject object { o with locked := true }) []
  | finished {handle object : Nat} {task : Task T} {o : Object T}
    (stored : r.objects[object]? = some o) :
    Move r i call (.holding handle object task) (.done (task.reply o.value))
      (r.setObject object ⟨task.left o.value, false⟩) [.replied i call (task.reply o.value)]

theorem advance_moves {r r' : Registry T} {i : Nat} {c : Caller T} {stage : Stage T}
    (h : c.stage.advance r = some (stage, r')) :
    Move r i c.call c.stage stage r' (c.events i stage) := by
  obtain ⟨call, old⟩ := c
  cases old with
  | insert value =>
    simp only [Stage.advance, Registry.takeHandle] at h
    split at h
    · rename_i handle r₁ hroom
      split at hroom
      · cases hroom
        cases h
        exact .numbered ‹_›
      · cases hroom
    · cases h
      exact .exhausted
  | inserting handle value =>
    cases h
    exact .published
  | lookup handle task =>
    simp only [Stage.advance] at h
    split at h <;> cases h
    · exact .found ‹_›
    · exact .unknown ‹_›
  | remove handle clear =>
    simp only [Stage.advance] at h
    split at h <;> cases h
    · exact .taken ‹_›
    · exact .missing ‹_›
  | awaiting handle object task =>
    simp only [Stage.advance] at h
    split at h
    · rename_i o ho
      split at h
      · cases h
      · rename_i hfree
        cases h
        exact .locked ho (Bool.eq_false_iff.mpr hfree)
    · cases h
  | holding handle object task =>
    simp only [Stage.advance] at h
    split at h
    · rename_i o ho
      cases h
      exact .finished ho
    · cases h
  | done reply => cases h

namespace World

/-- What an action does. -/
theorem step_cases {w w' : World T} {a : Action T} {events : List (Event T)}
    (h : w.step a = some (w', events)) :
    (∃ call, a = .call call ∧ w' = ⟨w.registry, w.callers ++ [⟨call, call.start⟩]⟩ ∧
      events = [.called w.callers.length call]) ∨
    (∃ i c stage r, a = .advance i ∧ w.callers[i]? = some c ∧
      Move w.registry i c.call c.stage stage r events ∧
      w' = ⟨r, w.callers.set i ⟨c.call, stage⟩⟩) ∨
    (a = .otherRegistry ∧ w' = ⟨{ w.registry with nextHandle := w.registry.nextHandle + 1 }, w.callers⟩ ∧
      events = []) := by
  cases a with
  | call call =>
    obtain ⟨rfl, rfl⟩ := Prod.mk.inj (Option.some.inj h)
    exact .inl ⟨call, rfl, rfl, rfl⟩
  | advance i =>
    obtain ⟨c, hc, h⟩ := Option.bind_eq_some_iff.mp h
    obtain ⟨⟨stage, r⟩, hnext, h⟩ := Option.bind_eq_some_iff.mp h
    obtain ⟨rfl, rfl⟩ := Prod.mk.inj (Option.some.inj h)
    exact .inr (.inl ⟨i, c, stage, r, rfl, hc, advance_moves hnext, rfl⟩)
  | otherRegistry =>
    obtain ⟨⟨handle, r⟩, hnext, h⟩ := Option.bind_eq_some_iff.mp h
    obtain ⟨rfl, rfl⟩ := Prod.mk.inj (Option.some.inj h)
    unfold Registry.takeHandle at hnext
    split at hnext <;> cases hnext
    exact .inr (.inr ⟨rfl, rfl, rfl⟩)

end World

/-! ### Logs -/

section Logs
variable {log events : List (Event T)} {handle : Nat}

theorem valueUnder_append : valueUnder handle (log ++ events) =
    events.foldl (Event.update handle) (valueUnder handle log) := List.foldl_append

theorem issued_append : issued (log ++ events) = issued log ++ issued events := List.filterMap_append

theorem removed_append : removed (log ++ events) = removed log ++ removed events :=
  List.filterMap_append

/-- An event that is appended comes last. -/
theorem concat_split {α : Type} {log before after : List α} {e x : α}
    (h : log ++ [e] = before ++ x :: after) :
    (log = before ∧ e = x ∧ after = []) ∨ ∃ rest, after = rest ++ [e] ∧ log = before ++ x :: rest := by
  rcases List.eq_nil_or_concat after with rfl | ⟨rest, last, rfl⟩
  · obtain ⟨rfl, hlast⟩ := List.append_inj' h rfl
    exact .inl ⟨rfl, List.singleton_inj.mp hlast, rfl⟩
  · rw [List.concat_eq_append, ← List.cons_append, ← List.append_assoc] at h
    obtain ⟨rfl, hlast⟩ := List.append_inj' h rfl
    obtain rfl := List.singleton_inj.mp hlast
    exact .inr ⟨rest, List.concat_eq_append, rfl⟩

/-- A task that has run changes the value under its own handle only. -/
theorem update_reply {i h : Nat} {call : Call T} {task : Task T} (htask : call.task = some (h, task))
    (seen : T) (value : Option T) :
    Event.update handle value (.replied i call (task.reply seen)) =
      if h = handle then value.map task.left else value := by
  cases call with
  | insert => cases htask
  | «with» | withMut | removeWith =>
    cases htask
    by_cases hsame : h = handle <;> simp [Event.update, Call.task, Task.reply, Reply.finished, hsame]

theorem issued_reply {i h : Nat} {call : Call T} {task : Task T} (htask : call.task = some (h, task))
    (reply : Reply T) : issued [.replied i call reply] = [] := by
  cases call with
  | insert => cases htask
  | «with» | withMut | removeWith => rfl

/-- A removal has taken the entry of the handle. -/
def Taken (log : List (Event T)) (handle : Nat) : Prop :=
  ∃ i clear, .took i (.removeWith handle clear) ∈ log

theorem taken_replied {i : Nat} {call : Call T} {reply : Reply T}
    (h : Taken (log ++ [.replied i call reply]) handle) : Taken log handle := by
  obtain ⟨j, clear, hmem⟩ := h
  rcases List.mem_append.mp hmem with hmem | hmem
  · exact ⟨j, clear, hmem⟩
  · cases List.mem_singleton.mp hmem

end Logs

/-! ### The registry behind a log -/

/-- The objects are those of the handles given, in order, and the entries lead to them. -/
structure Shelved (log : List (Event T)) (r : Registry T) : Prop where
  fresh : ∀ handle ∈ issued log, handle < r.nextHandle
  once : (issued log).Nodup
  values : r.objects.map (fun o => some o.value) = (issued log).map (valueUnder · log)
  entries : ∀ handle object, r.entries handle = some object →
    (issued log)[object]? = some handle ∧ ¬ Taken log handle
  gone : ∀ handle, Taken log handle → handle ∈ issued log

section Shelves
variable {log events : List (Event T)} {r : Registry T} {handle object : Nat}

theorem shelved_new : Shelved [] (.new : Registry T) where
  fresh := List.forall_mem_nil _
  once := List.nodup_nil
  values := rfl
  entries := by
    intro handle object h
    cases h
  gone := by
    rintro handle ⟨i, clear, h⟩
    cases h

theorem Shelved.length (h : Shelved log r) : r.objects.length = (issued log).length := by
  have hvalues := congrArg List.length h.values
  rwa [List.length_map, List.length_map] at hvalues

theorem Shelved.value (h : Shelved log r) {o : Object T} (hstored : r.objects[object]? = some o)
    (hissued : (issued log)[object]? = some handle) : valueUnder handle log = some o.value := by
  have hvalues := congrArg (·[object]?) h.values
  simp only [List.getElem?_map, hstored, hissued, Option.map_some] at hvalues
  exact (Option.some.inj hvalues).symm

/-- Two objects of one handle are one. -/
theorem Shelved.unique (h : Shelved log r) {object' : Nat} (hissued : (issued log)[object]? = some handle)
    (hissued' : (issued log)[object']? = some handle) : object = object' := by
  obtain ⟨hlt, hget⟩ := List.getElem?_eq_some_iff.mp hissued
  obtain ⟨hlt', hget'⟩ := List.getElem?_eq_some_iff.mp hissued'
  exact (h.once.getElem_inj_iff).mp (hget.trans hget'.symm)

/-- Events that give no handle, run no task and take no entry. -/
theorem Shelved.silent (h : Shelved log r) (hissued : issued events = [])
    (hupdate : ∀ handle value, events.foldl (Event.update handle) value = value)
    (htaken : ∀ handle, Taken (log ++ events) handle → Taken log handle) :
    Shelved (log ++ events) r := by
  have hsame : issued (log ++ events) = issued log := by
    rw [issued_append, hissued, List.append_nil]
  refine ⟨?_, ?_, ?_, ?_, ?_⟩
  · rw [hsame]
    exact h.fresh
  · rw [hsame]
    exact h.once
  · rw [hsame, h.values]
    refine List.map_congr_left fun handle _ => ?_
    rw [valueUnder_append, hupdate]
  · intro handle object hentry
    rw [hsame]
    obtain ⟨hissued, hnot⟩ := h.entries handle object hentry
    exact ⟨hissued, fun ht => hnot (htaken handle ht)⟩
  · intro handle ht
    rw [hsame]
    exact h.gone handle (htaken handle ht)

theorem Shelved.counted (h : Shelved log r) : Shelved log { r with nextHandle := r.nextHandle + 1 } :=
  { h with fresh := fun handle hmem => Nat.lt_succ_of_lt (h.fresh handle hmem) }

theorem Shelved.publish (h : Shelved log r) (hlt : handle < r.nextHandle) (hnew : handle ∉ issued log)
    (i : Nat) (value : T) :
    Shelved (log ++ [.replied i (.insert value) (.handle handle)]) (r.insert handle value) := by
  have hissued : issued (log ++ [.replied i (.insert value) (.handle handle)]) =
      issued log ++ [handle] := issued_append
  refine ⟨?_, ?_, ?_, ?_, ?_⟩
  · intro handle' hmem
    rw [hissued] at hmem
    rcases List.mem_append.mp hmem with hmem | hmem
    · exact h.fresh handle' hmem
    · rw [List.mem_singleton.mp hmem]
      exact hlt
  · rw [hissued]
    exact List.nodup_append.mpr ⟨h.once, List.nodup_singleton _, fun x hx y hy heq =>
      hnew (List.mem_singleton.mp hy ▸ heq ▸ hx)⟩
  · rw [hissued, Registry.insert, List.map_append, List.map_append, h.values]
    congr 1
    · refine List.map_congr_left fun handle' hmem => ?_
      have hne : handle ≠ handle' := fun heq => hnew (heq ▸ hmem)
      rw [valueUnder_append]
      exact (if_neg hne).symm
    · rw [List.map_singleton, List.map_singleton, valueUnder_append]
      exact congrArg (fun v => [v]) (if_pos rfl).symm
  · intro handle' object' hentry
    rw [hissued]
    rw [Registry.insert_entries] at hentry
    by_cases hsame : handle' = handle
    · subst hsame
      rw [if_pos rfl] at hentry
      cases hentry
      refine ⟨?_, fun ht => hnew (h.gone _ (taken_replied ht))⟩
      rw [h.length, List.getElem?_concat_length]
    · rw [if_neg hsame] at hentry
      obtain ⟨hget, hnot⟩ := h.entries handle' object' hentry
      refine ⟨?_, fun ht => hnot (taken_replied ht)⟩
      exact (List.getElem?_append_left (List.getElem?_eq_some_iff.mp hget).1).trans hget
  · intro handle' ht
    rw [hissued]
    exact List.mem_append_left _ (h.gone handle' (taken_replied ht))

theorem Shelved.take (h : Shelved log r) (hentry : r.entries handle = some object) (i : Nat)
    (clear : T → T) : Shelved (log ++ [.took i (.removeWith handle clear)]) (r.take handle) := by
  have hissued : issued (log ++ [.took i (.removeWith handle clear)]) = issued log := by
    rw [issued_append]
    exact List.append_nil _
  have hcases : ∀ handle', Taken (log ++ [.took i (.removeWith handle clear)]) handle' →
      Taken log handle' ∨ handle' = handle := by
    rintro handle' ⟨j, clear', hmem⟩
    rcases List.mem_append.mp hmem with hmem | hmem
    · exact .inl ⟨j, clear', hmem⟩
    · cases List.mem_singleton.mp hmem
      exact .inr rfl
  refine ⟨?_, ?_, ?_, ?_, ?_⟩
  · rw [hissued]
    exact h.fresh
  · rw [hissued]
    exact h.once
  · rw [hissued]
    refine h.values.trans (List.map_congr_left fun handle' _ => ?_)
    rw [valueUnder_append]
    rfl
  · intro handle' object' hentry'
    rw [Registry.take_entries] at hentry'
    by_cases hsame : handle' = handle
    · rw [if_pos hsame] at hentry'
      cases hentry'
    rw [if_neg hsame] at hentry'
    obtain ⟨hget, hnot⟩ := h.entries handle' object' hentry'
    rw [hissued]
    exact ⟨hget, fun ht => (hcases handle' ht).elim hnot hsame⟩
  · intro handle' ht
    rw [hissued]
    rcases hcases handle' ht with ht | rfl
    · exact h.gone handle' ht
    · exact List.mem_of_getElem? (h.entries _ _ hentry).1

theorem Shelved.lock (h : Shelved log r) {o : Object T} (hstored : r.objects[object]? = some o) :
    Shelved log (r.setObject object { o with locked := true }) := by
  refine { h with values := ?_ }
  obtain ⟨hlt, hget⟩ := List.getElem?_eq_some_iff.mp hstored
  rw [← h.values, Registry.setObject, List.map_set]
  have hlt' : object < (r.objects.map fun o => some o.value).length := by rwa [List.length_map]
  rw [show some o.value = (r.objects.map fun o => some o.value)[object] by rw [List.getElem_map, hget],
    List.set_getElem_self hlt']

theorem Shelved.finish (h : Shelved log r) {o : Object T} (hstored : r.objects[object]? = some o)
    (hissued : (issued log)[object]? = some handle) {i : Nat} {call : Call T} {task : Task T}
    (htask : call.task = some (handle, task)) :
    Shelved (log ++ [.replied i call (task.reply o.value)])
      (r.setObject object ⟨task.left o.value, false⟩) := by
  have hsame : issued (log ++ [.replied i call (task.reply o.value)]) = issued log := by
    rw [issued_append, issued_reply htask, List.append_nil]
  have hvalue : ∀ handle', valueUnder handle' (log ++ [.replied i call (task.reply o.value)]) =
      if handle = handle' then (valueUnder handle' log).map task.left else valueUnder handle' log := by
    intro handle'
    rw [valueUnder_append]
    exact update_reply htask _ _
  refine ⟨?_, ?_, ?_, ?_, ?_⟩
  · rw [hsame]
    exact h.fresh
  · rw [hsame]
    exact h.once
  · rw [hsame]
    refine List.ext_getElem? fun k => ?_
    rw [Registry.setObject, List.map_set, h.values, List.getElem?_set, List.getElem?_map]
    by_cases hk : object = k
    · subst hk
      rw [if_pos rfl, List.length_map, if_pos (List.getElem?_eq_some_iff.mp hissued).1,
        List.getElem?_map, hissued, Option.map_some, hvalue, if_pos rfl, h.value hstored hissued]
      rfl
    · rw [if_neg hk, List.getElem?_map]
      cases hget : (issued log)[k]? with
      | none => rfl
      | some handle' =>
        have hne : handle ≠ handle' := fun heq => hk (h.unique hissued (heq ▸ hget))
        rw [Option.map_some, Option.map_some, hvalue, if_neg hne]
  · intro handle' object' hentry
    obtain ⟨hget, hnot⟩ := h.entries handle' object' hentry
    rw [hsame]
    exact ⟨hget, fun ht => hnot (taken_replied ht)⟩
  · intro handle' ht
    rw [hsame]
    exact h.gone handle' (taken_replied ht)

end Shelves

/-! ### The calls behind a log -/

/-- Calls that hold neither one handle nor one lock together. -/
def Apart : Stage T → Stage T → Prop
  | .inserting handle _, .inserting handle' _ => handle ≠ handle'
  | .holding _ object _, .holding _ object' _ => object ≠ object'
  | _, _ => True

theorem Apart.symm {stage stage' : Stage T} (h : Apart stage stage') : Apart stage' stage := by
  cases stage <;> cases stage' <;> first | exact trivial | exact Ne.symm h

/-- What a call has a reference to. -/
structure Refers (log : List (Event T)) (i : Nat) (call : Call T) (handle object : Nat)
    (task : Task T) : Prop where
  performs : call.task = some (handle, task)
  belongs : (issued log)[object]? = some handle
  took : ∀ clear, task = .clear clear → .took i call ∈ log

/-- What a call relies on where it stands. -/
def Caller.Ok (log : List (Event T)) (r : Registry T) (i : Nat) (c : Caller T) : Prop :=
  match c.stage with
  | .insert value => c.call = .insert value
  | .inserting handle value => c.call = .insert value ∧ handle < r.nextHandle ∧ handle ∉ issued log
  | .lookup handle task => c.call.task = some (handle, task) ∧ ∀ clear, task ≠ .clear clear
  | .remove handle clear => c.call = .removeWith handle clear
  | .awaiting handle object task => Refers log i c.call handle object task
  | .holding handle object task => Refers log i c.call handle object task ∧
    ∃ o, r.objects[object]? = some o ∧ o.locked = true
  | .done reply => .replied i c.call reply ∈ log

theorem start_ok (log : List (Event T)) (r : Registry T) (i : Nat) (call : Call T) :
    Caller.Ok log r i ⟨call, call.start⟩ := by
  cases call with
  | insert | removeWith => rfl
  | «with» | withMut => exact ⟨rfl, fun clear h => by cases h⟩

section Callers
variable {log events : List (Event T)} {r r' : Registry T} {i j : Nat} {call : Call T}
variable {stage stage' : Stage T}

theorem Refers.append {handle object : Nat} {task : Task T} (h : Refers log i call handle object task)
    (events : List (Event T)) : Refers (log ++ events) i call handle object task where
  performs := h.performs
  belongs := by
    rw [issued_append]
    exact (List.getElem?_append_left (List.getElem?_eq_some_iff.mp h.belongs).1).trans h.belongs
  took clear hclear := List.mem_append_left _ (h.took clear hclear)

/-- What a call relies on stays when handles and locks do. -/
theorem Caller.Ok.mono {c : Caller T} (h : c.Ok log r j) (hnext : r.nextHandle ≤ r'.nextHandle)
    (hfresh : ∀ handle value, c.stage = .inserting handle value → handle ∉ issued events)
    (hlocked : ∀ handle object task, c.stage = .holding handle object task →
      (∃ o, r.objects[object]? = some o ∧ o.locked = true) →
      ∃ o, r'.objects[object]? = some o ∧ o.locked = true) : c.Ok (log ++ events) r' j := by
  obtain ⟨call, stage⟩ := c
  cases stage with
  | insert | lookup | remove => exact h
  | inserting handle value =>
    obtain ⟨hcall, hlt, hnot⟩ := h
    refine ⟨hcall, Nat.lt_of_lt_of_le hlt hnext, fun hmem => ?_⟩
    rw [issued_append] at hmem
    exact (List.mem_append.mp hmem).elim hnot (hfresh handle value rfl)
  | awaiting handle object task => exact Refers.append h events
  | holding handle object task => exact ⟨h.1.append events, hlocked _ _ _ rfl h.2⟩
  | done reply => exact List.mem_append_left _ h

theorem setObject_lock {object k : Nat} {o o' : Object T} (hstored : r.objects[object]? = some o)
    (hother : k = object → o'.locked = true)
    (hlocked : ∃ x, r.objects[k]? = some x ∧ x.locked = true) :
    ∃ x, (r.setObject object o').objects[k]? = some x ∧ x.locked = true := by
  by_cases hk : k = object
  · subst hk
    exact ⟨o', List.getElem?_set_self (List.getElem?_eq_some_iff.mp hstored).1, hother rfl⟩
  · obtain ⟨x, hx, hlock⟩ := hlocked
    exact ⟨x, (List.getElem?_set_ne (Ne.symm hk)).trans hx, hlock⟩

/-- The registry behind a step of a call. -/
theorem Shelved.move (h : Shelved log r) (hok : Caller.Ok log r i ⟨call, stage⟩)
    (hmove : Move r i call stage stage' r' events) : Shelved (log ++ events) r' := by
  have hquiet : Shelved (log ++ []) r := by rwa [List.append_nil]
  -- a reply without a handle and without a task that has run
  have hreply : ∀ reply : Reply T, reply.finished = false → (∀ handle, reply ≠ .handle handle) →
      Shelved (log ++ [.replied i call reply]) r := by
    intro reply hunfinished hnone
    refine h.silent ?_ (fun handle value => ?_) fun handle ht => taken_replied ht
    · cases call <;> cases reply <;> first | rfl | exact absurd rfl (hnone _)
    · cases call <;> cases reply <;>
        simp_all [Event.update, Call.task, Reply.finished]
  cases hmove with
  | numbered room => rw [List.append_nil]; exact h.counted
  | exhausted => exact hreply _ rfl fun _ h => by cases h
  | published =>
    obtain ⟨rfl, hlt, hnot⟩ := hok
    exact h.publish hlt hnot i _
  | found entry => exact hquiet
  | unknown entry => exact hreply _ rfl fun _ h => by cases h
  | taken entry =>
    obtain rfl := hok
    exact h.take entry i _
  | missing entry => exact hreply _ rfl fun _ h => by cases h
  | locked stored free => rw [List.append_nil]; exact h.lock stored
  | finished stored => exact h.finish stored hok.1.belongs hok.1.performs

/-- What another call relies on behind a step of the call `i`. -/
theorem Caller.Ok.other {c : Caller T} (hj : c.Ok log r j) (hok : Caller.Ok log r i ⟨call, stage⟩)
    (hapart : Apart stage c.stage) (hmove : Move r i call stage stage' r' events) :
    c.Ok (log ++ events) r' j := by
  have hnothing : ∀ reply : Reply T, (∀ handle, reply ≠ .handle handle) →
      issued [.replied i call reply] = [] := by
    intro reply hnone
    cases call <;> cases reply <;> first | rfl | exact absurd rfl (hnone _)
  cases hmove with
  | numbered room => exact hj.mono (Nat.le_succ _) (fun _ _ _ => List.not_mem_nil) fun _ _ _ _ h => h
  | exhausted | unknown | missing =>
    refine hj.mono (Nat.le_refl _) (fun _ _ _ => ?_) fun _ _ _ _ h => h
    rw [hnothing _ fun _ h => by cases h]
    exact List.not_mem_nil
  | published =>
    obtain ⟨rfl, _⟩ := hok
    refine hj.mono (Nat.le_refl _) (fun handle value hstage hmem => ?_) fun _ object _ _ h => ?_
    · rw [hstage] at hapart
      exact hapart (List.mem_singleton.mp hmem).symm
    · obtain ⟨o, ho, hlock⟩ := h
      refine ⟨o, ?_, hlock⟩
      exact (List.getElem?_append_left (List.getElem?_eq_some_iff.mp ho).1).trans ho
  | found entry => exact hj.mono (Nat.le_refl _) (fun _ _ _ => List.not_mem_nil) fun _ _ _ _ h => h
  | taken entry => exact hj.mono (Nat.le_refl _) (fun _ _ _ => List.not_mem_nil) fun _ _ _ _ h => h
  | locked stored free =>
    exact hj.mono (Nat.le_refl _) (fun _ _ _ => List.not_mem_nil) fun _ _ _ _ h =>
      setObject_lock stored (fun _ => rfl) h
  | finished stored =>
    refine hj.mono (Nat.le_refl _) (fun _ _ _ => ?_) fun handle object task hstage h => ?_
    · rw [issued_reply hok.1.performs]
      exact List.not_mem_nil
    · refine setObject_lock stored (fun heq => ?_) h
      rw [hstage] at hapart
      exact absurd heq.symm hapart

/-- What the call relies on behind its own step. -/
theorem Caller.Ok.own (h : Shelved log r) (hok : Caller.Ok log r i ⟨call, stage⟩)
    (hmove : Move r i call stage stage' r' events) :
    Caller.Ok (log ++ events) r' i ⟨call, stage'⟩ := by
  cases hmove with
  | numbered room =>
    refine ⟨hok, Nat.lt_succ_self _, fun hmem => ?_⟩
    rw [List.append_nil] at hmem
    exact Nat.lt_irrefl _ (h.fresh _ hmem)
  | exhausted | published | unknown | missing | finished =>
    exact List.mem_append_right _ (List.mem_singleton_self _)
  | found entry =>
    obtain ⟨htask, hclear⟩ := hok
    refine Refers.append ⟨htask, (h.entries _ _ entry).1, fun clear heq => ?_⟩ []
    exact absurd heq (hclear clear)
  | taken entry =>
    obtain rfl := hok
    refine ⟨rfl, ?_, fun _ _ => List.mem_append_right _ (List.mem_singleton_self _)⟩
    rw [issued_append]
    have hget := (h.entries _ _ entry).1
    exact (List.getElem?_append_left (List.getElem?_eq_some_iff.mp hget).1).trans hget
  | locked stored free =>
    refine ⟨Refers.append hok [], _, List.getElem?_set_self ?_, rfl⟩
    exact (List.getElem?_eq_some_iff.mp stored).1

/-- A step takes a new handle or a free lock. -/
theorem Apart.move {c : Caller T} (hapart : Apart stage c.stage) (hj : c.Ok log r j)
    (hmove : Move r i call stage stage' r' events) : Apart stage' c.stage := by
  obtain ⟨call', other⟩ := c
  cases hmove with
  | numbered room =>
    cases other with
    | inserting handle value =>
      obtain ⟨_, hlt, _⟩ := hj
      exact Nat.ne_of_gt hlt
    | insert | lookup | remove | awaiting | holding | done => trivial
  | locked stored free =>
    cases other with
    | holding handle object task =>
      obtain ⟨_, o, ho, hlock⟩ := hj
      rintro rfl
      obtain rfl := Option.some.inj (stored.symm.trans ho)
      rw [hlock] at free
      cases free
    | insert | inserting | lookup | remove | awaiting | done => trivial
  | exhausted | published | found | unknown | taken | missing | finished => trivial

/-- What is seen of a step of the call `i`. -/
theorem Move.shows {call : Call T} {old : Stage T} (hmove : Move r i call old stage r' events) :
    (events = [] ∧ ∀ reply, stage ≠ .done reply) ∨
      (∃ handle clear, old = .remove handle clear ∧ events = [.took i call] ∧
        (∃ object, r.entries handle = some object) ∧ ∀ reply, stage ≠ .done reply) ∨
      ∃ reply, stage = .done reply ∧ events = [.replied i call reply] := by
  cases hmove with
  | numbered | found | locked => exact .inl ⟨rfl, fun _ h => by cases h⟩
  | taken entry => exact .inr (.inl ⟨_, _, rfl, rfl, ⟨_, entry⟩, fun _ h => by cases h⟩)
  | exhausted | published | unknown | missing | finished => exact .inr (.inr ⟨_, rfl, rfl⟩)

/-- A call that has not reached the map finds nothing under a handle whose entry is gone. -/
theorem Move.stale {call : Call T} {handle : Nat} (hhandle : call.handle = some handle)
    (hgone : r.entries handle = none)
    (hmove : Move r i call call.start stage r' events) :
    stage = .done call.missed := by
  cases call with
  | insert value => cases hhandle
  | «with» h | withMut h body =>
    cases hhandle
    cases hmove with
    | found entry => exact absurd (hgone.symm.trans entry) (fun h => by cases h)
    | unknown entry => rfl
  | removeWith h clear =>
    cases hhandle
    cases hmove with
    | taken entry => exact absurd (hgone.symm.trans entry) (fun h => by cases h)
    | missing entry => rfl

end Callers

/-! ### The world behind a log -/

/-- The call began behind the removal that took the entry of the handle. -/
def Late (log : List (Event T)) (j handle : Nat) : Prop :=
  ∃ before i clear after call, log = before ++ .took i (.removeWith handle clear) :: after ∧
    .called j call ∈ after

namespace World

structure Inv (log : List (Event T)) (w : World T) : Prop where
  shelved : Shelved log w.registry
  callers : ∀ (i : Nat) (c : Caller T), w.callers[i]? = some c → c.Ok log w.registry i
  apart : ∀ (i j : Nat) (c c' : Caller T), w.callers[i]? = some c → w.callers[j]? = some c' → i ≠ j →
    Apart c.stage c'.stage
  called : ∀ i call, .called i call ∈ log → ∃ stage, w.callers[i]? = some ⟨call, stage⟩
  replied : ∀ i call reply, .replied i call reply ∈ log →
    w.callers[i]? = some ⟨call, .done reply⟩
  tookOnce : ∀ handle i j clear clear', .took i (.removeWith handle clear) ∈ log →
    .took j (.removeWith handle clear') ∈ log → i = j
  late : ∀ (j handle : Nat) (c : Caller T), Late log j handle → w.callers[j]? = some c →
    c.call.handle = some handle → c.stage = c.call.start ∨ c.stage = .done c.call.missed

variable {log events : List (Event T)} {w w' : World T}

theorem inv_new : Inv [] (new : World T) where
  shelved := shelved_new
  callers := by
    intro i c h
    cases h
  apart := by
    intro i j c c' h
    cases h
  called := by
    intro i call h
    cases h
  replied := by
    intro i call reply h
    cases h
  tookOnce := by
    intro handle i j clear clear' h
    cases h
  late := by
    intro j handle c _ h
    cases h

/-- Nothing but a new call makes a call late. -/
theorem late_append {j handle : Nat} (h : Late (log ++ events) j handle)
    (hevents : events = [] ∨ ∃ e, events = [e] ∧ ∀ call, e ≠ .called j call) : Late log j handle := by
  rcases hevents with rfl | ⟨e, rfl, hother⟩
  · rwa [List.append_nil] at h
  · obtain ⟨before, i, clear, after, call, hsplit, hmem⟩ := h
    rcases concat_split hsplit with ⟨_, _, rfl⟩ | ⟨rest, rfl, rfl⟩
    · cases hmem
    · rcases List.mem_append.mp hmem with hmem | hmem
      · exact ⟨before, i, clear, rest, call, rfl, hmem⟩
      · exact absurd (List.mem_singleton.mp hmem).symm (hother call)

theorem call_inv (hinv : Inv log w) (call : Call T) :
    Inv (log ++ [.called w.callers.length call])
      ⟨w.registry, w.callers ++ [⟨call, call.start⟩]⟩ := by
  have hcases : ∀ {i : Nat} {c : Caller T}, (w.callers ++ [⟨call, call.start⟩])[i]? = some c →
      w.callers[i]? = some c ∨ i = w.callers.length ∧ c = ⟨call, call.start⟩ := by
    intro i c hc
    rcases Nat.lt_or_ge i w.callers.length with hlt | hge
    · rw [List.getElem?_append_left hlt] at hc
      exact .inl hc
    · rw [List.getElem?_append_right hge] at hc
      obtain ⟨hlt, hget⟩ := List.getElem?_eq_some_iff.mp hc
      rw [List.length_singleton] at hlt
      rw [List.getElem_singleton] at hget
      exact .inr ⟨by omega, hget.symm⟩
  have hkept : ∀ {i : Nat} {c : Caller T}, w.callers[i]? = some c →
      (w.callers ++ [⟨call, call.start⟩])[i]? = some c := fun hc =>
    (List.getElem?_append_left (List.getElem?_eq_some_iff.mp hc).1).trans hc
  have hold : ∀ {e : Event T}, e ∈ log ++ [.called w.callers.length call] →
      e ∈ log ∨ e = .called w.callers.length call := fun hmem =>
    (List.mem_append.mp hmem).imp id List.mem_singleton.mp
  have hstart : ∀ stage : Stage T, Apart call.start stage := by
    intro stage
    cases call <;> trivial
  refine ⟨?_, ?_, ?_, ?_, ?_, ?_, ?_⟩
  · refine hinv.shelved.silent rfl (fun _ _ => rfl) fun handle ht => ?_
    obtain ⟨i, clear, hmem⟩ := ht
    rcases hold hmem with hmem | heq
    · exact ⟨i, clear, hmem⟩
    · cases heq
  · intro i c hc
    rcases hcases hc with hc | ⟨rfl, rfl⟩
    · exact (hinv.callers i c hc).mono (Nat.le_refl _) (fun _ _ _ => List.not_mem_nil)
        fun _ _ _ _ h => h
    · exact start_ok _ _ _ _
  · intro i j c c' hc hc' hne
    rcases hcases hc with hc | ⟨rfl, rfl⟩
    · rcases hcases hc' with hc' | ⟨rfl, rfl⟩
      · exact hinv.apart i j c c' hc hc' hne
      · exact (hstart _).symm
    · exact hstart _
  · intro i call' hmem
    rcases hold hmem with hmem | heq
    · obtain ⟨stage, hc⟩ := hinv.called i call' hmem
      exact ⟨stage, hkept hc⟩
    · cases heq
      exact ⟨call.start, List.getElem?_concat_length⟩
  · intro i call' reply hmem
    rcases hold hmem with hmem | heq
    · exact hkept (hinv.replied i call' reply hmem)
    · cases heq
  · intro handle i j clear clear' hi hj
    rcases hold hi with hi | heq
    · rcases hold hj with hj | heq
      · exact hinv.tookOnce handle i j clear clear' hi hj
      · cases heq
    · cases heq
  · intro j handle c hlate hc hhandle
    rcases hcases hc with hc | ⟨rfl, rfl⟩
    · have hj := (List.getElem?_eq_some_iff.mp hc).1
      refine hinv.late j handle c (late_append hlate (.inr ⟨_, rfl, fun call' heq => ?_⟩)) hc hhandle
      cases heq
      exact Nat.lt_irrefl _ hj
    · exact .inl rfl

section Steps
variable {i : Nat} {c : Caller T} {stage : Stage T} {r : Registry T}

/-- A caller behind a step is the one that moved or one that was there before. -/
theorem moved_cases (hc : w.callers[i]? = some c) {j : Nat} {c' : Caller T}
    (h : (w.callers.set i ⟨c.call, stage⟩)[j]? = some c') :
    (j = i ∧ c' = ⟨c.call, stage⟩) ∨ (j ≠ i ∧ w.callers[j]? = some c') := by
  by_cases hj : i = j
  · subst hj
    rw [List.getElem?_set_self (List.getElem?_eq_some_iff.mp hc).1] at h
    exact .inl ⟨rfl, (Option.some.inj h).symm⟩
  · rw [List.getElem?_set_ne hj] at h
    exact .inr ⟨Ne.symm hj, h⟩

/-- The entry that a step takes has not been taken before. -/
theorem advance_tookOnce (hinv : Inv log w) (hc : w.callers[i]? = some c)
    (hmove : Move w.registry i c.call c.stage stage r events) {handle j k : Nat} {clear clear' : T → T}
    (hj : .took j (.removeWith handle clear) ∈ log ++ events)
    (hk : .took k (.removeWith handle clear') ∈ log ++ events) : j = k := by
  have hok := hinv.callers i c hc
  rcases hmove.shows with ⟨rfl, _⟩ | ⟨h, wipe, hremove, rfl, ⟨object, hentry⟩, _⟩ | ⟨reply, _, rfl⟩
  · rw [List.append_nil] at hj hk
    exact hinv.tookOnce handle j k clear clear' hj hk
  · have hcall : c.call = .removeWith h wipe := by
      rw [Caller.Ok, hremove] at hok
      exact hok
    have hnot := (hinv.shelved.entries h object hentry).2
    have hfresh : ∀ {l : Nat} {clear : T → T},
        .took l (.removeWith handle clear) ∈ log ++ [.took i c.call] →
        .took l (.removeWith handle clear) ∈ log ∧ handle ≠ h ∨ l = i ∧ handle = h := by
      intro l clear hmem
      rcases List.mem_append.mp hmem with hmem | hmem
      · exact .inl ⟨hmem, fun heq => hnot ⟨l, clear, heq ▸ hmem⟩⟩
      · obtain ⟨rfl, heq⟩ := Event.took.inj (List.mem_singleton.mp hmem)
        exact .inr ⟨rfl, (Call.removeWith.inj (heq.trans hcall)).1⟩
    rcases hfresh hj with ⟨hj, hne⟩ | ⟨rfl, rfl⟩
    · rcases hfresh hk with ⟨hk, _⟩ | ⟨_, heq⟩
      · exact hinv.tookOnce handle j k clear clear' hj hk
      · exact absurd heq hne
    · rcases hfresh hk with ⟨_, hne⟩ | ⟨rfl, _⟩
      · exact absurd rfl hne
      · rfl
  · have hfresh : ∀ {l : Nat} {clear : T → T},
        .took l (.removeWith handle clear) ∈ log ++ [.replied i c.call reply] →
          .took l (.removeWith handle clear) ∈ log := by
      intro l clear hmem
      rcases List.mem_append.mp hmem with hmem | hmem
      · exact hmem
      · cases List.mem_singleton.mp hmem
    exact hinv.tookOnce handle j k clear clear' (hfresh hj) (hfresh hk)

/-- A late call has not begun to move, or it finds the entry gone. -/
theorem advance_late (hinv : Inv log w) (hc : w.callers[i]? = some c)
    (hmove : Move w.registry i c.call c.stage stage r events) {j handle : Nat} {c' : Caller T}
    (hlate : Late (log ++ events) j handle) (hc' : (w.callers.set i ⟨c.call, stage⟩)[j]? = some c')
    (hhandle : c'.call.handle = some handle) :
    c'.stage = c'.call.start ∨ c'.stage = .done c'.call.missed := by
  have hbefore : Late log j handle := by
    refine late_append hlate ?_
    rcases hmove.shows with ⟨rfl, _⟩ | ⟨_, _, _, rfl, _⟩ | ⟨_, _, rfl⟩
    · exact .inl rfl
    · exact .inr ⟨_, rfl, fun _ h => by cases h⟩
    · exact .inr ⟨_, rfl, fun _ h => by cases h⟩
  rcases moved_cases hc hc' with ⟨rfl, rfl⟩ | ⟨_, hc'⟩
  · have hgone : w.registry.entries handle = none := by
      obtain ⟨before, k, clear, after, _, rfl, _⟩ := hbefore
      refine Option.eq_none_iff_forall_ne_some.mpr fun object hentry => ?_
      refine (hinv.shelved.entries handle object hentry).2 ⟨k, clear, ?_⟩
      exact List.mem_append_right _ List.mem_cons_self
    rcases hinv.late j handle c hbefore hc hhandle with hstart | hdone
    · rw [hstart] at hmove
      exact .inr (hmove.stale hhandle hgone)
    · rw [hdone] at hmove
      cases hmove
  · exact hinv.late j handle c' hbefore hc' hhandle

theorem advance_inv (hinv : Inv log w) (hc : w.callers[i]? = some c)
    (hmove : Move w.registry i c.call c.stage stage r events) :
    Inv (log ++ events) ⟨r, w.callers.set i ⟨c.call, stage⟩⟩ := by
  have hok := hinv.callers i c hc
  have hself : (w.callers.set i ⟨c.call, stage⟩)[i]? = some ⟨c.call, stage⟩ :=
    List.getElem?_set_self (List.getElem?_eq_some_iff.mp hc).1
  refine ⟨hinv.shelved.move hok hmove, ?_, ?_, ?_, ?_, ?_, ?_⟩
  · intro j c' hc'
    rcases moved_cases hc hc' with ⟨rfl, rfl⟩ | ⟨hj, hc'⟩
    · exact hok.own hinv.shelved hmove
    · exact (hinv.callers j c' hc').other hok (hinv.apart i j c c' hc hc' (Ne.symm hj)) hmove
  · intro j k a b ha hb hne
    rcases moved_cases hc ha with ⟨rfl, rfl⟩ | ⟨hj, hold⟩
    · rcases moved_cases hc hb with ⟨rfl, rfl⟩ | ⟨hk, hold'⟩
      · exact absurd rfl hne
      · exact (hinv.apart j k c b hc hold' hne).move (hinv.callers k b hold') hmove
    · rcases moved_cases hc hb with ⟨rfl, rfl⟩ | ⟨hk, hold'⟩
      · exact ((hinv.apart k j c a hc hold (Ne.symm hne)).move (hinv.callers j a hold) hmove).symm
      · exact hinv.apart j k a b hold hold' hne
  · intro j call hmem
    obtain ⟨old, hj⟩ : ∃ old, w.callers[j]? = some ⟨call, old⟩ := by
      rcases List.mem_append.mp hmem with hmem | hmem
      · exact hinv.called j call hmem
      · rcases hmove.shows with ⟨rfl, _⟩ | ⟨_, _, _, rfl, _⟩ | ⟨_, _, rfl⟩ <;> cases hmem <;> contradiction
    by_cases hij : i = j
    · subst hij
      obtain rfl := Option.some.inj (hc.symm.trans hj)
      exact ⟨stage, hself⟩
    · exact ⟨old, (List.getElem?_set_ne hij).trans hj⟩
  · -- a call that has replied does not move
    intro j call reply hmem
    rcases List.mem_append.mp hmem with hmem | hmem
    · have hj := hinv.replied j call reply hmem
      by_cases hij : i = j
      · subst hij
        obtain rfl := Option.some.inj (hc.symm.trans hj)
        cases hmove
      · exact (List.getElem?_set_ne hij).trans hj
    · rcases hmove.shows with ⟨rfl, _⟩ | ⟨_, _, _, rfl, _⟩ | ⟨reply', rfl, rfl⟩
      · cases hmem
      · cases List.mem_singleton.mp hmem
      · cases List.mem_singleton.mp hmem
        exact hself
  · intro handle j k clear clear' hj hk
    exact advance_tookOnce hinv hc hmove hj hk
  · intro j handle c' hlate hc' hhandle
    exact advance_late hinv hc hmove hlate hc' hhandle

end Steps

theorem step_inv (hinv : Inv log w) {a : Action T} (h : w.step a = some (w', events)) :
    Inv (log ++ events) w' := by
  rcases step_cases h with ⟨call, rfl, rfl, rfl⟩ | ⟨i, c, stage, r, rfl, hc, hmove, rfl⟩ | ⟨rfl, rfl, rfl⟩
  · exact call_inv hinv call
  · exact advance_inv hinv hc hmove
  · rw [List.append_nil]
    exact {
      hinv with
      shelved := hinv.shelved.counted
      callers := fun i c hc => by
        have hok : c.Ok (log ++ []) { w.registry with nextHandle := w.registry.nextHandle + 1 } i :=
          (hinv.callers i c hc).mono (Nat.le_succ _) (fun _ _ _ => List.not_mem_nil) fun _ _ _ _ h => h
        rwa [List.append_nil] at hok }

theorem Run.inv {allowed : World T → Action T → Prop} (h : Run allowed log w) : Inv log w := by
  induction h with
  | new => exact inv_new
  | step _ _ hstep ih => exact step_inv ih hstep

end World

/-! ### Replies -/

/-- The reply of a removal that has run its clear step. -/
def Event.removal (i handle : Nat) (clear : T → T) : Event T :=
  .replied i (.removeWith handle clear) (.removed true)

theorem mem_removed {log : List (Event T)} {handle : Nat} :
    handle ∈ removed log ↔ ∃ i clear, .removal i handle clear ∈ log := by
  constructor
  · intro h
    obtain ⟨e, hmem, he⟩ := List.mem_filterMap.mp h
    unfold Event.removed at he
    split at he <;> cases he
    exact ⟨_, _, hmem⟩
  · rintro ⟨i, clear, hmem⟩
    exact List.mem_filterMap.mpr ⟨_, hmem, rfl⟩

/-- What the replies of every run say. -/
structure Shown (log : List (Event T)) : Prop where
  resolves : ∀ before i call seen after, log = before ++ .replied i call (.ran seen) :: after →
    ∃ handle, call.handle = some handle ∧ valueUnder handle before = some seen
  tookFirst : ∀ before i handle clear after, log = before ++ .removal i handle clear :: after →
    .took i (.removeWith handle clear) ∈ before ∧ ∃ value, valueUnder handle before = some value
  removedOnce : (removed log).Nodup

/-- An event that is no answer of a task. -/
theorem Shown.concat {log : List (Event T)} (hshown : Shown log) {e : Event T}
    (hran : ∀ i call seen, e ≠ .replied i call (.ran seen))
    (hremoval : ∀ i handle clear, e ≠ .removal i handle clear) : Shown (log ++ [e]) := by
  refine ⟨?_, ?_, ?_⟩
  · intro before i call seen after hsplit
    rcases concat_split hsplit with ⟨_, rfl, _⟩ | ⟨rest, _, hsplit⟩
    · exact absurd rfl (hran i call seen)
    · exact hshown.resolves before i call seen rest hsplit
  · intro before i handle clear after hsplit
    rcases concat_split hsplit with ⟨_, rfl, _⟩ | ⟨rest, _, hsplit⟩
    · exact absurd rfl (hremoval i handle clear)
    · exact hshown.tookFirst before i handle clear rest hsplit
  · have hnone : removed [e] = [] := by
      refine List.eq_nil_iff_forall_not_mem.mpr fun handle hmem => ?_
      obtain ⟨i, clear, hmem⟩ := mem_removed.mp hmem
      exact hremoval i handle clear (List.mem_singleton.mp hmem).symm
    rw [removed_append, hnone, List.append_nil]
    exact hshown.removedOnce

namespace World

variable {log events : List (Event T)} {w w' : World T}

section Finished
variable {i : Nat} {c : Caller T} {reply : Reply T} {r : Registry T}

/-- A task that runs sees the value under its handle. -/
theorem Inv.finished (hinv : Inv log w) (hc : w.callers[i]? = some c)
    (hmove : Move w.registry i c.call c.stage (.done reply) r events) (hdone : reply.finished = true) :
    ∃ handle task seen, c.call.task = some (handle, task) ∧ valueUnder handle log = some seen ∧
      reply = task.reply seen ∧ ∀ clear, task = .clear clear → .took i c.call ∈ log := by
  have hok := hinv.callers i c hc
  obtain ⟨call, stage⟩ := c
  cases hmove with
  | exhausted | published | unknown | missing => cases hdone
  | finished stored =>
    obtain ⟨hrefers, _⟩ := hok
    exact ⟨_, _, _, hrefers.performs, hinv.shelved.value stored hrefers.belongs, rfl, hrefers.took⟩

end Finished

/-- The removal that took an entry is the only one that can answer. -/
theorem Inv.removal_done (hinv : Inv log w) (hshown : Shown log) {i handle : Nat} {clear : T → T}
    {stage : Stage T} (hc : w.callers[i]? = some ⟨.removeWith handle clear, stage⟩)
    (htook : .took i (.removeWith handle clear) ∈ log) (hmem : handle ∈ removed log) :
    stage = .done (.removed true) := by
  obtain ⟨j, clear', hj⟩ := mem_removed.mp hmem
  obtain ⟨before, after, hsplit⟩ := List.append_of_mem hj
  have htook' := (hshown.tookFirst before j handle clear' after hsplit).1
  have hsame : i = j := hinv.tookOnce handle i j clear clear' htook (by
    rw [hsplit]
    exact List.mem_append_left _ htook')
  subst hsame
  have hdone := hinv.replied i _ _ hj
  exact congrArg Caller.stage (Option.some.inj (hc.symm.trans hdone))

theorem step_shown (hinv : Inv log w) (hshown : Shown log) {a : Action T}
    (h : w.step a = some (w', events)) : Shown (log ++ events) := by
  rcases step_cases h with ⟨call, rfl, rfl, rfl⟩ | ⟨i, c, stage, r, rfl, hc, hmove, rfl⟩ | ⟨rfl, rfl, rfl⟩
  · exact hshown.concat (fun _ _ _ h => by cases h) fun _ _ _ h => by cases h
  · rcases hmove.shows with ⟨rfl, _⟩ | ⟨_, _, _, rfl, _⟩ | ⟨reply, rfl, rfl⟩
    · rwa [List.append_nil]
    · exact hshown.concat (fun _ _ _ h => by cases h) fun _ _ _ h => by cases h
    · cases hdone : reply.finished with
      | false =>
        refine hshown.concat (fun _ _ _ h => ?_) fun _ _ _ h => ?_ <;>
          (obtain ⟨_, _, rfl⟩ := Event.replied.inj h; cases hdone)
      | true =>
        obtain ⟨handle, task, seen, htask, hvalue, rfl, htook⟩ := hinv.finished hc hmove hdone
        refine ⟨?_, ?_, ?_⟩
        · intro before j call value after hsplit
          rcases concat_split hsplit with ⟨rfl, heq, _⟩ | ⟨rest, _, hsplit⟩
          · obtain ⟨rfl, rfl, hreply⟩ := Event.replied.inj heq
            cases task with
            | shared | exclusive =>
              cases hreply
              exact ⟨handle, by rw [Call.handle, htask]; rfl, hvalue⟩
            | clear => cases hreply
          · exact hshown.resolves before j call value rest hsplit
        · intro before j handle' clear after hsplit
          rcases concat_split hsplit with ⟨rfl, heq, _⟩ | ⟨rest, _, hsplit⟩
          · obtain ⟨rfl, hcall, _⟩ := Event.replied.inj heq
            rw [hcall] at htask htook
            obtain ⟨rfl, rfl⟩ := Prod.mk.inj (Option.some.inj htask)
            exact ⟨htook clear rfl, seen, hvalue⟩
          · exact hshown.tookFirst before j handle' clear rest hsplit
        · rw [removed_append]
          refine List.nodup_append.mpr ⟨hshown.removedOnce, ?_, ?_⟩
          · cases heq : Event.removed (.replied i c.call (task.reply seen)) with
            | none => simp [removed, heq]
            | some handle' => simp [removed, heq]
          · rintro x hx y hy rfl
            obtain ⟨k, clear, hk⟩ := mem_removed.mp hy
            obtain ⟨rfl, hcall, _⟩ := Event.replied.inj (List.mem_singleton.mp hk)
            obtain ⟨call, old⟩ := c
            dsimp only at hcall
            subst hcall
            obtain ⟨rfl, rfl⟩ := Prod.mk.inj (Option.some.inj htask)
            obtain rfl := hinv.removal_done hshown hc (htook clear rfl) hx
            cases hmove
  · rwa [List.append_nil]

theorem Run.shown {allowed : World T → Action T → Prop} (h : Run allowed log w) : Shown log := by
  induction h with
  | new =>
    refine ⟨?_, ?_, List.nodup_nil⟩
    · intro before i call seen after h
      exact absurd h (by simp)
    · intro before i handle clear after h
      exact absurd h (by simp)
  | step h _ hstep ih => exact step_shown h.inv ih hstep

/-! ### Behind the clear step -/

/-- The clear step of a removal of the handle is over. -/
def Cleared (w : World T) (handle : Nat) : Prop :=
  ∃ clear, ⟨.removeWith handle clear, .done (.removed true)⟩ ∈ w.callers

/-- An exclusive body that runs behind the clear step leaves the value as it is. -/
def Harmless (w : World T) (a : Action T) : Prop :=
  ∀ (i handle object : Nat) (call : Call T) (body : T → T) (o : Object T), a = .advance i →
    w.callers[i]? = some ⟨call, .holding handle object (.exclusive body)⟩ →
    w.registry.objects[object]? = some o → w.Cleared handle → body o.value = o.value

/-- The value under a removed handle is what its clear step left. -/
def Kept (log : List (Event T)) : Prop :=
  ∀ before i handle clear after, log = before ++ .removal i handle clear :: after →
    valueUnder handle log = (valueUnder handle before).map clear

/-- Every body that runs behind a clear step sees what that step left. -/
def SeesCleared (log : List (Event T)) : Prop :=
  ∀ before i handle clear after, log = before ++ .removal i handle clear :: after →
    ∃ value, valueUnder handle before = some value ∧
      ∀ j call seen, .replied j call (.ran seen) ∈ after → call.handle = some handle →
        seen = clear value

theorem cleared_iff (hinv : Inv log w) {handle : Nat} : w.Cleared handle ↔ handle ∈ removed log := by
  rw [mem_removed]
  constructor
  · rintro ⟨clear, hmem⟩
    obtain ⟨i, hi⟩ := List.mem_iff_getElem?.mp hmem
    exact ⟨i, clear, hinv.callers i _ hi⟩
  · rintro ⟨i, clear, hmem⟩
    exact ⟨clear, List.mem_of_getElem? (hinv.replied i _ _ hmem)⟩

/-- An event that leaves the values under the removed handles, unless it is a removal itself. -/
theorem Kept.concat (hkept : Kept log) {e : Event T}
    (hsame : ∀ handle ∈ removed log, e.update handle (valueUnder handle log) = valueUnder handle log)
    (hremoval : ∀ i handle clear, e = .removal i handle clear →
      e.update handle (valueUnder handle log) = (valueUnder handle log).map clear) :
    Kept (log ++ [e]) := by
  intro before i handle clear after hsplit
  have hvalue : valueUnder handle (log ++ [e]) = e.update handle (valueUnder handle log) :=
    valueUnder_append
  rw [hvalue]
  rcases concat_split hsplit with ⟨rfl, rfl, _⟩ | ⟨rest, _, hsplit⟩
  · exact hremoval i handle clear rfl
  · rw [hsame handle, hkept before i handle clear rest hsplit]
    rw [hsplit]
    exact mem_removed.mpr ⟨i, clear, List.mem_append_right _ List.mem_cons_self⟩

section Advance
variable {i : Nat} {c : Caller T} {stage : Stage T} {r : Registry T}

/-- A step that runs no exclusive body keeps what the clear steps left. -/
theorem Kept.advance (hinv : Inv log w) (hshown : Shown log) (hkept : Kept log)
    (hc : w.callers[i]? = some c) (hmove : Move w.registry i c.call c.stage stage r events)
    (hshared : ∀ handle object body, c.stage ≠ .holding handle object (.exclusive body)) :
    Kept (log ++ events) := by
  have hok := hinv.callers i c hc
  have hissued : ∀ handle ∈ removed log, handle ∈ issued log := by
    intro handle hmem
    obtain ⟨j, clear, hmem⟩ := mem_removed.mp hmem
    obtain ⟨before, after, rfl⟩ := List.append_of_mem hmem
    have htook := (hshown.tookFirst before j handle clear after rfl).1
    exact hinv.shelved.gone handle ⟨j, clear, List.mem_append_left _ htook⟩
  have hreply : ∀ reply : Reply T, reply.finished = false → (∀ handle, reply ≠ .handle handle) →
      Kept (log ++ [.replied i c.call reply]) := by
    intro reply hunfinished hnone
    refine hkept.concat (fun handle _ => ?_) fun j handle clear heq => ?_
    · cases c.call <;> cases reply <;> simp_all [Event.update, Call.task, Reply.finished]
    · obtain ⟨_, _, rfl⟩ := Event.replied.inj heq
      cases hunfinished
  obtain ⟨call, old⟩ := c
  cases hmove with
  | numbered | found | locked => rwa [List.append_nil]
  | exhausted | unknown | missing => exact hreply _ rfl fun _ h => by cases h
  | taken entry =>
    exact hkept.concat (fun _ _ => rfl) fun _ _ _ h => by cases h
  | @published given value =>
    obtain ⟨hcall, _, hnot⟩ := hok
    dsimp only at hcall
    subst hcall
    refine hkept.concat (fun handle hmem => if_neg fun heq => ?_) fun _ _ _ h => by cases h
    exact hnot (heq ▸ hissued handle hmem)
  | @finished given object task o stored =>
    obtain ⟨hrefers, _⟩ := hok
    have htask := hrefers.performs
    have hvalue := hinv.shelved.value stored hrefers.belongs
    refine hkept.concat (fun handle hmem => ?_) fun j handle clear heq => ?_
    · rw [update_reply htask]
      by_cases hsame : given = handle
      · subst hsame
        rw [if_pos rfl, hvalue]
        cases task with
        | shared => rfl
        | exclusive body => exact absurd rfl (hshared given object body)
        | clear clear =>
          -- the handle would be removed twice
          have hcall : call = .removeWith given clear := by
            cases call <;> cases htask
            rfl
          subst hcall
          cases hinv.removal_done hshown hc (hrefers.took clear rfl) hmem
      · rw [if_neg hsame]
    · obtain ⟨_, rfl, hdone⟩ := Event.replied.inj heq
      obtain ⟨rfl, rfl⟩ := Prod.mk.inj (Option.some.inj htask)
      rw [update_reply htask, if_pos rfl]
      rfl

end Advance

/-- A step keeps what the clear steps left exactly when it is harmless. -/
theorem step_kept (hinv : Inv log w) (hshown : Shown log) (hkept : Kept log) {a : Action T}
    (h : w.step a = some (w', events)) : Kept (log ++ events) ↔ Harmless w a := by
  rcases step_cases h with ⟨call, rfl, rfl, rfl⟩ | ⟨i, c, stage, r, rfl, hc, hmove, rfl⟩ | ⟨rfl, rfl, rfl⟩
  · refine iff_of_true (hkept.concat (fun _ _ => rfl) fun _ _ _ h => by cases h) ?_
    intro i handle object call' body o ha
    cases ha
  · by_cases hbody : ∃ handle object body, c.stage = .holding handle object (.exclusive body)
    · obtain ⟨handle, object, body, hstage⟩ := hbody
      obtain ⟨call, old⟩ := c
      dsimp only at hstage hmove
      subst hstage
      cases hmove with
      | @finished _ _ _ o stored =>
      obtain ⟨hrefers, _⟩ := hinv.callers i _ hc
      have hvalue := hinv.shelved.value stored hrefers.belongs
      have hafter : valueUnder handle (log ++ [.replied i call ((Task.exclusive body).reply o.value)]) =
          some (body o.value) := by
        rw [valueUnder_append]
        refine (update_reply hrefers.performs _ _).trans ?_
        rw [if_pos rfl, hvalue]
        rfl
      constructor
      · intro hkept' j handle' object' call' body' o' ha hj hstored hcleared
        cases ha
        cases Option.some.inj (hc.symm.trans hj)
        obtain rfl := Option.some.inj (stored.symm.trans hstored)
        obtain ⟨k, clear, hk⟩ := mem_removed.mp ((cleared_iff hinv).mp hcleared)
        obtain ⟨before, rest, rfl⟩ := List.append_of_mem hk
        have hold := hkept before k handle clear rest rfl
        have hnew := hkept' before k handle clear _ (List.append_assoc _ _ _)
        rw [hafter, ← hold, hvalue] at hnew
        exact Option.some.inj hnew
      · intro hharmless
        refine hkept.concat (fun handle' hmem => ?_) fun _ _ _ heq => ?_
        · rw [update_reply hrefers.performs]
          by_cases hsame : handle = handle'
          · subst hsame
            rw [if_pos rfl, hvalue]
            exact congrArg some (hharmless i handle object call body o rfl hc stored
              ((cleared_iff hinv).mpr hmem))
          · rw [if_neg hsame]
        · cases (Event.replied.inj heq).2.2
    · have hshared : ∀ handle object body, c.stage ≠ .holding handle object (.exclusive body) :=
        fun handle object body heq => hbody ⟨handle, object, body, heq⟩
      refine iff_of_true (hkept.advance hinv hshown hc hmove hshared) ?_
      intro j handle object call body o ha hj
      cases ha
      cases Option.some.inj (hc.symm.trans hj)
      exact absurd rfl (hshared handle object body)
  · rw [List.append_nil]
    refine iff_of_true hkept ?_
    intro i handle object call' body o ha
    cases ha

theorem step_seesCleared (hinv : Inv log w) (hshown : Shown log) (hkept : Kept log)
    (hsees : SeesCleared log) {a : Action T} (h : w.step a = some (w', events)) :
    SeesCleared (log ++ events) := by
  have hshown' := step_shown hinv hshown h
  have hone : events = [] ∨ ∃ e, events = [e] := by
    rcases step_cases h with ⟨call, rfl, rfl, rfl⟩ | ⟨i, c, stage, r, rfl, hc, hmove, rfl⟩ | ⟨rfl, rfl, rfl⟩
    · exact .inr ⟨_, rfl⟩
    · rcases hmove.shows with ⟨rfl, _⟩ | ⟨_, _, _, rfl, _⟩ | ⟨_, _, rfl⟩
      · exact .inl rfl
      · exact .inr ⟨_, rfl⟩
      · exact .inr ⟨_, rfl⟩
    · exact .inl rfl
  rcases hone with rfl | ⟨e, rfl⟩
  · rwa [List.append_nil]
  intro before i handle clear after hsplit
  rcases concat_split hsplit with ⟨rfl, _, rfl⟩ | ⟨rest, rfl, rfl⟩
  · obtain ⟨_, value, hvalue⟩ := hshown'.tookFirst log i handle clear [] hsplit
    exact ⟨value, hvalue, fun _ _ _ h => by cases h⟩
  · obtain ⟨value, hvalue, hseen⟩ := hsees before i handle clear rest rfl
    refine ⟨value, hvalue, fun j call seen hmem hhandle => ?_⟩
    rcases List.mem_append.mp hmem with hmem | hmem
    · exact hseen j call seen hmem hhandle
    · obtain rfl := List.mem_singleton.mp hmem
      obtain ⟨handle', hhandle', hnow⟩ := hshown'.resolves _ j call seen [] rfl
      obtain rfl := Option.some.inj (hhandle.symm.trans hhandle')
      have hleft := hkept before i handle clear rest rfl
      rw [hnow, hvalue] at hleft
      exact Option.some.inj hleft

theorem Run.kept {allowed : World T → Action T → Prop} (h : Run allowed log w)
    (hallowed : ∀ v a, allowed v a → Harmless v a) : Kept log ∧ SeesCleared log := by
  induction h with
  | new =>
    constructor
    · intro before i handle clear after h
      exact absurd h (by simp)
    · intro before i handle clear after h
      exact absurd h (by simp)
  | step h ha hstep ih =>
    exact ⟨(step_kept h.inv h.shown ih.1 hstep).mpr (hallowed _ _ ha),
      step_seesCleared h.inv h.shown ih.1 ih.2 hstep⟩

/-! ### The guarantees -/

/-- What every run satisfies: a handle is given once, a body sees the value inserted under its
handle as the tasks before it left it, bodies under one handle run one at a time, a handle is
removed once, and a call that begins behind the removal finds nothing. -/
structure Safe (log : List (Event T)) (w : World T) : Prop where
  issuedOnce : (issued log).Nodup
  resolves : ∀ before i call seen after, log = before ++ .replied i call (.ran seen) :: after →
    ∃ handle, call.handle = some handle ∧ valueUnder handle before = some seen
  oneAtATime : ∀ (handle i j : Nat) (c c' : Caller T), w.callers[i]? = some c →
    w.callers[j]? = some c' → c.runsOn handle = true → c'.runsOn handle = true → i = j
  removedOnce : (removed log).Nodup
  tookFirst : ∀ before i handle clear after, log = before ++ .removal i handle clear :: after →
    .took i (.removeWith handle clear) ∈ before
  stale : ∀ before i handle clear after, log = before ++ .took i (.removeWith handle clear) :: after →
    ∀ j call call' reply, .called j call' ∈ after → .replied j call reply ∈ log →
      call.handle = some handle → reply = call.missed

theorem Inv.safe (hinv : Inv log w) (hshown : Shown log) : Safe log w := by
  refine ⟨hinv.shelved.once, hshown.resolves, ?_, hshown.removedOnce, ?_, ?_⟩
  · intro handle i j c c' hi hj hruns hruns'
    by_contra hne
    have hplace : ∀ (k : Nat) (x : Caller T), w.callers[k]? = some x → x.runsOn handle = true →
        ∃ object task, x.stage = .holding handle object task ∧
          (issued log)[object]? = some handle := by
      intro k x hk hx
      have hok := hinv.callers k x hk
      obtain ⟨call, stage⟩ := x
      cases stage with
      | holding h object task =>
        obtain ⟨hrefers, _⟩ := hok
        have hhandle : call.handle = some h := by
          rw [Call.handle, hrefers.performs]
          rfl
        obtain rfl := Option.some.inj (hhandle.symm.trans (beq_iff_eq.mp hx))
        exact ⟨object, task, rfl, hrefers.belongs⟩
      | insert | inserting | lookup | remove | awaiting | done => cases hx
    obtain ⟨object, task, hstage, hobject⟩ := hplace i c hi hruns
    obtain ⟨object', task', hstage', hobject'⟩ := hplace j c' hj hruns'
    have hapart := hinv.apart i j c c' hi hj hne
    rw [hstage, hstage'] at hapart
    exact hapart (hinv.shelved.unique hobject hobject')
  · intro before i handle clear after hsplit
    exact (hshown.tookFirst before i handle clear after hsplit).1
  · intro before i handle clear after hsplit j call call' reply hcalled hreplied hhandle
    have hj := hinv.replied j call reply hreplied
    have hlate : Late log j handle := ⟨before, i, clear, after, call', hsplit, hcalled⟩
    rcases hinv.late j handle _ hlate hj hhandle with hstart | hdone
    · cases call <;> cases hstart
    · exact Stage.done.inj hdone

/-- Every run is safe, and one whose steps are harmless shows a removed value only as its clear
step left it. Behind any run a step keeps such values exactly when it is harmless. -/
theorem registry_safe {allowed : World T → Action T → Prop} (h : Run allowed log w) :
    Safe log w ∧ ((∀ v a, allowed v a → Harmless v a) → SeesCleared log) ∧
      (Kept log → ∀ a w' events, w.step a = some (w', events) →
        (Kept (log ++ events) ↔ Harmless w a)) := by
  refine ⟨h.inv.safe h.shown, fun hallowed => (h.kept hallowed).2, ?_⟩
  intro hkept a w' events hstep
  exact step_kept h.inv h.shown hkept hstep

/-! ### Runs that are checked -/

/-- The actions in order, each accepted by the check before it is made. -/
def perform (check : World T → Action T → Bool) :
    List (Action T) → World T → Option (List (Event T) × World T)
  | [], w => some ([], w)
  | a :: actions, w =>
    if check w a then do
      let (w, events) ← w.step a
      let (rest, w) ← perform check actions w
      some (events ++ rest, w)
    else none

theorem Run.perform {allowed : World T → Action T → Prop} {check : World T → Action T → Bool}
    (hcheck : ∀ w a, check w a = true → allowed w a) {actions : List (Action T)}
    (h : Run allowed log w) (hrun : World.perform check actions w = some (events, w')) :
    Run allowed (log ++ events) w' := by
  induction actions generalizing log w events with
  | nil =>
    cases hrun
    rwa [List.append_nil]
  | cons a actions ih =>
    rw [World.perform] at hrun
    split at hrun
    · rename_i haccepted
      obtain ⟨⟨next, first⟩, hstep, hrun⟩ := Option.bind_eq_some_iff.mp hrun
      obtain ⟨⟨rest, last⟩, hrest, heq⟩ := Option.bind_eq_some_iff.mp hrun
      obtain ⟨rfl, rfl⟩ := Prod.mk.inj (Option.some.inj heq)
      rw [← List.append_assoc]
      exact ih (h.step (hcheck w a haccepted) hstep) hrest
    · cases hrun

/-- The removal of the handle is over. -/
def removedBy (handle : Nat) (c : Caller T) : Bool :=
  match c.call, c.stage with
  | .removeWith h _, .done (.removed true) => h == handle
  | _, _ => false

/-- No exclusive body runs under a handle whose removal is over. -/
def noLateBody (w : World T) : Action T → Bool
  | .advance i =>
    match w.callers[i]? with
    | some ⟨_, .holding handle _ (.exclusive _)⟩ => !w.callers.any (removedBy handle)
    | _ => true
  | _ => true

theorem noLateBody_harmless (w : World T) (a : Action T) (h : noLateBody w a = true) :
    Harmless w a := by
  rintro i handle object call body o rfl hc ho ⟨clear, hmem⟩
  rw [noLateBody, hc] at h
  have hany : w.callers.any (removedBy handle) = true :=
    List.any_eq_true.mpr ⟨_, hmem, beq_self_eq_true handle⟩
  simp only [hany, Bool.not_true, Bool.false_eq_true] at h

/-- A secret is changed, then removed while a reader waits for its lock; the reader sees it
cleared, and neither a later reader nor a second removal finds the handle. -/
def removedSecret : List (Event (Option Nat)) :=
  [.called 0 (.insert (some 5)), .replied 0 (.insert (some 5)) (.handle 1),
    .called 1 (.withMut 1 (Option.map Nat.succ)),
    .replied 1 (.withMut 1 (Option.map Nat.succ)) (.ran (some 5)),
    .called 2 (.with 1), .called 3 (.removeWith 1 fun _ => none),
    .took 3 (.removeWith 1 fun _ => none), .removal 3 1 fun _ => none,
    .replied 2 (.with 1) (.ran none), .called 4 (.with 1), .replied 4 (.with 1) .unknown,
    .called 5 (.remove 1), .replied 5 (.remove 1) (.removed false)]

theorem registry_safe_example : ∃ w : World (Option Nat), Run Harmless removedSecret w ∧
    Safe removedSecret w ∧ SeesCleared removedSecret := by
  have hrun : Run Harmless ([] ++ removedSecret) _ := Run.new.perform noLateBody_harmless
    (show perform noLateBody [.call (.insert (some 5)), .advance 0, .advance 0,
      .call (.withMut 1 (Option.map Nat.succ)), .advance 1, .advance 1, .advance 1,
      .call (.with 1), .advance 2, .call (.removeWith 1 fun _ => none), .advance 3, .advance 3,
      .advance 3, .advance 2, .advance 2, .call (.with 1), .advance 4, .call (.remove 1),
      .advance 5] new = some (removedSecret, _) from rfl)
  obtain ⟨hsafe, hsees, _⟩ := registry_safe hrun
  exact ⟨_, hrun, hsafe, hsees fun _ _ h => h⟩

/-- A writer and a reader hold references when the removal gets the lock first. The writer's
body runs behind the clear step and the reader sees what it wrote. -/
def rewrittenSecret : List (Event (Option Nat)) :=
  [.called 0 (.insert (some 5)), .replied 0 (.insert (some 5)) (.handle 1),
    .called 1 (.withMut 1 fun _ => some 9), .called 2 (.with 1),
    .called 3 (.removeWith 1 fun _ => none), .took 3 (.removeWith 1 fun _ => none),
    .removal 3 1 fun _ => none, .replied 1 (.withMut 1 fun _ => some 9) (.ran none),
    .replied 2 (.with 1) (.ran (some 9))]

theorem cleared_value_rewritten : ∃ (log : List (Event (Option Nat))) (w : World (Option Nat)),
    Run (fun _ _ => True) log w ∧ ¬ SeesCleared log := by
  have hrun : Run (fun _ _ => True) ([] ++ rewrittenSecret) _ :=
    Run.new.perform (fun _ _ _ => trivial)
      (show perform (fun _ _ => true) [.call (.insert (some 5)), .advance 0, .advance 0,
        .call (.withMut 1 fun _ => some 9), .advance 1, .call (.with 1), .advance 2,
        .call (.removeWith 1 fun _ => none), .advance 3, .advance 3, .advance 3,
        .advance 1, .advance 1, .advance 2, .advance 2] new = some (rewrittenSecret, _) from rfl)
  refine ⟨rewrittenSecret, _, hrun, fun hsees => ?_⟩
  obtain ⟨value, _, hseen⟩ := hsees (rewrittenSecret.take 6) 3 1 (fun _ => none) (rewrittenSecret.drop 7) rfl
  have hlast : .replied 2 (.with 1) (.ran (some 9)) ∈ rewrittenSecret.drop 7 :=
    List.mem_cons_of_mem _ List.mem_cons_self
  exact Option.some_ne_none 9 (hseen 2 (.with 1) (some 9) hlast rfl)

end World

end Curvy.Ffi
