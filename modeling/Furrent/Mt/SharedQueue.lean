import Furrent.Framework.System
import Furrent.Policy.Queue
import Mathlib.Logic.Function.Basic

/-! # The shared queue

    Model of `SharedQueue` in `src/mt/sharing_queue.inl`: a queue under a
    mutex, with two condition variables. Any number of threads call its
    functions. A critical section is one step; `notify_all` comes after it,
    outside of the mutex, and is a step of its own. A thread that waits on
    a condition variable may be woken up at any time, and has to take the
    mutex again to look at the condition once more.

    The `log` is not part of the program. It records what was inserted, what
    the calls of `try_extract` have returned and what was removed. -/

namespace Furrent.Mt

open Cpp Policy Transition

/-! ### States -/

/-- The condition variables. -/
inductive Condition where
  | newWorkAvailable
  | allWorkDispatched
  deriving DecidableEq, Repr

/-- Where a thread is. -/
inductive Thread where
  /-- In no call, or before its critical section. -/
  | outside
  /-- The critical section is over, `notify_all` is still to come. -/
  | notifying (cv : Condition)
  /-- In `wait`; the mutex is released. -/
  | blocked (cv : Condition)
  /-- Woken up in `wait`, without the mutex. -/
  | woken (cv : Condition)
  deriving DecidableEq, Repr

variable {α ι : Type}

/-- What has happened. -/
structure Log (α : Type) where
  inserted : List α := []
  extracted : List α := []
  removed : List α := []

/-- `SharedQueue` and the threads that use it. -/
structure State (α ι : Type) where
  work : List α
  skipWaiting : Bool
  threads : ι → Thread
  log : Log α

/-- The public functions, with their arguments. -/
inductive Call (α : Type) where
  | tryExtract (policy : IPolicy α)
  | insert (work : α)
  | emplace (work : α)
  | mutate (mutation : List α → α → Bool)
  | forceWakeup
  | waitWork
  | waitEmpty
  | beginSkipWaiting

namespace State

/-- `SharedQueue()`. -/
def start : State α ι where
  work := []
  skipWaiting := false
  threads := fun _ => .outside
  log := {}

/-- What a thread in `wait_work` or in `wait_empty` waits for. -/
def ready (s : State α ι) : Condition → Bool
  | .newWorkAvailable => !s.work.isEmpty || s.skipWaiting
  | .allWorkDispatched => s.work.isEmpty || s.skipWaiting

/-- `notify_all`: nobody is blocked any more. -/
def notifyAll (s : State α ι) (cv : Condition) : State α ι :=
  { s with threads := fun t => if s.threads t = .blocked cv then .woken cv else s.threads t }

/-- The critical sections of `insert` and `emplace`. An exception leaves the
    function without a notification. -/
def push (s : State α ι) (work : α) : State α ι × Thread :=
  match Queue.insert s.work work with
  | .ok items =>
    ({ s with work := items, log := { s.log with inserted := s.log.inserted ++ [work] } },
      .notifying .newWorkAvailable)
  | .error _ => (s, .outside)

/-- The critical section of `try_extract`. -/
def extract (s : State α ι) (policy : IPolicy α) : State α ι × Thread :=
  match Queue.extract policy s.work with
  | .ok (item, items) =>
    ({ s with work := items, log := { s.log with extracted := s.log.extracted ++ [item] } },
      if items.isEmpty then .notifying .allWorkDispatched else .outside)
  | .error _ => (s, if s.work.isEmpty then .notifying .allWorkDispatched else .outside)

/-- The critical section of `mutate`. -/
def mutate (s : State α ι) (mutation : List α → α → Bool) : State α ι :=
  match Queue.mutateLoop mutation [] [] s.work 0 with
  | (items, removed, _) =>
    { s with work := items, log := { s.log with removed := s.log.removed ++ removed } }

/-- The critical section of a call, and where it leaves the thread. The
    functions that wait return at once or block. -/
def enter (s : State α ι) : Call α → State α ι × Thread
  | .tryExtract policy => s.extract policy
  | .insert work => s.push work
  | .emplace work => s.push work
  | .mutate mutation => (s.mutate mutation, .notifying .newWorkAvailable)
  | .forceWakeup => (s, .notifying .newWorkAvailable)
  | .waitWork =>
    (s, if s.ready .newWorkAvailable then .outside else .blocked .newWorkAvailable)
  | .waitEmpty =>
    (s, if s.ready .allWorkDispatched then .outside else .blocked .allWorkDispatched)
  | .beginSkipWaiting => ({ s with skipWaiting := true }, .notifying .newWorkAvailable)

end State

/-! ### Steps -/

/-- What a thread does. -/
inductive Action (α : Type) where
  | call (call : Call α)
  | notify
  /-- It is woken up for no reason. -/
  | wakeUp
  /-- It takes the mutex again and looks at the condition. -/
  | recheck

variable [DecidableEq ι]

def State.setThread (s : State α ι) (t : ι) (thread : Thread) : State α ι :=
  { s with threads := Function.update s.threads t thread }

inductive Step : State α ι → ι × Action α → State α ι → Prop where
  | call {s : State α ι} {t : ι} (c : Call α) (ht : s.threads t = .outside) :
      Step s (t, .call c) ((s.enter c).1.setThread t (s.enter c).2)
  | notify {s : State α ι} {t : ι} {cv : Condition} (ht : s.threads t = .notifying cv) :
      Step s (t, .notify) ((s.notifyAll cv).setThread t .outside)
  | wakeUp {s : State α ι} {t : ι} {cv : Condition} (ht : s.threads t = .blocked cv) :
      Step s (t, .wakeUp) (s.setThread t (.woken cv))
  | recheck {s : State α ι} {t : ι} {cv : Condition} (ht : s.threads t = .woken cv) :
      Step s (t, .recheck) (s.setThread t (if s.ready cv then .outside else .blocked cv))

/-- The queue with the threads `ι`. -/
def sharedQueue (α ι : Type) [DecidableEq ι] : System (State α ι) (ι × Action α) where
  init := fun s => s = State.start
  step := Step

/-! ### Updates -/

variable {s s' : State α ι} {t t' : ι}

@[simp] theorem threads_setThread_self (s : State α ι) (t : ι) (thread : Thread) :
    (s.setThread t thread).threads t = thread := Function.update_self ..

theorem threads_setThread_of_ne (s : State α ι) (thread : Thread) (h : t' ≠ t) :
    (s.setThread t thread).threads t' = s.threads t' := Function.update_of_ne h ..

/-- A thread after an update is the one updated or as before. -/
theorem threads_setThread_eq_iff {thread thread' : Thread} :
    (s.setThread t thread).threads t' = thread'
      ↔ t' = t ∧ thread = thread' ∨ t' ≠ t ∧ s.threads t' = thread' := by
  by_cases h : t' = t
  · simp [h]
  · simp [h, threads_setThread_of_ne s thread h]

@[simp] theorem ready_setThread (s : State α ι) (t : ι) (thread : Thread) (cv : Condition) :
    (s.setThread t thread).ready cv = s.ready cv := by
  cases cv <;> rfl

omit [DecidableEq ι] in
@[simp] theorem ready_notifyAll (s : State α ι) (cv cv' : Condition) :
    (s.notifyAll cv').ready cv = s.ready cv := by
  cases cv <;> rfl

omit [DecidableEq ι] in
/-- After `notify_all` no thread is blocked. -/
theorem notifyAll_threads_ne (s : State α ι) (cv : Condition) (t : ι) :
    (s.notifyAll cv).threads t ≠ .blocked cv := by
  unfold State.notifyAll
  by_cases h : s.threads t = .blocked cv
  · simp [h]
  · simp [h]

/-! ### What a critical section does -/

/-- From `s`, a call leads to state `s'` and leaves the thread at `thread`. -/
inductive Effect (s : State α ι) : Call α → State α ι → Thread → Prop where
  | push {c : Call α} {work : α} (call : c = .insert work ∨ c = .emplace work) :
      Effect s c
        { s with
          work := s.work ++ [work]
          log := { s.log with inserted := s.log.inserted ++ [work] } }
        (.notifying .newWorkAvailable)
  | full {c : Call α} {work : α} (call : c = .insert work ∨ c = .emplace work) :
      Effect s c s .outside
  | extract {policy : IPolicy α} {item : α} (found : s.work[policy s.work]? = some item) :
      Effect s (.tryExtract policy)
        { s with
          work := s.work.eraseIdx (policy s.work)
          log := { s.log with extracted := s.log.extracted ++ [item] } }
        (if (s.work.eraseIdx (policy s.work)).isEmpty then .notifying .allWorkDispatched
          else .outside)
  | noExtract {policy : IPolicy α} {e : QueueError}
      (failed : Queue.extract policy s.work = .error e) :
      Effect s (.tryExtract policy) s
        (if s.work.isEmpty then .notifying .allWorkDispatched else .outside)
  | mutate (mutation : List α → α → Bool) :
      Effect s (.mutate mutation)
        { s with
          work := Ledger.kept (Queue.answers mutation [] s.work) s.work
          log := { s.log with
            removed := s.log.removed ++ Ledger.taken (Queue.answers mutation [] s.work) s.work } }
        (.notifying .newWorkAvailable)
  | forceWakeup : Effect s .forceWakeup s (.notifying .newWorkAvailable)
  | wait {c : Call α} {cv : Condition}
      (call : c = .waitWork ∧ cv = .newWorkAvailable ∨ c = .waitEmpty ∧ cv = .allWorkDispatched) :
      Effect s c s (if s.ready cv then .outside else .blocked cv)
  | beginSkipWaiting :
      Effect s .beginSkipWaiting { s with skipWaiting := true } (.notifying .newWorkAvailable)

omit [DecidableEq ι] in
theorem effect_push {c : Call α} {work : α} (hc : c = .insert work ∨ c = .emplace work) :
    Effect s c (s.push work).1 (s.push work).2 := by
  unfold State.push Queue.insert
  by_cases hfull : s.work.length = INT64_MAX
  · simp only [hfull, if_true]
    exact .full hc
  · simp only [hfull, if_false]
    exact .push hc

omit [DecidableEq ι] in
theorem effect_extract (policy : IPolicy α) :
    Effect s (.tryExtract policy) (s.extract policy).1 (s.extract policy).2 := by
  unfold State.extract
  cases hextract : Queue.extract policy s.work with
  | error e => exact .noExtract hextract
  | ok result =>
    obtain ⟨item, items⟩ := result
    obtain ⟨hfound, rfl⟩ := Queue.extract_eq_ok hextract
    exact .extract hfound

omit [DecidableEq ι] in
theorem mutate_eq (s : State α ι) (mutation : List α → α → Bool) :
    s.mutate mutation = { s with
      work := Ledger.kept (Queue.answers mutation [] s.work) s.work
      log := { s.log with
        removed := s.log.removed ++ Ledger.taken (Queue.answers mutation [] s.work) s.work } } := by
  have hloop := Queue.mutateLoop_eq mutation [] [] [] s.work
  simp only [List.nil_append, List.length_nil] at hloop
  simp only [State.mutate, hloop]

omit [DecidableEq ι] in
theorem enter_effect (s : State α ι) (c : Call α) : Effect s c (s.enter c).1 (s.enter c).2 := by
  cases c with
  | tryExtract policy => exact effect_extract policy
  | insert work => exact effect_push (.inl rfl)
  | emplace work => exact effect_push (.inr rfl)
  | mutate mutation =>
    rw [State.enter, mutate_eq]
    exact .mutate mutation
  | forceWakeup => exact .forceWakeup
  | waitWork => exact .wait (.inl ⟨rfl, rfl⟩)
  | waitEmpty => exact .wait (.inr ⟨rfl, rfl⟩)
  | beginSkipWaiting => exact .beginSkipWaiting

omit [DecidableEq ι] in
/-- A critical section touches no thread. -/
theorem Effect.threads_eq {c : Call α} {thread : Thread} (h : Effect s c s' thread) :
    s'.threads = s.threads := by
  cases h <;> rfl

/-- The step of a mutation, with the loop carried out. -/
theorem step_mutate (mutation : List α → α → Bool) (ht : s.threads t = .outside) :
    Step s (t, .call (.mutate mutation))
      (State.setThread { s with
        work := Ledger.kept (Queue.answers mutation [] s.work) s.work
        log := { s.log with
          removed := s.log.removed ++ Ledger.taken (Queue.answers mutation [] s.work) s.work } }
        t (.notifying .newWorkAvailable)) := by
  rw [← mutate_eq]
  exact .call (.mutate mutation) ht

/-! ### A call and its critical section -/

/-- Thread `t` makes a call and gets through its critical section. -/
def State.perform (s : State α ι) (t : ι) (c : Call α) : State α ι :=
  (s.enter c).1.setThread t (s.enter c).2

theorem threads_perform_self (s : State α ι) (t : ι) (c : Call α) :
    (s.perform t c).threads t = (s.enter c).2 := threads_setThread_self ..

/-- The other threads do not notice. -/
theorem threads_perform_of_ne (s : State α ι) (c : Call α) (h : t' ≠ t) :
    (s.perform t c).threads t' = s.threads t' := by
  rw [State.perform, threads_setThread_of_ne _ _ h, (enter_effect s c).threads_eq]

theorem work_perform_extract {policy : IPolicy α} {item : α} {items : List α}
    (h : Queue.extract policy s.work = .ok (item, items)) :
    (s.perform t (.tryExtract policy)).work = items := by
  simp [State.perform, State.enter, State.extract, State.setThread, h]

theorem work_perform_miss {policy : IPolicy α} {e : QueueError}
    (h : Queue.extract policy s.work = .error e) :
    (s.perform t (.tryExtract policy)).work = s.work := by
  simp [State.perform, State.enter, State.extract, State.setThread, h]

theorem work_perform_emplace {work : α} (h : s.work.length ≠ INT64_MAX) :
    (s.perform t (.emplace work)).work = Queue.emplace s.work work := by
  simp [State.perform, State.enter, State.push, Queue.insert, State.setThread, h]

theorem work_perform_mutate (s : State α ι) (t : ι) (mutation : α → Bool) :
    (s.perform t (.mutate fun _ => mutation)).work = Queue.mutate mutation s.work := by
  simp only [State.perform, State.enter, State.setThread, mutate_eq, Queue.kept_answers]

/-- Outside of the critical sections nothing is done with the work. -/
theorem Step.inside {a : Action α} (h : Step s (t, a) s') (ha : ∀ c, a ≠ .call c) :
    s'.work = s.work ∧ s'.skipWaiting = s.skipWaiting := by
  cases h with
  | call c _ => exact absurd rfl (ha c)
  | _ => exact ⟨rfl, rfl⟩

/-- Nothing takes the flag back. -/
theorem Step.skipWaiting {a : ι × Action α} (h : Step s a s') (hs : s.skipWaiting = true) :
    s'.skipWaiting = true := by
  cases h with
  | call c ht =>
    have heffect := enter_effect s c
    show (s.enter c).1.skipWaiting = true
    generalize (s.enter c).1 = s₁, (s.enter c).2 = thread at heffect
    cases heffect with
    | beginSkipWaiting => rfl
    | _ => exact hs
  | _ => exact hs

omit [DecidableEq ι] in
theorem threads_notifyAll_of_ne {cv : Condition} (h : s.threads t ≠ .blocked cv) :
    (s.notifyAll cv).threads t = s.threads t := if_neg h

/-- A thread that does not wait goes on by itself only. -/
theorem Step.settled {a : Action α} (h : Step s (t, a) s') (ha : ∀ c, a ≠ .call c)
    (ht' : ∀ cv, s.threads t' ≠ .blocked cv ∧ s.threads t' ≠ .woken cv) :
    s'.threads t' = s.threads t' ∨ s'.threads t' = .outside := by
  by_cases hself : t' = t
  · right
    cases h with
    | call c _ => exact absurd rfl (ha c)
    | notify => rw [hself, threads_setThread_self]
    | wakeUp ht => exact absurd ht (hself ▸ (ht' _).1)
    | recheck ht => exact absurd ht (hself ▸ (ht' _).2)
  · left
    cases h with
    | call c _ => exact absurd rfl (ha c)
    | notify => rw [threads_setThread_of_ne _ _ hself, threads_notifyAll_of_ne (ht' _).1]
    | wakeUp => exact threads_setThread_of_ne _ _ hself
    | recheck => exact threads_setThread_of_ne _ _ hself

/-- A thread that is in no call is left alone. -/
theorem Step.outside {a : Action α} (h : Step s (t, a) s') (ha : ∀ c, a ≠ .call c)
    (ht' : s.threads t' = .outside) : s'.threads t' = .outside := by
  have hnot : ∀ cv, s.threads t' ≠ .blocked cv ∧ s.threads t' ≠ .woken cv := by simp [ht']
  rcases h.settled ha hnot with hsame | hout
  · rw [hsame, ht']
  · exact hout

end Furrent.Mt
