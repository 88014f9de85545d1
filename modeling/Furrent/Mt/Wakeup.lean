import Furrent.Mt.SharedQueue

/-! # Lost wake-ups

    A thread that is blocked although its condition holds must have a
    notification on its way. A thread blocks only while its condition does
    not hold, and a notification leaves nobody blocked, so it comes down to
    the calls that make a condition true: do they notify the right variable?

    For the waiters for work all of them do. For the waiters for an empty
    queue only `try_extract` does: `mutate` and `begin_skip_waiting` notify
    the other variable. -/

namespace Furrent.Mt

open Cpp Policy Transition

variable {α ι : Type} [DecidableEq ι] {s s' : State α ι} {t : ι} {a : Action α} {c : Call α}
  {cv : Condition}

/-- A thread is blocked although its condition holds, and nobody is about to
    notify it. -/
def Stranded (s : State α ι) (cv : Condition) : Prop :=
  (∃ t, s.threads t = .blocked cv) ∧ s.ready cv = true ∧ ∀ t, s.threads t ≠ .notifying cv

omit [DecidableEq ι] in
theorem not_stranded_start (cv : Condition) : ¬ Stranded (State.start : State α ι) cv := by
  intro hstranded
  obtain ⟨⟨t, ht⟩, _, _⟩ := hstranded
  injection ht

omit [DecidableEq ι] in
/-- A call blocks a thread only while the condition does not hold. -/
theorem Effect.not_ready_of_blocked (h : Effect s c s' (.blocked cv)) : s'.ready cv = false := by
  generalize hthread : Thread.blocked cv = thread at h
  cases h with
  | extract found =>
    split at hthread
    · injection hthread
    · injection hthread
  | noExtract failed =>
    split at hthread
    · injection hthread
    · injection hthread
  | @wait c cv' call =>
    cases hready : s.ready cv' with
    | true => simp [hready] at hthread
    | false =>
      simp only [hready, Bool.false_eq_true, if_false, Thread.blocked.injEq] at hthread
      rw [hthread]
      exact hready
  | _ => injection hthread

omit [DecidableEq ι] in
/-- A thread that is stranded after a step in which nobody blocked, nobody
    notified and the condition was left alone was stranded before. -/
theorem Stranded.before (hs' : Stranded s' cv) (hready : s.ready cv = true)
    (hblocked : ∀ t, s'.threads t = .blocked cv → s.threads t = .blocked cv)
    (hnotifying : ∀ t, s.threads t = .notifying cv → s'.threads t = .notifying cv) :
    Stranded s cv := by
  obtain ⟨⟨t, ht⟩, _, hnone⟩ := hs'
  exact ⟨⟨t, hblocked t ht⟩, hready, fun t ht => hnone t (hnotifying t ht)⟩

/-- The same for a step that only moves thread `t` on. -/
theorem Stranded.of_setThread {thread : Thread} (hs' : Stranded (s.setThread t thread) cv)
    (hthread : thread ≠ .blocked cv) (ht : s.threads t ≠ .notifying cv) : Stranded s cv := by
  have hready := hs'.2.1
  rw [ready_setThread] at hready
  apply hs'.before hready
  · intro t' ht'
    rcases threads_setThread_eq_iff.mp ht' with ⟨_, heq⟩ | ⟨_, hold⟩
    · exact absurd heq hthread
    · exact hold
  · intro t' ht'
    apply threads_setThread_eq_iff.mpr
    right
    refine ⟨?_, ht'⟩
    intro heq
    rw [heq] at ht'
    exact ht ht'

omit [DecidableEq ι] in
/-- Nobody is stranded by a notification. -/
theorem Stranded.of_notifyAll {cv' : Condition} (h : Stranded (s.notifyAll cv') cv) :
    Stranded s cv := by
  have hready := h.2.1
  rw [ready_notifyAll] at hready
  apply h.before hready
  · intro t ht
    simp only [State.notifyAll] at ht
    by_cases hold : s.threads t = .blocked cv'
    · simp [hold] at ht
    · rw [if_neg hold] at ht
      exact ht
  · intro t ht
    simp [State.notifyAll, ht]

/-- A thread that is blocked after a notification waits for something else. -/
theorem ne_of_stranded_notify {cv' : Condition} {thread : Thread}
    (h : Stranded ((s.notifyAll cv').setThread t thread) cv) (hthread : thread ≠ .blocked cv) :
    cv' ≠ cv := by
  intro heq
  obtain ⟨⟨t', ht'⟩, _, _⟩ := h
  rcases threads_setThread_eq_iff.mp ht' with ⟨_, hself⟩ | ⟨_, hblocked⟩
  · exact hthread hself
  · rw [heq] at hblocked
    exact notifyAll_threads_ne s cv t' hblocked

/-- A thread is stranded by a call that makes its condition true and does not
    notify its variable, or was stranded before. -/
theorem Step.stranded (h : Step s (t, a) s') (hs' : Stranded s' cv) :
    Stranded s cv ∨ ∃ c, a = .call c ∧ (s.enter c).2 ≠ .notifying cv ∧ s.ready cv = false ∧
      (s.enter c).1.ready cv = true ∧ s'.ready cv = true ∧ ∃ t', s.threads t' = .blocked cv := by
  have hready := hs'.2.1
  cases h with
  | call c ht =>
    have heffect := enter_effect s c
    have hthread : (s.enter c).2 ≠ .blocked cv := by
      intro heq
      rw [heq] at heffect
      rw [ready_setThread, heffect.not_ready_of_blocked] at hready
      exact absurd hready (by decide)
    have hself := hs'.2.2 t
    rw [threads_setThread_self] at hself
    -- The other threads are as they were, and this one had nothing to notify.
    obtain ⟨hblocked, hentered, hnone⟩ :=
      hs'.of_setThread hthread (by rw [heffect.threads_eq, ht]; simp)
    rw [heffect.threads_eq] at hblocked hnone
    cases hold : s.ready cv with
    | true => exact .inl ⟨hblocked, hold, hnone⟩
    | false => exact .inr ⟨c, rfl, hself, rfl, hentered, hready, hblocked⟩
  | @notify _ cv' ht =>
    left
    have hcv := ne_of_stranded_notify hs' (by simp)
    apply Stranded.of_notifyAll
    apply hs'.of_setThread
    · simp
    · simp only [State.notifyAll, ht]
      simpa using hcv
  | wakeUp ht =>
    left
    apply hs'.of_setThread
    · simp
    · rw [ht]
      simp
  | @recheck _ cv' ht =>
    left
    rw [ready_setThread] at hready
    apply hs'.of_setThread
    · intro heq
      by_cases hcv : s.ready cv' = true
      · simp [hcv] at heq
      · simp only [hcv, Bool.false_eq_true, if_false, Thread.blocked.injEq] at heq
        rw [heq] at hcv
        exact hcv hready
    · rw [ht]
      simp

/-! ### Waiting for work -/

omit [DecidableEq ι] in
/-- A call that brings work, or raises the flag, goes on to notify. -/
theorem Effect.notifies_work {thread : Thread} (h : Effect s c s' thread)
    (hs : s.ready .newWorkAvailable = false) (hs' : s'.ready .newWorkAvailable = true) :
    thread = .notifying .newWorkAvailable := by
  cases h with
  | extract found =>
    have hnil : s.work = [] := by
      simp only [State.ready, Bool.or_eq_false_iff, Bool.not_eq_false', List.isEmpty_iff] at hs
      exact hs.1
    rw [hnil] at found
    simp at found
  | full call => simp [hs] at hs'
  | noExtract failed => simp [hs] at hs'
  | wait call => simp [hs] at hs'
  | _ => rfl

theorem not_stranded_work (h : Reachable (sharedQueue α ι) s) :
    ¬ Stranded s .newWorkAvailable := by
  apply h.invariant (I := fun s => ¬ Stranded s .newWorkAvailable)
  · intro s hs
    have hstart : s = State.start := hs
    rw [hstart]
    exact not_stranded_start _
  · intro s a s' _ hs hstep hstranded
    rcases Step.stranded hstep hstranded with hold | ⟨c, _, hnot, hbefore, hentered, _, _⟩
    · exact hs hold
    · exact hnot ((enter_effect s c).notifies_work hbefore hentered)

/-- Whenever a thread is blocked in `wait_work` while there is work or the
    flag is raised, some thread is still to notify it. -/
theorem blocked_worker_is_notified (h : Reachable (sharedQueue α ι) s)
    (hblocked : s.threads t = .blocked .newWorkAvailable)
    (hready : s.work ≠ [] ∨ s.skipWaiting = true) :
    ∃ t', s.threads t' = .notifying .newWorkAvailable := by
  by_contra hnone
  apply not_stranded_work h
  refine ⟨⟨t, hblocked⟩, ?_, not_exists.mp hnone⟩
  rcases hready with hwork | hskip
  · simp [State.ready, hwork]
  · simp [State.ready, hskip]

/-- Thread 0 is blocked, thread 1 has inserted something and is still to
    notify it. -/
theorem blocked_worker_is_notified_insert : ∃ s : State Nat (Fin 2),
    Reachable (sharedQueue Nat (Fin 2)) s ∧ s.threads 0 = .blocked .newWorkAvailable ∧
    s.work = [7] ∧ ∃ t', s.threads t' = .notifying .newWorkAvailable := by
  have hwait := (Reachable.init (S := sharedQueue Nat (Fin 2)) rfl).step
    (.call (t := 0) .waitWork rfl)
  have hinsert := hwait.step (.call (t := 1) (.insert 7) rfl)
  exact ⟨_, hinsert, rfl, rfl, blocked_worker_is_notified hinsert (t := 0) rfl (.inl (by decide))⟩

/-! ### Waiting for an empty queue -/

/-- A mutation that empties the queue, or raises the flag, finds nobody
    blocked in `wait_empty`. -/
def Considerate (s : State α ι) (a : ι × Action α) (s' : State α ι) : Prop :=
  ∀ c, a.2 = .call c → (∃ mutation, c = .mutate mutation) ∨ c = .beginSkipWaiting →
    s.ready .allWorkDispatched = false → s'.ready .allWorkDispatched = true →
      ∀ t, s.threads t ≠ .blocked .allWorkDispatched

omit [DecidableEq ι] in
/-- Of the calls that can empty the queue only `try_extract` goes on to
    notify those who wait for it. -/
theorem Effect.notifies_empty {thread : Thread} (h : Effect s c s' thread)
    (hs : s.ready .allWorkDispatched = false) (hs' : s'.ready .allWorkDispatched = true) :
    thread = .notifying .allWorkDispatched ∨ (∃ mutation, c = .mutate mutation) ∨
      c = .beginSkipWaiting := by
  have hskip : s.skipWaiting = false := by
    simp only [State.ready, Bool.or_eq_false_iff] at hs
    exact hs.2
  cases h with
  | push call => simp [State.ready, hskip] at hs'
  | extract found =>
    simp only [State.ready, hskip, Bool.or_false] at hs'
    left
    rw [if_pos hs']
  | mutate mutation => exact .inr (.inl ⟨mutation, rfl⟩)
  | beginSkipWaiting => exact .inr (.inr rfl)
  | _ => simp [hs] at hs'

theorem not_stranded_empty (h : Reachable ((sharedQueue α ι).restrict Considerate) s) :
    ¬ Stranded s .allWorkDispatched := by
  apply h.invariant (I := fun s => ¬ Stranded s .allWorkDispatched)
  · intro s hs
    have hstart : s = State.start := hs
    rw [hstart]
    exact not_stranded_start _
  · intro s a s' _ hs hstep hstranded
    obtain ⟨hstep, hconsiderate⟩ := hstep
    rcases Step.stranded hstep hstranded with
      hold | ⟨c, hcall, hnot, hbefore, hentered, hafter, t, ht⟩
    · exact hs hold
    · rcases (enter_effect s c).notifies_empty hbefore hentered with hnotifies | hother
      · exact hnot hnotifies
      · exact hconsiderate c hcall hother hbefore hafter t ht

/-- In a run in which no mutation empties the queue and nobody raises the
    flag while a thread is blocked in `wait_empty`: whenever a thread is
    blocked there while the queue is empty or the flag is raised, some thread
    is still to notify it. -/
theorem blocked_for_empty_is_notified
    (h : Reachable ((sharedQueue α ι).restrict Considerate) s)
    (hblocked : s.threads t = .blocked .allWorkDispatched)
    (hready : s.work = [] ∨ s.skipWaiting = true) :
    ∃ t', s.threads t' = .notifying .allWorkDispatched := by
  by_contra hnone
  apply not_stranded_empty h
  refine ⟨⟨t, hblocked⟩, ?_, not_exists.mp hnone⟩
  rcases hready with hwork | hskip
  · simp [State.ready, hwork]
  · simp [State.ready, hskip]

omit [DecidableEq ι] in
/-- Most calls are not the ones in question. -/
theorem considerate_of_call (hmutate : ∀ mutation, c ≠ .mutate mutation)
    (hskip : c ≠ .beginSkipWaiting) : Considerate s (t, .call c) s' := by
  intro c' hc hother
  injection hc with hc
  rw [← hc] at hother
  rcases hother with ⟨mutation, heq⟩ | heq
  · exact absurd heq (hmutate mutation)
  · exact absurd heq hskip

/-- Thread 1 is blocked until thread 0 has extracted the only item. -/
theorem blocked_for_empty_is_notified_extract : ∃ s : State Nat (Fin 2),
    Reachable ((sharedQueue Nat (Fin 2)).restrict Considerate) s ∧
    s.threads 1 = .blocked .allWorkDispatched ∧ s.work = [] ∧
    ∃ t', s.threads t' = .notifying .allWorkDispatched := by
  have hinsert := (Reachable.init (S := (sharedQueue Nat (Fin 2)).restrict Considerate) rfl).step
    ⟨.call (t := 0) (.insert 7) rfl, considerate_of_call (by simp) (by simp)⟩
  have hnotify := hinsert.step ⟨.notify (t := 0) rfl, by simp [Considerate]⟩
  have hwait := hnotify.step ⟨.call (t := 1) .waitEmpty rfl,
    considerate_of_call (by simp) (by simp)⟩
  have hextract := hwait.step ⟨.call (t := 0) (.tryExtract lifoPolicy) rfl,
    considerate_of_call (by simp) (by simp)⟩
  exact ⟨_, hextract, rfl, rfl, blocked_for_empty_is_notified hextract (t := 1) rfl (.inl rfl)⟩

/-- Thread 1 is blocked until the queue is empty. Thread 0 removes the only
    item with `mutate`, or calls `begin_skip_waiting`, and notifies; thread 1
    sleeps on. -/
theorem blocked_for_empty_sleeps_on :
    (∃ s : State Nat (Fin 2), Reachable (sharedQueue Nat (Fin 2)) s ∧
      s.threads 1 = .blocked .allWorkDispatched ∧ s.work = [] ∧
      ∀ t, s.threads t ≠ .notifying .allWorkDispatched) ∧
    ∃ s : State Nat (Fin 2), Reachable (sharedQueue Nat (Fin 2)) s ∧
      s.threads 1 = .blocked .allWorkDispatched ∧ s.skipWaiting = true ∧
      ∀ t, s.threads t ≠ .notifying .allWorkDispatched := by
  have hinsert := (Reachable.init (S := sharedQueue Nat (Fin 2)) rfl).step
    (.call (t := 0) (.insert 7) rfl)
  have hnotify := hinsert.step (.notify (t := 0) rfl)
  have hwait := hnotify.step (.call (t := 1) .waitEmpty rfl)
  have hmutate := hwait.step (step_mutate (t := 0) (fun _ _ => true) rfl)
  have hskip := hwait.step (.call (t := 0) .beginSkipWaiting rfl)
  exact ⟨⟨_, hmutate.step (.notify (t := 0) rfl), rfl, rfl, by decide⟩,
    ⟨_, hskip.step (.notify (t := 0) rfl), rfl, rfl, by decide⟩⟩

/-! ### Threads that never wait for an empty queue -/

/-- Nobody is in `wait_empty`. -/
def NobodyWaitsForEmpty (s : State α ι) : Prop :=
  ∀ t, s.threads t ≠ .blocked .allWorkDispatched ∧ s.threads t ≠ .woken .allWorkDispatched

theorem NobodyWaitsForEmpty.setThread (h : NobodyWaitsForEmpty s) {thread : Thread}
    (hthread : thread ≠ .blocked .allWorkDispatched ∧ thread ≠ .woken .allWorkDispatched) :
    NobodyWaitsForEmpty (s.setThread t thread) := by
  intro t'
  by_cases ht : t' = t
  · rw [ht, threads_setThread_self]
    exact hthread
  · rw [threads_setThread_of_ne _ _ ht]
    exact h t'

omit [DecidableEq ι] in
theorem NobodyWaitsForEmpty.notifyAll (h : NobodyWaitsForEmpty s) (cv : Condition) :
    NobodyWaitsForEmpty (s.notifyAll cv) := by
  intro t
  by_cases hblocked : s.threads t = .blocked cv
  · have hcv : cv ≠ .allWorkDispatched := by
      rintro rfl
      exact (h t).1 hblocked
    simp [State.notifyAll, hblocked, hcv]
  · rw [threads_notifyAll_of_ne hblocked]
    exact h t

/-- The only way to wait there is to call `wait_empty`. -/
theorem Step.nobodyWaitsForEmpty {a : Action α} (hstep : Step s (t, a) s')
    (ha : a ≠ .call .waitEmpty) (h : NobodyWaitsForEmpty s) : NobodyWaitsForEmpty s' := by
  cases hstep with
  | call c ht =>
    have heffect := enter_effect s c
    have hentered : NobodyWaitsForEmpty (s.enter c).1 := by
      intro t'
      rw [heffect.threads_eq]
      exact h t'
    refine hentered.setThread ?_
    generalize (s.enter c).1 = s₁ at heffect
    generalize (s.enter c).2 = thread at heffect
    cases heffect with
    | extract found => split <;> simp
    | noExtract failed => split <;> simp
    | wait call =>
      rcases call with ⟨_, rfl⟩ | ⟨rfl, _⟩
      · split <;> simp
      · exact absurd rfl ha
    | _ => simp
  | notify ht => exact (h.notifyAll _).setThread (by simp)
  | @wakeUp _ cv ht =>
    refine h.setThread ?_
    have hcv : cv ≠ .allWorkDispatched := by
      rintro rfl
      exact (h t).1 ht
    simp [hcv]
  | @recheck _ cv ht =>
    refine h.setThread ?_
    have hcv : cv ≠ .allWorkDispatched := by
      rintro rfl
      exact (h t).2 ht
    split <;> simp [hcv]

end Furrent.Mt
