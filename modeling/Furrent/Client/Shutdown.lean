import Mathlib.Algebra.Order.BigOperators.Group.Finset
import Furrent.Client.Program

/-! # Destroying the client

    `~Furrent` raises the flag of the queue and then that of the thread
    group, and joins the workers. No worker can sleep through this: one that
    waits for work is woken up by the notification of `begin_skip_waiting`,
    does not wait again, and leaves the loop when it next asks whether it is
    alive. So once both flags are up every step brings the end nearer, with
    one exception: a worker that has a task retries it with one peer after
    the other until the piece is saved, and does not look at the flag while
    it does. The destructor waits for it for as long as that takes, which
    may be forever. -/

namespace Furrent.Client

open Cpp Platform Policy Transition

variable {n m : Nat} {W : Type} {env : Peer → Download.Env W} {fuel : Nat} {p p' : Program n m}
  {t t' : Agent n m} {i : Fin n}

/-! ### How far the destructor has got -/

/-- What the phase says about the queue and the group. -/
structure Program.Phased (p : Program n m) : Prop where
  flag : p.group.shouldTerminate = true ↔ p.phase = .terminating ∨ p.phase = .destroyed
  skips : p.phase ≠ .running → p.queue.skipWaiting = true ∧ p.Quiescent
  outside : p.phase ≠ .skipping → p.Outside .owner
  notifies : p.phase = .skipping →
    p.queue.threads .owner = .notifying .newWorkAvailable ∨ p.Outside .owner
  joins : p.phase = .terminating → p.group.owner = .idle ∨ ∃ k, p.group.owner = .joining k false
  destroyed : p.phase = .destroyed → p.group.owner = .destroyed

/-- The threads that are in no call of the queue, other than the one that
    takes the step, stay outside. -/
theorem ProgramStep.outside (h : ProgramStep env fuel p t p') (hne : t' ≠ t)
    (ht' : p.Outside t') : p'.Outside t' := by
  have hperform : ∀ c, (p.queue.perform t c).threads t' = .outside := by
    intro c
    rw [Mt.threads_perform_of_ne _ _ hne]
    exact ht'
  cases h with
  | extract => exact hperform _
  | miss => exact hperform _
  | waitWork => exact hperform _
  | requeue => exact hperform _
  | queueStep inside step => exact step.outside inside ht'
  | emplace => exact hperform _
  | finish => exact hperform _
  | purge => exact hperform _
  | beginSkipWaiting => exact hperform _
  | _ => exact ht'

theorem Step.callers_of_worker {s s' : State n m} (h : Step env fuel s (.worker i) s') :
    s'.adder = s.adder ∧ s'.removers = s.removers := by
  cases h <;> exact ⟨rfl, rfl⟩

theorem ProgramStep.skipWaiting (h : ProgramStep env fuel p t p')
    (hskip : p.queue.skipWaiting = true) : p'.queue.skipWaiting = true := by
  rcases h.queue with hsame | ⟨_, a, hstep, _⟩
  · rw [hsame]
    exact hskip
  · exact hstep.skipWaiting hskip

/-- Once nobody calls the object any more, nobody begins to. -/
theorem ProgramStep.quiescent (h : ProgramStep env fuel p t p') (hphase : p.phase ≠ .running)
    (hp : p.Quiescent) : p'.Quiescent := by
  -- The steps of the workers and of the owner leave the callers alone.
  have hsame : p'.client.adder = p.client.adder → p'.client.removers = p.client.removers →
      t ≠ .adder → (∀ j, t ≠ .remover j) → p'.Quiescent := by
    intro hadder hremovers ht htj
    refine ⟨hadder.trans hp.adder, ?_, h.outside ht.symm hp.adderOutside,
      fun j => h.outside (htj j).symm (hp.removersOutside j)⟩
    rw [hremovers]
    exact hp.removers
  have hworker : ∀ {i client}, Step env fuel p.client (.worker i) client →
      client.adder = p.client.adder ∧ client.removers = p.client.removers :=
    fun hstep => hstep.callers_of_worker
  cases h with
  | extract _ _ _ step => exact hsame (hworker step).1 (hworker step).2 (by simp) (by simp)
  | handle _ _ _ step => exact hsame (hworker step).1 (hworker step).2 (by simp) (by simp)
  | requeue _ _ _ _ step => exact hsame (hworker step).1 (hworker step).2 (by simp) (by simp)
  | queueStep inside step =>
    exact ⟨hp.adder, hp.removers, step.outside inside hp.adderOutside,
      fun j => step.outside inside (hp.removersOutside j)⟩
  | add running => exact absurd running hphase
  | emplace _ emplacing => simp [hp.adder] at emplacing
  | finish _ emplacing => simp [hp.adder] at emplacing
  | purge running => exact absurd running hphase
  | remove _ called => exact absurd (hp.removers _) called
  | store running => exact absurd running hphase
  | _ => exact hsame rfl rfl (by simp) (by simp)

/-- A step of a worker or of a caller. -/
theorem Program.Phased.others (h : p.Phased) (hphase : p'.phase = p.phase)
    (hflag : p'.group.shouldTerminate = p.group.shouldTerminate)
    (howner : p'.group.owner = p.group.owner)
    (hthread : p'.queue.threads .owner = p.queue.threads .owner ∨ p'.Outside .owner)
    (hskips : p.phase ≠ .running → p'.queue.skipWaiting = true ∧ p'.Quiescent) : p'.Phased := by
  constructor
  · rw [hflag, hphase]
    exact h.flag
  · rw [hphase]
    exact hskips
  · rw [hphase]
    intro hnot
    rcases hthread with hsame | hout
    · exact hsame.trans (h.outside hnot)
    · exact hout
  · rw [hphase]
    intro hskipping
    rcases hthread with hsame | hout
    · rw [Program.Outside, hsame]
      exact h.notifies hskipping
    · exact .inr hout
  · rw [hphase, howner]
    exact h.joins
  · rw [hphase, howner]
    exact h.destroyed

theorem phased_start (files : FileSystem) : (Program.start files : Program n m).Phased := by
  have hflag : (Mt.Group.start.launch n).shouldTerminate = false := by
    simp [Mt.Group.launch, Mt.Group.Resizable, Mt.Group.start]
  refine ⟨?_, ?_, ?_, ?_, ?_, ?_⟩
  · simp [Program.start, hflag]
  · intro hne
    exact absurd rfl hne
  · intro _
    rfl
  · intro hskipping
    cases hskipping
  · intro hterminating
    cases hterminating
  · intro hdestroyed
    cases hdestroyed

theorem ProgramStep.phased (h : ProgramStep env fuel p t p') (hp : p.Phased)
    (hgroup : p.group.Orderly) : p'.Phased := by
  have hskips : p.phase ≠ .running → p'.queue.skipWaiting = true ∧ p'.Quiescent :=
    fun hphase => ⟨h.skipWaiting (hp.skips hphase).1, h.quiescent hphase (hp.skips hphase).2⟩
  have hperform : ∀ {t c}, t ≠ .owner →
      (p.queue.perform t c).threads .owner = p.queue.threads .owner :=
    fun ht => Mt.threads_perform_of_ne _ _ ht.symm
  cases h with
  | leaveLoop _ _ _ exit =>
    exact hp.others rfl (Mt.flag_of_join exit (.inr (.inr ⟨_, rfl⟩))) (Mt.owner_of_exit exit)
      (.inl rfl) hskips
  | extract => exact hp.others rfl rfl rfl (.inl (hperform (by simp))) hskips
  | miss => exact hp.others rfl rfl rfl (.inl (hperform (by simp))) hskips
  | waitWork => exact hp.others rfl rfl rfl (.inl (hperform (by simp))) hskips
  | requeue => exact hp.others rfl rfl rfl (.inl (hperform (by simp))) hskips
  | @queueStep t a queue inside step =>
    -- The notification of the owner is a step of its own.
    by_cases hphase : p.phase = .skipping
    · refine hp.others rfl rfl rfl ?_ hskips
      rcases hp.notifies hphase with hnotifying | hout
      · exact step.settled inside (by simp [hnotifying])
      · exact .inr (step.outside inside hout)
    · exact hp.others rfl rfl rfl (.inr (step.outside inside (hp.outside hphase))) hskips
  | emplace => exact hp.others rfl rfl rfl (.inl (hperform (by simp))) hskips
  | finish => exact hp.others rfl rfl rfl (.inl (hperform (by simp))) hskips
  | purge => exact hp.others rfl rfl rfl (.inl (hperform (by simp))) hskips
  | beginSkipWaiting running outside quiescent =>
    have hflag : ¬ p.group.shouldTerminate = true := by
      rw [hp.flag, running]
      simp
    refine ⟨by simpa using hflag, ?_, by simp, ?_, by simp, by simp⟩
    · intro _
      have hothers : ∀ t, t ≠ .owner → p.Outside t →
          (p.queue.perform .owner .beginSkipWaiting).threads t = .outside := by
        intro t ht hout
        rw [Mt.threads_perform_of_ne _ _ ht]
        exact hout
      exact ⟨rfl, quiescent.adder, quiescent.removers,
        hothers _ (by simp) quiescent.adderOutside,
        fun j => hothers _ (by simp) (quiescent.removersOutside j)⟩
    · intro _
      exact .inl (Mt.threads_perform_self ..)
  | @terminate group skipping outside step =>
    refine ⟨?_, ?_, fun _ => outside, by simp, ?_, by simp⟩
    · simpa using Mt.flag_of_terminate step (.inl rfl)
    · exact fun _ => hskips (by simp [skipping])
    · intro _
      cases step with
      | terminate idle => exact .inr ⟨0, rfl⟩
  | @join group a terminating loop step =>
    refine ⟨?_, hskips, hp.outside, hp.notifies, ?_, by simp [terminating]⟩
    · show group.shouldTerminate = true ↔ _
      rw [Mt.flag_of_join step (by rcases loop with rfl | rfl <;> simp)]
      exact hp.flag
    · intro _
      cases step with
      | join joining exited =>
        obtain hidle | ⟨k, hjoining⟩ := hp.joins terminating
        · simp [hidle] at joining
        · rw [hjoining] at joining
          injection joining with _ hlast
          exact .inr ⟨_, by rw [hlast]⟩
      | joinAgain joining joined =>
        -- No thread is joined twice.
        obtain ⟨_, hupTo⟩ := hgroup.joining _ _ joining
        exact absurd ((hupTo.joined_iff _ _ joined).mp rfl) (lt_irrefl _)
      | finish joining =>
        obtain hidle | ⟨k, hjoining⟩ := hp.joins terminating
        · simp [hidle] at joining
        · rw [hjoining] at joining
          injection joining with _ hlast
          exact .inl (by rw [← hlast]; rfl)
      | _ => simp at loop
  | @destroy group terminating step =>
    refine ⟨?_, ?_, fun _ => hp.outside (by simp [terminating]), by simp, by simp, ?_⟩
    · simpa using Mt.flag_of_terminate step (.inr rfl)
    · exact fun _ => hskips (by simp [terminating])
    · intro _
      have hflag : p.group.shouldTerminate = true := hp.flag.mpr (.inl terminating)
      cases step with
      | destroy idle =>
        show (if p.group.shouldTerminate = true then p.group.dispose else _) = .destroyed
        rw [if_pos hflag, Mt.Group.dispose_of_joined (hgroup.joined hflag (.inl idle))]
  | _ => exact hp.others rfl rfl rfl (.inl rfl) hskips

/-- The group is terminated once. -/
theorem ProgramStep.orderly (h : ProgramStep env fuel p t p') (hp : p.Phased)
    (hgroup : p.group.Orderly) : p'.group.Orderly := by
  rcases h.group with hsame | ⟨a, hstep, hlaunch, hterminate⟩
  · rw [hsame]
    exact hgroup
  · refine hstep.orderly ⟨fun size ha => absurd ha (hlaunch size), ?_⟩ hgroup
    intro ha
    by_contra hflag
    have hphase := hp.flag.mp (by simpa using hflag)
    simp [hterminate ha] at hphase

theorem phased_of_reachable (h : Reachable (program env fuel n m) p) :
    p.Phased ∧ p.group.Orderly := by
  apply h.invariant (I := fun p => p.Phased ∧ p.group.Orderly)
  · intro p hp
    obtain ⟨files, rfl⟩ := hp
    exact ⟨phased_start files, Mt.orderly_start.launch rfl rfl n⟩
  · intro p t p' _ hp hstep
    exact ⟨hstep.phased hp.1 hp.2, hstep.orderly hp.1 hp.2⟩

/-- When the members are destroyed all threads have been joined. -/
theorem joined_of_destroyed (h : Reachable (program env fuel n m) p)
    (hdestroyed : p.phase = .destroyed) : ∀ t ∈ p.group.threads, t = .joined := by
  obtain ⟨hp, hgroup⟩ := phased_of_reachable h
  exact hgroup.joined (hp.flag.mpr (.inr hdestroyed)) (.inr (hp.destroyed hdestroyed))

/-! ### What is left to do -/

/-- How many steps a worker with a task can take before it is done with it,
    if it does not fail. -/
def Worker.rank : Worker → Nat
  | .idle => 0
  | .extracted _ => 5
  | .paused _ => 4
  | .working _ _ => 4
  | .succeeded _ _ => 3
  | .counted _ _ => 2

/-- The same up to the end of the loop. -/
def Position.rank : Position → Worker → Nat
  | .head, _ => 1
  | .alive, _ => 7
  | .missed, _ => 2
  | .busy, w => w.rank
  | .exited, _ => 0

/-- How many steps a thread can take in the queue when nobody waits any
    more. -/
def threadRank : Mt.Thread → Nat
  | .outside => 0
  | .notifying _ => 1
  | .woken _ => 1
  | .blocked _ => 2

/-- How many steps the owner of `n` threads can take. -/
def ownerRank (n : Nat) : Mt.Owner → Nat
  | .joining k _ => n - k + 2
  | .idle => 1
  | _ => 0

theorem ownerRank_dispose (n : Nat) (g : Mt.Group) : ownerRank n g.dispose = 0 := by
  unfold Mt.Group.dispose
  by_cases hall : ∀ t ∈ g.threads, t = .joined
  · rw [if_pos hall]
    rfl
  · rw [if_neg hall]
    rfl

namespace Program

def workerRank (p : Program n m) (i : Fin n) : Nat :=
  (p.positions i).rank (p.client.workers i) + threadRank (p.queue.threads (.worker i))

def destructorRank (p : Program n m) : Nat :=
  if p.phase = .destroyed then 0 else ownerRank n p.group.owner

/-- How many steps there are to the end of the destructor, if no attempt at a
    piece fails. -/
def rank (p : Program n m) : Nat := ∑ i, p.workerRank i + p.destructorRank

theorem rank_lt_of_worker (hi : p'.workerRank i < p.workerRank i)
    (hothers : ∀ j, j ≠ i → p'.workerRank j ≤ p.workerRank j)
    (howner : p'.destructorRank = p.destructorRank) : p'.rank < p.rank := by
  have hle : ∀ j ∈ Finset.univ, p'.workerRank j ≤ p.workerRank j := by
    intro j _
    by_cases hj : j = i
    · rw [hj]
      exact hi.le
    · exact hothers j hj
  have hlt := Finset.sum_lt_sum hle ⟨i, Finset.mem_univ i, hi⟩
  unfold rank
  omega

theorem rank_eq (hworkers : ∀ i, p'.workerRank i = p.workerRank i)
    (howner : p'.destructorRank = p.destructorRank) : p'.rank = p.rank := by
  rw [rank, rank, howner, Finset.sum_congr rfl fun i _ => hworkers i]

/-- A worker stays where it is, as far as the rank goes. -/
theorem rank_eq_of_stay {position : Position} {client : State n m}
    (hothers : ∀ j, j ≠ i → client.workers j = p.client.workers j)
    (hself : position.rank (client.workers i) = (p.positions i).rank (p.client.workers i)) :
    rank { p.setPosition i position with client := client } = p.rank := by
  apply rank_eq
  · intro j
    show (Function.update p.positions i position j).rank (client.workers j) + _ = p.workerRank j
    by_cases hj : j = i
    · rw [hj, Function.update_self, hself]
      rfl
    · rw [Function.update_of_ne hj, hothers j hj]
      rfl
  · rfl

/-- A worker goes from one position to the next. -/
theorem rank_lt_of_move {position : Position} {client : State n m}
    {queue : Mt.State PieceTask (Agent n m)} {group : Mt.Group}
    (hothers : ∀ j, j ≠ i → client.workers j = p.client.workers j)
    (hthreads : ∀ j, j ≠ i → queue.threads (.worker j) = p.queue.threads (.worker j))
    (howner : group.owner = p.group.owner)
    (hlt : position.rank (client.workers i) + threadRank (queue.threads (.worker i))
      < p.workerRank i) :
    rank { p.setPosition i position with client := client, queue := queue, group := group }
      < p.rank := by
  apply rank_lt_of_worker (i := i)
  · show (Function.update p.positions i position i).rank (client.workers i) + _ < _
    rw [Function.update_self]
    exact hlt
  · intro j hj
    show (Function.update p.positions i position j).rank (client.workers j)
      + threadRank (queue.threads (.worker j)) ≤ p.workerRank j
    rw [Function.update_of_ne hj, hothers j hj, hthreads j hj]
    exact le_refl _
  · show (if p.phase = .destroyed then 0 else ownerRank n group.owner) = _
    rw [howner]
    rfl

theorem workerRank_le (p : Program n m) (i : Fin n) : p.workerRank i ≤ 9 := by
  have hposition : (p.positions i).rank (p.client.workers i) ≤ 7 := by
    unfold Position.rank
    split
    case h_4 => unfold Worker.rank; split <;> omega
    all_goals omega
  have hthread : threadRank (p.queue.threads (.worker i)) ≤ 2 := by
    unfold threadRank
    split <;> omega
  unfold workerRank
  omega

theorem rank_le (p : Program n m) : p.rank ≤ 10 * n + 2 := by
  have hworkers : ∑ i, p.workerRank i ≤ n * 9 := by
    simpa using Finset.sum_le_card_nsmul Finset.univ p.workerRank 9 fun i _ => p.workerRank_le i
  have howner : p.destructorRank ≤ n + 2 := by
    unfold destructorRank ownerRank
    split
    · omega
    · split <;> omega
  unfold rank
  omega

end Program

/-- An attempt at a piece has failed, and the worker tries again. -/
def FailedAttempt (p : Program n m) (t : Agent n m) (p' : Program n m) : Prop :=
  ∃ i task task' peers, t = .worker i ∧ p.client.workers i = .working task peers ∧
    p'.client.workers i = .working task' peers

/-- With its task a worker gets ahead, unless an attempt fails. -/
theorem Step.rank {s s' : State n m} (h : Step env fuel s (.worker i) s')
    (hbusy : s.workers i ≠ .idle) (hpaused : ∀ task, s.workers i ≠ .paused task) :
    (∃ task task' peers, s.workers i = .working task peers ∧
      s'.workers i = .working task' peers) ∨
    (if s'.workers i = .idle then 1 else (s'.workers i).rank) < (s.workers i).rank := by
  cases h with
  | extract hi htask => exact absurd hi hbusy
  | requeue hi => exact absurd hi (hpaused _)
  | findPaused hi hlock hstate => simp [hi, Worker.rank]
  | work hi hlock hstate => simp [hi, Worker.rank]
  | fail hi hpeer hprocess => exact .inl ⟨_, _, _, hi, State.workers_setWorker_self ..⟩
  | succeed hi hpeer hprocess => simp [hi, Worker.rank]
  | count hi hlock => simp [hi, Worker.rank]
  | complete hi hlast => simp [hi, Worker.rank]
  | next hi hmore => simp [hi, Worker.rank]

/-- In the queue a thread gets ahead when nobody has to wait any more. -/
theorem threadRank_of_step {ι : Type} [DecidableEq ι] {q q' : Mt.State PieceTask ι} {t : ι}
    {a : Mt.Action PieceTask} (h : Mt.Step q (t, a) q') (ha : ∀ c, a ≠ .call c)
    (hskip : q.skipWaiting = true) :
    threadRank (q'.threads t) < threadRank (q.threads t) ∧
      ∀ t', t' ≠ t → threadRank (q'.threads t') ≤ threadRank (q.threads t') := by
  cases h with
  | call c _ => exact absurd rfl (ha c)
  | @notify _ cv ht =>
    refine ⟨by simp [ht, threadRank], ?_⟩
    intro t' hne
    rw [Mt.threads_setThread_of_ne _ _ hne]
    by_cases hblocked : q.threads t' = .blocked cv
    · simp [Mt.State.notifyAll, hblocked, threadRank]
    · rw [Mt.threads_notifyAll_of_ne hblocked]
  | wakeUp ht =>
    refine ⟨by simp [ht, threadRank], ?_⟩
    intro t' hne
    rw [Mt.threads_setThread_of_ne _ _ hne]
  | @recheck _ cv ht =>
    have hready : q.ready cv = true := by
      cases cv <;> simp [Mt.State.ready, hskip]
    refine ⟨by simp [ht, hready, threadRank], ?_⟩
    intro t' hne
    rw [Mt.threads_setThread_of_ne _ _ hne]

theorem Program.rank_lt_of_queueStep {a : Mt.Action PieceTask}
    {queue : Mt.State PieceTask (Agent n m)} (step : Mt.Step p.queue (.worker i, a) queue)
    (inside : ∀ c, a ≠ .call c) (hskip : p.queue.skipWaiting = true) :
    Program.rank { p with queue := queue } < p.rank := by
  obtain ⟨hself, hothers⟩ := threadRank_of_step step inside hskip
  refine Program.rank_lt_of_worker (i := i) ?_ ?_ rfl
  · exact Nat.add_lt_add_left hself _
  · intro j hj
    exact Nat.add_le_add_left (hothers _ (by simp [hj])) _

/-- A call leaves the thread with a notification at most. -/
theorem threadRank_enter {ι : Type} {q : Mt.State PieceTask ι} (hskip : q.skipWaiting = true)
    (c : Mt.Call PieceTask) : threadRank (q.enter c).2 ≤ 1 := by
  have heffect := Mt.enter_effect q c
  generalize (q.enter c).1 = q₁, (q.enter c).2 = thread at heffect
  cases heffect with
  | extract found => split <;> simp [threadRank]
  | noExtract failed => split <;> simp [threadRank]
  | @wait c cv call =>
    have hready : q.ready cv = true := by
      cases cv <;> simp [Mt.State.ready, hskip]
    simp [hready, threadRank]
  | _ => simp [threadRank]

/-- The loop of `terminate` gets ahead. -/
theorem ownerRank_of_join {g g' : Mt.Group} {a : Mt.GroupAction} (h : Mt.GroupStep g a g')
    (loop : a = .join ∨ a = .finish) (hlength : g.threads.length = n) :
    ownerRank n g'.owner < ownerRank n g.owner := by
  cases h with
  | @join k last joining exited =>
    have hk : k < n := by
      rw [← hlength]
      exact (List.getElem?_eq_some_iff.mp exited).1
    rw [joining]
    simp only [ownerRank]
    omega
  | joinAgain joining joined => simp [joining, ownerRank]
  | @finish last joining =>
    rw [joining]
    show ownerRank n (if last = true then g.dispose else .idle) < n - _ + 2
    have hle : ownerRank n (if last = true then g.dispose else .idle) ≤ 1 := by
      cases last with
      | false => simp [ownerRank]
      | true => simp [ownerRank_dispose]
    omega
  | _ => simp at loop

/-- Once the flag of the group is up, every step brings the end of the
    destructor nearer, but for attempts that fail. -/
theorem ProgramStep.rank (h : ProgramStep env fuel p t p') (hlinked : p.Linked) (hp : p.Phased)
    (hflag : p.group.shouldTerminate = true) :
    FailedAttempt p t p' ∧ p'.rank = p.rank ∨ p'.rank < p.rank := by
  have hphase := hp.flag.mp hflag
  obtain ⟨hskip, hquiescent⟩ := hp.skips (by rcases hphase with h | h <;> simp [h])
  have hout : ∀ {i : Fin n}, p.Outside (.worker i) →
      p.workerRank i = (p.positions i).rank (p.client.workers i) := by
    intro i hi
    rw [Program.workerRank, show p.queue.threads (.worker i) = .outside from hi]
    rfl
  have hperform : ∀ {i : Fin n} {c j}, j ≠ i →
      (p.queue.perform (.worker i) c).threads (.worker j) = p.queue.threads (.worker j) :=
    fun hj => Mt.threads_perform_of_ne _ _ (by simp [hj])
  have henter : ∀ {i : Fin n} {c},
      threadRank ((p.queue.perform (.worker i) c).threads (.worker i)) ≤ 1 := by
    intro i c
    rw [Mt.threads_perform_self]
    exact threadRank_enter hskip c
  cases h with
  | checkAlive _ _ flag => simp [hflag] at flag
  | @leaveLoop i group position outside flag exit =>
    right
    refine Program.rank_lt_of_move (fun _ _ => rfl) (fun _ _ => rfl) (Mt.owner_of_exit exit) ?_
    rw [hout outside, position, Program.queue_setPosition,
      show p.queue.threads (.worker i) = .outside from outside]
    simp [Position.rank, threadRank]
  | @extract i task tasks client position outside extracted step =>
    right
    refine Program.rank_lt_of_move (fun j hj => step.workers_of_ne (by simp [Ne.symm hj]))
      (fun j hj => hperform hj) rfl ?_
    have hidle : p.client.workers i = .idle := by
      by_contra hne
      have hbusy := (hlinked.busy i).mpr hne
      simp [position] at hbusy
    obtain ⟨task', tasks', _, hclient⟩ := step.extract_of_idle hidle
    have hle := henter (i := i) (c := .tryExtract lifoPolicy)
    rw [hout outside, position, hclient, State.workers_setWorker_self]
    simp only [Position.rank, Worker.rank]
    omega
  | @miss i e position outside failed =>
    right
    refine Program.rank_lt_of_move (fun _ _ => rfl) (fun j hj => hperform hj) rfl ?_
    have hle := henter (i := i) (c := .tryExtract lifoPolicy)
    rw [hout outside, position]
    simp only [Position.rank]
    omega
  | @waitWork i position outside =>
    right
    refine Program.rank_lt_of_move (fun _ _ => rfl) (fun j hj => hperform hj) rfl ?_
    rw [hout outside, position, Mt.threads_perform_self]
    simp [Mt.State.enter, Mt.State.ready, hskip, Position.rank, threadRank]
  | @handle i client position outside unpaused step =>
    rcases step.rank ((hlinked.busy i).mp position) unpaused with
      ⟨task, task', peers, hbefore, hafter⟩ | hlt
    · left
      refine ⟨⟨i, task, task', peers, rfl, hbefore, hafter⟩, ?_⟩
      apply Program.rank_eq_of_stay fun j hj => step.workers_of_ne (by simp [Ne.symm hj])
      rw [hafter, position, hbefore]
      simp [Position.rank, Worker.rank]
    · right
      refine Program.rank_lt_of_move (fun j hj => step.workers_of_ne (by simp [Ne.symm hj]))
        (fun _ _ => rfl) rfl ?_
      rw [hout outside, position, Program.queue_setPosition,
        show p.queue.threads (.worker i) = .outside from outside]
      by_cases hdone : client.workers i = .idle
      · simpa [hdone, Position.rank, threadRank] using hlt
      · simpa [hdone, Position.rank, threadRank] using hlt
  | @requeue i task client position outside paused room step =>
    right
    refine Program.rank_lt_of_move (fun j hj => step.workers_of_ne (by simp [Ne.symm hj]))
      (fun j hj => hperform hj) rfl ?_
    have hle := henter (i := i)
      (c := .emplace ⟨none, task.tid, task.piece, (p.client.torrent task.tid).descriptor⟩)
    rw [hout outside, position, paused]
    simp only [Position.rank, Worker.rank]
    omega
  | @queueStep t a queue inside step =>
    right
    -- Only the workers are in the queue.
    have hnot : ∀ {t'}, p.Outside t' → t ≠ t' := by
      rintro t' hout' rfl
      have hself := (threadRank_of_step step inside hskip).1
      rw [show p.queue.threads t = .outside from hout'] at hself
      exact absurd hself (by simp [threadRank])
    cases t with
    | worker i => exact Program.rank_lt_of_queueStep step inside hskip
    | adder => exact absurd rfl (hnot hquiescent.adderOutside)
    | remover j => exact absurd rfl (hnot (hquiescent.removersOutside j))
    | owner =>
      refine absurd rfl (hnot (hp.outside ?_))
      rcases hphase with h | h <;> simp [h]
  | add running => simp [running] at hphase
  | emplace _ emplacing => simp [hquiescent.adder] at emplacing
  | finish _ emplacing => simp [hquiescent.adder] at emplacing
  | purge running => simp [running] at hphase
  | remove _ called => exact absurd (hquiescent.removers _) called
  | store running => simp [running] at hphase
  | beginSkipWaiting running => simp [running] at hphase
  | terminate skipping => simp [skipping] at hphase
  | @join group a terminating loop step =>
    right
    refine Nat.add_lt_add_left ?_ (∑ i, p.workerRank i)
    show (if p.phase = .destroyed then 0 else ownerRank n group.owner) < p.destructorRank
    rw [Program.destructorRank, terminating, if_neg (by simp), if_neg (by simp)]
    exact ownerRank_of_join step loop hlinked.length
  | @destroy group terminating step =>
    right
    refine Nat.add_lt_add_left ?_ (∑ i, p.workerRank i)
    show (if Phase.destroyed = .destroyed then 0 else ownerRank n group.owner) < p.destructorRank
    cases step with
    | destroy idle => simp [Program.destructorRank, terminating, idle, ownerRank]

/-! ### Nobody is left behind -/

variable (env fuel) in
/-- A worker with a task, outside of `process`, can go on with it. -/
theorem client_steps {s : State n m} (hbusy : s.workers i ≠ .idle) (hadder : s.adder = .idle)
    (hworking : ∀ task peers, s.workers i ≠ .working task peers) :
    ∃ s', Step env fuel s (.worker i) s' := by
  have hlock : s.SharedLock := State.sharedLock_of_idle hadder
  cases hi : s.workers i with
  | idle => exact absurd hi hbusy
  | extracted task =>
    by_cases hstate : (s.torrent task.tid).state = .paused
    · exact ⟨_, .findPaused hi hlock hstate⟩
    · exact ⟨_, .work hi hlock hstate⟩
  | paused task => exact ⟨_, .requeue hi⟩
  | working task peers => exact absurd hi (hworking task peers)
  | succeeded task peerIndex => exact ⟨_, .count hi hlock⟩
  | counted tid processed =>
    by_cases hlast : processed = (s.torrent tid).descriptor.piecesCount
    · exact ⟨_, .complete hi hlast⟩
    · exact ⟨_, .next hi hlast⟩

/-- In a call of the queue a thread can go on, or somebody is about to wake it
    up. -/
theorem queue_steps (h : Reachable (program env fuel n m) p) (hskip : p.queue.skipWaiting = true)
    (ht : ¬ p.Outside t) : ∃ t' p', ProgramStep env fuel p t' p' := by
  obtain ⟨hqueue, hnobody⟩ := queue_of_program h
  cases hthread : p.queue.threads t with
  | outside => exact absurd hthread ht
  | notifying cv => exact ⟨t, _, .queueStep (a := .notify) (by simp) (.notify hthread)⟩
  | woken cv => exact ⟨t, _, .queueStep (a := .recheck) (by simp) (.recheck hthread)⟩
  | blocked cv =>
    cases cv with
    | allWorkDispatched => exact absurd hthread (hnobody t).1
    | newWorkAvailable =>
      obtain ⟨t', ht'⟩ : ∃ t', p.queue.threads t' = .notifying .newWorkAvailable := by
        by_contra hnone
        exact Mt.not_stranded_work hqueue
          ⟨⟨t, hthread⟩, by simp [Mt.State.ready, hskip], not_exists.mp hnone⟩
      exact ⟨t', _, .queueStep (a := .notify) (by simp) (.notify ht')⟩

/-- A worker that the destructor waits for can go on, unless it is in
    `process`. -/
theorem worker_steps (h : Reachable (program env fuel n m) p)
    (hflag : p.group.shouldTerminate = true) (hroom : p.queue.work.length ≠ INT64_MAX)
    (hi : p.positions i ≠ .exited)
    (hworking : ∀ task peers, p.client.workers i ≠ .working task peers) :
    ∃ t p', ProgramStep env fuel p t p' := by
  have hlinked := linked_of_reachable h
  obtain ⟨hp, _⟩ := phased_of_reachable h
  obtain ⟨hskip, hquiescent⟩ := hp.skips (by
    rcases hp.flag.mp hflag with h | h
    · simp [h]
    · simp [h])
  by_cases hout : p.Outside (.worker i)
  · cases hposition : p.positions i with
    | head =>
      exact ⟨_, _, .leaveLoop hposition hout hflag (.exit ((hlinked.runs i).mpr hi))⟩
    | alive =>
      have hidle : p.client.workers i = .idle := by
        by_contra hne
        simp [(hlinked.busy i).mpr hne] at hposition
      cases hextract : Queue.extract lifoPolicy p.queue.work with
      | error e => exact ⟨_, _, .miss hposition hout hextract⟩
      | ok result =>
        obtain ⟨task, tasks⟩ := result
        have hclient := hextract
        rw [hlinked.work] at hclient
        exact ⟨_, _, .extract hposition hout hextract (.extract hidle hclient)⟩
    | missed => exact ⟨_, _, .waitWork hposition hout⟩
    | busy =>
      obtain ⟨client, hstep⟩ := client_steps env fuel
        ((hlinked.busy i).mp hposition) hquiescent.adder hworking
      by_cases hpaused : ∃ task, p.client.workers i = .paused task
      · obtain ⟨task, hpaused⟩ := hpaused
        exact ⟨_, _, .requeue hposition hout hpaused hroom hstep⟩
      · exact ⟨_, _, .handle hposition hout (not_exists.mp hpaused) hstep⟩
    | exited => exact absurd hposition hi
  · exact queue_steps h hskip hout

/-- As long as the destructor is running and no worker is in `process`, some
    thread can take a step. -/
theorem destructor_steps (h : Reachable (program env fuel n m) p) (hrunning : p.phase ≠ .running)
    (hdestroyed : p.phase ≠ .destroyed) (hroom : p.queue.work.length ≠ INT64_MAX)
    (hworking : ∀ i task peers, p.client.workers i ≠ .working task peers) :
    ∃ t p', ProgramStep env fuel p t p' := by
  have hlinked := linked_of_reachable h
  obtain ⟨hp, hgroup⟩ := phased_of_reachable h
  obtain ⟨hskip, _⟩ := hp.skips hrunning
  cases hphase : p.phase with
  | running => exact absurd hphase hrunning
  | destroyed => exact absurd hphase hdestroyed
  | skipping =>
    by_cases hout : p.Outside .owner
    · have hflag : p.group.shouldTerminate = false := by
        by_contra hraised
        have := hp.flag.mp (by simpa using hraised)
        simp [hphase] at this
      exact ⟨_, _, .terminate hphase hout (.terminate (hgroup.launched hflag).1)⟩
    · exact queue_steps h hskip hout
  | terminating =>
    have hflag := hp.flag.mpr (.inl hphase)
    rcases hp.joins hphase with hidle | ⟨k, hjoining⟩
    · exact ⟨_, _, .destroy hphase (.destroy hidle)⟩
    · -- The owner is about to join thread `k`, if there is one left.
      cases hthread : p.group.threads[k]? with
      | none =>
        have hle := (hgroup.joining k false hjoining).2.le
        have hlength : k = p.group.threads.length :=
          le_antisymm hle (List.getElem?_eq_none_iff.mp hthread)
        rw [hlength] at hjoining
        exact ⟨_, _, .join hphase (.inr rfl) (.finish hjoining)⟩
      | some life =>
        cases life with
        | running =>
          have hk : k < n := by
            rw [← hlinked.length]
            exact (List.getElem?_eq_some_iff.mp hthread).1
          exact worker_steps h hflag hroom ((hlinked.runs ⟨k, hk⟩).mp hthread) (hworking _)
        | exited => exact ⟨_, _, .join hphase (.inl rfl) (.join hjoining hthread)⟩
        | joined => exact ⟨_, _, .join hphase (.inl rfl) (.joinAgain hjoining hthread)⟩

/-! ### The destructor returns -/

theorem ProgramStep.raised (h : ProgramStep env fuel p t p')
    (hflag : p.group.shouldTerminate = true) : p'.group.shouldTerminate = true := by
  rcases h.group with hsame | ⟨a, hstep, hlaunch, _⟩
  · rw [hsame]
    exact hflag
  · exact Mt.raised_of_step hstep hlaunch hflag

/-- From `terminate` on the threads of a program with `n` workers take at
    most `10 * n + 2` steps, not counting attempts at a piece that fail; and
    as long as no worker is in `process` they do not stop before everything
    has been destroyed. -/
theorem destructor_returns (h : Reachable (program env fuel n m) p)
    (hphase : p.phase = .terminating) :
    (∀ k p', Run (program env fuel n m) (fun p t p' => ¬ FailedAttempt p t p') p k p' →
      k ≤ 10 * n + 2) ∧
    ∀ p', Reaches (program env fuel n m) p p' → p'.phase ≠ .destroyed →
      p'.queue.work.length ≠ INT64_MAX →
      (∀ i task peers, p'.client.workers i ≠ .working task peers) →
      ∃ t p'', ProgramStep env fuel p' t p'' := by
  have hflag : p.group.shouldTerminate = true := (phased_of_reachable h).1.flag.mpr (.inl hphase)
  have hkeep : ∀ p t p', (Reachable (program env fuel n m) p ∧ p.group.shouldTerminate = true) →
      ProgramStep env fuel p t p' →
      Reachable (program env fuel n m) p' ∧ p'.group.shouldTerminate = true := by
    rintro p t p' ⟨hreach, hraised⟩ hstep
    exact ⟨hreach.step hstep, hstep.raised hraised⟩
  have hrank : ∀ p t p', (Reachable (program env fuel n m) p ∧ p.group.shouldTerminate = true) →
      ProgramStep env fuel p t p' →
      FailedAttempt p t p' ∧ p'.rank = p.rank ∨ p'.rank < p.rank := by
    rintro p t p' ⟨hreach, hraised⟩ hstep
    exact hstep.rank (linked_of_reachable hreach) (phased_of_reachable hreach).1 hraised
  constructor
  · intro k p' hrun
    have hbound := hrun.le_rank hkeep
      (fun p t p' hI hstep => (hrank p t p' hI hstep).elim (fun h => h.2.le) le_of_lt)
      (fun p t p' hI hstep hnot => (hrank p t p' hI hstep).resolve_left fun h => hnot h.1)
      ⟨h, hflag⟩
    have hle := Program.rank_le p
    omega
  · intro p' hreaches hdestroyed hroom hworking
    obtain ⟨hreach, hraised⟩ := hreaches.invariant hkeep ⟨h, hflag⟩
    refine destructor_steps hreach ?_ hdestroyed hroom hworking
    rcases (phased_of_reachable hreach).1.flag.mp hraised with hnow | hnow
    · simp [hnow]
    · simp [hnow]

/-- The owner gets as far as the first `join`. -/
theorem terminating_of_calm (h : Reachable (program env fuel n m) p) (hcalm : p.Calm)
    (hrunning : p.phase = .running) (hquiescent : p.Quiescent)
    (hflag : p.group.shouldTerminate = false) :
    ∃ p', Reachable (program env fuel n m) p' ∧ p'.phase = .terminating ∧ p'.Calm ∧
      p'.client = p.client ∧ p'.positions = p.positions ∧ p'.group.threads = p.group.threads ∧
      p'.group.owner = .joining 0 false := by
  have hskip := h.step (.beginSkipWaiting hrunning (hcalm .owner) hquiescent)
  obtain ⟨queue, hskipped, hcalm'⟩ :=
    calm_of_call (s := p.queue) hcalm hskip rfl (by simp) (by simp)
  have hidle := ((phased_of_reachable h).2.launched hflag).1
  exact ⟨_, hskipped.step (.terminate rfl (hcalm' .owner) (.terminate hidle)), rfl, hcalm', rfl,
    rfl, rfl, rfl⟩

/-- While the worker downloads the piece the destructor is called. -/
theorem destructor_returns_one_piece : ∃ p : Program 1 0,
    p.client.workers 0 = .working onePieceTask [⟨1, 2⟩] ∧
    ∀ k p', Run (program (fun _ => Download.listEnv) 8 1 0)
      (fun p t p' => ¬ FailedAttempt p t p') p k p' → k ≤ 12 := by
  obtain ⟨p, h, hone⟩ := onePiece_busy (fun _ => Download.listEnv) 8
  obtain ⟨p', h', hterminating, _, hclient, _⟩ :=
    terminating_of_calm h hone.calm hone.running hone.quiescent hone.flag
  refine ⟨p', ?_, (destructor_returns h' hterminating).1⟩
  rw [hclient, hone.working]

/-! ### The destructor waits for a piece that nobody has -/

/-- No attempt at the piece succeeds, whatever a peer sends and whatever
    the disk does. -/
def Hopeless (env : Peer → Download.Env W) (fuel : Nat) (task : PieceTask) (peers : List Peer) :
    Prop :=
  ∀ peer ∈ peers, ∀ data w faults fs,
    (process (env peer) fuel { task with data := data } w faults fs).2.2 ≠ .ok true

/-- The worker tries on: it does not ask whether it is alive. -/
theorem Step.hopeless {s s' : State n m} {a : Actor n m} {task : PieceTask} {peers : List Peer}
    (h : Step env fuel s a s') (hhopeless : Hopeless env fuel task peers)
    (hi : ∃ data, s.workers i = .working { task with data := data } peers) :
    ∃ data, s'.workers i = .working { task with data := data } peers := by
  obtain ⟨data, hi⟩ := hi
  by_cases ha : a = .worker i
  · subst ha
    cases h with
    | @fail _ task₀ task' peers₀ peerIndex peer w faults files hi' hpeer hprocess =>
      rw [hi] at hi'
      injection hi' with htask hpeers
      subst htask hpeers
      obtain ⟨data', hdata⟩ := process_task (env peer) fuel { task with data := data } w faults
        s.files
      rw [hprocess] at hdata
      refine ⟨data', ?_⟩
      rw [State.workers_setWorker_self]
      exact congrArg (Worker.working · peers) hdata
    | @succeed _ task₀ task' peers₀ peerIndex peer w faults files hi' hpeer hprocess =>
      rw [hi] at hi'
      injection hi' with htask hpeers
      subst htask hpeers
      refine absurd ?_ (hhopeless peer (List.mem_of_getElem? hpeer) data w faults s.files)
      rw [hprocess]
    | extract hi' => exact absurd (hi.symm.trans hi') (by simp)
    | findPaused hi' => exact absurd (hi.symm.trans hi') (by simp)
    | requeue hi' => exact absurd (hi.symm.trans hi') (by simp)
    | work hi' => exact absurd (hi.symm.trans hi') (by simp)
    | count hi' => exact absurd (hi.symm.trans hi') (by simp)
    | complete hi' => exact absurd (hi.symm.trans hi') (by simp)
    | next hi' => exact absurd (hi.symm.trans hi') (by simp)
  · exact ⟨data, (h.workers_of_ne ha).trans hi⟩

/-- A worker that has a piece which none of its peers delivers never leaves
    `process` again, and the destructor never gets past its `join`. -/
theorem destructor_waits (h : Reachable (program env fuel n m) p) {task : PieceTask}
    {peers : List Peer} (hi : p.client.workers i = .working task peers)
    (hhopeless : Hopeless env fuel task peers)
    (hreaches : Reaches (program env fuel n m) p p') :
    (∃ data, p'.client.workers i = .working { task with data := data } peers) ∧
      p'.group.threads[i.val]? = some .running ∧ p'.phase ≠ .destroyed := by
  obtain ⟨hreach, data, hworking⟩ := hreaches.invariant
    (I := fun p => Reachable (program env fuel n m) p ∧
      ∃ data, p.client.workers i = .working { task with data := data } peers)
    (by
      rintro p t p' ⟨hreach, hworking⟩ hstep
      refine ⟨hreach.step hstep, ?_⟩
      rcases hstep.client with hsame | ⟨a, hclient⟩
      · rw [hsame]
        exact hworking
      · exact hclient.hopeless hhopeless hworking)
    ⟨h, task.data, hi⟩
  have hlinked := linked_of_reachable hreach
  have hbusy : p'.positions i = .busy := (hlinked.busy i).mpr (by simp [hworking])
  have hrunning : p'.group.threads[i.val]? = some .running :=
    (hlinked.runs i).mpr (by simp [hbusy])
  refine ⟨⟨data, hworking⟩, hrunning, ?_⟩
  intro hdestroyed
  exact absurd (joined_of_destroyed hreach hdestroyed _ (List.mem_of_getElem? hrunning)) (by simp)

/-- A peer that refuses every connection. -/
def refusing : Download.Env Unit where
  connect := fun w => (.error .other, w)
  isOpen := fun w => (false, w)
  write := fun _ w => (.error .other, w)
  read := fun _ w => (.error .other, w)
  close := fun w => w
  beyond := fun _ _ => none
  sha1 := fun bytes => bytes

/-- The only peer refuses the connection, and the destructor is called. -/
theorem destructor_waits_refused : ∃ p : Program 1 0,
    Reachable (program (fun _ => refusing) 8 1 0) p ∧ p.phase = .terminating ∧
    ∀ p', Reaches (program (fun _ => refusing) 8 1 0) p p' → p'.phase ≠ .destroyed := by
  obtain ⟨p, h, hone⟩ := onePiece_busy (fun _ => refusing) 8
  obtain ⟨p', h', hterminating, _, hclient, _⟩ :=
    terminating_of_calm h hone.calm hone.running hone.quiescent hone.flag
  have hhopeless : Hopeless (fun _ => refusing) 8 onePieceTask [⟨1, 2⟩] := by
    intro peer _ data w faults fs
    show (Except.ok false : Outcome Empty Bool) ≠ .ok true
    decide
  refine ⟨p', h', hterminating, ?_⟩
  intro p'' hreaches
  exact (destructor_waits (i := 0) h' (by rw [hclient, hone.working]) hhopeless hreaches).2.2

end Furrent.Client
