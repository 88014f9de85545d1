import Furrent.Mt.ThreadGroup
import Furrent.Mt.Wakeup
import Furrent.Client.Lookups

/-! # The program as a whole

    `Scheduler` has what the threads do with tasks and torrents. Here the
    workers also wait: `thread_main` asks its `Runner` whether it is alive,
    tries to extract a task, and calls `wait_work` if there is none. The
    queue is the shared queue of `Mt`, with its critical sections, its
    condition variables and its notifications, and the workers are the
    threads of a thread group. `~Furrent` calls `begin_skip_waiting` and
    then `terminate`; the group is destroyed after it.

    The three parts run side by side, and each of them runs as it does alone
    (`client_of_program`, `queue_of_program`, `ProgramStep.group`): so
    everything that is proved about the parts holds here. What holds them
    together is that the queue has the tasks of the scheduler, that the
    workers that have a task are those that the scheduler has at work, and
    that the threads that run are those that have not left the loop.

    The locks of `_torrents` are given back with the step of the scheduler,
    before the notification and not after it: the program here has more
    interleavings. The owner destroys the object when no call of
    `add_torrent` or `remove_torrent` is running. -/

namespace Furrent.Client

open Cpp Platform Policy Transition

/-! ### States -/

/-- The threads, with `n` workers. -/
inductive Agent (n m : Nat) where
  | worker (i : Fin n)
  | adder
  | remover (j : Fin m)
  /-- The thread that destroys the object. -/
  | owner
  deriving DecidableEq, Repr

/-- Where a worker is in `thread_main`. -/
inductive Position where
  /-- In front of `runner.alive()`, or still in a call that comes before. -/
  | head
  /-- It is alive; `try_extract` comes next. -/
  | alive
  /-- There was no task; `wait_work` comes next. -/
  | missed
  /-- It has a task. -/
  | busy
  /-- It has left the loop. -/
  | exited
  deriving DecidableEq, Repr

/-- How far `~Furrent` has got. -/
inductive Phase where
  /-- It has not been called. -/
  | running
  /-- In `begin_skip_waiting`. -/
  | skipping
  /-- In `terminate`, or about to destroy the members. -/
  | terminating
  | destroyed
  deriving DecidableEq, Repr

/-- `Furrent` with its `_tasks` and its `_workers`. -/
structure Program (n m : Nat) where
  client : State n m
  queue : Mt.State PieceTask (Agent n m)
  group : Mt.Group
  positions : Fin n → Position
  phase : Phase

variable {n m : Nat}

namespace Program

/-- `Furrent()` with `n` workers. -/
def start (files : FileSystem) : Program n m where
  client := State.start files
  queue := Mt.State.start
  group := Mt.Group.start.launch n
  positions := fun _ => .head
  phase := .running

def setPosition (p : Program n m) (i : Fin n) (position : Position) : Program n m :=
  { p with positions := Function.update p.positions i position }

@[simp] theorem client_setPosition (p : Program n m) (i : Fin n) (position : Position) :
    (p.setPosition i position).client = p.client := rfl

@[simp] theorem queue_setPosition (p : Program n m) (i : Fin n) (position : Position) :
    (p.setPosition i position).queue = p.queue := rfl

@[simp] theorem positions_setPosition_self (p : Program n m) (i : Fin n) (position : Position) :
    (p.setPosition i position).positions i = position := Function.update_self ..

@[simp] theorem phase_setPosition (p : Program n m) (i : Fin n) (position : Position) :
    (p.setPosition i position).phase = p.phase := rfl

/-- No call of the thread is running in the queue. -/
def Outside (p : Program n m) (t : Agent n m) : Prop := p.queue.threads t = .outside

/-- Nobody is in `add_torrent` or in `remove_torrent`. -/
structure Quiescent (p : Program n m) : Prop where
  adder : p.client.adder = .idle
  removers : ∀ j, p.client.removers j = .idle
  adderOutside : p.Outside .adder
  removersOutside : ∀ j, p.Outside (.remover j)

end Program

/-- The number of threads that `Furrent()` launches. -/
def workersCount (hardwareConcurrency : Nat) : Outcome Empty Nat :=
  Mt.launchSize hardwareConcurrency
    (if 1 < hardwareConcurrency then (hardwareConcurrency : Int) - 1 else 1)

/-! ### Steps -/

section

variable {W : Type} (env : Peer → Download.Env W) (fuel : Nat)

inductive ProgramStep : Program n m → Agent n m → Program n m → Prop where
  -- thread_main
  | checkAlive {p : Program n m} {i : Fin n} (position : p.positions i = .head)
      (outside : p.Outside (.worker i)) (flag : p.group.shouldTerminate = false) :
      ProgramStep p (.worker i) (p.setPosition i .alive)
  | leaveLoop {p : Program n m} {i : Fin n} {group : Mt.Group} (position : p.positions i = .head)
      (outside : p.Outside (.worker i)) (flag : p.group.shouldTerminate = true)
      (exit : Mt.GroupStep p.group (.exit i) group) :
      ProgramStep p (.worker i) { p.setPosition i .exited with group := group }
  | extract {p : Program n m} {i : Fin n} {task : PieceTask} {tasks : List PieceTask}
      {client : State n m} (position : p.positions i = .alive) (outside : p.Outside (.worker i))
      (extracted : Queue.extract lifoPolicy p.queue.work = .ok (task, tasks))
      (step : Step env fuel p.client (.worker i) client) :
      ProgramStep p (.worker i)
        { p.setPosition i .busy with
          client := client
          queue := p.queue.perform (.worker i) (.tryExtract lifoPolicy) }
  | miss {p : Program n m} {i : Fin n} {e : QueueError} (position : p.positions i = .alive)
      (outside : p.Outside (.worker i))
      (failed : Queue.extract lifoPolicy p.queue.work = .error e) :
      ProgramStep p (.worker i)
        { p.setPosition i .missed with
          queue := p.queue.perform (.worker i) (.tryExtract lifoPolicy) }
  | waitWork {p : Program n m} {i : Fin n} (position : p.positions i = .missed)
      (outside : p.Outside (.worker i)) :
      ProgramStep p (.worker i)
        { p.setPosition i .head with queue := p.queue.perform (.worker i) .waitWork }
  | handle {p : Program n m} {i : Fin n} {client : State n m} (position : p.positions i = .busy)
      (outside : p.Outside (.worker i)) (unpaused : ∀ task, p.client.workers i ≠ .paused task)
      (step : Step env fuel p.client (.worker i) client) :
      ProgramStep p (.worker i)
        { p.setPosition i (if client.workers i = .idle then .head else .busy) with
          client := client }
  | requeue {p : Program n m} {i : Fin n} {task : PieceTask} {client : State n m}
      (position : p.positions i = .busy) (outside : p.Outside (.worker i))
      (paused : p.client.workers i = .paused task) (room : p.queue.work.length ≠ INT64_MAX)
      (step : Step env fuel p.client (.worker i) client) :
      ProgramStep p (.worker i)
        { p.setPosition i .head with
          client := client
          queue := p.queue.perform (.worker i)
            (.emplace ⟨none, task.tid, task.piece, (p.client.torrent task.tid).descriptor⟩) }
  -- the rest of a call: a notification, or waking up in `wait_work`
  | queueStep {p : Program n m} {t : Agent n m} {a : Mt.Action PieceTask}
      {queue : Mt.State PieceTask (Agent n m)} (inside : ∀ c, a ≠ .call c)
      (step : Mt.Step p.queue (t, a) queue) : ProgramStep p t { p with queue := queue }
  -- add_torrent
  | add {p : Program n m} {client : State n m} (running : p.phase = .running)
      (outside : p.Outside .adder) (notYet : ∀ tid pieces, p.client.adder ≠ .emplacing tid pieces)
      (step : Step env fuel p.client .adder client) :
      ProgramStep p .adder { p with client := client }
  | emplace {p : Program n m} {tid : TorrentID} {piece : Piece} {pieces : List Piece}
      {client : State n m} (outside : p.Outside .adder)
      (emplacing : p.client.adder = .emplacing tid (piece :: pieces))
      (room : p.queue.work.length ≠ INT64_MAX) (step : Step env fuel p.client .adder client) :
      ProgramStep p .adder
        { p with
          client := client
          queue := p.queue.perform .adder
            (.emplace ⟨none, tid, piece, (p.client.torrent tid).descriptor⟩) }
  | finish {p : Program n m} {tid : TorrentID} {client : State n m} (outside : p.Outside .adder)
      (emplacing : p.client.adder = .emplacing tid [])
      (step : Step env fuel p.client .adder client) :
      ProgramStep p .adder
        { p with client := client, queue := p.queue.perform .adder .forceWakeup }
  -- remove_torrent
  | purge {p : Program n m} {j : Fin m} {tid : TorrentID} {client : State n m}
      (running : p.phase = .running) (outside : p.Outside (.remover j))
      (step : Step env fuel p.client (.remover j) client)
      (idle : p.client.removers j = .idle) (purged : client.removers j = .purged tid) :
      ProgramStep p (.remover j)
        { p with
          client := client
          queue := p.queue.perform (.remover j) (.mutate fun _ => PieceTask.refersTo tid) }
  | remove {p : Program n m} {j : Fin m} {client : State n m} (outside : p.Outside (.remover j))
      (called : p.client.removers j ≠ .idle) (step : Step env fuel p.client (.remover j) client) :
      ProgramStep p (.remover j) { p with client := client }
  -- anyone who has the torrent
  | store {p : Program n m} {client : State n m} (running : p.phase = .running)
      (step : Step env fuel p.client .outside client) :
      ProgramStep p .owner { p with client := client }
  -- ~Furrent
  | beginSkipWaiting {p : Program n m} (running : p.phase = .running) (outside : p.Outside .owner)
      (quiescent : p.Quiescent) :
      ProgramStep p .owner
        { p with queue := p.queue.perform .owner .beginSkipWaiting, phase := .skipping }
  | terminate {p : Program n m} {group : Mt.Group} (skipping : p.phase = .skipping)
      (outside : p.Outside .owner) (step : Mt.GroupStep p.group .terminate group) :
      ProgramStep p .owner { p with group := group, phase := .terminating }
  | join {p : Program n m} {group : Mt.Group} {a : Mt.GroupAction}
      (terminating : p.phase = .terminating) (loop : a = .join ∨ a = .finish)
      (step : Mt.GroupStep p.group a group) : ProgramStep p .owner { p with group := group }
  -- the members, `_workers` among them
  | destroy {p : Program n m} {group : Mt.Group} (terminating : p.phase = .terminating)
      (step : Mt.GroupStep p.group .destroy group) :
      ProgramStep p .owner { p with group := group, phase := .destroyed }

/-- The program with `n` workers and `m` threads that remove torrents. -/
def program (n m : Nat) : System (Program n m) (Agent n m) where
  init := fun p => ∃ files, p = Program.start files
  step := ProgramStep env fuel

end

variable {W : Type} {env : Peer → Download.Env W} {fuel : Nat} {p p' : Program n m}
  {t : Agent n m} {i : Fin n}

/-! ### The parts -/

/-- A step of the program is a step of the scheduler or leaves it alone. -/
theorem ProgramStep.client (h : ProgramStep env fuel p t p') :
    p'.client = p.client ∨ ∃ a, Step env fuel p.client a p'.client := by
  cases h with
  | extract position outside extracted step => exact .inr ⟨_, step⟩
  | handle position outside unpaused step => exact .inr ⟨_, step⟩
  | requeue position outside paused room step => exact .inr ⟨_, step⟩
  | add running outside notYet step => exact .inr ⟨_, step⟩
  | emplace outside emplacing room step => exact .inr ⟨_, step⟩
  | finish outside emplacing step => exact .inr ⟨_, step⟩
  | purge running outside step idle purged => exact .inr ⟨_, step⟩
  | remove outside called step => exact .inr ⟨_, step⟩
  | store running step => exact .inr ⟨_, step⟩
  | _ => exact .inl rfl

/-- Nobody calls `wait_empty`. -/
theorem ProgramStep.queue (h : ProgramStep env fuel p t p') :
    p'.queue = p.queue ∨ ∃ t a, Mt.Step p.queue (t, a) p'.queue ∧ a ≠ .call .waitEmpty := by
  cases h with
  | extract position outside extracted step => exact .inr ⟨_, _, .call _ outside, by simp⟩
  | miss position outside failed => exact .inr ⟨_, _, .call _ outside, by simp⟩
  | waitWork position outside => exact .inr ⟨_, _, .call _ outside, by simp⟩
  | requeue position outside paused room step => exact .inr ⟨_, _, .call _ outside, by simp⟩
  | queueStep inside step => exact .inr ⟨_, _, step, inside _⟩
  | emplace outside emplacing room step => exact .inr ⟨_, _, .call _ outside, by simp⟩
  | finish outside emplacing step => exact .inr ⟨_, _, .call _ outside, by simp⟩
  | purge running outside step idle purged => exact .inr ⟨_, _, .call _ outside, by simp⟩
  | beginSkipWaiting running outside quiescent => exact .inr ⟨_, _, .call _ outside, by simp⟩
  | _ => exact .inl rfl

/-- The group is used by its owner and by the workers that leave. -/
theorem ProgramStep.group (h : ProgramStep env fuel p t p') :
    p'.group = p.group ∨ ∃ a, Mt.GroupStep p.group a p'.group ∧ (∀ size, a ≠ .launch size) ∧
      (a = .terminate → p.phase = .skipping) := by
  cases h with
  | leaveLoop position outside flag exit => exact .inr ⟨_, exit, by simp, by simp⟩
  | terminate skipping outside step => exact .inr ⟨_, step, by simp, fun _ => skipping⟩
  | join terminating loop step =>
    rcases loop with rfl | rfl
    · exact .inr ⟨_, step, by simp, by simp⟩
    · exact .inr ⟨_, step, by simp, by simp⟩
  | destroy terminating step => exact .inr ⟨_, step, by simp, by simp⟩
  | _ => exact .inl rfl

theorem client_of_program (h : Reachable (program env fuel n m) p) :
    Reachable (furrent env fuel n m) p.client := by
  apply h.invariant (I := fun p => Reachable (furrent env fuel n m) p.client)
  · intro p hp
    obtain ⟨files, rfl⟩ := hp
    exact .init ⟨files, rfl⟩
  · intro p t p' _ hp hstep
    rcases hstep.client with hsame | ⟨a, ha⟩
    · rw [hsame]
      exact hp
    · exact hp.step ha

theorem queue_of_program (h : Reachable (program env fuel n m) p) :
    Reachable (Mt.sharedQueue PieceTask (Agent n m)) p.queue ∧ Mt.NobodyWaitsForEmpty p.queue := by
  apply h.invariant (I := fun p => Reachable (Mt.sharedQueue PieceTask (Agent n m)) p.queue ∧
    Mt.NobodyWaitsForEmpty p.queue)
  · intro p hp
    obtain ⟨files, rfl⟩ := hp
    refine ⟨.init rfl, ?_⟩
    intro t
    simp [Program.start, Mt.State.start]
  · intro p t p' _ hp hstep
    rcases hstep.queue with hsame | ⟨t', a, hqueue, ha⟩
    · rw [hsame]
      exact hp
    · exact ⟨hp.1.step hqueue, hqueue.nobodyWaitsForEmpty ha hp.2⟩

/-! ### What the scheduler does with the queue -/

section

variable {s s' : State n m} {j : Fin m} {tid : TorrentID}

theorem Step.extract_of_idle (h : Step env fuel s (.worker i) s') (hi : s.workers i = .idle) :
    ∃ task tasks, Queue.extract lifoPolicy s.tasks = .ok (task, tasks) ∧
      s' = { s with tasks := tasks }.setWorker i (.extracted task) := by
  cases h with
  | extract _ htask => exact ⟨_, _, htask, rfl⟩
  | findPaused hi' => simp [hi] at hi'
  | requeue hi' => simp [hi] at hi'
  | work hi' => simp [hi] at hi'
  | fail hi' => simp [hi] at hi'
  | succeed hi' => simp [hi] at hi'
  | count hi' => simp [hi] at hi'
  | complete hi' => simp [hi] at hi'
  | next hi' => simp [hi] at hi'

theorem Step.requeue_of_paused (h : Step env fuel s (.worker i) s') {task : PieceTask}
    (hi : s.workers i = .paused task) :
    s' = { s with
      tasks := Queue.emplace s.tasks
        ⟨none, task.tid, task.piece, (s.torrent task.tid).descriptor⟩ }.setWorker i .idle := by
  cases h with
  | requeue hi' =>
    obtain rfl : task = _ := by simpa [hi] using hi'
    rfl
  | extract hi' => simp [hi] at hi'
  | findPaused hi' => simp [hi] at hi'
  | work hi' => simp [hi] at hi'
  | fail hi' => simp [hi] at hi'
  | succeed hi' => simp [hi] at hi'
  | count hi' => simp [hi] at hi'
  | complete hi' => simp [hi] at hi'
  | next hi' => simp [hi] at hi'

/-- A worker with a task does not touch the queue, unless it puts it back. -/
theorem Step.tasks_of_busy (h : Step env fuel s (.worker i) s') (hi : s.workers i ≠ .idle)
    (hpaused : ∀ task, s.workers i ≠ .paused task) : s'.tasks = s.tasks := by
  cases h with
  | extract hi' => exact absurd hi' hi
  | requeue hi' => exact absurd hi' (hpaused _)
  | _ => rfl

theorem Step.emplace_of_emplacing (h : Step env fuel s .adder s') {piece : Piece}
    {pieces : List Piece} (ha : s.adder = .emplacing tid (piece :: pieces)) :
    s' = { s with
      adder := .emplacing tid pieces
      tasks := Queue.emplace s.tasks ⟨none, tid, piece, (s.torrent tid).descriptor⟩ } := by
  cases h with
  | addEmplace ha' =>
    obtain ⟨rfl, rfl, rfl⟩ : tid = _ ∧ piece = _ ∧ pieces = _ := by simpa [ha] using ha'
    rfl
  | addBegin ha' => simp [ha] at ha'
  | addPrepare _ ha' => simp [ha] at ha'
  | addFail ha' => simp [ha] at ha'
  | addWithoutPeers ha' => simp [ha] at ha'
  | addThrow ha' => simp [ha] at ha'
  | addGenerate ha' => simp [ha] at ha'
  | addFinish ha' => simp [ha] at ha'

/-- `add_torrent` touches the queue to emplace a task only. -/
theorem Step.tasks_of_adder (h : Step env fuel s .adder s')
    (ha : ∀ tid piece pieces, s.adder ≠ .emplacing tid (piece :: pieces)) : s'.tasks = s.tasks := by
  cases h with
  | addEmplace ha' => exact absurd ha' (ha _ _ _)
  | addWithoutPeers ha' hlock hs₁ =>
    subst hs₁
    rfl
  | addThrow ha' hlock hs₁ =>
    subst hs₁
    rfl
  | addGenerate ha' hlock hs₁ =>
    subst hs₁
    rfl
  | _ => rfl

theorem Step.purge_of_idle (h : Step env fuel s (.remover j) s') (hj : s.removers j = .idle)
    (hpurged : s'.removers j = .purged tid) :
    s'.tasks = Queue.mutate (PieceTask.refersTo tid) s.tasks := by
  cases h with
  | purge tid' _ =>
    rw [State.removers_setRemover_self] at hpurged
    injection hpurged with htid
    rw [← htid]
    rfl
  | load hj' => simp [hj] at hj'
  | stop hj' => simp [hj] at hj'
  | keep hj' => simp [hj] at hj'

/-- After the mutation `remove_torrent` does not touch the queue. -/
theorem Step.tasks_of_remover (h : Step env fuel s (.remover j) s') (hj : s.removers j ≠ .idle) :
    s'.tasks = s.tasks := by
  cases h with
  | purge _ hj' => exact absurd hj' hj
  | _ => rfl

theorem Step.tasks_of_outside (h : Step env fuel s .outside s') : s'.tasks = s.tasks := by
  cases h with
  | store => rfl

end

/-! ### The parts belong together -/

/-- What holds the parts together. -/
structure Program.Linked (p : Program n m) : Prop where
  work : p.queue.work = p.client.tasks
  busy : ∀ i, p.positions i = .busy ↔ p.client.workers i ≠ .idle
  length : p.group.threads.length = n
  runs : ∀ i : Fin n, p.group.threads[i.val]? = some .running ↔ p.positions i ≠ .exited

/-- A step of worker `i` that moves it to another position. -/
theorem Program.Linked.setPosition (h : p.Linked) {position : Position} {client : State n m}
    {queue : Mt.State PieceTask (Agent n m)} (hwork : queue.work = client.tasks)
    (hothers : ∀ j, j ≠ i → client.workers j = p.client.workers j)
    (hbusy : position = .busy ↔ client.workers i ≠ .idle) (hposition : position ≠ .exited)
    (hbefore : p.positions i ≠ .exited) :
    Program.Linked { p.setPosition i position with client := client, queue := queue } := by
  constructor
  · exact hwork
  · intro j
    by_cases hj : j = i
    · rw [hj]
      show Function.update p.positions i position i = .busy ↔ client.workers i ≠ .idle
      rw [Function.update_self]
      exact hbusy
    · show Function.update p.positions i position j = .busy ↔ client.workers j ≠ .idle
      rw [Function.update_of_ne hj, hothers j hj]
      exact h.busy j
  · exact h.length
  · intro j
    show p.group.threads[j.val]? = some .running ↔
      Function.update p.positions i position j ≠ .exited
    by_cases hj : j = i
    · rw [hj, Function.update_self]
      exact ⟨fun _ => hposition, fun _ => (h.runs i).mpr hbefore⟩
    · rw [Function.update_of_ne hj]
      exact h.runs j

/-- A worker without a task moves on. -/
theorem Program.Linked.move (h : p.Linked) {position : Position}
    {queue : Mt.State PieceTask (Agent n m)} (hwork : queue.work = p.queue.work)
    (hbefore : p.positions i ≠ .busy ∧ p.positions i ≠ .exited)
    (hposition : position ≠ .busy ∧ position ≠ .exited) :
    Program.Linked { p.setPosition i position with queue := queue } := by
  refine h.setPosition (hwork.trans h.work) (fun _ _ => rfl) ?_ hposition.2 hbefore.2
  have hidle : ¬ p.client.workers i ≠ .idle := fun hne => hbefore.1 ((h.busy i).mpr hne)
  exact ⟨fun hbusy => absurd hbusy hposition.1, fun hne => absurd hne hidle⟩

/-- A step of another thread. -/
theorem Program.Linked.others (h : p.Linked) {client : State n m}
    {queue : Mt.State PieceTask (Agent n m)} (hwork : queue.work = client.tasks)
    (hworkers : client.workers = p.client.workers) :
    Program.Linked { p with client := client, queue := queue } := by
  refine ⟨hwork, ?_, h.length, h.runs⟩
  rw [hworkers]
  exact h.busy

/-- A step of the owner of the group. -/
theorem Program.Linked.owner (h : p.Linked) {group : Mt.Group} {a : Mt.GroupAction} {phase : Phase}
    (hstep : Mt.GroupStep p.group a group) (hlaunch : ∀ size, a ≠ .launch size)
    (hexit : ∀ k, a ≠ .exit k) : Program.Linked { p with group := group, phase := phase } := by
  refine ⟨h.work, h.busy, (Mt.length_of_step hstep hlaunch).trans h.length, ?_⟩
  intro i
  rw [← h.runs i]
  exact Mt.running_of_step hstep hlaunch hexit i

theorem linked_start (files : FileSystem) : (Program.start files : Program n m).Linked := by
  have hthreads : (Mt.Group.start.launch n).threads = List.replicate n .running := by
    simp [Mt.Group.launch, Mt.Group.Resizable, Mt.Group.start]
  refine ⟨rfl, ?_, ?_, ?_⟩
  · intro i
    simp [Program.start, State.start]
  · show (Mt.Group.start.launch n).threads.length = n
    rw [hthreads, List.length_replicate]
  · intro i
    show (Mt.Group.start.launch n).threads[i.val]? = some .running ↔ Position.head ≠ .exited
    simp [hthreads]

theorem ProgramStep.linked (h : ProgramStep env fuel p t p') (hp : p.Linked) : p'.Linked := by
  have hothers : ∀ {i : Fin n} {client : State n m}, Step env fuel p.client (.worker i) client →
      ∀ j, j ≠ i → client.workers j = p.client.workers j :=
    fun hstep j hj => hstep.workers_of_ne (by simp [Ne.symm hj])
  have hidle : ∀ i, p.positions i ≠ .busy → p.client.workers i = .idle := by
    intro i hposition
    by_contra hne
    exact hposition ((hp.busy i).mpr hne)
  cases h with
  | @checkAlive i position outside flag =>
    exact hp.move rfl (by simp [position]) (by simp)
  | @leaveLoop i group position outside flag exit =>
    refine ⟨hp.work, ?_, ?_, ?_⟩
    · intro j
      show Function.update p.positions i .exited j = .busy ↔ p.client.workers j ≠ .idle
      by_cases hj : j = i
      · rw [hj, Function.update_self]
        simp [hidle i (by simp [position])]
      · rw [Function.update_of_ne hj]
        exact hp.busy j
    · exact (Mt.length_of_step exit (by simp)).trans hp.length
    · intro j
      show group.threads[j.val]? = _ ↔ Function.update p.positions i .exited j ≠ .exited
      rw [Mt.running_of_exit exit, hp.runs j]
      by_cases hj : j = i
      · rw [hj, Function.update_self]
        simp
      · rw [Function.update_of_ne hj]
        simp [Fin.val_ne_of_ne hj]
  | @extract i task tasks client position outside extracted step =>
    obtain ⟨task', tasks', hextract, hclient⟩ :=
      step.extract_of_idle (hidle i (by simp [position]))
    refine hp.setPosition ?_ (hothers step) ?_ (by simp) (by simp [position])
    · rw [Mt.work_perform_extract (by rw [hp.work]; exact hextract), hclient]
      rfl
    · rw [hclient, State.workers_setWorker_self]
      simp
  | @miss i e position outside failed =>
    exact hp.move (Mt.work_perform_miss failed) (by simp [position]) (by simp)
  | @waitWork i position outside =>
    exact hp.move rfl (by simp [position]) (by simp)
  | @handle i client position outside unpaused step =>
    have hwork : p.queue.work = client.tasks := by
      rw [step.tasks_of_busy ((hp.busy i).mp position) unpaused, hp.work]
    refine hp.setPosition hwork (hothers step) ?_ ?_ (by simp [position])
    · by_cases hdone : client.workers i = .idle
      · simp [hdone]
      · simp [hdone]
    · split
      · simp
      · simp
  | @requeue i task client position outside paused room step =>
    have hclient := step.requeue_of_paused paused
    refine hp.setPosition ?_ (hothers step) ?_ (by simp) (by simp [position])
    · rw [Mt.work_perform_emplace room, hclient, hp.work]
      rfl
    · rw [hclient, State.workers_setWorker_self]
      simp
  | queueStep inside step =>
    refine hp.others ?_ rfl
    rw [(step.inside inside).1, hp.work]
  | add running outside notYet step =>
    refine hp.others ?_ (funext fun i => step.workers_of_ne (by simp))
    rw [step.tasks_of_adder fun _ _ _ => notYet _ _, hp.work]
  | emplace outside emplacing room step =>
    refine hp.others ?_ (funext fun i => step.workers_of_ne (by simp))
    rw [Mt.work_perform_emplace room, step.emplace_of_emplacing emplacing, hp.work]
  | finish outside emplacing step =>
    refine hp.others ?_ (funext fun i => step.workers_of_ne (by simp))
    rw [step.tasks_of_adder (by simp [emplacing]), ← hp.work]
    rfl
  | purge running outside step idle purged =>
    refine hp.others ?_ (funext fun i => step.workers_of_ne (by simp))
    rw [Mt.work_perform_mutate, step.purge_of_idle idle purged, hp.work]
  | remove outside called step =>
    refine hp.others ?_ (funext fun i => step.workers_of_ne (by simp))
    rw [step.tasks_of_remover called, hp.work]
  | store running step =>
    refine hp.others ?_ (funext fun i => step.workers_of_ne (by simp))
    rw [step.tasks_of_outside, hp.work]
  | beginSkipWaiting running outside quiescent =>
    exact ⟨hp.work, hp.busy, hp.length, hp.runs⟩
  | terminate skipping outside step => exact hp.owner step (by simp) (by simp)
  | join terminating loop step =>
    rcases loop with rfl | rfl
    · exact hp.owner step (by simp) (by simp)
    · exact hp.owner step (by simp) (by simp)
  | destroy terminating step => exact hp.owner step (by simp) (by simp)

theorem linked_of_reachable (h : Reachable (program env fuel n m) p) : p.Linked := by
  apply h.invariant (I := Program.Linked)
  · intro p hp
    obtain ⟨files, rfl⟩ := hp
    exact linked_start files
  · intro p t p' _ hp hstep
    exact hstep.linked hp

/-! ### A run with one torrent -/

/-- No call is running in the queue. -/
def Program.Calm (p : Program n m) : Prop := ∀ t, p.Outside t

/-- A call that does not wait is carried out to its end. -/
theorem calm_of_call {c : Mt.Call PieceTask} {s : Mt.State PieceTask (Agent n m)}
    {q : Program n m} (hs : ∀ t, s.threads t = .outside)
    (hq : Reachable (program env fuel n m) q) (hqueue : q.queue = s.perform t c)
    (hwork : c ≠ .waitWork) (hempty : c ≠ .waitEmpty) :
    ∃ queue, Reachable (program env fuel n m) { q with queue := queue } ∧
      ∀ t, queue.threads t = .outside := by
  have hothers : ∀ t', t' ≠ t → q.queue.threads t' = .outside := by
    intro t' ht'
    rw [hqueue, Mt.threads_perform_of_ne _ _ ht']
    exact hs t'
  have hself : q.queue.threads t = .outside ∨ ∃ cv, q.queue.threads t = .notifying cv := by
    rw [hqueue, Mt.threads_perform_self]
    generalize hs' : (s.enter c).1 = s'
    generalize hthread : (s.enter c).2 = thread
    have heffect := Mt.enter_effect s c
    rw [hs', hthread] at heffect
    cases heffect with
    | wait call =>
      rcases call with ⟨hc, _⟩ | ⟨hc, _⟩
      · exact absurd hc hwork
      · exact absurd hc hempty
    | full call => exact .inl rfl
    | extract found =>
      split
      · exact .inr ⟨_, rfl⟩
      · exact .inl rfl
    | noExtract failed =>
      split
      · exact .inr ⟨_, rfl⟩
      · exact .inl rfl
    | _ => exact .inr ⟨_, rfl⟩
  rcases hself with hout | ⟨cv, hnotifying⟩
  · refine ⟨q.queue, hq, ?_⟩
    intro t'
    by_cases ht' : t' = t
    · rw [ht', hout]
    · exact hothers t' ht'
  · refine ⟨_, hq.step (.queueStep (a := .notify) (by simp) (.notify hnotifying)), ?_⟩
    intro t'
    by_cases ht' : t' = t
    · rw [ht', Mt.threads_setThread_self]
    · rw [Mt.threads_setThread_of_ne _ _ ht']
      simp [Mt.State.notifyAll, hothers t' ht']

/-- The torrent of one piece has been added, and its task waits in the
    queue. -/
structure Program.HasOnePiece (p : Program 1 0) : Prop where
  calm : p.Calm
  running : p.phase = .running
  position : p.positions 0 = .head
  idle : p.client.workers 0 = .idle
  adder : p.client.adder = .idle
  tasks : p.client.tasks = [onePieceTask]
  files : p.client.files = onePieceOnDisk
  torrent : p.client.torrents 0 = some onePieceTorrent
  generated : 0 ∈ p.client.log.generated
  flag : p.group.shouldTerminate = false

variable (env fuel) in
theorem onePiece_program : ∃ p : Program 1 0, Reachable (program env fuel 1 0) p ∧
    p.HasOnePiece := by
  have hstart : Reachable (program env fuel 1 0) (Program.start onePieceOnDisk) := .init ⟨_, rfl⟩
  have hbegin := hstart.step (.add rfl rfl (by simp [Program.start, State.start]) (.addBegin rfl))
  have hgenerate := hbegin.step (.add rfl rfl (by simp) (.addGenerate rfl
    ⟨by simp [Program.start, State.start], by simp [Program.start, State.start],
      fun j => j.elim0⟩
    (rfl : _ = State.tryEmplace _ 0 (.create 0 onePiece [⟨1, 2⟩]))
    (show [(⟨1, 2⟩ : Peer)] ≠ [] by decide)
    (show Torrent.pieces onePiece (fun _ => some 0) = .ok [⟨0, [⟨[97], 0, 3⟩]⟩] by decide)))
  have hemplace := hgenerate.step (.emplace rfl rfl (by decide) (.addEmplace rfl))
  obtain ⟨queue, hemplaced, hcalm⟩ := calm_of_call (s := Mt.State.start) (fun _ => rfl)
    hemplace rfl (by simp) (by simp)
  have hfinish := hemplaced.step (.finish (hcalm .adder) rfl (.addFinish rfl))
  obtain ⟨queue', hfinished, hcalm'⟩ := calm_of_call hcalm hfinish rfl (by simp) (by simp)
  exact ⟨_, hfinished, hcalm', rfl, rfl, rfl, rfl, rfl, rfl, rfl, List.mem_cons_self, rfl⟩

/-- The worker is in `process` with the piece. -/
structure Program.WorksOnPiece (p : Program 1 0) : Prop where
  calm : p.Calm
  running : p.phase = .running
  position : p.positions 0 = .busy
  working : p.client.workers 0 = .working onePieceTask [⟨1, 2⟩]
  adder : p.client.adder = .idle
  files : p.client.files = onePieceOnDisk
  torrent : p.client.torrent 0 = onePieceTorrent
  generated : 0 ∈ p.client.log.generated
  flag : p.group.shouldTerminate = false

theorem Program.WorksOnPiece.quiescent {p : Program 1 0} (h : p.WorksOnPiece) : p.Quiescent :=
  ⟨h.adder, fun j => j.elim0, h.calm .adder, fun j => j.elim0⟩

variable (env fuel) in
theorem onePiece_busy : ∃ p : Program 1 0, Reachable (program env fuel 1 0) p ∧
    p.WorksOnPiece := by
  obtain ⟨p, hp, hone⟩ := onePiece_program env fuel
  have halive := hp.step (.checkAlive (i := 0) hone.position (hone.calm _) hone.flag)
  have htasks : Queue.extract lifoPolicy p.client.tasks = .ok (onePieceTask, []) := by
    rw [hone.tasks]
    rfl
  have hqueue : Queue.extract lifoPolicy p.queue.work = .ok (onePieceTask, []) := by
    rw [(linked_of_reachable hp).work, htasks]
  have hextract := halive.step (.extract (i := 0) (Program.positions_setPosition_self ..)
    (hone.calm _) hqueue (.extract hone.idle htasks))
  obtain ⟨queue, hextracted, hcalm⟩ :=
    calm_of_call (s := p.queue) hone.calm hextract rfl (by simp) (by simp)
  have htorrent := State.torrent_of_entry hone.torrent
  -- The torrent is not paused.
  obtain ⟨client, hstep, hworking, htorrent', hrest⟩ : ∃ client,
      Step env fuel ({ p.client with tasks := [] }.setWorker 0 (.extracted onePieceTask))
        (.worker 0) client ∧ client.workers 0 = .working onePieceTask [⟨1, 2⟩] ∧
      client.torrent 0 = onePieceTorrent ∧ client.adder = .idle ∧
      client.files = onePieceOnDisk ∧ 0 ∈ client.log.generated := by
    refine ⟨_, .work (State.workers_setWorker_self ..) (State.sharedLock_of_idle hone.adder) ?_,
      ?_, htorrent, hone.adder, hone.files, hone.generated⟩
    · show (p.client.torrent 0).state ≠ .paused
      rw [htorrent]
      decide
    · rw [State.workers_setWorker_self]
      show Worker.working onePieceTask (p.client.torrent 0).peers = _
      rw [htorrent]
      rfl
  have hwork := hextracted.step (.handle (i := 0) (by simp) (hcalm _)
    (by simp [State.workers_setWorker_self]) hstep)
  refine ⟨_, hwork, hcalm, hone.running, ?_, hworking, hrest.1, hrest.2.1, htorrent', hrest.2.2,
    hone.flag⟩
  simp [hworking]

end Furrent.Client
