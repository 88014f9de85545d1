import Furrent.Framework.System
import Furrent.Policy.Queue
import Furrent.Torrent.Torrent
import Furrent.Client.PieceTask

/-! # Workers and torrents

    Model of `Furrent` in `src/furrent.cpp`: `thread_main`, which any number
    of workers run, `add_torrent` and `remove_torrent`. A step is what one
    thread does between two points at which the others can notice: a
    critical section of the queue, or the accesses under the lock of
    `_torrents` up to and with one access to an atomic.

    * `add_torrent` is run by one thread at a time: it counts
      `_descriptor_next_uid` up outside of any lock.
    * `remove_torrent` is run by any number of threads.
    * The public atomic `state` may be stored to from outside at any time;
      nothing in the program itself pauses a torrent.

    A call of `process` is one step. What it does is decided by the peer,
    the disk and the memory; a call that throws or never returns is not a
    step, its worker keeps the task. Terminating the workers is left out:
    a worker leaves the loop only without a task.

    The `log` is not part of the program. It records what happened. -/

namespace Furrent.Client

open Cpp Platform Policy Transition

/-! ### States -/

/-- A piece of a torrent. -/
abbrev Key := TorrentID × Int

/-- The piece a task is for. -/
def PieceTask.key (task : PieceTask) : Key := (task.tid, task.piece.index)

/-- The mutation of `remove_torrent`. -/
def PieceTask.refersTo (tid : TorrentID) (task : PieceTask) : Bool := task.tid = tid

/-- Where a worker is in `thread_main`. -/
inductive Worker where
  /-- At the head of the loop, or waiting for work. -/
  | idle
  | extracted (task : PieceTask)
  /-- The torrent is paused; the shared lock is held. -/
  | paused (task : PieceTask)
  /-- In the loop `while (true)`, with a copy of the peers. -/
  | working (task : PieceTask) (peers : List Peer)
  /-- `process` has completed with the peer at `peerIndex`. -/
  | succeeded (task : PieceTask) (peerIndex : Nat)
  /-- `fetch_add` is done and gave `processed`; the shared lock is held. -/
  | counted (tid : TorrentID) (processed : Int)
  deriving DecidableEq, Repr

/-- The task a worker has taken from the queue and not dealt with. -/
def Worker.task : Worker → Option PieceTask
  | .idle => none
  | .extracted task => some task
  | .paused task => some task
  | .working task _ => some task
  | .succeeded task _ => some task
  | .counted _ _ => none

/-- Where the thread in `add_torrent` is. -/
inductive Adder where
  /-- No call is running. -/
  | idle
  /-- The file is loaded, parsed and prepared. -/
  | loading (tid : TorrentID)
  /-- The tasks for `pieces` are still to be emplaced; the lock is held. -/
  | emplacing (tid : TorrentID) (pieces : List Piece)
  deriving DecidableEq, Repr

/-- Where a thread in `remove_torrent` is. -/
inductive Remover where
  | idle
  /-- The tasks have been removed. -/
  | purged (tid : TorrentID)
  /-- `state` has been loaded; the shared lock is held. -/
  | loaded (tid : TorrentID) (state : TorrentState)
  deriving DecidableEq, Repr

/-- What has happened. -/
structure Log where
  /-- Pieces for which `process` has completed. -/
  saved : List Key := []
  /-- Pieces that `fetch_add` has counted. -/
  processed : List Key := []
  /-- Pieces whose tasks were removed from the queue. -/
  removed : List Key := []
  /-- Torrents a worker has set to `Completed`. -/
  completed : List TorrentID := []
  /-- Torrents whose tasks have been generated. -/
  generated : List TorrentID := []
  deriving DecidableEq, Repr

/-- `Furrent` with `n` workers and `m` threads that remove torrents. -/
structure State (n m : Nat) where
  workers : Fin n → Worker
  removers : Fin m → Remover
  adder : Adder
  tasks : List PieceTask
  torrents : TorrentID → Option Torrent
  nextUid : TorrentID
  files : FileSystem
  log : Log

variable {n m : Nat}

namespace State

/-- Nothing has been added yet. -/
def start (files : FileSystem) : State n m where
  workers := fun _ => .idle
  removers := fun _ => .idle
  adder := .idle
  tasks := []
  torrents := fun _ => none
  nextUid := 0
  files := files
  log := {}

/-- `_torrents[tid]`: an entry made by the default constructor is inserted
    if there is none. -/
def torrent (s : State n m) (tid : TorrentID) : Torrent := (s.torrents tid).getD {}

def setTorrent (s : State n m) (tid : TorrentID) (t : Torrent) : State n m :=
  { s with torrents := Function.update s.torrents tid (some t) }

def setWorker (s : State n m) (i : Fin n) (w : Worker) : State n m :=
  { s with workers := Function.update s.workers i w }

def setRemover (s : State n m) (j : Fin m) (r : Remover) : State n m :=
  { s with removers := Function.update s.removers j r }

/-- `_torrents.try_emplace(tid, …)`: an entry that is there stays. -/
def tryEmplace (s : State n m) (tid : TorrentID) (t : Torrent) : State n m :=
  s.setTorrent tid ((s.torrents tid).getD t)

/-- The lock can be taken shared. -/
def SharedLock (s : State n m) : Prop := ∀ tid pieces, s.adder ≠ .emplacing tid pieces

/-- The lock can be taken exclusively. -/
def UniqueLock (s : State n m) : Prop :=
  (∀ i task, s.workers i ≠ .paused task) ∧
    (∀ i tid processed, s.workers i ≠ .counted tid processed) ∧
      ∀ j tid state, s.removers j ≠ .loaded tid state

end State

/-! ### Steps -/

/-- Who takes a step. -/
inductive Actor (n m : Nat) where
  | worker (i : Fin n)
  | adder
  | remover (j : Fin m)
  | outside
  deriving DecidableEq, Repr

section

variable {W : Type} (env : Peer → Download.Env W) (fuel : Nat)

inductive Step : State n m → Actor n m → State n m → Prop where
  -- thread_main
  | extract {s : State n m} {i : Fin n} {task : PieceTask} {tasks : List PieceTask}
      (hi : s.workers i = .idle)
      (htask : Queue.extract lifoPolicy s.tasks = .ok (task, tasks)) :
      Step s (.worker i) ({ s with tasks := tasks }.setWorker i (.extracted task))
  | findPaused {s : State n m} {i : Fin n} {task : PieceTask}
      (hi : s.workers i = .extracted task) (hlock : s.SharedLock)
      (hstate : (s.torrent task.tid).state = .paused) :
      Step s (.worker i)
        ((s.setTorrent task.tid (s.torrent task.tid)).setWorker i (.paused task))
  -- The descriptor is read again under the lock, the data is dropped.
  | requeue {s : State n m} {i : Fin n} {task : PieceTask} (hi : s.workers i = .paused task) :
      Step s (.worker i)
        ({ s with
          tasks := Queue.emplace s.tasks
            ⟨none, task.tid, task.piece, (s.torrent task.tid).descriptor⟩ }.setWorker i .idle)
  | work {s : State n m} {i : Fin n} {task : PieceTask}
      (hi : s.workers i = .extracted task) (hlock : s.SharedLock)
      (hstate : (s.torrent task.tid).state ≠ .paused) :
      Step s (.worker i)
        ((s.setTorrent task.tid (s.torrent task.tid)).setWorker i
          (.working task (s.torrent task.tid).peers))
  -- The peer is drawn at random: any index of the copied list.
  | fail {s : State n m} {i : Fin n} {task task' : PieceTask} {peers : List Peer}
      {peerIndex : Nat} {peer : Peer} {w : W} {faults : Nat → WriteFault} {files : FileSystem}
      (hi : s.workers i = .working task peers) (hpeer : peers[peerIndex]? = some peer)
      (hprocess : process (env peer) fuel task w faults s.files = (task', files, .ok false)) :
      Step s (.worker i) ({ s with files := files }.setWorker i (.working task' peers))
  | succeed {s : State n m} {i : Fin n} {task task' : PieceTask} {peers : List Peer}
      {peerIndex : Nat} {peer : Peer} {w : W} {faults : Nat → WriteFault} {files : FileSystem}
      (hi : s.workers i = .working task peers) (hpeer : peers[peerIndex]? = some peer)
      (hprocess : process (env peer) fuel task w faults s.files = (task', files, .ok true)) :
      Step s (.worker i)
        ({ s with
          files := files
          log := { s.log with saved := task.key :: s.log.saved } }.setWorker i
            (.succeeded task' peerIndex))
  | count {s : State n m} {i : Fin n} {task : PieceTask} {peerIndex : Nat}
      (hi : s.workers i = .succeeded task peerIndex) (hlock : s.SharedLock) :
      Step s (.worker i)
        (({ s with log := { s.log with processed := task.key :: s.log.processed } }.setTorrent
          task.tid
            { (s.torrent task.tid).atomicAddPeerScore peerIndex with
              piecesProcessed := (s.torrent task.tid).piecesProcessed + 1 }).setWorker i
          (.counted task.tid ((s.torrent task.tid).piecesProcessed + 1)))
  | complete {s : State n m} {i : Fin n} {tid : TorrentID} {processed : Int}
      (hi : s.workers i = .counted tid processed)
      (hlast : processed = (s.torrent tid).descriptor.piecesCount) :
      Step s (.worker i)
        (({ s with log := { s.log with completed := tid :: s.log.completed } }.setTorrent tid
          { s.torrent tid with state := .completed }).setWorker i .idle)
  | next {s : State n m} {i : Fin n} {tid : TorrentID} {processed : Int}
      (hi : s.workers i = .counted tid processed)
      (hmore : processed ≠ (s.torrent tid).descriptor.piecesCount) :
      Step s (.worker i) (s.setWorker i .idle)
  -- add_torrent
  | addBegin {s : State n m} (ha : s.adder = .idle) :
      Step s .adder { s with adder := .loading s.nextUid, nextUid := s.nextUid + 1 }
  -- `prepare_torrent_files` makes folders and files on the disk.
  | addPrepare {s : State n m} {tid : TorrentID} (files : FileSystem)
      (ha : s.adder = .loading tid) : Step s .adder { s with files := files }
  -- Loading, parsing or preparing has failed, or something has thrown.
  | addFail {s : State n m} {tid : TorrentID} (ha : s.adder = .loading tid) :
      Step s .adder { s with adder := .idle }
  | addWithoutPeers {s s' : State n m} {tid : TorrentID} {descriptor : TorrentFile}
      {peers : List Peer} (ha : s.adder = .loading tid) (hlock : s.UniqueLock)
      (hs' : s' = s.tryEmplace tid (.create tid descriptor peers))
      (hpeers : (s'.torrent tid).peers = []) :
      Step s .adder
        { s'.setTorrent tid { s'.torrent tid with state := .error } with adder := .idle }
  | addThrow {s s' : State n m} {tid : TorrentID} {descriptor : TorrentFile}
      {peers : List Peer} {beyond : Nat → Option Int} {x : StdException}
      (ha : s.adder = .loading tid) (hlock : s.UniqueLock)
      (hs' : s' = s.tryEmplace tid (.create tid descriptor peers))
      (hpeers : (s'.torrent tid).peers ≠ [])
      (hpieces : Torrent.pieces (s'.torrent tid).descriptor beyond = .error (.throw x)) :
      Step s .adder { s' with adder := .idle }
  | addGenerate {s s' : State n m} {tid : TorrentID} {descriptor : TorrentFile}
      {peers : List Peer} {beyond : Nat → Option Int} {pieces : List Piece}
      (ha : s.adder = .loading tid) (hlock : s.UniqueLock)
      (hs' : s' = s.tryEmplace tid (.create tid descriptor peers))
      (hpeers : (s'.torrent tid).peers ≠ [])
      (hpieces : Torrent.pieces (s'.torrent tid).descriptor beyond = .ok pieces) :
      Step s .adder
        { s' with
          adder := .emplacing tid pieces
          log := { s'.log with generated := tid :: s'.log.generated } }
  | addEmplace {s : State n m} {tid : TorrentID} {piece : Piece} {pieces : List Piece}
      (ha : s.adder = .emplacing tid (piece :: pieces)) :
      Step s .adder
        { s with
          adder := .emplacing tid pieces
          tasks := Queue.emplace s.tasks ⟨none, tid, piece, (s.torrent tid).descriptor⟩ }
  | addFinish {s : State n m} {tid : TorrentID} (ha : s.adder = .emplacing tid []) :
      Step s .adder
        { s.setTorrent tid { s.torrent tid with state := .downloading } with adder := .idle }
  -- remove_torrent
  | purge {s : State n m} {j : Fin m} (tid : TorrentID) (hj : s.removers j = .idle) :
      Step s (.remover j)
        ({ s with
          tasks := Queue.mutate (PieceTask.refersTo tid) s.tasks
          log := { s.log with
            removed := (s.tasks.filter (PieceTask.refersTo tid)).map PieceTask.key
              ++ s.log.removed } }.setRemover j (.purged tid))
  | load {s : State n m} {j : Fin m} {tid : TorrentID} (hj : s.removers j = .purged tid)
      (hlock : s.SharedLock) :
      Step s (.remover j)
        ((s.setTorrent tid (s.torrent tid)).setRemover j (.loaded tid (s.torrent tid).state))
  -- The state is loaded and stored in two accesses: between them a worker
  -- may set `Completed`, which this overwrites.
  | stop {s : State n m} {j : Fin m} {tid : TorrentID} {state : TorrentState}
      (hj : s.removers j = .loaded tid state) (hstate : state ≠ .completed ∧ state ≠ .error) :
      Step s (.remover j)
        ((s.setTorrent tid { s.torrent tid with state := .stopped }).setRemover j .idle)
  | keep {s : State n m} {j : Fin m} {tid : TorrentID} {state : TorrentState}
      (hj : s.removers j = .loaded tid state) (hstate : state = .completed ∨ state = .error) :
      Step s (.remover j) (s.setRemover j .idle)
  -- anyone who has the torrent
  | store {s : State n m} {tid : TorrentID} {t : Torrent} (state : TorrentState)
      (ht : s.torrents tid = some t) :
      Step s .outside (s.setTorrent tid { t with state := state })

/-- The running program, with `n` workers. -/
def furrent (n m : Nat) : System (State n m) (Actor n m) where
  init := fun s => ∃ files, s = State.start files
  step := Step env fuel

end

/-! ### Updates -/

namespace State

variable (s : State n m)

theorem sharedLock_of_idle {s : State n m} (h : s.adder = .idle) : s.SharedLock := by
  intro tid pieces ha
  rw [h] at ha
  cases ha

theorem torrent_of_entry {s : State n m} {tid : TorrentID} {t : Torrent}
    (ht : s.torrents tid = some t) : s.torrent tid = t := by
  rw [torrent, ht, Option.getD_some]

@[simp] theorem torrent_setTorrent (tid tid' : TorrentID) (t : Torrent) :
    (s.setTorrent tid t).torrent tid' = if tid' = tid then t else s.torrent tid' := by
  unfold torrent setTorrent
  by_cases h : tid' = tid
  · simp [h]
  · simp [h]

@[simp] theorem torrent_tryEmplace (tid tid' : TorrentID) (t : Torrent) :
    (s.tryEmplace tid t).torrent tid'
      = if tid' = tid then (s.torrents tid).getD t else s.torrent tid' :=
  torrent_setTorrent s tid tid' _

@[simp] theorem workers_setWorker_self (i : Fin n) (w : Worker) :
    (s.setWorker i w).workers i = w := Function.update_self ..

@[simp] theorem removers_setRemover_self (j : Fin m) (r : Remover) :
    (s.setRemover j r).removers j = r := Function.update_self ..

@[simp] theorem torrents_setTorrent_self (tid : TorrentID) (t : Torrent) :
    (s.setTorrent tid t).torrents tid = some t := Function.update_self ..

theorem workers_setWorker_of_ne {i i' : Fin n} (h : i' ≠ i) (w : Worker) :
    (s.setWorker i w).workers i' = s.workers i' := Function.update_of_ne h ..

end State

end Furrent.Client
