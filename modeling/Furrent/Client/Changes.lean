import Furrent.Client.Accounting

/-! # What a step changes

    This module says once what a step can do to an entry of `_torrents`, to
    a worker, to a thread in `remove_torrent` and to the one in
    `add_torrent`. `_torrents[tid]` is accessed from everywhere, and an
    access to a torrent that is not there inserts one made by the default
    constructor. -/

namespace Furrent.Client

open Cpp Platform Policy Transition

variable {n m : Nat} {W : Type} {env : Peer → Download.Env W} {fuel : Nat} {s s' : State n m}
  {a : Actor n m} {i : Fin n} {j : Fin m} {tid : TorrentID}

/-- A step of the program itself. -/
def OwnStep (_ : State n m) (a : Actor n m) (_ : State n m) : Prop := a ≠ .outside

theorem ownStep_worker : OwnStep s (.worker i) s' := by
  simp [OwnStep]

theorem ownStep_remover : OwnStep s (.remover j) s' := by
  simp [OwnStep]

theorem ownStep_adder : OwnStep s .adder s' := by
  simp [OwnStep]

/-! ### Entries -/

/-- What becomes of the entry of `tid` when `a` takes a step from `s` to
    `s'`. -/
inductive EntryChange (s : State n m) (a : Actor n m) (s' : State n m) (tid : TorrentID) :
    Option Torrent → Prop where
  | same : EntryChange s a s' tid (s.torrents tid)
  /-- It is accessed and inserted. -/
  | insert (absent : s.torrents tid = none) : EntryChange s a s' tid (some {})
  | count {i : Fin n} {task : PieceTask} {peerIndex : Nat}
      (worker : s.workers i = .succeeded task peerIndex) (tid_eq : task.tid = tid) :
      EntryChange s a s' tid (some
        { (s.torrent tid).atomicAddPeerScore peerIndex with
          piecesProcessed := (s.torrent tid).piecesProcessed + 1 })
  | complete {i : Fin n} {processed : Int} (actor : a = .worker i)
      (worker : s.workers i = .counted tid processed)
      (last : processed = (s.torrent tid).descriptor.piecesCount) :
      EntryChange s a s' tid (some { s.torrent tid with state := .completed })
  | create {descriptor : TorrentFile} {peers : List Peer} (loading : s.adder = .loading tid)
      (lock : s.UniqueLock) (absent : s.torrents tid = none) (leaves : s'.adder ≠ .loading tid)
      (nextUid : s'.nextUid = s.nextUid) :
      EntryChange s a s' tid (some (.create tid descriptor peers))
  | withoutPeers {t : Torrent} (loading : s.adder = .loading tid) (lock : s.UniqueLock)
      (found : ∀ t', s.torrents tid = some t' → t' = t) (peers : t.peers = [])
      (leaves : s'.adder = .idle) (nextUid : s'.nextUid = s.nextUid) :
      EntryChange s a s' tid (some { t with state := .error })
  | finish (emplacing : s.adder = .emplacing tid []) (leaves : s'.adder = .idle) :
      EntryChange s a s' tid (some { s.torrent tid with state := .downloading })
  | stop {j : Fin m} {state : TorrentState} (remover : s.removers j = .loaded tid state)
      (running : state ≠ .completed ∧ state ≠ .error) :
      EntryChange s a s' tid (some { s.torrent tid with state := .stopped })
  | store {t : Torrent} (actor : a = .outside) (state : TorrentState) :
      EntryChange s a s' tid (some { t with state := state })

/-- An update of the entry of `tid'` changes that entry only. -/
theorem entry_update {t : Torrent} {tid' : TorrentID}
    (hs' : s'.torrents = Function.update s.torrents tid' (some t))
    (h : tid = tid' → EntryChange s a s' tid (some t)) :
    EntryChange s a s' tid (s'.torrents tid) := by
  rw [hs']
  by_cases heq : tid = tid'
  · rw [heq, Function.update_self, ← heq]
    exact h heq
  · rw [Function.update_of_ne heq]
    exact .same

/-- An access inserts what is not there. -/
theorem entry_access : EntryChange s a s' tid (some (s.torrent tid)) := by
  cases htid : s.torrents tid with
  | none =>
    rw [State.torrent, htid]
    exact .insert htid
  | some t =>
    rw [State.torrent, htid, Option.getD_some, ← htid]
    exact .same

/-- `try_emplace` creates a torrent that is not there. -/
theorem entry_tryEmplace {descriptor : TorrentFile} {peers : List Peer} {tid' : TorrentID}
    (ha : s.adder = .loading tid') (hlock : s.UniqueLock)
    (hs' : s'.torrents = (s.tryEmplace tid' (.create tid' descriptor peers)).torrents)
    (hleaves : s'.adder ≠ .loading tid') (hnext : s'.nextUid = s.nextUid) :
    EntryChange s a s' tid (s'.torrents tid) := by
  refine entry_update hs' ?_
  rintro rfl
  cases htid : s.torrents tid with
  | none => exact .create ha hlock htid hleaves hnext
  | some t =>
    rw [Option.getD_some, ← htid]
    exact .same

theorem Step.entry (h : Step env fuel s a s') (tid : TorrentID) :
    EntryChange s a s' tid (s'.torrents tid) := by
  cases h with
  | findPaused hi hlock hstate =>
    refine entry_update rfl ?_
    rintro rfl
    exact entry_access
  | work hi hlock hstate =>
    refine entry_update rfl ?_
    rintro rfl
    exact entry_access
  | count hi hlock =>
    refine entry_update rfl ?_
    rintro rfl
    exact .count hi rfl
  | complete hi hlast =>
    refine entry_update rfl ?_
    rintro rfl
    exact .complete rfl hi hlast
  | addWithoutPeers ha hlock hs₁ hpeers =>
    subst hs₁
    -- The entry is updated twice.
    refine entry_update (Function.update_idem ..) ?_
    rintro rfl
    refine .withoutPeers ha hlock ?_ hpeers rfl rfl
    intro t' ht'
    rw [State.torrent_tryEmplace, if_pos rfl, ht', Option.getD_some]
  | addThrow ha hlock hs₁ hpeers hpieces =>
    subst hs₁
    exact entry_tryEmplace ha hlock rfl nofun rfl
  | addGenerate ha hlock hs₁ hpeers hpieces =>
    subst hs₁
    exact entry_tryEmplace ha hlock rfl nofun rfl
  | addFinish ha =>
    refine entry_update rfl ?_
    rintro rfl
    exact .finish ha rfl
  | load hj hlock =>
    refine entry_update rfl ?_
    rintro rfl
    exact entry_access
  | stop hj hstate =>
    refine entry_update rfl ?_
    rintro rfl
    exact .stop hj hstate
  | store state ht =>
    refine entry_update rfl ?_
    rintro rfl
    exact .store rfl state
  | _ => exact .same

/-- An entry stays. -/
theorem Step.entry_some (h : Step env fuel s a s') {t : Torrent} (ht : s.torrents tid = some t) :
    ∃ t', s'.torrents tid = some t' := by
  have hentry := h.entry tid
  generalize s'.torrents tid = entry at hentry
  cases hentry with
  | same => exact ⟨t, ht⟩
  | _ => exact ⟨_, rfl⟩

/-! ### Workers -/

/-- What becomes of worker `i` in a step from `s`. -/
inductive WorkerChange (s : State n m) (i : Fin n) : Worker → Prop where
  | same : WorkerChange s i (s.workers i)
  | extract {task : PieceTask} (queued : task ∈ s.tasks) : WorkerChange s i (.extracted task)
  | findPaused {task : PieceTask} (worker : s.workers i = .extracted task)
      (lock : s.SharedLock) (state : (s.torrent task.tid).state = .paused) :
      WorkerChange s i (.paused task)
  | work {task : PieceTask} {peers : List Peer} (worker : s.workers i = .extracted task) :
      WorkerChange s i (.working task peers)
  | fail {task task' : PieceTask} {peers : List Peer} (worker : s.workers i = .working task peers) :
      WorkerChange s i (.working task' peers)
  | succeed {task task' : PieceTask} {peers : List Peer} {peerIndex : Nat}
      (worker : s.workers i = .working task peers) :
      WorkerChange s i (.succeeded task' peerIndex)
  | count {task : PieceTask} {peerIndex : Nat} {sum : Int}
      (worker : s.workers i = .succeeded task peerIndex) (lock : s.SharedLock) :
      WorkerChange s i (.counted task.tid sum)
  /-- It has put its task back or is done with it. -/
  | done : WorkerChange s i .idle

theorem worker_update {i' : Fin n} {w : Worker}
    (hs' : s'.workers = Function.update s.workers i' w) (h : WorkerChange s i' w) (i : Fin n) :
    WorkerChange s i (s'.workers i) := by
  rw [hs']
  by_cases heq : i = i'
  · rw [heq, Function.update_self]
    exact h
  · rw [Function.update_of_ne heq]
    exact .same

theorem Step.worker (h : Step env fuel s a s') (i : Fin n) : WorkerChange s i (s'.workers i) := by
  cases h with
  | extract hi hextract =>
    refine worker_update rfl (.extract ?_) i
    rw [Queue.extract_lifo hextract]
    exact List.mem_cons_self
  | findPaused hi hlock hstate => exact worker_update rfl (.findPaused hi hlock hstate) i
  | requeue hi => exact worker_update rfl .done i
  | work hi hlock hstate => exact worker_update rfl (.work hi) i
  | fail hi hpeer hprocess => exact worker_update rfl (.fail hi) i
  | succeed hi hpeer hprocess => exact worker_update rfl (.succeed hi) i
  | count hi hlock => exact worker_update rfl (.count hi hlock) i
  | complete hi hlast => exact worker_update rfl .done i
  | next hi hmore => exact worker_update rfl .done i
  | addWithoutPeers ha hlock hs₁ hpeers =>
    subst hs₁
    exact .same
  | addThrow ha hlock hs₁ hpeers hpieces =>
    subst hs₁
    exact .same
  | addGenerate ha hlock hs₁ hpeers hpieces =>
    subst hs₁
    exact .same
  | _ => exact .same

/-! ### Threads in `remove_torrent` -/

/-- What becomes of thread `j` in a step from `s` to `s'`. -/
inductive RemoverChange (s s' : State n m) (j : Fin m) : Remover → Prop where
  | same : RemoverChange s s' j (s.removers j)
  | purge (tid : TorrentID) : RemoverChange s s' j (.purged tid)
  | load {tid : TorrentID} {t : Torrent} (remover : s.removers j = .purged tid)
      (lock : s.SharedLock) (entry : s'.torrents tid = some t) :
      RemoverChange s s' j (.loaded tid t.state)
  | done : RemoverChange s s' j .idle

theorem remover_update {j' : Fin m} {r : Remover}
    (hs' : s'.removers = Function.update s.removers j' r) (h : RemoverChange s s' j' r)
    (j : Fin m) : RemoverChange s s' j (s'.removers j) := by
  rw [hs']
  by_cases heq : j = j'
  · rw [heq, Function.update_self]
    exact h
  · rw [Function.update_of_ne heq]
    exact .same

theorem Step.remover (h : Step env fuel s a s') (j : Fin m) :
    RemoverChange s s' j (s'.removers j) := by
  cases h with
  | purge tid hj => exact remover_update rfl (.purge tid) j
  | load hj hlock =>
    refine remover_update rfl (.load hj hlock ?_) j
    exact State.torrents_setTorrent_self ..
  | stop hj hstate => exact remover_update rfl .done j
  | keep hj hstate => exact remover_update rfl .done j
  | addWithoutPeers ha hlock hs₁ hpeers =>
    subst hs₁
    exact .same
  | addThrow ha hlock hs₁ hpeers hpieces =>
    subst hs₁
    exact .same
  | addGenerate ha hlock hs₁ hpeers hpieces =>
    subst hs₁
    exact .same
  | _ => exact .same

/-! ### The thread in `add_torrent` -/

/-- The tasks of a torrent are emplaced after they have been generated. -/
theorem Step.emplacing (h : Step env fuel s a s') {pieces : List Piece}
    (ha : s'.adder = .emplacing tid pieces) :
    (∃ pieces₀, s.adder = .emplacing tid pieces₀) ∨
      s.adder = .loading tid ∧ s'.UniqueLock ∧ s'.log.generated ≠ s.log.generated := by
  cases h with
  | addBegin => cases ha
  | addFail => cases ha
  | addWithoutPeers => cases ha
  | addThrow => cases ha
  | addGenerate ha' hlock hs₁ hpeers hpieces =>
    subst hs₁
    injection ha with htid _
    rw [htid] at ha'
    exact .inr ⟨ha', hlock, List.cons_ne_self _ _⟩
  | addEmplace ha' =>
    injection ha with htid _
    rw [htid] at ha'
    exact .inl ⟨_, ha'⟩
  | addFinish => cases ha
  | _ => exact .inl ⟨pieces, ha⟩

/-- While the tasks are emplaced nobody else has the lock. -/
def State.Exclusive (s : State n m) : Prop :=
  ∀ tid pieces, s.adder = .emplacing tid pieces → s.UniqueLock

theorem Step.exclusive (h : Step env fuel s a s') (hs : s.Exclusive) : s'.Exclusive := by
  intro tid pieces ha
  rcases h.emplacing ha with ⟨pieces₀, hold⟩ | ⟨_, hlock, _⟩
  · obtain ⟨hpaused, hcounted, hloaded⟩ := hs tid pieces₀ hold
    -- Nobody can have taken the lock in this step.
    refine ⟨?_, ?_, ?_⟩
    · intro i task hi
      have hworker := h.worker i
      rw [hi] at hworker
      generalize hw : Worker.paused task = w at hworker
      cases hworker with
      | same => exact hpaused i task hw.symm
      | findPaused _ lock _ => exact lock tid pieces₀ hold
      | _ => cases hw
    · intro i tid' processed hi
      have hworker := h.worker i
      rw [hi] at hworker
      generalize hw : Worker.counted tid' processed = w at hworker
      cases hworker with
      | same => exact hcounted i tid' processed hw.symm
      | count _ lock => exact lock tid pieces₀ hold
      | _ => cases hw
    · intro j tid' state hj
      have hremover := h.remover j
      rw [hj] at hremover
      generalize hr : Remover.loaded tid' state = r at hremover
      cases hremover with
      | same => exact hloaded j tid' state hr.symm
      | load _ lock _ => exact lock tid pieces₀ hold
      | _ => cases hr
  · exact hlock

theorem exclusive_of_reachable (h : Reachable (furrent env fuel n m) s) : s.Exclusive := by
  refine h.invariant ?_ ?_
  · rintro _ ⟨files, rfl⟩
    exact nofun
  · intro s a s' _ hs hstep
    exact hstep.exclusive hs

/-- No `add_torrent` has got the number, or the one that has is still
    loading. -/
def State.Unadded (s : State n m) (tid : TorrentID) : Prop :=
  s.nextUid ≤ tid ∨ s.adder = .loading tid

theorem Step.unadded (h : Step env fuel s a s') (hs' : s'.Unadded tid) : s.Unadded tid := by
  cases h with
  | addBegin ha =>
    rcases hs' with hle | hload
    · exact .inl (le_trans (Int.le_add_one (le_refl s.nextUid)) hle)
    · injection hload with htid
      exact .inl (le_of_eq htid)
  | addWithoutPeers ha hlock hs₁ hpeers =>
    subst hs₁
    exact .inl (hs'.resolve_right nofun)
  | addThrow ha hlock hs₁ hpeers hpieces =>
    subst hs₁
    exact .inl (hs'.resolve_right nofun)
  | addGenerate ha hlock hs₁ hpeers hpieces =>
    subst hs₁
    exact .inl (hs'.resolve_right nofun)
  | addFail ha => exact .inl (hs'.resolve_right nofun)
  | addEmplace ha => exact .inl (hs'.resolve_right nofun)
  | addFinish ha => exact .inl (hs'.resolve_right nofun)
  | _ => exact hs'

theorem State.Fresh.not_unadded (hf : s.Fresh) (htid : tid ∈ s.log.generated) :
    ¬ s.Unadded tid := by
  rintro (hle | hload)
  · exact absurd (hf.generated tid htid) (not_lt.mpr hle)
  · exact (hf.loading tid hload).2 htid

/-- What has been generated stays so. -/
theorem Step.generated_subset (h : Step env fuel s a s') :
    s.log.generated ⊆ s'.log.generated := by
  by_cases hgen : s'.log.generated = s.log.generated
  · rw [hgen]
    exact List.Subset.refl _
  · obtain ⟨tid, _, _, _, _, _, _, _, rfl⟩ := h.generated hgen
    exact List.subset_cons_self _ _

/-- A torrent with tasks is in the map. -/
theorem entry_of_generated (h : Reachable (furrent env fuel n m) s)
    (htid : tid ∈ s.log.generated) : ∃ t, s.torrents tid = some t := by
  revert htid
  refine h.invariant (I := fun s => tid ∈ s.log.generated → ∃ t, s.torrents tid = some t) ?_ ?_
  · rintro _ ⟨files, rfl⟩
    simp [State.start]
  · intro s a s' _ hs hstep htid
    by_cases hgen : s'.log.generated = s.log.generated
    · rw [hgen] at htid
      obtain ⟨t, ht⟩ := hs htid
      exact hstep.entry_some ht
    · obtain ⟨tid', descriptor, peers, beyond, pieces, _, _, _, rfl⟩ := hstep.generated hgen
      rcases List.mem_cons.mp htid with rfl | htid
      · exact ⟨_, Function.update_self ..⟩
      · obtain ⟨t, ht⟩ := hs htid
        exact hstep.entry_some ht

/-! ### A call of `remove_torrent` -/

/-- `remove_torrent` can always get to the load of the state. -/
theorem remove_begins (tid : TorrentID) {j : Fin m} (hj : s.removers j = .idle)
    (hlock : s.SharedLock) :
    ∃ s₁ s₂, Step env fuel s (.remover j) s₁ ∧ s₁.removers j = .purged tid ∧
      Step env fuel s₁ (.remover j) s₂ ∧ s₂.removers j = .loaded tid (s.torrent tid).state ∧
      s₂.workers = s.workers ∧ s₂.torrents tid = some (s.torrent tid) := by
  obtain ⟨s₁, h₁, hj₁, hworkers, htorrent, hlock₁⟩ : ∃ s₁, Step env fuel s (.remover j) s₁ ∧
      s₁.removers j = .purged tid ∧ s₁.workers = s.workers ∧ s₁.torrent = s.torrent ∧
      s₁.SharedLock :=
    ⟨_, .purge tid hj, State.removers_setRemover_self .., rfl, rfl, hlock⟩
  refine ⟨s₁, _, h₁, hj₁, .load hj₁ hlock₁, ?_, hworkers, ?_⟩
  · rw [← htorrent]
    exact State.removers_setRemover_self ..
  · rw [← htorrent]
    exact State.torrents_setTorrent_self ..

end Furrent.Client
