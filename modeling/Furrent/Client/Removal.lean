import Furrent.Client.Changes

/-! # Removing a torrent

    `remove_torrent` first takes the tasks of the torrent out of the queue
    and then changes its state. A worker that has extracted a task of a
    paused torrent puts it back, whatever has become of the queue in the
    meantime. So the queue stays without tasks of the torrent if and only if
    nobody is on the way to do this when it is purged. -/

namespace Furrent.Client

open Cpp Platform Policy Transition

variable {n m : Nat} {W : Type} {env : Peer → Download.Env W} {fuel : Nat} {s s' s₁ : State n m}
  {a : Actor n m} {i : Fin n} {j : Fin m} {tid : TorrentID}

/-- No worker is on the way to put a task of `tid` back. -/
structure Unclaimed (s : State n m) (tid : TorrentID) : Prop where
  /-- None has found the torrent paused and not yet put its task back. -/
  paused : ∀ i task, s.workers i = .paused task → task.tid ≠ tid
  /-- None has its state still to read while it is paused. -/
  extracted : (s.torrent tid).state = .paused →
    ∀ i task, s.workers i = .extracted task → task.tid ≠ tid

/-- `add_torrent` is done with the torrent. -/
def Added (s : State n m) (tid : TorrentID) : Prop :=
  ¬ s.Unadded tid ∧ ∀ pieces, s.adder ≠ .emplacing tid pieces

theorem added_of_idle (ha : s.adder = .idle) (htid : tid < s.nextUid) : Added s tid := by
  refine ⟨?_, by simp [ha]⟩
  rintro (hle | hload)
  · exact absurd htid (not_lt.mpr hle)
  · rw [ha] at hload
    cases hload

/-- In every state after thread `j` has returned, there is no task of `tid`
    in the queue. In `s` the thread is still in `remove_torrent`. -/
def RemovalLasts (env : Peer → Download.Env W) (fuel : Nat) (j : Fin m) (tid : TorrentID)
    (s : State n m) : Prop :=
  ∀ s₁ s', Reaches ((furrent env fuel n m).restrict OwnStep) s s₁ → s₁.removers j = .idle →
    Reaches ((furrent env fuel n m).restrict OwnStep) s₁ s' → ∀ task ∈ s'.tasks, task.tid ≠ tid

theorem RemovalLasts.after (h : RemovalLasts env fuel j tid s)
    (hrun : Reaches ((furrent env fuel n m).restrict OwnStep) s s') :
    RemovalLasts env fuel j tid s' :=
  fun s₁ s₂ hrun₁ hj hrun₂ => h s₁ s₂ (Relation.ReflTransGen.trans hrun hrun₁) hj hrun₂

/-! ### Nobody puts a task back -/

/-- The program itself pauses no torrent. -/
theorem Step.paused (h : Step env fuel s a s') (hown : OwnStep s a s')
    (hs' : (s'.torrent tid).state = .paused) : (s.torrent tid).state = .paused := by
  have hentry := h.entry tid
  rw [State.torrent] at hs'
  generalize s'.torrents tid = entry at hentry hs'
  cases hentry with
  | same => exact hs'
  | count worker tid_eq => exact hs'
  | store actor state => exact absurd actor hown
  | _ => cases hs'

/-- Where a task in the queue comes from. -/
theorem Step.queued (h : Step env fuel s a s') {task : PieceTask} (htask : task ∈ s'.tasks) :
    task ∈ s.tasks ∨ (∃ i task₀, s.workers i = .paused task₀ ∧ task₀.tid = task.tid) ∨
      ∃ pieces, s.adder = .emplacing task.tid pieces := by
  cases h with
  | extract hi hextract =>
    rw [Queue.extract_lifo hextract]
    exact .inl (List.mem_cons_of_mem _ htask)
  | requeue hi =>
    rcases List.mem_append.mp htask with hold | hnew
    · exact .inl hold
    · rw [List.mem_singleton.mp hnew]
      exact .inr (.inl ⟨_, _, hi, rfl⟩)
  | addEmplace ha =>
    rcases List.mem_append.mp htask with hold | hnew
    · exact .inl hold
    · rw [List.mem_singleton.mp hnew]
      exact .inr (.inr ⟨_, ha⟩)
  | purge tid hj =>
    have htask : task ∈ Queue.mutate (PieceTask.refersTo tid) s.tasks := htask
    rw [Queue.mutate_eq_filter] at htask
    exact .inl (List.mem_filter.mp htask).1
  | addWithoutPeers ha hlock hs₁ hpeers =>
    subst hs₁
    exact .inl htask
  | addThrow ha hlock hs₁ hpeers hpieces =>
    subst hs₁
    exact .inl htask
  | addGenerate ha hlock hs₁ hpeers hpieces =>
    subst hs₁
    exact .inl htask
  | _ => exact .inl htask

theorem Added.step (hs : Added s tid) (h : Step env fuel s a s') : Added s' tid := by
  refine ⟨fun hs' => hs.1 (h.unadded hs'), ?_⟩
  intro pieces ha
  rcases h.emplacing ha with ⟨pieces₀, hadder⟩ | ⟨hload, _, _⟩
  · exact hs.2 pieces₀ hadder
  · exact hs.1 (.inr hload)

/-- There is no task of `tid` in the queue, and nobody is on the way to put
    one there. -/
structure Removed (s : State n m) (tid : TorrentID) : Prop extends Unclaimed s tid where
  added : Added s tid
  queue : ∀ task ∈ s.tasks, task.tid ≠ tid

theorem Removed.step (hs : Removed s tid) (h : Step env fuel s a s') (hown : OwnStep s a s') :
    Removed s' tid := by
  constructor
  · constructor
    · intro i task hi htid
      have hworker := h.worker i
      rw [hi] at hworker
      generalize hw : Worker.paused task = w at hworker
      cases hworker with
      | same => exact hs.paused i task hw.symm htid
      | findPaused worker lock state =>
        cases hw
        rw [htid] at state
        exact hs.extracted state i task worker htid
      | _ => cases hw
    · intro hstate i task hi htid
      have hworker := h.worker i
      rw [hi] at hworker
      generalize hw : Worker.extracted task = w at hworker
      cases hworker with
      | same => exact hs.extracted (h.paused hown hstate) i task hw.symm htid
      | extract queued =>
        cases hw
        exact hs.queue task queued htid
      | _ => cases hw
  · exact hs.added.step h
  · intro task htask htid
    rcases h.queued htask with hold | ⟨i, task₀, hi, heq⟩ | ⟨pieces, ha⟩
    · exact hs.queue task hold htid
    · exact hs.paused i task₀ hi (heq.trans htid)
    · rw [htid] at ha
      exact hs.added.2 pieces ha

/-- What the first step of `remove_torrent` does. -/
theorem Step.purged (h : Step env fuel s (.remover j) s₁) (hj : s.removers j = .idle)
    (hj₁ : s₁.removers j = .purged tid) :
    s₁.workers = s.workers ∧ s₁.adder = s.adder ∧ s₁.nextUid = s.nextUid ∧
      s₁.torrent = s.torrent ∧ ∀ task ∈ s₁.tasks, task.tid ≠ tid := by
  cases h with
  | purge tid' hj' =>
    rw [State.removers_setRemover_self] at hj₁
    injection hj₁ with htid
    subst htid
    refine ⟨rfl, rfl, rfl, rfl, ?_⟩
    intro task htask
    have htask : task ∈ Queue.mutate (PieceTask.refersTo tid') s.tasks := htask
    rw [Queue.mutate_eq_filter] at htask
    simpa [PieceTask.refersTo] using (List.mem_filter.mp htask).2
  | load hj' hlock =>
    rw [hj] at hj'
    cases hj'
  | stop hj' hstate =>
    rw [hj] at hj'
    cases hj'
  | keep hj' hstate =>
    rw [hj] at hj'
    cases hj'

/-! ### Somebody puts a task back -/

/-- A worker waits until `remove_torrent` has returned, and puts its task
    back. -/
theorem not_removalLasts_of_paused {task : PieceTask} (hj : s.removers j = .purged tid)
    (hlock : s.SharedLock) (hi : s.workers i = .paused task) (htid : task.tid = tid) :
    ¬ RemovalLasts env fuel j tid s := by
  intro hlasts
  obtain ⟨s₁, hload, hj₁, hworkers₁⟩ : ∃ s₁, Step env fuel s (.remover j) s₁ ∧
      s₁.removers j = .loaded tid (s.torrent tid).state ∧ s₁.workers = s.workers :=
    ⟨_, .load hj hlock, State.removers_setRemover_self .., rfl⟩
  obtain ⟨s₂, hreturn, hj₂, hworkers₂⟩ : ∃ s₂, Step env fuel s₁ (.remover j) s₂ ∧
      s₂.removers j = .idle ∧ s₂.workers = s₁.workers := by
    by_cases hfinal : (s.torrent tid).state.Final
    · exact ⟨_, .keep hj₁ hfinal, State.removers_setRemover_self .., rfl⟩
    · exact ⟨_, .stop hj₁ (not_or.mp hfinal), State.removers_setRemover_self .., rfl⟩
  have hrequeue : Step env fuel s₂ (.worker i) _ := .requeue (by rw [hworkers₂, hworkers₁, hi])
  have hrun : Reaches ((furrent env fuel n m).restrict OwnStep) s s₂ :=
    (Relation.ReflTransGen.single ⟨_, hload, ownStep_remover⟩).tail
      ⟨_, hreturn, ownStep_remover⟩
  exact hlasts s₂ _ hrun hj₂ (.single ⟨_, hrequeue, ownStep_worker⟩) _
    (List.mem_append_right _ (List.mem_singleton_self _)) htid

/-- `add_torrent` gives the lock back. -/
theorem reaches_sharedLock (s : State n m) :
    ∃ s', Reaches ((furrent env fuel n m).restrict OwnStep) s s' ∧ s'.SharedLock ∧
      s'.workers = s.workers ∧ s'.removers = s.removers ∧
      ∀ tid, (∀ pieces, s.adder ≠ .emplacing tid pieces) → s'.torrent tid = s.torrent tid := by
  cases ha : s.adder with
  | idle => exact ⟨s, .refl, State.sharedLock_of_idle ha, rfl, rfl, fun _ _ => rfl⟩
  | loading tid => exact ⟨s, .refl, by simp [State.SharedLock, ha], rfl, rfl, fun _ _ => rfl⟩
  | emplacing tid' pieces =>
    induction pieces generalizing s with
    | nil =>
      refine ⟨_, .single ⟨_, .addFinish ha, ownStep_adder⟩, State.sharedLock_of_idle rfl, rfl,
        rfl, ?_⟩
      intro tid htid
      have hne : tid ≠ tid' := fun heq => htid [] (by rw [heq])
      exact (State.torrent_setTorrent s tid' tid _).trans (if_neg hne)
    | cons piece pieces ih =>
      obtain ⟨s₁, hstep, ha₁, hworkers₁, hremovers₁, htorrent₁⟩ : ∃ s₁,
          Step env fuel s .adder s₁ ∧ s₁.adder = .emplacing tid' pieces ∧
          s₁.workers = s.workers ∧ s₁.removers = s.removers ∧ s₁.torrent = s.torrent :=
        ⟨_, .addEmplace ha, rfl, rfl, rfl, rfl⟩
      obtain ⟨s', hrun, hlock, hworkers, hremovers, htorrent⟩ := ih s₁ ha₁
      refine ⟨s', .head ⟨_, hstep, ownStep_adder⟩ hrun, hlock, hworkers.trans hworkers₁,
        hremovers.trans hremovers₁, ?_⟩
      intro tid htid
      rw [← htorrent₁]
      apply htorrent
      intro pieces' heq
      injection heq with htid' _
      exact htid (piece :: pieces) (by rw [htid'])

/-- A worker finds the torrent still paused. -/
theorem not_removalLasts_of_extracted {task : PieceTask} (hj : s.removers j = .purged tid)
    (hadder : ∀ pieces, s.adder ≠ .emplacing tid pieces)
    (hstate : (s.torrent tid).state = .paused) (hi : s.workers i = .extracted task)
    (htid : task.tid = tid) : ¬ RemovalLasts env fuel j tid s := by
  intro hlasts
  obtain ⟨s₁, hrun, hlock, hworkers, hremovers, htorrent⟩ :
      ∃ s₁, Reaches ((furrent env fuel n m).restrict OwnStep) s s₁ ∧ s₁.SharedLock ∧
        s₁.workers = s.workers ∧ s₁.removers = s.removers ∧
        ∀ tid, (∀ pieces, s.adder ≠ .emplacing tid pieces) → s₁.torrent tid = s.torrent tid :=
    reaches_sharedLock s
  rw [← hworkers] at hi
  rw [← htorrent tid hadder, ← htid] at hstate
  obtain ⟨s₂, hfind, hi₂, hj₂, hlock₂⟩ : ∃ s₂, Step env fuel s₁ (.worker i) s₂ ∧
      s₂.workers i = .paused task ∧ s₂.removers j = .purged tid ∧ s₂.SharedLock :=
    ⟨_, .findPaused hi hlock hstate, State.workers_setWorker_self _ _ _, by
      rw [← hj, ← hremovers]
      rfl, hlock⟩
  exact not_removalLasts_of_paused hj₂ hlock₂ hi₂ htid
    ((hlasts.after hrun).after (.single ⟨_, hfind, ownStep_worker⟩))

/-- For every torrent that has been added and every call of `remove_torrent`:
    there is no task of the torrent in the queue in any state after the call
    has returned, if and only if no worker was on the way to put one back
    when the queue was purged. -/
theorem removal_lasts_iff (hs : Reachable (furrent env fuel n m) s) (hadded : Added s tid)
    (hj : s.removers j = .idle) (h : Step env fuel s (.remover j) s₁)
    (hj₁ : s₁.removers j = .purged tid) :
    RemovalLasts env fuel j tid s₁ ↔ Unclaimed s tid := by
  obtain ⟨hworkers, hadder, hnext, htorrent, hqueue⟩ := h.purged hj hj₁
  constructor
  · intro hlasts
    constructor
    · intro i task hi htid
      -- The worker has the lock, so `add_torrent` has not.
      have hlock : s₁.SharedLock := by
        intro tid' pieces ha
        rw [hadder] at ha
        exact (exclusive_of_reachable hs tid' pieces ha).1 i task hi
      rw [← hworkers] at hi
      exact not_removalLasts_of_paused hj₁ hlock hi htid hlasts
    · intro hstate i task hi htid
      rw [← hworkers] at hi
      rw [← htorrent] at hstate
      refine not_removalLasts_of_extracted hj₁ ?_ hstate hi htid hlasts
      rw [hadder]
      exact hadded.2
  · intro hunclaimed s₂ s' hrun₁ _ hrun₂
    have hremoved : Removed s₁ tid := by
      refine ⟨⟨?_, ?_⟩, ⟨?_, ?_⟩, hqueue⟩
      · rw [hworkers]
        exact hunclaimed.paused
      · rw [hworkers, htorrent]
        exact hunclaimed.extracted
      · rw [State.Unadded, hadder, hnext]
        exact hadded.1
      · rw [hadder]
        exact hadded.2
    have hrun : Reaches ((furrent env fuel n m).restrict OwnStep) s₁ s' :=
      Relation.ReflTransGen.trans hrun₁ hrun₂
    refine (hrun.invariant (I := fun s => Removed s tid) ?_ hremoved).queue
    intro s a s' hs hstep
    exact hs.step hstep.1 hstep.2

open Download (listEnv)

/-- The torrent is removed before a worker has extracted its task. -/
theorem removal_lasts_one_piece : ∃ s s₁ : State 1 1,
    Reachable (furrent (fun _ => listEnv) 8 1 1) s ∧ Added s 0 ∧
    Step (fun _ => listEnv) 8 s (.remover 0) s₁ ∧ s₁.removers 0 = .purged 0 ∧
    RemovalLasts (fun _ => listEnv) 8 0 0 s₁ := by
  obtain ⟨s, hs, hi, hj, hadder, _, _, hnext, _, _⟩ := onePiece_added 1
  have hadded : Added s 0 := added_of_idle hadder (by rw [hnext]; decide)
  have hworkers : ∀ i, s.workers i = .idle := by
    intro i
    rw [Subsingleton.elim i 0, hi]
  have hunclaimed : Unclaimed s 0 := ⟨by simp [hworkers], by simp [hworkers]⟩
  have hpurge : Step (fun _ => listEnv) 8 s (.remover 0) _ := .purge 0 (hj 0)
  exact ⟨s, _, hs.of_restrict, hadded, hpurge, rfl,
    (removal_lasts_iff hs.of_restrict hadded (hj 0) hpurge rfl).mpr hunclaimed⟩

/-- The torrent is paused, a worker finds it so, and while the worker has
    its task in hand the torrent is removed. -/
theorem removal_of_paused_torrent : ∃ s s₁ : State 1 1,
    Reachable (furrent (fun _ => listEnv) 8 1 1) s ∧ (s.torrent 0).state = .paused ∧
    Added s 0 ∧ s.removers 0 = .idle ∧ Step (fun _ => listEnv) 8 s (.remover 0) s₁ ∧
    s₁.removers 0 = .purged 0 ∧ ¬ RemovalLasts (fun _ => listEnv) 8 0 0 s₁ := by
  obtain ⟨s₀, hs₀, hi₀, hj₀, hadder₀, htasks₀, _, hnext₀, ht₀, _⟩ := onePiece_added 1
  obtain ⟨s, hs, hi, hj, hadder, hnext, hstate⟩ : ∃ s : State 1 1,
      Reachable (furrent (fun _ => listEnv) 8 1 1) s ∧ s.workers 0 = .paused onePieceTask ∧
      s.removers 0 = .idle ∧ s.adder = .idle ∧ s.nextUid = 1 ∧
      (s.torrent 0).state = .paused := by
    have hpaused := hs₀.of_restrict.step (.store .paused ht₀)
    have hextracted := hpaused.step (.extract hi₀
      (show Queue.extract lifoPolicy s₀.tasks = .ok (onePieceTask, []) by rw [htasks₀]; rfl))
    have hlock₀ := State.sharedLock_of_idle hadder₀
    exact ⟨_, hextracted.step (.findPaused (i := 0) rfl hlock₀ rfl), rfl, hj₀ 0, hadder₀, hnext₀,
      rfl⟩
  have hadded : Added s 0 := added_of_idle hadder (by rw [hnext]; decide)
  obtain ⟨s₁, hpurge, hj₁, hworkers, hlock⟩ : ∃ s₁, Step (fun _ => listEnv) 8 s (.remover 0) s₁ ∧
      s₁.removers 0 = .purged 0 ∧ s₁.workers = s.workers ∧ s₁.SharedLock :=
    ⟨_, .purge 0 hj, rfl, rfl, State.sharedLock_of_idle hadder⟩
  exact ⟨s, s₁, hs, hstate, hadded, hj, hpurge, hj₁,
    not_removalLasts_of_paused hj₁ hlock (by rw [hworkers, hi]) rfl⟩

end Furrent.Client
