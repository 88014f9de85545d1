import Furrent.Client.Shutdown

/-! # What the destructor leaves behind

    A piece that has been saved but not counted, or the last piece of a
    torrent that is not `Completed` yet, are in the hands of a worker. The
    destructor lets the workers finish with them: when it is done no piece
    is lost between two places, every piece for which `save` returned true has
    been counted, and every torrent all of whose pieces are saved has been
    completed. The tasks that are still in the queue are dropped with it. -/

namespace Furrent.Client

open Cpp Platform Policy Transition

variable {n m : Nat} {W : Type} {env : Peer → Download.Env W} {fuel : Nat} {s s' : State n m}
  {a : Actor n m} {i : Fin n} {tid : TorrentID} {p : Program n m}

/-! ### What a worker still has to do -/

/-- The books are kept by the workers that have got a piece. -/
structure State.InHand (s : State n m) : Prop where
  saved : ∀ k ∈ s.log.saved, k ∈ s.log.processed ∨
    ∃ i task peerIndex, s.workers i = .succeeded task peerIndex ∧ task.key = k
  full : ∀ tid ∈ s.log.generated, 0 < (s.torrent tid).descriptor.piecesCount →
    (s.torrent tid).piecesProcessed = (s.torrent tid).descriptor.piecesCount →
    tid ∈ s.log.completed ∨ ∃ i, s.workers i = .counted tid (s.torrent tid).descriptor.piecesCount

theorem Step.log_mono (h : Step env fuel s a s') :
    s.log.processed ⊆ s'.log.processed ∧ s.log.completed ⊆ s'.log.completed := by
  cases h with
  | count => exact ⟨List.subset_cons_self _ _, List.Subset.refl _⟩
  | complete => exact ⟨List.Subset.refl _, List.subset_cons_self _ _⟩
  | addWithoutPeers _ _ hs' =>
    subst hs'
    exact ⟨List.Subset.refl _, List.Subset.refl _⟩
  | addThrow _ _ hs' =>
    subst hs'
    exact ⟨List.Subset.refl _, List.Subset.refl _⟩
  | addGenerate _ _ hs' =>
    subst hs'
    exact ⟨List.Subset.refl _, List.Subset.refl _⟩
  | _ => exact ⟨List.Subset.refl _, List.Subset.refl _⟩

/-- A worker that has saved a piece counts it next. -/
theorem Step.processed_of_succeeded (h : Step env fuel s (.worker i) s') {task : PieceTask}
    {peerIndex : Nat} (hi : s.workers i = .succeeded task peerIndex) :
    task.key ∈ s'.log.processed := by
  cases h with
  | count hi' =>
    rw [hi] at hi'
    injection hi' with htask _
    rw [htask]
    exact List.mem_cons_self
  | extract hi' => exact absurd (hi.symm.trans hi') (by simp)
  | findPaused hi' => exact absurd (hi.symm.trans hi') (by simp)
  | requeue hi' => exact absurd (hi.symm.trans hi') (by simp)
  | work hi' => exact absurd (hi.symm.trans hi') (by simp)
  | fail hi' => exact absurd (hi.symm.trans hi') (by simp)
  | succeed hi' => exact absurd (hi.symm.trans hi') (by simp)
  | complete hi' => exact absurd (hi.symm.trans hi') (by simp)
  | next hi' => exact absurd (hi.symm.trans hi') (by simp)

/-- A worker that has got the last sum completes the torrent next. -/
theorem Step.completed_of_counted (h : Step env fuel s (.worker i) s')
    (hi : s.workers i = .counted tid (s.torrent tid).descriptor.piecesCount) :
    tid ∈ s'.log.completed := by
  cases h with
  | complete hi' hlast =>
    rw [hi] at hi'
    injection hi' with htid _
    rw [htid]
    exact List.mem_cons_self
  | next hi' hmore =>
    rw [hi] at hi'
    injection hi' with htid hsum
    subst htid
    exact absurd hsum.symm hmore
  | extract hi' => exact absurd (hi.symm.trans hi') (by simp)
  | findPaused hi' => exact absurd (hi.symm.trans hi') (by simp)
  | requeue hi' => exact absurd (hi.symm.trans hi') (by simp)
  | work hi' => exact absurd (hi.symm.trans hi') (by simp)
  | fail hi' => exact absurd (hi.symm.trans hi') (by simp)
  | succeed hi' => exact absurd (hi.symm.trans hi') (by simp)
  | count hi' => exact absurd (hi.symm.trans hi') (by simp)

/-- A piece gets into the books with the worker that has saved it. -/
theorem Step.saved_cases (h : Step env fuel s a s') {k : Key} (hk : k ∈ s'.log.saved) :
    k ∈ s.log.saved ∨
      ∃ i task peerIndex, s'.workers i = .succeeded task peerIndex ∧ task.key = k := by
  cases h with
  | @succeed i task task' peers peerIndex peer w faults files hi hpeer hprocess =>
    rcases List.mem_cons.mp hk with rfl | hk
    · exact .inr ⟨i, task', peerIndex, State.workers_setWorker_self .., key_process hprocess⟩
    · exact .inl hk
  | addWithoutPeers _ _ hs' =>
    subst hs'
    exact .inl hk
  | addThrow _ _ hs' =>
    subst hs'
    exact .inl hk
  | addGenerate _ _ hs' =>
    subst hs'
    exact .inl hk
  | _ => exact .inl hk

/-- The worker that makes the counter reach a new sum has got it. -/
theorem Step.counter_cases (h : Step env fuel s a s') (tid : TorrentID) :
    (s'.torrent tid).piecesProcessed = (s.torrent tid).piecesProcessed ∨
      (s'.torrent tid).piecesProcessed = (s.torrent tid).piecesProcessed + 1 ∧
        ∃ i, s'.workers i = .counted tid (s'.torrent tid).piecesProcessed := by
  by_cases hlog : s'.log.processed = s.log.processed ∧ s'.log.saved = s.log.saved ∧
      s'.log.completed = s.log.completed
  · exact .inl ((h.quiet hlog).counter tid)
  · cases h with
    | succeed hi hpeer hprocess => exact .inl rfl
    | @count i task peerIndex hi hlock =>
      by_cases htid : tid = task.tid
      · subst htid
        refine .inr ⟨?_, i, ?_⟩
        · simp [State.torrent, State.setTorrent, State.setWorker]
        · simp [State.torrent, State.setTorrent, State.setWorker]
      · exact .inl (congrArg Torrent.piecesProcessed
          ((State.torrent_setTorrent s task.tid tid _).trans (if_neg htid)))
    | complete hi hlast => exact .inl (torrent_update Torrent.piecesProcessed rfl (by rfl) tid)
    | addWithoutPeers ha hlock hs' hpeers =>
      subst hs'
      exact absurd ⟨rfl, rfl, rfl⟩ hlog
    | addThrow ha hlock hs' hpeers hpieces =>
      subst hs'
      exact absurd ⟨rfl, rfl, rfl⟩ hlog
    | addGenerate ha hlock hs' hpeers hpieces =>
      subst hs'
      exact absurd ⟨rfl, rfl, rfl⟩ hlog
    | _ => exact absurd ⟨rfl, rfl, rfl⟩ hlog

theorem Step.inHand (h : Step env fuel s a s') (hfresh : s.Fresh)
    (hprocessed : ∀ tid, tid ∉ s.log.generated → (s.torrent tid).piecesProcessed = 0)
    (hs : s.InHand) : s'.InHand := by
  obtain ⟨hmono, hmono'⟩ := h.log_mono
  constructor
  · intro k hk
    rcases h.saved_cases hk with hk | hsucceeded
    · rcases hs.saved k hk with hk | ⟨i, task, peerIndex, hi, hkey⟩
      · exact .inl (hmono hk)
      · by_cases ha : a = .worker i
        · subst ha
          rw [← hkey]
          exact .inl (h.processed_of_succeeded hi)
        · exact .inr ⟨i, task, peerIndex, (h.workers_of_ne ha).trans hi, hkey⟩
    · exact .inr hsucceeded
  · intro tid hgen hpos hfull
    rcases h.counter_cases tid with hsame | ⟨_, i, hi⟩
    · by_cases hold : tid ∈ s.log.generated
      · have hdesc := h.descriptor_of_generated hfresh tid hold
        rw [hdesc] at hpos hfull ⊢
        rcases hs.full tid hold hpos (hsame.symm.trans hfull) with hk | ⟨i, hi⟩
        · exact .inl (hmono' hk)
        · by_cases ha : a = .worker i
          · subst ha
            exact .inl (h.completed_of_counted hi)
          · exact .inr ⟨i, (h.workers_of_ne ha).trans hi⟩
      · -- A torrent whose pieces have just been generated has none processed.
        rw [hsame, hprocessed tid hold] at hfull
        omega
    · rw [hfull] at hi
      exact .inr ⟨i, hi⟩

/-- Nothing of a torrent has been processed before its pieces are
    generated. -/
theorem piecesProcessed_of_not_generated (h : Reachable (furrent env fuel n m) s)
    (htid : tid ∉ s.log.generated) : (s.torrent tid).piecesProcessed = 0 := by
  obtain ⟨loc, _, hagrees⟩ := furrent_simulates.reachable h
  rw [(counted_of_reachable h).counter tid, Nat.cast_eq_zero, List.countP_eq_zero]
  intro k hk hkey
  have hloc : loc k ≠ none := by simp [hagrees.mem_processed hk]
  have hgen := ((hagrees.generated k).mp hloc).1
  rw [of_decide_eq_true hkey] at hgen
  exact htid hgen

theorem inHand_of_reachable (h : Reachable (furrent env fuel n m) s) : s.InHand := by
  apply h.invariant (I := State.InHand)
  · rintro _ ⟨files, rfl⟩
    exact ⟨by simp [State.start], by simp [State.start]⟩
  · intro s a s' hreach hs hstep
    exact hstep.inHand (fresh_of_reachable hreach)
      (fun _ htid => piecesProcessed_of_not_generated hreach htid) hs

/-! ### When the destructor is done -/

/-- What is known of a torrent when nobody works on it any more. -/
structure Settled (s : State n m) (tid : TorrentID) : Prop where
  /-- Every piece is in the queue, has been processed or has been removed. -/
  place : ∀ index, 0 ≤ index → index < (s.torrent tid).descriptor.piecesCount →
    ∃ p ∈ [Place.queued, .processed, .removed], s.found p (tid, index) = 1 ∧
      ∀ q, q ≠ p → s.found q (tid, index) = 0
  /-- The pieces that have been saved are those that have been counted. -/
  saved : ∀ index, (tid, index) ∈ s.log.saved ↔ (tid, index) ∈ s.log.processed
  /-- A torrent is complete when all its pieces have been saved. -/
  completed : 0 < (s.torrent tid).descriptor.piecesCount →
    (tid ∈ s.log.completed ↔ ∀ index, 0 ≤ index →
      index < (s.torrent tid).descriptor.piecesCount → (tid, index) ∈ s.log.saved)

/-- When all pieces are processed the counter has reached their number. -/
theorem State.Counted.full_of_processed {loc : Places n} (h : s.Counted) (hagrees : s.Agrees loc)
    (h0 : 0 ≤ (s.torrent tid).descriptor.piecesCount)
    (hall : ∀ index, 0 ≤ index → index < (s.torrent tid).descriptor.piecesCount →
      (tid, index) ∈ s.log.processed) :
    (s.torrent tid).piecesProcessed = (s.torrent tid).descriptor.piecesCount := by
  have hindices : s.processedIndices tid
      = Finset.Ico 0 (s.torrent tid).descriptor.piecesCount := by
    refine Finset.Subset.antisymm (hagrees.processedIndices_subset tid) ?_
    intro index hindex
    obtain ⟨hle, hlt⟩ := Finset.mem_Ico.mp hindex
    exact State.mem_processedIndices.mpr (hall index hle hlt)
  rw [h.counter tid, ← hagrees.card_processedIndices, hindices, Int.card_Ico]
  omega

theorem saved_iff_of_idle (h : Reachable (furrent env fuel n m) s)
    (hidle : ∀ i, s.workers i = .idle) (k : Key) : k ∈ s.log.saved ↔ k ∈ s.log.processed := by
  constructor
  · intro hk
    rcases (inHand_of_reachable h).saved k hk with hk | ⟨i, task, peerIndex, hi, _⟩
    · exact hk
    · exact absurd ((hidle i).symm.trans hi) (by simp)
  · exact (counted_of_reachable h).saved k

theorem settled_of_idle (h : Reachable (furrent env fuel n m) s)
    (hidle : ∀ i, s.workers i = .idle) (hadder : s.adder = .idle)
    (hgen : tid ∈ s.log.generated) : Settled s tid := by
  obtain ⟨loc, _, hagrees⟩ := furrent_simulates.reachable h
  have hcounted := counted_of_reachable h
  constructor
  · intro index h0 hlt
    obtain ⟨p, hp, hothers⟩ :=
      hagrees.located.exactly_one ((hagrees.generated (tid, index)).mpr ⟨hgen, h0, hlt⟩)
    refine ⟨p, ?_, hp, hothers⟩
    cases p with
    | pending => simp [State.found, hadder, Adder.keys] at hp
    | held i => simp [State.found, hidle i, Worker.key, Worker.task] at hp
    | _ => simp
  · exact fun index => saved_iff_of_idle h hidle (tid, index)
  · intro hpos
    constructor
    · intro hcompleted index h0 hlt
      obtain ⟨_, hfull, _⟩ := hcounted.completed tid hcompleted
      exact hcounted.saved _ (hcounted.all_processed hagrees hfull h0 hlt)
    · intro hall
      have hfull : (s.torrent tid).piecesProcessed = (s.torrent tid).descriptor.piecesCount := by
        apply hcounted.full_of_processed hagrees (le_of_lt hpos)
        intro index h0 hlt
        exact (saved_iff_of_idle h hidle _).mp (hall index h0 hlt)
      rcases (inHand_of_reachable h).full tid hgen hpos hfull with hk | ⟨i, hi⟩
      · exact hk
      · exact absurd ((hidle i).symm.trans hi) (by simp)

/-- When everything is destroyed every worker has left its loop and has been
    joined, and the books of every torrent are closed. -/
theorem destroyed_settled (h : Reachable (program env fuel n m) p)
    (hdestroyed : p.phase = .destroyed) :
    (∀ t ∈ p.group.threads, t = .joined) ∧
    (∀ i, p.positions i = .exited ∧ p.client.workers i = .idle) ∧
    ∀ tid ∈ p.client.log.generated, Settled p.client tid := by
  have hlinked := linked_of_reachable h
  have hjoined := joined_of_destroyed h hdestroyed
  have hexited : ∀ i, p.positions i = .exited := by
    intro i
    by_contra hnot
    have hmem := List.mem_of_getElem? ((hlinked.runs i).mpr hnot)
    exact absurd (hjoined _ hmem) (by simp)
  have hidle : ∀ i, p.client.workers i = .idle := by
    intro i
    by_contra hnot
    have hbusy := (hlinked.busy i).mpr hnot
    rw [hexited i] at hbusy
    cases hbusy
  have hquiescent := ((phased_of_reachable h).1.skips (by simp [hdestroyed])).2
  exact ⟨hjoined, fun i => ⟨hexited i, hidle i⟩,
    fun tid hgen => settled_of_idle (client_of_program h) hidle hquiescent.adder hgen⟩

/-- A worker goes on with its piece. -/
theorem handled (h : Reachable (program env fuel n m) p) (hcalm : p.Calm)
    (hi : p.positions i = .busy) (hpaused : ∀ task, p.client.workers i ≠ .paused task)
    (hstep : Step env fuel p.client (.worker i) s) :
    ∃ p', Reachable (program env fuel n m) p' ∧ p'.Calm ∧ p'.client = s ∧
      p'.phase = p.phase ∧ p'.group = p.group ∧
      p'.positions i = if s.workers i = .idle then .head else .busy :=
  ⟨_, h.step (.handle hi (hcalm _) hpaused hstep), hcalm, rfl, rfl, rfl,
    Program.positions_setPosition_self ..⟩

/-- The only worker leaves its loop and is joined. -/
theorem destroyed_of_head {p : Program 1 0} (h : Reachable (program env fuel 1 0) p)
    (hcalm : p.Calm) (hhead : p.positions 0 = .head) (hphase : p.phase = .terminating)
    (hthreads : p.group.threads = [.running]) (hflag : p.group.shouldTerminate = true)
    (howner : p.group.owner = .joining 0 false) :
    ∃ p', Reachable (program env fuel 1 0) p' ∧ p'.phase = .destroyed ∧
      p'.client = p.client := by
  have hexit := h.step (.leaveLoop hhead (hcalm _) hflag (.exit (k := 0) (by rw [hthreads]; rfl)))
  have hjoin := hexit.step (.join hphase (.inl rfl)
    (.join (k := 0) howner (by simp [hthreads])))
  have hfinish := hjoin.step (.join hphase (.inr rfl)
    (@Mt.GroupStep.finish _ false (by simp [hthreads])))
  exact ⟨_, hfinish.step (.destroy hphase (.destroy rfl)), rfl, rfl⟩

open Download in
theorem onePiece_processed : ∃ task files,
    process listEnv 8 onePieceTask answers (fun _ => {}) onePieceOnDisk
      = (task, files, .ok true) := by
  have hresult : ∀ r : PieceTask × FileSystem × Outcome Empty Bool, r.2.2 = .ok true →
      ∃ task files, r = (task, files, .ok true) := by
    rintro ⟨task, files, _⟩ rfl
    exact ⟨task, files, rfl⟩
  exact hresult _ (by decide +kernel)

open Download in
/-- The destructor is called while the worker downloads the only piece: the
    torrent is completed. -/
theorem destroyed_settled_one_piece : ∃ p : Program 1 0,
    Reachable (program (fun _ => listEnv) 8 1 0) p ∧ p.phase = .destroyed ∧
    0 ∈ p.client.log.completed ∧ Settled p.client 0 := by
  obtain ⟨p, h, hone⟩ := onePiece_busy (fun _ => listEnv) 8
  obtain ⟨p₁, h₁, hphase₁, hcalm₁, hclient₁, hpositions₁, hthreads₁, howner₁⟩ :=
    terminating_of_calm h hone.calm hone.running hone.quiescent hone.flag
  have hworking₁ : p₁.client.workers 0 = .working onePieceTask [⟨1, 2⟩] := by
    rw [hclient₁, hone.working]
  have htorrent₁ : p₁.client.torrent 0 = onePieceTorrent := by rw [hclient₁, hone.torrent]
  -- The piece arrives and is saved.
  obtain ⟨task, files, hprocess⟩ := onePiece_processed
  obtain ⟨s₂, hsucceed, hi₂, hadder₂, htorrent₂, hgen₂⟩ : ∃ s : State 1 0,
      Step (fun _ => listEnv) 8 p₁.client (.worker 0) s ∧ s.workers 0 = .succeeded task 0 ∧
      s.adder = .idle ∧ s.torrent 0 = onePieceTorrent ∧ 0 ∈ s.log.generated :=
    ⟨_, .succeed hworking₁ rfl (by rw [hclient₁, hone.files]; exact hprocess),
      State.workers_setWorker_self .., by rw [← hone.adder, ← hclient₁]; rfl, htorrent₁,
      by rw [hclient₁]; exact hone.generated⟩
  obtain ⟨p₂, h₂, hcalm₂, rfl, hphase₂, hgroup₂, hposition₂⟩ :=
    handled h₁ hcalm₁ (by rw [hpositions₁, hone.position]) (by simp [hworking₁]) hsucceed
  -- The worker counts it and gets the last sum.
  obtain ⟨s₃, hcount, hi₃, htorrent₃, hgen₃⟩ : ∃ s : State 1 0,
      Step (fun _ => listEnv) 8 p₂.client (.worker 0) s ∧ s.workers 0 = .counted 0 1 ∧
      (s.torrent 0).descriptor = onePiece ∧ 0 ∈ s.log.generated := by
    have hstep : Step (fun _ => listEnv) 8 p₂.client (.worker 0) _ :=
      .count hi₂ (State.sharedLock_of_idle hadder₂)
    refine ⟨_, hstep, ?_, ?_, hgen₂⟩
    · have htid : task.tid = 0 := congrArg Prod.fst (key_process hprocess)
      rw [State.workers_setWorker_self, htid, htorrent₂]
      rfl
    · rw [hstep.descriptor (by simp [hadder₂]), htorrent₂]
      rfl
  obtain ⟨p₃, h₃, hcalm₃, rfl, hphase₃, hgroup₃, hposition₃⟩ :=
    handled h₂ hcalm₂ (by simp [hposition₂, hi₂]) (by simp [hi₂]) hcount
  have hcomplete : Step (fun _ => listEnv) 8 p₃.client (.worker 0) _ :=
    .complete hi₃ (by rw [htorrent₃]; rfl)
  obtain ⟨p₄, h₄, hcalm₄, hclient₄, hphase₄, hgroup₄, hposition₄⟩ :=
    handled h₃ hcalm₃ (by simp [hposition₃, hi₃]) (by simp [hi₃]) hcomplete
  have hhead₄ : p₄.positions 0 = .head := by simp [hposition₄]
  have hlinked₄ := linked_of_reachable h₄
  have hthreads₄ : p₄.group.threads = [.running] := by
    obtain ⟨life, hlife⟩ := List.length_eq_one_iff.mp hlinked₄.length
    have hruns := (hlinked₄.runs 0).mpr (by simp [hhead₄])
    rw [hlife] at hruns ⊢
    simpa using hruns
  have hgroup : p₄.group = p₁.group := by rw [hgroup₄, hgroup₃, hgroup₂]
  have hphase : p₄.phase = .terminating := by rw [hphase₄, hphase₃, hphase₂, hphase₁]
  obtain ⟨p₅, h₅, hdestroyed, hclient₅⟩ := destroyed_of_head h₄ hcalm₄ hhead₄ hphase
    hthreads₄
    ((phased_of_reachable h₄).1.flag.mpr (.inl hphase)) (by rw [hgroup, howner₁])
  have hcompleted : 0 ∈ p₅.client.log.completed := by
    rw [hclient₅, hclient₄]
    exact List.mem_cons_self
  have hgenerated : 0 ∈ p₅.client.log.generated := by
    rw [hclient₅, hclient₄]
    exact hgen₃
  exact ⟨p₅, h₅, hdestroyed, hcompleted, (destroyed_settled h₅ hdestroyed).2.2 0 hgenerated⟩

end Furrent.Client
