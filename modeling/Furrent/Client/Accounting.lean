import Furrent.Client.Lifecycle
import Furrent.Download.Reassembly
import Mathlib.Data.Int.ConditionallyCompleteOrder
import Mathlib.Data.Int.Interval

/-! # Counting processed pieces

    The progress of a torrent is a counter. Each worker that is done with a
    piece adds one to it and compares the sum with the number of pieces;
    the one that finds them equal sets the state to `Completed`. Shown here:
    the counter is the number of pieces that are processed, so it cannot
    overshoot; no two workers get the same sum; and the one that completes
    the torrent does so when every piece has been saved. -/

namespace Furrent.Client

open Cpp Platform Policy Transition Tokens

variable {n m : Nat} {W : Type} {env : Peer → Download.Env W} {fuel : Nat} {s s' : State n m}
  {loc : Places n} {a : Actor n m} {tid : TorrentID}

/-! ### Processed pieces on the map -/

theorem State.Agrees.mem_processed (h : s.Agrees loc) {k : Key} (hk : k ∈ s.log.processed) :
    loc k = some .processed :=
  h.located.eq_some (List.count_pos_iff.mpr hk)

theorem State.Agrees.processed_nodup (h : s.Agrees loc) : s.log.processed.Nodup := by
  rw [List.nodup_iff_count_le_one]
  intro k
  have hcount : s.log.processed.count k = if loc k = some .processed then 1 else 0 :=
    h.located .processed k
  rw [hcount]
  split <;> omega

/-- The indices of the processed pieces of a torrent. -/
def State.processedIndices (s : State n m) (tid : TorrentID) : Finset Int :=
  ((s.log.processed.filter fun k => k.1 = tid).map Prod.snd).toFinset

theorem State.mem_processedIndices {index : Int} :
    index ∈ s.processedIndices tid ↔ (tid, index) ∈ s.log.processed := by
  simp [processedIndices]

/-- They are as many as `fetch_add` has counted. -/
theorem State.Agrees.card_processedIndices (h : s.Agrees loc) (tid : TorrentID) :
    (s.processedIndices tid).card = s.log.processed.countP fun k => k.1 = tid := by
  have hnodup : ((s.log.processed.filter fun k => k.1 = tid).map Prod.snd).Nodup := by
    refine List.Nodup.map_on ?_ (h.processed_nodup.filter _)
    intro k hk k' hk' heq
    have htid : k.1 = tid := by simpa using (List.mem_filter.mp hk).2
    have htid' : k'.1 = tid := by simpa using (List.mem_filter.mp hk').2
    exact Prod.ext (htid.trans htid'.symm) heq
  rw [State.processedIndices, List.toFinset_card_of_nodup hnodup, List.length_map,
    List.countP_eq_length_filter]

theorem State.Agrees.processedIndices_subset (h : s.Agrees loc) (tid : TorrentID) :
    s.processedIndices tid ⊆ Finset.Ico 0 (s.torrent tid).descriptor.piecesCount := by
  intro index hindex
  have hloc := h.mem_processed (State.mem_processedIndices.mp hindex)
  have hgen := (h.generated (tid, index)).mp (by rw [hloc]; simp)
  exact Finset.mem_Ico.mpr hgen.2

/-! ### The invariant -/

/-- What the counters, the workers that are about to finish a piece and the
    log have to do with each other. -/
structure State.Counted (s : State n m) : Prop where
  counter : ∀ tid, (s.torrent tid).piecesProcessed = s.log.processed.countP fun k => k.1 = tid
  saved : ∀ k ∈ s.log.processed, k ∈ s.log.saved
  succeeded : ∀ i task peerIndex, s.workers i = .succeeded task peerIndex →
    task.key ∈ s.log.saved
  /-- A worker has got a sum that the counter has reached. -/
  sum_le : ∀ i tid sum, s.workers i = .counted tid sum →
    tid ∈ s.log.generated ∧ sum ≤ (s.torrent tid).piecesProcessed
  sum_unique : ∀ i j tid sum, s.workers i = .counted tid sum → s.workers j = .counted tid sum →
    i = j
  once : ∀ tid, s.log.completed.count tid ≤ 1
  /-- The last sum has been dealt with. -/
  completed : ∀ tid ∈ s.log.completed, tid ∈ s.log.generated ∧
    (s.torrent tid).piecesProcessed = (s.torrent tid).descriptor.piecesCount ∧
      ∀ i, s.workers i ≠ .counted tid (s.torrent tid).descriptor.piecesCount

theorem State.Counted.counter_le (h : s.Counted) (hagrees : s.Agrees loc)
    (h0 : 0 ≤ (s.torrent tid).descriptor.piecesCount) :
    (s.torrent tid).piecesProcessed ≤ (s.torrent tid).descriptor.piecesCount := by
  have hcard := Finset.card_le_card (hagrees.processedIndices_subset tid)
  rw [hagrees.card_processedIndices, Int.card_Ico] at hcard
  rw [h.counter tid]
  omega

/-- When the counter has reached the number of pieces, all are processed. -/
theorem State.Counted.all_processed (h : s.Counted) (hagrees : s.Agrees loc)
    (hfull : (s.torrent tid).piecesProcessed = (s.torrent tid).descriptor.piecesCount)
    {index : Int} (h0 : 0 ≤ index) (hlt : index < (s.torrent tid).descriptor.piecesCount) :
    (tid, index) ∈ s.log.processed := by
  have hcard : (Finset.Ico 0 (s.torrent tid).descriptor.piecesCount).card
      ≤ (s.processedIndices tid).card := by
    rw [hagrees.card_processedIndices, Int.card_Ico, ← hfull, h.counter tid]
    omega
  -- As many distinct indices as there are pieces: it is all of them.
  have heq := Finset.eq_of_subset_of_card_le (hagrees.processedIndices_subset tid) hcard
  rw [← State.mem_processedIndices, heq]
  exact Finset.mem_Ico.mpr ⟨h0, hlt⟩

/-! ### Steps that count nothing -/

/-- A worker between a completed `process` and the head of the loop. -/
def Worker.finishing : Worker → Bool
  | .succeeded _ _ => true
  | .counted _ _ => true
  | _ => false

/-- A step that does not touch the counters and the workers that finish a
    piece. -/
structure Quiet (s s' : State n m) : Prop where
  processed : s'.log.processed = s.log.processed
  saved : s'.log.saved = s.log.saved
  completed : s'.log.completed = s.log.completed
  generated : s.log.generated ⊆ s'.log.generated
  counter : ∀ tid, (s'.torrent tid).piecesProcessed = (s.torrent tid).piecesProcessed
  workers : ∀ i, s'.workers i = s.workers i ∨ (s'.workers i).finishing = false

theorem workers_update {i : Fin n} {w : Worker} (hw : w.finishing = false) (i' : Fin n) :
    Function.update s.workers i w i' = s.workers i' ∨
      (Function.update s.workers i w i').finishing = false := by
  by_cases hi : i' = i
  · rw [hi, Function.update_self]
    exact Or.inr hw
  · rw [Function.update_of_ne hi]
    exact Or.inl rfl

/-- A torrent that is emplaced has not processed anything. -/
theorem piecesProcessed_tryEmplace (s : State n m) (tid : TorrentID) (descriptor : TorrentFile)
    (peers : List Peer) (tid' : TorrentID) :
    ((s.tryEmplace tid (.create tid descriptor peers)).torrent tid').piecesProcessed
      = (s.torrent tid').piecesProcessed := by
  refine torrent_update Torrent.piecesProcessed rfl ?_ tid'
  unfold State.torrent
  cases s.torrents tid <;> rfl

/-- Every step is quiet but a completed `process`, a `fetch_add` and the
    completion of a torrent. -/
theorem Step.quiet (h : Step env fuel s a s')
    (hlog : s'.log.processed = s.log.processed ∧ s'.log.saved = s.log.saved ∧
      s'.log.completed = s.log.completed) : Quiet s s' := by
  obtain ⟨hprocessed, hsaved, hcompleted⟩ := hlog
  have hrefl : s.log.generated ⊆ s.log.generated := List.Subset.refl _
  suffices hrest : s.log.generated ⊆ s'.log.generated ∧
      (∀ tid, (s'.torrent tid).piecesProcessed = (s.torrent tid).piecesProcessed) ∧
      ∀ i, s'.workers i = s.workers i ∨ (s'.workers i).finishing = false by
    obtain ⟨hgen, hcounter, hworkers⟩ := hrest
    exact ⟨hprocessed, hsaved, hcompleted, hgen, hcounter, hworkers⟩
  cases h with
  | extract hi htask => exact ⟨hrefl, fun _ => rfl, workers_update rfl⟩
  | findPaused hi hlock hstate =>
    exact ⟨hrefl, torrent_update _ rfl (by rfl), workers_update rfl⟩
  | requeue hi => exact ⟨hrefl, fun _ => rfl, workers_update rfl⟩
  | work hi hlock hstate => exact ⟨hrefl, torrent_update _ rfl (by rfl), workers_update rfl⟩
  | fail hi hpeer hprocess => exact ⟨hrefl, fun _ => rfl, workers_update rfl⟩
  | succeed hi hpeer hprocess => exact absurd hsaved (List.cons_ne_self _ _)
  | count hi hlock => exact absurd hprocessed (List.cons_ne_self _ _)
  | complete hi hlast => exact absurd hcompleted (List.cons_ne_self _ _)
  | next hi hmore => exact ⟨hrefl, fun _ => rfl, workers_update rfl⟩
  | addWithoutPeers ha hlock hs' hpeers =>
    subst hs'
    refine ⟨hrefl, ?_, fun _ => Or.inl rfl⟩
    intro tid
    exact (torrent_update Torrent.piecesProcessed rfl (by rfl) tid).trans
      (piecesProcessed_tryEmplace s _ _ _ tid)
  | addThrow ha hlock hs' hpeers hpieces =>
    subst hs'
    exact ⟨hrefl, piecesProcessed_tryEmplace s _ _ _, fun _ => Or.inl rfl⟩
  | addGenerate ha hlock hs' hpeers hpieces =>
    subst hs'
    exact ⟨List.subset_cons_self _ _, piecesProcessed_tryEmplace s _ _ _, fun _ => Or.inl rfl⟩
  | addFinish ha => exact ⟨hrefl, torrent_update _ rfl (by rfl), fun _ => Or.inl rfl⟩
  | load hj hlock => exact ⟨hrefl, torrent_update _ rfl (by rfl), fun _ => Or.inl rfl⟩
  | stop hj hstate => exact ⟨hrefl, torrent_update _ rfl (by rfl), fun _ => Or.inl rfl⟩
  | store state ht =>
    refine ⟨hrefl, torrent_update _ rfl ?_, fun _ => Or.inl rfl⟩
    rw [State.torrent, ht]
    rfl
  | _ => exact ⟨hrefl, fun _ => rfl, fun _ => Or.inl rfl⟩

/-- A worker that is finishing after a quiet step was in the same place
    before. -/
theorem Quiet.worker (h : Quiet s s') {i : Fin n} {w : Worker} (hw : w.finishing = true)
    (hi : s'.workers i = w) : s.workers i = w := by
  rcases h.workers i with hsame | hnot
  · rw [← hsame, hi]
  · rw [hi, hw] at hnot
    exact absurd hnot (by decide)

theorem State.Counted.quiet (h : s.Counted) (hquiet : Quiet s s')
    (hdesc : ∀ tid ∈ s.log.generated,
      (s'.torrent tid).descriptor = (s.torrent tid).descriptor) : s'.Counted := by
  constructor
  · intro tid
    rw [hquiet.counter, hquiet.processed]
    exact h.counter tid
  · rw [hquiet.processed, hquiet.saved]
    exact h.saved
  · intro i task peerIndex hi
    rw [hquiet.saved]
    exact h.succeeded i task peerIndex (hquiet.worker rfl hi)
  · intro i tid sum hi
    obtain ⟨hgen, hle⟩ := h.sum_le i tid sum (hquiet.worker rfl hi)
    rw [hquiet.counter]
    exact ⟨hquiet.generated hgen, hle⟩
  · intro i j tid sum hi hj
    exact h.sum_unique i j tid sum (hquiet.worker rfl hi) (hquiet.worker rfl hj)
  · rw [hquiet.completed]
    exact h.once
  · intro tid htid
    rw [hquiet.completed] at htid
    obtain ⟨hgen, hfull, hnone⟩ := h.completed tid htid
    rw [hquiet.counter, hdesc tid hgen]
    exact ⟨hquiet.generated hgen, hfull, fun i hi => hnone i (hquiet.worker rfl hi)⟩

/-! ### Steps that count -/

/-- After a step of worker `i`, a worker that is elsewhere than `i` was there
    before. -/
theorem worker_of_update {i i' : Fin n} {w w' : Worker}
    (hworkers : s'.workers = Function.update s.workers i w) (hi' : s'.workers i' = w')
    (hne : w ≠ w') : i' ≠ i ∧ s.workers i' = w' := by
  rw [hworkers] at hi'
  by_cases hi : i' = i
  · rw [hi, Function.update_self] at hi'
    exact absurd hi' hne
  · rw [Function.update_of_ne hi] at hi'
    exact ⟨hi, hi'⟩

/-- `process` has completed. -/
theorem State.Counted.succeed (h : s.Counted) {i : Fin n} {task : PieceTask} {peerIndex : Nat}
    (hworkers : s'.workers = Function.update s.workers i (.succeeded task peerIndex))
    (htorrents : s'.torrents = s.torrents)
    (hlog : s'.log = { s.log with saved := task.key :: s.log.saved }) : s'.Counted := by
  have htorrent : s'.torrent = s.torrent := by
    unfold State.torrent
    rw [htorrents]
  have hcounted : ∀ i' tid sum, s'.workers i' = .counted tid sum →
      s.workers i' = .counted tid sum :=
    fun i' tid sum hi' => (worker_of_update hworkers hi' (by simp)).2
  constructor
  · rw [htorrent, hlog]
    exact h.counter
  · rw [hlog]
    intro k hk
    exact List.mem_cons_of_mem _ (h.saved k hk)
  · rw [hlog]
    intro i' task' peerIndex' hi'
    by_cases htask : task = task'
    · rw [htask]
      exact List.mem_cons_self
    · have hold := worker_of_update hworkers hi' (by simp [htask])
      exact List.mem_cons_of_mem _ (h.succeeded i' task' peerIndex' hold.2)
  · rw [htorrent, hlog]
    intro i' tid sum hi'
    exact h.sum_le i' tid sum (hcounted i' tid sum hi')
  · intro i' j tid sum hi' hj
    exact h.sum_unique i' j tid sum (hcounted i' tid sum hi') (hcounted j tid sum hj)
  · rw [hlog]
    exact h.once
  · rw [htorrent, hlog]
    intro tid htid
    obtain ⟨hgen, hfull, hnone⟩ := h.completed tid htid
    exact ⟨hgen, hfull, fun i' hi' => hnone i' (hcounted i' tid _ hi')⟩

/-- After a step in which worker `i` got a sum: this worker has it, the others
    have what they had. -/
theorem counted_of_update {i i' : Fin n} {tid tid' : TorrentID} {sum sum' : Int}
    (hworkers : s'.workers = Function.update s.workers i (.counted tid sum))
    (hi' : s'.workers i' = .counted tid' sum') :
    (i' = i ∧ tid' = tid ∧ sum' = sum) ∨ (i' ≠ i ∧ s.workers i' = .counted tid' sum') := by
  by_cases hii : i' = i
  · rw [hii, hworkers, Function.update_self] at hi'
    injection hi' with htid hsum
    exact .inl ⟨hii, htid.symm, hsum.symm⟩
  · rw [hworkers, Function.update_of_ne hii] at hi'
    exact .inr ⟨hii, hi'⟩

/-- All pieces of a completed torrent are processed, none is held. -/
theorem State.Counted.not_completed_of_held (h : s.Counted) (hagrees : s.Agrees loc) {i : Fin n}
    {task : PieceTask} (hheld : loc task.key = some (.held i)) (hgen : s.Generated task.key) :
    task.tid ∉ s.log.completed := by
  intro hcompleted
  obtain ⟨_, hfull, _⟩ := h.completed task.tid hcompleted
  have hmem : task.key ∈ s.log.processed := h.all_processed hagrees hfull hgen.2.1 hgen.2.2
  have hloc := hagrees.mem_processed hmem
  rw [hheld] at hloc
  simp at hloc

/-- `fetch_add`. The sum is a new one: it is above every sum handed out. -/
theorem State.Counted.count (h : s.Counted) (hagrees : s.Agrees loc) {i : Fin n}
    {task : PieceTask} {peerIndex : Nat} {t : Torrent}
    (hi : s.workers i = .succeeded task peerIndex)
    (hworkers : s'.workers = Function.update s.workers i
      (.counted task.tid ((s.torrent task.tid).piecesProcessed + 1)))
    (htorrents : s'.torrents = Function.update s.torrents task.tid (some t))
    (hcounter : t.piecesProcessed = (s.torrent task.tid).piecesProcessed + 1)
    (hlog : s'.log = { s.log with processed := task.key :: s.log.processed }) : s'.Counted := by
  -- The piece was held, so it is one of the torrent's and not counted yet.
  have hheld : loc task.key = some (.held i) := by
    apply hagrees.located.eq_some
    rw [State.found, hi]
    simp [Worker.key, Worker.task]
  have hgen : s.Generated task.key := (hagrees.generated _).mp (by rw [hheld]; simp)
  have hself : s'.torrent task.tid = t := by
    rw [State.torrent, htorrents, Function.update_self]
    rfl
  have hne : ∀ tid, tid ≠ task.tid → s'.torrent tid = s.torrent tid := by
    intro tid htid
    rw [State.torrent, htorrents, Function.update_of_ne htid]
    rfl
  have hle : ∀ tid, (s.torrent tid).piecesProcessed ≤ (s'.torrent tid).piecesProcessed := by
    intro tid
    by_cases htid : tid = task.tid
    · rw [htid, hself, hcounter]
      omega
    · rw [hne tid htid]
  constructor
  · intro tid
    rw [hlog]
    by_cases htid : tid = task.tid
    · rw [htid, hself, hcounter, h.counter, List.countP_cons_of_pos (by simp [PieceTask.key])]
      push_cast
      rfl
    · rw [hne tid htid, h.counter,
        List.countP_cons_of_neg (by simp [PieceTask.key, Ne.symm htid])]
  · rw [hlog]
    intro k hk
    rcases List.mem_cons.mp hk with rfl | hk
    · exact h.succeeded i task peerIndex hi
    · exact h.saved k hk
  · rw [hlog]
    intro i' task' peerIndex' hi'
    exact h.succeeded i' task' peerIndex' (worker_of_update hworkers hi' (by simp)).2
  · rw [hlog]
    intro i' tid sum hi'
    rcases counted_of_update hworkers hi' with ⟨_, rfl, rfl⟩ | ⟨_, hi'⟩
    · rw [hself, hcounter]
      exact ⟨hgen.1, le_refl _⟩
    · obtain ⟨hgen', hle'⟩ := h.sum_le i' tid sum hi'
      exact ⟨hgen', le_trans hle' (hle tid)⟩
  · intro j j' tid sum hj hj'
    -- A sum that was handed out before is at most the old counter.
    rcases counted_of_update hworkers hj with ⟨rfl, rfl, rfl⟩ | ⟨_, hj⟩
    · rcases counted_of_update hworkers hj' with ⟨rfl, _, _⟩ | ⟨_, hj'⟩
      · rfl
      · have := (h.sum_le j' _ _ hj').2
        omega
    · rcases counted_of_update hworkers hj' with ⟨rfl, rfl, rfl⟩ | ⟨_, hj'⟩
      · have := (h.sum_le j _ _ hj).2
        omega
      · exact h.sum_unique j j' tid sum hj hj'
  · rw [hlog]
    exact h.once
  · rw [hlog]
    intro tid htid
    obtain ⟨hgen', hfull, hnone⟩ := h.completed tid htid
    have htid' : tid ≠ task.tid := by
      intro heq
      rw [heq] at htid
      exact h.not_completed_of_held hagrees hheld hgen htid
    rw [hne tid htid']
    refine ⟨hgen', hfull, ?_⟩
    intro i' hi'
    exact hnone i' (worker_of_update hworkers hi' (by simp [Ne.symm htid'])).2

/-- A worker with the last sum completes the torrent. -/
theorem State.Counted.complete (h : s.Counted) (hagrees : s.Agrees loc)
    (h0 : ∀ tid ∈ s.log.generated, 0 ≤ (s.torrent tid).descriptor.piecesCount) {i : Fin n}
    {tid : TorrentID} {t : Torrent}
    (hi : s.workers i = .counted tid (s.torrent tid).descriptor.piecesCount)
    (hworkers : s'.workers = Function.update s.workers i .idle)
    (htorrents : s'.torrents = Function.update s.torrents tid (some t))
    (hcounter : t.piecesProcessed = (s.torrent tid).piecesProcessed)
    (hdesc : t.descriptor = (s.torrent tid).descriptor)
    (hlog : s'.log = { s.log with completed := tid :: s.log.completed }) : s'.Counted := by
  have hcounter' := torrent_update Torrent.piecesProcessed htorrents hcounter
  have hdesc' := torrent_update Torrent.descriptor htorrents hdesc
  have hcounted : ∀ i' tid' sum, s'.workers i' = .counted tid' sum →
      i' ≠ i ∧ s.workers i' = .counted tid' sum :=
    fun i' tid' sum hi' => worker_of_update hworkers hi' (by simp)
  -- The sum is at most the counter and the counter at most the number of
  -- pieces, so the counter still stands at the last sum.
  obtain ⟨hgen, hle⟩ := h.sum_le i tid _ hi
  have hfull : (s.torrent tid).piecesProcessed = (s.torrent tid).descriptor.piecesCount :=
    le_antisymm (h.counter_le hagrees (h0 tid hgen)) hle
  constructor
  · intro tid'
    rw [hcounter', hlog]
    exact h.counter tid'
  · rw [hlog]
    exact h.saved
  · rw [hlog]
    intro i' task peerIndex hi'
    exact h.succeeded i' task peerIndex (worker_of_update hworkers hi' (by simp)).2
  · intro i' tid' sum hi'
    rw [hcounter', hlog]
    exact h.sum_le i' tid' sum (hcounted i' tid' sum hi').2
  · intro i' j tid' sum hi' hj
    exact h.sum_unique i' j tid' sum (hcounted i' tid' sum hi').2 (hcounted j tid' sum hj).2
  · rw [hlog]
    intro tid'
    rw [List.count_cons]
    by_cases htid : tid = tid'
    · -- Had it been completed before, no worker would have the last sum.
      have hnot : tid ∉ s.log.completed := fun hmem => (h.completed tid hmem).2.2 i hi
      rw [← htid, List.count_eq_zero.mpr hnot]
      simp
    · have := h.once tid'
      simpa [htid] using this
  · rw [hlog]
    intro tid' htid'
    rw [hcounter', hdesc']
    rcases List.mem_cons.mp htid' with rfl | htid'
    · refine ⟨hgen, hfull, ?_⟩
      intro i' hi'
      obtain ⟨hne, hi'⟩ := hcounted i' _ _ hi'
      exact hne (h.sum_unique i' i _ _ hi' hi)
    · obtain ⟨hgen', hfull', hnone⟩ := h.completed tid' htid'
      exact ⟨hgen', hfull', fun i' hi' => hnone i' (hcounted i' tid' _ hi').2⟩

/-! ### Whole runs -/

theorem Step.piecesCount_nonneg (h : Step env fuel s a s') (hf : s.Fresh)
    (h0 : ∀ tid ∈ s.log.generated, 0 ≤ (s.torrent tid).descriptor.piecesCount) :
    ∀ tid ∈ s'.log.generated, 0 ≤ (s'.torrent tid).descriptor.piecesCount := by
  have hold : ∀ tid ∈ s.log.generated, 0 ≤ (s'.torrent tid).descriptor.piecesCount := by
    intro tid htid
    rw [h.descriptor_of_generated hf tid htid]
    exact h0 tid htid
  by_cases hgen : s'.log.generated = s.log.generated
  · rw [hgen]
    exact hold
  · obtain ⟨tid, descriptor, peers, beyond, pieces, _, _, hpieces, rfl⟩ := h.generated hgen
    intro tid' htid'
    rcases List.mem_cons.mp htid' with rfl | htid'
    · exact Torrent.piecesCount_nonneg_of_pieces hpieces
    · exact hold tid' htid'

theorem Step.counted (h : Step env fuel s a s') (hf : s.Fresh) (hagrees : s.Agrees loc)
    (h0 : ∀ tid ∈ s.log.generated, 0 ≤ (s.torrent tid).descriptor.piecesCount)
    (hc : s.Counted) : s'.Counted := by
  have hdesc := h.descriptor_of_generated hf
  -- The log tells the three counting steps from all others.
  by_cases hlog : s'.log.processed = s.log.processed ∧ s'.log.saved = s.log.saved ∧
      s'.log.completed = s.log.completed
  · exact hc.quiet (h.quiet hlog) hdesc
  · cases h with
    | succeed hi hpeer hprocess =>
      refine hc.succeed rfl rfl ?_
      rw [key_process hprocess]
      rfl
    | count hi hlock => exact hc.count hagrees hi rfl rfl (by rfl) rfl
    | complete hi hlast =>
      rw [hlast] at hi
      exact hc.complete hagrees h0 hi rfl rfl (by rfl) (by rfl) rfl
    | addWithoutPeers ha hlock hs' hpeers =>
      subst hs'
      exact absurd ⟨rfl, rfl, rfl⟩ hlog
    | addThrow ha hlock hs' hpeers hpieces =>
      subst hs'
      exact absurd ⟨rfl, rfl, rfl⟩ hlog
    | addGenerate ha hlock hs' hpeers hpieces =>
      subst hs'
      exact absurd ⟨rfl, rfl, rfl⟩ hlog
    | _ => exact absurd ⟨rfl, rfl, rfl⟩ hlog

theorem piecesCount_nonneg_of_reachable (h : Reachable (furrent env fuel n m) s) :
    ∀ tid ∈ s.log.generated, 0 ≤ (s.torrent tid).descriptor.piecesCount := by
  refine h.invariant (I := fun s => ∀ tid ∈ s.log.generated,
    0 ≤ (s.torrent tid).descriptor.piecesCount) ?_ ?_
  · rintro _ ⟨files, rfl⟩
    simp [State.start]
  · intro s a s' hreach h0 hstep
    exact hstep.piecesCount_nonneg (fresh_of_reachable hreach) h0

theorem counted_of_reachable (h : Reachable (furrent env fuel n m) s) : s.Counted := by
  refine h.invariant ?_ ?_
  · rintro _ ⟨files, rfl⟩
    exact ⟨fun _ => rfl, by simp [State.start], by simp [State.start], by simp [State.start],
      by simp [State.start], by simp [State.start], by simp [State.start]⟩
  · intro s a s' hreach hc hstep
    obtain ⟨loc, _, hagrees⟩ := furrent_simulates.reachable hreach
    exact hstep.counted (fresh_of_reachable hreach) hagrees
      (piecesCount_nonneg_of_reachable hreach) hc

/-- The books of a torrent are in order. -/
structure Accounted (s : State n m) (tid : TorrentID) : Prop where
  /-- Every piece is in exactly one place, once. -/
  place : ∀ index, 0 ≤ index → index < (s.torrent tid).descriptor.piecesCount →
    ∃ p, s.found p (tid, index) = 1 ∧ ∀ q, q ≠ p → s.found q (tid, index) = 0
  /-- The counter counts the processed pieces. -/
  counter : (s.torrent tid).piecesProcessed = s.log.processed.countP fun k => k.1 = tid
  counter_le : (s.torrent tid).piecesProcessed ≤ (s.torrent tid).descriptor.piecesCount
  /-- At most one worker ever sets the state to `Completed`. -/
  completed_once : s.log.completed.count tid ≤ 1
  /-- It does so when every piece has been downloaded and saved. -/
  completed_saved : tid ∈ s.log.completed →
    ∀ index, 0 ≤ index → index < (s.torrent tid).descriptor.piecesCount →
      (tid, index) ∈ s.log.saved

/-- For any number of workers and in every reachable state, the books of
    every torrent whose tasks have been generated are in order. -/
theorem furrent_accounted (h : Reachable (furrent env fuel n m) s)
    (htid : tid ∈ s.log.generated) : Accounted s tid := by
  obtain ⟨loc, _, hagrees⟩ := furrent_simulates.reachable h
  have hcounted := counted_of_reachable h
  refine ⟨?_, hcounted.counter tid, ?_, hcounted.once tid, ?_⟩
  · intro index h0 hlt
    exact hagrees.located.exactly_one ((hagrees.generated _).mpr ⟨htid, h0, hlt⟩)
  · exact hcounted.counter_le hagrees (piecesCount_nonneg_of_reachable h tid htid)
  · intro hcompleted index h0 hlt
    obtain ⟨_, hfull, _⟩ := hcounted.completed tid hcompleted
    exact hcounted.saved _ (hcounted.all_processed hagrees hfull h0 hlt)

/-! ### A run -/

section

open Download (listEnv answers announces threeBytes)

/-- One piece of three bytes, in the file `a`. -/
def onePiece : TorrentFile := { threeBytes with folderName := [46], files := [⟨[[97]], 3⟩] }

/-- The file, still without content. -/
def onePieceOnDisk : FileSystem where
  lookup := fun path => if path = [46, 47, 97] then some 0 else none
  content := fun _ => [0, 0, 0]

def onePieceTask : PieceTask := ⟨none, 0, ⟨0, [⟨[97], 0, 3⟩]⟩, onePiece⟩

/-- Its entry when it has been added, with one peer. -/
def onePieceTorrent : Torrent :=
  { Torrent.create 0 onePiece [⟨1, 2⟩] with state := .downloading }

/-- The program itself takes a step, and no torrent is being removed. -/
def WithoutRemoval (s : State n m) (a : Actor n m) (_ : State n m) : Prop :=
  a ≠ .outside ∧ ∀ j, s.removers j = .idle

/-- The torrent has been added. -/
theorem onePiece_added (m : Nat) : ∃ s : State 1 m,
    Reachable ((furrent (fun _ => listEnv) 8 1 m).restrict WithoutRemoval) s ∧
    s.workers 0 = .idle ∧ (∀ j, s.removers j = .idle) ∧ s.adder = .idle ∧
    s.tasks = [onePieceTask] ∧ s.files = onePieceOnDisk ∧ s.nextUid = 1 ∧
    s.torrents 0 = some onePieceTorrent ∧
    0 ∈ s.log.generated := by
  have hbegin : Reachable ((furrent (fun _ => listEnv) 8 1 m).restrict WithoutRemoval) _ :=
    .step (.init ⟨onePieceOnDisk, rfl⟩) ⟨.addBegin rfl, nofun, fun _ => rfl⟩
  have hgenerate := hbegin.step ⟨.addGenerate rfl ⟨nofun, nofun, nofun⟩
    (rfl : _ = State.tryEmplace _ 0 (.create 0 onePiece [⟨1, 2⟩]))
    (show [(⟨1, 2⟩ : Peer)] ≠ [] by decide)
    (show Torrent.pieces onePiece (fun _ => some 0) = .ok [⟨0, [⟨[97], 0, 3⟩]⟩] by decide),
    nofun, fun _ => rfl⟩
  have hadded := (hgenerate.step ⟨.addEmplace rfl, nofun, fun _ => rfl⟩).step
    ⟨.addFinish rfl, nofun, fun _ => rfl⟩
  exact ⟨_, hadded, rfl, fun _ => rfl, rfl, rfl, rfl, rfl, rfl, List.mem_cons_self⟩

/-- Worker `i` takes a step, and no torrent is being removed. -/
def WorkerAlone (i : Fin n) (s : State n m) (a : Actor n m) (_ : State n m) : Prop :=
  a = .worker i ∧ ∀ j, s.removers j = .idle

theorem WorkerAlone.reachable
    (h : Reachable ((furrent env fuel n m).restrict WithoutRemoval) s)
    (hrun : Reaches ((furrent env fuel n m).restrict (WorkerAlone i)) s s') :
    Reachable ((furrent env fuel n m).restrict WithoutRemoval) s' := by
  apply hrun.invariant (I := Reachable ((furrent env fuel n m).restrict WithoutRemoval)) ?_ h
  intro s a s' hs hstep
  obtain ⟨hstep, rfl, hj⟩ := hstep
  exact hs.step ⟨hstep, nofun, hj⟩

/-- A worker extracts the first task and goes to work. -/
theorem takes_task (env : Peer → Download.Env W) (fuel : Nat) {tasks : List PieceTask}
    {t : Torrent} (hi : s.workers i = .idle) (hj : ∀ j, s.removers j = .idle)
    (hadder : s.adder = .idle) (htasks : s.tasks = task :: tasks)
    (ht : s.torrents task.tid = some t) (hstate : t.state ≠ .paused) :
    Reaches ((furrent env fuel n m).restrict (WorkerAlone i)) s
      { s with
        tasks := tasks
        workers := Function.update s.workers i (.working task t.peers) } := by
  have hextract : Step env fuel s (.worker i)
      { s with tasks := tasks, workers := Function.update s.workers i (.extracted task) } :=
    .extract hi (by rw [htasks]; rfl)
  -- The torrent is not paused.
  have hwork : Step env fuel
      { s with tasks := tasks, workers := Function.update s.workers i (.extracted task) }
      (.worker i) _ :=
    .work (Function.update_self ..) (State.sharedLock_of_idle hadder) (by
      show (s.torrent task.tid).state ≠ .paused
      rw [State.torrent_of_entry ht]
      exact hstate)
  have hrun : Reaches ((furrent env fuel n m).restrict (WorkerAlone i)) s _ :=
    .step ⟨hextract, rfl, hj⟩ (.single ⟨_, hwork, rfl, hj⟩)
  convert hrun using 1
  simp [State.setWorker, State.setTorrent, State.torrent, ht]

/-- It downloads the piece from the peer at `peerIndex`, saves and counts
    it. -/
theorem finishes_task {peers : List Peer} {peer : Peer} {w : W} {t : Torrent} (peerIndex : Nat)
    (hi : s.workers i = .working task peers) (hj : ∀ j, s.removers j = .idle)
    (hadder : s.adder = .idle) (hpeer : peers[peerIndex]? = some peer)
    (hprocess : (process (env peer) fuel task w (fun _ => {}) s.files).2.2 = .ok true)
    (ht : s.torrents task.tid = some t) :
    ∃ files, Reaches ((furrent env fuel n m).restrict (WorkerAlone i)) s
      { s with
        files := files
        log := { s.log with
          saved := task.key :: s.log.saved
          processed := task.key :: s.log.processed }
        torrents := Function.update s.torrents task.tid
          (some { t.atomicAddPeerScore peerIndex with piecesProcessed := t.piecesProcessed + 1 })
        workers := Function.update s.workers i (.counted task.tid (t.piecesProcessed + 1)) } := by
  obtain ⟨task', files, hresult⟩ : ∃ task' files,
      process (env peer) fuel task w (fun _ => {}) s.files = (task', files, .ok true) :=
    ⟨_, _, Prod.ext rfl (Prod.ext rfl hprocess)⟩
  have hkey : task'.key = task.key := key_process hresult
  have htid : task'.tid = task.tid := congrArg Prod.fst hkey
  have hsucceed : Step env fuel s (.worker i)
      { s with
        files := files
        log := { s.log with saved := task.key :: s.log.saved }
        workers := Function.update s.workers i (.succeeded task' peerIndex) } :=
    .succeed hi hpeer hresult
  have hcount : Step env fuel
      { s with
        files := files
        log := { s.log with saved := task.key :: s.log.saved }
        workers := Function.update s.workers i (.succeeded task' peerIndex) } (.worker i) _ :=
    .count (Function.update_self ..) (State.sharedLock_of_idle hadder)
  have hrun : Reaches ((furrent env fuel n m).restrict (WorkerAlone i)) s _ :=
    .step ⟨hsucceed, rfl, hj⟩ (.single ⟨_, hcount, rfl, hj⟩)
  refine ⟨files, ?_⟩
  convert hrun using 1
  simp [State.setWorker, State.setTorrent, State.torrent, htid, hkey, ht]

/-- One worker, from adding the torrent to the last sum. -/
theorem onePiece_counted (m : Nat) : ∃ s : State 1 m,
    Reachable ((furrent (fun _ => listEnv) 8 1 m).restrict WithoutRemoval) s ∧
    s.workers 0 = .counted 0 1 ∧ (∀ j, s.removers j = .idle) ∧ s.adder = .idle ∧
    (s.torrent 0).descriptor = onePiece ∧ (s.torrent 0).state = .downloading ∧
    0 ∈ s.log.generated := by
  obtain ⟨s₀, h₀, hi₀, hj₀, hadder₀, htasks₀, hfiles₀, _, ht₀, hgen₀⟩ := onePiece_added m
  obtain ⟨s₁, htakes, hi₁, hj₁, hadder₁, hfiles₁, ht₁, hgen₁⟩ : ∃ s₁ : State 1 m,
      Reaches ((furrent (fun _ => listEnv) 8 1 m).restrict (WorkerAlone 0)) s₀ s₁ ∧
      s₁.workers 0 = .working onePieceTask [⟨1, 2⟩] ∧ (∀ j, s₁.removers j = .idle) ∧
      s₁.adder = .idle ∧ s₁.files = onePieceOnDisk ∧ s₁.torrents 0 = some onePieceTorrent ∧
      0 ∈ s₁.log.generated :=
    ⟨_, takes_task _ _ hi₀ hj₀ hadder₀ htasks₀ ht₀ (by decide), rfl, hj₀, hadder₀,
      hfiles₀, ht₀, hgen₀⟩
  have hprocess :
      (process listEnv 8 onePieceTask answers (fun _ => {}) s₁.files).2.2 = .ok true := by
    rw [hfiles₁]
    decide +kernel
  have hpeer : [(⟨1, 2⟩ : Peer)][0]? = some ⟨1, 2⟩ := rfl
  obtain ⟨files, hfinishes⟩ : ∃ files,
      Reaches ((furrent (fun _ => listEnv) 8 1 m).restrict (WorkerAlone 0)) s₁ _ :=
    finishes_task 0 hi₁ hj₁ hadder₁ hpeer hprocess ht₁
  exact ⟨_, WorkerAlone.reachable h₀ (htakes.trans hfinishes), rfl, hj₁, hadder₁, rfl, rfl, hgen₁⟩

/-- Two pieces, of two bytes and of one, in the file `a`. -/
def bothPieces : TorrentFile where
  pieceHashes := [[1, 2], [3]]
  pieceLength := 2
  length := 3
  piecesCount := 2
  folderName := [46]
  files := [⟨[[97]], 3⟩]

def firstTask : PieceTask := ⟨none, 0, ⟨0, [⟨[97], 0, 2⟩]⟩, bothPieces⟩

def secondTask : PieceTask := ⟨none, 0, ⟨1, [⟨[97], 2, 1⟩]⟩, bothPieces⟩

/-- A peer has both pieces and answers the request for the first one. -/
def answersFirst : Bytes := announces 192 ++ [0, 0, 0, 11, 7, 0, 0, 0, 0, 0, 0, 0, 0, 1, 2]

/-- The torrent has been added, with two peers. -/
theorem bothPieces_added : ∃ s : State 2 0,
    Reachable ((furrent (fun _ => listEnv) 8 2 0).restrict WithoutRemoval) s ∧
    (∀ i, s.workers i = .idle) ∧ s.adder = .idle ∧ s.tasks = [firstTask, secondTask] ∧
    s.files = onePieceOnDisk ∧
    s.torrents 0 =
      some { Torrent.create 0 bothPieces [⟨1, 2⟩, ⟨3, 4⟩] with state := .downloading } ∧
    s.log.processed = [] ∧ 0 ∈ s.log.generated := by
  have hbegin : Reachable ((furrent (fun _ => listEnv) 8 2 0).restrict WithoutRemoval) _ :=
    .step (.init ⟨onePieceOnDisk, rfl⟩) ⟨.addBegin rfl, nofun, fun _ => rfl⟩
  have hgenerate := hbegin.step ⟨.addGenerate rfl ⟨nofun, nofun, nofun⟩
    (rfl : _ = State.tryEmplace _ 0 (.create 0 bothPieces [⟨1, 2⟩, ⟨3, 4⟩]))
    (show [(⟨1, 2⟩ : Peer), ⟨3, 4⟩] ≠ [] by decide)
    (show Torrent.pieces bothPieces (fun _ => some 0) =
      .ok [⟨0, [⟨[97], 0, 2⟩]⟩, ⟨1, [⟨[97], 2, 1⟩]⟩] by decide), nofun, fun _ => rfl⟩
  have hadded := ((hgenerate.step ⟨.addEmplace rfl, nofun, fun _ => rfl⟩).step
    ⟨.addEmplace rfl, nofun, fun _ => rfl⟩).step ⟨.addFinish rfl, nofun, fun _ => rfl⟩
  exact ⟨_, hadded, fun _ => rfl, rfl, rfl, rfl, rfl, rfl, List.mem_cons_self⟩

/-- One worker has counted the first piece, the other is at work on the
    second. -/
theorem bothPieces_held : ∃ s : State 2 0,
    Reachable ((furrent (fun _ => listEnv) 8 2 0).restrict WithoutRemoval) s ∧
    s.workers 0 = .counted 0 1 ∧ s.workers 1 = .working secondTask [⟨1, 2⟩, ⟨3, 4⟩] ∧
    s.log.processed = [(0, 0)] ∧ 0 ∈ s.log.generated := by
  obtain ⟨s₀, h₀, hi₀, hadder₀, htasks₀, hfiles₀, ht₀, hprocessed₀, hgen₀⟩ :=
    bothPieces_added
  have hj : ∀ {s : State 2 0} (j : Fin 0), s.removers j = .idle := fun j => j.elim0
  obtain ⟨s₁, hfirst, hi₁, hother₁, hadder₁, htasks₁, hfiles₁, ht₁, hlog₁⟩ : ∃ s₁ : State 2 0,
      Reaches ((furrent (fun _ => listEnv) 8 2 0).restrict (WorkerAlone 0)) s₀ s₁ ∧
      s₁.workers 0 = .working firstTask [⟨1, 2⟩, ⟨3, 4⟩] ∧ s₁.workers 1 = .idle ∧
      s₁.adder = .idle ∧ s₁.tasks = [secondTask] ∧ s₁.files = s₀.files ∧
      s₁.torrents = s₀.torrents ∧ s₁.log = s₀.log :=
    ⟨_, takes_task _ _ (hi₀ 0) hj hadder₀ htasks₀ ht₀ (by decide), rfl, hi₀ 1, hadder₀, rfl,
      rfl, rfl, rfl⟩
  rw [← ht₁] at ht₀
  obtain ⟨s₂, hsecond, hi₂, hother₂, hadder₂, hfiles₂, ht₂, hlog₂⟩ : ∃ s₂ : State 2 0,
      Reaches ((furrent (fun _ => listEnv) 8 2 0).restrict (WorkerAlone 1)) s₁ s₂ ∧
      s₂.workers 0 = .working firstTask [⟨1, 2⟩, ⟨3, 4⟩] ∧
      s₂.workers 1 = .working secondTask [⟨1, 2⟩, ⟨3, 4⟩] ∧ s₂.adder = .idle ∧
      s₂.files = s₁.files ∧ s₂.torrents = s₁.torrents ∧ s₂.log = s₁.log :=
    ⟨_, takes_task _ _ hother₁ hj hadder₁ htasks₁ ht₀ (by decide), hi₁, rfl, hadder₁, rfl,
      rfl, rfl⟩
  rw [← ht₂] at ht₀
  have hprocess :
      (process listEnv 8 firstTask answersFirst (fun _ => {}) s₂.files).2.2 = .ok true := by
    rw [hfiles₂, hfiles₁, hfiles₀]
    decide +kernel
  -- The first piece comes from the second peer.
  have hpeer : [(⟨1, 2⟩ : Peer), ⟨3, 4⟩][1]? = some ⟨3, 4⟩ := rfl
  obtain ⟨files, hfinishes⟩ : ∃ files,
      Reaches ((furrent (fun _ => listEnv) 8 2 0).restrict (WorkerAlone 0)) s₂ _ :=
    finishes_task 1 hi₂ hj hadder₂ hpeer hprocess ht₀
  have hreach := WorkerAlone.reachable (WorkerAlone.reachable h₀ hfirst) hsecond
  refine ⟨_, WorkerAlone.reachable hreach hfinishes, rfl, hother₂, ?_, ?_⟩
  · show firstTask.key :: s₂.log.processed = _
    rw [hlog₂, hlog₁, hprocessed₀]
    rfl
  · show 0 ∈ s₂.log.generated
    rw [hlog₂, hlog₁]
    exact hgen₀

/-- One piece is processed, and a worker holds the other. -/
theorem furrent_accounted_two_workers : ∃ s : State 2 0,
    Reachable (furrent (fun _ => listEnv) 8 2 0) s ∧
    s.workers 1 = .working secondTask [⟨1, 2⟩, ⟨3, 4⟩] ∧ s.log.processed = [(0, 0)] ∧
    Accounted s 0 := by
  obtain ⟨s, h, _, hi, hprocessed, hgen⟩ := bothPieces_held
  exact ⟨s, h.of_restrict, hi, hprocessed, furrent_accounted h.of_restrict hgen⟩

end

end Furrent.Client
