import Furrent.Client.Integrity
import Furrent.Faker.Seeding

/-! # Getting done

    The workers on their own: nothing is added, removed or paused any more.
    Every step but a failed attempt at a piece brings the end nearer by one,
    so the number of these steps is known in advance; when they have been
    taken, every torrent none of whose pieces was removed has been
    completed. And if for each piece one of the peers of its torrent answers
    and the files are there, the workers can always take them, however often
    they have failed. -/

namespace Furrent.Client

open Cpp Platform Policy Transition Torrent

variable {n m : Nat} {W : Type} {env : Peer → Download.Env W} {fuel : Nat} {s s' : State n m}
  {a : Actor n m} {i : Fin n} {tid : TorrentID} {task : PieceTask} {peers : List Peer}
  {fs fs' : FileSystem} {d : TorrentFile}

/-! ### What is left to do -/

/-- How many steps a worker takes before it is idle, if no attempt fails. A
    task that is put back is extracted again. -/
def Worker.left : Worker → Nat
  | .idle => 0
  | .counted _ _ => 1
  | .succeeded _ _ => 2
  | .working _ _ => 3
  | .extracted _ => 4
  | .paused _ => 6

/-- How many steps there are until all workers are idle and the queue is
    empty, if no attempt fails. -/
def State.left (s : State n m) : Nat := 5 * s.tasks.length + ∑ i, (s.workers i).left

/-- A step of a worker. -/
def ByWorker (_ : State n m) (a : Actor n m) (_ : State n m) : Prop := ∃ i, a = .worker i

/-- An attempt at a piece fails, and the worker tries again. -/
def Fails (s : State n m) (a : Actor n m) (s' : State n m) : Prop :=
  ∃ i task task' peers, a = .worker i ∧ s.workers i = .working task peers ∧
    s'.workers i = .working task' peers

/-- No torrent is being added and none is paused. -/
structure State.Running (s : State n m) : Prop where
  adder : s.adder = .idle
  active : ∀ tid, (s.torrent tid).state ≠ .paused

theorem active_update {t : Torrent} (h : s.Running) (ht : t.state ≠ .paused)
    (htorrents : s'.torrents = Function.update s.torrents tid (some t)) (tid' : TorrentID) :
    (s'.torrent tid').state ≠ .paused := by
  have htorrent : s'.torrent tid' = (s.setTorrent tid t).torrent tid' := by
    unfold State.torrent
    rw [htorrents]
    rfl
  rw [htorrent, State.torrent_setTorrent]
  split
  · exact ht
  · exact h.active tid'

theorem Step.running (h : Step env fuel s (.worker i) s') (hs : s.Running) : s'.Running := by
  cases h with
  | findPaused hi hlock hstate => exact absurd hstate (hs.active _)
  | work hi hlock hstate => exact ⟨hs.adder, active_update hs hstate rfl⟩
  | @count _ task _ hi hlock =>
    refine ⟨hs.adder, active_update hs ?_ rfl⟩
    exact hs.active task.tid
  | complete hi hlast => exact ⟨hs.adder, active_update hs (by simp) rfl⟩
  | _ => exact ⟨hs.adder, hs.active⟩

/-! ### Every step counts -/

theorem sum_left_update (workers : Fin n → Worker) (i : Fin n) (w : Worker) :
    ∑ j, (Function.update workers i w j).left + (workers i).left
      = ∑ j, (workers j).left + w.left := by
  have hupdate : (fun j => (Function.update workers i w j).left)
      = Function.update (fun j => (workers j).left) i w.left :=
    Function.comp_update Worker.left workers i w
  have hrest := Finset.add_sum_erase Finset.univ (fun j => (workers j).left) (Finset.mem_univ i)
  rw [hupdate, Finset.sum_update_of_mem (Finset.mem_univ i), Finset.sdiff_singleton_eq_erase]
  omega

/-- Worker `i` goes on from `w` to `w'`. -/
theorem left_update {w w' : Worker} (hi : s.workers i = w)
    (hworkers : s'.workers = Function.update s.workers i w') :
    s'.left + w.left + 5 * s.tasks.length = s.left + w'.left + 5 * s'.tasks.length := by
  have hsum := sum_left_update s.workers i w'
  rw [State.left, State.left, hworkers, ← hi]
  omega

theorem left_eq_of_update {w w' : Worker} (hi : s.workers i = w)
    (hworkers : s'.workers = Function.update s.workers i w') (hleft : w'.left = w.left)
    (hlength : s'.tasks.length = s.tasks.length) : s'.left = s.left := by
  have hupdate := left_update hi hworkers
  omega

theorem not_fails (hnot : (∀ task peers, s.workers i ≠ .working task peers) ∨
    ∀ task peers, s'.workers i ≠ .working task peers) : ¬ Fails s (.worker i) s' := by
  rintro ⟨i', task, task', peers, heq, hold, hnew⟩
  injection heq with heq
  subst heq
  rcases hnot with hnot | hnot
  · exact hnot task peers hold
  · exact hnot task' peers hnew

/-- The worker gets ahead with its task, or takes one from the queue. -/
theorem nearer_of_update {w w' : Worker} (hi : s.workers i = w)
    (hworkers : s'.workers = Function.update s.workers i w')
    (hnot : (∀ task peers, w ≠ .working task peers) ∨ ∀ task peers, w' ≠ .working task peers)
    (hlength : w'.left + 5 * s'.tasks.length + 1 = w.left + 5 * s.tasks.length) :
    ¬ Fails s (.worker i) s' ∧ s'.left + 1 = s.left := by
  have hupdate := left_update hi hworkers
  refine ⟨not_fails ?_, by omega⟩
  rw [hworkers, Function.update_self, hi]
  exact hnot

/-- A step that is no failed attempt brings the end nearer by one. -/
theorem Step.left (h : Step env fuel s (.worker i) s') (hs : s.Running) :
    Fails s (.worker i) s' ∧ s'.left = s.left ∨
      ¬ Fails s (.worker i) s' ∧ s'.left + 1 = s.left := by
  cases h with
  | @extract _ task tasks hi htask =>
    refine .inr (nearer_of_update hi rfl (.inl (by simp)) ?_)
    show 4 + 5 * tasks.length + 1 = 0 + 5 * s.tasks.length
    rw [Queue.extract_lifo htask, List.length_cons]
    omega
  | findPaused hi hlock hstate => exact absurd hstate (hs.active _)
  | requeue hi =>
    refine .inr (nearer_of_update hi rfl (.inl (by simp)) ?_)
    show 0 + 5 * (s.tasks ++ [_]).length + 1 = 6 + 5 * s.tasks.length
    rw [List.length_append, List.length_singleton]
    omega
  | work hi hlock hstate =>
    exact .inr (nearer_of_update hi rfl (.inl (by simp)) (Nat.add_right_comm ..))
  | fail hi hpeer hprocess =>
    exact .inl ⟨⟨i, _, _, _, rfl, hi, State.workers_setWorker_self ..⟩,
      left_eq_of_update hi rfl rfl rfl⟩
  | succeed hi hpeer hprocess =>
    exact .inr (nearer_of_update hi rfl (.inr (by simp)) (Nat.add_right_comm ..))
  | count hi hlock =>
    exact .inr (nearer_of_update hi rfl (.inl (by simp)) (Nat.add_right_comm ..))
  | complete hi hlast =>
    exact .inr (nearer_of_update hi rfl (.inl (by simp)) (Nat.add_right_comm ..))
  | next hi hmore =>
    exact .inr (nearer_of_update hi rfl (.inl (by simp)) (Nat.add_right_comm ..))

theorem left_eq_zero : s.left = 0 ↔ s.tasks = [] ∧ ∀ i, s.workers i = .idle := by
  have hworker : ∀ w : Worker, w.left = 0 ↔ w = .idle := by
    intro w
    cases w <;> simp [Worker.left]
  rw [State.left, Nat.add_eq_zero_iff, Finset.sum_eq_zero_iff]
  simp [hworker]

/-! ### Torrents without pieces -/

/-- Whoever has counted a piece has got a positive sum. -/
structure State.Positive (s : State n m) : Prop where
  sum : ∀ i tid sum, s.workers i = .counted tid sum → 0 < sum
  completed : ∀ tid ∈ s.log.completed, 0 < (s.torrent tid).descriptor.piecesCount

/-- Where a sum comes from. -/
theorem Step.sum_cases (h : Step env fuel s a s') {sum : Int}
    (hi : s'.workers i = .counted tid sum) :
    s.workers i = .counted tid sum ∨ sum = (s.torrent tid).piecesProcessed + 1 := by
  by_cases ha : a = .worker i
  · subst ha
    cases h with
    | count =>
      rw [State.workers_setWorker_self] at hi
      injection hi with htid hsum
      rw [← htid]
      exact .inr hsum.symm
    | _ =>
      rw [State.workers_setWorker_self] at hi
      injection hi
  · rw [h.workers_of_ne ha] at hi
    exact .inl hi

theorem Step.completed_cases (h : Step env fuel s a s') (htid : tid ∈ s'.log.completed) :
    tid ∈ s.log.completed ∨
      ∃ i, s.workers i = .counted tid (s.torrent tid).descriptor.piecesCount := by
  cases h with
  | complete hi hlast =>
    rcases List.mem_cons.mp htid with rfl | htid
    · rw [hlast] at hi
      exact .inr ⟨_, hi⟩
    · exact .inl htid
  | addWithoutPeers _ _ hs' =>
    subst hs'
    exact .inl htid
  | addThrow _ _ hs' =>
    subst hs'
    exact .inl htid
  | addGenerate _ _ hs' =>
    subst hs'
    exact .inl htid
  | _ => exact .inl htid

theorem positive_of_reachable (h : Reachable (furrent env fuel n m) s) : s.Positive := by
  apply h.invariant (I := State.Positive)
  · rintro _ ⟨files, rfl⟩
    exact ⟨by simp [State.start], by simp [State.start]⟩
  · intro s a s' hreach hs hstep
    have hcounted := counted_of_reachable hreach
    constructor
    · intro i tid sum hi
      rcases hstep.sum_cases hi with hold | hnew
      · exact hs.sum i tid sum hold
      · rw [hnew, hcounted.counter tid]
        omega
    · intro tid htid
      have hpos : tid ∈ s.log.generated ∧ 0 < (s.torrent tid).descriptor.piecesCount := by
        rcases hstep.completed_cases htid with hold | ⟨i, hi⟩
        · exact ⟨(hcounted.completed tid hold).1, hs.completed tid hold⟩
        · exact ⟨(hcounted.sum_le i tid _ hi).1, hs.sum i tid _ hi⟩
      rw [hstep.descriptor_of_generated (fresh_of_reachable hreach) tid hpos.1]
      exact hpos.2

/-! ### When nothing is left -/

/-- The workers have done what there was to do. -/
structure State.Done (s : State n m) : Prop where
  tasks : s.tasks = []
  workers : ∀ i, s.workers i = .idle
  /-- A piece whose task was not removed has been saved. -/
  saved : ∀ tid ∈ s.log.generated, ∀ index, 0 ≤ index →
    index < (s.torrent tid).descriptor.piecesCount →
    ((tid, index) ∈ s.log.saved ↔ (tid, index) ∉ s.log.removed)
  /-- A torrent is completed if it has pieces and none of them was
      removed. -/
  completed : ∀ tid ∈ s.log.generated, (tid ∈ s.log.completed ↔
    0 < (s.torrent tid).descriptor.piecesCount ∧ ∀ index, (tid, index) ∉ s.log.removed)

/-- With an empty queue and idle workers a piece has been saved or
    removed. -/
theorem saved_iff_not_removed (h : Reachable (furrent env fuel n m) s) (hadder : s.adder = .idle)
    (htasks : s.tasks = []) (hidle : ∀ i, s.workers i = .idle) (hgen : tid ∈ s.log.generated)
    {index : Int} (h0 : 0 ≤ index) (hlt : index < (s.torrent tid).descriptor.piecesCount) :
    (tid, index) ∈ s.log.saved ↔ (tid, index) ∉ s.log.removed := by
  have hsettled := settled_of_idle h hidle hadder hgen
  rw [hsettled.saved index]
  obtain ⟨p, hp, hone, hothers⟩ := hsettled.place index h0 hlt
  simp only [List.mem_cons, List.not_mem_nil, or_false] at hp
  rcases hp with rfl | rfl | rfl
  · simp [State.found, htasks] at hone
  · have hnone : s.log.removed.count (tid, index) = 0 := hothers .removed (by simp)
    have hmem : 0 < s.log.processed.count (tid, index) := by
      show 0 < s.found .processed (tid, index)
      omega
    simp [List.count_pos_iff.mp hmem, List.count_eq_zero.mp hnone]
  · have hnone : s.log.processed.count (tid, index) = 0 := hothers .processed (by simp)
    have hmem : 0 < s.log.removed.count (tid, index) := by
      show 0 < s.found .removed (tid, index)
      omega
    simp [List.count_pos_iff.mp hmem, List.count_eq_zero.mp hnone]

/-- What was removed is a piece of its torrent. -/
theorem generated_of_removed (h : Reachable (furrent env fuel n m) s) {k : Key}
    (hk : k ∈ s.log.removed) : s.Generated k := by
  obtain ⟨loc, _, hagrees⟩ := furrent_simulates.reachable h
  have hcount : 0 < s.found .removed k := List.count_pos_iff.mpr hk
  exact (hagrees.generated k).mp (by simp [hagrees.located.eq_some hcount])

theorem done_of_left (h : Reachable (furrent env fuel n m) s) (hadder : s.adder = .idle)
    (hleft : s.left = 0) : s.Done := by
  obtain ⟨htasks, hidle⟩ := left_eq_zero.mp hleft
  refine ⟨htasks, hidle, ?_, ?_⟩
  · intro tid hgen index h0 hlt
    exact saved_iff_not_removed h hadder htasks hidle hgen h0 hlt
  · intro tid hgen
    have hsettled := settled_of_idle h hidle hadder hgen
    constructor
    · intro hcompleted
      have hpos := (positive_of_reachable h).completed tid hcompleted
      refine ⟨hpos, ?_⟩
      intro index hremoved
      obtain ⟨_, h0, hlt⟩ := generated_of_removed h hremoved
      have hsaved := (hsettled.completed hpos).mp hcompleted index h0 hlt
      exact (saved_iff_not_removed h hadder htasks hidle hgen h0 hlt).mp hsaved hremoved
    · rintro ⟨hpos, hnone⟩
      apply (hsettled.completed hpos).mpr
      intro index h0 hlt
      exact (saved_iff_not_removed h hadder htasks hidle hgen h0 hlt).mpr (hnone index)

/-! ### Saving -/

/-- The files of the torrent are there. -/
def FilesExist (d : TorrentFile) (fs : FileSystem) : Prop :=
  ∀ f ∈ d.files, ∃ j, fs.lookup (d.folderName ++ 47 :: f.filename) = some j

/-- With every file at its place and a device that works, `save` succeeds. -/
theorem save_works {data : Download.Downloaded} (hdata : task.data = some data)
    (hsize : data.content.length ≤ INT64_MAX) (hd : task.descriptor.Valid)
    (hpiece : IsPiece task.descriptor task.piece) (hfiles : FilesExist task.descriptor fs) :
    ∃ fs', save task (fun _ => {}) fs = (fs', .ok true) := by
  obtain ⟨beyond, ps, hps, hmem⟩ := hpiece
  obtain ⟨_, hcovers, hne⟩ := covers_of_pieces hd hps _ hmem
  have hoff : ∀ sub ∈ task.piece.subpieces, 0 ≤ sub.fileOffset :=
    fun sub hsub => (hcovers.file_of_mem hsub).1
  refine ⟨_, save_eq_true_iff.mpr ⟨(saveLoop_eq_true_iff hdata hsize hoff).mpr ⟨?_, rfl⟩, hne⟩⟩
  intro p hp
  obtain ⟨_, f, hf, hname⟩ := hcovers.file_of_mem (List.fst_mem_of_mem_zipIdx hp)
  obtain ⟨j, hj⟩ := hfiles f hf
  rw [subpiecePath, hname, hj]
  exact ⟨rfl, rfl, rfl⟩

/-! ### Peers that answer -/

/-- The peer answers a downloader that connects in state `w`, and has the
    piece. The piece is short enough to be hashed. -/
def Obtainable (downloads : Download.Env W) (fuel : Nat) (d : TorrentFile) (p : Piece) (w : W) :
    Prop :=
  Download.pieceLength d p.index < 2 ^ 29 ∧
    ∃ (peer : Download.Responder downloads d) (ms : List Download.Message),
    Download.Connects peer fuel { world := w } ms ∧ peer.offers p.index ∧
      ms.length + peer.noise
        * (Download.blocksTotal (Download.pieceLength d p.index)).toNat < fuel

/-- An attempt with a peer that answers succeeds. -/
theorem process_obtainable {downloads : Download.Env W} {w : W} (hd : task.descriptor.Valid)
    (hpiece : IsPiece task.descriptor task.piece) (hfiles : FilesExist task.descriptor fs)
    (hpeer : Obtainable downloads fuel task.descriptor task.piece w) :
    ∃ task' fs', process downloads fuel task w (fun _ => {}) fs = (task', fs', .ok true) := by
  obtain ⟨hsmall, peer, ms, hconnects, hoffers, hfuel⟩ := hpeer
  obtain ⟨st, ms', hcall, _⟩ := hconnects.tryDownload hoffers hsmall hfuel
  have hoffered := peer.offered _ hoffers
  obtain ⟨task', hdownload, hdata, htask⟩ : ∃ task', download downloads fuel task w
      = (task', .ok true) ∧
      task'.data = some ⟨task.piece.index, peer.content task.piece.index⟩ ∧
      task'.piece = task.piece ∧ task'.descriptor = task.descriptor := by
    refine ⟨{ task with data := some ⟨task.piece.index, peer.content task.piece.index⟩ }, ?_, rfl,
      rfl, rfl⟩
    rw [download, hcall]
  obtain ⟨hsame, hdesc⟩ := htask
  rw [← hdesc] at hd hfiles
  rw [← hdesc, ← hsame] at hpiece
  have hsize : (peer.content task.piece.index).length ≤ INT64_MAX := by
    have hle := hoffered.downloadable.length_le
    rw [hoffered.length_eq] at hle
    rw [INT64_MAX]
    omega
  obtain ⟨fs', hsave⟩ := save_works hdata hsize hd hpiece hfiles
  exact ⟨task', fs', by rw [process, hdownload]; simp only [hsave]⟩

/-- A worker at work has the peers of its torrent. -/
theorem Step.working (h : Step env fuel s a s') (hi : s'.workers i = .working task peers) :
    (∃ old, s.workers i = .working old peers ∧ old.tid = task.tid) ∨
      s.workers i = .extracted task ∧ peers = (s.torrent task.tid).peers := by
  by_cases ha : a = .worker i
  · subst ha
    cases h with
    | work hi₀ hlock hstate =>
      rw [State.workers_setWorker_self] at hi
      injection hi with htask hpeers
      rw [← htask, ← hpeers]
      exact .inr ⟨hi₀, rfl⟩
    | fail hi₀ hpeer hprocess =>
      rw [State.workers_setWorker_self] at hi
      injection hi with htask hpeers
      rw [← htask, ← hpeers]
      exact .inl ⟨_, hi₀, (congrArg Prod.fst (key_process hprocess)).symm⟩
    | _ =>
      rw [State.workers_setWorker_self] at hi
      injection hi
  · rw [h.workers_of_ne ha] at hi
    exact .inl ⟨task, hi, rfl⟩

theorem peers_of_working (h : Reachable (furrent env fuel n m) s)
    (hi : s.workers i = .working task peers) : peers = (s.torrent task.tid).peers := by
  have hinvariant : ∀ i task peers, s.workers i = .working task peers →
      peers = (s.torrent task.tid).peers := by
    apply h.invariant (I := fun s => ∀ i task peers, s.workers i = .working task peers →
      peers = (s.torrent task.tid).peers)
    · rintro _ ⟨files, rfl⟩ i task peers hi
      cases hi
    · intro s a s' hreach hs hstep i task peers hi
      -- The worker has had a task of the torrent, so this is not being loaded.
      have hsame : ∀ old, (s.workers i).task = some old → old.tid = task.tid →
          (s'.torrent task.tid).peers = (s.torrent task.tid).peers := by
        intro old hold htid
        have hgen := generated_of_has hreach (.inr ⟨i, hold⟩)
        rw [htid] at hgen
        exact hstep.peers fun ha => ((fresh_of_reachable hreach).loading _ ha).2 hgen
      rcases hstep.working hi with ⟨old, hold, htid⟩ | ⟨hold, hpeers⟩
      · rw [hsame old (by rw [hold]; rfl) htid, ← htid]
        exact hs i old peers hold
      · rw [hsame task (by rw [hold]; rfl) rfl]
        exact hpeers
  exact hinvariant i task peers hi

/-! ### The workers can get done -/

/-- What the workers need: the files of every torrent are there, and for each
    piece one of the torrent's peers answers. -/
structure State.Supplied (env : Peer → Download.Env W) (fuel : Nat) (s : State n m) : Prop extends
    s.Running where
  valid : ∀ tid ∈ s.log.generated, (s.torrent tid).descriptor.Valid
  files : ∀ tid ∈ s.log.generated, FilesExist (s.torrent tid).descriptor s.files
  answers : ∀ tid ∈ s.log.generated, ∀ p, IsPiece (s.torrent tid).descriptor p →
    ∃ peer ∈ (s.torrent tid).peers, ∃ w, Obtainable (env peer) fuel (s.torrent tid).descriptor p w

/-- An attempt makes no file and removes none. -/
theorem afterCalls_lookup (faults : Nat → WriteFault) (k : Nat) (calls : List WriteCall)
    (fs : FileSystem) : (afterCalls faults k calls fs).lookup = fs.lookup := by
  induction calls generalizing k fs with
  | nil => rfl
  | cons c calls ih =>
    rw [afterCalls, ih]
    cases hwrite : writeBytes (faults k) fs c.path c.bytes c.offset with
    | mk fs₁ r =>
      rcases writeBytes_cases hwrite with ⟨hsame, _⟩ | ⟨j, _, _, hfs⟩
      · rw [hsame]
      · rw [hfs]
        rfl

theorem Step.lookup (h : Step env fuel s (.worker i) s') : s'.files.lookup = s.files.lookup := by
  cases h.diskChange with
  | kept files saved =>
    rcases files with hfiles | ha
    · rw [hfiles]
    · cases ha
  | @process _ task task' peers peer w faults r actor worker process saved generated torrents =>
    have hfs := process_fs (env peer) fuel task w faults s.files
    rw [process] at hfs
    have hlookup := afterCalls_lookup faults 0
      (processCalls (env peer) fuel task w faults s.files) s.files
    rw [← hfs] at hlookup
    exact hlookup

theorem Step.supplied (h : Step env fuel s (.worker i) s') (hs : s.Supplied env fuel) :
    s'.Supplied env fuel := by
  have hloading : ∀ tid, s.adder ≠ .loading tid := by
    intro tid
    rw [hs.adder]
    simp
  have hdesc : ∀ tid, (s'.torrent tid).descriptor = (s.torrent tid).descriptor :=
    fun tid => h.descriptor (hloading tid)
  refine ⟨h.running hs.toRunning, ?_, ?_, ?_⟩
  · intro tid htid
    rw [h.generated_of_worker] at htid
    rw [hdesc]
    exact hs.valid tid htid
  · intro tid htid
    rw [h.generated_of_worker] at htid
    rw [hdesc, FilesExist, h.lookup]
    exact hs.files tid htid
  · intro tid htid
    rw [h.generated_of_worker] at htid
    rw [hdesc, h.peers (hloading tid)]
    exact hs.answers tid htid

/-- A worker at work finds a peer with which it succeeds. -/
theorem State.Supplied.exists_success (hs : s.Supplied env fuel)
    (h : Reachable (furrent env fuel n m) s) (hi : s.workers i = .working task peers) :
    ∃ s', Step env fuel s (.worker i) s' ∧ ¬ Fails s (.worker i) s' := by
  have hhas : s.Has task := .inr ⟨i, by rw [hi]; rfl⟩
  have hgen := generated_of_has h hhas
  obtain ⟨hdesc, hpiece⟩ := (genuine_of_reachable h).tasks task hhas
  obtain ⟨peer, hpeer, w, hobtainable⟩ := hs.answers task.tid hgen task.piece (hdesc ▸ hpiece)
  rw [← peers_of_working h hi] at hpeer
  obtain ⟨peerIndex, hindex⟩ := List.mem_iff_getElem?.mp hpeer
  rw [← hdesc] at hobtainable
  obtain ⟨task', files, hprocess⟩ := process_obtainable (hdesc ▸ hs.valid task.tid hgen) hpiece
    (hdesc ▸ hs.files task.tid hgen) hobtainable
  refine ⟨_, .succeed hi hindex hprocess, not_fails (.inr ?_)⟩
  intro task'' peers'
  rw [State.workers_setWorker_self]
  simp

/-- A worker that has something to do can do it, and without a failure. -/
theorem State.Supplied.exists_step_of_worker (hs : s.Supplied env fuel)
    (h : Reachable (furrent env fuel n m) s) (hi : s.workers i ≠ .idle) :
    ∃ s', Step env fuel s (.worker i) s' ∧ ¬ Fails s (.worker i) s' := by
  by_cases hworking : ∃ task peers, s.workers i = .working task peers
  · obtain ⟨task, peers, hworking⟩ := hworking
    exact hs.exists_success h hworking
  · have hnot : ∀ task peers, s.workers i ≠ .working task peers :=
      fun task peers heq => hworking ⟨task, peers, heq⟩
    obtain ⟨s', hstep⟩ := client_steps env fuel hi hs.adder hnot
    exact ⟨s', hstep, not_fails (.inl hnot)⟩

theorem State.Supplied.exists_step (hs : s.Supplied env fuel)
    (h : Reachable (furrent env fuel n m) s) (hn : 0 < n) (hleft : s.left ≠ 0) :
    ∃ i s', Step env fuel s (.worker i) s' ∧ ¬ Fails s (.worker i) s' := by
  by_cases hidle : ∀ i, s.workers i = .idle
  · cases htasks : s.tasks with
    | nil => exact absurd (left_eq_zero.mpr ⟨htasks, hidle⟩) hleft
    | cons task tasks =>
      have hextract : Queue.extract lifoPolicy s.tasks = .ok (task, tasks) := by
        rw [htasks]
        rfl
      exact ⟨⟨0, hn⟩, _, .extract (hidle _) hextract, not_fails (.inl (by simp [hidle]))⟩
  · obtain ⟨i, hi⟩ := not_forall.mp hidle
    obtain ⟨s', hstep, hnot⟩ := hs.exists_step_of_worker h hi
    exact ⟨i, s', hstep, hnot⟩

theorem State.Supplied.exists_run (hs : s.Supplied env fuel)
    (h : Reachable (furrent env fuel n m) s) (hn : 0 < n) :
    ∃ s', Run ((furrent env fuel n m).restrict ByWorker) (fun s a s' => ¬ Fails s a s')
      s s.left s' ∧ (Reachable (furrent env fuel n m) s' ∧ s'.Supplied env fuel) ∧
      s'.left = 0 := by
  refine Run.exists_of_rank
    (I := fun s => Reachable (furrent env fuel n m) s ∧ s.Supplied env fuel) ?_ ⟨h, hs⟩
  rintro s ⟨hreach, hs⟩ hleft
  obtain ⟨i, s', hstep, hnot⟩ := hs.exists_step hreach hn hleft
  refine ⟨.worker i, s', ⟨hstep, i, rfl⟩, hnot, ⟨hreach.step hstep, hstep.supplied hs⟩, ?_⟩
  rcases hstep.left hs.toRunning with ⟨hfails, _⟩ | ⟨_, hlower⟩
  · exact absurd hfails hnot
  · exact hlower

/-! ### Getting done -/

/-- Nothing is being added or paused: then the number of steps that the
    workers take, failed attempts apart, is known. They never take more than
    `s.left`, and they have taken as many exactly when they are done: every
    piece that was not removed has been saved, every torrent that has pieces
    and has lost none is completed. -/
theorem workers_get_done (hs : Reachable (furrent env fuel n m) s) (hrunning : s.Running) {k : Nat}
    (hrun : Run ((furrent env fuel n m).restrict ByWorker) (fun s a s' => ¬ Fails s a s') s k s') :
    k ≤ s.left ∧ (k = s.left ↔ s'.Done) := by
  have hsteps : (Reachable (furrent env fuel n m) s' ∧ s'.Running) ∧ k + s'.left = s.left := by
    refine hrun.add_rank (I := fun s => Reachable (furrent env fuel n m) s ∧ s.Running)
      ?_ ?_ ?_ ⟨hs, hrunning⟩
    · rintro s a s' ⟨hreach, hrunning⟩ ⟨hstep, i, rfl⟩
      exact ⟨hreach.step hstep, hstep.running hrunning⟩
    · rintro s a s' ⟨_, hrunning⟩ ⟨hstep, i, rfl⟩ hnot
      rcases hstep.left hrunning with ⟨hfails, _⟩ | ⟨_, hleft⟩
      · exact absurd hfails hnot
      · exact hleft
    · rintro s a s' ⟨_, hrunning⟩ ⟨hstep, i, rfl⟩ hfails
      rcases hstep.left hrunning with ⟨_, hleft⟩ | ⟨hnot, _⟩
      · exact hleft
      · exact absurd hnot hfails
  obtain ⟨⟨hs', hrunning'⟩, hsteps⟩ := hsteps
  refine ⟨by omega, ?_, ?_⟩
  · intro hk
    exact done_of_left hs' hrunning'.adder (by omega)
  · intro hdone
    have hzero : s'.left = 0 := left_eq_zero.mpr ⟨hdone.tasks, hdone.workers⟩
    omega

/-- Whatever the workers have done, and however often they have failed: if
    the files are there and for each piece one of the peers answers, they can
    get done, in exactly as many steps as are left. No worker is in the way of
    another, and no piece is stuck. -/
theorem workers_can_complete (hs : Reachable (furrent env fuel n m) s)
    (hsupplied : s.Supplied env fuel) (hn : 0 < n)
    (hreaches : Reaches ((furrent env fuel n m).restrict ByWorker) s s') :
    ∃ s'', Run ((furrent env fuel n m).restrict ByWorker) (fun s a s' => ¬ Fails s a s')
      s' s'.left s'' ∧ s''.Done := by
  have hkept : Reachable (furrent env fuel n m) s' ∧ s'.Supplied env fuel := by
    refine hreaches.invariant
      (I := fun s => Reachable (furrent env fuel n m) s ∧ s.Supplied env fuel) ?_ ⟨hs, hsupplied⟩
    rintro s a s' ⟨hreach, hsupplied⟩ ⟨hstep, i, rfl⟩
    exact ⟨hreach.step hstep, hstep.supplied hsupplied⟩
  obtain ⟨hs', hsupplied'⟩ := hkept
  obtain ⟨s'', hrun, ⟨hs'', hsupplied''⟩, hleft⟩ := hsupplied'.exists_run hs' hn
  exact ⟨s'', hrun, done_of_left hs'' hsupplied''.adder hleft⟩

/-! ### Downloading from the seeder -/

section

open Faker
open Download (Responder Engaged greet)

/-- The file of zeroes, as `a` in the folder `.`. -/
def seededTorrent : TorrentFile :=
  { zeroesTorrent with folderName := [46], files := [⟨[[97]], 163783⟩] }

/-- A seeder that talks a lot and has all pieces. -/
def generous : Choices := { talkative with picks := fun _ => true }

def seededEnv : Download.Env Server := aliceEnv zeroes (fun _ => generous) Sha1.sha1

theorem seeded_describes : Describes seededTorrent zeroes Sha1.sha1 :=
  ⟨rfl, rfl, zeroes_describes.length, zeroes_describes.lt_length, zeroes_describes.length_le, rfl,
    zeroes_describes.hashes⟩

theorem generous_wellBehaved : generous.WellBehaved :=
  ⟨rfl, rfl, rfl, rfl, fun _ => rfl, fun _ => rfl, fun _ => rfl, fun _ => rfl⟩

/-- The seeder on its first connection. -/
def seededPeer : Responder seededEnv seededTorrent :=
  alice (n := 1) seeded_describes generous_wellBehaved

theorem seeded_obtainable {p : Piece} (h0 : 0 ≤ p.index) (hlt : p.index < 5) :
    Obtainable seededEnv 16 seededTorrent p {} := by
  obtain ⟨d₁, hgreet, hengaged⟩ : ∃ d₁, greet seededEnv seededTorrent { world := {} }
      = (.ok (), d₁) ∧ Engaged seededPeer d₁ [.unchoke] :=
    greet_alice seeded_describes rfl generous_wellBehaved (by decide)
  obtain ⟨ms, hconnects, hle⟩ := hengaged.connects_of_greet rfl hgreet rfl
    (show 1 < 16 by decide)
  have hle : ms.length ≤ 1 := hle
  obtain ⟨hhas, hblocks, hsmall⟩ :
      bitfieldHas (randomBitfieldFresh generous.picks) p.index = true ∧
        Download.blocksTotal (Download.pieceLength seededTorrent p.index) = 2 ∧
        Download.pieceLength seededTorrent p.index < 2 ^ 29 := by
    generalize p.index = index at h0 hlt
    interval_cases index <;> decide
  refine ⟨hsmall, seededPeer, ms, hconnects, ⟨hlt, hhas⟩, ?_⟩
  rw [hblocks]
  show ms.length + 7 * 2 < 16
  omega

/-- The file is on the disk. -/
def seededDisk : FileSystem where
  lookup := fun path => if path = [46, 47, 97] then some 0 else none
  content := fun _ => zeroes

/-- The torrent when it has been added, with one peer. -/
def seededEntry : Torrent :=
  { Torrent.create 0 seededTorrent [⟨1, 2⟩] with state := .downloading }

/-- Its tasks are in the queue. -/
theorem seeded_added : ∃ s : State 1 0,
    Reachable (furrent (fun _ => seededEnv) 16 1 0) s ∧ s.adder = .idle ∧ s.tasks.length = 5 ∧
    s.workers 0 = .idle ∧ s.files = seededDisk ∧ s.log.generated = [0] ∧
    s.torrent 0 = seededEntry ∧ ∀ tid ≠ 0, s.torrents tid = none := by
  have hbegin : Reachable (furrent (fun _ => seededEnv) 16 1 0) _ :=
    .step (.init ⟨seededDisk, rfl⟩) (.addBegin rfl)
  have hgenerate := hbegin.step (.addGenerate rfl
    ⟨by simp [State.start], by simp [State.start], fun j => j.elim0⟩
    (rfl : _ = State.tryEmplace _ 0 (.create 0 seededTorrent [⟨1, 2⟩]))
    (show [(⟨1, 2⟩ : Peer)] ≠ [] by decide)
    (show pieces seededTorrent (fun _ => some 0) = .ok
      [⟨0, [⟨[97], 0, 32768⟩]⟩, ⟨1, [⟨[97], 32768, 32768⟩]⟩, ⟨2, [⟨[97], 65536, 32768⟩]⟩,
        ⟨3, [⟨[97], 98304, 32768⟩]⟩, ⟨4, [⟨[97], 131072, 32711⟩]⟩] by decide +kernel))
  have hemplaced := ((((hgenerate.step (.addEmplace rfl)).step (.addEmplace rfl)).step
    (.addEmplace rfl)).step (.addEmplace rfl)).step (.addEmplace rfl)
  refine ⟨_, hemplaced.step (.addFinish rfl), rfl, rfl, rfl, rfl, rfl, rfl, ?_⟩
  intro tid htid
  exact (Function.update_of_ne htid _ _).trans (Function.update_of_ne htid _ _)

/-- Everything is there for the worker. -/
theorem seeded_supplied : ∃ s : State 1 0,
    Reachable (furrent (fun _ => seededEnv) 16 1 0) s ∧ s.Supplied (fun _ => seededEnv) 16 ∧
    s.left = 25 := by
  obtain ⟨s, hs, hadder, htasks, hi, hfiles, hgen, htorrent, hother⟩ := seeded_added
  have hdesc : (s.torrent 0).descriptor = seededTorrent := by rw [htorrent]; rfl
  refine ⟨s, hs, ⟨⟨hadder, ?_⟩, ?_, ?_, ?_⟩, ?_⟩
  · intro tid
    by_cases htid : tid = 0
    · rw [htid, htorrent]
      simp [seededEntry]
    · rw [State.torrent, hother tid htid]
      decide
  · intro tid htid
    rw [hgen, List.mem_singleton] at htid
    rw [htid, hdesc]
    exact ⟨by decide, by decide, by decide, by decide, by decide⟩
  · intro tid htid
    rw [hgen, List.mem_singleton] at htid
    rw [htid, hdesc, hfiles]
    intro f hf
    rw [List.mem_singleton.mp hf]
    exact ⟨0, rfl⟩
  · intro tid htid p hp
    rw [hgen, List.mem_singleton] at htid
    rw [htid, hdesc] at hp
    rw [htid, hdesc, htorrent]
    obtain ⟨beyond, ps, hps, hmem⟩ := hp
    have hindex : p.index ∈ Int.range 0 seededTorrent.piecesCount := by
      rw [← pieces_index hps]
      exact List.mem_map_of_mem hmem
    obtain ⟨h0, hlt⟩ := Int.mem_range_iff.mp hindex
    exact ⟨⟨1, 2⟩, List.mem_singleton_self _, {}, seeded_obtainable h0 hlt⟩
  · rw [State.left, htasks, Fintype.sum_unique]
    show 25 + (s.workers 0).left = 25
    rw [hi]
    rfl

/-- The worker gets done in twenty-five steps. -/
theorem workers_get_done_seeded : ∃ s s' : State 1 0,
    Reachable (furrent (fun _ => seededEnv) 16 1 0) s ∧ s.left = 25 ∧ s'.Done := by
  obtain ⟨s, hs, hsupplied, hleft⟩ := seeded_supplied
  obtain ⟨s', hrun, _⟩ := hsupplied.exists_run hs Nat.one_pos
  exact ⟨s, s', hs, hleft, (workers_get_done hs hsupplied.toRunning hrun).2.mp rfl⟩

theorem workers_can_complete_seeded : ∃ s s'' : State 1 0,
    Reachable (furrent (fun _ => seededEnv) 16 1 0) s ∧ s.left = 25 ∧
    Run ((furrent (fun _ => seededEnv) 16 1 0).restrict ByWorker)
      (fun s a s' => ¬ Fails s a s') s s.left s'' ∧ s''.Done := by
  obtain ⟨s, hs, hsupplied, hleft⟩ := seeded_supplied
  obtain ⟨s'', hrun, hdone⟩ := workers_can_complete hs hsupplied Nat.one_pos .refl
  exact ⟨s, s'', hs, hleft, hrun, hdone⟩

end

end Furrent.Client
