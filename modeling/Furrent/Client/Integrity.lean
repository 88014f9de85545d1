import Furrent.Client.Image
import Furrent.Client.Destruction

/-! # What is on the disk

    The purpose of the client: the bytes of the files, cut at the boundaries
    of the pieces, have the hashes of the descriptor. Shown here for the
    running program, with any number of workers and torrents and in every
    reachable state: a piece that has been saved, and so every piece that has
    been counted, is on the disk with its hash, and stays there; the files of
    a torrent that a worker has completed are verified in full.

    Four things have to hold for it, and they are assumed of a run: no piece
    of a torrent reaches into two files (such a piece is written in full to
    each of them); the files of a torrent have been prepared when its tasks
    are generated, and no two files are the same one; preparing another
    torrent leaves them alone; and a save that succeeds has lost nothing.
    The last one is not up to the code: up to the size of its buffer, a
    stream is good although its bytes will be lost when it is closed, and
    the piece is counted all the same. -/

namespace Furrent.Client

open Cpp Platform Policy Transition Torrent

variable {n m : Nat} {W : Type} {env : Peer → Download.Env W} {fuel : Nat} {s s' : State n m}
  {a : Actor n m} {i : Fin n} {tid : TorrentID} {task : PieceTask} {d : TorrentFile}
  {fs fs' : FileSystem}

/-! ### Tasks are for pieces of their torrents -/

/-- Every task has the descriptor of its torrent and one of its pieces. -/
structure State.Genuine (s : State n m) : Prop where
  tasks : ∀ task, s.Has task →
    task.descriptor = (s.torrent task.tid).descriptor ∧ IsPiece task.descriptor task.piece
  pending : ∀ tid pieces, s.adder = .emplacing tid pieces →
    ∀ p ∈ pieces, IsPiece (s.torrent tid).descriptor p

/-- Where a task comes from: the program has had it, with other data or
    another copy of the descriptor, or it is a new one. -/
inductive TaskOrigin (s : State n m) (task : PieceTask) : Prop where
  | had {old : PieceTask} (has : s.Has old) (tid : task.tid = old.tid)
      (piece : task.piece = old.piece) (descriptor : task.descriptor = old.descriptor)
  | requeued {old : PieceTask} (has : s.Has old) (tid : task.tid = old.tid)
      (piece : task.piece = old.piece)
      (descriptor : task.descriptor = (s.torrent old.tid).descriptor)
  | emplaced {tid : TorrentID} {piece : Piece} {pieces : List Piece}
      (adder : s.adder = .emplacing tid (piece :: pieces))
      (task_eq : task = ⟨none, tid, piece, (s.torrent tid).descriptor⟩)

theorem taskOrigin_same (h : s.Has task) : TaskOrigin s task := .had h rfl rfl rfl

/-- A worker takes a step and has `w`, which holds a task with an origin. -/
theorem taskOrigin_worker {w : Worker} (htask : s'.Has task)
    (hworkers : s'.workers = Function.update s.workers i w)
    (htasks : ∀ task ∈ s'.tasks, TaskOrigin s task)
    (hw : ∀ task, w.task = some task → TaskOrigin s task) : TaskOrigin s task := by
  rcases htask with hqueued | ⟨i', hheld⟩
  · exact htasks task hqueued
  · rw [hworkers] at hheld
    by_cases hi : i' = i
    · rw [hi, Function.update_self] at hheld
      exact hw task hheld
    · rw [Function.update_of_ne hi] at hheld
      exact taskOrigin_same (.inr ⟨i', hheld⟩)

theorem taskOrigin_process {downloads : Download.Env W} {task' : PieceTask} {w : W}
    {faults : Nat → WriteFault} {fs fs' : FileSystem} {r : Outcome Empty Bool}
    (hprocess : process downloads fuel task w faults fs = (task', fs', r)) (htask : s.Has task) :
    TaskOrigin s task' := by
  obtain ⟨data, hdata⟩ := process_task downloads fuel task w faults fs
  rw [hprocess] at hdata
  have htask' : task' = { task with data := data } := hdata
  rw [htask']
  exact .had htask rfl rfl rfl

theorem Step.taskOrigin (h : Step env fuel s a s') (htask : s'.Has task) : TaskOrigin s task := by
  have hqueue : ∀ task ∈ s.tasks, TaskOrigin s task := fun task hmem => taskOrigin_same (.inl hmem)
  have hheld : ∀ {i task}, (s.workers i).task = some task → s.Has task :=
    fun {i task} htask => .inr ⟨i, htask⟩
  cases h with
  | @extract i task' tasks hi hextract =>
    have htasks := Queue.extract_lifo hextract
    refine taskOrigin_worker htask rfl ?_ ?_
    · intro task hmem
      exact hqueue task (htasks ▸ List.mem_cons_of_mem _ hmem)
    · intro task htask
      obtain rfl : task' = task := Option.some.inj htask
      exact hqueue task' (htasks ▸ List.mem_cons_self)
  | @findPaused i task' hi hlock hstate =>
    refine taskOrigin_worker htask rfl hqueue ?_
    intro task htask
    exact taskOrigin_same (hheld (i := i) (by rw [hi]; exact htask))
  | @requeue i task' hi =>
    have hhas : s.Has task' := hheld (i := i) (by rw [hi]; rfl)
    refine taskOrigin_worker htask rfl ?_ (by simp [Worker.task])
    intro task hmem
    rcases List.mem_append.mp hmem with hmem | hmem
    · exact hqueue task hmem
    · rw [List.mem_singleton.mp hmem]
      exact .requeued hhas rfl rfl rfl
  | @work i task' hi hlock hstate =>
    refine taskOrigin_worker htask rfl hqueue ?_
    intro task htask
    exact taskOrigin_same (hheld (i := i) (by rw [hi]; exact htask))
  | @fail i task' task'' peers peerIndex peer w faults files hi hpeer hprocess =>
    refine taskOrigin_worker htask rfl hqueue ?_
    intro task htask
    obtain rfl : task'' = task := Option.some.inj htask
    exact taskOrigin_process hprocess (hheld (i := i) (by rw [hi]; rfl))
  | @succeed i task' task'' peers peerIndex peer w faults files hi hpeer hprocess =>
    refine taskOrigin_worker htask rfl hqueue ?_
    intro task htask
    obtain rfl : task'' = task := Option.some.inj htask
    exact taskOrigin_process hprocess (hheld (i := i) (by rw [hi]; rfl))
  | count hi hlock => exact taskOrigin_worker htask rfl hqueue (by simp [Worker.task])
  | complete hi hlast => exact taskOrigin_worker htask rfl hqueue (by simp [Worker.task])
  | next hi hmore => exact taskOrigin_worker htask rfl hqueue (by simp [Worker.task])
  | addEmplace ha =>
    rcases htask with hmem | hheld
    · rcases List.mem_append.mp hmem with hmem | hmem
      · exact hqueue task hmem
      · exact .emplaced ha (List.mem_singleton.mp hmem)
    · exact taskOrigin_same (.inr hheld)
  | purge tid hj =>
    rcases htask with hmem | hheld
    · have hkept : task ∈ Queue.mutate (PieceTask.refersTo tid) s.tasks := hmem
      rw [Queue.mutate_eq_filter] at hkept
      exact hqueue task (List.mem_of_mem_filter hkept)
    · exact taskOrigin_same (.inr hheld)
  | addWithoutPeers ha hlock hs' hpeers =>
    subst hs'
    exact taskOrigin_same htask
  | addThrow ha hlock hs' hpeers hpieces =>
    subst hs'
    exact taskOrigin_same htask
  | addGenerate ha hlock hs' hpeers hpieces =>
    subst hs'
    exact taskOrigin_same htask
  | _ => exact taskOrigin_same htask

/-- Between two torrents the list of pieces to emplace only gets shorter. -/
theorem Step.pending (h : Step env fuel s a s') (hgen : s'.log.generated = s.log.generated)
    {pieces : List Piece} (ha : s'.adder = .emplacing tid pieces) :
    ∃ pieces₀, s.adder = .emplacing tid pieces₀ ∧ pieces ⊆ pieces₀ := by
  cases h with
  | addBegin => cases ha
  | addFail => cases ha
  | addWithoutPeers => cases ha
  | addThrow => cases ha
  | addGenerate ha' hlock hs₁ hpeers hpieces =>
    subst hs₁
    exact absurd hgen (List.cons_ne_self _ _)
  | addEmplace ha' =>
    injection ha with htid hpieces
    rw [htid, hpieces] at ha'
    exact ⟨_, ha', List.subset_cons_self _ _⟩
  | addFinish => cases ha
  | _ => exact ⟨pieces, ha, List.Subset.refl _⟩

theorem IsPiece.of_eq {d' : TorrentFile} {p p' : Piece} (h : IsPiece d p) (hd : d' = d)
    (hp : p' = p) : IsPiece d' p' := by
  rw [hd, hp]
  exact h

theorem Step.genuine (h : Step env fuel s a s') (hreach : Reachable (furrent env fuel n m) s)
    (hs : s.Genuine) : s'.Genuine := by
  have hfresh := fresh_of_reachable hreach
  constructor
  · intro task htask
    cases h.taskOrigin htask with
    | @had old has tid piece descriptor =>
      obtain ⟨hold, hpiece⟩ := hs.tasks old has
      have hsame := h.descriptor_of_generated hfresh old.tid (generated_of_has hreach has)
      exact ⟨by rw [descriptor, tid, hsame, hold], hpiece.of_eq descriptor piece⟩
    | @requeued old has tid piece descriptor =>
      obtain ⟨hold, hpiece⟩ := hs.tasks old has
      have hsame := h.descriptor_of_generated hfresh old.tid (generated_of_has hreach has)
      exact ⟨by rw [descriptor, tid, hsame], hpiece.of_eq (descriptor.trans hold.symm) piece⟩
    | @emplaced tid piece pieces adder task_eq =>
      have hsame := h.descriptor (show s.adder ≠ .loading tid by rw [adder]; simp)
      rw [task_eq]
      exact ⟨hsame.symm, hs.pending tid _ adder piece List.mem_cons_self⟩
  · intro tid pieces ha p hp
    by_cases hgen : s'.log.generated = s.log.generated
    · obtain ⟨pieces₀, ha₀, hsubset⟩ := h.pending hgen ha
      rw [h.descriptor (by rw [ha₀]; simp)]
      exact hs.pending tid pieces₀ ha₀ p (hsubset hp)
    · obtain ⟨tid', descriptor, peers, beyond, pieces', ha', hpeers, hpieces, hs'⟩ :=
        h.generated hgen
      rw [hs'] at ha ⊢
      injection ha with htid hps
      rw [← htid]
      rw [← hps] at hp
      exact ⟨beyond, pieces', hpieces, hp⟩

theorem genuine_of_reachable (h : Reachable (furrent env fuel n m) s) : s.Genuine := by
  apply h.invariant (I := State.Genuine)
  · rintro _ ⟨files, rfl⟩
    exact ⟨by simp [State.start, State.Has, Worker.task], by simp [State.start]⟩
  · intro s a s' hreach hs hstep
    exact hstep.genuine hreach hs

/-! ### What is assumed of a run -/

/-- The files of the torrent are on the disk. -/
structure State.Laid (s : State n m) (tid : TorrentID) : Prop where
  valid : (s.torrent tid).descriptor.Valid
  whole : Whole (s.torrent tid).descriptor
  prepared : Prepared (s.torrent tid).descriptor s.files

/-- No two files of the torrents are the same file on the disk. -/
def State.Apart (s : State n m) : Prop :=
  ∀ tid ∈ s.log.generated, ∀ tid' ∈ s.log.generated, ∀ (k k' : Nat) (f f' : File) (i : Nat),
    (s.torrent tid).descriptor.files[k]? = some f →
    (s.torrent tid').descriptor.files[k']? = some f' →
    s.files.lookup ((s.torrent tid).descriptor.folderName ++ 47 :: f.filename) = some i →
    s.files.lookup ((s.torrent tid').descriptor.folderName ++ 47 :: f'.filename) = some i →
    tid = tid' ∧ k = k'

/-- The files of the torrents are found as before, with the same content. -/
def State.Keeps (s : State n m) (fs : FileSystem) : Prop :=
  ∀ tid ∈ s.log.generated, ∀ f ∈ (s.torrent tid).descriptor.files, ∀ i,
    s.files.lookup ((s.torrent tid).descriptor.folderName ++ 47 :: f.filename) = some i →
    fs.lookup ((s.torrent tid).descriptor.folderName ++ 47 :: f.filename) = some i ∧
      fs.content i = s.files.content i

/-- The files of a torrent have been prepared when its tasks are generated,
    `add_torrent` leaves those of the other torrents alone, and of a piece
    that is saved with success every byte gets to the disk. -/
structure Careful (env : Peer → Download.Env W) (fuel : Nat) (s : State n m) (a : Actor n m)
    (s' : State n m) : Prop where
  lays : ∀ tid ∈ s'.log.generated, tid ∉ s.log.generated → s'.Laid tid ∧ s'.Apart
  keeps : a = .adder → s.Keeps s'.files
  flushes : ∀ i task peers, a = .worker i → s.workers i = .working task peers →
    s'.log.saved ≠ s.log.saved → ∃ peer w faults task', (∀ k, (faults k).written = none) ∧
      process (env peer) fuel task w faults s.files = (task', s'.files, .ok true)

/-! ### Every step -/

/-- The files and the saved pieces. -/
structure State.Intact (sha1 : Bytes → Bytes) (s : State n m) : Prop where
  laid : ∀ tid ∈ s.log.generated, s.Laid tid
  apart : s.Apart
  verified : ∀ tid index, (tid, index) ∈ s.log.saved →
    (s.torrent tid).descriptor.pieceHashes[index.toNat]?
      = some (sha1 (pieceOnDisk (s.torrent tid).descriptor s.files index))

/-- What a step does to the disk. -/
inductive DiskChange (env : Peer → Download.Env W) (fuel : Nat) (s : State n m) (a : Actor n m)
    (s' : State n m) : Prop where
  | kept (files : s'.files = s.files ∨ a = .adder) (saved : s'.log.saved = s.log.saved)
  | process {i : Fin n} {task task' : PieceTask} {peers : List Peer} {peer : Peer} {w : W}
      {faults : Nat → WriteFault} {r : Outcome Empty Bool}
      (actor : a = .worker i) (worker : s.workers i = .working task peers)
      (process : process (env peer) fuel task w faults s.files = (task', s'.files, r))
      (saved : s'.log.saved = s.log.saved ∨
        r = .ok true ∧ s'.log.saved = task.key :: s.log.saved)
      (generated : s'.log.generated = s.log.generated) (torrents : s'.torrents = s.torrents)

theorem Step.diskChange (h : Step env fuel s a s') : DiskChange env fuel s a s' := by
  cases h with
  | fail hi hpeer hprocess => exact .process rfl hi hprocess (.inl rfl) rfl rfl
  | succeed hi hpeer hprocess => exact .process rfl hi hprocess (.inr ⟨rfl, rfl⟩) rfl rfl
  | addWithoutPeers ha hlock hs' hpeers =>
    subst hs'
    exact .kept (.inr rfl) rfl
  | addThrow ha hlock hs' hpeers hpieces =>
    subst hs'
    exact .kept (.inr rfl) rfl
  | addGenerate ha hlock hs' hpeers hpieces =>
    subst hs'
    exact .kept (.inr rfl) rfl
  | addPrepare files ha => exact .kept (.inr rfl) rfl
  | _ => exact .kept (.inl rfl) rfl

/-- A saved piece belongs to a torrent whose tasks have been generated. -/
theorem generated_of_saved (h : Reachable (furrent env fuel n m) s) {k : Key}
    (hk : k ∈ s.log.saved) : s.Generated k := by
  obtain ⟨loc, _, hagrees⟩ := furrent_simulates.reachable h
  apply (hagrees.generated k).mp
  rcases (inHand_of_reachable h).saved k hk with hk | ⟨i, task, peerIndex, hi, hkey⟩
  · rw [hagrees.mem_processed hk]
    simp
  · have hcount : 0 < s.found (.held i) k := by
      rw [State.found, hi, ← hkey]
      simp [Worker.key, Worker.task]
    rw [hagrees.located.eq_some hcount]
    simp

/-- A worker does not work on a piece that has been saved. -/
theorem not_saved_of_working (h : Reachable (furrent env fuel n m) s) {peers : List Peer}
    (hi : s.workers i = .working task peers) : task.key ∉ s.log.saved := by
  obtain ⟨loc, _, hagrees⟩ := furrent_simulates.reachable h
  intro hsaved
  have hheld : loc task.key = some (.held i) := by
    apply hagrees.located.eq_some
    rw [State.found, hi]
    simp [Worker.key, Worker.task]
  rcases (inHand_of_reachable h).saved _ hsaved with hk | ⟨i', task', peerIndex, hi', hkey⟩
  · rw [hagrees.mem_processed hk] at hheld
    simp at hheld
  · -- The worker that has saved it holds it, and is another one.
    have hheld' : loc task.key = some (.held i') := by
      apply hagrees.located.eq_some
      rw [State.found, hi', ← hkey]
      simp [Worker.key, Worker.task]
    rw [hheld'] at hheld
    injection hheld with hplace
    injection hplace with hii
    rw [hii, hi] at hi'
    injection hi'

theorem State.Intact.kept {sha1 : Bytes → Bytes} (hs : s.Intact sha1)
    (hreach : Reachable (furrent env fuel n m) s) (h : Step env fuel s a s')
    (hlays : ∀ tid ∈ s'.log.generated, tid ∉ s.log.generated → s'.Laid tid ∧ s'.Apart)
    (hkeeps : s.Keeps s'.files) (hsaved : s'.log.saved = s.log.saved) : s'.Intact sha1 := by
  have hdesc := h.descriptor_of_generated (fresh_of_reachable hreach)
  have himage : ∀ tid ∈ s.log.generated,
      Prepared (s.torrent tid).descriptor s'.files ∧
        image (s.torrent tid).descriptor s'.files = image (s.torrent tid).descriptor s.files :=
    fun tid htid => image_congr (hs.laid tid htid).prepared (hkeeps tid htid)
  constructor
  · intro tid htid
    by_cases hold : tid ∈ s.log.generated
    · obtain ⟨hvalid, hwhole, _⟩ := hs.laid tid hold
      constructor
      · rw [hdesc tid hold]
        exact hvalid
      · rw [hdesc tid hold]
        exact hwhole
      · rw [hdesc tid hold]
        exact (himage tid hold).1
    · exact (hlays tid htid hold).1
  · by_cases hnew : ∃ tid ∈ s'.log.generated, tid ∉ s.log.generated
    · obtain ⟨tid, htid, hold⟩ := hnew
      exact (hlays tid htid hold).2
    · have hold : ∀ tid ∈ s'.log.generated, tid ∈ s.log.generated := by
        intro tid htid
        by_contra hmem
        exact hnew ⟨tid, htid, hmem⟩
      -- A path that leads to a file now has led to it before.
      have hback : ∀ tid ∈ s.log.generated, ∀ (k : Nat) (f : File) (i : Nat),
          (s.torrent tid).descriptor.files[k]? = some f →
          s'.files.lookup ((s.torrent tid).descriptor.folderName ++ 47 :: f.filename) = some i →
          s.files.lookup ((s.torrent tid).descriptor.folderName ++ 47 :: f.filename) = some i := by
        intro tid htid k f i hf hi
        obtain ⟨j, hj, _⟩ := (hs.laid tid htid).prepared f (List.mem_of_getElem? hf)
        have hj' := (hkeeps tid htid f (List.mem_of_getElem? hf) j hj).1
        rw [hj'] at hi
        rw [hj, hi]
      intro tid htid tid' htid' k k' f f' i hf hf' hi hi'
      rw [hdesc tid (hold tid htid)] at hf hi
      rw [hdesc tid' (hold tid' htid')] at hf' hi'
      exact hs.apart tid (hold tid htid) tid' (hold tid' htid') k k' f f' i hf hf'
        (hback tid (hold tid htid) k f i hf hi) (hback tid' (hold tid' htid') k' f' i hf' hi')
  · intro tid index hmem
    rw [hsaved] at hmem
    have hgen := (generated_of_saved hreach hmem).1
    rw [hdesc tid hgen, hs.verified tid index hmem, pieceOnDisk, pieceOnDisk, (himage tid hgen).2]

/-- The disk after a worker has tried the piece `k`. -/
structure Tried (sha1 : Bytes → Bytes) (s : State n m) (k : Key) (faults : Nat → WriteFault)
    (fs : FileSystem) (r : Outcome Empty Bool) : Prop where
  lookup : fs.lookup = s.files.lookup
  prepared : ∀ tid ∈ s.log.generated, Prepared (s.torrent tid).descriptor fs
  /-- The other pieces are as before. -/
  others : ∀ k', s.Generated k' → k' ≠ k →
    pieceOnDisk (s.torrent k'.1).descriptor fs k'.2
      = pieceOnDisk (s.torrent k'.1).descriptor s.files k'.2
  /-- After a success it has its hash, if nothing was lost. -/
  verified : r = .ok true → (∀ k, (faults k).written = none) →
    (s.torrent k.1).descriptor.pieceHashes[k.2.toNat]?
      = some (sha1 (pieceOnDisk (s.torrent k.1).descriptor fs k.2))

theorem State.Intact.tried {sha1 : Bytes → Bytes} (hs : s.Intact sha1)
    (hreach : Reachable (furrent env fuel n m) s) {downloads : Download.Env W}
    (hsha1 : downloads.sha1 = sha1) {task' : PieceTask} {peers : List Peer} {w : W}
    {faults : Nat → WriteFault} {r : Outcome Empty Bool}
    (hi : s.workers i = .working task peers)
    (hprocess : process downloads fuel task w faults s.files = (task', fs', r)) :
    Tried sha1 s task.key faults fs' r := by
  have hhas : s.Has task := .inr ⟨i, by rw [hi]; rfl⟩
  have hgen := generated_of_has hreach hhas
  obtain ⟨hdesc, hpiece⟩ := (genuine_of_reachable hreach).tasks task hhas
  obtain ⟨hvalid, hwhole, hprepared⟩ := hs.laid task.tid hgen
  rw [hdesc] at hpiece
  obtain ⟨sub, k, f, hsub, hf, hname, hoff, hstart, hend, h0, hlt⟩ :=
    exists_subpiece hvalid hwhole hpiece
  cases process_attempted hsub hprocess with
  | nothing same failed =>
    rw [same]
    exact ⟨rfl, fun tid htid => (hs.laid tid htid).prepared, fun _ _ _ => rfl,
      fun hr _ => absurd hr failed⟩
  | @wrote j content file offset length hash write =>
    rw [subpiecePath, hdesc, hname] at file
    rw [hdesc] at length hash
    have hpart : (((faults 0).kept content).length : Int)
        ≤ Download.pieceLength (s.torrent task.tid).descriptor task.piece.index := by
      have := ((faults 0).kept_initial content).length_le
      omega
    -- The bytes stay inside of their file, and are those of the piece's section.
    have hin : sub.fileOffset.toNat + ((faults 0).kept content).length ≤
        (s.files.content j).length := by
      have hlength := length_fileOnDisk hprepared (List.mem_of_getElem? hf)
      rw [fileOnDisk_eq file] at hlength
      omega
    have himage : image (s.torrent task.tid).descriptor fs'
        = overwrite 0 (image (s.torrent task.tid).descriptor s.files)
          (task.piece.index * (s.torrent task.tid).descriptor.pieceLength).toNat
          ((faults 0).kept content) := by
      rw [write, image_write hprepared hf file (by omega), Int.toNat_of_nonneg hoff, hstart]
      intro k' f' hf' hi'
      exact (hs.apart task.tid hgen task.tid hgen k' k f' f j hf' hf hi' file).2
    obtain ⟨hself, hothers⟩ := pieceOnDisk_write hvalid hprepared h0 hlt hpart himage
    refine ⟨by rw [write]; rfl, ?_, ?_, ?_⟩
    · intro tid htid
      rw [write]
      exact (hs.laid tid htid).prepared.write hin
    · rintro ⟨tid', index'⟩ ⟨hgen', h0', hlt'⟩ hne
      by_cases htid : tid' = task.tid
      · subst htid
        exact hothers index' h0' hlt' fun hindex => hne (by rw [hindex]; rfl)
      · have hother : image (s.torrent tid').descriptor fs'
            = image (s.torrent tid').descriptor s.files := by
          rw [write]
          apply image_write_other
          intro f' hf' hi'
          obtain ⟨k', hk'⟩ := List.mem_iff_getElem?.mp hf'
          exact htid (hs.apart tid' hgen' task.tid hgen k' k f' f j hk' hf hi' file).1
        rw [pieceOnDisk, pieceOnDisk, hother]
    · intro _ hflushed
      rw [WriteFault.kept_of_written (hflushed 0)] at hself
      rw [PieceTask.key, hself length, ← hsha1]
      exact hash

/-- A worker has tried a piece. -/
theorem State.Intact.process {sha1 : Bytes → Bytes} (hs : s.Intact sha1)
    (hreach : Reachable (furrent env fuel n m) s) {peers : List Peer}
    {faults : Nat → WriteFault} {r : Outcome Empty Bool}
    (hi : s.workers i = .working task peers) (htried : Tried sha1 s task.key faults s'.files r)
    (hsaved : s'.log.saved = s.log.saved ∨ s'.log.saved = task.key :: s.log.saved ∧
      r = .ok true ∧ ∀ k, (faults k).written = none)
    (hgenerated : s'.log.generated = s.log.generated) (htorrents : s'.torrents = s.torrents) :
    s'.Intact sha1 := by
  have htorrent : ∀ tid, s'.torrent tid = s.torrent tid := by
    intro tid
    rw [State.torrent, State.torrent, htorrents]
  have hold : ∀ k ∈ s.log.saved, (s.torrent k.1).descriptor.pieceHashes[k.2.toNat]?
      = some (sha1 (pieceOnDisk (s.torrent k.1).descriptor s'.files k.2)) := by
    intro k hk
    have hne : k ≠ task.key := by
      intro heq
      exact not_saved_of_working hreach hi (heq ▸ hk)
    rw [htried.others k (generated_of_saved hreach hk) hne]
    exact hs.verified k.1 k.2 hk
  refine ⟨?_, ?_, ?_⟩
  · intro tid htid
    rw [hgenerated] at htid
    obtain ⟨hvalid, hwhole, _⟩ := hs.laid tid htid
    constructor
    · rw [htorrent]
      exact hvalid
    · rw [htorrent]
      exact hwhole
    · rw [htorrent]
      exact htried.prepared tid htid
  · intro tid htid tid' htid' k k' f f' i
    rw [htorrent, htorrent, htried.lookup]
    rw [hgenerated] at htid htid'
    exact hs.apart tid htid tid' htid' k k' f f' i
  · intro tid index hmem
    rw [htorrent]
    rcases hsaved with hsame | ⟨hcons, hr, hflushed⟩
    · rw [hsame] at hmem
      exact hold _ hmem
    · rw [hcons] at hmem
      rcases List.mem_cons.mp hmem with heq | hmem
      · have hverified := htried.verified hr hflushed
        rw [← heq] at hverified
        exact hverified
      · exact hold _ hmem

theorem intact_of_reachable {sha1 : Bytes → Bytes} (hsha1 : ∀ peer, (env peer).sha1 = sha1)
    (h : Reachable ((furrent env fuel n m).restrict (Careful env fuel)) s) : s.Intact sha1 := by
  apply h.invariant (I := State.Intact sha1)
  · rintro _ ⟨files, rfl⟩
    exact ⟨by simp [State.start], by simp [State.Apart, State.start], by simp [State.start]⟩
  · intro s a s' hreach hs hstep
    obtain ⟨hstep, hcareful⟩ := hstep
    cases hstep.diskChange with
    | kept files saved =>
      refine hs.kept hreach.of_restrict hstep hcareful.lays ?_ saved
      rcases files with hfiles | ha
      · rw [hfiles]
        intro tid _ f _ i hi
        exact ⟨hi, rfl⟩
      · exact hcareful.keeps ha
    | process actor worker process saved generated torrents =>
      rcases saved with hsame | ⟨_, hcons⟩
      · exact hs.process hreach.of_restrict worker
          (hs.tried hreach.of_restrict (hsha1 _) worker process) (.inl hsame) generated torrents
      · -- The disk is as after a save that lost nothing.
        obtain ⟨peer, w, faults, task', hflushed, hprocess⟩ :=
          hcareful.flushes _ _ _ actor worker (by rw [hcons]; exact List.cons_ne_self _ _)
        exact hs.process hreach.of_restrict worker
          (hs.tried hreach.of_restrict (hsha1 peer) worker hprocess)
          (.inr ⟨hcons, rfl, hflushed⟩) generated torrents

/-- What the client is for. In every reachable state, every piece that has
    been counted is on the disk with the hash of the descriptor; and when a
    torrent has been completed its files are verified from the first byte to
    the last. -/
theorem disk_intact {sha1 : Bytes → Bytes} (hsha1 : ∀ peer, (env peer).sha1 = sha1)
    (h : Reachable ((furrent env fuel n m).restrict (Careful env fuel)) s) :
    (∀ k ∈ s.log.processed, (s.torrent k.1).descriptor.pieceHashes[k.2.toNat]?
      = some (sha1 (pieceOnDisk (s.torrent k.1).descriptor s.files k.2))) ∧
    ∀ tid ∈ s.log.completed,
      ((image (s.torrent tid).descriptor s.files).length : Int)
        = (s.torrent tid).descriptor.length ∧
      ∀ index, 0 ≤ index → index < (s.torrent tid).descriptor.piecesCount →
        (s.torrent tid).descriptor.pieceHashes[index.toNat]?
          = some (sha1 (pieceOnDisk (s.torrent tid).descriptor s.files index)) := by
  have hintact := intact_of_reachable hsha1 h
  have hcounted := counted_of_reachable h.of_restrict
  constructor
  · intro k hk
    exact hintact.verified k.1 k.2 (hcounted.saved k hk)
  · intro tid htid
    obtain ⟨loc, _, hagrees⟩ := furrent_simulates.reachable h.of_restrict
    obtain ⟨hgen, hfull, _⟩ := hcounted.completed tid htid
    obtain ⟨hvalid, _, hprepared⟩ := hintact.laid tid hgen
    constructor
    · rw [hvalid.length_eq]
      exact length_flatMap_fileOnDisk hprepared _ fun _ hf => hf
    · intro index h0 hlt
      exact hintact.verified tid index
        (hcounted.saved _ (hcounted.all_processed hagrees hfull h0 hlt))

/-! ### A run -/

/-- Workers generate nothing. -/
theorem Step.generated_of_worker (h : Step env fuel s (.worker i) s') :
    s'.log.generated = s.log.generated := by
  cases h <;> rfl

/-- Workers are careful if they lose nothing. -/
theorem careful_worker (h : Step env fuel s (.worker i) s')
    (hflushes : ∀ task peers, s.workers i = .working task peers →
      s'.log.saved ≠ s.log.saved → ∃ peer w faults task', (∀ k, (faults k).written = none) ∧
        process (env peer) fuel task w faults s.files = (task', s'.files, .ok true)) :
    Careful env fuel s (.worker i) s' := by
  refine ⟨?_, by simp, ?_⟩
  · intro tid htid hold
    rw [h.generated_of_worker] at htid
    exact absurd htid hold
  · intro i' task peers hi' hworking
    injection hi' with hi'
    rw [← hi'] at hworking
    exact hflushes task peers hworking

theorem careful_of_saved_eq (h : Step env fuel s (.worker i) s')
    (hsaved : s'.log.saved = s.log.saved) : Careful env fuel s (.worker i) s' :=
  careful_worker h fun _ _ _ hne => absurd hsaved hne

/-- So is `add_torrent` where it does nothing to the disk. -/
theorem careful_adder (hgenerated : s'.log.generated = s.log.generated)
    (hfiles : s'.files = s.files) : Careful env fuel s .adder s' := by
  refine ⟨?_, ?_, by simp⟩
  · intro tid htid hold
    rw [hgenerated] at htid
    exact absurd htid hold
  · intro _ tid _ f _ j hj
    rw [hfiles]
    exact ⟨hj, rfl⟩

section

open Download (listEnv answers)

theorem onePiece_valid : onePiece.Valid :=
  ⟨by decide, by decide, by decide, by decide, by decide⟩

theorem onePiece_laid (hgenerated : s.log.generated = [0])
    (hdesc : (s.torrent 0).descriptor = onePiece) (hfiles : s.files = onePieceOnDisk) :
    s.Laid 0 ∧ s.Apart := by
  refine ⟨⟨?_, ?_, ?_⟩, ?_⟩
  · rw [hdesc]
    exact onePiece_valid
  · rw [hdesc]
    exact whole_of_single_file onePiece_valid rfl
  · rw [hdesc, hfiles]
    intro f hf
    rw [List.mem_singleton.mp hf]
    exact ⟨0, rfl, rfl⟩
  · intro tid htid tid' htid' k k' f f' j hf hf' _ _
    rw [hgenerated] at htid htid'
    obtain rfl := List.mem_singleton.mp htid
    obtain rfl := List.mem_singleton.mp htid'
    rw [hdesc] at hf hf'
    have hk := (List.getElem?_eq_some_iff.mp hf).1
    have hk' := (List.getElem?_eq_some_iff.mp hf').1
    have hone : onePiece.files.length = 1 := rfl
    exact ⟨rfl, by omega⟩

/-- The torrent is added with its file on the disk. -/
theorem onePiece_added_carefully : ∃ s : State 1 0,
    Reachable ((furrent (fun _ => listEnv) 8 1 0).restrict (Careful (fun _ => listEnv) 8)) s ∧
    s.workers 0 = .idle ∧ s.adder = .idle ∧ s.tasks = [onePieceTask] ∧
    s.files = onePieceOnDisk ∧ s.torrent 0 = onePieceTorrent := by
  have hbegin : Reachable
      ((furrent (fun _ => listEnv) 8 1 0).restrict (Careful (fun _ => listEnv) 8)) _ :=
    .step (.init ⟨onePieceOnDisk, rfl⟩) ⟨.addBegin rfl, careful_adder rfl rfl⟩
  have hgenerate := hbegin.step ⟨.addGenerate rfl
    ⟨by simp [State.start], by simp [State.start], fun j => j.elim0⟩
    (rfl : _ = State.tryEmplace _ 0 (.create 0 onePiece [⟨1, 2⟩]))
    (show [(⟨1, 2⟩ : Peer)] ≠ [] by decide)
    (show pieces onePiece (fun _ => some 0) = .ok [⟨0, [⟨[97], 0, 3⟩]⟩] by decide),
    ⟨fun tid htid _ => by
      obtain rfl := List.mem_singleton.mp htid
      exact onePiece_laid rfl rfl rfl, fun _ tid htid => absurd htid List.not_mem_nil, by simp⟩⟩
  have hadded := (hgenerate.step ⟨.addEmplace rfl, careful_adder rfl rfl⟩).step
    ⟨.addFinish rfl, careful_adder rfl rfl⟩
  exact ⟨_, hadded, rfl, rfl, rfl, rfl, rfl⟩

/-- The worker goes to work on the piece. -/
theorem onePiece_working_carefully : ∃ s : State 1 0,
    Reachable ((furrent (fun _ => listEnv) 8 1 0).restrict (Careful (fun _ => listEnv) 8)) s ∧
    s.workers 0 = .working onePieceTask [⟨1, 2⟩] ∧ s.adder = .idle ∧
    s.files = onePieceOnDisk ∧ s.torrent 0 = onePieceTorrent := by
  obtain ⟨s₀, h₀, hi₀, hadder₀, htasks₀, hfiles₀, htorrent₀⟩ := onePiece_added_carefully
  have hextract : Step (fun _ => listEnv) 8 s₀ (.worker 0) _ :=
    .extract hi₀ (show Queue.extract lifoPolicy s₀.tasks = .ok (onePieceTask, []) by
      rw [htasks₀]
      rfl)
  obtain ⟨s₁, h₁, hi₁, hadder₁, hfiles₁, htorrent₁⟩ : ∃ s : State 1 0,
      Reachable ((furrent (fun _ => listEnv) 8 1 0).restrict (Careful (fun _ => listEnv) 8)) s ∧
      s.workers 0 = .extracted onePieceTask ∧ s.adder = .idle ∧ s.files = onePieceOnDisk ∧
      s.torrent 0 = onePieceTorrent :=
    ⟨_, h₀.step ⟨hextract, careful_of_saved_eq hextract rfl⟩, rfl, hadder₀, hfiles₀, htorrent₀⟩
  have hwork : Step (fun _ => listEnv) 8 s₁ (.worker 0) _ :=
    .work hi₁ (State.sharedLock_of_idle hadder₁) (by
      show (s₁.torrent 0).state ≠ .paused
      rw [htorrent₁]
      decide)
  refine ⟨_, h₁.step ⟨hwork, careful_of_saved_eq hwork rfl⟩, ?_, hadder₁, hfiles₁, htorrent₁⟩
  show Worker.working onePieceTask (s₁.torrent 0).peers = _
  rw [htorrent₁]
  rfl

/-- One worker, from adding the torrent to completing it. -/
theorem disk_intact_one_piece : ∃ s : State 1 0,
    Reachable ((furrent (fun _ => listEnv) 8 1 0).restrict (Careful (fun _ => listEnv) 8)) s ∧
    0 ∈ s.log.completed ∧
    ((image (s.torrent 0).descriptor s.files).length : Int)
      = (s.torrent 0).descriptor.length := by
  obtain ⟨s₀, h₀, hi₀, hadder₀, hfiles₀, htorrent₀⟩ := onePiece_working_carefully
  have hresult : ∀ r : PieceTask × FileSystem × Outcome Empty Bool, r.2.2 = .ok true →
      ∃ task files, r = (task, files, .ok true) := by
    rintro ⟨task, files, _⟩ rfl
    exact ⟨task, files, rfl⟩
  obtain ⟨task, files, hprocess⟩ := hresult
    (process listEnv 8 onePieceTask answers (fun _ => {}) s₀.files) (by
      rw [hfiles₀]
      decide +kernel)
  have htid : task.tid = 0 := congrArg Prod.fst (key_process hprocess)
  have hpeer : ([⟨1, 2⟩] : List Peer)[0]? = some ⟨1, 2⟩ := rfl
  have hsucceed : Step (fun _ => listEnv) 8 s₀ (.worker 0) _ := .succeed hi₀ hpeer hprocess
  obtain ⟨s₁, h₁, hi₁, hadder₁, htorrent₁⟩ : ∃ s : State 1 0,
      Reachable ((furrent (fun _ => listEnv) 8 1 0).restrict (Careful (fun _ => listEnv) 8)) s ∧
      s.workers 0 = .succeeded task 0 ∧ s.adder = .idle ∧ s.torrent 0 = onePieceTorrent :=
    ⟨_, h₀.step ⟨hsucceed, careful_worker hsucceed fun task peers hworking _ => by
      obtain ⟨rfl, _⟩ := Worker.working.inj (hi₀.symm.trans hworking)
      exact ⟨⟨1, 2⟩, answers, fun _ => {}, task, fun _ => rfl, hprocess⟩⟩,
      State.workers_setWorker_self _ _ _, hadder₀, htorrent₀⟩
  have hcount : Step (fun _ => listEnv) 8 s₁ (.worker 0) _ :=
    .count hi₁ (State.sharedLock_of_idle hadder₁)
  obtain ⟨s₂, h₂, hi₂, hdesc₂⟩ : ∃ s : State 1 0,
      Reachable ((furrent (fun _ => listEnv) 8 1 0).restrict (Careful (fun _ => listEnv) 8)) s ∧
      s.workers 0 = .counted 0 1 ∧ (s.torrent 0).descriptor = onePiece := by
    refine ⟨_, h₁.step ⟨hcount, careful_of_saved_eq hcount rfl⟩, ?_, ?_⟩
    · rw [State.workers_setWorker_self, htid, htorrent₁]
      rfl
    · rw [hcount.descriptor (by simp [hadder₁]), htorrent₁]
      rfl
  have hcomplete : Step (fun _ => listEnv) 8 s₂ (.worker 0) _ :=
    .complete hi₂ (by rw [hdesc₂]; rfl)
  have h₃ := h₂.step ⟨hcomplete, careful_of_saved_eq hcomplete rfl⟩
  have hcompleted := List.mem_cons_self (a := (0 : TorrentID)) (l := s₂.log.completed)
  exact ⟨_, h₃, hcompleted, ((disk_intact (fun _ => rfl) h₃).2 0 hcompleted).1⟩

end

end Furrent.Client
