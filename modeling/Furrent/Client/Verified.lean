import Furrent.Client.PieceTask
import Furrent.Download.Containment

/-! # Only verified pieces reach the disk

    A task keeps the data of its last download when it goes back to the
    queue, and the next worker processes it with another peer. `save` writes
    what the task holds, but `process` gets there only after a download of
    its own has returned a piece, and `try_download` returns no piece that it
    has not verified. -/

namespace Furrent.Client

open Cpp Platform Torrent
open Download (Downloaded Verifies)

/-! ### The calls of `write_bytes` -/

/-- A call of `write_bytes`. -/
structure WriteCall where
  path : Bytes
  bytes : Bytes
  offset : Int
  deriving DecidableEq, Repr

/-- The calls that the loop of `save` makes. The first one that fails is the
    last. -/
def saveCalls (task : PieceTask) (faults : Nat → WriteFault) :
    Nat → List Subpiece → FileSystem → List WriteCall
  | _, [], _ => []
  | k, s :: subs, fs =>
    match task.data with
    | none => []
    | some data =>
      let path := subpiecePath task.descriptor s
      ⟨path, data.content, s.fileOffset⟩ ::
        match writeBytes (faults k) fs path data.content s.fileOffset with
        | (fs, .ok _) => saveCalls task faults (k + 1) subs fs
        | _ => []

/-- The disk after some calls, of which the `k`-th fares as `faults k` says. -/
def afterCalls (faults : Nat → WriteFault) : Nat → List WriteCall → FileSystem → FileSystem
  | _, [], fs => fs
  | k, c :: calls, fs =>
    afterCalls faults (k + 1) calls (writeBytes (faults k) fs c.path c.bytes c.offset).1

variable {W : Type}

/-- The calls that `process` makes. -/
def processCalls (env : Download.Env W) (fuel : Nat) (task : PieceTask) (w : W)
    (faults : Nat → WriteFault) (fs : FileSystem) : List WriteCall :=
  match download env fuel task w with
  | (task, .ok true) => saveCalls task faults 0 task.piece.subpieces fs
  | _ => []

/-- The loop of `save` changes the disk by its calls and by nothing else. -/
theorem saveLoop_fst (task : PieceTask) (faults : Nat → WriteFault) (k : Nat)
    (subs : List Subpiece) (fs : FileSystem) :
    (saveLoop task faults k subs fs).1
      = afterCalls faults k (saveCalls task faults k subs fs) fs := by
  induction subs generalizing k fs with
  | nil => rfl
  | cons s subs ih =>
    cases hdata : task.data with
    | none => simp only [saveLoop, saveCalls, hdata, afterCalls]
    | some data =>
      simp only [saveLoop, saveCalls, hdata, afterCalls]
      split
      · next hwrite => rw [hwrite, ih]
      all_goals
        next hwrite =>
          rw [hwrite]
          rfl

theorem save_fst (task : PieceTask) (faults : Nat → WriteFault) (fs : FileSystem) :
    (save task faults fs).1 = (saveLoop task faults 0 task.piece.subpieces fs).1 := by
  unfold save
  split
  · next fs₁ hloop =>
    rw [hloop]
    split
    · rfl
    · rfl
  · rfl

/-- The same for `process`. -/
theorem process_fs (env : Download.Env W) (fuel : Nat) (task : PieceTask) (w : W)
    (faults : Nat → WriteFault) (fs : FileSystem) :
    (process env fuel task w faults fs).2.1
      = afterCalls faults 0 (processCalls env fuel task w faults fs) fs := by
  unfold process processCalls
  rcases download env fuel task w with ⟨task', _ | _ | _⟩
  · rfl
  · rfl
  · exact (save_fst task' faults fs).trans (saveLoop_fst task' faults 0 _ fs)

/-- Every call carries the content of the task's data. -/
theorem bytes_of_mem_saveCalls {task : PieceTask} {faults : Nat → WriteFault} {k : Nat}
    {subs : List Subpiece} {fs : FileSystem} {c : WriteCall}
    (h : c ∈ saveCalls task faults k subs fs) :
    ∃ data, task.data = some data ∧ c.bytes = data.content := by
  induction subs generalizing k fs with
  | nil => cases h
  | cons s subs ih =>
    unfold saveCalls at h
    split at h
    · cases h
    · next data hdata =>
      rcases List.mem_cons.mp h with rfl | h
      · exact ⟨data, hdata, rfl⟩
      · split at h
        · exact ih h
        · cases h

/-! ### What they carry -/

/-- A download succeeds when `try_download` returns a piece, and this is then
    the task's data. -/
theorem download_eq_true {env : Download.Env W} {fuel : Nat} {task task' : PieceTask} {w : W}
    (h : download env fuel task w = (task', .ok true)) :
    ∃ downloaded s, Download.tryDownload env task.descriptor fuel task.piece { world := w }
        = (.ok downloaded, s) ∧ task' = { task with data := some downloaded } := by
  unfold download at h
  split at h
  · next downloaded hrun =>
    obtain ⟨rfl, _⟩ := Prod.mk.inj h
    exact ⟨downloaded, _, Prod.ext hrun rfl, rfl⟩
  all_goals simp at h

/-- Every call of `process` carries the piece that its own download has
    returned. -/
theorem downloaded_of_mem_processCalls {env : Download.Env W} {fuel : Nat} {task : PieceTask}
    {w : W} {faults : Nat → WriteFault} {fs : FileSystem} {c : WriteCall}
    (h : c ∈ processCalls env fuel task w faults fs) :
    ∃ downloaded s, Download.tryDownload env task.descriptor fuel task.piece { world := w }
        = (.ok downloaded, s) ∧ c.bytes = downloaded.content := by
  unfold processCalls at h
  split at h
  · next task' hdownload =>
    obtain ⟨downloaded, s, hrun, rfl⟩ := download_eq_true hdownload
    obtain ⟨data, hdata, hbytes⟩ := bytes_of_mem_saveCalls h
    obtain rfl : downloaded = data := by simpa using hdata
    exact ⟨downloaded, s, hrun, hbytes⟩
  · cases h

/-! ### Any number of attempts -/

/-- An attempt to process a task: the peer it is assigned, the disk as other
    workers have left it, and how the writes fare. -/
structure Attempt (W : Type) where
  peer : W
  faults : Nat → WriteFault
  fs : FileSystem

/-- The task after some attempts. -/
def afterAttempts (env : Download.Env W) (fuel : Nat) : List (Attempt W) → PieceTask → PieceTask
  | [], task => task
  | a :: attempts, task =>
    afterAttempts env fuel attempts (process env fuel task a.peer a.faults a.fs).1

theorem afterAttempts_task (env : Download.Env W) (fuel : Nat) (attempts : List (Attempt W))
    (task : PieceTask) :
    ∃ data, afterAttempts env fuel attempts task = { task with data := data } := by
  induction attempts generalizing task with
  | nil => exact ⟨task.data, rfl⟩
  | cons a attempts ih =>
    obtain ⟨data, hdata⟩ := process_task env fuel task a.peer a.faults a.fs
    rw [afterAttempts, hdata]
    exact ih { task with data := data }

/-- What an attempt at a piece may write: the piece that its `try_download`
    has returned, complete and with the hash of the torrent. -/
structure WritesVerified (env : Download.Env W) (fuel : Nat) (d : TorrentFile) (p : Piece)
    (a : Attempt W) (calls : List WriteCall) : Prop where
  returned : ∀ c ∈ calls, ∃ s,
    Download.tryDownload env d fuel p { world := a.peer } = (.ok ⟨p.index, c.bytes⟩, s)
  length : ∀ c ∈ calls, (c.bytes.length : Int) =
    if p.index = d.piecesCount - 1 then d.length - (d.piecesCount - 1) * d.pieceLength
    else d.pieceLength
  hash : ∀ c ∈ calls, d.pieceHashes[p.index.toNat]? = some (env.sha1 c.bytes)
  /-- Without a piece nothing is written, whatever went wrong. -/
  failed : (∀ downloaded,
    (Download.tryDownload env d fuel p { world := a.peer }).1 ≠ .ok downloaded) → calls = []

/-- For every peer and task, after any number of attempts with other peers:
    the attempt writes verified pieces only, and the disk changes by these
    writes only. -/
theorem process_writes_verified (env : Download.Env W) (fuel : Nat) (task : PieceTask)
    (attempts : List (Attempt W)) (a : Attempt W) :
    let current := afterAttempts env fuel attempts task
    let calls := processCalls env fuel current a.peer a.faults a.fs
    (process env fuel current a.peer a.faults a.fs).2.1 = afterCalls a.faults 0 calls a.fs ∧
      WritesVerified env fuel task.descriptor task.piece a calls := by
  intro current calls
  refine ⟨process_fs env fuel current a.peer a.faults a.fs, ?_⟩
  -- The data that the attempts have left in the task plays no part in the download.
  have hcalls : ∀ c ∈ calls, ∃ downloaded s,
      Download.tryDownload env task.descriptor fuel task.piece { world := a.peer }
        = (.ok downloaded, s) ∧ c.bytes = downloaded.content := by
    intro c hc
    obtain ⟨data, hdata⟩ := afterAttempts_task env fuel attempts task
    obtain ⟨downloaded, s, hrun, hbytes⟩ := downloaded_of_mem_processCalls hc
    rw [show current = { task with data := data } from hdata] at hrun
    exact ⟨downloaded, s, hrun, hbytes⟩
  constructor
  · intro c hc
    obtain ⟨⟨index, content⟩, s, hrun, hbytes⟩ := hcalls c hc
    obtain ⟨hindex, _, _⟩ := Download.tryDownload_eq_ok hrun
    exact ⟨s, by rw [hrun, ← hindex, hbytes]⟩
  · intro c hc
    obtain ⟨downloaded, s, hrun, hbytes⟩ := hcalls c hc
    obtain ⟨_, hlength, _⟩ := Download.tryDownload_eq_ok hrun
    rw [hbytes, hlength, Download.pieceLength]
  · intro c hc
    obtain ⟨downloaded, s, hrun, hbytes⟩ := hcalls c hc
    obtain ⟨_, _, hash, hhash, rfl⟩ := Download.tryDownload_eq_ok hrun
    rw [hbytes, hhash]
  · intro hfailed
    by_contra hne
    obtain ⟨c, hc⟩ := List.exists_mem_of_ne_nil calls hne
    obtain ⟨downloaded, s, hrun, _⟩ := hcalls c hc
    exact hfailed downloaded (by rw [hrun])

end Furrent.Client
