import Furrent.Platform.Io
import Furrent.Torrent.Coverage
import Furrent.Download.Downloader

/-! # Downloading and saving a piece

    Model of `PieceTask` in `src/furrent.cpp`. `save` calls `write_bytes`
    once for every subpiece, each time with the content of the whole piece.
    For a piece inside one file this is what it should do, if the file is
    long enough and nothing is lost when the stream is closed. A piece that
    reaches into several files is written in full to each of them, and all
    but the last of these files grow. -/

namespace Furrent.Client

open Cpp Platform Torrent
open Download (Downloaded)

/-! ### The model -/

/-- `PieceTask`. -/
structure PieceTask where
  data : Option Downloaded := none
  tid : TorrentID := 0
  piece : Piece
  descriptor : TorrentFile
  deriving DecidableEq, Repr

/-- `descriptor.folder_name + '/' + subpiece.filepath`. -/
def subpiecePath (d : TorrentFile) (s : Subpiece) : Bytes := d.folderName ++ 47 :: s.filepath

/-- The loop of `save`. The `k`-th call of `write_bytes` fares as `faults k`
    says. -/
def saveLoop (task : PieceTask) (faults : Nat → WriteFault) :
    Nat → List Subpiece → FileSystem → FileSystem × Outcome Empty Bool
  | _, [], fs => (fs, .ok true)
  | k, s :: subs, fs =>
    match task.data with
    | none => (fs, .error (.throw .badOptionalAccess))
    | some data =>
      match writeBytes (faults k) fs (subpiecePath task.descriptor s) data.content s.fileOffset with
      | (fs, .ok _) => saveLoop task faults (k + 1) subs fs
      | (fs, .error (.error _)) => (fs, .ok false)
      | (fs, .error (.throw x)) => (fs, .error (.throw x))
      | (fs, .error .trap) => (fs, .error .trap)
      | (fs, .error .outOfFuel) => (fs, .error .outOfFuel)

/-- `PieceTask::save()`. The log line at the end reads `subpieces[0]`. -/
def save (task : PieceTask) (faults : Nat → WriteFault) (fs : FileSystem) :
    FileSystem × Outcome Empty Bool :=
  match saveLoop task faults 0 task.piece.subpieces fs with
  | (fs, .ok true) =>
    match task.piece.subpieces with
    | [] => (fs, .error .trap)
    | _ :: _ => (fs, .ok true)
  | result => result

section

variable {W : Type} (env : Download.Env W) (fuel : Nat)

/-- `PieceTask::download`, with a new downloader for a peer in state `w`. -/
def download (task : PieceTask) (w : W) : PieceTask × Outcome Empty Bool :=
  match (Download.tryDownload env task.descriptor fuel task.piece { world := w }).1 with
  | .ok downloaded => ({ task with data := some downloaded }, .ok true)
  | .error (.error _) => (task, .ok false)
  | .error (.throw x) => (task, .error (.throw x))
  | .error .trap => (task, .error .trap)
  | .error .outOfFuel => (task, .error .outOfFuel)

/-- `PieceTask::process`: `download(peer) && save()`. -/
def process (task : PieceTask) (w : W) (faults : Nat → WriteFault) (fs : FileSystem) :
    PieceTask × FileSystem × Outcome Empty Bool :=
  match download env fuel task w with
  | (task, .ok true) => (task, save task faults fs)
  | (task, result) => (task, fs, result)

/-- Only the data of a task changes while it is processed. -/
theorem process_task (task : PieceTask) (w : W) (faults : Nat → WriteFault) (fs : FileSystem) :
    ∃ data, (process env fuel task w faults fs).1 = { task with data := data } := by
  have hdownload : ∃ data, (download env fuel task w).1 = { task with data := data } := by
    unfold download
    split
    · exact ⟨_, rfl⟩
    all_goals exact ⟨task.data, rfl⟩
  obtain ⟨data, hdata⟩ := hdownload
  refine ⟨data, ?_⟩
  unfold process
  split
  · next heq => rw [← hdata, heq]
  · next heq => rw [← hdata, heq]

end

/-! ### What saving should do -/

/-- Every file of the torrent is on disk with its length. -/
def Prepared (d : TorrentFile) (fs : FileSystem) : Prop :=
  ∀ f ∈ d.files, ∃ i, fs.lookup (d.folderName ++ 47 :: f.filename) = some i ∧
    ((fs.content i).length : Int) = f.length

/-- Byte `x` of file `i` belongs to subpiece `s`. -/
def InSubpiece (d : TorrentFile) (fs : FileSystem) (s : Subpiece) (i x : Nat) : Prop :=
  fs.lookup (subpiecePath d s) = some i ∧ s.fileOffset ≤ x ∧ (x : Int) < s.fileOffset + s.len

/-- The change from `fs` to `fs'` is the piece `subs` with content `bytes`
    and nothing else. -/
structure SavedExactly (d : TorrentFile) (subs : List Subpiece) (bytes : Bytes)
    (fs fs' : FileSystem) : Prop where
  /-- The `k`-th subpiece holds its section of the content. -/
  written : ∀ k s, subs[k]? = some s → ∀ i x, InSubpiece d fs s i x →
    (fs'.content i)[x]? =
      bytes[(((subs.take k).map Subpiece.len).sum + (x - s.fileOffset)).toNat]?
  /-- No other byte has changed. -/
  frame : ∀ i x, (∀ s ∈ subs, ¬ InSubpiece d fs s i x) →
    (fs'.content i)[x]? = (fs.content i)[x]?
  size : ∀ i, (fs'.content i).length = (fs.content i).length
  names : fs'.lookup = fs.lookup

/-! ### What a successful call has done -/

/-- `write_bytes` returns `OK` for every subpiece. -/
structure Succeeds (d : TorrentFile) (faults : Nat → WriteFault) (fs : FileSystem)
    (subs : List Subpiece) : Prop where
  calls : ∀ k s, subs[k]? = some s →
    (fs.lookup (subpiecePath d s)).isSome ∧ (faults k).opens = true ∧ (faults k).good = true
  fits : (subs.map Subpiece.len).sum ≤ INT64_MAX

/-- The write for a subpiece. -/
def subpieceCall (d : TorrentFile) (fs : FileSystem) (fault : WriteFault) (content : Bytes)
    (s : Subpiece) : FileSystem.Call :=
  ⟨(fs.lookup (subpiecePath d s)).getD 0, s.fileOffset.toNat, fault.kept content⟩

/-- The writes of the loop of `save`. -/
def saveWrites (d : TorrentFile) (faults : Nat → WriteFault) (fs : FileSystem) (content : Bytes)
    (k : Nat) (subs : List Subpiece) : List FileSystem.Call :=
  (subs.zipIdx k).map fun p => subpieceCall d fs (faults p.2) content p.1

variable {task : PieceTask} {faults : Nat → WriteFault} {fs fs' : FileSystem} {d : TorrentFile}
  {data : Downloaded}

/-- A successful round is one write. -/
theorem saveLoop_cons_iff {k : Nat} {s : Subpiece} {subs : List Subpiece}
    (hdata : task.data = some data) :
    saveLoop task faults k (s :: subs) fs = (fs', .ok true) ↔
      ∃ i, fs.lookup (subpiecePath task.descriptor s) = some i ∧ (faults k).opens = true ∧
        (faults k).good = true ∧ data.content.length ≤ INT64_MAX ∧ 0 ≤ s.fileOffset ∧
        saveLoop task faults (k + 1) subs
          (fs.write i ((faults k).kept data.content) s.fileOffset.toNat) = (fs', .ok true) := by
  simp only [saveLoop, hdata]
  constructor
  · intro h
    split at h
    · next fs₁ u hwrite =>
      obtain ⟨i, hi, hopens, hgood, hfits, hoff, rfl⟩ := writeBytes_eq_ok_iff.mp hwrite
      exact ⟨i, hi, hopens, hgood, hfits, hoff, h⟩
    all_goals simp at h
  · rintro ⟨i, hi, hopens, hgood, hfits, hoff, h⟩
    rw [writeBytes_eq_ok_iff.mpr ⟨i, hi, hopens, hgood, hfits, hoff, rfl⟩]
    exact h

/-- When the loop of `save` gets to its end, and what it has done then. -/
theorem saveLoop_eq_true_iff {k : Nat} {subs : List Subpiece} (hdata : task.data = some data)
    (hfits : data.content.length ≤ INT64_MAX) (hoff : ∀ s ∈ subs, 0 ≤ s.fileOffset) :
    saveLoop task faults k subs fs = (fs', .ok true) ↔
      (∀ p ∈ subs.zipIdx k, (fs.lookup (subpiecePath task.descriptor p.1)).isSome ∧
        (faults p.2).opens = true ∧ (faults p.2).good = true) ∧
      fs' = fs.writeAll (saveWrites task.descriptor faults fs data.content k subs) := by
  induction subs generalizing k fs with
  | nil =>
    constructor
    · intro h
      exact ⟨by simp, (congrArg Prod.fst h).symm⟩
    · rintro ⟨_, rfl⟩
      rfl
  | cons s subs ih =>
    obtain ⟨hoff₀, hoff⟩ := List.forall_mem_cons.mp hoff
    rw [saveLoop_cons_iff hdata, List.zipIdx_cons, List.forall_mem_cons, saveWrites,
      List.zipIdx_cons, List.map_cons]
    cases hi : fs.lookup (subpiecePath task.descriptor s) with
    | none => simp
    | some i =>
      simp only [Option.some.injEq, exists_eq_left', ih hoff, FileSystem.lookup_write]
      rw [subpieceCall, hi]
      constructor
      · rintro ⟨hopens, hgood, _, _, hcalls, hfs⟩
        exact ⟨⟨⟨rfl, hopens, hgood⟩, hcalls⟩, hfs⟩
      · rintro ⟨⟨⟨_, hopens, hgood⟩, hcalls⟩, hfs⟩
        exact ⟨hopens, hgood, hfits, hoff₀, hcalls, hfs⟩

theorem save_eq_true_iff : save task faults fs = (fs', .ok true) ↔
    saveLoop task faults 0 task.piece.subpieces fs = (fs', .ok true) ∧
      task.piece.subpieces ≠ [] := by
  unfold save
  cases saveLoop task faults 0 task.piece.subpieces fs with
  | mk fs₁ r =>
    cases task.piece.subpieces with
    | nil => rcases r with _ | _ | _ <;> simp
    | cons s subs => rcases r with _ | _ | _ <;> simp

/-- A successful `save` is its writes. -/
theorem save_eq_true_iff_of_covers {d : TorrentFile} {p : Piece} {tid : TorrentID} {a b : Int}
    (hcov : Covers d.files a p.subpieces b) (hne : p.subpieces ≠ [])
    (hlen : (data.content.length : Int) = (p.subpieces.map Subpiece.len).sum) :
    save ⟨some data, tid, p, d⟩ faults fs = (fs', .ok true) ↔
      Succeeds d faults fs p.subpieces ∧
      fs' = fs.writeAll (saveWrites d faults fs data.content 0 p.subpieces) := by
  have hdata : (⟨some data, tid, p, d⟩ : PieceTask).data = some data := rfl
  have hoff : ∀ s ∈ p.subpieces, 0 ≤ s.fileOffset := fun s hs => (hcov.file_of_mem hs).1
  rw [save_eq_true_iff, and_iff_left hne]
  dsimp only
  constructor
  · intro h
    have hfits : data.content.length ≤ INT64_MAX := by
      obtain ⟨s, subs, hsubs⟩ := List.exists_cons_of_ne_nil hne
      rw [hsubs] at h
      obtain ⟨_, _, _, _, hfits, _⟩ := (saveLoop_cons_iff hdata).mp h
      exact hfits
    obtain ⟨hcalls, hfs⟩ := (saveLoop_eq_true_iff hdata hfits hoff).mp h
    refine ⟨⟨?_, by omega⟩, hfs⟩
    intro k s hs
    exact hcalls (s, k) (List.mem_zipIdx_iff_getElem?.mpr hs)
  · rintro ⟨hok, hfs⟩
    have hfits := hok.fits
    refine (saveLoop_eq_true_iff hdata (by omega) hoff).mpr ⟨?_, hfs⟩
    intro p hp
    exact hok.calls p.2 p.1 (List.mem_zipIdx_iff_getElem?.mp hp)

/-! ### When saving does what it should -/

/-- Only the last subpiece `m` has bytes, in a part of file `i` that is
    there; whatever gets to the disk gets into this part; and one of the
    calls writes the whole of it. -/
structure ExactlyAt (d : TorrentFile) (faults : Nat → WriteFault) (fs : FileSystem)
    (subs front : List Subpiece) (m : Subpiece) (i : Nat) : Prop where
  subpieces : subs = front ++ [m]
  empty : ∀ s ∈ front, s.len = 0
  file : fs.lookup (subpiecePath d m) = some i
  inside : m.fileOffset + m.len ≤ (fs.content i).length
  stays : ∀ k s, subs[k]? = some s → (faults k).count m.len.toNat = 0 ∨
    fs.lookup (subpiecePath d s) = some i ∧ m.fileOffset ≤ s.fileOffset ∧
      s.fileOffset + (faults k).count m.len.toNat ≤ m.fileOffset + m.len
  whole : ∃ k s, subs[k]? = some s ∧ fs.lookup (subpiecePath d s) = some i ∧
    s.fileOffset = m.fileOffset ∧ (faults k).count m.len.toNat = m.len

/-- The piece is written to where it belongs and nowhere else. -/
def Exact (d : TorrentFile) (faults : Nat → WriteFault) (fs : FileSystem)
    (subs : List Subpiece) : Prop :=
  ∃ front m i, ExactlyAt d faults fs subs front m i

section

variable {subs : List Subpiece} {content : Bytes} {i x : Nat}

/-- The writes to file `i`. -/
def writesTo (d : TorrentFile) (faults : Nat → WriteFault) (fs : FileSystem) (content : Bytes)
    (k : Nat) (subs : List Subpiece) (i : Nat) : List (Write UInt8) :=
  ((saveWrites d faults fs content k subs).filter (·.file = i)).map FileSystem.Call.write

theorem mem_writesTo {k : Nat} {w : Write UInt8} :
    w ∈ writesTo d faults fs content k subs i ↔
      ∃ s j, (s, j) ∈ subs.zipIdx k ∧ (fs.lookup (subpiecePath d s)).getD 0 = i ∧
        w = ⟨s.fileOffset.toNat, (faults j).kept content⟩ := by
  simp only [writesTo, saveWrites, List.mem_map, List.mem_filter, decide_eq_true_eq]
  constructor
  · rintro ⟨c, ⟨⟨⟨s, j⟩, hs, rfl⟩, hi⟩, rfl⟩
    exact ⟨s, j, hs, hi, rfl⟩
  · rintro ⟨s, j, hs, hi, rfl⟩
    exact ⟨_, ⟨⟨(s, j), hs, rfl⟩, hi⟩, rfl⟩

theorem content_saveWrites (k : Nat) :
    (fs.writeAll (saveWrites d faults fs content k subs)).content i
      = Write.run 0 (writesTo d faults fs content k subs i) (fs.content i) :=
  FileSystem.content_writeAll ..

/-- A write that covers a position leaves a byte of the content there. -/
theorem getD_kept {s : Subpiece} {fault : WriteFault}
    (hx : (⟨s.fileOffset.toNat, fault.kept content⟩ : Write UInt8).Covers x) :
    (fault.kept content)[x - s.fileOffset.toNat]?.getD 0
      = content[x - s.fileOffset.toNat]?.getD 0 := by
  obtain ⟨hle, hlt⟩ := hx
  dsimp only at hle hlt
  rw [WriteFault.length_kept] at hlt
  rw [WriteFault.kept, List.getElem?_take_of_lt (by omega)]

/-! #### If the piece is saved exactly -/

/-- A byte that is written to belongs to a subpiece. -/
theorem inSubpiece_of_written {n : Nat}
    (hexact : ∀ content : Bytes, content.length = n →
      SavedExactly d subs content fs (fs.writeAll (saveWrites d faults fs content 0 subs)))
    {s : Subpiece} {k : Nat} (hs : subs[k]? = some s)
    (hi : fs.lookup (subpiecePath d s) = some i) (hle : s.fileOffset.toNat ≤ x)
    (hlt : x < s.fileOffset.toNat + (faults k).count n) :
    ∃ s' ∈ subs, InSubpiece d fs s' i x := by
  by_contra hnone
  push Not at hnone
  -- A content of bytes that are not there yet cannot be overlooked.
  let b := (fs.content i)[x]?.getD 0 + 1
  have hframe := (hexact (List.replicate n b) List.length_replicate).frame i x hnone
  rw [content_saveWrites] at hframe
  have hcovered : ∃ w ∈ writesTo d faults fs (List.replicate n b) 0 subs i, w.Covers x := by
    refine ⟨_, mem_writesTo.mpr ⟨s, k, List.mem_zipIdx_iff_getElem?.mpr hs, by rw [hi]; rfl, rfl⟩,
      hle, ?_⟩
    rw [WriteFault.length_kept, List.length_replicate]
    exact hlt
  obtain ⟨w, hlast⟩ := Write.exists_last hcovered
  obtain ⟨hw, hx⟩ := Write.mem_of_last hlast
  have hget := Write.getD_run_of_last 0 (l := fs.content i) hlast
  obtain ⟨s', j, _, _, rfl⟩ := mem_writesTo.mp hw
  rw [hframe, getD_kept hx, List.getElem?_replicate, if_pos] at hget
  · exact absurd hget (by simp [b])
  · obtain ⟨hle', hlt'⟩ := hx
    dsimp only at hle' hlt'
    rw [WriteFault.length_kept, List.length_replicate, WriteFault.count] at hlt'
    omega

/-- The last byte of the piece comes from a call that writes all of it. -/
theorem whole_of_exact {n : Nat} {front : List Subpiece} {m : Subpiece}
    (hsubs : subs = front ++ [m]) (hn : (n : Int) = (subs.map Subpiece.len).sum)
    (hm : 0 < m.len) (hoff : 0 ≤ m.fileOffset) (hle : m.len ≤ n)
    (hi : fs.lookup (subpiecePath d m) = some i)
    (hexact : ∀ content : Bytes, content.length = n →
      SavedExactly d subs content fs (fs.writeAll (saveWrites d faults fs content 0 subs))) :
    ∃ k s, subs[k]? = some s ∧ (fs.lookup (subpiecePath d s)).getD 0 = i ∧
      s.fileOffset.toNat + n = m.fileOffset + m.len ∧ (faults k).count n = n ∧
      m.fileOffset + m.len ≤ (fs.content i).length := by
  obtain ⟨x, hx⟩ : ∃ x : Nat, (x : Int) + 1 = m.fileOffset + m.len :=
    ⟨(m.fileOffset + m.len - 1).toNat, by omega⟩
  let old := (fs.content i)[x]?.getD 0
  -- All bytes but the last are what is at its place.
  let content := List.replicate (n - 1) old ++ [old + 1]
  have hlength : content.length = n := by
    simp [content]
    omega
  have hsaved := hexact content hlength
  have hwritten := hsaved.written front.length m (by rw [hsubs]; simp) i x
    ⟨hi, by omega, by omega⟩
  have hindex : (((subs.take front.length).map Subpiece.len).sum + ((x : Int) - m.fileOffset)).toNat
      = n - 1 := by
    rw [hsubs, List.map_append, List.sum_append, List.map_singleton, List.sum_singleton] at hn
    rw [hsubs, List.take_left]
    omega
  rw [hindex, content_saveWrites] at hwritten
  have hbyte : (Write.run 0 (writesTo d faults fs content 0 subs i) (fs.content i))[x]?.getD 0
      = old + 1 := by
    rw [hwritten]
    simp [content]
  obtain ⟨w, hlast⟩ := Write.exists_last_of_changed 0 (show _ ≠ old by rw [hbyte]; simp)
  obtain ⟨hw, hcovers⟩ := Write.mem_of_last hlast
  rw [Write.getD_run_of_last 0 hlast] at hbyte
  have hsize := hsaved.size i
  rw [content_saveWrites] at hsize
  have hinside := ((Write.length_run_le_iff 0).mp hsize.le).2 w hw
  obtain ⟨s, k, hs, hfile, rfl⟩ := mem_writesTo.mp hw
  rw [getD_kept hcovers] at hbyte
  obtain ⟨hfrom, hto⟩ := hcovers
  dsimp only at hfrom hto hinside
  rw [WriteFault.length_kept, hlength] at hto hinside
  have hcount : (faults k).count n ≤ n := Nat.min_le_right _ _
  -- It is the last byte of the content.
  have hlastByte : x - s.fileOffset.toNat = n - 1 := by
    by_contra hother
    rw [List.getElem?_append_left (by simp; omega), List.getElem?_replicate,
      if_pos (by omega)] at hbyte
    exact absurd hbyte (by simp)
  have hkept : (faults k).kept content ≠ [] := by
    intro hnil
    have := congrArg List.length hnil
    rw [WriteFault.length_kept, hlength, List.length_nil] at this
    omega
  have hend := hinside hkept
  exact ⟨k, s, List.mem_zipIdx_iff_getElem?.mp hs, hfile, by omega, by omega, by omega⟩

/-- A call that writes anything writes into the last subpiece, as the others
    have no bytes. -/
theorem stays_of_exact {n : Nat} {front : List Subpiece} {m s : Subpiece} {j k : Nat}
    (hsubs : subs = front ++ [m]) (hempty : ∀ s ∈ front, s.len = 0)
    (hi : fs.lookup (subpiecePath d m) = some i) (hs : subs[k]? = some s)
    (hoff : 0 ≤ s.fileOffset) (hj : fs.lookup (subpiecePath d s) = some j)
    (hcount : (faults k).count n ≠ 0)
    (hexact : ∀ content : Bytes, content.length = n →
      SavedExactly d subs content fs (fs.writeAll (saveWrites d faults fs content 0 subs))) :
    j = i ∧ m.fileOffset ≤ s.fileOffset ∧
      s.fileOffset + (faults k).count n ≤ m.fileOffset + m.len := by
  have hin : ∀ x : Nat, s.fileOffset ≤ x → (x : Int) < s.fileOffset + (faults k).count n →
      j = i ∧ m.fileOffset ≤ x ∧ (x : Int) < m.fileOffset + m.len := by
    intro x hle hlt
    obtain ⟨s', hs', hfile, hle', hlt'⟩ :=
      inSubpiece_of_written hexact hs hj (x := x) (by omega) (by omega)
    rw [hsubs] at hs'
    rcases List.mem_append.mp hs' with hfront | hlast
    · have := hempty s' hfront
      omega
    · rw [List.mem_singleton.mp hlast] at hfile hle' hlt'
      rw [hi] at hfile
      exact ⟨(Option.some.inj hfile).symm, hle', hlt'⟩
  obtain ⟨hsame, hfirst, _⟩ := hin s.fileOffset.toNat (by omega) (by omega)
  obtain ⟨_, _, hlast⟩ := hin (s.fileOffset.toNat + (faults k).count n - 1) (by omega) (by omega)
  exact ⟨hsame, by omega, by omega⟩

/-- The conditions are necessary. -/
theorem exact_of_savedExactly {n : Nat} {a b : Int} (hcov : Covers d.files a subs b)
    (hab : a < b) (hne : subs ≠ []) (hn : (n : Int) = (subs.map Subpiece.len).sum)
    (hok : Succeeds d faults fs subs)
    (hexact : ∀ content : Bytes, content.length = n →
      SavedExactly d subs content fs (fs.writeAll (saveWrites d faults fs content 0 subs))) :
    Exact d faults fs subs := by
  obtain ⟨front, m, hsubs⟩ : ∃ front m, subs = front ++ [m] :=
    ⟨_, _, (List.dropLast_append_getLast hne).symm⟩
  have hfound : ∀ {k s}, subs[k]? = some s → ∃ i, fs.lookup (subpiecePath d s) = some i :=
    fun hs => Option.isSome_iff_exists.mp (hok.calls _ _ hs).1
  have hmem : subs[front.length]? = some m := by
    rw [hsubs]
    simp
  obtain ⟨i, hi⟩ := hfound hmem
  have hm : 0 < m.len := (hsubs ▸ hcov).last_len hab
  have hoff : ∀ {k} {s : Subpiece}, subs[k]? = some s → 0 ≤ s.fileOffset :=
    fun hs => (hcov.file_of_mem (List.mem_of_getElem? hs)).1
  have hmOff := hoff hmem
  have hnonneg : ∀ len ∈ front.map Subpiece.len, 0 ≤ len := by
    intro len hlen
    obtain ⟨s, hs, rfl⟩ := List.mem_map.mp hlen
    exact hcov.len_nonneg s (by rw [hsubs]; exact List.mem_append_left _ hs)
  have hfront := List.sum_nonneg hnonneg
  have hsum : (subs.map Subpiece.len).sum = (front.map Subpiece.len).sum + m.len := by
    rw [hsubs, List.map_append, List.sum_append, List.map_singleton, List.sum_singleton]
  obtain ⟨k, s, hs, hfile, hstart, hcount, hinside⟩ :=
    whole_of_exact hsubs hn hm hmOff (by omega) hi hexact
  have hsOff := hoff hs
  -- Behind another subpiece the last one begins its file.
  have hlen : m.len = n := by
    cases front with
    | nil =>
      rw [List.map_nil, List.sum_nil] at hsum
      omega
    | cons s₀ front =>
      rw [hsubs, List.cons_append] at hcov
      have := hcov.tail_offset m (by simp)
      omega
  have htoNat : m.len.toNat = n := by omega
  have hempty : ∀ s ∈ front, s.len = 0 := fun s hs =>
    List.all_zero_of_le_zero_le_of_sum_eq_zero hnonneg (by omega) (List.mem_map_of_mem hs)
  obtain ⟨j, hj⟩ := hfound hs
  rw [hj, Option.getD_some] at hfile
  refine ⟨front, m, i, hsubs, hempty, hi, hinside, ?_, k, s, hs, by rw [hj, hfile], by omega,
    by rw [htoNat, hcount, hlen]⟩
  intro k' s' hs'
  rw [htoNat]
  by_cases hnone : (faults k').count n = 0
  · exact .inl hnone
  · obtain ⟨j', hj'⟩ := hfound hs'
    obtain ⟨hsame, hstays⟩ := stays_of_exact hsubs hempty hi hs' (hoff hs') hj' hnone hexact
    rw [hsame] at hj'
    exact .inr ⟨hj', hstays⟩

/-! #### If the conditions hold -/

theorem writesTo_cons (s : Subpiece) (k : Nat) :
    writesTo d faults fs content k (s :: subs) i
      = writesTo d faults fs content k [s] i ++ writesTo d faults fs content (k + 1) subs i := by
  simp only [writesTo, saveWrites, List.zipIdx_cons, List.zipIdx_nil, List.map_cons,
    List.map_nil, ← List.map_append, ← List.filter_append, List.singleton_append]

theorem offset_of_mem_singleton {s : Subpiece} {k : Nat} {w : Write UInt8}
    (hw : w ∈ writesTo d faults fs content k [s] i) : w.offset = s.fileOffset.toNat := by
  obtain ⟨s', j, hs', _, rfl⟩ := mem_writesTo.mp hw
  have hsame : s' = s := List.mem_singleton.mp (List.fst_mem_of_mem_zipIdx hs')
  rw [hsame]

/-- Every write but the first starts at the beginning of a file, and if there
    are others the last subpiece begins its file as well. -/
theorem offset_of_mem_tail {s₀ m : Subpiece} {front : List Subpiece} {a b : Int} {k : Nat}
    {w : Write UInt8} (hcov : Covers d.files a (s₀ :: subs) b) (hsubs : s₀ :: subs = front ++ [m])
    (hw : w ∈ writesTo d faults fs content k subs i) : w.offset = m.fileOffset.toNat := by
  obtain ⟨s, j, hs, _, rfl⟩ := mem_writesTo.mp hw
  have hmem := List.fst_mem_of_mem_zipIdx hs
  have hm : m ∈ subs := by
    cases front with
    | nil =>
      injection hsubs with _ hnil
      rw [hnil] at hmem
      cases hmem
    | cons s₁ front =>
      injection hsubs with _ hsubs
      rw [hsubs]
      simp
  rw [hcov.tail_offset s hmem, hcov.tail_offset m hm]

/-- The call that writes the whole piece covers its bytes. -/
theorem ExactlyAt.exists_write {front : List Subpiece} {m : Subpiece}
    (h : ExactlyAt d faults fs subs front m i) (hm : 0 ≤ m.fileOffset)
    (hlength : (content.length : Int) = m.len) (hle : m.fileOffset ≤ x)
    (hlt : (x : Int) < m.fileOffset + m.len) :
    ∃ w ∈ writesTo d faults fs content 0 subs i, w.Covers x ∧
      w.offset = m.fileOffset.toNat := by
  obtain ⟨k, s, hs, hfile, hoff, hcount⟩ := h.whole
  have hn : m.len.toNat = content.length := by omega
  rw [hn] at hcount
  refine ⟨⟨s.fileOffset.toNat, (faults k).kept content⟩, ?_, ⟨by dsimp only; omega, ?_⟩,
    by rw [hoff]⟩
  · exact mem_writesTo.mpr ⟨s, k, List.mem_zipIdx_iff_getElem?.mpr hs, by rw [hfile]; rfl, rfl⟩
  · dsimp only
    rw [WriteFault.length_kept]
    omega

/-- The last write to a byte of the piece starts where the piece starts. -/
theorem exists_last_write {front : List Subpiece} {m : Subpiece} {a b : Int}
    (hcov : Covers d.files a subs b) (h : ExactlyAt d faults fs subs front m i)
    (hlength : (content.length : Int) = m.len) (hle : m.fileOffset ≤ x)
    (hlt : (x : Int) < m.fileOffset + m.len) :
    ∃ w, Write.last (writesTo d faults fs content 0 subs i) x = some w ∧
      w.offset = m.fileOffset.toNat := by
  have hm := (hcov.file_of_mem (show m ∈ subs by rw [h.subpieces]; simp)).1
  obtain ⟨w, hw, hcovers, hoffset⟩ := h.exists_write hm hlength hle hlt
  have hsubs := h.subpieces
  cases subs with
  | nil => simp at hsubs
  | cons s₀ rest =>
    rw [writesTo_cons] at hw ⊢
    rw [Write.last_append]
    cases hlast : Write.last (writesTo d faults fs content (0 + 1) rest i) x with
    | some w' => exact ⟨w', rfl, offset_of_mem_tail hcov hsubs (Write.mem_of_last hlast).1⟩
    | none =>
      rcases List.mem_append.mp hw with hhead | htail
      · -- Nothing but the first write covers the byte.
        obtain ⟨w', hw'⟩ := Write.exists_last ⟨w, hhead, hcovers⟩
        refine ⟨w', hw', ?_⟩
        rw [offset_of_mem_singleton (Write.mem_of_last hw').1, ← offset_of_mem_singleton hhead,
          hoffset]
      · exact absurd hcovers (Write.last_eq_none_iff.mp hlast w htail)

/-- Every write to another place than that of the piece is empty. -/
theorem ExactlyAt.place {front : List Subpiece} {m : Subpiece}
    (h : ExactlyAt d faults fs subs front m i) (hm : 0 ≤ m.fileOffset)
    (hlength : (content.length : Int) = m.len) {j : Nat} {w : Write UInt8}
    (hw : w ∈ writesTo d faults fs content 0 subs j) (hne : w.elems ≠ []) :
    j = i ∧ m.fileOffset.toNat ≤ w.offset ∧
      (w.offset + w.elems.length : Int) ≤ m.fileOffset + m.len := by
  obtain ⟨s, k, hs, hj, rfl⟩ := mem_writesTo.mp hw
  have hn : m.len.toNat = content.length := by omega
  have hstays := h.stays k s (List.mem_zipIdx_iff_getElem?.mp hs)
  rw [hn, ← WriteFault.length_kept] at hstays
  rcases hstays with hnone | ⟨hfile, hle, hend⟩
  · exact absurd (List.length_eq_zero_iff.mp hnone) hne
  · rw [hfile, Option.getD_some] at hj
    dsimp only
    exact ⟨hj.symm, by omega, by omega⟩

theorem ExactlyAt.sum_front {front : List Subpiece} {m : Subpiece}
    (h : ExactlyAt d faults fs subs front m i) : (front.map Subpiece.len).sum = 0 := by
  apply List.sum_eq_zero
  intro len hlen
  obtain ⟨s, hs, rfl⟩ := List.mem_map.mp hlen
  exact h.empty s hs

/-- A subpiece with bytes is the last one. -/
theorem ExactlyAt.eq_last {front : List Subpiece} {m s : Subpiece} {k : Nat}
    (h : ExactlyAt d faults fs subs front m i) (hs : subs[k]? = some s) (hlen : 0 < s.len) :
    s = m ∧ ((subs.take k).map Subpiece.len).sum = 0 := by
  rw [h.subpieces] at hs ⊢
  rw [List.getElem?_append] at hs
  split at hs
  · have := h.empty s (List.mem_of_getElem? hs)
    omega
  · next hk =>
    obtain ⟨hlast, hget⟩ := List.getElem?_eq_some_iff.mp hs
    rw [List.length_singleton] at hlast
    obtain rfl : k = front.length := by omega
    rw [List.take_left, h.sum_front]
    exact ⟨by simpa using hget.symm, rfl⟩

/-- No file gets longer. -/
theorem ExactlyAt.size {front : List Subpiece} {m : Subpiece}
    (h : ExactlyAt d faults fs subs front m i) (hm : 0 ≤ m.fileOffset)
    (hlength : (content.length : Int) = m.len) (j : Nat) :
    ((fs.writeAll (saveWrites d faults fs content 0 subs)).content j).length
      = (fs.content j).length := by
  have hinside := h.inside
  rw [content_saveWrites]
  apply le_antisymm
  · refine (Write.length_run_le_iff 0).mpr ⟨le_refl _, ?_⟩
    intro w hw hne
    obtain ⟨rfl, _, hend⟩ := h.place hm hlength hw hne
    omega
  · exact ((Write.length_run_le_iff 0).mp (le_refl _)).1

/-- The last subpiece holds the content. -/
theorem ExactlyAt.written {front : List Subpiece} {m : Subpiece} {a b : Int}
    (h : ExactlyAt d faults fs subs front m i) (hcov : Covers d.files a subs b)
    (hlength : (content.length : Int) = m.len) (hle : m.fileOffset ≤ x)
    (hlt : (x : Int) < m.fileOffset + m.len) :
    ((fs.writeAll (saveWrites d faults fs content 0 subs)).content i)[x]?
      = content[(x - m.fileOffset).toNat]? := by
  have hm := (hcov.file_of_mem (show m ∈ subs by rw [h.subpieces]; simp)).1
  have hinside := h.inside
  obtain ⟨w, hlast, hoffset⟩ := exists_last_write hcov h hlength hle hlt
  have hget := Write.getD_run_of_last 0 (l := fs.content i) hlast
  rw [← content_saveWrites] at hget
  obtain ⟨hw, hcovers⟩ := Write.mem_of_last hlast
  obtain ⟨s, k, _, _, rfl⟩ := mem_writesTo.mp hw
  rw [getD_kept hcovers] at hget
  dsimp only at hoffset
  apply Write.getElem?_eq_of_getD 0
  · rw [h.size hm hlength]
    omega
  · omega
  · rw [hget]
    congr 2
    omega

/-- The bytes of no subpiece are not written to. -/
theorem ExactlyAt.frame {front : List Subpiece} {m : Subpiece} {j : Nat}
    (h : ExactlyAt d faults fs subs front m i) (hm : 0 ≤ m.fileOffset)
    (hlength : (content.length : Int) = m.len) (hx : ∀ s ∈ subs, ¬ InSubpiece d fs s j x) :
    ((fs.writeAll (saveWrites d faults fs content 0 subs)).content j)[x]?
      = (fs.content j)[x]? := by
  have hsize := h.size hm hlength j
  rcases Nat.lt_or_ge x (fs.content j).length with hlt | hge
  · apply Write.getElem?_eq_of_getD 0 (by rw [hsize]; exact hlt) hlt
    rw [content_saveWrites]
    apply Write.getD_run_of_not_covered
    intro w hw hcovers
    obtain ⟨hle, hlt'⟩ := hcovers
    have hne : w.elems ≠ [] := by
      intro hnil
      rw [hnil, List.length_nil] at hlt'
      omega
    obtain ⟨rfl, hfrom, hend⟩ := h.place hm hlength hw hne
    exact hx m (by rw [h.subpieces]; simp) ⟨h.file, by omega, by omega⟩
  · rw [List.getElem?_eq_none hge, List.getElem?_eq_none (by rw [hsize]; exact hge)]

/-- The conditions are sufficient. -/
theorem savedExactly_of_exact {a b : Int} (hcov : Covers d.files a subs b)
    (hlength : (content.length : Int) = (subs.map Subpiece.len).sum)
    (h : Exact d faults fs subs) :
    SavedExactly d subs content fs (fs.writeAll (saveWrites d faults fs content 0 subs)) := by
  obtain ⟨front, m, i, hat⟩ := h
  have hlen : (content.length : Int) = m.len := by
    rw [hlength, hat.subpieces, List.map_append, List.sum_append, hat.sum_front,
      List.map_singleton, List.sum_singleton, zero_add]
  have hm := (hcov.file_of_mem (show m ∈ subs by rw [hat.subpieces]; simp)).1
  refine ⟨?_, fun j x => hat.frame hm hlen, hat.size hm hlen, FileSystem.lookup_writeAll _ _⟩
  intro k s hs j x hx
  obtain ⟨hj, hle, hlt⟩ := hx
  obtain ⟨rfl, hfront⟩ := hat.eq_last hs (by omega)
  obtain rfl : i = j := by
    rw [hat.file] at hj
    exact Option.some.inj hj
  rw [hfront, zero_add]
  exact hat.written hcov hlen hle hlt

end

/-- For every piece of a valid descriptor, on any disk and however the calls
    of `write_bytes` fare: whatever its content, a successful `save` writes
    exactly its own bytes, if and only if the piece has no bytes in any but
    its last subpiece, this one lies inside its file, and what is written
    gets there in full and nowhere else. -/
theorem save_exact_iff (hd : d.Valid) {beyond : Nat → Option Int} {ps : List Piece} {p : Piece}
    (hps : pieces d beyond = .ok ps) (hp : p ∈ ps) :
    (∀ (data : Downloaded) (tid : TorrentID) (fs' : FileSystem),
      (data.content.length : Int) = (p.subpieces.map Subpiece.len).sum →
      save ⟨some data, tid, p, d⟩ faults fs = (fs', .ok true) →
      SavedExactly d p.subpieces data.content fs fs') ↔
    (Succeeds d faults fs p.subpieces → Exact d faults fs p.subpieces) := by
  obtain ⟨hlt, hcov, hne⟩ := covers_of_pieces hd hps p hp
  have hab : p.index * d.pieceLength < pieceEnd d p.index := by
    have hpos := pieceLength_pos hd hlt
    rw [pieceLength_eq hd hlt] at hpos
    omega
  constructor
  · intro hexact hok
    obtain ⟨n, hn⟩ : ∃ n : Nat, (n : Int) = (p.subpieces.map Subpiece.len).sum :=
      ⟨_, Int.toNat_of_nonneg (by rw [hcov.sum_len]; omega)⟩
    apply exact_of_savedExactly hcov hab hne hn hok
    intro content hlength
    apply hexact ⟨p.index, content⟩ 0 _ (by rw [← hn, ← hlength])
    have hlen : ((⟨p.index, content⟩ : Downloaded).content.length : Int)
        = (p.subpieces.map Subpiece.len).sum := by
      rw [← hn, ← hlength]
    exact (save_eq_true_iff_of_covers hcov hne hlen).mpr ⟨hok, rfl⟩
  · intro hexact data tid fs' hlength hsave
    obtain ⟨hok, rfl⟩ := (save_eq_true_iff_of_covers hcov hne hlength).mp hsave
    exact savedExactly_of_exact hcov hlength (hexact hok)

/-! ### Pieces over two files -/

/-- Two files of one byte, `a` and `b`, in one piece. -/
def twoFiles : TorrentFile where
  pieceLength := 2
  length := 2
  piecesCount := 1
  folderName := [46]
  files := [⟨[[97]], 1⟩, ⟨[[98]], 1⟩]

/-- Files `a` and `b` on disk. -/
def abOnDisk (a b : Bytes) : FileSystem where
  lookup := fun path =>
    if path = [46, 47, 97] then some 0 else if path = [46, 47, 98] then some 1 else none
  content := fun i => if i = 0 then a else b

/-- The piece with its two subpieces. -/
def twoFilesPiece : Piece := ⟨0, [⟨[97], 0, 1⟩, ⟨[98], 0, 1⟩]⟩

/-- The piece is saved with success, and file `a` has grown to two bytes. -/
theorem save_two_files :
    twoFiles.Valid ∧ pieces twoFiles (fun _ => some 0) = .ok [twoFilesPiece] ∧
    Prepared twoFiles (abOnDisk [0] [0]) ∧
    ∃ fs', save ⟨some ⟨0, [1, 2]⟩, 0, twoFilesPiece, twoFiles⟩ (fun _ => {}) (abOnDisk [0] [0])
        = (fs', .ok true) ∧
      fs'.content 0 = [1, 2] ∧
      ¬ SavedExactly twoFiles twoFilesPiece.subpieces [1, 2] (abOnDisk [0] [0]) fs' := by
  have hgrown : (((abOnDisk [0] [0]).write 0 [1, 2] 0).write 1 [1, 2] 0).content 0 = [1, 2] := by
    rw [FileSystem.content_write_of_ne _ (by decide), FileSystem.content_write_self]
    rfl
  refine ⟨⟨by decide, by decide, by decide, by decide, by decide⟩, by decide, ?_,
    ((abOnDisk [0] [0]).write 0 [1, 2] 0).write 1 [1, 2] 0, rfl, hgrown, ?_⟩
  · intro f hf
    rcases List.mem_cons.mp hf with rfl | hf
    · exact ⟨0, rfl, rfl⟩
    · rw [List.mem_singleton.mp hf]
      exact ⟨1, rfl, rfl⟩
  · intro hexact
    have hsize := hexact.size 0
    rw [hgrown] at hsize
    exact absurd hsize (by decide)

/-- A file of one byte and one of three, in two pieces. -/
def fourBytes : TorrentFile where
  pieceLength := 2
  length := 4
  piecesCount := 2
  folderName := [46]
  files := [⟨[[97]], 1⟩, ⟨[[98]], 3⟩]

/-- Its second piece. -/
def secondPiece : Piece := ⟨1, [⟨[98], 1, 2⟩]⟩

/-- The first piece has been saved, so that `a` is too long by now. The
    second one is still saved exactly. -/
theorem save_exact_iff_second_piece : ∃ fs',
    save ⟨some ⟨1, [3, 4]⟩, 0, secondPiece, fourBytes⟩ (fun _ => {}) (abOnDisk [1, 2] [1, 2, 0])
      = (fs', .ok true) ∧
    SavedExactly fourBytes secondPiece.subpieces [3, 4] (abOnDisk [1, 2] [1, 2, 0]) fs' := by
  have hvalid : fourBytes.Valid := ⟨by decide, by decide, by decide, by decide, by decide⟩
  have hps : pieces fourBytes (fun _ => some 0)
      = .ok [⟨0, [⟨[97], 0, 1⟩, ⟨[98], 0, 1⟩]⟩, secondPiece] := by
    decide
  have hexact : Exact fourBytes (fun _ => {}) (abOnDisk [1, 2] [1, 2, 0])
      secondPiece.subpieces := by
    refine ⟨[], ⟨[98], 1, 2⟩, 1, rfl, by simp, rfl, by decide, ?_, 0, _, rfl, rfl, rfl, rfl⟩
    intro k s hs
    have hmem : s ∈ secondPiece.subpieces := List.mem_of_getElem? hs
    obtain rfl := List.mem_singleton.mp hmem
    exact .inr ⟨rfl, le_refl _, le_refl _⟩
  have hsaved := (save_exact_iff (p := secondPiece) hvalid hps (by simp)).mpr fun _ => hexact
  have hsave : save ⟨some ⟨1, [3, 4]⟩, 0, secondPiece, fourBytes⟩ (fun _ => {})
      (abOnDisk [1, 2] [1, 2, 0]) = (_, .ok true) := rfl
  exact ⟨_, hsave, hsaved _ _ _ (by decide) hsave⟩

end Furrent.Client
