import Furrent.Framework.Assembly
import Furrent.Client.Verified
import Furrent.Client.SingleFile

/-! # The files as one byte string

    The files of a torrent, one after the other, are one long byte string,
    and a piece is a section of it. Shown here: what an attempt at a piece
    does to it. A piece that lies inside one file is written to its own
    section or, if bytes are lost, to the beginning of it; all other
    pieces, of this torrent and of others, stay as they are. A piece that
    reaches into two files is left out: it is written in full to each of
    them. -/

namespace Furrent.Client

open Cpp Platform Torrent

variable {W : Type} {fuel : Nat} {task : PieceTask} {d : TorrentFile}

/-! ### What the files hold -/

/-- What a file of the torrent holds. -/
def fileOnDisk (d : TorrentFile) (fs : FileSystem) (f : File) : Bytes :=
  match fs.lookup (d.folderName ++ 47 :: f.filename) with
  | some i => fs.content i
  | none => []

/-- The files of the torrent, one after the other. -/
def image (d : TorrentFile) (fs : FileSystem) : Bytes := d.files.flatMap (fileOnDisk d fs)

/-- The section of a piece. -/
def pieceOnDisk (d : TorrentFile) (fs : FileSystem) (index : Int) : Bytes :=
  Assembly.slice (image d fs) (index * d.pieceLength).toNat (Download.pieceLength d index).toNat

variable {fs fs' : FileSystem}

theorem fileOnDisk_eq {f : File} {i : Nat}
    (hi : fs.lookup (d.folderName ++ 47 :: f.filename) = some i) :
    fileOnDisk d fs f = fs.content i := by
  rw [fileOnDisk, hi]

theorem length_fileOnDisk (h : Prepared d fs) {f : File} (hf : f ∈ d.files) :
    ((fileOnDisk d fs f).length : Int) = f.length := by
  obtain ⟨i, hi, hlength⟩ := h f hf
  rw [fileOnDisk_eq hi, hlength]

/-- Prepared files have their lengths. -/
theorem length_flatMap_fileOnDisk (h : Prepared d fs) (files : List File)
    (hfiles : ∀ f ∈ files, f ∈ d.files) :
    ((files.flatMap (fileOnDisk d fs)).length : Int) = totalLength files := by
  induction files with
  | nil => rfl
  | cons f files ih =>
    have hrest := ih fun f hf => hfiles f (List.mem_cons_of_mem _ hf)
    have hlength := length_fileOnDisk h (hfiles f List.mem_cons_self)
    rw [List.flatMap_cons, List.length_append, Nat.cast_add, hrest, hlength]
    simp [totalLength]

/-- Bytes are written to file `k` of the torrent, and to no other. -/
theorem image_write (h : Prepared d fs) {k i off : Nat} {f : File} {bytes : Bytes}
    (hf : d.files[k]? = some f) (hi : fs.lookup (d.folderName ++ 47 :: f.filename) = some i)
    (hin : (off + bytes.length : Int) ≤ f.length)
    (hother : ∀ k' f', d.files[k']? = some f' →
      fs.lookup (d.folderName ++ 47 :: f'.filename) = some i → k' = k) :
    image d (fs.write i bytes off)
      = overwrite 0 (image d fs) (fileStart d.files k + off).toNat bytes := by
  have hlength := length_fileOnDisk h (List.mem_of_getElem? hf)
  have hstart : ((d.files.take k).flatMap (fileOnDisk d fs)).length + off
      = (fileStart d.files k + off).toNat := by
    have htake := length_flatMap_fileOnDisk h (d.files.take k)
      fun f hf => List.mem_of_mem_take hf
    rw [fileStart, ← htake]
    omega
  rw [image, image, ← hstart]
  apply Assembly.flatMap_overwrite 0 hf
  · omega
  · have hi' : (fs.write i bytes off).lookup (d.folderName ++ 47 :: f.filename) = some i := hi
    rw [fileOnDisk_eq hi', fileOnDisk_eq hi, FileSystem.content_write_self]
  · intro k' f' hf' hne
    rw [fileOnDisk, fileOnDisk, FileSystem.lookup_write]
    cases hi' : fs.lookup (d.folderName ++ 47 :: f'.filename) with
    | none => rfl
    | some i' =>
      have hii : i' ≠ i := by
        intro heq
        rw [heq] at hi'
        exact hne (hother k' f' hf' hi')
      exact FileSystem.content_write_of_ne fs hii _ _

/-- A write to a file that is not one of the torrent. -/
theorem image_write_other {i : Nat} (bytes : Bytes) (off : Nat)
    (hother : ∀ f ∈ d.files, fs.lookup (d.folderName ++ 47 :: f.filename) ≠ some i) :
    image d (fs.write i bytes off) = image d fs := by
  apply List.flatMap_congr
  intro f hf
  rw [fileOnDisk, fileOnDisk, FileSystem.lookup_write]
  cases hi' : fs.lookup (d.folderName ++ 47 :: f.filename) with
  | none => rfl
  | some i' =>
    have hii : i' ≠ i := by
      intro heq
      exact hother f hf (hi'.trans (congrArg some heq))
    exact FileSystem.content_write_of_ne fs hii _ _

theorem Prepared.write (h : Prepared d fs) {i off : Nat} {bytes : Bytes}
    (hin : off + bytes.length ≤ (fs.content i).length) : Prepared d (fs.write i bytes off) := by
  intro f hf
  obtain ⟨j, hj, hlength⟩ := h f hf
  refine ⟨j, hj, ?_⟩
  by_cases hji : j = i
  · rw [hji, FileSystem.content_write_self, length_overwrite_of_le 0 hin, ← hji, hlength]
  · rw [FileSystem.content_write_of_ne fs hji, hlength]

/-- The files are found as before, with the same content. -/
theorem image_congr (h : Prepared d fs)
    (hkeep : ∀ f ∈ d.files, ∀ i, fs.lookup (d.folderName ++ 47 :: f.filename) = some i →
      fs'.lookup (d.folderName ++ 47 :: f.filename) = some i ∧ fs'.content i = fs.content i) :
    Prepared d fs' ∧ image d fs' = image d fs := by
  constructor
  · intro f hf
    obtain ⟨i, hi, hlength⟩ := h f hf
    obtain ⟨hi', hcontent⟩ := hkeep f hf i hi
    exact ⟨i, hi', by rw [hcontent, hlength]⟩
  · apply List.flatMap_congr
    intro f hf
    obtain ⟨i, hi, _⟩ := h f hf
    obtain ⟨hi', hcontent⟩ := hkeep f hf i hi
    rw [fileOnDisk_eq hi, fileOnDisk_eq hi', hcontent]

/-! ### An attempt at a piece -/

/-- A call of `write_bytes` does nothing, or writes what gets to the file. -/
theorem writeBytes_cases {fault : WriteFault} {path bytes : Bytes} {offset : Int}
    {r : Outcome IOError Unit} (h : writeBytes fault fs path bytes offset = (fs', r)) :
    fs' = fs ∧ r ≠ .ok () ∨
      ∃ i, fs.lookup path = some i ∧ 0 ≤ offset ∧
        fs' = fs.write i (fault.kept bytes) offset.toNat := by
  unfold writeBytes at h
  split at h
  · obtain ⟨rfl, rfl⟩ := Prod.mk.inj h
    exact .inl ⟨rfl, by simp⟩
  · next i hi =>
    split at h
    · obtain ⟨rfl, rfl⟩ := Prod.mk.inj h
      exact .inl ⟨rfl, by simp⟩
    · split at h
      · obtain ⟨rfl, rfl⟩ := Prod.mk.inj h
        exact .inl ⟨rfl, by simp⟩
      · split at h
        · obtain ⟨rfl, rfl⟩ := Prod.mk.inj h
          exact .inl ⟨rfl, by simp⟩
        · next hoff =>
          obtain ⟨rfl, _⟩ := Prod.mk.inj h
          exact .inr ⟨i, hi, by omega, rfl⟩

/-- What an attempt at a piece with the one subpiece `sub` does to the disk:
    nothing, or it writes what gets there of the verified content. -/
inductive Attempted (downloads : Download.Env W) (task : PieceTask) (sub : Subpiece)
    (fault : WriteFault) (fs fs' : FileSystem) (r : Outcome Empty Bool) : Prop where
  | nothing (same : fs' = fs) (failed : r ≠ .ok true)
  | wrote {i : Nat} {content : Bytes}
      (file : fs.lookup (subpiecePath task.descriptor sub) = some i)
      (offset : 0 ≤ sub.fileOffset)
      (length : (content.length : Int) = Download.pieceLength task.descriptor task.piece.index)
      (hash : task.descriptor.pieceHashes[task.piece.index.toNat]?
        = some (downloads.sha1 content))
      (write : fs' = fs.write i (fault.kept content) sub.fileOffset.toNat)

theorem process_attempted {downloads : Download.Env W} {task' : PieceTask} {w : W}
    {faults : Nat → WriteFault} {r : Outcome Empty Bool} {sub : Subpiece}
    (hsub : task.piece.subpieces = [sub])
    (h : process downloads fuel task w faults fs = (task', fs', r)) :
    Attempted downloads task sub (faults 0) fs fs' r := by
  unfold process at h
  split at h
  · next task₁ hdownload =>
    obtain ⟨downloaded, s, hrun, rfl⟩ := download_eq_true hdownload
    obtain ⟨_, hlength, hash, hhash, hverified⟩ := Download.tryDownload_eq_ok hrun
    obtain ⟨_, hsave⟩ := Prod.mk.inj h
    rw [save, hsub] at hsave
    simp only [saveLoop] at hsave
    cases hwrite : writeBytes (faults 0) fs (subpiecePath task.descriptor sub) downloaded.content
        sub.fileOffset with
    | mk fs₁ result =>
      rw [hwrite] at hsave
      have hfs : fs' = fs₁ ∧ (r = .ok true → result = .ok ()) := by
        rcases result with (e | x | _ | _) | u
        all_goals
          obtain ⟨rfl, rfl⟩ := Prod.mk.inj hsave
          exact ⟨rfl, by simp⟩
      rcases writeBytes_cases hwrite with ⟨hsame, hfailed⟩ | ⟨i, hi, hoff, hfs₁⟩
      · exact .nothing (hfs.1.trans hsame) fun hr => hfailed (hfs.2 hr)
      · exact .wrote hi hoff hlength (by rw [hhash, hverified]) (hfs.1.trans hfs₁)
  · next task₁ result hfailed hdownload =>
    obtain ⟨_, hsave⟩ := Prod.mk.inj h
    obtain ⟨rfl, rfl⟩ := Prod.mk.inj hsave
    exact .nothing rfl (by simpa using hfailed)

/-! ### Pieces inside one file -/

/-- A piece that `pieces()` has returned. -/
def IsPiece (d : TorrentFile) (p : Piece) : Prop :=
  ∃ beyond ps, pieces d beyond = .ok ps ∧ p ∈ ps

/-- No piece of the torrent reaches into two files. -/
def Whole (d : TorrentFile) : Prop := ∀ p, IsPiece d p → p.subpieces.length = 1

/-- The subpiece of such a piece: a section of one file, at the place of the
    piece among the bytes of all files. -/
theorem exists_subpiece (hd : d.Valid) (hwhole : Whole d) {p : Piece} (hp : IsPiece d p) :
    ∃ sub k f, p.subpieces = [sub] ∧ d.files[k]? = some f ∧ sub.filepath = f.filename ∧
      0 ≤ sub.fileOffset ∧ fileStart d.files k + sub.fileOffset = p.index * d.pieceLength ∧
      sub.fileOffset + Download.pieceLength d p.index ≤ f.length ∧ 0 ≤ p.index ∧
      p.index < d.piecesCount := by
  obtain ⟨beyond, ps, hps, hmem⟩ := hp
  obtain ⟨hlt, hcovers, _⟩ := covers_of_pieces hd hps p hmem
  obtain ⟨sub, hsub⟩ := List.length_eq_one_iff.mp (hwhole p ⟨beyond, ps, hps, hmem⟩)
  have hindex : p.index ∈ Int.range 0 d.piecesCount := by
    rw [← pieces_index hps]
    exact List.mem_map_of_mem hmem
  have hsum := hcovers.sum_len
  rw [hsub] at hcovers hsum
  rw [List.map_singleton, List.sum_singleton, ← pieceLength_eq hd hlt] at hsum
  obtain ⟨k, part, hstart⟩ : ∃ k, PartOf d.files sub k ∧
      fileStart d.files k + sub.fileOffset = p.index * d.pieceLength := by
    cases hcovers with
    | toEnd part start => exact ⟨_, part, start⟩
    | last part start => exact ⟨_, part, start⟩
  obtain ⟨f, hf, hname, hoff, _, hle⟩ := part
  exact ⟨sub, k, f, hsub, hf, hname, hoff, hstart, by omega, (Int.mem_range_iff.mp hindex).1, hlt⟩

/-- A torrent of one file has no piece in two. -/
theorem whole_of_single_file {f : File} (hd : d.Valid) (hfile : d.files = [f]) : Whole d := by
  rintro p ⟨beyond, ps, hps, hp⟩
  obtain ⟨sub, hsub, _⟩ := subpieces_of_single_file hd hfile (covers_of_pieces hd hps p hp)
  rw [hsub]
  rfl

/-- Two pieces do not overlap. -/
theorem pieces_disjoint (hd : d.Valid) {index index' : Int} (hne : index' ≠ index)
    (hlt : index < d.piecesCount) (hlt' : index' < d.piecesCount) :
    index' * d.pieceLength + Download.pieceLength d index' ≤ index * d.pieceLength ∨
      index * d.pieceLength + Download.pieceLength d index ≤ index' * d.pieceLength := by
  have hbefore : ∀ {j k : Int}, j < k → j < d.piecesCount →
      j * d.pieceLength + Download.pieceLength d j ≤ k * d.pieceLength := by
    intro j k hjk hj
    have hend : pieceEnd d j ≤ (j + 1) * d.pieceLength := min_le_left _ _
    have hpos := hd.pieceLength_pos
    have hmul : (j + 1) * d.pieceLength ≤ k * d.pieceLength :=
      Int.mul_le_mul_of_nonneg_right (by omega) (by omega)
    rw [pieceLength_eq hd hj]
    omega
  rcases Int.lt_or_gt_of_ne hne with hlt'' | hgt
  · exact .inl (hbefore hlt'' hlt')
  · exact .inr (hbefore hgt hlt)

/-- What a write to the place of a piece does to the pieces: it is where it
    belongs, and the others are as before. -/
theorem pieceOnDisk_write (hd : d.Valid) (h : Prepared d fs) {index : Int} (h0 : 0 ≤ index)
    (hlt : index < d.piecesCount) {bytes : Bytes}
    (hlength : (bytes.length : Int) ≤ Download.pieceLength d index)
    (himage : image d fs' = overwrite 0 (image d fs) (index * d.pieceLength).toNat bytes) :
    ((bytes.length : Int) = Download.pieceLength d index → pieceOnDisk d fs' index = bytes) ∧
    ∀ index', 0 ≤ index' → index' < d.piecesCount → index' ≠ index →
      pieceOnDisk d fs' index' = pieceOnDisk d fs index' := by
  have hpos := hd.pieceLength_pos
  have htotal : ((image d fs).length : Int) = d.length := by
    rw [hd.length_eq]
    exact length_flatMap_fileOnDisk h d.files fun _ hf => hf
  have hend : index * d.pieceLength + Download.pieceLength d index ≤ d.length := by
    have hle : pieceEnd d index ≤ d.length := min_le_right _ _
    rw [pieceLength_eq hd hlt]
    omega
  have hstart : 0 ≤ index * d.pieceLength := Int.mul_nonneg h0 (by omega)
  constructor
  · intro hall
    rw [pieceOnDisk, himage, ← hall, Int.toNat_natCast, Assembly.slice_overwrite_self]
  · intro index' h0' hlt' hne
    have hstart' : 0 ≤ index' * d.pieceLength := Int.mul_nonneg h0' (by omega)
    have hpos' := pieceLength_pos hd hlt'
    have hdisjoint := pieces_disjoint hd hne hlt hlt'
    rw [pieceOnDisk, pieceOnDisk, himage]
    apply Assembly.slice_overwrite_of_disjoint
    · omega
    · omega

end Furrent.Client
