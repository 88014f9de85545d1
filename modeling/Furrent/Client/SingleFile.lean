import Furrent.Framework.Assembly
import Furrent.Platform.Directories
import Furrent.Client.PieceTask

/-! # Torrents of one file

    `add_torrent` creates the file with `touch`, and the workers save the
    pieces as they come. Every piece of such a torrent has one subpiece, at
    `index * piece_length`, and saving it puts its content at its place
    among the contents of all pieces.

    A save that returns `OK` may have lost bytes: they are still in the
    buffer of the stream when `good()` is asked. The file is complete when
    every byte has got there in one of the saves, and it stays incomplete
    otherwise, unless `touch` has left just the byte that is missing. -/

namespace Furrent.Client

open Cpp Platform Torrent

variable {d : TorrentFile} {f : File} {c : Nat → Bytes}

/-! ### The pieces of one file -/

/-- A section of the only file starts where it starts in the torrent. -/
theorem partOf_single_file {s : Subpiece} {k : Nat} (h : PartOf [f] s k) :
    s.filepath = f.filename ∧ fileStart [f] k = 0 := by
  obtain ⟨f', hf', hname, _⟩ := h
  rcases k with _ | k
  · obtain rfl : f = f' := by simpa using hf'
    exact ⟨hname, rfl⟩
  · simp at hf'

/-- Up to the end of the only file a single subpiece is enough. -/
theorem covers_single_file {a b : Int} {subs : List Subpiece} (h : Covers [f] a subs b)
    (hb : b ≤ f.length) (hne : subs ≠ []) :
    ∃ s, subs = [s] ∧ s.filepath = f.filename ∧ s.fileOffset = a := by
  cases h with
  | nil => exact absurd rfl hne
  | @toEnd s k f' subs _ _ part start file ends rest more _ =>
    obtain ⟨hname, hzero⟩ := partOf_single_file part
    obtain rfl : f' = f := List.mem_singleton.mp (List.mem_of_getElem? file)
    cases subs with
    | nil => exact ⟨s, rfl, hname, by omega⟩
    | cons s' subs =>
      -- Nothing is left after the end of the file.
      have hlt := more (List.cons_ne_nil s' subs)
      omega
  | @last s k _ _ part start stop =>
    obtain ⟨hname, hzero⟩ := partOf_single_file part
    exact ⟨s, rfl, hname, by omega⟩

/-- A piece of a single file has a single subpiece. -/
theorem subpieces_of_single_file (hd : d.Valid) (hfile : d.files = [f]) {p : Piece}
    (hp : PieceCovers d p) :
    ∃ s, p.subpieces = [s] ∧ s.filepath = f.filename ∧
      s.fileOffset = p.index * d.pieceLength := by
  obtain ⟨_, hcov, hne⟩ := hp
  have hlength : d.length = f.length := by
    rw [hd.length_eq, hfile]
    simp [totalLength]
  have hend : pieceEnd d p.index ≤ d.length := min_le_right _ _
  rw [hfile] at hcov
  exact covers_single_file hcov (by omega) hne

/-- Contents of the right size stand where the pieces start. -/
theorem start_eq (hc : ∀ k : Nat, k < d.piecesCount →
      ((c k).length : Int) = Download.pieceLength d k) {k : Nat} (hk : k < d.piecesCount) :
    (Assembly.start c k : Int) = k * d.pieceLength := by
  induction k with
  | zero => simp [Assembly.start, Assembly.upTo]
  | succ k ih =>
    have hsize := hc k (by omega)
    rw [Download.pieceLength, if_neg (by omega)] at hsize
    rw [Assembly.start_succ, Int.natCast_add, ih (by omega), hsize]
    push_cast
    ring

/-- Together they are as long as the file. -/
theorem start_piecesCount (hd : d.Valid) (hpos : 0 < d.length)
    (hc : ∀ k : Nat, k < d.piecesCount → ((c k).length : Int) = Download.pieceLength d k) :
    (Assembly.start c d.piecesCount.toNat : Int) = d.length := by
  have hbounds := hd.piecesCount_bounds.2
  have hcount : 0 < d.piecesCount := by
    by_contra hzero
    have hnone : d.piecesCount = 0 := by
      have := hd.piecesCount_nonneg
      omega
    rw [hnone, zero_mul] at hbounds
    omega
  -- The last content ends where the file ends.
  obtain ⟨m, hm⟩ : ∃ m : Nat, d.piecesCount = m + 1 := ⟨d.piecesCount.toNat - 1, by omega⟩
  have hlast := hc m (by omega)
  rw [Download.pieceLength, if_pos (by omega)] at hlast
  have hstart := start_eq hc (show (m : Int) < d.piecesCount by omega)
  have htoNat : d.piecesCount.toNat = m + 1 := by omega
  rw [htoNat, Assembly.start_succ, Int.natCast_add, hstart, hlast, hm, Int.add_sub_cancel]
  omega

/-! ### Saving them -/

/-- Pieces have been saved with success, one after the other, each with its
    content. Recorded are the index and how many bytes got to the file. -/
inductive Saves (d : TorrentFile) (ps : List Piece) (c : Nat → Bytes) :
    FileSystem → List (Nat × Nat) → FileSystem → Prop where
  | nil (fs : FileSystem) : Saves d ps c fs [] fs
  | cons {task : PieceTask} {saved : Download.Downloaded} {faults : Nat → WriteFault}
      {fs fs₁ fs' : FileSystem} {saves : List (Nat × Nat)} (descriptor : task.descriptor = d)
      (piece : task.piece ∈ ps) (data : task.data = some saved)
      (content : saved.content = c task.piece.index.toNat)
      (run : save task faults fs = (fs₁, .ok true)) (rest : Saves d ps c fs₁ saves fs') :
      Saves d ps c fs
        ((task.piece.index.toNat, (faults 0).count saved.content.length) :: saves) fs'

/-- A save of piece `k` got its byte `y` to the file. -/
def Reached (saves : List (Nat × Nat)) (k y : Nat) : Prop := ∃ n, (k, n) ∈ saves ∧ y < n

/-- The write of a save. -/
def saveWrite (c : Nat → Bytes) (p : Nat × Nat) : Write UInt8 :=
  ⟨Assembly.start c p.1, (c p.1).take p.2⟩

theorem Saves.bounds {ps : List Piece} (hps : ∀ p ∈ ps, PieceCovers d p ∧ 0 ≤ p.index)
    {fs fs' : FileSystem} {saves : List (Nat × Nat)} (h : Saves d ps c fs saves fs') :
    ∀ p ∈ saves, p.1 < d.piecesCount.toNat ∧ p.2 ≤ (c p.1).length := by
  induction h with
  | nil => simp
  | @cons task saved faults _ _ _ saves _ piece _ content _ _ ih =>
    obtain ⟨hcovers, h0⟩ := hps task.piece piece
    have hlt := hcovers.index_lt
    refine List.forall_mem_cons.mpr ⟨⟨by dsimp only; omega, ?_⟩, ih⟩
    dsimp only
    rw [content]
    exact Nat.min_le_right _ _

/-- A successful `save` of a piece with one subpiece is one write. -/
theorem save_single {task : PieceTask} {faults : Nat → WriteFault} {fs fs' : FileSystem}
    {s : Subpiece} {saved : Download.Downloaded} (hs : task.piece.subpieces = [s])
    (hdata : task.data = some saved) (h : save task faults fs = (fs', .ok true)) :
    ∃ i, fs.lookup (subpiecePath task.descriptor s) = some i ∧
      fs' = fs.write i ((faults 0).kept saved.content) s.fileOffset.toNat := by
  have hloop := (save_eq_true_iff.mp h).1
  rw [hs] at hloop
  obtain ⟨i, hi, _, _, _, _, hrest⟩ := (saveLoop_cons_iff hdata).mp hloop
  exact ⟨i, hi, (congrArg Prod.fst hrest).symm⟩

/-- Saving pieces writes their contents to their places, and nothing else. -/
theorem Saves.content_eq (hd : d.Valid) (hfile : d.files = [f])
    (hc : ∀ k : Nat, k < d.piecesCount → ((c k).length : Int) = Download.pieceLength d k)
    {ps : List Piece} (hps : ∀ p ∈ ps, PieceCovers d p ∧ 0 ≤ p.index) {fs fs' : FileSystem}
    {saves : List (Nat × Nat)} (h : Saves d ps c fs saves fs') {i : Nat}
    (hi : fs.lookup (d.folderName ++ 47 :: f.filename) = some i) :
    fs'.lookup = fs.lookup ∧
      fs'.content i = Write.run 0 (saves.map (saveWrite c)) (fs.content i) := by
  induction h with
  | nil fs => exact ⟨rfl, rfl⟩
  | @cons task saved faults fs fs₁ fs' saves descriptor piece data content run rest ih =>
    obtain ⟨hcovers, hindex⟩ := hps task.piece piece
    obtain ⟨s, hs, hname, hoff⟩ := subpieces_of_single_file hd hfile hcovers
    obtain ⟨j, hj, rfl⟩ := save_single hs data run
    -- The path is that of the file, and the offset the place of the piece.
    obtain rfl : i = j := by
      rw [descriptor, subpiecePath, hname, hi] at hj
      exact Option.some.inj hj
    have hstart := start_eq hc (k := task.piece.index.toNat) (by
      have := hcovers.index_lt
      omega)
    rw [Int.toNat_of_nonneg hindex, ← hoff] at hstart
    obtain ⟨hnames, hrest⟩ := ih hi
    refine ⟨hnames, ?_⟩
    rw [hrest, FileSystem.content_write_self, List.map_cons, Write.run_cons, saveWrite,
      WriteFault.kept, content, ← hstart, Int.toNat_natCast]

/-! ### What is in the file -/

/-- The byte that `touch` leaves at position `x` of a file of `size` bytes:
    zero, and at the end the digit that it writes, if this one is not lost. -/
def touchedByte (fault : Io.TouchFault) (size : Int) (x : Nat) : UInt8 :=
  if 0 < fault.written ∧ (x : Int) + 1 = size then 49 else 0

section

variable {fault : Io.TouchFault} {size : Int} {saves : List (Nat × Nat)} {k y n : Nat}

/-- What `touch` writes. -/
theorem run_fill (h : (Io.fill fault size).2 = .ok ()) :
    (Io.fill fault size).1 = Write.run 0 [⟨(size - 1).toNat, [49].take fault.written⟩] [] :=
  (Io.fill_eq_ok h).2

theorem getD_fill (h : (Io.fill fault size).2 = .ok ()) (x : Nat) :
    (Io.fill fault size).1[x]?.getD 0 = touchedByte fault size x := by
  have hpos := (Io.fill_eq_ok h).1
  rw [run_fill h, Write.getD_run, Write.last_singleton, touchedByte]
  cases hw : fault.written with
  | zero =>
    rw [List.take_zero, if_neg (by simp [Write.Covers]), if_neg (by simp)]
    rfl
  | succ w =>
    by_cases hx : (x : Int) + 1 = size
    · rw [if_pos (by simp [Write.Covers]; omega), if_pos ⟨by omega, hx⟩,
        show (size - 1).toNat = x by omega]
      simp
    · rw [if_neg (by simp [Write.Covers]; omega), if_neg (by omega)]
      rfl

/-- The file has its size if the digit is not lost, and is empty
    otherwise. -/
theorem length_fill (h : (Io.fill fault size).2 = .ok ()) :
    ((Io.fill fault size).1.length : Int) = if 0 < fault.written then size else 0 := by
  obtain ⟨hpos, hfill⟩ := Io.fill_eq_ok h
  rw [hfill]
  cases fault.written with
  | zero => simp [overwrite]
  | succ w =>
    rw [length_overwrite 0 _ _ (by simp)]
    simp
    omega

/-- The saves that write to a byte of a piece are those of the piece that got
    it to the file. -/
theorem covers_saveWrite_iff {p : Nat × Nat} (hp : p.2 ≤ (c p.1).length)
    (hy : y < (c k).length) :
    (saveWrite c p).Covers (Assembly.start c k + y) ↔ p.1 = k ∧ y < p.2 := by
  simp only [Write.Covers, saveWrite, List.length_take]
  constructor
  · rintro ⟨hle, hlt⟩
    have hsame : p.1 = k := by
      apply Assembly.eq_of_start_add_eq (c := c)
        (x := Assembly.start c k + y - Assembly.start c p.1) (by omega) hy (by omega)
    rw [hsame] at hle hlt
    exact ⟨hsame, by omega⟩
  · rintro ⟨rfl, hlt⟩
    omega

theorem getD_saves (hbounds : ∀ p ∈ saves, p.2 ≤ (c p.1).length) (hy : y < (c k).length)
    {l : Bytes} : (Reached saves k y →
      (Write.run 0 (saves.map (saveWrite c)) l)[Assembly.start c k + y]?.getD 0
        = (c k)[y]?.getD 0) ∧
    (¬ Reached saves k y →
      (Write.run 0 (saves.map (saveWrite c)) l)[Assembly.start c k + y]?.getD 0
        = l[Assembly.start c k + y]?.getD 0) := by
  constructor
  · rintro ⟨n, hmem, hn⟩
    obtain ⟨w, hlast⟩ := Write.exists_last (x := Assembly.start c k + y)
      ⟨_, List.mem_map_of_mem hmem, (covers_saveWrite_iff (hbounds _ hmem) hy).mpr ⟨rfl, hn⟩⟩
    obtain ⟨hw, hcovers⟩ := Write.mem_of_last hlast
    obtain ⟨p, hp, rfl⟩ := List.mem_map.mp hw
    obtain ⟨rfl, hlt⟩ := (covers_saveWrite_iff (hbounds p hp) hy).mp hcovers
    rw [Write.getD_run_of_last 0 hlast, saveWrite, Nat.add_sub_cancel_left,
      List.getElem?_take_of_lt hlt]
  · intro hnone
    apply Write.getD_run_of_not_covered
    intro w hw hcovers
    obtain ⟨p, hp, rfl⟩ := List.mem_map.mp hw
    obtain ⟨rfl, hlt⟩ := (covers_saveWrite_iff (hbounds p hp) hy).mp hcovers
    exact hnone ⟨p.2, hp, hlt⟩

/-- Every byte of every piece has got to the file, or was there anyway. -/
def AllThere (c : Nat → Bytes) (n : Nat) (saves : List (Nat × Nat)) (byte : Nat → UInt8) : Prop :=
  ∀ k < n, ∀ y (hy : y < (c k).length),
    Reached saves k y ∨ (c k)[y] = byte (Assembly.start c k + y)

/-- The last byte of the last piece has got to the file. -/
def EndReached (c : Nat → Bytes) (n : Nat) (saves : List (Nat × Nat)) : Prop :=
  ∃ k, k + 1 = n ∧ Reached saves k ((c k).length - 1)

section

variable {l : Bytes} (hbounds : ∀ p ∈ saves, p.1 < n ∧ p.2 ≤ (c p.1).length)
include hbounds

/-- The file is as long as the pieces together when `touch` or a save has got
    to its end. -/
theorem length_run_saves_eq_iff (hl : l.length ≤ Assembly.start c n)
    (hpos : ∀ k < n, 0 < (c k).length) (hn : 0 < n) :
    (Write.run 0 (saves.map (saveWrite c)) l).length = Assembly.start c n ↔
      l.length = Assembly.start c n ∨ EndReached c n saves := by
  have hend : ∀ p ∈ saves, Assembly.start c p.1 + ((c p.1).take p.2).length
      ≤ Assembly.start c n := by
    intro p hp
    have := Assembly.end_le_start (c := c) (hbounds p hp).1
    rw [List.length_take]
    omega
  have hlongest := (Write.length_run_le_iff 0).mp
    (le_refl (Write.run 0 (saves.map (saveWrite c)) l).length)
  have hle : (Write.run 0 (saves.map (saveWrite c)) l).length ≤ Assembly.start c n := by
    refine (Write.length_run_le_iff 0).mpr ⟨hl, ?_⟩
    intro w hw _
    obtain ⟨p, hp, rfl⟩ := List.mem_map.mp hw
    exact hend p hp
  obtain ⟨m, rfl⟩ : ∃ m, n = m + 1 := ⟨n - 1, by omega⟩
  have hm := hpos m (Nat.lt_succ_self m)
  rw [Assembly.start_succ] at *
  constructor
  · intro heq
    by_contra hnone
    push Not at hnone
    obtain ⟨hshort, hlost⟩ := hnone
    -- Nothing was written to the last position.
    have hbefore : (Write.run 0 (saves.map (saveWrite c)) l).length
        ≤ Assembly.start c m + (c m).length - 1 := by
      refine (Write.length_run_le_iff 0).mpr ⟨by omega, ?_⟩
      intro w hw _
      obtain ⟨p, hp, rfl⟩ := List.mem_map.mp hw
      obtain ⟨hlt, hcount⟩ := hbounds p hp
      simp only [saveWrite, List.length_take]
      by_contra hlast
      rcases Nat.lt_succ_iff_lt_or_eq.mp hlt with hearlier | hsame
      · have := Assembly.end_le_start (c := c) hearlier
        omega
      · rw [hsame] at hlast hcount
        exact hlost ⟨m, rfl, p.2, hsame ▸ hp, by omega⟩
    omega
  · rintro (heq | ⟨k, hk, count, hmem, hlt⟩)
    · have := hlongest.1
      omega
    · obtain rfl : k = m := by omega
      have hcount := (hbounds _ hmem).2
      have hwrite := hlongest.2 _ (List.mem_map_of_mem hmem) (by
        simp only [saveWrite, ne_eq, List.take_eq_nil_iff]
        intro hnil
        rcases hnil with hzero | hnil
        · omega
        · rw [hnil] at hm
          exact absurd hm (Nat.lt_irrefl 0))
      simp only [saveWrite, List.length_take] at hwrite
      omega

/-- When the pieces have been put together. -/
theorem run_saves_eq_upTo_iff {byte : Nat → UInt8} (hbyte : ∀ x, l[x]?.getD 0 = byte x)
    (hl : l.length ≤ Assembly.start c n) (hpos : ∀ k < n, 0 < (c k).length) (hn : 0 < n) :
    Write.run 0 (saves.map (saveWrite c)) l = Assembly.upTo c n ↔
      AllThere c n saves byte ∧ (l.length = Assembly.start c n ∨ EndReached c n saves) := by
  rw [Assembly.eq_upTo_iff, and_comm, length_run_saves_eq_iff hbounds hl hpos hn]
  refine and_congr_left fun hend => ?_
  have hlength := (length_run_saves_eq_iff hbounds hl hpos hn).mpr hend
  refine forall₂_congr fun k hk => forall₂_congr fun y hy => ?_
  have hin : Assembly.start c k + y < (Write.run 0 (saves.map (saveWrite c)) l).length := by
    have := Assembly.end_le_start (c := c) hk
    omega
  obtain ⟨hreached, hmissed⟩ := getD_saves (l := l) (fun p hp => (hbounds p hp).2) hy
  by_cases h : Reached saves k y
  · exact iff_of_true (Write.getElem?_eq_of_getD 0 hin hy (hreached h)) (.inl h)
  · rw [or_iff_right h, ← hbyte, ← hmissed h, List.getElem?_eq_getElem hin,
      List.getElem?_eq_getElem hy, Option.getD_some, Option.some.injEq, eq_comm]

end

end

/-- For every valid descriptor of one file that `touch` has made with its
    length, after any successful saves, in whatever order and however often:
    the file is the contents of the pieces, one after the other, if and only
    if every byte got there in one of the saves or is what `touch` has left,
    and the end of the file has been written to. -/
theorem single_file_complete_iff (hd : d.Valid) (hfile : d.files = [f])
    {beyond : Nat → Option Int} {ps : List Piece} (hps : pieces d beyond = .ok ps)
    (hc : ∀ k : Nat, k < d.piecesCount → ((c k).length : Int) = Download.pieceLength d k)
    {cwd : Io.Location} {fault : Io.TouchFault} {disk disk' : Io.Disk}
    (htouch : Io.touch cwd fault disk (d.folderName ++ 47 :: f.filename) d.length
      = (disk', .ok ()))
    {number : Io.Location → Nat} {fs fs' : FileSystem} (hview : Io.Views cwd number disk' fs)
    {saves : List (Nat × Nat)} (hsaves : Saves d ps c fs saves fs') :
    ∃ i, fs'.lookup (d.folderName ++ 47 :: f.filename) = some i ∧
      (fs'.content i = (List.range d.piecesCount.toNat).flatMap c ∧
        ((fs'.content i).length : Int) = d.length ↔
      AllThere c d.piecesCount.toNat saves (touchedByte fault d.length) ∧
        (0 < fault.written ∨ EndReached c d.piecesCount.toNat saves)) := by
  obtain ⟨loc, hfind, hnode, hfill⟩ := Io.find_touch htouch
  obtain ⟨hpos, _⟩ := Io.fill_eq_ok hfill
  have hi := hview.lookup _ loc _ hfind hnode
  have hpiece : ∀ p ∈ ps, PieceCovers d p ∧ 0 ≤ p.index := by
    intro p hp
    have hmem : p.index ∈ Int.range 0 d.piecesCount := by
      rw [← pieces_index hps]
      exact List.mem_map_of_mem hp
    exact ⟨covers_of_pieces hd hps p hp, (Int.mem_range_iff.mp hmem).1⟩
  obtain ⟨hnames, hcontent⟩ := hsaves.content_eq hd hfile hc hpiece hi
  have htotal := start_piecesCount hd hpos hc
  have hcount : 0 < d.piecesCount.toNat := by
    by_contra hnone
    have hzero : d.piecesCount.toNat = 0 := by omega
    rw [hzero] at htotal
    have : Assembly.start c 0 = 0 := rfl
    omega
  have hlength := length_fill hfill
  refine ⟨number loc, by rw [hnames, hi], ?_⟩
  rw [hcontent, hview.content loc _ hnode]
  have hassembled := run_saves_eq_upTo_iff (hsaves.bounds hpiece) (getD_fill hfill)
    (by split at hlength <;> omega)
    (fun k hk => by
      have hsize := hc k (by omega)
      have hk' : (k : Int) < d.piecesCount := by omega
      have := pieceLength_pos hd hk'
      omega) hcount
  have hwritten : (Io.fill fault d.length).1.length = Assembly.start c d.piecesCount.toNat ↔
      0 < fault.written := by
    split at hlength <;> omega
  rw [hwritten] at hassembled
  rw [← hassembled]
  constructor
  · exact And.left
  · intro heq
    refine ⟨heq, ?_⟩
    rw [heq]
    exact htotal

/-! ### A file of two pieces -/

/-- One file of three bytes in two pieces. -/
def twoPieces : TorrentFile where
  pieceLength := 2
  length := 3
  piecesCount := 2
  folderName := [46]
  files := [⟨[[97]], 3⟩]

/-- The contents of the pieces. -/
def twoPiecesContent (k : Nat) : Bytes := if k = 0 then [1, 2] else [3]

/-- The task for a downloaded piece. -/
def twoPiecesTask (k : Nat) : PieceTask where
  data := some ⟨k, twoPiecesContent k⟩
  piece := if k = 0 then ⟨0, [⟨[97], 0, 2⟩]⟩ else ⟨1, [⟨[97], 2, 1⟩]⟩
  descriptor := twoPieces

theorem twoPieces_valid : twoPieces.Valid := ⟨by decide, by decide, by decide, by decide, by decide⟩

theorem pieces_twoPieces : pieces twoPieces (fun _ => some 0)
    = .ok [(twoPiecesTask 0).piece, (twoPiecesTask 1).piece] := by
  decide

theorem length_twoPiecesContent (k : Nat) (hk : k < twoPieces.piecesCount) :
    ((twoPiecesContent k).length : Int) = Download.pieceLength twoPieces k := by
  have hcount : twoPieces.piecesCount = 2 := rfl
  obtain rfl | rfl : k = 0 ∨ k = 1 := by omega
  · rfl
  · rfl

/-- The disk after `touch`. -/
def touchedDisk : Io.Disk := FileTree.bare.add [] [97] (.file [0, 0, 49])

/-- Its only file. -/
def touchedFiles : FileSystem where
  lookup := fun path => if (Io.find [] touchedDisk path).isSome then some 0 else none
  content := fun _ => [0, 0, 49]

theorem views_touched : Io.Views [] (fun _ => 0) touchedDisk touchedFiles where
  lookup path loc content hfind _ := by
    simp [touchedFiles, hfind]
  content loc content hnode := by
    by_cases hloc : loc = [] ++ [[97]]
    · rw [hloc, touchedDisk, FileTree.node_add_self rfl rfl] at hnode
      injection hnode with hnode
      injection hnode
    · rw [touchedDisk, FileTree.node_add_of_ne hloc, FileTree.bare] at hnode
      dsimp only at hnode
      split at hnode <;> simp at hnode

/-- A piece is saved with success, and as many bytes get there as the device
    takes. -/
theorem saves_twoPieces {fs fs' : FileSystem} {saves : List (Nat × Nat)} {k : Nat}
    (hk : k = 0 ∨ k = 1) (fault : WriteFault) (hopens : fault.opens = true)
    (hgood : fault.good = true) (hi : fs.lookup [46, 47, 97] = some 0)
    (hrest : Saves twoPieces [(twoPiecesTask 0).piece, (twoPiecesTask 1).piece] twoPiecesContent
      (fs.write 0 (fault.kept (twoPiecesContent k)) (2 * k)) saves fs') :
    Saves twoPieces [(twoPiecesTask 0).piece, (twoPiecesTask 1).piece] twoPiecesContent
      fs ((k, fault.count (twoPiecesContent k).length) :: saves) fs' := by
  have hloop : saveLoop (twoPiecesTask k) (fun _ => fault) 0 (twoPiecesTask k).piece.subpieces fs
      = (fs.write 0 (fault.kept (twoPiecesContent k)) (2 * k), .ok true) := by
    rcases hk with rfl | rfl
    all_goals
      exact (saveLoop_cons_iff rfl).mpr ⟨0, hi, hopens, hgood, by decide, by decide, rfl⟩
  have hsave := save_eq_true_iff.mpr
    ⟨hloop, by rcases hk with rfl | rfl <;> simp [twoPiecesTask]⟩
  rcases hk with rfl | rfl
  · exact .cons (rfl : (twoPiecesTask 0).descriptor = twoPieces) (by simp) rfl rfl hsave hrest
  · exact .cons (rfl : (twoPiecesTask 1).descriptor = twoPieces) (by simp) rfl rfl hsave hrest

/-- The last piece is saved first, and then once more. The first piece is
    lost once. -/
theorem single_file_complete_two_pieces :
    ∃ fs', Io.touch [] {} FileTree.bare [46, 47, 97] 3 = (touchedDisk, .ok ()) ∧
      Saves twoPieces [(twoPiecesTask 0).piece, (twoPiecesTask 1).piece] twoPiecesContent
        touchedFiles [(1, 1), (0, 0), (0, 2), (1, 1)] fs' ∧
      fs'.content 0 = [1, 2, 3] := by
  have htouch : Io.touch [] {} FileTree.bare [46, 47, 97] 3 = (touchedDisk, .ok ()) := rfl
  have hi : touchedFiles.lookup [46, 47, 97] = some 0 := rfl
  have hsaves := saves_twoPieces (.inr rfl) {} rfl rfl hi <|
    saves_twoPieces (.inl rfl) { written := some 0 } rfl rfl hi <|
    saves_twoPieces (.inl rfl) {} rfl rfl hi <|
    saves_twoPieces (.inr rfl) {} rfl rfl hi (.nil _)
  refine ⟨_, htouch, hsaves, ?_⟩
  obtain ⟨i, hi', hcomplete⟩ := single_file_complete_iff twoPieces_valid rfl pieces_twoPieces
    length_twoPiecesContent htouch views_touched hsaves
  obtain rfl : 0 = i := Option.some.inj (hi.symm.trans hi')
  refine (hcomplete.mpr ⟨?_, .inl (by decide)⟩).1
  intro k hk y hy
  obtain rfl | rfl : k = 0 ∨ k = 1 := by
    have hcount : twoPieces.piecesCount.toNat = 2 := rfl
    omega
  · exact .inl ⟨2, by decide, hy⟩
  · exact .inl ⟨1, by decide, hy⟩

/-- The bytes of the first piece are still in the buffer when `good()` is
    asked, and the device is full when the stream is closed. -/
theorem save_lost_at_close :
    twoPieces.Valid ∧
    pieces twoPieces (fun _ => some 0)
      = .ok [(twoPiecesTask 0).piece, (twoPiecesTask 1).piece] ∧
    (∀ k : Nat, k < twoPieces.piecesCount →
      ((twoPiecesContent k).length : Int) = Download.pieceLength twoPieces k) ∧
    Io.touch [] {} FileTree.bare [46, 47, 97] 3 = (touchedDisk, .ok ()) ∧
    Io.Views [] (fun _ => 0) touchedDisk touchedFiles ∧
    ∃ fs', Saves twoPieces [(twoPiecesTask 0).piece, (twoPiecesTask 1).piece] twoPiecesContent
        touchedFiles [(0, 0), (1, 1)] fs' ∧
      fs'.lookup [46, 47, 97] = some 0 ∧ fs'.content 0 = [0, 0, 3] ∧
      fs'.content 0 ≠ (List.range twoPieces.piecesCount.toNat).flatMap twoPiecesContent := by
  have hi : touchedFiles.lookup [46, 47, 97] = some 0 := rfl
  have hcontent : ((touchedFiles.write 0 [] 0).write 0 [3] 2).content 0 = [0, 0, 3] := by
    rw [FileSystem.content_write_self, FileSystem.content_write_self]
    rfl
  refine ⟨twoPieces_valid, pieces_twoPieces, length_twoPiecesContent, rfl, views_touched,
    (touchedFiles.write 0 [] 0).write 0 [3] 2, ?_, hi, hcontent, ?_⟩
  · exact saves_twoPieces (.inl rfl) { written := some 0 } rfl rfl hi <|
      saves_twoPieces (.inr rfl) {} rfl rfl hi (.nil _)
  · rw [hcontent]
    decide

end Furrent.Client
