import Furrent.Torrent.Pieces
import Furrent.Download.Blocks
import Mathlib.Data.List.Forall2

/-! # The pieces tile the files

    The files of a torrent, one after the other, form one long byte string.
    A piece is the section of it from `index * piece_length` to the next
    multiple of `piece_length` or the end. The subpieces of a piece are
    shown to lead through its section, each inside the file it names.

    The invariant of both loops is `CursorAt`: the cursor stands at a
    position of the byte string, which is inside a file or at the very
    end. At the end nothing is known about the sizes in the cursor; they
    come from the read past the last file. -/

namespace Furrent.Torrent

open Cpp Tiling

variable {files : List File}

/-! ### Positions -/

/-- The position at which file `k` starts. -/
def fileStart (files : List File) (k : Nat) : Int := totalLength (files.take k)

@[simp] theorem fileStart_zero : fileStart files 0 = 0 := rfl

theorem fileStart_succ {k : Nat} {f : File} (h : files[k]? = some f) :
    fileStart files (k + 1) = fileStart files k + f.length := by
  unfold fileStart totalLength
  rw [List.take_add_one, h, List.map_append, List.sum_append]
  simp

theorem fileStart_length : fileStart files files.length = totalLength files := by
  rw [fileStart, List.take_length]

/-- The cursor stands at position `pos`. -/
inductive CursorAt (files : List File) : Cursor → Int → Prop where
  | inside {k : Nat} {f : File} {rem : Int} (file : files[k]? = some f)
      (nonneg : 0 ≤ rem) (le : rem ≤ f.length) :
      CursorAt files ⟨k, f.length, rem⟩ (fileStart files k + (f.length - rem))
  | finished {c : Cursor} (curFile : c.curFile = files.length) :
      CursorAt files c (totalLength files)

theorem CursorAt.le_length {c : Cursor} {pos : Int} (h : CursorAt files c pos) :
    c.curFile ≤ files.length := by
  cases h with
  | @inside k f rem file _ _ =>
    obtain ⟨hlt, _⟩ := List.getElem?_eq_some_iff.mp file
    exact le_of_lt hlt
  | finished curFile => exact le_of_eq curFile

/-- Short of the end, the cursor is inside a file. -/
theorem CursorAt.exists_file {c : Cursor} {pos : Int} (h : CursorAt files c pos)
    (hlt : pos < totalLength files) :
    ∃ f, files[c.curFile]? = some f ∧ c.totSize = f.length ∧ 0 ≤ c.remSize ∧
      c.remSize ≤ f.length ∧ pos = fileStart files c.curFile + (f.length - c.remSize) := by
  cases h with
  | @inside k f rem file nonneg le => exact ⟨f, file, rfl, nonneg, le, rfl⟩
  | finished _ => omega

/-- At the start of a file. -/
theorem cursorAt_open {k : Nat} {f : File} (hf : files[k]? = some f) (h0 : 0 ≤ f.length) :
    CursorAt files ⟨k, f.length, f.length⟩ (fileStart files k) := by
  have h := CursorAt.inside hf h0 (le_refl _)
  rwa [sub_self, add_zero] at h

/-- Further on in the same file. -/
theorem cursorAt_advance {k : Nat} {f : File} {rem r : Int} (hf : files[k]? = some f)
    (hrem : rem ≤ f.length) (h0 : 0 ≤ r) (hr : r ≤ rem) :
    CursorAt files ⟨k, f.length, rem - r⟩ (fileStart files k + (f.length - rem) + r) := by
  have h := CursorAt.inside hf (show 0 ≤ rem - r by omega) (by omega)
  have hpos : fileStart files k + (f.length - (rem - r))
      = fileStart files k + (f.length - rem) + r := by omega
  rwa [hpos] at h

/-! ### Subpieces -/

/-- `s` is a section of file `k`. -/
def PartOf (files : List File) (s : Subpiece) (k : Nat) : Prop :=
  ∃ f, files[k]? = some f ∧ s.filepath = f.filename ∧ 0 ≤ s.fileOffset ∧ 0 ≤ s.len ∧
    s.fileOffset + s.len ≤ f.length

theorem partOf_of_le {k : Nat} {f : File} {rem len : Int} (hf : files[k]? = some f)
    (hrem : rem ≤ f.length) (h0 : 0 ≤ len) (hlen : len ≤ rem) :
    PartOf files ⟨f.filename, f.length - rem, len⟩ k := by
  refine ⟨f, hf, rfl, sub_nonneg.mpr hrem, h0, ?_⟩
  show f.length - rem + len ≤ f.length
  omega

/-- The positions of a section of file `k`. -/
def segment (files : List File) (p : Subpiece × Nat) : Segment :=
  ⟨fileStart files p.2 + p.1.fileOffset, p.1.len⟩

/-- The subpieces lead from position `a` to `b`. All but the last reach the
    end of their file and leave something to do; all but the first begin
    where their file begins. -/
inductive Covers (files : List File) : Int → List Subpiece → Int → Prop where
  | nil (a : Int) : Covers files a [] a
  | toEnd {s : Subpiece} {k : Nat} {f : File} {subs : List Subpiece} {a b : Int}
      (part : PartOf files s k) (start : fileStart files k + s.fileOffset = a)
      (file : files[k]? = some f) (ends : s.fileOffset + s.len = f.length)
      (rest : Covers files (a + s.len) subs b) (more : subs ≠ [] → a + s.len < b)
      (opens : ∀ s' ∈ subs, s'.fileOffset = 0) :
      Covers files a (s :: subs) b
  | last {s : Subpiece} {k : Nat} {a b : Int} (part : PartOf files s k)
      (start : fileStart files k + s.fileOffset = a) (stop : a + s.len = b) :
      Covers files a [s] b

theorem Covers.tiles {a b : Int} {subs : List Subpiece} (h : Covers files a subs b) :
    ∃ ks : List Nat, List.Forall₂ (PartOf files) subs ks ∧
      Tiles a ((subs.zip ks).map (segment files)) b := by
  induction h with
  | nil a => exact ⟨[], .nil, .nil a⟩
  | @toEnd s k f subs a b part start _ _ _ _ _ ih =>
    obtain ⟨ks, hparts, htiles⟩ := ih
    obtain ⟨_, _, _, _, hlen, _⟩ := id part
    subst start
    exact ⟨k :: ks, .cons part hparts, .cons (s := segment files (s, k)) hlen htiles⟩
  | @last s k a b part start stop =>
    obtain ⟨_, _, _, _, hlen, _⟩ := id part
    subst start stop
    exact ⟨[k], .cons part .nil, .cons (s := segment files (s, k)) hlen (.nil _)⟩

/-- The subpieces of a piece are in files of the torrent. -/
theorem Covers.file_of_mem {a b : Int} {subs : List Subpiece} (h : Covers files a subs b)
    {sub : Subpiece} (hsub : sub ∈ subs) :
    0 ≤ sub.fileOffset ∧ ∃ f ∈ files, sub.filepath = f.filename := by
  have hpart : ∀ {sub k}, PartOf files sub k →
      0 ≤ sub.fileOffset ∧ ∃ f ∈ files, sub.filepath = f.filename := by
    rintro sub k ⟨f, hf, hname, hoff, _, _⟩
    exact ⟨hoff, f, List.mem_of_getElem? hf, hname⟩
  induction h with
  | nil => cases hsub
  | toEnd part _ _ _ _ _ _ ih =>
    rcases List.mem_cons.mp hsub with rfl | hsub
    · exact hpart part
    · exact ih hsub
  | last part _ _ =>
    rw [List.mem_singleton.mp hsub]
    exact hpart part

theorem Covers.sum_len {a b : Int} {subs : List Subpiece} (h : Covers files a subs b) :
    (subs.map Subpiece.len).sum = b - a := by
  induction h with
  | nil a => simp
  | toEnd _ _ _ _ _ _ _ ih =>
    rw [List.map_cons, List.sum_cons, ih]
    omega
  | last _ _ _ =>
    rw [List.map_singleton, List.sum_singleton]
    omega

theorem Covers.len_nonneg {a b : Int} {subs : List Subpiece} (h : Covers files a subs b) :
    ∀ s ∈ subs, 0 ≤ s.len := by
  have hpart : ∀ {s k}, PartOf files s k → 0 ≤ s.len := fun ⟨_, _, _, _, hlen, _⟩ => hlen
  induction h with
  | nil => simp
  | toEnd part _ _ _ _ _ _ ih => exact List.forall_mem_cons.mpr ⟨hpart part, ih⟩
  | last part _ _ =>
    intro s hs
    rw [List.mem_singleton.mp hs]
    exact hpart part

theorem Covers.tail_offset {a b : Int} {s : Subpiece} {subs : List Subpiece}
    (h : Covers files a (s :: subs) b) : ∀ s' ∈ subs, s'.fileOffset = 0 := by
  cases h with
  | toEnd _ _ _ _ _ _ opens => exact opens
  | last => simp

/-- The last subpiece is not empty. -/
theorem Covers.last_len {a b : Int} {subs : List Subpiece} {s : Subpiece}
    (h : Covers files a (subs ++ [s]) b) (hab : a < b) : 0 < s.len := by
  induction subs generalizing a with
  | nil =>
    have hsum := h.sum_len
    rw [List.nil_append, List.map_singleton, List.sum_singleton] at hsum
    omega
  | cons s₀ subs ih =>
    rw [List.cons_append] at h
    generalize hrest : subs ++ [s] = rest at h
    cases h with
    | toEnd _ _ _ _ rest more _ =>
      rw [← hrest] at rest more
      exact ih rest (more (by simp))
    | last => simp at hrest

/-- Every position on the way is in one of the subpieces. -/
theorem Covers.exists_part {a b x : Int} {subs : List Subpiece} (h : Covers files a subs b)
    (hle : a ≤ x) (hlt : x < b) :
    ∃ s ∈ subs, ∃ k, PartOf files s k ∧ fileStart files k + s.fileOffset ≤ x ∧
      x < fileStart files k + s.fileOffset + s.len := by
  induction h with
  | nil a => omega
  | @toEnd s k f subs a b part start _ _ _ _ _ ih =>
    by_cases hin : x < a + s.len
    · exact ⟨s, List.mem_cons_self .., k, part, by omega, by omega⟩
    · obtain ⟨s', hs', hrest⟩ := ih (by omega) hlt
      exact ⟨s', List.mem_cons_of_mem _ hs', hrest⟩
  | @last s k a b part start stop =>
    exact ⟨s, List.mem_singleton_self s, k, part, by omega, by omega⟩

/-! ### The inner loop -/

theorem openFile_cursorAt (hnonneg : ∀ f ∈ files, 0 ≤ f.length) (garbage : Nat → Int)
    {k : Nat} (hk : k ≤ files.length) :
    ∃ c, openFile files (fun i => some (garbage i)) k = .ok c ∧ c.curFile = k ∧
      c.totSize = c.remSize ∧ CursorAt files c (fileStart files k) := by
  by_cases hlt : k < files.length
  · have hget : files[k]? = some files[k] := List.getElem?_eq_getElem hlt
    have h0 := hnonneg files[k] (List.getElem_mem hlt)
    refine ⟨⟨k, files[k].length, files[k].length⟩, ?_, rfl, rfl, ?_⟩
    · simp [openFile, uncheckedGet, hget]
    · exact cursorAt_open hget h0
  · have hk' : k = files.length := by omega
    -- Past the last file: whatever was read there is in the cursor.
    subst hk'
    refine ⟨⟨files.length, garbage files.length, garbage files.length⟩, ?_, rfl, rfl, ?_⟩
    · simp [openFile, uncheckedGet]
    · rw [fileStart_length]
      exact .finished rfl

theorem fileName_of_getElem? {k : Nat} {f : File} (h : files[k]? = some f) :
    fileName files k = .ok f.filename := by
  simp [fileName, h]

/-- A round of the loop moves the position by the length of the subpiece it
    adds; what is left of the piece shrinks by as much. -/
theorem fillPiece_covers (garbage : Nat → Int) (hnonneg : ∀ f ∈ files, 0 ≤ f.length)
    {n : Nat} {c : Cursor} {pos r : Int} {subs : List Subpiece} (hc : CursorAt files c pos)
    (hr : 0 ≤ r) (hend : pos + r ≤ totalLength files)
    (hn : files.length + 2 ≤ n + c.curFile) :
    ∃ new c', fillPiece files (fun i => some (garbage i)) n c r subs = .ok (subs ++ new, c') ∧
      CursorAt files c' (pos + r) ∧ Covers files pos new (pos + r) ∧ (new ≠ [] ↔ 0 < r) ∧
      ∀ s ∈ new.head?, s.fileOffset = c.totSize - c.remSize := by
  induction n generalizing c pos r subs with
  | zero =>
    have := hc.le_length
    omega
  | succ n ih =>
    rw [fillPiece]
    by_cases hpos : 0 < r
    · obtain ⟨f, hf, htot, hrem0, hrem, rfl⟩ := hc.exists_file (by omega)
      obtain ⟨hlt, _⟩ := List.getElem?_eq_some_iff.mp hf
      rw [if_pos hpos, fileName_of_getElem? hf, ok_bind, htot]
      by_cases hfill : c.remSize ≤ r
      · -- The file ends inside the piece.
        obtain ⟨next, hnext, hcur, hopen, hcn⟩ := openFile_cursorAt hnonneg garbage
          (show c.curFile + 1 ≤ files.length by omega)
        rw [fileStart_succ hf] at hcn
        obtain ⟨new, c', hrun, hc', hcov, hne, hhead⟩ :=
          @ih next _ (r - c.remSize) (subs ++ [⟨f.filename, f.length - c.remSize, c.remSize⟩])
            hcn (by omega) (by omega) (by omega)
        have hfinal : fileStart files c.curFile + f.length + (r - c.remSize)
            = fileStart files c.curFile + (f.length - c.remSize) + r := by omega
        rw [hfinal] at hc' hcov
        have hstep : fileStart files c.curFile + (f.length - c.remSize) + c.remSize
            = fileStart files c.curFile + f.length := by omega
        rw [if_pos hfill, hnext, ok_bind, hrun, List.append_assoc, List.singleton_append]
        refine ⟨_, c', rfl, hc', ?_, by simp [hpos], by simp⟩
        have hpart := partOf_of_le hf hrem hrem0 (le_refl c.remSize)
        apply Covers.toEnd hpart rfl hf (sub_add_cancel _ _)
        · show Covers files (fileStart files c.curFile + (f.length - c.remSize) + c.remSize) _ _
          rw [hstep]
          exact hcov
        · intro hnew
          have := hne.mp hnew
          show fileStart files c.curFile + (f.length - c.remSize) + c.remSize < _
          omega
        · cases new with
          | nil => simp
          | cons s new =>
            rw [hopen, sub_self] at hhead
            exact List.forall_mem_cons.mpr ⟨hhead s rfl, hcov.tail_offset⟩
      · -- The piece ends inside the file, the next round is the last.
        obtain ⟨m, rfl⟩ : ∃ m, n = m + 1 := ⟨n - 1, by omega⟩
        rw [if_neg hfill, fillPiece, if_neg (by omega)]
        have hpart := partOf_of_le hf hrem hr (show r ≤ c.remSize by omega)
        exact ⟨_, _, rfl, cursorAt_advance hf hrem hr (by omega), Covers.last hpart rfl rfl,
          by simp [hpos], by simp⟩
    · have hr0 : r = 0 := by omega
      subst hr0
      rw [if_neg hpos, add_zero]
      exact ⟨[], c, by rw [List.append_nil], hc, .nil pos, by simp, by simp⟩

/-! ### The loop over the pieces -/

variable {d : TorrentFile}

/-- Where a piece ends: at the start of the next one or at the very end. -/
def pieceEnd (d : TorrentFile) (index : Int) : Int :=
  min ((index + 1) * d.pieceLength) d.length

/-- A piece starts before the end of the torrent. -/
theorem start_lt_length (hd : d.Valid) {index : Int} (hlt : index < d.piecesCount) :
    index * d.pieceLength < d.length := by
  have hpos := hd.pieceLength_pos
  have hbounds := hd.piecesCount_bounds.1
  have hle : index * d.pieceLength ≤ (d.piecesCount - 1) * d.pieceLength :=
    Int.mul_le_mul_of_nonneg_right (by omega) (by omega)
  omega

/-- The length `try_download` computes is the length of the section. -/
theorem pieceLength_eq (hd : d.Valid) {index : Int} (hlt : index < d.piecesCount) :
    Download.pieceLength d index = pieceEnd d index - index * d.pieceLength := by
  have hnext : (index + 1) * d.pieceLength = index * d.pieceLength + d.pieceLength := by ring
  unfold Download.pieceLength pieceEnd
  by_cases hlast : index = d.piecesCount - 1
  · have hbounds := hd.piecesCount_bounds.2
    -- The last piece is cut off at the end of the torrent.
    rw [if_pos hlast, min_eq_right, hlast]
    rw [hlast, show d.piecesCount - 1 + 1 = d.piecesCount by omega]
    exact hbounds
  · have hstart := start_lt_length hd (show index + 1 < d.piecesCount by omega)
    rw [if_neg hlast, min_eq_left (le_of_lt hstart)]
    omega

theorem pieceLength_pos (hd : d.Valid) {index : Int} (hlt : index < d.piecesCount) :
    0 < Download.pieceLength d index := by
  have hpos := hd.pieceLength_pos
  have hstart := start_lt_length hd hlt
  have hnext : (index + 1) * d.pieceLength = index * d.pieceLength + d.pieceLength := by ring
  rw [pieceLength_eq hd hlt, pieceEnd, hnext]
  omega

theorem mapPiece_covers (garbage : Nat → Int) (hd : d.Valid) (index : Int) {len pos : Int}
    {c : Cursor}
    (hc : CursorAt d.files c pos) (hlen : 0 < len) (hend : pos + len ≤ totalLength d.files) :
    ∃ p c', mapPiece d (fun i => some (garbage i)) index len c = .ok (p, c') ∧
      p.index = index ∧ CursorAt d.files c' (pos + len) ∧
      Covers d.files pos p.subpieces (pos + len) ∧ p.subpieces ≠ [] := by
  unfold mapPiece
  by_cases hmany : c.remSize < len
  · obtain ⟨new, c', hrun, hc', hcov, hne, _⟩ :=
      fillPiece_covers garbage hd.length_nonneg (n := d.files.length + 2) hc (by omega) hend
        (by omega)
    rw [if_pos hmany, hrun, ok_bind]
    exact ⟨_, c', rfl, rfl, hc', hcov, hne.mpr hlen⟩
  · obtain ⟨f, hf, htot, hrem0, hrem, rfl⟩ := hc.exists_file (by omega)
    -- The piece ends inside the file the cursor is in.
    rw [if_neg hmany, fileName_of_getElem? hf, ok_bind, htot]
    have hpart := partOf_of_le hf hrem hlen.le (show len ≤ c.remSize by omega)
    exact ⟨_, _, rfl, rfl, cursorAt_advance hf hrem hlen.le (by omega),
      Covers.last hpart rfl rfl, by simp⟩

/-- The subpieces of `p` lead through its section of the torrent. -/
structure PieceCovers (d : TorrentFile) (p : Piece) : Prop where
  index_lt : p.index < d.piecesCount
  covers : Covers d.files (p.index * d.pieceLength) p.subpieces (pieceEnd d p.index)
  ne_nil : p.subpieces ≠ []

theorem piecesLoop_covers (garbage : Nat → Int) (hd : d.Valid) {n : Nat} {index : Int}
    {c : Cursor} (acc : List Piece) (hindex : index + n = d.piecesCount)
    (hc : CursorAt d.files c (min (index * d.pieceLength) d.length)) :
    ∃ ps, piecesLoop d (fun i => some (garbage i)) n index c acc = .ok (acc ++ ps) ∧
      ∀ p ∈ ps, PieceCovers d p := by
  induction n generalizing index c acc with
  | zero => exact ⟨[], by rw [List.append_nil]; rfl, by simp⟩
  | succ n ih =>
    have hlt : index < d.piecesCount := by omega
    have hstart := start_lt_length hd hlt
    have hlen := pieceLength_eq hd hlt
    have hpos := pieceLength_pos hd hlt
    rw [min_eq_left (le_of_lt hstart)] at hc
    have hle : pieceEnd d index ≤ d.length := min_le_right _ _
    have hend : index * d.pieceLength + Download.pieceLength d index = pieceEnd d index := by
      omega
    -- The piece moves the cursor from its start to its end, the start of the next.
    obtain ⟨p, c', hrun, hidx, hc', hcov, hne⟩ :=
      mapPiece_covers garbage hd index hc hpos (by rw [hend, ← hd.length_eq]; exact hle)
    rw [hend] at hc' hcov
    obtain ⟨ps, hrest, hps⟩ := @ih (index + 1) c' (acc ++ [p]) (by omega) hc'
    have hnext : nextPiece d (fun i => some (garbage i)) index c = .ok (p, c') := hrun
    refine ⟨p :: ps, ?_, ?_⟩
    · rw [piecesLoop, hnext, ok_bind]
      show piecesLoop d _ n (index + 1) c' (acc ++ [p]) = _
      rw [hrest, List.append_assoc, List.singleton_append]
    · intro q hq
      rcases List.mem_cons.mp hq with rfl | hq
      · subst hidx
        exact ⟨hlt, hcov, hne⟩
      · exact hps q hq

/-- `pieces()` returns on every valid descriptor, and every piece covers its
    section. -/
theorem pieces_covers (hd : d.Valid) (garbage : Nat → Int) :
    ∃ ps, pieces d (fun i => some (garbage i)) = .ok ps ∧ ∀ p ∈ ps, PieceCovers d p := by
  have hcount := hd.piecesCount_nonneg
  obtain ⟨c, hopen, _, _, hc⟩ := openFile_cursorAt hd.length_nonneg garbage (Nat.zero_le _)
  have hc0 : CursorAt d.files c (min (0 * d.pieceLength) d.length) := by
    rw [zero_mul, min_eq_left hd.total_nonneg]
    exact hc
  obtain ⟨ps, hrun, hps⟩ := piecesLoop_covers garbage hd (n := d.piecesCount.toNat) []
    (by omega) hc0
  refine ⟨ps, ?_, hps⟩
  rw [pieces, if_neg (by omega), hopen, ok_bind, hrun, List.nil_append]

/-! ### What can be read past the end

    A run that returns does so as well where more can be read. -/

section

variable {beyond beyond' : Nat → Option Int} (hle : ∀ i n, beyond i = some n → beyond' i = some n)

include hle

theorem openFile_mono {k : Nat} {c : Cursor} (h : openFile files beyond k = .ok c) :
    openFile files beyond' k = .ok c := by
  rw [openFile, uncheckedGet] at h ⊢
  cases hget : (files.map File.length)[k]? with
  | some n =>
    rw [hget] at h
    exact h
  | none =>
    cases hbeyond : beyond k with
    | none => simp [hget, hbeyond] at h
    | some n =>
      rw [hget, hbeyond] at h
      rw [hle k n hbeyond]
      exact h

theorem fillPiece_mono {n : Nat} {c : Cursor} {r : Int} {subs : List Subpiece}
    {result : List Subpiece × Cursor} (h : fillPiece files beyond n c r subs = .ok result) :
    fillPiece files beyond' n c r subs = .ok result := by
  induction n generalizing c r subs with
  | zero => injection h
  | succ n ih =>
    rw [fillPiece] at h ⊢
    by_cases hpos : 0 < r
    · rw [if_pos hpos] at h ⊢
      obtain ⟨name, hname, h⟩ := bind_eq_ok.mp h
      rw [hname, ok_bind]
      by_cases hfill : c.remSize ≤ r
      · rw [if_pos hfill] at h ⊢
        obtain ⟨next, hnext, h⟩ := bind_eq_ok.mp h
        rw [openFile_mono hle hnext, ok_bind]
        exact ih h
      · rw [if_neg hfill] at h ⊢
        exact ih h
    · rw [if_neg hpos] at h ⊢
      exact h

theorem mapPiece_mono {index len : Int} {c : Cursor} {result : Piece × Cursor}
    (h : mapPiece d beyond index len c = .ok result) :
    mapPiece d beyond' index len c = .ok result := by
  unfold mapPiece at h ⊢
  split at h
  · next hmany =>
    obtain ⟨filled, hfilled, h⟩ := bind_eq_ok.mp h
    rw [if_pos hmany, fillPiece_mono hle hfilled]
    exact h
  · next hone =>
    rw [if_neg hone]
    exact h

theorem piecesLoop_mono {n : Nat} {index : Int} {c : Cursor} {acc ps : List Piece}
    (h : piecesLoop d beyond n index c acc = .ok ps) :
    piecesLoop d beyond' n index c acc = .ok ps := by
  induction n generalizing index c acc with
  | zero => exact h
  | succ n ih =>
    rw [piecesLoop] at h ⊢
    obtain ⟨piece, hpiece, h⟩ := bind_eq_ok.mp h
    have hnext : nextPiece d beyond' index c = .ok piece := mapPiece_mono hle hpiece
    rw [hnext]
    exact ih h

theorem pieces_mono {ps : List Piece} (h : pieces d beyond = .ok ps) :
    pieces d beyond' = .ok ps := by
  rw [pieces] at h ⊢
  split at h
  · injection h
  · next hcount =>
    obtain ⟨c, hopen, h⟩ := bind_eq_ok.mp h
    rw [if_neg hcount, openFile_mono hle hopen, ok_bind]
    exact piecesLoop_mono hle h

end

/-- Whatever `pieces()` returns covers the files. -/
theorem covers_of_pieces (hd : d.Valid) {beyond : Nat → Option Int} {ps : List Piece}
    (h : pieces d beyond = .ok ps) : ∀ p ∈ ps, PieceCovers d p := by
  obtain ⟨ps', hps', hcovers⟩ := pieces_covers hd fun i => (beyond i).getD 0
  have htotal : pieces d (fun i => some ((beyond i).getD 0)) = .ok ps :=
    pieces_mono (fun i n hn => by rw [hn]; rfl) h
  obtain rfl : ps = ps' := Except.ok.inj (htotal.symm.trans hps')
  exact hcovers

/-- The pieces of a valid descriptor are numbered in order, walking through
    the subpieces of a piece visits the positions of its section in order,
    every subpiece stays inside the file it names, and the lengths add up
    to the length `try_download` asks for. The lengths read past the last
    file do not matter. -/
theorem pieces_tile_files (hd : d.Valid) (garbage : Nat → Int) :
    ∃ ps, pieces d (fun i => some (garbage i)) = .ok ps ∧
      ps.map Piece.index = Int.range 0 d.piecesCount ∧
      ∀ p ∈ ps,
        (∃ ks : List Nat, List.Forall₂ (PartOf d.files) p.subpieces ks ∧
          ((p.subpieces.zip ks).map (segment d.files)).flatMap Segment.positions
            = Int.range (p.index * d.pieceLength)
                (min ((p.index + 1) * d.pieceLength) d.length)) ∧
        (p.subpieces.map Subpiece.len).sum = Download.pieceLength d p.index := by
  obtain ⟨ps, hrun, hps⟩ := pieces_covers hd garbage
  refine ⟨ps, hrun, pieces_index hrun, ?_⟩
  intro p hp
  obtain ⟨hlt, hcov, _⟩ := hps p hp
  obtain ⟨ks, hparts, htiles⟩ := hcov.tiles
  exact ⟨⟨ks, hparts, htiles.positions⟩, by rw [hcov.sum_len, pieceLength_eq hd hlt]⟩

/-- Three files, the second one empty: the first piece takes in all of the
    first file and ends in the third. -/
def threeFiles : TorrentFile where
  pieceLength := 4
  length := 6
  piecesCount := 2
  files := [⟨[[97]], 3⟩, ⟨[[98]], 0⟩, ⟨[[99], [100]], 3⟩]

theorem threeFiles_valid : threeFiles.Valid where
  files_ne_nil := by decide
  length_nonneg := by decide
  length_eq := by decide
  pieceLength_pos := by decide
  piecesCount_eq := by decide

theorem pieces_tile_files_threeFiles :
    ∃ ps, pieces threeFiles (fun _ => some 0) = .ok ps ∧ ps.map Piece.index = [0, 1] := by
  obtain ⟨ps, hrun, hindex, _⟩ := pieces_tile_files threeFiles_valid (fun _ => 0)
  exact ⟨ps, hrun, hindex⟩

-- The names are "a", "b" and "c/d".
example : pieces threeFiles (fun _ => some 0) = .ok
    [⟨0, [⟨[97], 0, 3⟩, ⟨[98], 0, 0⟩, ⟨[99, 47, 100], 0, 1⟩]⟩, ⟨1, [⟨[99, 47, 100], 1, 2⟩]⟩] := by
  decide

end Furrent.Torrent
