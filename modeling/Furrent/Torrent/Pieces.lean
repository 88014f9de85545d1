import Furrent.Framework.Cpp
import Furrent.Framework.Tiling
import Furrent.Torrent.Descriptor

/-! # Generating the pieces of a torrent

    Model of `Torrent::pieces()` in `src/torrent.cpp`. Two nested loops
    share a cursor into the list of files; the outer one runs over the
    pieces, the inner one over the files a piece reaches into.

    `files[cur_file]` is not bounds checked, and the inner loop reads the
    length of the next file as soon as it is done with one, also after the
    last. What a length read past the end of the list yields is a
    parameter, `none` meaning that the access traps. There is no string to
    be had from a name read past the end; that always traps. -/

namespace Furrent.Torrent

open Cpp

/-- `cur_file`, `cur_file_tot_size` and `cur_file_rem_size`. -/
structure Cursor where
  curFile : Nat
  totSize : Int
  remSize : Int
  deriving DecidableEq, Repr

section

variable (files : List File) (beyond : Nat → Option Int)

/-- Move the cursor to the start of file `i`, reading `files[i].length`. -/
def openFile (i : Nat) : Outcome Empty Cursor :=
  match uncheckedGet (files.map File.length) beyond i with
  | some n => .ok ⟨i, n, n⟩
  | none => .error .trap

/-- `files[i].filename()`. -/
def fileName (i : Nat) : Outcome Empty Bytes :=
  match files[i]? with
  | some f => .ok f.filename
  | none => .error .trap

/-- The loop `while (piece_rem_len > 0)`, at most `n` times. -/
def fillPiece : Nat → Cursor → Int → List Subpiece → Outcome Empty (List Subpiece × Cursor)
  | 0, _, _, _ => .error .outOfFuel
  | n + 1, c, pieceRemLen, subpieces =>
    if 0 < pieceRemLen then do
      let offset := c.totSize - c.remSize
      let pieceFilename ← fileName files c.curFile
      -- Can fill entire file in the piece
      if c.remSize ≤ pieceRemLen then do
        let next ← openFile files beyond (c.curFile + 1)
        fillPiece n next (pieceRemLen - c.remSize)
          (subpieces ++ [⟨pieceFilename, offset, c.remSize⟩])
      else
        fillPiece n { c with remSize := c.remSize - pieceRemLen } 0
          (subpieces ++ [⟨pieceFilename, offset, pieceRemLen⟩])
    else .ok (subpieces, c)

end

section

variable (d : TorrentFile) (beyond : Nat → Option Int)

/-- Map a piece of length `pieceLength` to the files. -/
def mapPiece (index pieceLength : Int) (c : Cursor) : Outcome Empty (Piece × Cursor) :=
  -- Must create multiple subpieces
  if c.remSize < pieceLength then do
    let (subpieces, c) ← fillPiece d.files beyond (d.files.length + 2) c pieceLength []
    .ok (⟨index, subpieces⟩, c)
  -- Single "piece/file" mapping
  else do
    let pieceFilename ← fileName d.files c.curFile
    .ok (⟨index, [⟨pieceFilename, c.totSize - c.remSize, pieceLength⟩]⟩,
      { c with remSize := c.remSize - pieceLength })

/-- The body of the loop over the pieces. The last piece may be shorter. -/
def nextPiece (index : Int) (c : Cursor) : Outcome Empty (Piece × Cursor) :=
  let pieceLength :=
    if index = d.piecesCount - 1 then d.length - (d.piecesCount - 1) * d.pieceLength
    else d.pieceLength
  mapPiece d beyond index pieceLength c

/-- The loop over the pieces: `n` pieces are left, `index` is the next. -/
def piecesLoop : Nat → Int → Cursor → List Piece → Outcome Empty (List Piece)
  | 0, _, _, pieces => .ok pieces
  | n + 1, index, c, pieces => do
    let (piece, c) ← nextPiece d beyond index c
    piecesLoop n (index + 1) c (pieces ++ [piece])

/-- `Torrent::pieces()`. A negative count is refused by `reserve`. -/
def pieces : Outcome Empty (List Piece) :=
  if d.piecesCount < 0 then .error (.throw (.lengthError "vector::reserve"))
  else do
    let c ← openFile d.files beyond 0
    piecesLoop d beyond d.piecesCount.toNat 0 c []

end

/-! ### Indices

    Whatever the descriptor says, the pieces that are returned are numbered
    from zero on. -/

section

variable {d : TorrentFile} {beyond : Nat → Option Int}

theorem mapPiece_index {index pieceLength : Int} {c c' : Cursor} {p : Piece}
    (h : mapPiece d beyond index pieceLength c = .ok (p, c')) : p.index = index := by
  unfold mapPiece at h
  split at h
  · obtain ⟨⟨subpieces, c''⟩, _, h⟩ := bind_eq_ok.mp h
    injection h with h
    injection h with hp _
    rw [← hp]
  · obtain ⟨pieceFilename, _, h⟩ := bind_eq_ok.mp h
    injection h with h
    injection h with hp _
    rw [← hp]

theorem piecesLoop_index {n : Nat} {index : Int} {c : Cursor} {acc ps : List Piece}
    (h : piecesLoop d beyond n index c acc = .ok ps) :
    ps.map Piece.index = acc.map Piece.index ++ Int.range index (index + n) := by
  induction n generalizing index c acc with
  | zero =>
    injection h with h
    simp [h, Int.range]
  | succ n ih =>
    obtain ⟨⟨p, c'⟩, hp, h⟩ := bind_eq_ok.mp h
    rw [ih h, List.map_append, List.map_singleton, mapPiece_index hp,
      Tiling.range_cons (a := index) (by omega), List.append_assoc, List.singleton_append]
    congr 3
    omega

theorem piecesCount_nonneg_of_pieces {ps : List Piece} (h : pieces d beyond = .ok ps) :
    0 ≤ d.piecesCount := by
  by_contra hneg
  rw [pieces, if_pos (by omega)] at h
  injection h

/-- The pieces have the indices `0, …, pieces_count - 1`. -/
theorem pieces_index {ps : List Piece} (h : pieces d beyond = .ok ps) :
    ps.map Piece.index = Int.range 0 d.piecesCount := by
  unfold pieces at h
  by_cases hneg : d.piecesCount < 0
  · rw [if_pos hneg] at h
    injection h
  · rw [if_neg hneg] at h
    obtain ⟨c, _, h⟩ := bind_eq_ok.mp h
    rw [piecesLoop_index h, List.map_nil, List.nil_append]
    congr 1
    omega

end

/-! ### File names

    A subpiece has the name of one of the files. -/

section

variable {files : List File} {beyond : Nat → Option Int}

/-- The subpiece is said to lie in one of the files. -/
def Named (files : List File) (s : Subpiece) : Prop := ∃ f ∈ files, s.filepath = f.filename

theorem fileName_eq_ok {i : Nat} {name : Bytes} (h : fileName files i = .ok name) :
    ∃ f ∈ files, name = f.filename := by
  unfold fileName at h
  split at h
  · next f hf =>
    injection h with h
    exact ⟨f, List.mem_of_getElem? hf, h.symm⟩
  · injection h

theorem fillPiece_named {n : Nat} {c c' : Cursor} {r : Int} {subs subs' : List Subpiece}
    (h : fillPiece files beyond n c r subs = .ok (subs', c'))
    (hsubs : ∀ s ∈ subs, Named files s) : ∀ s ∈ subs', Named files s := by
  induction n generalizing c r subs with
  | zero => injection h
  | succ n ih =>
    rw [fillPiece] at h
    split at h
    · obtain ⟨name, hname, h⟩ := bind_eq_ok.mp h
      obtain ⟨f, hf, hfile⟩ := fileName_eq_ok hname
      have hnext : ∀ offset len, ∀ s ∈ subs ++ [⟨name, offset, len⟩], Named files s := by
        intro offset len s hs
        rcases List.mem_append.mp hs with hs | hs
        · exact hsubs s hs
        · rw [List.mem_singleton.mp hs]
          exact ⟨f, hf, hfile⟩
      split at h
      · obtain ⟨next, _, h⟩ := bind_eq_ok.mp h
        exact ih h (hnext _ _)
      · exact ih h (hnext _ _)
    · injection h with h
      injection h with h _
      rw [← h]
      exact hsubs

theorem mapPiece_named {d : TorrentFile} {index pieceLength : Int} {c c' : Cursor} {p : Piece}
    (h : mapPiece d beyond index pieceLength c = .ok (p, c')) :
    ∀ s ∈ p.subpieces, Named d.files s := by
  unfold mapPiece at h
  split at h
  · obtain ⟨⟨subpieces, c''⟩, hfill, h⟩ := bind_eq_ok.mp h
    injection h with h
    injection h with hp _
    rw [← hp]
    exact fillPiece_named hfill (by simp)
  · obtain ⟨name, hname, h⟩ := bind_eq_ok.mp h
    obtain ⟨f, hf, hfile⟩ := fileName_eq_ok hname
    injection h with h
    injection h with hp _
    intro s hs
    rw [← hp] at hs
    rw [List.mem_singleton.mp hs]
    exact ⟨f, hf, hfile⟩

theorem piecesLoop_named {d : TorrentFile} {n : Nat} {index : Int} {c : Cursor}
    {acc ps : List Piece} (h : piecesLoop d beyond n index c acc = .ok ps)
    (hacc : ∀ p ∈ acc, ∀ s ∈ p.subpieces, Named d.files s) :
    ∀ p ∈ ps, ∀ s ∈ p.subpieces, Named d.files s := by
  induction n generalizing index c acc with
  | zero =>
    injection h with h
    rw [← h]
    exact hacc
  | succ n ih =>
    obtain ⟨⟨p, c'⟩, hp, h⟩ := bind_eq_ok.mp h
    refine ih h ?_
    intro q hq
    rcases List.mem_append.mp hq with hq | hq
    · exact hacc q hq
    · rw [List.mem_singleton.mp hq]
      exact mapPiece_named hp

theorem pieces_named {d : TorrentFile} {ps : List Piece} (h : pieces d beyond = .ok ps) :
    ∀ p ∈ ps, ∀ s ∈ p.subpieces, Named d.files s := by
  unfold pieces at h
  split at h
  · injection h
  · obtain ⟨c, _, h⟩ := bind_eq_ok.mp h
    exact piecesLoop_named h (by simp)

end

/-! ### The bound of the inner loop

    Each round leaves the loop or moves on to the next file, and there is
    no round past the last file. -/

section

variable {files : List File} {beyond : Nat → Option Int}

theorem openFile_ne_outOfFuel (i : Nat) : openFile files beyond i ≠ .error .outOfFuel := by
  unfold openFile
  split <;> simp

theorem fileName_ne_outOfFuel (i : Nat) : fileName files i ≠ .error .outOfFuel := by
  unfold fileName
  split <;> simp

theorem openFile_curFile {i : Nat} {c : Cursor} (h : openFile files beyond i = .ok c) :
    c.curFile = i := by
  unfold openFile at h
  split at h
  · injection h with h
    rw [← h]
  · injection h

theorem lt_of_fileName {i : Nat} {name : Bytes} (h : fileName files i = .ok name) :
    i < files.length := by
  by_contra hge
  rw [fileName, List.getElem?_eq_none (by omega)] at h
  injection h

theorem fillPiece_ne_outOfFuel {n : Nat} {c : Cursor}
    (hn : files.length + 2 ≤ n + c.curFile) (hpos : 0 < n) (r : Int) (subs : List Subpiece) :
    fillPiece files beyond n c r subs ≠ .error .outOfFuel := by
  induction n generalizing c r subs with
  | zero => omega
  | succ n ih =>
    rw [fillPiece]
    by_cases hr : 0 < r
    · rw [if_pos hr]
      apply bind_ne_error (fileName_ne_outOfFuel _)
      intro name hname
      have hlt := lt_of_fileName hname
      by_cases hrem : c.remSize ≤ r
      · rw [if_pos hrem]
        apply bind_ne_error (openFile_ne_outOfFuel _)
        intro next hnext
        have hcur := openFile_curFile hnext
        exact ih (by omega) (by omega) _ _
      · -- Nothing is left of the piece, the next round is the last.
        obtain ⟨m, rfl⟩ : ∃ m, n = m + 1 := ⟨n - 1, by omega⟩
        rw [if_neg hrem, fillPiece, if_neg (by omega)]
        simp
    · rw [if_neg hr]
      simp

theorem mapPiece_ne_outOfFuel {d : TorrentFile} (index pieceLength : Int) (c : Cursor) :
    mapPiece d beyond index pieceLength c ≠ .error .outOfFuel := by
  unfold mapPiece
  split
  · apply bind_ne_error (fillPiece_ne_outOfFuel (by omega) (by omega) _ _)
    intro r _
    simp
  · apply bind_ne_error (fileName_ne_outOfFuel _)
    intro name _
    simp

theorem piecesLoop_ne_outOfFuel {d : TorrentFile} (n : Nat) (index : Int) (c : Cursor)
    (acc : List Piece) : piecesLoop d beyond n index c acc ≠ .error .outOfFuel := by
  induction n generalizing index c acc with
  | zero => simp [piecesLoop]
  | succ n ih =>
    apply bind_ne_error (mapPiece_ne_outOfFuel _ _ _)
    intro r _
    exact ih _ _ _

/-- `pieces()` returns, throws or traps for every descriptor. -/
theorem pieces_ne_outOfFuel (d : TorrentFile) (beyond : Nat → Option Int) :
    pieces d beyond ≠ .error .outOfFuel := by
  unfold pieces
  by_cases hneg : d.piecesCount < 0
  · rw [if_pos hneg]
    simp
  · rw [if_neg hneg]
    apply bind_ne_error (openFile_ne_outOfFuel _)
    intro c _
    exact piecesLoop_ne_outOfFuel _ _ _ _

end

end Furrent.Torrent
