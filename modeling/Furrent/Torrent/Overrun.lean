import Furrent.Torrent.Coverage
import Furrent.Torrent.Acceptance

/-! # Accesses past the last file

    `pieces()` reads the length of the next file as soon as a file is used
    up inside of a piece that needs several subpieces. If the very last
    piece needs several, and uses up the last file, there is no next file.
    An empty last file saves it: the piece is complete before that file is
    used up. A torrent without files has no first file to begin with.

    Whether the last piece needs several subpieces is a matter of where it
    begins. If it begins with the first byte of the last file, it is a matter
    of whether the cursor has moved on to that file, and this depends on all
    the files before that are as long as a piece: `entered`.

    To see the accesses, nothing can be read past the end of the list here:
    such an access traps. -/

namespace Furrent.Torrent

open Cpp

variable {files : List File} {d : TorrentFile} {c c' : Cursor} {pos r len : Int} {n : Nat}
  {subs : List Subpiece}

/-- Every access `files[cur_file]` of `pieces()` is inside of the list. -/
def InRange (d : TorrentFile) : Prop := pieces d (fun _ => none) ≠ .error .trap

/-- The last file is empty. -/
def LastFileEmpty (files : List File) : Prop := ∃ f, files.getLast? = some f ∧ f.length = 0

/-- Has `pieces()` moved on to file `k` when the first byte of the file is the
    first one of a piece? A file that is used up by a piece of its own is not
    left, one that is used up by a piece that began before it is. So a file as
    long as a piece is left if the file before it was not. -/
def entered (files : List File) (pieceLength : Int) : Nat → Bool
  | 0 => true
  | k + 1 =>
    match files[k]? with
    | none => false
    | some f => 0 < f.length ∧
        (f.length < pieceLength ∨ f.length = pieceLength ∧ entered files pieceLength k = false)

/-- There is a file, and the last one is empty, or there is no piece, or the
    last piece begins inside of the last file; if it begins with the first byte
    of that file, `pieces()` has to have moved on to it. -/
def EndsInside (d : TorrentFile) : Prop :=
  ∃ f, d.files.getLast? = some f ∧ (f.length = 0 ∨ d.piecesCount = 0 ∨
    d.length - f.length < (d.piecesCount - 1) * d.pieceLength ∨
    d.length - f.length = (d.piecesCount - 1) * d.pieceLength ∧
      entered d.files d.pieceLength (d.files.length - 1) = true)

/-! ### Positions of files -/

theorem fileStart_mono (hnonneg : ∀ f ∈ files, 0 ≤ f.length) {j k : Nat} (hjk : j ≤ k) :
    fileStart files j ≤ fileStart files k := by
  induction hjk with
  | refl => exact le_refl _
  | @step k _ ih =>
    show fileStart files j ≤ fileStart files (k + 1)
    cases hf : files[k]? with
    | none =>
      have hlen : files.length ≤ k := List.getElem?_eq_none_iff.mp hf
      have hsame : fileStart files (k + 1) = fileStart files k := by
        rw [fileStart, fileStart, List.take_of_length_le (by omega), List.take_of_length_le hlen]
      omega
    | some f =>
      have h0 := hnonneg f (List.mem_of_getElem? hf)
      rw [fileStart_succ hf]
      omega

theorem fileStart_nonneg (hnonneg : ∀ f ∈ files, 0 ≤ f.length) (k : Nat) :
    0 ≤ fileStart files k := by
  have hmono := fileStart_mono hnonneg (Nat.zero_le k)
  rwa [fileStart_zero] at hmono

/-- The last file is empty just when it starts at the very end. -/
theorem lastFileEmpty_iff {k : Nat} (hk : k + 1 = files.length) :
    LastFileEmpty files ↔ fileStart files k = totalLength files := by
  have hlast : files.getLast? = some files[k] := by
    rw [List.getLast?_eq_getElem?, show files.length - 1 = k by omega, List.getElem?_eq_getElem]
  have hsum := fileStart_succ (List.getElem?_eq_getElem (show k < files.length by omega))
  rw [hk, fileStart_length] at hsum
  constructor
  · intro h
    obtain ⟨f, hf, hzero⟩ := h
    rw [hlast] at hf
    injection hf with hf
    rw [hf] at hsum
    omega
  · intro h
    exact ⟨files[k], hlast, by omega⟩

/-! ### Opening files -/

theorem openFile_of_lt (beyond : Nat → Option Int) {k : Nat} {f : File} (hf : files[k]? = some f) :
    openFile files beyond k = .ok ⟨k, f.length, f.length⟩ := by
  simp [openFile, uncheckedGet, hf]

theorem openFile_past {k : Nat} (hk : files.length ≤ k) :
    openFile files (fun _ => none) k = .error .trap := by
  simp [openFile, uncheckedGet, List.getElem?_eq_none hk]

/-! ### A piece with several subpieces -/

/-- The cursor is in a file, at position `pos`. -/
structure CursorIn (files : List File) (c : Cursor) (pos : Int) : Prop where
  at_pos : CursorAt files c pos
  in_file : c.curFile < files.length

theorem CursorIn.file (h : CursorIn files c pos) :
    ∃ f, files[c.curFile]? = some f ∧ c.totSize = f.length ∧ 0 ≤ c.remSize ∧
      c.remSize ≤ f.length ∧ pos = fileStart files c.curFile + (f.length - c.remSize) := by
  obtain ⟨hat, hlt⟩ := h
  cases hat with
  | @inside k f rem file nonneg le => exact ⟨f, file, rfl, nonneg, le, rfl⟩
  | finished curFile => omega

/-- Where several subpieces lead to: inside of a file, or to the first byte of a
    file that is not preceded by an empty one. -/
inductive Landed (files : List File) (c : Cursor) (pos : Int) : Prop where
  | inside (begun : fileStart files c.curFile < pos) (left : 0 < c.remSize)
  | start {k : Nat} {f : File} (curFile : c.curFile = k + 1) (file : files[k]? = some f)
      (nonempty : 0 < f.length) (at_start : fileStart files (k + 1) = pos)

/-- A piece that ends before the very end, or that an empty file follows,
    stays inside of the list. -/
theorem fillPiece_inRange (hnonneg : ∀ f ∈ files, 0 ≤ f.length) (hc : CursorIn files c pos)
    (subs : List Subpiece) (hr : 0 ≤ r) (hend : pos + r < totalLength files ∨
      pos + r = totalLength files ∧ LastFileEmpty files)
    (hn : files.length + 2 ≤ n + c.curFile) :
    ∃ subs' c', fillPiece files (fun _ => none) n c r subs = .ok (subs', c') ∧
      CursorIn files c' (pos + r) ∧ (0 < r → Landed files c' (pos + r)) := by
  induction n generalizing c pos r subs with
  | zero =>
    have := hc.in_file
    omega
  | succ n ih =>
    have hcur := hc.in_file
    rw [fillPiece]
    by_cases hpos : 0 < r
    · obtain ⟨f, hf, htot, hrem0, hrem, rfl⟩ := hc.file
      rw [if_pos hpos, fileName_of_getElem? hf, ok_bind]
      by_cases hfill : c.remSize ≤ r
      · -- The file is used up: it is not the last one.
        have hnext : c.curFile + 1 < files.length := by
          by_contra hlast
          have hk : c.curFile + 1 = files.length := by omega
          have hstart := fileStart_succ hf
          rw [hk, fileStart_length] at hstart
          rcases hend with hlt | ⟨_, hempty⟩
          · omega
          · rw [lastFileEmpty_iff hk] at hempty
            omega
        have hf' := List.getElem?_eq_getElem hnext
        have hopened : CursorIn files ⟨c.curFile + 1, files[c.curFile + 1].length,
            files[c.curFile + 1].length⟩ (fileStart files c.curFile + f.length) := by
          refine ⟨?_, hnext⟩
          rw [← fileStart_succ hf]
          exact cursorAt_open hf' (hnonneg _ (List.getElem_mem hnext))
        have hsame : fileStart files c.curFile + (f.length - c.remSize) + r
            = fileStart files c.curFile + f.length + (r - c.remSize) := by omega
        rw [hsame] at hend ⊢
        rw [if_pos hfill, openFile_of_lt _ hf', ok_bind]
        obtain ⟨subs', c', hrun, hc', hlanded⟩ :=
          ih hopened (subs ++ [⟨f.filename, c.totSize - c.remSize, c.remSize⟩]) (by omega) hend
            (by simp only; omega)
        refine ⟨subs', c', hrun, hc', fun _ => ?_⟩
        by_cases hleft : 0 < r - c.remSize
        · exact hlanded hleft
        · -- The piece ends with the file, and the loop with the next one.
          obtain ⟨m, rfl⟩ : ∃ m, n = m + 1 := ⟨n - 1, by omega⟩
          rw [fillPiece, if_neg hleft] at hrun
          injection hrun with hrun
          injection hrun with _ hcursor
          rw [← hcursor]
          refine .start rfl hf (by omega) ?_
          rw [fileStart_succ hf]
          omega
      · -- The piece ends inside the file, the next round is the last.
        obtain ⟨m, rfl⟩ : ∃ m, n = m + 1 := ⟨n - 1, by omega⟩
        rw [if_neg hfill, fillPiece, if_neg (by omega)]
        refine ⟨_, _, rfl, ⟨?_, hcur⟩, fun _ => .inside (by simp only; omega) (by simp only; omega)⟩
        rw [htot]
        exact cursorAt_advance hf hrem hr (by omega)
    · have hr0 : r = 0 := by omega
      subst hr0
      rw [if_neg hpos, add_zero]
      exact ⟨subs, c, rfl, hc, fun hlt => absurd hlt hpos⟩

/-- A piece that ends at the end of the last file goes past it. -/
theorem fillPiece_trap (hnonneg : ∀ f ∈ files, 0 ≤ f.length) (hc : CursorIn files c pos)
    (hr : 0 < r) (hend : pos + r = totalLength files) (hlast : ¬ LastFileEmpty files)
    (hn : files.length + 2 ≤ n + c.curFile) :
    fillPiece files (fun _ => none) n c r subs = .error .trap := by
  induction n generalizing c pos r subs with
  | zero =>
    have := hc.in_file
    omega
  | succ n ih =>
    have hcur := hc.in_file
    obtain ⟨f, hf, _, hrem0, hrem, rfl⟩ := hc.file
    have hstart := fileStart_succ hf
    have hle : fileStart files (c.curFile + 1) ≤ totalLength files := by
      rw [← fileStart_length]
      exact fileStart_mono hnonneg (by omega)
    rw [fillPiece, if_pos hr, fileName_of_getElem? hf, ok_bind, if_pos (by omega)]
    by_cases hnext : c.curFile + 1 < files.length
    · have hf' := List.getElem?_eq_getElem hnext
      rw [openFile_of_lt _ hf', ok_bind]
      have hopened : CursorIn files ⟨c.curFile + 1, files[c.curFile + 1].length,
          files[c.curFile + 1].length⟩ (fileStart files (c.curFile + 1)) :=
        ⟨cursorAt_open hf' (hnonneg _ (List.getElem_mem hnext)), hnext⟩
      -- Something is left of the piece, for the files behind are not all empty.
      have hleft : fileStart files (c.curFile + 1) < totalLength files := by
        by_contra hge
        apply hlast
        rw [lastFileEmpty_iff (k := files.length - 1) (by omega)]
        have hmono := fileStart_mono hnonneg (show c.curFile + 1 ≤ files.length - 1 by omega)
        have hup := fileStart_mono hnonneg (show files.length - 1 ≤ files.length by omega)
        rw [fileStart_length] at hup
        omega
      exact ih hopened (by omega) (by omega) (by simp only; omega)
    · rw [openFile_past (by omega), error_bind]

/-! ### In which file a piece begins -/

/-- If a file begins at this position, the cursor is in it just when it has
    moved on to it. -/
def Settled (d : TorrentFile) (c : Cursor) (pos : Int) : Prop :=
  ∀ k < d.files.length, fileStart d.files k = pos →
    (c.curFile = k ↔ entered d.files d.pieceLength k = true)

theorem entered_succ {k : Nat} {f : File} (hf : files[k]? = some f) (pieceLength : Int) :
    entered files pieceLength (k + 1) = true ↔ 0 < f.length ∧ (f.length < pieceLength ∨
      f.length = pieceLength ∧ entered files pieceLength k = false) := by
  rw [entered, hf]
  simp

theorem lt_of_fileStart_lt (hnonneg : ∀ f ∈ files, 0 ≤ f.length) {j k : Nat}
    (h : fileStart files j < fileStart files k) : j < k := by
  by_contra hge
  have hmono := fileStart_mono hnonneg (Nat.not_lt.mp hge)
  omega

/-- Two files with bytes in common are the same. -/
theorem eq_of_fileStart_lt (hnonneg : ∀ f ∈ files, 0 ≤ f.length) {j k : Nat}
    (hjk : fileStart files j < fileStart files (k + 1))
    (hkj : fileStart files k < fileStart files (j + 1)) : j = k := by
  have hle := lt_of_fileStart_lt hnonneg hjk
  have hge := lt_of_fileStart_lt hnonneg hkj
  omega

theorem exists_succ_of_fileStart_pos {k : Nat} (h : 0 < fileStart files k) : ∃ j, k = j + 1 := by
  cases k with
  | zero => simp at h
  | succ j => exact ⟨j, rfl⟩

/-- Before the first piece the cursor is in the first file. -/
theorem settled_start (hd : d.Valid) (hc : c.curFile = 0) : Settled d c 0 := by
  intro k hk hstart
  cases k with
  | zero => exact iff_of_true hc rfl
  | succ k =>
    have hf := List.getElem?_eq_getElem (show k < d.files.length by omega)
    have hsum := fileStart_succ hf
    have hnonneg := fileStart_nonneg hd.length_nonneg k
    rw [entered_succ hf]
    exact iff_of_false (by omega) (by omega)

/-- A piece that leaves the cursor in its file. -/
theorem Settled.single (hd : d.Valid) (hc : CursorIn d.files c pos) (h : Settled d c pos)
    (hle : d.pieceLength ≤ c.remSize) :
    Settled d { c with remSize := c.remSize - d.pieceLength } (pos + d.pieceLength) := by
  have hpl := hd.pieceLength_pos
  obtain ⟨f, hf, _, hrem0, hrem, rfl⟩ := hc.file
  have hcur := hc.in_file
  have hsucc := fileStart_succ hf
  intro k hk hstart
  have hnonneg := fileStart_nonneg hd.length_nonneg c.curFile
  obtain ⟨j, rfl⟩ := exists_succ_of_fileStart_pos (show 0 < fileStart d.files k by omega)
  have hj := List.getElem?_eq_getElem (show j < d.files.length by omega)
  have hjsucc := fileStart_succ hj
  have hj0 := hd.length_nonneg _ (List.getElem_mem (show j < d.files.length by omega))
  refine iff_of_false ?_ ?_
  · intro heq
    have heq : c.curFile = j + 1 := heq
    rw [heq] at hstart hsucc
    omega
  · rw [entered_succ hj]
    rintro ⟨hpos, hcases⟩
    -- The file that ends here is the one the cursor is in.
    have hsame : c.curFile = j := eq_of_fileStart_lt hd.length_nonneg (by omega) (by omega)
    rw [hsame, hj] at hf
    injection hf with hf
    rw [hf] at hpos hcases
    rcases hcases with hlt | ⟨heq, hnot⟩
    · omega
    · have hentered := (h j (by omega) (by rw [← hsame]; omega)).mp hsame
      rw [hentered] at hnot
      cases hnot

/-- A piece that needs several subpieces. -/
theorem Settled.several (hd : d.Valid) (hc : CursorIn d.files c pos) (h : Settled d c pos)
    (hlt : c.remSize < d.pieceLength) (hc' : CursorIn d.files c' (pos + d.pieceLength))
    (hlanded : Landed d.files c' (pos + d.pieceLength)) :
    Settled d c' (pos + d.pieceLength) := by
  have hpl := hd.pieceLength_pos
  intro k hk hstart
  cases hlanded with
  | inside begun left =>
    -- No file begins inside of another.
    exfalso
    obtain ⟨f, hf, _, hrem0, hrem, hpos⟩ := hc'.file
    have hsucc := fileStart_succ hf
    have hlow := lt_of_fileStart_lt hd.length_nonneg
      (show fileStart d.files c'.curFile < fileStart d.files k by omega)
    have hhigh := lt_of_fileStart_lt hd.length_nonneg
      (show fileStart d.files k < fileStart d.files (c'.curFile + 1) by omega)
    omega
  | @start i f curFile file nonempty at_start =>
    have hsucc := fileStart_succ file
    have hnonneg := fileStart_nonneg hd.length_nonneg i
    obtain ⟨j, rfl⟩ := exists_succ_of_fileStart_pos (show 0 < fileStart d.files k by omega)
    have hjlt : j < d.files.length := by omega
    have hj := List.getElem?_eq_getElem hjlt
    have hjsucc := fileStart_succ hj
    have hj0 := hd.length_nonneg _ (List.getElem_mem hjlt)
    rw [entered_succ hj, curFile]
    constructor
    · intro heq
      obtain rfl : i = j := by omega
      rw [file] at hj
      injection hj with hf
      rw [← hf]
      refine ⟨nonempty, ?_⟩
      obtain ⟨g, hg, _, hrem0, hrem, hpos⟩ := hc.file
      have hgsucc := fileStart_succ hg
      -- If the piece began in this file, it would be a single one.
      have hother : c.curFile ≠ i := by
        intro hsame
        rw [hsame] at hgsucc hpos
        omega
      rcases lt_trichotomy f.length d.pieceLength with hshort | hequal | hlong
      · exact .inl hshort
      · refine .inr ⟨hequal, ?_⟩
        cases hentered : entered d.files d.pieceLength i with
        | false => rfl
        | true => exact absurd ((h i hjlt (by omega)).mpr hentered) hother
      · exact absurd (eq_of_fileStart_lt hd.length_nonneg (by omega) (by omega)) hother
    · intro hentered
      have hpos := hentered.1
      have hsame : i = j := eq_of_fileStart_lt hd.length_nonneg (by omega) (by omega)
      rw [hsame]

/-! ### One piece -/

theorem mapPiece_inRange (hd : d.Valid) (index : Int) (hc : CursorIn d.files c pos) (hlen : 0 < len)
    (hend : pos + len ≤ totalLength d.files)
    (hok : pos + len < totalLength d.files ∨ LastFileEmpty d.files ∨ len ≤ c.remSize) :
    ∃ p c', mapPiece d (fun _ => none) index len c = .ok (p, c') ∧
      CursorIn d.files c' (pos + len) ∧
      (len = d.pieceLength → Settled d c pos → Settled d c' (pos + len)) := by
  unfold mapPiece
  by_cases hmany : c.remSize < len
  · have hend' : pos + len < totalLength d.files ∨
        pos + len = totalLength d.files ∧ LastFileEmpty d.files := by
      rcases hok with hlt | hempty | hle
      · exact .inl hlt
      · rcases lt_or_eq_of_le hend with hlt | heq
        · exact .inl hlt
        · exact .inr ⟨heq, hempty⟩
      · omega
    obtain ⟨subs', c', hrun, hc', hlanded⟩ := fillPiece_inRange (n := d.files.length + 2)
      hd.length_nonneg hc [] (by omega) hend' (by omega)
    rw [if_pos hmany, hrun, ok_bind]
    refine ⟨_, c', rfl, hc', ?_⟩
    rintro rfl hsettled
    exact hsettled.several hd hc hmany hc' (hlanded hlen)
  · obtain ⟨f, hf, htot, hrem0, hrem, hpos⟩ := hc.file
    rw [if_neg hmany, fileName_of_getElem? hf, ok_bind]
    refine ⟨_, _, rfl, ⟨?_, hc.in_file⟩, ?_⟩
    · rw [htot, hpos]
      exact cursorAt_advance hf hrem hlen.le (by omega)
    · rintro rfl hsettled
      exact hsettled.single hd hc (by omega)

theorem mapPiece_trap (hd : d.Valid) (index : Int) (hc : CursorIn d.files c pos) (hlen : 0 < len)
    (hend : pos + len = totalLength d.files) (hlast : ¬ LastFileEmpty d.files)
    (hmany : c.remSize < len) : mapPiece d (fun _ => none) index len c = .error .trap := by
  rw [mapPiece, if_pos hmany,
    fillPiece_trap hd.length_nonneg hc hlen hend hlast (by omega), error_bind]

/-! ### All pieces -/

section

variable {index : Int}

theorem piece_stop (hd : d.Valid) (hlt : index < d.piecesCount) :
    index * d.pieceLength + Download.pieceLength d index = pieceEnd d index := by
  rw [pieceLength_eq hd hlt]
  omega

theorem pieceEnd_le (hd : d.Valid) (index : Int) : pieceEnd d index ≤ totalLength d.files := by
  rw [← hd.length_eq]
  exact min_le_right _ _

/-- A piece before the last stays inside of the list. -/
theorem mapPiece_before_last (hd : d.Valid) (hlt : index + 1 < d.piecesCount)
    (hc : CursorIn d.files c (index * d.pieceLength))
    (hsettled : Settled d c (index * d.pieceLength)) :
    ∃ p c', mapPiece d (fun _ => none) index (Download.pieceLength d index) c = .ok (p, c') ∧
      CursorIn d.files c' ((index + 1) * d.pieceLength) ∧
      Settled d c' ((index + 1) * d.pieceLength) := by
  have hstop := piece_stop hd (show index < d.piecesCount by omega)
  have hlen := pieceLength_pos hd (show index < d.piecesCount by omega)
  have hnext := start_lt_length hd hlt
  have hend : pieceEnd d index = (index + 1) * d.pieceLength := min_eq_left (le_of_lt hnext)
  have hwhole : Download.pieceLength d index = d.pieceLength := by
    rw [Download.pieceLength, if_neg (by omega)]
  obtain ⟨p, c', hmap, hc', hsettled'⟩ := mapPiece_inRange hd index hc hlen
    (by rw [hstop]; exact pieceEnd_le hd index)
    (.inl (by rw [hstop, hend, ← hd.length_eq]; exact hnext))
  have hsettled' := hsettled' hwhole hsettled
  rw [hstop, hend] at hc' hsettled'
  exact ⟨p, c', hmap, hc', hsettled'⟩

/-- The cursor is in the last file when the last piece begins in it. -/
theorem curFile_last_iff {k : Nat} (hd : d.Valid) (hk : k + 1 = d.files.length)
    (hc : CursorIn d.files c pos)
    (hsettled : Settled d c pos) :
    c.curFile = k ↔ fileStart d.files k < pos ∨
      fileStart d.files k = pos ∧ entered d.files d.pieceLength k = true := by
  obtain ⟨f, hf, _, hrem0, hrem, hpos⟩ := hc.file
  have hcur := hc.in_file
  have hsucc := fileStart_succ hf
  rcases lt_trichotomy (fileStart d.files k) pos with hlt | heq | hgt
  · refine iff_of_true ?_ (.inl hlt)
    have hlow := lt_of_fileStart_lt hd.length_nonneg
      (show fileStart d.files k < fileStart d.files (c.curFile + 1) by omega)
    omega
  · rw [hsettled k (by omega) heq]
    exact ⟨fun h => .inr ⟨heq, h⟩, fun h => h.elim (fun hlt => by omega) And.right⟩
  · refine iff_of_false ?_ (by omega)
    intro hsame
    rw [hsame] at hpos hsucc
    omega

/-- The condition, in terms of where the last file and the last piece start. -/
theorem endsInside_iff {k : Nat} (hd : d.Valid) (h0 : 0 ≤ index)
    (hlast : index + 1 = d.piecesCount) (hk : k + 1 = d.files.length) :
    EndsInside d ↔ fileStart d.files k = totalLength d.files ∨
      fileStart d.files k < index * d.pieceLength ∨
      fileStart d.files k = index * d.pieceLength ∧
        entered d.files d.pieceLength k = true := by
  have hgetLast : d.files.getLast? = some d.files[k] := by
    rw [List.getLast?_eq_getElem?, show d.files.length - 1 = k by omega, List.getElem?_eq_getElem]
  have hsum := fileStart_succ (List.getElem?_eq_getElem (show k < d.files.length by omega))
  rw [hk, fileStart_length] at hsum
  have hlength := hd.length_eq
  rw [EndsInside, hgetLast, show d.piecesCount - 1 = index by omega,
    show d.files.length - 1 = k by omega]
  constructor
  · intro h
    obtain ⟨f, hf, hcases⟩ := h
    injection hf with hf
    rw [← hf] at hcases
    rcases hcases with hempty | hnone | hbefore | ⟨hstart, hentered⟩
    · exact .inl (by omega)
    · omega
    · exact .inr (.inl (by omega))
    · exact .inr (.inr ⟨by omega, hentered⟩)
  · intro hcases
    refine ⟨_, rfl, ?_⟩
    rcases hcases with hempty | hbefore | ⟨hstart, hentered⟩
    · exact .inl (by omega)
    · exact .inr (.inr (.inl (by omega)))
    · exact .inr (.inr (.inr ⟨by omega, hentered⟩))

/-- The last piece stays inside of the list if the last file is empty or if it
    begins in the last file, and only then. -/
theorem mapPiece_last_iff (hd : d.Valid) (h0 : 0 ≤ index) (hlast : index + 1 = d.piecesCount)
    (hc : CursorIn d.files c (index * d.pieceLength))
    (hsettled : Settled d c (index * d.pieceLength)) :
    mapPiece d (fun _ => none) index (Download.pieceLength d index) c ≠ .error .trap ↔
      EndsInside d := by
  have hlt : index < d.piecesCount := by omega
  have hlen := pieceLength_pos hd hlt
  have hpos : 0 < d.files.length := List.length_pos_iff.mpr hd.files_ne_nil
  obtain ⟨k, hk⟩ : ∃ k, k + 1 = d.files.length := ⟨d.files.length - 1, by omega⟩
  have hend : index * d.pieceLength + Download.pieceLength d index = totalLength d.files := by
    rw [piece_stop hd hlt, pieceEnd, hlast, ← hd.length_eq]
    exact min_eq_right hd.piecesCount_bounds.2
  rw [endsInside_iff hd h0 hlast hk]
  by_cases hempty : fileStart d.files k = totalLength d.files
  · obtain ⟨p, c', hmap, _⟩ := mapPiece_inRange hd index hc hlen (by omega)
      (.inr (.inl ((lastFileEmpty_iff hk).mpr hempty)))
    exact iff_of_true (by rw [hmap]; simp) (.inl hempty)
  · rw [← curFile_last_iff hd hk hc hsettled, or_iff_right hempty]
    obtain ⟨f, hf, _, hrem0, hrem, hat⟩ := hc.file
    have hcur := hc.in_file
    have hsucc := fileStart_succ hf
    constructor
    · intro hne
      by_contra hbefore
      have hmono := fileStart_mono hd.length_nonneg (show c.curFile + 1 ≤ k by omega)
      have hup := fileStart_mono hd.length_nonneg (show k ≤ d.files.length by omega)
      rw [fileStart_length] at hup
      exact hne (mapPiece_trap hd index hc hlen hend
        (fun h => hempty ((lastFileEmpty_iff hk).mp h)) (by omega))
    · intro hsame
      rw [hsame, hk, fileStart_length] at hsucc
      rw [hsame] at hat
      obtain ⟨p, c', hmap, _⟩ := mapPiece_inRange hd index hc hlen (by omega)
        (.inr (.inr (by omega)))
      rw [hmap]
      simp

/-- With `n + 1` pieces to go, the last one decides. -/
theorem piecesLoop_inRange_iff (hd : d.Valid) (acc : List Piece) (h0 : 0 ≤ index)
    (hindex : index + (n + 1) = d.piecesCount) (hc : CursorIn d.files c (index * d.pieceLength))
    (hsettled : Settled d c (index * d.pieceLength)) :
    piecesLoop d (fun _ => none) (n + 1) index c acc ≠ .error .trap ↔ EndsInside d := by
  have hstep : ∀ m index c acc, piecesLoop d (fun _ => none) (m + 1) index c acc
      = (mapPiece d (fun _ => none) index (Download.pieceLength d index) c >>= fun r =>
        piecesLoop d (fun _ => none) m (index + 1) r.2 (acc ++ [r.1])) := fun _ _ _ _ => rfl
  induction n generalizing index c acc with
  | zero =>
    rw [hstep, ← mapPiece_last_iff hd h0 (by omega) hc hsettled]
    cases mapPiece d (fun _ => none) index (Download.pieceLength d index) c with
    | error e =>
      rw [error_bind]
      simp
    | ok r => simp [piecesLoop]
  | succ n ih =>
    obtain ⟨p, c', hmap, hc', hsettled'⟩ := mapPiece_before_last hd (by omega) hc hsettled
    rw [hstep, hmap, ok_bind]
    exact ih _ (by omega) (by omega) hc' hsettled'

theorem inRange_iff_of_valid (hd : d.Valid) : InRange d ↔ EndsInside d := by
  have hcount := hd.piecesCount_nonneg
  have hpos : 0 < d.files.length := List.length_pos_iff.mpr hd.files_ne_nil
  have hf := List.getElem?_eq_getElem hpos
  unfold InRange pieces
  rw [if_neg (by omega), openFile_of_lt _ hf, ok_bind]
  cases hn : d.piecesCount.toNat with
  | zero =>
    have hlast := List.getLast?_eq_some_getLast hd.files_ne_nil
    exact iff_of_true (by simp [piecesLoop]) ⟨_, hlast, .inr (.inl (by omega))⟩
  | succ n =>
    have hopen := cursorAt_open hf (hd.length_nonneg _ (List.getElem_mem hpos))
    rw [fileStart_zero] at hopen
    apply piecesLoop_inRange_iff hd _ le_rfl (by omega)
    · rw [zero_mul]
      exact ⟨hopen, hpos⟩
    · rw [zero_mul]
      exact settled_start hd rfl

end

/-! ### Descriptors from trees

    The length of a piece is positive in the tree, but the cast may have
    made it negative. -/

section

variable {lengths : List Int64} {k : Int64}

theorem Constructed.valid (h : Constructed lengths k d)
    (hlengths : ∀ length ∈ lengths, 0 ≤ length.toInt) (hfiles : d.files ≠ [])
    (hpos : 1 ≤ d.pieceLength) : d.Valid where
  files_ne_nil := hfiles
  length_nonneg := h.length_nonneg hlengths
  length_eq := by rw [h.length, totalLength_eq h]
  pieceLength_pos := hpos
  piecesCount_eq := h.count_of_pos hlengths hpos

theorem tdiv_le_one {length pieceLength : Int} (hneg : pieceLength < 0) (hlength : 1 ≤ length) :
    (length + pieceLength - 1).tdiv pieceLength ≤ 1 :=
  calc (length + pieceLength - 1).tdiv pieceLength
      = (-(length + pieceLength - 1)).tdiv (-pieceLength) := (Int.neg_tdiv_neg ..).symm
    _ ≤ (-pieceLength).tdiv (-pieceLength) := Int.tdiv_le_tdiv (by omega) (by omega)
    _ = 1 := Int.tdiv_self (by omega)

/-- The only piece has the length of the torrent. -/
theorem pieces_of_one (hcount : d.piecesCount = 1) (pieceLength : Int)
    (beyond : Nat → Option Int) :
    pieces d beyond = pieces { d with pieceLength := pieceLength } beyond := by
  have hlast : ∀ c, nextPiece d beyond 0 c
      = nextPiece { d with pieceLength := pieceLength } beyond 0 c := by
    intro c
    simp [nextPiece, hcount, mapPiece]
  have hn : d.piecesCount.toNat = 1 := by omega
  simp only [pieces, hn, piecesLoop, hlast]

/-- Without any bytes, and with pieces of negative length, the cursor stays in
    the first file. -/
theorem piecesLoop_of_empty (hneg : d.pieceLength < 0) (hlength : d.length = 0) {f : File}
    (hf : d.files[0]? = some f) (beyond : Nat → Option Int) {index : Int}
    (h0 : 0 ≤ index) (hindex : index + n = d.piecesCount) (acc : List Piece) :
    ∃ ps, piecesLoop d beyond n index ⟨0, 0, -(index * d.pieceLength)⟩ acc = .ok ps := by
  induction n generalizing index acc with
  | zero => exact ⟨acc, rfl⟩
  | succ n ih =>
    have hrem : index * d.pieceLength ≤ 0 := Int.mul_nonpos_of_nonneg_of_nonpos h0 (le_of_lt hneg)
    rw [piecesLoop, nextPiece]
    by_cases hlast : index = d.piecesCount - 1
    · have hn : n = 0 := by omega
      subst hn
      rw [if_pos hlast, ← hlast, hlength, mapPiece, if_neg (by simp only; omega),
        fileName_of_getElem? hf, ok_bind]
      exact ⟨_, rfl⟩
    · have hnext : -(index * d.pieceLength) - d.pieceLength = -((index + 1) * d.pieceLength) := by
        ring
      rw [if_neg hlast, mapPiece, if_neg (by simp only; omega), fileName_of_getElem? hf, ok_bind]
      simp only [ok_bind, hnext]
      exact ih (by omega) (by omega) _

/-- Without bytes before the last file, it has been entered only if it is the
    first one. -/
theorem entered_of_empty {pieceLength : Int} (hnonneg : ∀ f ∈ files, 0 ≤ f.length) {k : Nat}
    (hk : k < files.length) (hzero : fileStart files k = 0) :
    entered files pieceLength k = decide (k = 0) := by
  cases k with
  | zero => rfl
  | succ k =>
    have hf := List.getElem?_eq_getElem (show k < files.length by omega)
    have hsucc := fileStart_succ hf
    have hstart := fileStart_nonneg hnonneg k
    rw [Bool.eq_iff_iff, entered_succ hf]
    simp only [Nat.add_one_ne_zero, decide_false, Bool.false_eq_true, iff_false]
    omega

/-- With a single piece its length does not matter. -/
theorem endsInside_of_one (hnonneg : ∀ f ∈ d.files, 0 ≤ f.length)
    (hlength : d.length = totalLength d.files) (hcount : d.piecesCount = 1) (pieceLength : Int) :
    EndsInside d ↔ EndsInside { d with pieceLength := pieceLength } := by
  unfold EndsInside
  refine exists_congr fun f => and_congr_right fun hf => ?_
  refine or_congr_right (or_congr_right ?_)
  simp only [hcount, sub_self, zero_mul]
  refine or_congr_right (and_congr_right fun hstart => ?_)
  have hpos : 0 < d.files.length := by
    cases hfiles : d.files with
    | nil => simp [hfiles] at hf
    | cons _ _ => simp
  have hlast := List.getElem?_eq_getElem (show d.files.length - 1 < d.files.length by omega)
  rw [List.getLast?_eq_getElem?, hlast] at hf
  injection hf with hf
  have hsum := fileStart_succ hlast
  rw [show d.files.length - 1 + 1 = d.files.length by omega, fileStart_length, hf] at hsum
  rw [entered_of_empty hnonneg (by omega) (by omega),
    entered_of_empty hnonneg (by omega) (by omega)]

/-- With a negative length of the pieces there is at most one piece, unless
    the torrent is empty. -/
theorem Constructed.one_of_neg (h : Constructed lengths k d) (hneg : d.pieceLength < 0)
    (hlength : 1 ≤ d.length) (hcount : d.piecesCount ≠ 0) : d.piecesCount = 1 := by
  have hle := tdiv_le_one hneg hlength
  rw [← h.piecesCount] at hle
  have h0 := h.hashes
  omega

/-- A torrent of one piece is valid if that is as long as the torrent. -/
theorem Constructed.valid_of_one (h : Constructed lengths k d)
    (hlengths : ∀ length ∈ lengths, 0 ≤ length.toInt) (hfiles : d.files ≠ [])
    (hlength : 1 ≤ d.length) (hone : d.piecesCount = 1) :
    TorrentFile.Valid { d with pieceLength := d.length } where
  files_ne_nil := hfiles
  length_nonneg := h.length_nonneg hlengths
  length_eq := by rw [h.length, totalLength_eq h]
  pieceLength_pos := hlength
  piecesCount_eq := by
    show d.piecesCount = (d.length + d.length - 1) / d.length
    rw [hone, show d.length + d.length - 1 = d.length - 1 + 1 * d.length by ring,
      Int.add_mul_ediv_right _ _ (by omega), Int.ediv_eq_zero_of_lt (by omega) (by omega)]
    rfl

theorem inRange_iff_of_neg (h : Constructed lengths k d)
    (hlengths : ∀ length ∈ lengths, 0 ≤ length.toInt) (hfiles : d.files ≠ [])
    (hneg : d.pieceLength < 0) (hlength : 1 ≤ d.length) (hcount : d.piecesCount ≠ 0) :
    InRange d ↔ EndsInside d := by
  have hone := h.one_of_neg hneg hlength hcount
  have hvalid := h.valid_of_one hlengths hfiles hlength hone
  have hiff := inRange_iff_of_valid hvalid
  rw [InRange, ← pieces_of_one hone d.length,
    ← endsInside_of_one (h.length_nonneg hlengths) hvalid.length_eq hone d.length] at hiff
  exact hiff

theorem inRange_iff_of_noFiles (hcount : 0 ≤ d.piecesCount) (hfiles : d.files = []) :
    InRange d ↔ EndsInside d := by
  have htrap : pieces d (fun _ => none) = .error .trap := by
    rw [pieces, if_neg (by omega), hfiles, openFile_past (Nat.zero_le _), error_bind]
  simp [InRange, EndsInside, htrap, hfiles]

theorem inRange_iff_of_noPieces (hcount : d.piecesCount = 0) (hfiles : d.files ≠ []) :
    InRange d ↔ EndsInside d := by
  have hf := List.getElem?_eq_getElem (List.length_pos_iff.mpr hfiles)
  have hnone : pieces d (fun _ => none) = .ok [] := by
    rw [pieces, if_neg (by omega), openFile_of_lt _ hf, ok_bind, hcount]
    rfl
  have hlast := List.getLast?_eq_some_getLast hfiles
  exact iff_of_true (by simp [InRange, hnone]) ⟨_, hlast, .inr (.inl hcount)⟩

theorem inRange_iff_of_noBytes (hcount : 0 ≤ d.piecesCount) (hfiles : d.files ≠ [])
    (hneg : d.pieceLength < 0) (hlength : d.length = 0) (hzero : ∀ f ∈ d.files, f.length = 0) :
    InRange d ↔ EndsInside d := by
  have hf := List.getElem?_eq_getElem (List.length_pos_iff.mpr hfiles)
  obtain ⟨ps, hps⟩ := piecesLoop_of_empty (n := d.piecesCount.toNat) hneg hlength hf
    (fun _ => none) (le_refl 0) (by omega) []
  rw [zero_mul, neg_zero] at hps
  have hrange : InRange d := by
    rw [InRange, pieces, if_neg (by omega), openFile_of_lt _ hf, ok_bind,
      hzero _ (List.mem_of_getElem? hf), hps]
    simp
  have hlast := List.getLast?_eq_some_getLast hfiles
  exact iff_of_true hrange ⟨_, hlast, .inl (hzero _ (List.getLast_mem hfiles))⟩

theorem inRange_iff_of_constructed (h : Constructed lengths k d)
    (hlengths : ∀ length ∈ lengths, 0 ≤ length.toInt) : InRange d ↔ EndsInside d := by
  have hcount : 0 ≤ d.piecesCount := by
    rw [h.hashes]
    omega
  have h0 : 0 ≤ d.length := by
    rw [h.length]
    exact sumLengths_nonneg hlengths
  have hnonneg := h.length_nonneg hlengths
  by_cases hfiles : d.files = []
  · exact inRange_iff_of_noFiles hcount hfiles
  rcases lt_or_gt_of_ne h.pieceLength_ne with hneg | hpos
  · by_cases hlength : d.length = 0
    · apply inRange_iff_of_noBytes hcount hfiles hneg hlength
      intro f hf
      rw [h.length, ← totalLength_eq h] at hlength
      refine List.all_zero_of_le_zero_le_of_sum_eq_zero ?_ hlength (List.mem_map_of_mem hf)
      intro n hn
      obtain ⟨f', hf', heq⟩ := List.mem_map.mp hn
      rw [← heq]
      exact hnonneg f' hf'
    · by_cases hzero : d.piecesCount = 0
      · exact inRange_iff_of_noPieces hzero hfiles
      · exact inRange_iff_of_neg h hlengths hfiles hneg (by omega) hzero
  · exact inRange_iff_of_valid (h.valid hlengths hfiles hpos)

/-- For every descriptor made from a tree in which no file has a negative
    length: `pieces()` stays inside of the list of files just when there is
    a file, and the last one is empty or the last piece, if there is one,
    begins inside of it. -/
theorem pieces_inRange_iff {sha1 : Bytes → Bytes} {tree : Bencode.BencodeValue}
    (hd : TorrentFile.ofTree sha1 tree = .ok d) (hnumbers : TreeNumbers tree lengths k)
    (hlengths : ∀ length ∈ lengths, 0 ≤ length.toInt) : InRange d ↔ EndsInside d := by
  obtain ⟨lengths', k', hnumbers', h⟩ := ofTree_eq_ok hd
  rw [← (hnumbers.unique hnumbers').1] at h
  exact inRange_iff_of_constructed h hlengths

end

/-! ### Files as long as a piece -/

/-- A tree for files with the path `a` and the lengths `lengths`, with
    `hashes` hashes. -/
def filesTree (lengths : List Int64) (pieceLength : Int64) (hashes : Nat) : Bencode.BencodeValue :=
  .dict [(announceKey, .string []), (infoKey, .dict
    [(filesKey, .list (lengths.map fun length =>
        .dict [(lengthKey, .int length), (pathKey, .list [.string [97]])])),
      (nameKey, .string [98]), (pieceLengthKey, .int pieceLength),
      (piecesKey, .string (List.replicate (20 * hashes) 0))])]

/-- What the constructor makes of files of two bytes, with pieces of two bytes. -/
def alike (n : Nat) : TorrentFile where
  infoHash := []
  pieceHashes := List.replicate n (List.replicate 20 0)
  pieceLength := 2
  length := 2 * n
  piecesCount := n
  name := [98]
  files := List.replicate n ⟨[[97]], 2⟩

/-- The piece of the second file begins in the first one, so the third file is
    entered. -/
theorem pieces_inRange_three_alike : InRange (alike 3) := by
  have hd : TorrentFile.ofTree (fun _ => []) (filesTree [2, 2, 2] 2 3) = .ok (alike 3) := by
    decide +kernel
  have hnumbers : TreeNumbers (filesTree [2, 2, 2] 2 3) [2, 2, 2] 2 :=
    .intro rfl (.several rfl
      (.cons ⟨_, rfl, rfl⟩ (.cons ⟨_, rfl, rfl⟩ (.cons ⟨_, rfl, rfl⟩ .nil)))) rfl
  have hlengths : ∀ length ∈ ([2, 2, 2] : List Int64), 0 ≤ length.toInt := by
    simp
  rw [pieces_inRange_iff hd hnumbers hlengths]
  exact ⟨⟨[[97]], 2⟩, rfl, .inr (.inr (.inr (by decide)))⟩

/-- With two files the second piece begins in the first one: `pieces()` reads
    the length of a third file. -/
theorem pieces_past_the_end :
    TorrentFile.ofTree (fun _ => []) (filesTree [2, 2] 2 2) = .ok (alike 2) ∧
    pieces (alike 2) (fun _ => none) = .error .trap ∧ ¬ InRange (alike 2) := by
  have htrap : pieces (alike 2) (fun _ => none) = .error .trap := by
    decide
  exact ⟨by decide +kernel, htrap, fun hrange => hrange htrap⟩

end Furrent.Torrent
