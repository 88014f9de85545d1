import Furrent.Torrent.Overrun

/-! # When the pieces are generated

    `pieces()` returns unless it reads past the last file and finds nothing
    there, as long as no file of the torrent is empty. Then every file is in
    one of the pieces. Which folder the files are in makes no difference. -/

namespace Furrent.Torrent

open Cpp

variable {files : List File} {d : TorrentFile} {beyond beyond' : Nat → Option Int}
  {lengths : List Int64} {k : Int64}

/-! ### What the result depends on -/

theorem pieces_folderName (d : TorrentFile) (folderName : Bytes) (beyond : Nat → Option Int) :
    pieces { d with folderName := folderName } beyond = pieces d beyond := by
  have hloop : ∀ n index c acc, piecesLoop { d with folderName := folderName } beyond n index c acc
      = piecesLoop d beyond n index c acc := by
    intro n
    induction n with
    | zero =>
      intro index c acc
      rfl
    | succ n ih =>
      intro index c acc
      have hnext : nextPiece { d with folderName := folderName } beyond index c
          = nextPiece d beyond index c := rfl
      simp only [piecesLoop, hnext, ih]
  simp only [pieces, hloop]

/-- Nothing is read behind the first file that is not there: the name of a
    file is looked at before the next one is opened. -/
theorem openFile_congr (h : beyond files.length = beyond' files.length) {k : Nat}
    (hk : k ≤ files.length) : openFile files beyond k = openFile files beyond' k := by
  rcases Nat.lt_or_eq_of_le hk with hlt | heq
  · simp [openFile, uncheckedGet, List.getElem?_eq_getElem hlt]
  · simp [openFile, uncheckedGet, heq, h]

theorem fillPiece_congr (h : beyond files.length = beyond' files.length) (n : Nat) (c : Cursor)
    (r : Int) (subs : List Subpiece) :
    fillPiece files beyond n c r subs = fillPiece files beyond' n c r subs := by
  induction n generalizing c r subs with
  | zero => rfl
  | succ n ih =>
    unfold fillPiece
    cases hname : fileName files c.curFile with
    | error e => simp only [error_bind]
    | ok name =>
      have hopen := openFile_congr h (Nat.succ_le_of_lt (lt_of_fileName hname))
      simp only [ok_bind, hopen, ih]

theorem pieces_congr (h : beyond d.files.length = beyond' d.files.length) :
    pieces d beyond = pieces d beyond' := by
  have hmap : ∀ index len c, mapPiece d beyond index len c = mapPiece d beyond' index len c := by
    intro index len c
    simp only [mapPiece, fillPiece_congr h]
  have hloop : ∀ n index c acc, piecesLoop d beyond n index c acc
      = piecesLoop d beyond' n index c acc := by
    intro n
    induction n with
    | zero =>
      intro index c acc
      rfl
    | succ n ih =>
      intro index c acc
      simp only [piecesLoop, nextPiece, hmap, ih]
  simp only [pieces, hloop, openFile_congr h (Nat.zero_le _)]

/-- One number decides about all that is read past the last file. -/
theorem pieces_eq_const (d : TorrentFile) (beyond : Nat → Option Int) :
    pieces d beyond = pieces d fun _ => beyond d.files.length := pieces_congr rfl

/-! ### Nothing is thrown -/

/-- No exception is thrown. -/
def Quiet {α : Type} (x : Outcome Empty α) : Prop := ∀ e, x ≠ .error (.throw e)

theorem Quiet.ok {α : Type} (a : α) : Quiet (.ok a : Outcome Empty α) := by
  intro e h
  injection h

theorem Quiet.bind {α β : Type} {x : Outcome Empty α} {f : α → Outcome Empty β} (hx : Quiet x)
    (hf : ∀ a, Quiet (f a)) : Quiet (x >>= f) := by
  cases x with
  | error e =>
    intro x h
    injection h with h
    exact hx x (congrArg Except.error h)
  | ok a => exact hf a

theorem quiet_openFile (i : Nat) : Quiet (openFile files beyond i) := by
  intro e h
  unfold openFile at h
  split at h
  · injection h
  · injection h with h
    injection h

theorem quiet_fileName (i : Nat) : Quiet (fileName files i) := by
  intro e h
  unfold fileName at h
  split at h
  · injection h
  · injection h with h
    injection h

theorem quiet_fillPiece (n : Nat) (c : Cursor) (r : Int) (subs : List Subpiece) :
    Quiet (fillPiece files beyond n c r subs) := by
  induction n generalizing c r subs with
  | zero =>
    intro e h
    injection h with h
    injection h
  | succ n ih =>
    unfold fillPiece
    split
    · apply (quiet_fileName _).bind
      intro name
      split
      · exact (quiet_openFile _).bind fun next => ih _ _ _
      · exact ih _ _ _
    · exact .ok _

theorem quiet_pieces (hcount : 0 ≤ d.piecesCount) : Quiet (pieces d beyond) := by
  have hmap : ∀ index len c, Quiet (mapPiece d beyond index len c) := by
    intro index len c
    unfold mapPiece
    split
    · exact (quiet_fillPiece _ _ _ _).bind fun _ => .ok _
    · exact (quiet_fileName _).bind fun _ => .ok _
  have hloop : ∀ n index c acc, Quiet (piecesLoop d beyond n index c acc) := by
    intro n
    induction n with
    | zero => exact fun _ _ _ => .ok _
    | succ n ih => exact fun index c acc => (hmap _ _ _).bind fun _ => ih _ _ _
  rw [pieces, if_neg (by omega)]
  exact (quiet_openFile 0).bind fun c => hloop _ _ _ _

/-- What stays inside of the list returns. -/
theorem InRange.returns (h : InRange d) (hcount : 0 ≤ d.piecesCount) :
    ∃ ps, pieces d (fun _ => none) = .ok ps := by
  have hquiet : Quiet (pieces d fun _ => none) := quiet_pieces hcount
  have hfuel := pieces_ne_outOfFuel d fun _ => none
  cases hps : pieces d (fun _ => none) with
  | ok ps => exact ⟨ps, rfl⟩
  | error stop =>
    exfalso
    cases stop with
    | error e => exact e.elim
    | throw x => exact hquiet x hps
    | trap => exact h hps
    | outOfFuel => exact hfuel hps

/-! ### Every file is in a piece -/

theorem exists_subpiece (hd : d.Valid) {ps : List Piece} (hps : pieces d beyond = .ok ps)
    {f : File} (hf : f ∈ d.files) (hpos : 0 < f.length) :
    ∃ p ∈ ps, ∃ s ∈ p.subpieces, s.filepath = f.filename := by
  obtain ⟨j, hj⟩ := List.mem_iff_getElem?.mp hf
  have hlt : j < d.files.length := (List.getElem?_eq_some_iff.mp hj).1
  have hnext := fileStart_succ hj
  have hlast := fileStart_mono hd.length_nonneg (show j + 1 ≤ d.files.length from hlt)
  have hfirst := fileStart_nonneg hd.length_nonneg j
  rw [fileStart_length, ← hd.length_eq] at hlast
  -- The piece that has the first byte of the file.
  have hpl := hd.pieceLength_pos
  have hcount := hd.piecesCount_bounds
  obtain ⟨p, hp, hindex⟩ : ∃ p ∈ ps, p.index = fileStart d.files j / d.pieceLength := by
    have hmem : fileStart d.files j / d.pieceLength ∈ ps.map Piece.index := by
      rw [pieces_index hps, Int.mem_range_iff]
      constructor
      · exact Int.ediv_nonneg (by omega) (by omega)
      · exact Int.ediv_lt_of_lt_mul (by omega) (by omega)
    obtain ⟨p, hp, heq⟩ := List.mem_map.mp hmem
    exact ⟨p, hp, heq⟩
  have hcov := (covers_of_pieces hd hps p hp).covers
  have hbelow : p.index * d.pieceLength ≤ fileStart d.files j := by
    rw [hindex]
    exact Int.ediv_mul_le _ (by omega)
  have habove : fileStart d.files j < (p.index + 1) * d.pieceLength := by
    rw [hindex]
    exact Int.lt_ediv_add_one_mul_self _ (by omega)
  obtain ⟨s, hs, i, ⟨g, hg, hname, hoff, _, hend⟩, hstart, hstop⟩ :=
    hcov.exists_part hbelow (lt_min habove (by omega))
  -- No other file has this byte.
  have hi := fileStart_succ hg
  obtain rfl : i = j := by
    rcases Nat.lt_trichotomy i j with hlt | heq | hgt
    · have := fileStart_mono hd.length_nonneg (show i + 1 ≤ j from hlt)
      omega
    · exact heq
    · have := fileStart_mono hd.length_nonneg (show j + 1 ≤ i from hgt)
      omega
  obtain rfl : f = g := Option.some.inj (hj.symm.trans hg)
  exact ⟨p, hp, s, hs, hname⟩

/-! ### Descriptors from trees -/

theorem Constructed.nonneg (h : Constructed lengths k d) (hpos : ∀ f ∈ d.files, 0 < f.length) :
    ∀ length ∈ lengths, 0 ≤ length.toInt := by
  intro length hlength
  have hmem : length.toInt ∈ d.files.map File.length := by
    rw [h.files]
    exact List.mem_map_of_mem hlength
  obtain ⟨f, hf, heq⟩ := List.mem_map.mp hmem
  rw [← heq]
  exact (hpos f hf).le

theorem Constructed.length_pos (h : Constructed lengths k d) (hpos : ∀ f ∈ d.files, 0 < f.length)
    (hfiles : d.files ≠ []) : 1 ≤ d.length := by
  obtain ⟨f, files, hcons⟩ := List.exists_cons_of_ne_nil hfiles
  have hf := hpos f (by rw [hcons]; exact List.mem_cons_self ..)
  have hrest : 0 ≤ (files.map File.length).sum := by
    apply List.sum_nonneg
    intro n hn
    obtain ⟨g, hg, rfl⟩ := List.mem_map.mp hn
    exact (hpos g (by rw [hcons]; exact List.mem_cons_of_mem _ hg)).le
  rw [h.length, ← totalLength_eq h, hcons, totalLength, List.map_cons, List.sum_cons]
  omega

/-- A torrent that has bytes and pieces has the pieces of a valid one. The
    length of a piece that the cast has made negative does not matter then,
    since there is one piece only. -/
theorem Constructed.exists_valid (h : Constructed lengths k d)
    (hpos : ∀ f ∈ d.files, 0 < f.length) (hfiles : d.files ≠ []) (hcount : d.piecesCount ≠ 0) :
    ∃ d' : TorrentFile, d'.Valid ∧ d'.files = d.files ∧
      ∀ beyond, pieces d beyond = pieces d' beyond := by
  have hnonneg := h.nonneg hpos
  have hlength := h.length_pos hpos hfiles
  rcases lt_or_gt_of_ne h.pieceLength_ne with hneg | hgt
  · have hone := h.one_of_neg hneg hlength hcount
    exact ⟨{ d with pieceLength := d.length }, h.valid_of_one hnonneg hfiles hlength hone, rfl,
      pieces_of_one hone d.length⟩
  · exact ⟨d, h.valid hnonneg hfiles hgt, rfl, fun _ => rfl⟩

/-- With pieces, every file is in one of them. -/
theorem Constructed.exists_subpiece (h : Constructed lengths k d)
    (hpos : ∀ f ∈ d.files, 0 < f.length) (hcount : 0 < d.piecesCount) {f : File}
    (hf : f ∈ d.files) :
    ∃ beyond ps, pieces d beyond = .ok ps ∧
      ∃ p ∈ ps, ∃ s ∈ p.subpieces, s.filepath = f.filename := by
  obtain ⟨d', hd', hsame, hpieces⟩ := h.exists_valid hpos (List.ne_nil_of_mem hf) hcount.ne'
  obtain ⟨ps, hps, _⟩ := pieces_covers hd' fun _ => 0
  rw [← hsame] at hf
  refine ⟨_, ps, (hpieces _).trans hps, ?_⟩
  exact Torrent.exists_subpiece hd' hps hf (hpos f (hsame ▸ hf))

/-! ### Torrents without files -/

/-- Without a file there is no subpiece, and only a piece that is not longer
    than nothing needs none. -/
theorem mapPiece_of_noFiles (hfiles : d.files = []) (index len : Int) (c : Cursor) :
    mapPiece d beyond index len c =
      if c.remSize < len ∧ len ≤ 0 then .ok (⟨index, []⟩, c) else .error .trap := by
  unfold mapPiece
  by_cases hrem : c.remSize < len
  · by_cases hlen : 0 < len
    · rw [if_pos hrem, if_neg (by omega)]
      simp [hfiles, fillPiece, hlen, fileName]
    · rw [if_pos hrem, if_pos ⟨hrem, by omega⟩]
      simp [fillPiece, hlen]
  · rw [if_neg hrem, if_neg (by omega)]
    simp [hfiles, fileName]

/-- So the last piece has to be one. -/
theorem last_of_noFiles (hfiles : d.files = []) {n : Nat} {index : Int} {c : Cursor}
    {acc ps : List Piece} (hindex : index + (n + 1) = d.piecesCount)
    (h : piecesLoop d beyond (n + 1) index c acc = .ok ps) :
    c.remSize < d.length - (d.piecesCount - 1) * d.pieceLength ∧
      d.length - (d.piecesCount - 1) * d.pieceLength ≤ 0 := by
  induction n generalizing index acc with
  | zero =>
    rw [piecesLoop, nextPiece, if_pos (by omega), mapPiece_of_noFiles hfiles] at h
    by_contra hno
    rw [if_neg hno, error_bind] at h
    injection h
  | succ n ih =>
    rw [piecesLoop, nextPiece, if_neg (by omega), mapPiece_of_noFiles hfiles] at h
    split at h
    · rw [ok_bind] at h
      exact ih (by omega) h
    · rw [error_bind] at h
      injection h

/-- Something is read in place of the first file, and if it is negative a
    piece of no bytes can be made. -/
theorem pieces_of_noFiles (hfiles : d.files = []) (hcount : 0 ≤ d.piecesCount)
    (hlength : d.length = 0) (hneg : d.piecesCount ≠ 0 → d.pieceLength < 0) :
    (∃ ps, pieces d beyond = .ok ps) ↔
      ∃ n, beyond 0 = some n ∧ (d.piecesCount = 0 ∨ d.piecesCount = 1 ∧ n < 0) := by
  rw [pieces, if_neg (by omega)]
  cases hbeyond : beyond 0 with
  | none =>
    have hopen : openFile d.files beyond 0 = .error .trap := by
      simp [openFile, uncheckedGet, hfiles, hbeyond]
    simp [hopen]
  | some n =>
    have hopen : openFile d.files beyond 0 = .ok ⟨0, n, n⟩ := by
      simp [openFile, uncheckedGet, hfiles, hbeyond]
    simp only [hopen, ok_bind, Option.some.injEq, exists_eq_left']
    constructor
    · intro h
      obtain ⟨ps, hps⟩ := h
      cases hn : d.piecesCount.toNat with
      | zero => exact .inl (by omega)
      | succ m =>
        rw [hn] at hps
        obtain ⟨hrem, hlast⟩ := last_of_noFiles hfiles (by omega) hps
        have hpl := hneg (by omega)
        -- A second piece would make the last one longer than nothing.
        have hone : d.piecesCount = 1 := by
          by_contra hmore
          have hmany : 0 < d.piecesCount - 1 := by omega
          have := Int.mul_neg_of_pos_of_neg hmany hpl
          omega
        rw [hone, hlength] at hrem
        exact .inr ⟨hone, by simpa using hrem⟩
    · intro h
      rcases h with hzero | ⟨hone, hnegative⟩
      · rw [hzero]
        exact ⟨[], rfl⟩
      · have hn : d.piecesCount.toNat = 1 := by omega
        have hlast : d.length - (d.piecesCount - 1) * d.pieceLength = 0 := by
          rw [hone, hlength]
          simp
        rw [hn, piecesLoop, nextPiece, if_pos (by omega), hlast, mapPiece_of_noFiles hfiles,
          if_pos ⟨hnegative, le_refl _⟩]
        exact ⟨_, rfl⟩

/-- A torrent without files has pieces only if their length is negative. -/
theorem Constructed.neg_of_noFiles (h : Constructed lengths k d) (hfiles : d.files = []) :
    d.length = 0 ∧ (d.piecesCount ≠ 0 → d.pieceLength < 0) := by
  have hlength : d.length = 0 := by
    rw [h.length, ← totalLength_eq h, hfiles]
    rfl
  refine ⟨hlength, fun hcount => ?_⟩
  by_contra hnonneg
  apply hcount
  have hne := h.pieceLength_ne
  rw [h.piecesCount, hlength]
  exact Int.tdiv_eq_zero_of_lt (by omega) (by omega)

/-! ### When `pieces()` returns -/

/-- What is read past the last file, if anything is, can be read. -/
structure Generates (d : TorrentFile) (beyond : Nat → Option Int) : Prop where
  files : d.files ≠ [] → EndsInside d ∨ ∃ n, beyond d.files.length = some n
  noFiles : d.files = [] →
    ∃ n, beyond 0 = some n ∧ (d.piecesCount = 0 ∨ d.piecesCount = 1 ∧ n < 0)

theorem generates_folderName {folderName : Bytes} :
    Generates { d with folderName := folderName } beyond ↔ Generates d beyond :=
  ⟨fun h => ⟨h.files, h.noFiles⟩, fun h => ⟨h.files, h.noFiles⟩⟩

theorem pieces_returns_iff (h : Constructed lengths k d) (hpos : ∀ f ∈ d.files, 0 < f.length) :
    (∃ ps, pieces d beyond = .ok ps) ↔ Generates d beyond := by
  have hcount : 0 ≤ d.piecesCount := by
    rw [h.hashes]
    omega
  by_cases hfiles : d.files = []
  · obtain ⟨hlength, hneg⟩ := h.neg_of_noFiles hfiles
    rw [pieces_of_noFiles hfiles hcount hlength hneg]
    exact ⟨fun hread => ⟨fun hne => absurd hfiles hne, fun _ => hread⟩, fun hg => hg.noFiles hfiles⟩
  · have hrange := inRange_iff_of_constructed h (h.nonneg hpos)
    constructor
    · intro hreturns
      refine ⟨fun _ => ?_, fun hnil => absurd hnil hfiles⟩
      cases hbeyond : beyond d.files.length with
      | some n => exact .inr ⟨n, rfl⟩
      | none =>
        -- It is as if nothing could be read at all.
        obtain ⟨ps, hps⟩ := hreturns
        rw [pieces_eq_const, hbeyond] at hps
        left
        rw [← hrange, InRange, hps]
        exact fun hne => by injection hne
    · intro hgenerates
      rcases hgenerates.files hfiles with hends | ⟨n, hn⟩
      · obtain ⟨ps, hps⟩ := (hrange.mpr hends).returns hcount
        exact ⟨ps, pieces_mono (fun i n hn => by injection hn) hps⟩
      · rw [pieces_eq_const, hn]
        by_cases hzero : d.piecesCount = 0
        · have hf := List.getElem?_eq_getElem (List.length_pos_iff.mpr hfiles)
          rw [pieces, if_neg (by omega), openFile_of_lt _ hf, ok_bind, hzero]
          exact ⟨[], rfl⟩
        · obtain ⟨d', hd', _, hpieces⟩ := h.exists_valid hpos hfiles hzero
          obtain ⟨ps, hps, _⟩ := pieces_covers hd' fun _ => n
          exact ⟨ps, (hpieces _).trans hps⟩

end Furrent.Torrent
