import Furrent.Client.Preparation

/-! # How a torrent is laid out on the disk

    What `prepare_torrent_files` does is decided by the names in the
    descriptor, by the tree it finds, and by how the calls of the operating
    system fare. Here this is written down without running the calls: which
    of the eleven names is chosen (`Chosen`), where directories and files
    are once the first files have been made (`laidOut`), and from this what
    becomes of the next one: it is made (`FileMade`), it is reported as failed
    (`FileFails`), or something escapes (`FileEscapes`). -/

namespace Furrent.Client

open Cpp Path Platform.Io

/-! ### The name of the folder -/

/-- The folder of a torrent with `n` copies of the suffix in its name. -/
def copyPath (downloadFolder name : Bytes) (n : Nat) : Bytes :=
  downloadFolder ++ 47 :: (name ++ (List.replicate n copySuffix).flatten)

/-- The name with `n` copies of the suffix is chosen: those before it were
    found to be in use. It is not in use itself, unless nobody can tell or it
    is the last one, which is not asked about. -/
structure Chosen (cwd : Location) (tells : Nat → Bool) (downloadFolder : Bytes) (disk : Disk)
    (name : Bytes) (n : Nat) : Prop where
  le : n ≤ MAX_COPY_ATTEMPTS
  taken : ∀ j < n, tells j = true ∧ find cwd disk (copyPath downloadFolder name j) ≠ none
  free : n < MAX_COPY_ATTEMPTS → tells n = true →
    find cwd disk (copyPath downloadFolder name n) = none

variable {cwd : Location} {tells : Nat → Bool} {downloadFolder folder name : Bytes}
  {disk disk' : Disk} {n k : Nat}

theorem Chosen.unique {m : Nat} (h : Chosen cwd tells downloadFolder disk name n)
    (h' : Chosen cwd tells downloadFolder disk name m) : n = m := by
  -- The smaller one would be in use and free.
  rcases Nat.lt_trichotomy n m with hlt | heq | hgt
  · obtain ⟨htells, hused⟩ := h'.taken n hlt
    have := h'.le
    exact absurd (h.free (by omega) htells) hused
  · exact heq
  · obtain ⟨htells, hused⟩ := h.taken m hgt
    have := h.le
    exact absurd (h'.free (by omega) htells) hused

theorem copyPath_succ (downloadFolder name : Bytes) (n : Nat) :
    copyPath downloadFolder name (n + 1) = copyPath downloadFolder name n ++ copySuffix := by
  simp [copyPath, List.replicate_succ']

theorem fileExists_eq_true_iff {tells : Bool} {path : Bytes} :
    fileExists cwd tells disk path = .ok true ↔ tells = true ∧ find cwd disk path ≠ none := by
  unfold fileExists
  cases tells with
  | false => simp
  | true => simp [Option.isSome_iff_ne_none]

theorem copyLoop_chosen {attempts : Nat} {path : Bytes}
    {existence : Except Platform.IOError Bool}
    (hpath : path = copyPath downloadFolder name attempts)
    (hexistence : existence = fileExists cwd (tells attempts) disk path)
    (hle : attempts ≤ MAX_COPY_ATTEMPTS)
    (htaken : ∀ j < attempts,
      tells j = true ∧ find cwd disk (copyPath downloadFolder name j) ≠ none) :
    ∃ n, Chosen cwd tells downloadFolder disk name n ∧
      copyLoop cwd tells disk attempts path existence = (copyPath downloadFolder name n, n) := by
  fun_induction copyLoop cwd tells disk attempts path existence with
  | case1 attempts path existence hcond ih =>
    have hnext : path ++ copySuffix = copyPath downloadFolder name (attempts + 1) := by
      rw [hpath, copyPath_succ]
    apply ih hnext rfl hcond.1
    intro j hj
    rcases Nat.lt_succ_iff_lt_or_eq.mp hj with hlt | heq
    · exact htaken j hlt
    · rw [heq, ← hpath]
      apply fileExists_eq_true_iff.mp
      rw [← hexistence, hcond.2]
  | case2 attempts path existence hcond =>
    refine ⟨attempts, ⟨hle, htaken, ?_⟩, by rw [hpath]⟩
    intro hlt htells
    by_contra hused
    apply hcond
    rw [hexistence]
    exact ⟨hlt, fileExists_eq_true_iff.mpr ⟨htells, by rwa [hpath]⟩⟩

theorem chooseFolder_chosen (cwd : Location) (folderFaults : FolderFaults)
    (downloadFolder : Bytes) (disk : Disk) (name : Bytes) :
    ∃ n, Chosen cwd folderFaults.tells downloadFolder disk name n ∧
      chooseFolder cwd folderFaults downloadFolder disk name =
        (copyPath downloadFolder name n, n) := by
  have hzero : downloadFolder ++ 47 :: name = copyPath downloadFolder name 0 := by
    simp [copyPath]
  exact copyLoop_chosen hzero rfl (Nat.zero_le _) (fun j hj => absurd hj (Nat.not_lt_zero j))

theorem Chosen.chooseFolder_eq {folderFaults : FolderFaults}
    (h : Chosen cwd folderFaults.tells downloadFolder disk name n) :
    chooseFolder cwd folderFaults downloadFolder disk name =
      (copyPath downloadFolder name n, n) := by
  obtain ⟨m, hm, heq⟩ := chooseFolder_chosen cwd folderFaults downloadFolder disk name
  rw [heq, h.unique hm]

/-- A name got longer by some copies of the suffix, or by none. -/
inductive Lengthened : Bytes → Prop where
  | nil : Lengthened []
  | extension {w : Bytes} (h : Extension w) : Lengthened w

theorem Lengthened.append_copySuffix {w : Bytes} (h : Lengthened w) :
    Lengthened (w ++ copySuffix) := by
  cases h with
  | nil => exact .extension ⟨by decide, by decide, by decide⟩
  | extension h =>
    refine .extension ⟨?_, ?_, ?_⟩
    · simp [h.nul, copySuffix]
    · simp [h.slash, copySuffix]
    · have := h.long
      rw [List.length_append]
      omega

theorem Lengthened.plain {w : Bytes} (h : Lengthened w) (hname : Plain name) :
    Plain (name ++ w) := by
  cases h with
  | nil => rwa [List.append_nil]
  | extension hw => exact hw.plain hname.nul hname.slash

theorem lengthened_copies (n : Nat) : Lengthened (List.replicate n copySuffix).flatten := by
  induction n with
  | zero => exact .nil
  | succ n ih =>
    rw [List.replicate_succ', List.flatten_append, List.flatten_singleton]
    exact ih.append_copySuffix

/-! ### What becomes of a file -/

/-- The shape of the disk once some files have been made in the folder:
    their directories and what has been touched are there as well. -/
def laidOut (cwd : Location) (folder : Bytes) (σ : Shape Bytes) (files : List File) :
    Shape Bytes where
  dirs := σ.dirs ∪ {loc | ∃ f ∈ files, loc ∈ pathWay cwd (fileDirpath folder f)}
  files := σ.files ∪ {loc | ∃ f ∈ files, ∃ path, touchedPath folder f = some path ∧
    loc = location cwd path}

/-- The directory of the `k`-th file is made, and the file is opened. -/
structure Opened (cwd : Location) (faults : FileFaults) (folder : Bytes) (k : Nat)
    (σ : Shape Bytes) (file : File) (path : Bytes) : Prop where
  dir : Creatable cwd (faults.create k) σ (fileDirpath folder file)
  touched : touchedPath folder file = some path
  openable : Openable cwd (faults.touch k) (σ.addDirs (pathWay cwd (fileDirpath folder file))) path

section

variable (cwd : Location) (faults : FileFaults) (folder : Bytes) (k : Nat) (σ : Shape Bytes)
  (file : File)

/-- The file is made. -/
def FileMade : Prop :=
  (∃ path, Opened cwd faults folder k σ file path) ∧ 0 < file.length ∧
    FitsInt64 (file.length - 1) ∧ (faults.touch k).good = true

/-- Something escapes: the directory is made, but the path has no last
    section, or the file is opened and has no last byte. -/
def FileEscapes : Prop :=
  Creatable cwd (faults.create k) σ (fileDirpath folder file) ∧
    (file.filepath = [] ∨
      (∃ path, Opened cwd faults folder k σ file path) ∧ ¬ Fillable file.length)

/-- An error is reported. -/
def FileFails : Prop :=
  ¬ FileMade cwd faults folder k σ file ∧ ¬ FileEscapes cwd faults folder k σ file

/-- The locations that are there because of the file. -/
def brings : Set Location :=
  reached cwd (faults.create k) σ (fileDirpath folder file) ∪
    {loc | ∃ path, Opened cwd faults folder k σ file path ∧ loc = location cwd path}

end

variable {faults : FileFaults} {σ : Shape Bytes} {file : File} {files : List File}

/-- A path that can be touched has a last section. -/
theorem filepath_ne_nil {path : Bytes} (h : touchedPath folder file = some path) :
    file.filepath ≠ [] := by
  intro hnil
  rw [touchedPath_eq_map, hnil] at h
  injection h

theorem FileMade.not_escapes (h : FileMade cwd faults folder k σ file) :
    ¬ FileEscapes cwd faults folder k σ file := by
  intro hescapes
  obtain ⟨⟨path, hopened⟩, hpos, hfits, _⟩ := h
  rcases hescapes.2 with hnil | ⟨_, hbad⟩
  · exact filepath_ne_nil hopened.touched hnil
  · exact hbad ⟨by omega, hfits⟩

theorem laidOut_nil : laidOut cwd folder σ [] = σ := by
  ext loc <;> simp [laidOut]

theorem laidOut_cons : laidOut cwd folder σ (file :: files) =
    laidOut cwd folder (laidOut cwd folder σ [file]) files := by
  ext loc <;> simp [laidOut, or_assoc]

/-- A file that has been made is where it belongs. -/
theorem laidOut_singleton {path : Bytes} (hpath : touchedPath folder file = some path) :
    laidOut cwd folder σ [file] =
      (σ.addDirs (pathWay cwd (fileDirpath folder file))).addFile (location cwd path) := by
  ext loc <;> simp [laidOut, Shape.addDirs, Shape.addFile, hpath]

/-- How the result of a file is decided. -/
inductive FileResult (cwd : Location) (faults : FileFaults) (folder : Bytes) (k : Nat)
    (disk : Disk) (file : File) : Disk × Outcome Empty Bool → Prop where
  | made {disk' : Disk} (h : FileMade cwd faults folder k disk.shape file)
      (shape : disk'.shape = laidOut cwd folder disk.shape [file]) :
      FileResult cwd faults folder k disk file (disk', .ok true)
  | fails {disk' : Disk} (h : FileFails cwd faults folder k disk.shape file) :
      FileResult cwd faults folder k disk file (disk', .ok false)
  | escapes {disk' : Disk} {stop : Stop Empty}
      (h : FileEscapes cwd faults folder k disk.shape file) :
      FileResult cwd faults folder k disk file (disk', .error stop)

/-- The result is decided like that, and there is what there should be. -/
structure FileSpec (cwd : Location) (faults : FileFaults) (folder : Bytes) (k : Nat)
    (disk : Disk) (file : File) (result : Disk × Outcome Empty Bool) : Prop where
  decided : FileResult cwd faults folder k disk file result
  present : ∀ loc, result.1.shape.Present loc ↔
    disk.shape.Present loc ∨ loc ∈ brings cwd faults folder k disk.shape file

section

variable {path : Bytes} {disk₁ : Disk}

theorem fileSpec_of_not_creatable
    (hdir : ¬ Creatable cwd (faults.create k) disk.shape (fileDirpath folder file))
    (hshape : disk'.shape = disk.shape.addDirs
      (reached cwd (faults.create k) disk.shape (fileDirpath folder file))) :
    FileSpec cwd faults folder k disk file (disk', .ok false) := by
  have hopened : ∀ path, ¬ Opened cwd faults folder k disk.shape file path :=
    fun path h => hdir h.dir
  constructor
  · exact .fails ⟨fun h => h.1.elim hopened, fun h => hdir h.1⟩
  · intro loc
    simp [hshape, Shape.present_addDirs, brings, hopened]

/-- Once there is a directory, what the file brings is known. -/
theorem mem_brings (hdir : Creatable cwd (faults.create k) σ (fileDirpath folder file))
    {loc : Location} : loc ∈ brings cwd faults folder k σ file ↔
      loc ∈ pathWay cwd (fileDirpath folder file) ∨
        ∃ path, Opened cwd faults folder k σ file path ∧ loc = location cwd path := by
  rw [brings, reached_of_creatable hdir]
  rfl

/-- The directory is all there is of the file. -/
theorem present_of_not_opened
    (hdir : Creatable cwd (faults.create k) disk.shape (fileDirpath folder file))
    (hshape : disk'.shape = disk.shape.addDirs (pathWay cwd (fileDirpath folder file)))
    (hopened : ∀ path, ¬ Opened cwd faults folder k disk.shape file path) (loc : Location) :
    disk'.shape.Present loc ↔
      disk.shape.Present loc ∨ loc ∈ brings cwd faults folder k disk.shape file := by
  simp [hshape, Shape.present_addDirs, mem_brings hdir, hopened]

theorem fileSpec_of_no_section
    (hdir : Creatable cwd (faults.create k) disk.shape (fileDirpath folder file))
    (hshape : disk'.shape = disk.shape.addDirs (pathWay cwd (fileDirpath folder file)))
    (hnil : file.filepath = []) :
    FileSpec cwd faults folder k disk file (disk', .error .trap) := by
  constructor
  · exact .escapes ⟨hdir, .inl hnil⟩
  · apply present_of_not_opened hdir hshape
    intro path h
    exact filepath_ne_nil h.touched hnil

theorem fileSpec_of_not_openable
    (hdir : Creatable cwd (faults.create k) disk.shape (fileDirpath folder file))
    (hshape : disk'.shape = disk.shape.addDirs (pathWay cwd (fileDirpath folder file)))
    (htouched : touchedPath folder file = some path)
    (hno : ¬ Openable cwd (faults.touch k) disk'.shape path) :
    FileSpec cwd faults folder k disk file (disk', .ok false) := by
  have hopened : ∀ path, ¬ Opened cwd faults folder k disk.shape file path := by
    intro path' h
    obtain rfl : path = path' := Option.some.inj (htouched.symm.trans h.touched)
    rw [hshape] at hno
    exact hno h.openable
  constructor
  · refine .fails ⟨fun h => h.1.elim hopened, fun h => ?_⟩
    rcases h.2 with hnil | hbad
    · exact filepath_ne_nil htouched hnil
    · exact hbad.1.elim hopened
  · exact present_of_not_opened hdir hshape hopened

theorem present_of_opened (hopened : Opened cwd faults folder k disk.shape file path)
    (hshape : disk'.shape = (disk.shape.addDirs (pathWay cwd (fileDirpath folder file))).addFile
      (location cwd path)) (loc : Location) :
    disk'.shape.Present loc ↔
      disk.shape.Present loc ∨ loc ∈ brings cwd faults folder k disk.shape file := by
  have honly : (∃ path', Opened cwd faults folder k disk.shape file path' ∧
      loc = location cwd path') ↔ loc = location cwd path := by
    constructor
    · intro h
      obtain ⟨path', hopened', hloc⟩ := h
      rw [hloc, Option.some.inj (hopened'.touched.symm.trans hopened.touched)]
    · intro hloc
      exact ⟨path, hopened, hloc⟩
  rw [hshape, Shape.present_addFile, Shape.present_addDirs, mem_brings hopened.dir, honly, or_assoc]

/-- What has been opened is decided by its length. -/
theorem Opened.fails (hopened : Opened cwd faults folder k σ file path) {e : Platform.IOError}
    (hfill : (fill (faults.touch k) file.length).2 = .error (.error e)) :
    FileFails cwd faults folder k σ file := by
  have hfillable : Fillable file.length := fill_reports_iff.mp (.inr ⟨e, hfill⟩)
  constructor
  · intro h
    rw [fill_eq_ok_iff.mpr h.2] at hfill
    injection hfill
  · intro h
    exact h.2.elim (filepath_ne_nil hopened.touched) fun hbad => hbad.2 hfillable

theorem Opened.escapes (hopened : Opened cwd faults folder k σ file path)
    (hfill : ¬ Reports (fill (faults.touch k) file.length).2) :
    FileEscapes cwd faults folder k σ file :=
  ⟨hopened.dir, .inr ⟨⟨path, hopened⟩, fun h => hfill (fill_reports_iff.mpr h)⟩⟩

end

/-- What becomes of a file is decided by the names, the shape of the disk and
    how the calls fare. -/
theorem createFile_spec : FileSpec cwd faults folder k disk file
    (createFile cwd (faults.create k) (faults.touch k) folder disk file) := by
  obtain ⟨hshape, hok⟩ := createDirectories_shape cwd (faults.create k) disk
    (folder ++ 47 :: file.filename) true (dirname_filename folder file)
  unfold createFile
  cases hcreate : createDirectories cwd (faults.create k) disk (folder ++ 47 :: file.filename)
      true with
  | mk disk₁ made =>
    simp only [hcreate] at hshape hok
    cases made with
    | error e =>
      -- There is no directory, and nothing else is tried.
      apply fileSpec_of_not_creatable _ hshape
      intro hdir
      have hmade := (hok (fileDirpath folder file)).mpr ⟨rfl, hdir⟩
      injection hmade
    | ok dir =>
      obtain ⟨hpath, hdir⟩ := (hok dir).mp rfl
      rw [reached_of_creatable hdir] at hshape
      have htouched := touchedPath_eq_map folder file
      rw [hpath]
      cases hlast : file.filepath.getLast? with
      | none =>
        -- `back()` of an empty path
        exact fileSpec_of_no_section hdir hshape (List.getLast?_eq_none_iff.mp hlast)
      | some last =>
        rw [hlast, Option.map_some] at htouched
        by_cases hopenable : Openable cwd (faults.touch k) disk₁.shape
            (fileDirpath folder file ++ 47 :: last)
        · obtain ⟨disk₂, htouch, hshape₂⟩ := touch_of_openable hopenable file.length
          rw [hshape] at hopenable hshape₂
          have hopened : Opened cwd faults folder k disk.shape file _ := ⟨hdir, htouched, hopenable⟩
          have hpresent := present_of_opened hopened hshape₂
          simp only [htouch]
          -- The file is there now. What `touch` returns is up to its length.
          cases hfill : (fill (faults.touch k) file.length).2 with
          | ok _ =>
            refine ⟨.made ⟨⟨_, hopened⟩, fill_eq_ok_iff.mp hfill⟩ ?_, hpresent⟩
            rw [hshape₂, laidOut_singleton htouched]
          | error stop =>
            cases stop with
            | error e => exact ⟨.fails (hopened.fails hfill), hpresent⟩
            | throw x => exact ⟨.escapes (hopened.escapes (by simp [hfill, Reports])), hpresent⟩
            | trap => exact ⟨.escapes (hopened.escapes (by simp [hfill, Reports])), hpresent⟩
            | outOfFuel => exact ⟨.escapes (hopened.escapes (by simp [hfill, Reports])), hpresent⟩
        · obtain ⟨e, htouch⟩ := touch_of_not_openable hopenable file.length
          simp only [htouch]
          exact fileSpec_of_not_openable hdir hshape htouched hopenable

/-! ### The files -/

section

variable (cwd : Location) (faults : FileFaults) (folder : Bytes) (k : Nat) (σ : Shape Bytes)
  (files : List File)

/-- The first `j` files are made, beginning with the `k`-th call. -/
def MadeBefore (j : Nat) : Prop :=
  ∀ i < j, ∀ f, files[i]? = some f →
    FileMade cwd faults folder (k + i) (laidOut cwd folder σ (files.take i)) f

/-- All files are made. -/
def AllMade : Prop := MadeBefore cwd faults folder k σ files files.length

/-- The loop comes to a file for which `P` holds. -/
def ComesTo (P : Nat → Shape Bytes → File → Prop) : Prop :=
  ∃ j f, files[j]? = some f ∧ MadeBefore cwd faults folder k σ files j ∧
    P (k + j) (laidOut cwd folder σ (files.take j)) f

end

/-- Files that are made have a length. -/
theorem AllMade.length_pos (h : AllMade cwd faults folder k σ files) :
    ∀ f ∈ files, 0 < f.length := by
  intro f hf
  obtain ⟨j, hj⟩ := List.mem_iff_getElem?.mp hf
  exact (h j (List.getElem?_eq_some_iff.mp hj).1 f hj).2.1

theorem madeBefore_succ {j : Nat} : MadeBefore cwd faults folder k σ (file :: files) (j + 1) ↔
    FileMade cwd faults folder k σ file ∧
      MadeBefore cwd faults folder (k + 1) (laidOut cwd folder σ [file]) files j := by
  constructor
  · intro h
    constructor
    · have hzero := h 0 (Nat.succ_pos j) file rfl
      rwa [List.take_zero, laidOut_nil] at hzero
    · intro i hi f hf
      have hsucc := h (i + 1) (Nat.succ_lt_succ hi) f hf
      rwa [List.take_succ_cons, laidOut_cons, ← Nat.add_assoc, Nat.add_right_comm] at hsucc
  · intro h i hi f hf
    obtain ⟨hfile, hrest⟩ := h
    cases i with
    | zero =>
      rw [List.getElem?_cons_zero] at hf
      injection hf with hf
      rwa [← hf, List.take_zero, laidOut_nil]
    | succ i =>
      rw [List.take_succ_cons, laidOut_cons, ← Nat.add_assoc, Nat.add_right_comm]
      exact hrest i (Nat.lt_of_succ_lt_succ hi) f hf

theorem allMade_cons : AllMade cwd faults folder k σ (file :: files) ↔
    FileMade cwd faults folder k σ file ∧
      AllMade cwd faults folder (k + 1) (laidOut cwd folder σ [file]) files := madeBefore_succ

theorem comesTo_cons {P : Nat → Shape Bytes → File → Prop} :
    ComesTo cwd faults folder k σ (file :: files) P ↔
      P k σ file ∨ FileMade cwd faults folder k σ file ∧
        ComesTo cwd faults folder (k + 1) (laidOut cwd folder σ [file]) files P := by
  constructor
  · intro h
    obtain ⟨j, f, hf, hbefore, hP⟩ := h
    cases j with
    | zero =>
      rw [List.getElem?_cons_zero] at hf
      injection hf with hf
      rw [List.take_zero, laidOut_nil, ← hf] at hP
      exact .inl hP
    | succ j =>
      obtain ⟨hfile, hrest⟩ := madeBefore_succ.mp hbefore
      rw [List.take_succ_cons, laidOut_cons, ← Nat.add_assoc, Nat.add_right_comm] at hP
      exact .inr ⟨hfile, j, f, hf, hrest, hP⟩
  · intro h
    rcases h with hP | ⟨hfile, j, f, hf, hrest, hP⟩
    · refine ⟨0, file, rfl, fun i hi => absurd hi (Nat.not_lt_zero i), ?_⟩
      rwa [List.take_zero, laidOut_nil]
    · refine ⟨j + 1, f, hf, madeBefore_succ.mpr ⟨hfile, hrest⟩, ?_⟩
      rwa [List.take_succ_cons, laidOut_cons, ← Nat.add_assoc, Nat.add_right_comm]

/-- What the loop over the files does. The induction follows the loop: the
    first file decides whether it goes on. -/
theorem filesLoop_spec (cwd : Location) (faults : FileFaults) (folder : Bytes) (k : Nat)
    (files : List File) (disk : Disk) :
    ((filesLoop cwd faults folder k files disk).2 = .ok true ↔
      AllMade cwd faults folder k disk.shape files) ∧
    ((filesLoop cwd faults folder k files disk).2 = .ok false ↔
      ComesTo cwd faults folder k disk.shape files (FileFails cwd faults folder)) ∧
    ((∃ stop, (filesLoop cwd faults folder k files disk).2 = .error stop) ↔
      ComesTo cwd faults folder k disk.shape files (FileEscapes cwd faults folder)) ∧
    ∀ loc, (filesLoop cwd faults folder k files disk).1.shape.Present loc ↔
      disk.shape.Present loc ∨ ComesTo cwd faults folder k disk.shape files
        fun k σ f => loc ∈ brings cwd faults folder k σ f := by
  induction files generalizing k disk with
  | nil => simp [filesLoop, AllMade, MadeBefore, ComesTo]
  | cons file files ih =>
    obtain ⟨hresult, hpresent⟩ : FileSpec cwd faults folder k disk file _ := createFile_spec
    simp only [allMade_cons, comesTo_cons]
    cases hcreate : createFile cwd (faults.create k) (faults.touch k) folder disk file with
    | mk disk₁ made =>
      rw [hcreate] at hresult
      simp only [hcreate] at hpresent
      cases hresult with
      | made hmade hshape =>
        -- The loop goes on.
        have hnotfails : ¬ FileFails cwd faults folder k disk.shape file := fun h => h.1 hmade
        have hloop : filesLoop cwd faults folder k (file :: files) disk =
            filesLoop cwd faults folder (k + 1) files disk₁ := by
          rw [filesLoop, hcreate]
        rw [hloop]
        obtain ⟨htrue, hfalse, herror, hpres⟩ := ih (k + 1) disk₁
        rw [htrue, hfalse, herror, hshape]
        simp only [hmade, hnotfails, hmade.not_escapes, true_and, false_or]
        intro loc
        rw [hpres, hpresent, hshape, or_assoc]
      | fails hfails =>
        have hloop : filesLoop cwd faults folder k (file :: files) disk = (disk₁, .ok false) := by
          rw [filesLoop, hcreate]
        rw [hloop]
        simp [hfails, hfails.1, hfails.2, hpresent]
      | @escapes _ stop hescapes =>
        have hnot : ¬ FileMade cwd faults folder k disk.shape file :=
          fun h => h.not_escapes hescapes
        have hloop : filesLoop cwd faults folder k (file :: files) disk = (disk₁, .error stop) := by
          rw [filesLoop, hcreate]
        rw [hloop]
        have hnotfails : ¬ FileFails cwd faults folder k disk.shape file := fun h => h.2 hescapes
        simp [hescapes, hnot, hnotfails, hpresent]

/-! ### The folder -/

variable {folderFaults : FolderFaults} {d : TorrentFile}

/-- Without a folder there are no files. -/
theorem createOutput_of_not_creatable (faults : FileFaults)
    (hn : Chosen cwd folderFaults.tells downloadFolder disk d.name n)
    (hfolder : ¬ Creatable cwd folderFaults.create disk.shape (copyPath downloadFolder d.name n)) :
    ∃ disk', createOutput cwd folderFaults faults downloadFolder disk d =
        (disk', d, .ok .noFolder) ∧ disk ≤ disk' ∧
      disk'.shape = disk.shape.addDirs
        (reached cwd folderFaults.create disk.shape (copyPath downloadFolder d.name n)) := by
  obtain ⟨hshape, hok⟩ := createDirectories_shape cwd folderFaults.create disk
    (copyPath downloadFolder d.name n) false rfl
  cases hcreate : createDirectories cwd folderFaults.create disk
      (copyPath downloadFolder d.name n) false with
  | mk disk₁ made =>
    simp only [hcreate] at hshape hok
    cases made with
    | ok folder => exact absurd ((hok folder).mp rfl).2 hfolder
    | error e =>
      refine ⟨disk₁, ?_, (createDirectories_le hcreate).1, hshape⟩
      simp [createOutput, hn.chooseFolder_eq, Nat.not_lt.mpr hn.le, hcreate]

/-- With a folder the files are made in it. -/
theorem createOutput_of_creatable (faults : FileFaults)
    (hn : Chosen cwd folderFaults.tells downloadFolder disk d.name n)
    (hfolder : Creatable cwd folderFaults.create disk.shape (copyPath downloadFolder d.name n)) :
    ∃ disk₁ disk₂ made, disk ≤ disk₁ ∧
      find cwd disk₁ (copyPath downloadFolder d.name n) =
        some (location cwd (copyPath downloadFolder d.name n)) ∧
      disk₁.shape = disk.shape.addDirs (pathWay cwd (copyPath downloadFolder d.name n)) ∧
      filesLoop cwd faults (copyPath downloadFolder d.name n) 0 d.files disk₁ = (disk₂, made) ∧
      createOutput cwd folderFaults faults downloadFolder disk d =
        (disk₂, { d with folderName := copyPath downloadFolder d.name n },
          made.map fun complete => if complete then .complete else .mustCleanup) := by
  obtain ⟨hshape, hok⟩ := createDirectories_shape cwd folderFaults.create disk
    (copyPath downloadFolder d.name n) false rfl
  rw [reached_of_creatable hfolder] at hshape
  have hmade := (hok (copyPath downloadFolder d.name n)).mpr ⟨rfl, hfolder⟩
  cases hcreate : createDirectories cwd folderFaults.create disk
      (copyPath downloadFolder d.name n) false with
  | mk disk₁ made₁ =>
    rw [hcreate] at hshape hmade
    obtain ⟨hle, hfind⟩ := createDirectories_le hcreate
    cases hloop : filesLoop cwd faults (copyPath downloadFolder d.name n) 0 d.files disk₁ with
    | mk disk₂ made =>
      refine ⟨disk₁, disk₂, made, hle, hfind _ hmade, hshape, hloop, ?_⟩
      simp only at hmade
      simp only [createOutput, hn.chooseFolder_eq, Nat.not_lt.mpr hn.le, hcreate, hmade, hloop,
        if_false]
      cases made with
      | error stop => rfl
      | ok complete => cases complete <;> rfl

/-- What comes of the whole call. -/
theorem prepareTorrentFiles_spec (faults : FileFaults)
    (hn : Chosen cwd folderFaults.tells downloadFolder disk d.name n)
    (hfolder : folder = copyPath downloadFolder d.name n) :
    ((prepareTorrentFiles cwd folderFaults faults downloadFolder disk d).2.2 = .ok true ↔
      Creatable cwd folderFaults.create disk.shape folder ∧
        AllMade cwd faults folder 0 (disk.shape.addDirs (pathWay cwd folder)) d.files) ∧
    ((prepareTorrentFiles cwd folderFaults faults downloadFolder disk d).2.2 = .ok true →
      (prepareTorrentFiles cwd folderFaults faults downloadFolder disk d).2.1 =
        { d with folderName := folder }) ∧
    ((∃ stop, (prepareTorrentFiles cwd folderFaults faults downloadFolder disk d).2.2 =
        .error stop) ↔
      Creatable cwd folderFaults.create disk.shape folder ∧
        ComesTo cwd faults folder 0 (disk.shape.addDirs (pathWay cwd folder)) d.files
          (FileEscapes cwd faults folder)) := by
  rw [hfolder]
  unfold prepareTorrentFiles
  by_cases hcreatable : Creatable cwd folderFaults.create disk.shape
      (copyPath downloadFolder d.name n)
  · obtain ⟨disk₁, disk₂, made, _, _, hshape, hloop, hout⟩ :=
      createOutput_of_creatable faults hn hcreatable
    obtain ⟨hall, _, hescapes, _⟩ := filesLoop_spec cwd faults (copyPath downloadFolder d.name n) 0
      d.files disk₁
    rw [hloop, hshape] at hall hescapes
    rw [hout, ← hall, ← hescapes, and_iff_right hcreatable, and_iff_right hcreatable]
    cases made with
    | error stop => simp [Except.map]
    | ok complete => cases complete <;> simp [Except.map]
  · obtain ⟨disk', hout, _, _⟩ := createOutput_of_not_creatable faults hn hcreatable
    simp [hout, hcreatable]

/-- Where there is something before the cleanup. -/
theorem present_createOutput (faults : FileFaults)
    (hn : Chosen cwd folderFaults.tells downloadFolder disk d.name n)
    (hfolder : folder = copyPath downloadFolder d.name n) {loc : Location}
    (hnew : disk.node loc = none) :
    (createOutput cwd folderFaults faults downloadFolder disk d).1.node loc ≠ none ↔
      loc ∈ reached cwd folderFaults.create disk.shape folder ∨
      Creatable cwd folderFaults.create disk.shape folder ∧
        ComesTo cwd faults folder 0 (disk.shape.addDirs (pathWay cwd folder)) d.files
          fun k σ f => loc ∈ brings cwd faults folder k σ f := by
  have habsent : ¬ disk.shape.Present loc := by
    rw [FileTree.present_iff, hnew]
    exact not_not.mpr rfl
  rw [hfolder, ← FileTree.present_iff]
  by_cases hcreatable : Creatable cwd folderFaults.create disk.shape
      (copyPath downloadFolder d.name n)
  · obtain ⟨disk₁, disk₂, made, _, _, hshape, hloop, hout⟩ :=
      createOutput_of_creatable faults hn hcreatable
    obtain ⟨_, _, _, hpresent⟩ := filesLoop_spec cwd faults (copyPath downloadFolder d.name n) 0
      d.files disk₁
    rw [hloop] at hpresent
    rw [hout, hpresent, hshape, Shape.present_addDirs, reached_of_creatable hcreatable,
      and_iff_right hcreatable, or_iff_right habsent]
  · obtain ⟨disk', hout, _, hshape⟩ := createOutput_of_not_creatable faults hn hcreatable
    rw [hout, hshape, Shape.present_addDirs, or_iff_right habsent]
    simp [hcreatable]

end Furrent.Client
