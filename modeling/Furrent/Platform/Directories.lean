import Furrent.Framework.Shape
import Furrent.Platform.Io

/-! # Directories

    Model of `exists`, `touch`, `remove`, `create_directories` and
    `load_file_text` in `src/platform/io.cpp` on a tree of directories and
    files. A call may fail for reasons outside the tree, such as missing
    permissions or a full disk; how it fares is a parameter. There are no
    symbolic links.

    `create_directories` and `touch` only add to the tree. Whether they
    succeed, and where there is something afterwards, is described on the
    shape of the tree (`createDirectories_shape`, `touch_shape`). -/

namespace Furrent.Platform.Io

open Cpp Path

abbrev Location := List Bytes

abbrev Disk := FileTree Bytes Bytes

/-! ### The code -/

section

variable (cwd : Location)

/-- Where a path leads, if there is anything. -/
def find (disk : Disk) (path : Bytes) : Option Location :=
  if cString path = [] then none else disk.walk (start cwd path) (steps path)

/-- `exists`. The operating system may not tell. -/
def fileExists (tells : Bool) (disk : Disk) (filename : Bytes) : Except IOError Bool :=
  if tells then .ok (find cwd disk filename).isSome else .error .genericError

/-- The error code of a system call. -/
inductive Errno where
  | fileExists
  | other
  deriving DecidableEq, Repr

/-- How `std::filesystem::create_directories` fares. -/
structure DirFault where
  tells : Bool := true
  /-- The directories that cannot be made. -/
  refused : Location → Option Errno := fun _ => none

/-- `std::filesystem::create_directories`. -/
def makePath (fault : DirFault) (disk : Disk) (path : Bytes) : Disk × Option Errno :=
  if fault.tells = false ∨ cString path = [] ∨ disk.node (start cwd path) ≠ some .dir then
    (disk, some .other)
  else
    match disk.makeDirs fault.refused (start cwd path) (steps path) with
    | (disk, .ok _) => (disk, none)
    | (disk, .error .notADirectory) => (disk, some .other)
    | (disk, .error (.refused errno)) => (disk, some errno)

/-- `create_directories`. -/
def createDirectories (fault : DirFault) (disk : Disk) (path : Bytes) (skipLast : Bool) :
    Disk × Except IOError Bytes :=
  match if skipLast then dirname path else some path with
  | none => (disk, .error .invalidPath)
  | some realPath =>
    match makePath cwd fault disk realPath with
    | (disk, some .fileExists) => (disk, .error .directoryAlreadyExists)
    | (disk, some .other) => (disk, .error .genericError)
    | (disk, none) => (disk, .ok realPath)

/-- How `touch` fares. -/
structure TouchFault where
  tells : Bool := true
  opens : Bool := true
  /-- How many bytes get to the file. -/
  written : Nat := 1
  /-- `stream.good()` at the end. Bytes may be lost later, when the stream is
      closed. -/
  good : Bool := true

/-- `touch` after the file has been opened: what is in the file, and the
    result. -/
def fill (fault : TouchFault) (size : Int) : Bytes × Outcome IOError Unit :=
  if size = 0 then ([], .error (.throw (.invalidArgument "empty file")))
  else
    match (int64 (size - 1) : Outcome IOError Int) with
    | .error stop => ([], .error stop)
    | .ok offset =>
      -- `seekp` fails, and nothing is written to a failed stream
      if offset < 0 then ([], .error (.error .genericError))
      else
        -- `stream << 1` writes the digit
        (overwrite 0 [] offset.toNat ([49].take fault.written),
          if fault.good then .ok () else .error (.error .genericError))

/-- `touch`. -/
def touch (fault : TouchFault) (disk : Disk) (filename : Bytes) (size : Int) :
    Disk × Outcome IOError Unit :=
  match fileExists cwd fault.tells disk filename with
  | .error _ => (disk, .error (.error .genericError))
  | .ok true => (disk, .error (.error .fileAlreadyExists))
  | .ok false =>
    match if fault.opens then disk.place (start cwd filename) (steps filename) else none with
    | none => (disk, .error (.error .genericError))
    | some (dir, name) => (disk.add dir name (.file (fill fault size).1), (fill fault size).2)

/-- `remove`. What is on the way to one of the locations `kept` cannot be
    removed. -/
def remove (kept : List Location) (disk : Disk) (filename : Bytes) :
    Disk × Except IOError Unit :=
  match find cwd disk filename with
  | none => (disk, .ok ())
  | some loc =>
    if ((disk.prune kept loc).node loc).isSome then (disk.prune kept loc, .error .genericError)
    else (disk.prune kept loc, .ok ())

/-- How reading a file fares. -/
structure ReadFault where
  opens : Bool := true
  /-- How many bytes can be read, unless all. -/
  read : Option Nat := none

/-- `load_file_text`. A directory can be opened, but nothing is read. An
    error that comes later than the opening goes unnoticed. -/
def loadFileText (fault : ReadFault) (disk : Disk) (filepath : Bytes) : Except IOError Bytes :=
  match (find cwd disk filepath).bind disk.node with
  | none => .error .cannotOpenFile
  | some node =>
    if fault.opens = false then .error .cannotOpenFile
    else
      match node with
      | .dir => .ok []
      | .file content => .ok (content.take (fault.read.getD content.length))

end

/-! ### Paths -/

variable {cwd : Location} {disk disk' disk'' : Disk} {path : Bytes} {loc : Location}

theorem find_eq_some (h : find cwd disk path = some loc) : loc = location cwd path := by
  unfold find at h
  split at h
  · injection h
  · exact FileTree.walk_eq_some h

/-- A path that leads somewhere leads there while the tree grows. -/
theorem find_of_le (hle : disk ≤ disk') (h : find cwd disk path = some loc) :
    find cwd disk' path = some loc := by
  unfold find at h ⊢
  split at h
  · injection h
  · next hne =>
    rw [if_neg hne]
    exact FileTree.walk_of_le hle h

theorem ne_nil_of_find (h : find cwd disk path = some loc) : path ≠ [] := by
  rintro rfl
  injection h

/-- What follows a slash is looked up from where the path before it leads. -/
theorem find_append (h : find cwd disk path = some loc) (hnul : 0 ∉ path) (rest : Bytes) :
    find cwd disk (path ++ 47 :: rest) = disk.walk loc (steps rest) := by
  have hne := ne_nil_of_find h
  rw [find, cString_of_not_mem hnul, if_neg hne] at h
  rw [find, cString_append hnul, if_neg (by simp [hne]), start_append hne, steps_append hnul,
    FileTree.walk_append h]

/-- What follows a NUL is not looked at. -/
theorem find_append_of_mem (hnul : 0 ∈ path) (rest : Bytes) :
    find cwd disk (path ++ rest) = find cwd disk path := by
  rw [find, find, cString_append_of_mem hnul, start_append (List.ne_nil_of_mem hnul),
    steps_append_of_mem hnul]

theorem location_append (hne : path ≠ []) (hnul : 0 ∉ path) (rest : Bytes) :
    location cwd (path ++ 47 :: rest) = resolve (location cwd path) (steps rest) := by
  rw [location, start_append hne, steps_append hnul, resolve_append]
  rfl

/-- The locations on the way of a path. -/
def pathWay (cwd : Location) (path : Bytes) : Set Location := way (start cwd path) (steps path)

theorem forall_mem_pathWay {P : Location → Prop} : (∀ loc ∈ pathWay cwd path, P loc) ↔
    ∀ pre ∈ (steps path).inits, P (resolve (start cwd path) pre) := by
  simp only [List.mem_inits]
  constructor
  · intro h pre hpre
    exact h _ ⟨pre, hpre, rfl⟩
  · intro h loc hloc
    obtain ⟨pre, hpre, rfl⟩ := hloc
    exact h pre hpre

/-- Everything on the way of a path that leads somewhere is there. -/
theorem node_of_mem_pathWay (h : find cwd disk path = some loc) {loc' : Location}
    (hway : loc' ∈ pathWay cwd path) : disk.node loc' ≠ none := by
  obtain ⟨pre, hpre, rfl⟩ := hway
  unfold find at h
  split at h
  · injection h
  · exact FileTree.walk_visits h hpre

/-! ### Nothing is lost -/

theorem makePath_le {fault : DirFault} {r : Option Errno}
    (h : makePath cwd fault disk path = (disk', r)) :
    disk ≤ disk' ∧ (r = none → find cwd disk' path = some (location cwd path)) := by
  unfold makePath at h
  split at h
  · injection h with hdisk hr
    rw [← hdisk, ← hr]
    exact ⟨le_rfl, fun hnone => by injection hnone⟩
  · next hgood =>
    push Not at hgood
    obtain ⟨_, hpath, hdir⟩ := hgood
    cases hmake : disk.makeDirs fault.refused (start cwd path) (steps path) with
    | mk disk₁ made =>
      have hmade := FileTree.makeDirs_made hdir hmake
      rw [hmake] at h
      cases made with
      | error e =>
        cases e <;> injection h with hdisk hr <;> rw [← hdisk, ← hr] <;>
          exact ⟨hmade.le, fun hnone => by injection hnone⟩
      | ok loc =>
        injection h with hdisk hr
        rw [← hdisk]
        refine ⟨hmade.le, fun _ => ?_⟩
        have hwalk := hmade.ok loc rfl
        rw [find, if_neg hpath, hwalk, FileTree.walk_eq_some hwalk]
        rfl

/-- A path that `create_directories` has made leads somewhere. -/
theorem createDirectories_le {fault : DirFault} {skipLast : Bool} {r : Except IOError Bytes}
    (h : createDirectories cwd fault disk path skipLast = (disk', r)) :
    disk ≤ disk' ∧ ∀ p, r = .ok p → find cwd disk' p = some (location cwd p) := by
  unfold createDirectories at h
  split at h
  · injection h with hdisk hr
    rw [← hdisk, ← hr]
    exact ⟨le_rfl, fun p hp => by injection hp⟩
  · next realPath _ =>
    cases hmake : makePath cwd fault disk realPath with
    | mk disk₁ errno =>
      obtain ⟨hle, hfind⟩ := makePath_le hmake
      simp only [hmake] at h
      cases errno with
      | some e =>
        cases e <;> injection h with hdisk hr <;> rw [← hdisk, ← hr] <;>
          exact ⟨hle, fun p hp => by injection hp⟩
      | none =>
        injection h with hdisk hr
        rw [← hdisk, ← hr]
        refine ⟨hle, fun p hp => ?_⟩
        injection hp with hp
        rw [← hp]
        exact hfind rfl

theorem touch_le {fault : TouchFault} {size : Int} {r : Outcome IOError Unit}
    (h : touch cwd fault disk path size = (disk', r)) : disk ≤ disk' := by
  unfold touch at h
  split at h
  · injection h with hdisk _
    rw [hdisk]
  · injection h with hdisk _
    rw [hdisk]
  · split at h
    · injection h with hdisk _
      rw [hdisk]
    · next dir name _ =>
      injection h with hdisk _
      rw [← hdisk]
      exact disk.le_add dir name _

/-- A path with a place for a new file is not empty. -/
theorem cString_ne_nil {pre : List (Step Bytes)} {name : Bytes}
    (h : steps path = pre ++ [.down name]) : cString path ≠ [] := by
  intro hnil
  rw [steps, hnil] at h
  have hlast := congrArg List.getLast? h
  simp [Step.ofSegment] at hlast

/-- `touch` has made a file. -/
theorem find_touch {fault : TouchFault} {size : Int}
    (h : touch cwd fault disk path size = (disk', .ok ())) :
    ∃ loc, find cwd disk' path = some loc ∧
      disk'.node loc = some (.file (fill fault size).1) ∧ (fill fault size).2 = .ok () := by
  unfold touch at h
  split at h
  · injection h with _ h
    injection h
  · injection h with _ h
    injection h
  · next hexists =>
    split at h
    · injection h with _ h
      injection h
    · next dir name hplace =>
      have hplace' : disk.place (start cwd path) (steps path) = some (dir, name) := by
        split at hplace
        · exact hplace
        · injection hplace
      obtain ⟨pre, hsteps, hwalk, hdir⟩ := FileTree.place_eq_some_iff.mp hplace'
      have hpath := cString_ne_nil hsteps
      obtain ⟨hdisk, hfill⟩ := Prod.mk.inj h
      have hnone : disk.node (dir ++ [name]) = none := by
        have hfind : find cwd disk path = none := by
          unfold fileExists at hexists
          split at hexists
          · simpa using hexists
          · injection hexists
        rw [find, if_neg hpath, FileTree.walk_of_place hplace'] at hfind
        simpa using hfind
      have hnode := FileTree.node_add_self (n := .file (fill fault size).1) hdir hnone
      rw [hdisk] at hnode
      refine ⟨dir ++ [name], ?_, hnode, hfill⟩
      have hle : disk ≤ disk' := by
        rw [← hdisk]
        exact disk.le_add dir name _
      have hplace'' := FileTree.place_eq_some_iff.mpr
        ⟨pre, hsteps, FileTree.walk_of_le hle hwalk, FileTree.node_of_le hle hdir⟩
      rw [find, if_neg hpath, FileTree.walk_of_place hplace'', hnode]
      rfl

/-! ### What the calls need -/

/-- `create_directories` makes the path. -/
structure Creatable (cwd : Location) (fault : DirFault) (σ : Shape Bytes) (path : Bytes) :
    Prop where
  tells : fault.tells = true
  nonempty : cString path ≠ []
  begins : start cwd path ∈ σ.dirs
  clear : σ.Clear fault.refused (start cwd path) (steps path)

/-- The locations that `create_directories` gets to. -/
def reached (cwd : Location) (fault : DirFault) (σ : Shape Bytes) (path : Bytes) : Set Location :=
  {loc | fault.tells = true ∧ cString path ≠ [] ∧ start cwd path ∈ σ.dirs ∧
    loc ∈ σ.reach fault.refused (start cwd path) (steps path)}

/-- `touch` gets to open a new file. -/
structure Openable (cwd : Location) (fault : TouchFault) (σ : Shape Bytes) (path : Bytes) :
    Prop where
  tells : fault.tells = true
  opens : fault.opens = true
  named : ∃ pre name, steps path = pre ++ [.down name] ∧ way (start cwd path) pre ⊆ σ.dirs
  absent : ¬ σ.Present (location cwd path)

/-- There is a last byte, and its position can be computed. -/
def Fillable (size : Int) : Prop := size ≠ 0 ∧ FitsInt64 (size - 1)

section

variable {fault : DirFault} {σ : Shape Bytes}

theorem reached_of_creatable (h : Creatable cwd fault σ path) :
    reached cwd fault σ path = pathWay cwd path := by
  ext loc
  rw [pathWay, ← Shape.reach_of_clear h.clear]
  constructor
  · intro hloc
    exact hloc.2.2.2
  · intro hloc
    exact ⟨h.tells, h.nonempty, h.begins, hloc⟩

theorem reached_subset : reached cwd fault σ path ⊆ pathWay cwd path :=
  fun _ hloc => Shape.reach_subset_way hloc.2.2.2

theorem makePath_shape (cwd : Location) (fault : DirFault) (disk : Disk) (path : Bytes) :
    (makePath cwd fault disk path).1.shape =
        disk.shape.addDirs (reached cwd fault disk.shape path) ∧
      ((makePath cwd fault disk path).2 = none ↔ Creatable cwd fault disk.shape path) := by
  unfold makePath
  split
  · next hbad =>
    -- Nothing is tried.
    have hnone : reached cwd fault disk.shape path = ∅ := by
      rw [Set.eq_empty_iff_forall_notMem]
      intro loc hloc
      obtain ⟨htells, hpath, hbegins, _⟩ := hloc
      rcases hbad with hbad | hbad | hbad
      · rw [htells] at hbad
        injection hbad
      · exact hpath hbad
      · exact hbad hbegins
    rw [hnone, Shape.addDirs_empty]
    constructor
    · rfl
    · constructor
      · intro h
        injection h
      · intro h
        have hmem := mem_way_self (start cwd path) (steps path)
        change _ ∈ pathWay cwd path at hmem
        rw [← reached_of_creatable h, hnone] at hmem
        exact absurd hmem (Set.notMem_empty _)
  · next hgood =>
    push Not at hgood
    obtain ⟨htells, hpath, hbegins⟩ := hgood
    have htells : fault.tells = true := by simpa using htells
    obtain ⟨hshape, hok⟩ := FileTree.makeDirs_shape fault.refused (steps path) hbegins
    have hreached : reached cwd fault disk.shape path =
        disk.shape.reach fault.refused (start cwd path) (steps path) := by
      ext loc
      exact ⟨fun h => h.2.2.2, fun h => ⟨htells, hpath, hbegins, h⟩⟩
    have hcreatable : Creatable cwd fault disk.shape path ↔
        disk.shape.Clear fault.refused (start cwd path) (steps path) :=
      ⟨fun h => h.clear, fun h => ⟨htells, hpath, hbegins, h⟩⟩
    rw [hreached, hcreatable, ← hok, ← hshape]
    cases disk.makeDirs fault.refused (start cwd path) (steps path) with
    | mk disk₁ made =>
      cases made with
      | ok loc => simp
      | error e => cases e <;> simp

/-- What `create_directories` does, in terms of the shape of the tree. -/
theorem createDirectories_shape (cwd : Location) (fault : DirFault) (disk : Disk) (path : Bytes)
    (skipLast : Bool) {realPath : Bytes}
    (hreal : (if skipLast then dirname path else some path) = some realPath) :
    (createDirectories cwd fault disk path skipLast).1.shape =
        disk.shape.addDirs (reached cwd fault disk.shape realPath) ∧
      ∀ p, (createDirectories cwd fault disk path skipLast).2 = .ok p ↔
        p = realPath ∧ Creatable cwd fault disk.shape realPath := by
  obtain ⟨hshape, hok⟩ := makePath_shape cwd fault disk realPath
  rw [← hok, ← hshape]
  unfold createDirectories
  simp only [hreal]
  cases makePath cwd fault disk realPath with
  | mk disk₁ errno =>
    cases errno with
    | none => simp [eq_comm]
    | some e => cases e <;> simp

end

/-- An empty file makes `touch` throw, but only when it has been opened. -/
theorem fill_reports_iff {fault : TouchFault} {size : Int} :
    Reports (fill fault size).2 ↔ Fillable size := by
  unfold fill Fillable
  by_cases hzero : size = 0
  · simp [hzero, Reports]
  · rw [if_neg hzero]
    by_cases hfits : FitsInt64 (size - 1)
    · simp only [int64, if_pos hfits]
      split
      · simp [Reports, hzero, hfits]
      · cases fault.good <;> simp [Reports, hzero, hfits]
    · simp [int64, hfits, Reports]

theorem fill_of_pos {size : Int} (fault : TouchFault) (hpos : 0 < size)
    (hfits : FitsInt64 (size - 1)) :
    fill fault size = (overwrite 0 [] (size - 1).toNat ([49].take fault.written),
      if fault.good then .ok () else .error (.error .genericError)) := by
  have hsize : size ≠ 0 := by omega
  have hnonneg : ¬ size - 1 < 0 := by omega
  simp only [fill, if_neg hsize, int64, if_pos hfits, if_neg hnonneg]

theorem fill_eq_ok_iff {fault : TouchFault} {size : Int} :
    (fill fault size).2 = .ok () ↔ 0 < size ∧ FitsInt64 (size - 1) ∧ fault.good = true := by
  constructor
  · intro h
    -- Of the four ways through the code the last one is left.
    unfold fill at h
    by_cases hzero : size = 0
    · rw [if_pos hzero] at h
      injection h
    · rw [if_neg hzero] at h
      by_cases hfits : FitsInt64 (size - 1)
      · simp only [int64, if_pos hfits] at h
        by_cases hneg : size - 1 < 0
        · rw [if_pos hneg] at h
          injection h
        · rw [if_neg hneg] at h
          refine ⟨by omega, hfits, ?_⟩
          by_contra hgood
          rw [if_neg hgood] at h
          injection h
      · simp only [int64, if_neg hfits] at h
        injection h
  · intro h
    obtain ⟨hpos, hfits, hgood⟩ := h
    rw [fill_of_pos fault hpos hfits, if_pos hgood]

/-- What is in a file that `touch` has made. -/
theorem fill_eq_ok {fault : TouchFault} {size : Int} (h : (fill fault size).2 = .ok ()) :
    0 < size ∧ (fill fault size).1 = overwrite 0 [] (size - 1).toNat ([49].take fault.written) := by
  obtain ⟨hpos, hfits, _⟩ := fill_eq_ok_iff.mp h
  rw [fill_of_pos fault hpos hfits]
  exact ⟨hpos, rfl⟩

theorem location_of_steps {pre : List (Step Bytes)} {name : Bytes}
    (h : steps path = pre ++ [.down name]) :
    location cwd path = resolve (start cwd path) pre ++ [name] := by
  rw [location, h, resolve_append]
  rfl

/-- What `touch` does, in terms of the shape of the tree. -/
theorem touch_of_openable {fault : TouchFault} (h : Openable cwd fault disk.shape path)
    (size : Int) :
    ∃ disk', touch cwd fault disk path size = (disk', (fill fault size).2) ∧
      disk'.shape = disk.shape.addFile (location cwd path) := by
  obtain ⟨pre, name, hsteps, hway⟩ := h.named
  have hplace : disk.place (start cwd path) (steps path) =
      some (resolve (start cwd path) pre, name) :=
    FileTree.place_iff.mpr ⟨pre, hsteps, rfl, hway⟩
  have hlocation : location cwd path = _ := location_of_steps hsteps
  have hnone : disk.node (resolve (start cwd path) pre ++ [name]) = none := by
    have habsent := h.absent
    rwa [FileTree.present_iff, not_not, hlocation] at habsent
  have hdir : disk.node (resolve (start cwd path) pre) = some .dir :=
    hway ⟨pre, List.prefix_refl pre, rfl⟩
  have hfind : find cwd disk path = none := by
    rw [find, if_neg (cString_ne_nil hsteps), FileTree.walk_of_place hplace, hnone]
    rfl
  refine ⟨disk.add (resolve (start cwd path) pre) name (.file (fill fault size).1), ?_, ?_⟩
  · simp [touch, fileExists, h.tells, h.opens, hfind, hplace]
  · rw [hlocation]
    exact FileTree.shape_add_file hdir hnone

theorem touch_of_not_openable {fault : TouchFault} (h : ¬ Openable cwd fault disk.shape path)
    (size : Int) :
    ∃ e, touch cwd fault disk path size = (disk, .error (.error e)) := by
  unfold touch fileExists
  cases htells : fault.tells with
  | false => exact ⟨_, rfl⟩
  | true =>
    cases hfind : find cwd disk path with
    | some loc => exact ⟨_, rfl⟩
    | none =>
      cases hopens : fault.opens with
      | false => exact ⟨_, rfl⟩
      | true =>
        cases hplace : disk.place (start cwd path) (steps path) with
        | none => exact ⟨_, rfl⟩
        | some place =>
          -- There would be nothing in the way.
          obtain ⟨dir, name⟩ := place
          obtain ⟨pre, hsteps, hdir, hway⟩ := FileTree.place_iff.mp hplace
          rw [find, if_neg (cString_ne_nil hsteps), FileTree.walk_of_place hplace] at hfind
          refine absurd ⟨htells, hopens, ⟨pre, name, hsteps, hway⟩, ?_⟩ h
          rw [FileTree.present_iff, not_not, location_of_steps hsteps, ← hdir]
          simpa using hfind

/-- `remove` removes what it can, whether it reports an error or not. -/
theorem remove_of_find {kept : List Location} (h : find cwd disk path = some loc) :
    (remove cwd kept disk path).1 = disk.prune kept loc := by
  simp only [remove, h]
  split
  · rfl
  · rfl

/-! ### The files of a tree -/

/-- The files as `write_bytes` sees them: a path leads to the file at its
    location, which has the number of the location. -/
structure Views (cwd : Location) (number : Location → Nat) (disk : Disk) (fs : FileSystem) :
    Prop where
  lookup : ∀ path loc content, find cwd disk path = some loc →
    disk.node loc = some (.file content) → fs.lookup path = some (number loc)
  content : ∀ loc content, disk.node loc = some (.file content) →
    fs.content (number loc) = content

/-! ### Reading -/

/-- What can be read at a path. -/
inductive Reads (cwd : Location) (fault : ReadFault) (disk : Disk) (path : Bytes) :
    Bytes → Prop where
  | dir {loc : Location} (opens : fault.opens = true) (found : find cwd disk path = some loc)
      (node : disk.node loc = some .dir) : Reads cwd fault disk path []
  | file {loc : Location} {content : Bytes} (opens : fault.opens = true)
      (found : find cwd disk path = some loc) (node : disk.node loc = some (.file content)) :
      Reads cwd fault disk path (content.take (fault.read.getD content.length))

theorem loadFileText_eq_ok_iff {fault : ReadFault} {content : Bytes} :
    loadFileText cwd fault disk path = .ok content ↔ Reads cwd fault disk path content := by
  constructor
  · intro h
    unfold loadFileText at h
    cases hnode : (find cwd disk path).bind disk.node with
    | none =>
      rw [hnode] at h
      injection h
    | some node =>
      obtain ⟨loc, hfind, hloc⟩ := Option.bind_eq_some_iff.mp hnode
      rw [hnode] at h
      by_cases hopens : fault.opens = false
      · simp only [if_pos hopens] at h
        injection h
      · have hopen := Bool.eq_true_of_not_eq_false hopens
        simp only [if_neg hopens] at h
        cases node with
        | dir =>
          injection h with h
          rw [← h]
          exact .dir hopen hfind hloc
        | file bytes =>
          injection h with h
          rw [← h]
          exact .file hopen hfind hloc
  · intro h
    cases h with
    | dir opens found node => simp [loadFileText, found, node, opens]
    | file opens found node => simp [loadFileText, found, node, opens]

end Furrent.Platform.Io
