import Furrent.Platform.Directories
import Furrent.Torrent.Descriptor

/-! # Preparing the files of a torrent

    Model of `Furrent::set_download_folder` and
    `Furrent::prepare_torrent_files` in `src/furrent.cpp`. The second looks
    for a folder name that is not in use, adding `" COPY"` up to ten times,
    makes the folder and the files in it, and removes the folder when one of
    the files could not be made.

    Nothing that was on the disk is lost before the cleanup
    (`filesLoop_le`). -/

namespace Furrent.Client

open Cpp Path Platform.Io

/-! ### The model -/

/-- How the calls that choose and make the folder fare. -/
structure FolderFaults where
  /-- Whether the `k`-th call of `exists` succeeds. -/
  tells : Nat → Bool := fun _ => true
  create : DirFault := {}

/-- How the calls that make the files and clean up fare. -/
structure FileFaults where
  create : Nat → DirFault := fun _ => {}
  touch : Nat → TouchFault := fun _ => {}
  kept : List Location := []

/-- `" COPY"`. -/
def copySuffix : Bytes := [32, 67, 79, 80, 89]

def MAX_COPY_ATTEMPTS : Nat := 10

section

variable (cwd : Location)

/-- `Furrent::set_download_folder`, with the folder before and after. -/
def setDownloadFolder (tells : Bool) (fault : DirFault) (disk : Disk) (current folder : Bytes) :
    Disk × Bytes × Bool :=
  match fileExists cwd tells disk folder with
  | .error _ => (disk, current, false)
  | .ok true => (disk, folder, true)
  | .ok false =>
    match createDirectories cwd fault disk folder false with
    | (disk, .error _) => (disk, current, false)
    | (disk, .ok _) => (disk, folder, true)

/-- The loop that keeps adding `" COPY"`, with the number of attempts. -/
def copyLoop (tells : Nat → Bool) (disk : Disk) (attempts : Nat) (path : Bytes)
    (existence : Except Platform.IOError Bool) : Bytes × Nat :=
  if attempts < MAX_COPY_ATTEMPTS ∧ existence = .ok true then
    copyLoop tells disk (attempts + 1) (path ++ copySuffix)
      (fileExists cwd (tells (attempts + 1)) disk (path ++ copySuffix))
  else (path, attempts)
termination_by MAX_COPY_ATTEMPTS - attempts

/-- The folder for the torrent, with the number of attempts. -/
def chooseFolder (faults : FolderFaults) (downloadFolder : Bytes) (disk : Disk) (name : Bytes) :
    Bytes × Nat :=
  let torrentBasePath := downloadFolder ++ 47 :: name
  copyLoop cwd faults.tells disk 0 torrentBasePath
    (fileExists cwd (faults.tells 0) disk torrentBasePath)

/-- The body of the loop over the files: whether the file was made. -/
def createFile (createFault : DirFault) (touchFault : TouchFault) (folderName : Bytes)
    (disk : Disk) (file : File) : Disk × Outcome Empty Bool :=
  match createDirectories cwd createFault disk (folderName ++ 47 :: file.filename) true with
  | (disk, .error _) => (disk, .ok false)
  | (disk, .ok fileDirpath) =>
    -- `file.filepath.back()`
    match file.filepath.getLast? with
    | none => (disk, .error .trap)
    | some last =>
      match touch cwd touchFault disk (fileDirpath ++ 47 :: last) file.length with
      | (disk, .ok _) => (disk, .ok true)
      | (disk, .error (.error _)) => (disk, .ok false)
      | (disk, .error (.throw x)) => (disk, .error (.throw x))
      | (disk, .error .trap) => (disk, .error .trap)
      | (disk, .error .outOfFuel) => (disk, .error .outOfFuel)

/-- The loop over the files: whether all of them were made. -/
def filesLoop (faults : FileFaults) (folderName : Bytes) :
    Nat → List File → Disk → Disk × Outcome Empty Bool
  | _, [], disk => (disk, .ok true)
  | k, file :: files, disk =>
    match createFile cwd (faults.create k) (faults.touch k) folderName disk file with
    | (disk, .ok true) => filesLoop faults folderName (k + 1) files disk
    | result => result

/-- What is there before the cleanup. -/
inductive Output where
  | noFolder
  | complete
  | mustCleanup
  deriving DecidableEq, Repr

/-- `prepare_torrent_files` up to the cleanup. -/
def createOutput (folderFaults : FolderFaults) (fileFaults : FileFaults) (downloadFolder : Bytes)
    (disk : Disk) (d : TorrentFile) : Disk × TorrentFile × Outcome Empty Output :=
  let (torrentBasePath, attempts) := chooseFolder cwd folderFaults downloadFolder disk d.name
  if MAX_COPY_ATTEMPTS < attempts then (disk, d, .ok .noFolder)
  else
    match createDirectories cwd folderFaults.create disk torrentBasePath false with
    | (disk, .error _) => (disk, d, .ok .noFolder)
    | (disk, .ok torrentDirpath) =>
      let d := { d with folderName := torrentDirpath }
      match filesLoop cwd fileFaults d.folderName 0 d.files disk with
      | (disk, .ok true) => (disk, d, .ok .complete)
      | (disk, .ok false) => (disk, d, .ok .mustCleanup)
      | (disk, .error stop) => (disk, d, .error stop)

/-- `Furrent::prepare_torrent_files`. -/
def prepareTorrentFiles (folderFaults : FolderFaults) (fileFaults : FileFaults)
    (downloadFolder : Bytes) (disk : Disk) (d : TorrentFile) :
    Disk × TorrentFile × Outcome Empty Bool :=
  match createOutput cwd folderFaults fileFaults downloadFolder disk d with
  | (disk, d, .ok .noFolder) => (disk, d, .ok false)
  | (disk, d, .ok .complete) => (disk, d, .ok true)
  | (disk, d, .ok .mustCleanup) =>
    ((remove cwd fileFaults.kept disk d.folderName).1, d, .ok false)
  | (disk, d, .error stop) => (disk, d, .error stop)

end

variable {cwd : Location} {disk disk' : Disk} {fileFaults : FileFaults} {folderName : Bytes}
  {file : File}

/-- A download folder that has been set is there. -/
theorem setDownloadFolder_ok {tells : Bool} {fault : DirFault} {current folder folder' : Bytes}
    (h : setDownloadFolder cwd tells fault disk current folder = (disk', folder', true)) :
    folder' = folder ∧ disk ≤ disk' ∧ find cwd disk' folder ≠ none := by
  unfold setDownloadFolder at h
  split at h
  · injection h with _ h
    injection h with _ h
    injection h
  · next hexists =>
    injection h with hdisk h
    injection h with hfolder _
    rw [← hdisk]
    refine ⟨hfolder.symm, le_rfl, ?_⟩
    intro hnone
    rw [fileExists, hnone] at hexists
    split at hexists
    · injection hexists with hsome
      injection hsome
    · injection hexists
  · split at h
    · injection h with _ h
      injection h with _ h
      injection h
    · next disk₁ p hcreate =>
      injection h with hdisk h
      injection h with hfolder _
      obtain ⟨hle, hfind⟩ := createDirectories_le hcreate
      have hp : p = folder := by
        have hok := (createDirectories_shape cwd fault disk folder false rfl).2 p
        rw [hcreate] at hok
        exact (hok.mp rfl).1
      rw [← hdisk, ← hp, hfind p rfl]
      exact ⟨hfolder.symm.trans hp.symm, hle, Option.some_ne_none _⟩

/-! ### The paths of a file -/

/-- The directory of a file. -/
def fileDirpath (folderName : Bytes) (file : File) : Bytes :=
  (dirname (folderName ++ 47 :: file.filename)).getD folderName

/-- The path that is touched for a file: the directory, and behind it
    `file.filepath.back()`, if there is such a thing. -/
def touchedPath (folderName : Bytes) (file : File) : Option Bytes :=
  (dirname (folderName ++ 47 :: file.filename)).bind fun fileDirpath =>
    file.filepath.getLast?.map fun last => fileDirpath ++ 47 :: last

/-- The path that is opened for the subpieces of a file. -/
def savedPath (folderName : Bytes) (file : File) : Bytes := folderName ++ 47 :: file.filename

theorem dirname_filename (folderName : Bytes) (file : File) :
    dirname (folderName ++ 47 :: file.filename) = some (fileDirpath folderName file) := by
  rw [fileDirpath, dirname_append]
  rfl

theorem touchedPath_eq_map (folderName : Bytes) (file : File) :
    touchedPath folderName file =
      file.filepath.getLast?.map fun last => fileDirpath folderName file ++ 47 :: last := by
  rw [touchedPath, dirname_filename]
  rfl

/-! ### Nothing is lost before the cleanup -/

theorem createFile_le {createFault : DirFault} {touchFault : TouchFault}
    {r : Outcome Empty Bool}
    (h : createFile cwd createFault touchFault folderName disk file = (disk', r)) :
    disk ≤ disk' := by
  unfold createFile at h
  cases hcreate : createDirectories cwd createFault disk (folderName ++ 47 :: file.filename)
      true with
  | mk disk₁ made =>
    have hle := (createDirectories_le hcreate).1
    simp only [hcreate] at h
    cases made with
    | error e =>
      injection h with hdisk _
      rwa [← hdisk]
    | ok dir =>
      simp only at h
      cases hlast : file.filepath.getLast? with
      | none =>
        simp only [hlast] at h
        injection h with hdisk _
        rwa [← hdisk]
      | some last =>
        simp only [hlast] at h
        split at h
        all_goals
          next htouch =>
            injection h with hdisk _
            rw [← hdisk]
            exact hle.trans (touch_le htouch)

theorem filesLoop_le {k : Nat} {files : List File} {r : Outcome Empty Bool}
    (h : filesLoop cwd fileFaults folderName k files disk = (disk', r)) : disk ≤ disk' := by
  induction files generalizing k disk with
  | nil =>
    injection h with hdisk _
    rw [hdisk]
  | cons file files ih =>
    unfold filesLoop at h
    split at h
    · next disk₁ hfile => exact (createFile_le hfile).trans (ih h)
    · exact createFile_le h

end Furrent.Client
