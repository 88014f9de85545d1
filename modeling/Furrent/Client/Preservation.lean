import Furrent.Client.Layout

/-! # When preparing a torrent loses nothing

    `prepare_torrent_files` removes the folder of a torrent when one of its
    files could not be made. Nothing is lost if the folder is new. But the
    last of the names is taken without a look at whether it is in use:
    `create_directories` does not mind, and the folder that is removed in the
    end may have been there before, with all that is in it. The same happens
    when `exists` fails, and when the name of the torrent leads somewhere else
    than to an entry of the download folder. -/

namespace Furrent.Client

open Cpp Path Platform.Io

/-! ### The property -/

/-- Everything that was on the disk is there as it was, and if the call
    returned true, the folder of the torrent was not there before. -/
structure Safe (cwd : Location) (disk : Disk)
    (result : Disk × TorrentFile × Outcome Empty Bool) : Prop where
  preserved : ∀ loc node, disk.node loc = some node → result.1.node loc = some node
  fresh : result.2.2 = .ok true → disk.node (location cwd result.2.1.folderName) = none

/-- What is at and below `loc` stays when the folder is removed: it is the
    root, or it is on the way to something that cannot be removed. -/
def Spared (kept : List Location) (disk : Disk) (loc : Location) : Prop :=
  ∀ l, disk.node l ≠ none → loc <+: l → l = [] ∨ ∃ k ∈ kept, l <+: k

/-- A folder that is taken though it was there before: not all of the files
    are made in it, and when one of them fails, the cleanup spares it. -/
def LosesNothing (cwd : Location) (folderFaults : FolderFaults) (fileFaults : FileFaults)
    (downloadFolder : Bytes) (disk : Disk) (d : TorrentFile) : Prop :=
  ∀ n folder, Chosen cwd folderFaults.tells downloadFolder disk d.name n →
    folder = copyPath downloadFolder d.name n →
    Creatable cwd folderFaults.create disk.shape folder →
    disk.node (location cwd folder) ≠ none →
    ¬ AllMade cwd fileFaults folder 0 (disk.shape.addDirs (pathWay cwd folder)) d.files ∧
    (ComesTo cwd fileFaults folder 0 (disk.shape.addDirs (pathWay cwd folder)) d.files
        (FileFails cwd fileFaults folder) →
      Spared fileFaults.kept disk (location cwd folder))

/-! ### The cleanup -/

variable {cwd : Location} {disk disk' : Disk} {folderFaults : FolderFaults}
  {fileFaults : FileFaults} {downloadFolder folder name : Bytes} {d : TorrentFile} {n : Nat}

/-- There is nothing to be spared in a new folder. -/
theorem spared_of_new {kept : List Location} {loc : Location} (hnew : disk.node loc = none) :
    Spared kept disk loc := by
  intro l hl hunder
  exact absurd (FileTree.node_eq_none_of_below hnew hunder) hl

/-- Removing a folder loses nothing if what was there is spared. -/
theorem le_remove_iff {kept : List Location} {loc : Location} (hle : disk ≤ disk')
    (hfind : find cwd disk' folder = some loc) :
    disk ≤ (remove cwd kept disk' folder).1 ↔ Spared kept disk loc := by
  rw [remove_of_find hfind]
  constructor
  · intro h l hl hunder
    by_contra hgone
    push Not at hgone
    obtain ⟨node, hnode⟩ := Option.ne_none_iff_exists'.mp hl
    have hstays := FileTree.node_of_le h hnode
    rw [FileTree.node_prune_of_below hunder hgone.1 hgone.2] at hstays
    injection hstays
  · intro hspared l node hnode
    have hl : disk.node l ≠ none := by
      rw [hnode]
      exact Option.some_ne_none node
    rw [FileTree.node_prune_of_kept fun hunder => hspared l hl hunder]
    exact FileTree.node_of_le hle hnode

/-! ### The result -/

/-- The condition is about the one name that is chosen. -/
theorem losesNothing_iff (hn : Chosen cwd folderFaults.tells downloadFolder disk d.name n)
    (hfolder : folder = copyPath downloadFolder d.name n) :
    LosesNothing cwd folderFaults fileFaults downloadFolder disk d ↔
      (Creatable cwd folderFaults.create disk.shape folder →
        disk.node (location cwd folder) ≠ none →
        ¬ AllMade cwd fileFaults folder 0 (disk.shape.addDirs (pathWay cwd folder)) d.files ∧
        (ComesTo cwd fileFaults folder 0 (disk.shape.addDirs (pathWay cwd folder)) d.files
            (FileFails cwd fileFaults folder) →
          Spared fileFaults.kept disk (location cwd folder))) := by
  constructor
  · intro h
    exact h n folder hn hfolder
  · intro h m folder' hm hfolder'
    rw [← hn.unique hm, ← hfolder] at hfolder'
    rw [hfolder']
    exact h

/-- For every tree, download folder and torrent, however the calls fare:
    nothing on the disk is lost, and a folder that is taken is a new one, if
    and only if no folder is made, or it is new, or some file is not made in
    it and the cleanup, if there is one, spares what was there. -/
theorem prepareTorrentFiles_safe_iff (cwd : Location) (folderFaults : FolderFaults)
    (fileFaults : FileFaults) (downloadFolder : Bytes) (disk : Disk) (d : TorrentFile) :
    Safe cwd disk (prepareTorrentFiles cwd folderFaults fileFaults downloadFolder disk d) ↔
      LosesNothing cwd folderFaults fileFaults downloadFolder disk d := by
  obtain ⟨n, hn, _⟩ := chooseFolder_chosen cwd folderFaults downloadFolder disk d.name
  rw [losesNothing_iff hn rfl]
  unfold prepareTorrentFiles
  by_cases hfolder : Creatable cwd folderFaults.create disk.shape
      (copyPath downloadFolder d.name n)
  · obtain ⟨disk₁, disk₂, made, hle, hfind, hshape, hloop, hout⟩ :=
      createOutput_of_creatable fileFaults hn hfolder
    obtain ⟨hall, hfails, _⟩ := filesLoop_spec cwd fileFaults (copyPath downloadFolder d.name n) 0
      d.files disk₁
    rw [hloop, hshape] at hall hfails
    have hle₂ : disk ≤ disk₂ := hle.trans (filesLoop_le hloop)
    rw [hout, ← hall, ← hfails, forall_prop_of_true hfolder]
    cases made with
    | error stop =>
      -- The call is left in the middle of the files, without a cleanup.
      refine iff_of_true ⟨hle₂, fun h => ?_⟩ fun _ => ⟨fun h => ?_, fun h => ?_⟩
      all_goals injection h
    | ok complete =>
      cases complete with
      | true =>
        -- The folder is used as it is.
        constructor
        · intro h hold
          exact absurd (h.fresh rfl) hold
        · intro h
          refine ⟨hle₂, fun _ => ?_⟩
          by_contra hold
          exact (h hold).1 rfl
      | false =>
        -- A file has failed, and the folder is removed, new or not.
        have hremove :
            disk ≤ (remove cwd fileFaults.kept disk₂ (copyPath downloadFolder d.name n)).1 ↔
              Spared fileFaults.kept disk (location cwd (copyPath downloadFolder d.name n)) :=
          le_remove_iff hle₂ (find_of_le (filesLoop_le hloop) hfind)
        constructor
        · intro h hold
          exact ⟨fun htrue => by injection htrue with htrue; injection htrue,
            fun _ => hremove.mp h.preserved⟩
        · intro h
          have hspared : Spared fileFaults.kept disk
              (location cwd (copyPath downloadFolder d.name n)) := by
            by_cases hnew : disk.node (location cwd (copyPath downloadFolder d.name n)) = none
            · exact spared_of_new hnew
            · exact (h hnew).2 rfl
          exact ⟨hremove.mpr hspared, fun htrue => by injection htrue with htrue; injection htrue⟩
  · obtain ⟨disk', hout, hle, _⟩ := createOutput_of_not_creatable fileFaults hn hfolder
    rw [hout]
    refine iff_of_true ⟨hle, fun h => ?_⟩ fun h => absurd h hfolder
    injection h with h
    injection h

/-- So it is when the torrent has a plain name, and one of the names with a
    suffix is found to be free. -/
theorem losesNothing_of_plain (hn : Chosen cwd folderFaults.tells downloadFolder disk d.name n)
    (hlt : n < MAX_COPY_ATTEMPTS) (htells : folderFaults.tells n = true)
    (hfolder : find cwd disk downloadFolder ≠ none) (hnul : 0 ∉ downloadFolder)
    (hname : Plain d.name) : LosesNothing cwd folderFaults fileFaults downloadFolder disk d := by
  rw [losesNothing_iff hn rfl]
  intro _ hold
  have hplain := (lengthened_copies n).plain hname
  obtain ⟨base, hbase⟩ := Option.ne_none_iff_exists'.mp hfolder
  have hfree := hn.free hlt htells
  rw [copyPath, find_append hbase hnul, hplain.steps] at hfree
  rw [copyPath, location_append (ne_nil_of_find hbase) hnul, hplain.steps,
    ← find_eq_some hbase] at hold
  -- An entry of the download folder would have been found.
  change disk.node (base ++ [_]) ≠ none at hold
  obtain ⟨node, hnode⟩ := Option.ne_none_iff_exists'.mp hold
  simp [FileTree.walk, Step.apply, disk.parent base _ hold, hnode] at hfree

/-! ### A folder that is lost -/

/-- The name `a` with `k` copies of the suffix. -/
def copies (k : Nat) : Bytes := 97 :: (List.replicate k copySuffix).flatten

/-- A disk where all the names are in use. There is a file in the last of the
    folders. -/
def fullDisk : Disk :=
  ((List.range 11).foldl (fun disk k => disk.add [] (copies k) .dir) FileTree.bare).add
    [copies 10] [102] (.file [7])

/-- With a torrent of the name `a` that has one file, the last of the folders
    is taken. With one that has the same file twice, it is removed. -/
theorem prepareTorrentFiles_full_disk :
    ¬ Safe [] fullDisk (prepareTorrentFiles [] {} {} [46] fullDisk
      { name := [97], files := [⟨[[97]], 1⟩] }) ∧
    ¬ Safe [] fullDisk (prepareTorrentFiles [] {} {} [46] fullDisk
      { name := [97], files := [⟨[[97]], 1⟩, ⟨[[97]], 1⟩] }) ∧
    fullDisk.node [copies 10, [102]] = some (.file [7]) ∧
    (prepareTorrentFiles [] {} {} [46] fullDisk
      { name := [97], files := [⟨[[97]], 1⟩, ⟨[[97]], 1⟩] }).1.node [copies 10, [102]] = none := by
  have hfile : fullDisk.node [copies 10, [102]] = some (.file [7]) := by
    decide +kernel
  have hlost : (prepareTorrentFiles [] {} {} [46] fullDisk
      { name := [97], files := [⟨[[97]], 1⟩, ⟨[[97]], 1⟩] }).1.node [copies 10, [102]] = none := by
    decide +kernel
  refine ⟨?_, ?_, hfile, hlost⟩
  · intro hsafe
    exact absurd (hsafe.fresh (by decide +kernel)) (by decide +kernel)
  · intro hsafe
    have hkept := hsafe.preserved _ _ hfile
    rw [hlost] at hkept
    injection hkept

end Furrent.Client
