import Furrent.Client.PieceTask
import Furrent.Client.Layout
import Furrent.Torrent.Generation

/-! # Where the files of a torrent go

    The name of a torrent and the paths of its files come from the
    `.torrent` and are put behind the download folder as they are. So what
    `prepare_torrent_files` makes and what `PieceTask::save` opens lies in
    the download folder only if these paths lead there: each location that
    is new on the way of a path has to be inside (`LaidInside`). A path may
    leave the folder on its way, as long as nothing is made outside.

    Paths that take no more steps up than down are inside (`Confined`), and
    plain names are enough for that; a name or a section `..` leads out. -/

namespace Furrent.Client

open Cpp Path Platform.Io Torrent

/-! ### The property -/

/-- `loc` lies below `base`. -/
def StrictlyUnder (base loc : Location) : Prop := base <+: loc ∧ loc ≠ base

instance (base loc : Location) : Decidable (StrictlyUnder base loc) :=
  inferInstanceAs (Decidable (_ ∧ _))

/-- All that is made while a torrent is prepared, and all that is opened when
    its pieces are saved, lies in the download folder. -/
structure StaysInside (cwd : Location) (folderFaults : FolderFaults) (fileFaults : FileFaults)
    (downloadFolder : Bytes) (disk : Disk) (d : TorrentFile) : Prop where
  created : ∀ loc, disk.node loc = none →
    (createOutput cwd folderFaults fileFaults downloadFolder disk d).1.node loc ≠ none →
    StrictlyUnder (location cwd downloadFolder) loc
  opened : ∀ disk' d',
    prepareTorrentFiles cwd folderFaults fileFaults downloadFolder disk d = (disk', d', .ok true) →
    ∀ beyond ps, pieces d' beyond = .ok ps → ∀ p ∈ ps, ∀ s ∈ p.subpieces,
    StrictlyUnder (location cwd downloadFolder) (location cwd (subpiecePath d' s))

/-- What is made lies below the download folder if it is new: what
    `create_directories` gets to for the folder of the torrent, and what the
    files bring that the loop comes to. And when all files are made and there
    are pieces, the paths that are opened for them lead below it. -/
structure LaidInside (cwd : Location) (folderFaults : FolderFaults) (fileFaults : FileFaults)
    (downloadFolder folder : Bytes) (disk : Disk) (d : TorrentFile) : Prop where
  made : ∀ loc ∈ reached cwd folderFaults.create disk.shape folder, disk.node loc = none →
    StrictlyUnder (location cwd downloadFolder) loc
  filled : Creatable cwd folderFaults.create disk.shape folder → ∀ loc, disk.node loc = none →
    (ComesTo cwd fileFaults folder 0 (disk.shape.addDirs (pathWay cwd folder)) d.files
      fun k σ f => loc ∈ brings cwd fileFaults folder k σ f) →
    StrictlyUnder (location cwd downloadFolder) loc
  saved : Creatable cwd folderFaults.create disk.shape folder →
    AllMade cwd fileFaults folder 0 (disk.shape.addDirs (pathWay cwd folder)) d.files →
    0 < d.piecesCount → ∀ f ∈ d.files,
    StrictlyUnder (location cwd downloadFolder) (location cwd (savedPath folder f))

variable {cwd : Location} {disk disk' : Disk} {folderFaults : FolderFaults}
  {fileFaults : FileFaults} {downloadFolder folder name rel w : Bytes} {d : TorrentFile}
  {base loc : Location} {n : Nat}

/-! ### When everything stays inside -/

theorem created_inside_iff (hn : Chosen cwd folderFaults.tells downloadFolder disk d.name n)
    (hfolder : folder = copyPath downloadFolder d.name n) :
    (∀ loc, disk.node loc = none →
      (createOutput cwd folderFaults fileFaults downloadFolder disk d).1.node loc ≠ none →
      StrictlyUnder base loc) ↔
    (∀ loc ∈ reached cwd folderFaults.create disk.shape folder, disk.node loc = none →
      StrictlyUnder base loc) ∧
    (Creatable cwd folderFaults.create disk.shape folder → ∀ loc, disk.node loc = none →
      (ComesTo cwd fileFaults folder 0 (disk.shape.addDirs (pathWay cwd folder)) d.files
        fun k σ f => loc ∈ brings cwd fileFaults folder k σ f) →
      StrictlyUnder base loc) := by
  constructor
  · intro h
    constructor
    · intro loc hloc hnew
      exact h loc hnew ((present_createOutput fileFaults hn hfolder hnew).mpr (.inl hloc))
    · intro hcreatable loc hnew hloc
      exact h loc hnew
        ((present_createOutput fileFaults hn hfolder hnew).mpr (.inr ⟨hcreatable, hloc⟩))
  · intro h loc hnew hmade
    rcases (present_createOutput fileFaults hn hfolder hnew).mp hmade with
      hloc | ⟨hcreatable, hloc⟩
    · exact h.1 loc hloc hnew
    · exact h.2 hcreatable loc hnew hloc

/-- The files are named by the subpieces, and all of them if there are
    pieces. -/
theorem opened_inside_iff {lengths : List Int64} {k : Int64} (hd : Constructed lengths k d)
    (hpos : ∀ f ∈ d.files, 0 < f.length) :
    (∀ beyond ps, pieces { d with folderName := folder } beyond = .ok ps → ∀ p ∈ ps,
      ∀ s ∈ p.subpieces,
      StrictlyUnder base (location cwd (subpiecePath { d with folderName := folder } s))) ↔
    (0 < d.piecesCount → ∀ f ∈ d.files,
      StrictlyUnder base (location cwd (savedPath folder f))) := by
  simp only [pieces_folderName]
  constructor
  · intro h hcount f hf
    obtain ⟨beyond, ps, hps, p, hp, s, hs, hname⟩ := hd.exists_subpiece hpos hcount hf
    have hinside := h beyond ps hps p hp s hs
    rwa [subpiecePath, hname] at hinside
  · intro h beyond ps hps p hp s hs
    obtain ⟨f, hf, hname⟩ := pieces_named hps p hp s hs
    have hcount : 0 < d.piecesCount := by
      have hmem : p.index ∈ Int.range 0 d.piecesCount := by
        rw [← pieces_index hps]
        exact List.mem_map_of_mem hp
      have hrange := Int.mem_range_iff.mp hmem
      omega
    have hinside := h hcount f hf
    rwa [subpiecePath, hname]

/-- For every torrent that the constructor accepts, every download folder and
    every tree, however the calls fare: everything stays inside of the
    download folder if and only if the torrent is laid out inside. -/
theorem downloads_stay_inside_iff (cwd : Location) (folderFaults : FolderFaults)
    (fileFaults : FileFaults) (disk : Disk) (downloadFolder : Bytes) {sha1 : Bytes → Bytes}
    {tree : Bencode.BencodeValue} (htree : TorrentFile.ofTree sha1 tree = .ok d) :
    StaysInside cwd folderFaults fileFaults downloadFolder disk d ↔
      ∀ n, Chosen cwd folderFaults.tells downloadFolder disk d.name n →
        LaidInside cwd folderFaults fileFaults downloadFolder
          (copyPath downloadFolder d.name n) disk d := by
  obtain ⟨lengths, k, _, hd⟩ := ofTree_eq_ok htree
  obtain ⟨n, hn, _⟩ := chooseFolder_chosen cwd folderFaults downloadFolder disk d.name
  obtain ⟨htrue, hsame, _⟩ := prepareTorrentFiles_spec fileFaults hn rfl
  constructor
  · intro h m hm
    rw [← hn.unique hm]
    obtain ⟨hmade, hfilled⟩ := (created_inside_iff hn rfl).mp h.created
    refine ⟨hmade, hfilled, fun hcreatable hall => ?_⟩
    have hprepared := htrue.mpr ⟨hcreatable, hall⟩
    apply (opened_inside_iff hd hall.length_pos).mp
    exact h.opened _ _ (Prod.ext rfl (Prod.ext (hsame hprepared) hprepared))
  · intro h
    have hlaid := h n hn
    refine ⟨(created_inside_iff hn rfl).mpr ⟨hlaid.made, hlaid.filled⟩, ?_⟩
    intro disk' d' hprepare
    rw [hprepare] at htrue hsame
    obtain ⟨hcreatable, hall⟩ := htrue.mp rfl
    have hd' : d' = _ := hsame rfl
    rw [hd']
    exact (opened_inside_iff hd hall.length_pos).mpr (hlaid.saved hcreatable hall)

/-! ### Paths that lead inside -/

/-- The paths that are made for a file: its directory and itself. -/
def createdPaths (folderName : Bytes) (file : File) : List Bytes :=
  fileDirpath folderName file :: (touchedPath folderName file).toList

/-- It is enough if all new locations on the way of the paths are inside,
    whichever of them come about. -/
theorem laidInside_of_paths
    (hmade : ∀ loc ∈ pathWay cwd folder, disk.node loc = none →
      StrictlyUnder (location cwd downloadFolder) loc)
    (hfilled : ∀ f ∈ d.files, ∀ path ∈ createdPaths folder f, ∀ loc ∈ pathWay cwd path,
      disk.node loc = none → StrictlyUnder (location cwd downloadFolder) loc)
    (hsaved : AllMade cwd fileFaults folder 0 (disk.shape.addDirs (pathWay cwd folder)) d.files →
      ∀ f ∈ d.files,
        StrictlyUnder (location cwd downloadFolder) (location cwd (savedPath folder f))) :
    LaidInside cwd folderFaults fileFaults downloadFolder folder disk d where
  made loc hloc hnew := hmade loc (reached_subset hloc) hnew
  filled _ loc hnew hcomes := by
    obtain ⟨j, f, hf, _, hbrings⟩ := hcomes
    have hmem := List.mem_of_getElem? hf
    rcases hbrings with hreached | ⟨path, hopened, hloc⟩
    · exact hfilled f hmem _ (List.mem_cons_self ..) loc (reached_subset hreached) hnew
    · have hpath : path ∈ createdPaths folder f := by
        rw [createdPaths, hopened.touched]
        simp
      rw [hloc] at hnew ⊢
      exact hfilled f hmem path hpath _ ⟨_, List.prefix_refl _, rfl⟩ hnew
  saved _ hall _ := hsaved hall

/-! ### Paths behind the download folder -/

/-- Something that is made on the way of a path behind the download folder is
    made below the folder. -/
theorem strictlyUnder_of_mem_pathWay (hbase : find cwd disk downloadFolder = some base) {n : Nat}
    (hdepth : depth 0 (steps rel) = some n) (hnew : disk.node loc = none)
    (hway : loc ∈ pathWay cwd (downloadFolder ++ 47 :: rel)) : StrictlyUnder base loc := by
  obtain ⟨pre, hpre, rfl⟩ := hway
  rw [start_append (ne_nil_of_find hbase)] at hnew ⊢
  -- On the way to the folder everything is there.
  have hthere : ¬ pre <+: steps downloadFolder :=
    fun h => node_of_mem_pathWay hbase ⟨pre, h, rfl⟩ hnew
  by_cases hnul : 0 ∈ downloadFolder
  · rw [steps_append_of_mem hnul] at hpre
    exact absurd hpre hthere
  rw [steps_append hnul] at hpre
  rcases List.prefix_or_prefix_of_prefix hpre (List.prefix_append _ _) with h | h
  · exact absurd h hthere
  · obtain ⟨pre', rfl⟩ := h
    obtain ⟨rest, hrest⟩ := (List.prefix_append_right_inj _).mp hpre
    rw [← hrest] at hdepth
    obtain ⟨k, hk, _⟩ := depth_of_append hdepth
    have hlocation : resolve (start cwd downloadFolder) (steps downloadFolder ++ pre') =
        resolve base pre' := by
      rw [resolve_append, find_eq_some hbase]
      rfl
    rw [hlocation] at hnew ⊢
    refine ⟨(resolve_of_depth hk (List.prefix_refl base) rfl).1, ?_⟩
    intro heq
    rw [heq, find_eq_some hbase] at hnew
    exact node_of_mem_pathWay hbase ⟨_, List.prefix_refl _, rfl⟩ hnew

theorem strictlyUnder_location (hbase : find cwd disk downloadFolder = some base)
    (hnul : 0 ∉ downloadFolder) {n : Nat} (hdepth : depth 0 (steps rel) = some (n + 1)) :
    StrictlyUnder base (location cwd (downloadFolder ++ 47 :: rel)) := by
  rw [location_append (ne_nil_of_find hbase) hnul, ← find_eq_some hbase]
  obtain ⟨hunder, hlength⟩ := resolve_of_depth hdepth (List.prefix_refl base) rfl
  refine ⟨hunder, ?_⟩
  intro heq
  rw [heq] at hlength
  omega

/-! ### Paths that do not lead out -/

/-- The paths of the torrent do not lead out of the folder they start in, and
    those of the files lead below it. -/
structure Confined (d : TorrentFile) : Prop where
  name : ∃ n, depth 0 (steps d.name) = some n
  made : ∀ f ∈ d.files, ∀ path ∈ createdPaths d.name f, ∃ n, depth 0 (steps path) = some n
  saved : ∀ f ∈ d.files, ∃ n, depth 0 (steps (d.name ++ 47 :: f.filename)) = some (n + 1)

/-- What can follow the folder of the torrent in a path. -/
inductive Tail : Bytes → Prop where
  | nil : Tail []
  | slash (rest : Bytes) : Tail (47 :: rest)

/-- The paths that are made for a file are the same in every folder. -/
theorem createdPaths_eq (f : File) :
    ∃ tails : List Bytes, (∀ t ∈ tails, Tail t) ∧
      ∀ folder, createdPaths folder f = tails.map (folder ++ ·) := by
  obtain ⟨t, ht, hdir⟩ : ∃ t, Tail t ∧ ∀ folder : Bytes, fileDirpath folder f = folder ++ t := by
    cases hname : dirname f.filename with
    | none =>
      refine ⟨[], .nil, fun folder => ?_⟩
      rw [fileDirpath, dirname_append, hname, List.append_nil]
      rfl
    | some front =>
      refine ⟨47 :: front, .slash front, fun folder => ?_⟩
      rw [fileDirpath, dirname_append, hname]
      rfl
  refine ⟨t :: (f.filepath.getLast?.map fun last => t ++ 47 :: last).toList, ?_, ?_⟩
  · intro t' ht'
    rcases List.mem_cons.mp ht' with rfl | ht'
    · exact ht
    · obtain ⟨last, _, rfl⟩ := Option.map_eq_some_iff.mp (Option.mem_toList.mp ht')
      cases ht with
      | nil => exact .slash last
      | slash rest => exact .slash (rest ++ 47 :: last)
  · intro folder
    simp only [createdPaths, touchedPath_eq_map, hdir]
    cases f.filepath.getLast? with
    | none => simp
    | some last => simp

/-- A longer name does not lead a path further up. -/
theorem depth_lengthened (hw : Lengthened w) {t : Bytes} (ht : Tail t) {n m : Nat}
    (h : depth n (steps (name ++ t)) = some m) :
    ∃ k, depth n (steps ((name ++ w) ++ t)) = some (m + k) := by
  cases hw with
  | nil =>
    rw [List.append_nil]
    exact ⟨0, h⟩
  | extension hw =>
    cases ht with
    | nil =>
      rw [List.append_nil] at h ⊢
      exact depth_extended hw h
    | slash rest => exact depth_extended_append hw h

namespace Confined

/-- The paths that are made for a torrent do not lead out of the download
    folder, whatever was added to its name. -/
theorem depth_made (hd : Confined d) (hw : Lengthened w) {f : File} (hf : f ∈ d.files)
    {path : Bytes} (hpath : path ∈ createdPaths (downloadFolder ++ 47 :: (d.name ++ w)) f) :
    ∃ rel n, path = downloadFolder ++ 47 :: rel ∧ depth 0 (steps rel) = some n := by
  obtain ⟨tails, htails, hcreated⟩ := createdPaths_eq f
  rw [hcreated] at hpath
  obtain ⟨t, ht, rfl⟩ := List.mem_map.mp hpath
  have hmem : d.name ++ t ∈ createdPaths d.name f := by
    rw [hcreated]
    exact List.mem_map_of_mem ht
  obtain ⟨n, hn⟩ := hd.made f hf _ hmem
  obtain ⟨k, hk⟩ := depth_lengthened hw (htails t ht) hn
  exact ⟨_, n + k, by rw [List.append_assoc, List.cons_append], hk⟩

theorem depth_saved (hd : Confined d) (hw : Lengthened w) {f : File} (hf : f ∈ d.files) :
    ∃ n, depth 0 (steps ((d.name ++ w) ++ 47 :: f.filename)) = some (n + 1) := by
  obtain ⟨n, hn⟩ := hd.saved f hf
  obtain ⟨k, hk⟩ := depth_lengthened hw (.slash f.filename) hn
  exact ⟨n + k, by rw [hk, Nat.add_right_comm]⟩

/-- A name that leads down and paths without a `..` are enough. -/
theorem of_not_mem_up (hname : ∃ n, depth 0 (steps d.name) = some (n + 1))
    (hfiles : ∀ f ∈ d.files, ∀ segment ∈ f.filepath, .up ∉ steps segment) : Confined d := by
  obtain ⟨n, hn⟩ := hname
  have hup : ∀ f ∈ d.files, .up ∉ steps f.filename := by
    intro f hf hup
    rcases mem_steps_intercalate hup with hstay | ⟨segment, hmem, hseg⟩
    · injection hstay
    · exact hfiles f hf segment hmem hseg
  refine ⟨⟨_, hn⟩, ?_, ?_⟩
  · intro f hf path hpath
    -- What is in front of the last slash has no step up either.
    obtain ⟨m, hm⟩ : ∃ m, depth 0 (steps (fileDirpath d.name f)) = some m := by
      rw [fileDirpath, dirname_append]
      cases hfront : dirname f.filename with
      | none => exact ⟨n + 1, hn⟩
      | some front =>
        obtain ⟨rest, hrest⟩ := dirname_eq_some hfront
        have hnot : .up ∉ steps front := by
          intro hmem
          apply hup f hf
          rw [hrest]
          exact mem_steps_of_mem hmem
        obtain ⟨k, hk⟩ := depth_append_of_not_mem_up hn hnot
        exact ⟨_, hk⟩
    rcases List.mem_cons.mp hpath with rfl | hpath
    · exact ⟨m, hm⟩
    · rw [touchedPath_eq_map] at hpath
      obtain ⟨last, hlast, rfl⟩ := Option.map_eq_some_iff.mp (Option.mem_toList.mp hpath)
      have hnot := hfiles f hf last (List.mem_of_getLast? hlast)
      obtain ⟨k, hk⟩ := depth_append_of_not_mem_up hm hnot
      exact ⟨m + k, hk⟩
  · intro f hf
    obtain ⟨k, hk⟩ := depth_append_of_not_mem_up hn (hup f hf)
    exact ⟨n + k, by rw [hk, Nat.add_right_comm]⟩

/-- With a NUL in the name of the download folder every path leads to the
    folder, and no file is made. -/
theorem files_eq_nil_of_nul (hbase : find cwd disk downloadFolder = some base)
    (hnul : 0 ∈ downloadFolder) {σ : Shape Bytes} {files : List File}
    (hσ : ∀ loc, disk.shape.Present loc → σ.Present loc)
    (h : AllMade cwd fileFaults (downloadFolder ++ rel) 0 σ files) : files = [] := by
  cases files with
  | nil => rfl
  | cons f files =>
    exfalso
    obtain ⟨⟨path, hopened⟩, _⟩ := (allMade_cons.mp h).1
    obtain ⟨tails, _, hcreated⟩ := createdPaths_eq f
    have hpath : path ∈ createdPaths (downloadFolder ++ rel) f := by
      rw [createdPaths, hopened.touched]
      simp
    rw [hcreated] at hpath
    obtain ⟨t, _, rfl⟩ := List.mem_map.mp hpath
    have hfind : find cwd disk ((downloadFolder ++ rel) ++ t) = some base := by
      rw [List.append_assoc, find_append_of_mem hnul]
      exact hbase
    have hthere := node_of_mem_pathWay hfind ⟨_, List.prefix_refl _, rfl⟩
    apply hopened.openable.absent
    rw [Shape.present_addDirs]
    exact .inl (hσ _ (FileTree.present_iff.mpr hthere))

/-- Once the download folder has been set, a torrent is laid out inside if its
    paths do not lead out of it. -/
theorem laidInside (hd : Confined d) {disk₀ : Disk} {tells : Bool} {fault : DirFault}
    {current set : Bytes}
    (hset : setDownloadFolder cwd tells fault disk₀ current set = (disk, downloadFolder, true)) :
    LaidInside cwd folderFaults fileFaults downloadFolder (copyPath downloadFolder d.name n)
      disk d := by
  obtain ⟨rfl, _, hfolder⟩ := setDownloadFolder_ok hset
  obtain ⟨base, hbase⟩ := Option.ne_none_iff_exists'.mp hfolder
  have hw := lengthened_copies n
  rw [copyPath]
  generalize (List.replicate n copySuffix).flatten = w at hw
  rw [find_eq_some hbase] at hbase
  apply laidInside_of_paths
  · intro loc hloc hnew
    obtain ⟨m, hm⟩ := hd.name
    obtain ⟨k, hk⟩ := depth_lengthened hw .nil (by rwa [List.append_nil])
    rw [List.append_nil] at hk
    exact strictlyUnder_of_mem_pathWay hbase hk hnew hloc
  · intro f hf path hpath loc hloc hnew
    obtain ⟨rel, m, rfl, hm⟩ := hd.depth_made hw hf hpath
    exact strictlyUnder_of_mem_pathWay hbase hm hnew hloc
  · intro hall f hf
    by_cases hnul : 0 ∈ downloadFolder
    · have hnil := files_eq_nil_of_nul hbase hnul
        (fun loc hloc => Shape.present_addDirs.mpr (.inl hloc)) hall
      rw [hnil] at hf
      exact absurd hf List.not_mem_nil
    · obtain ⟨m, hm⟩ := hd.depth_saved hw hf
      have hinside := strictlyUnder_location hbase hnul hm
      rwa [savedPath, List.append_assoc, List.cons_append]

end Confined

/-! ### Torrents that stay inside, and others -/

/-- A tree for a torrent with one file of one byte. -/
def namedTree (name : Bytes) (path : List Bytes) : Bencode.BencodeValue :=
  .dict [(announceKey, .string []), (infoKey, .dict
    [(filesKey, .list [.dict [(lengthKey, .int 1), (pathKey, .list (path.map .string))]]),
      (nameKey, .string name), (pieceLengthKey, .int 1),
      (piecesKey, .string (List.replicate 20 0))])]

/-- What the constructor makes of it. -/
def named (name : Bytes) (path : List Bytes) : TorrentFile where
  infoHash := []
  pieceHashes := [List.replicate 20 0]
  pieceLength := 1
  length := 1
  piecesCount := 1
  name := name
  files := [⟨path, 1⟩]

/-- A disk with a directory `d`. -/
def folderDisk : Disk := FileTree.bare.add [] [100] .dir

/-- `x/../../d/a`. -/
def detour : Bytes := [120, 47, 46, 46, 47, 46, 46, 47, 100, 47, 97]

/-- A torrent of the name `x/../../d/a` with the file `b` makes `d/x`, leaves
    the download folder `d` and comes back to `d/a/b`. -/
theorem downloads_stay_inside_detour :
    StaysInside [] {} {} [100] folderDisk (named detour [[98]]) := by
  have htree : TorrentFile.ofTree (fun _ => []) (namedTree detour [[98]]) =
      .ok (named detour [[98]]) := by
    decide +kernel
  rw [downloads_stay_inside_iff [] {} {} folderDisk [100] htree]
  intro n hn
  have hzero : Chosen [] (fun _ => true) [100] folderDisk detour 0 :=
    ⟨Nat.zero_le _, fun j hj => absurd hj (Nat.not_lt_zero j), fun _ _ => by decide +kernel⟩
  rw [hn.unique hzero]
  -- Everything new on the way of the paths is below `d`, one location after the other.
  apply laidInside_of_paths
  · simp only [forall_mem_pathWay]
    decide +kernel
  · simp only [forall_mem_pathWay]
    decide +kernel
  · intro _
    decide +kernel

/-- The constructor accepts a torrent of the name `../x`, and the directory
    `x` is made outside of `d`. It accepts a torrent `a` with the file
    `../../x`, and the file `x` is made and opened outside of `d`. -/
theorem downloads_lead_out :
    (TorrentFile.ofTree (fun _ => []) (namedTree [46, 46, 47, 120] [[98]]) =
        .ok (named [46, 46, 47, 120] [[98]]) ∧
      ¬ StaysInside [] {} {} [100] folderDisk (named [46, 46, 47, 120] [[98]])) ∧
    (TorrentFile.ofTree (fun _ => []) (namedTree [97] [[46, 46], [46, 46], [120]]) =
        .ok (named [97] [[46, 46], [46, 46], [120]]) ∧
      ¬ StaysInside [] {} {} [100] folderDisk (named [97] [[46, 46], [46, 46], [120]])) := by
  refine ⟨⟨by decide +kernel, ?_⟩, by decide +kernel, ?_⟩
  · intro hinside
    have hunder := (hinside.created [[120]] (by decide +kernel) (by decide +kernel)).1
    exact absurd hunder (by decide)
  · intro hinside
    have htrue : (prepareTorrentFiles [] {} {} [100] folderDisk
        (named [97] [[46, 46], [46, 46], [120]])).2.2 = .ok true := by
      decide +kernel
    have hpieces : pieces (prepareTorrentFiles [] {} {} [100] folderDisk
        (named [97] [[46, 46], [46, 46], [120]])).2.1 (fun _ => none) =
          .ok [⟨0, [⟨[46, 46, 47, 46, 46, 47, 120], 0, 1⟩]⟩] := by
      decide +kernel
    have hunder := (hinside.opened _ _ (Prod.ext rfl (Prod.ext rfl htrue)) _ _ hpieces _
      (List.mem_singleton_self _) _ (List.mem_singleton_self _)).1
    exact absurd hunder (by decide +kernel)

end Furrent.Client
