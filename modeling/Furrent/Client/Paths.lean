import Furrent.Client.Confinement

/-! # The two paths of a file

    `prepare_torrent_files` and `PieceTask::save` each put together the path
    of a file. The first cuts the joined sections off at the last slash, and
    puts the last section behind what is left. The second just joins the
    sections. They mean the same file as long as the last slash is the one
    in front of the last section: it must not have a slash of its own. A
    file without any section has no last one, and `back()` of an empty
    vector is undefined. -/

namespace Furrent.Client

open Cpp Path Platform.Io Torrent

/-! ### The paths -/

variable {cwd : Location} {disk disk' : Disk} {folderName : Bytes} {file : File}

/-- What `create_directories` returns is the directory in the path. -/
theorem touchedPath_eq {fault : DirFault} {fileDirpath : Bytes}
    (h : createDirectories cwd fault disk (savedPath folderName file) true =
      (disk', .ok fileDirpath)) :
    touchedPath folderName file =
      file.filepath.getLast?.map fun last => fileDirpath ++ 47 :: last := by
  have hok := (createDirectories_shape cwd fault disk (savedPath folderName file) true
    (dirname_filename folderName file)).2 fileDirpath
  rw [h] at hok
  rw [touchedPath_eq_map, (hok.mp rfl).1]

/-- A file that was made was touched there. -/
theorem createFile_touches {createFault : DirFault} {touchFault : TouchFault}
    (h : createFile cwd createFault touchFault folderName disk file = (disk', .ok true)) :
    ∃ path disk₁, touchedPath folderName file = some path ∧
      touch cwd touchFault disk₁ path file.length = (disk', .ok ()) := by
  unfold createFile at h
  cases hcreate : createDirectories cwd createFault disk (folderName ++ 47 :: file.filename)
      true with
  | mk disk₁ made =>
    simp only [hcreate] at h
    cases made with
    | error e => simp at h
    | ok dir =>
      cases hlast : file.filepath.getLast? with
      | none => simp [hlast] at h
      | some last =>
        simp only [hlast] at h
        refine ⟨dir ++ 47 :: last, disk₁, ?_, ?_⟩
        · rw [touchedPath_eq hcreate, hlast, Option.map_some]
        · cases htouch : touch cwd touchFault disk₁ (dir ++ 47 :: last) file.length with
          | mk disk₂ touched =>
            rw [htouch] at h
            cases touched with
            | ok _ =>
              injection h with hdisk _
              rw [hdisk]
            | error stop => cases stop <;> simp at h

/-- What is opened for a subpiece is the path of one of the files. -/
theorem subpiecePath_eq {d : TorrentFile} {beyond : Nat → Option Int} {ps : List Piece}
    (h : pieces d beyond = .ok ps) {p : Piece} (hp : p ∈ ps) {s : Subpiece} (hs : s ∈ p.subpieces) :
    ∃ f ∈ d.files, subpiecePath d s = savedPath d.folderName f := by
  obtain ⟨f, hf, hname⟩ := pieces_named h p hp s hs
  exact ⟨f, hf, by rw [subpiecePath, hname, savedPath]⟩

/-! ### When they are the same -/

theorem dirname_eq_none {path : Bytes} : dirname path = none ↔ 47 ∉ path := by
  constructor
  · intro hnone hmem
    obtain ⟨front, rest, rfl⟩ := List.append_of_mem hmem
    rw [dirname_append] at hnone
    injection hnone
  · intro hnot
    cases hname : dirname path with
    | none => rfl
    | some front =>
      obtain ⟨rest, rfl⟩ := dirname_eq_some hname
      simp at hnot

/-- Joined sections end in the last of them. -/
theorem exists_front (folderName : Bytes) (init : List Bytes) (last : Bytes) :
    ∃ front, folderName ++ 47 :: List.intercalate [47] (init ++ [last]) = front ++ 47 :: last := by
  induction init generalizing folderName with
  | nil => exact ⟨folderName, by simp⟩
  | cons segment init ih =>
    obtain ⟨front, hfront⟩ := ih (folderName ++ 47 :: segment)
    refine ⟨front, ?_⟩
    rw [← hfront, List.cons_append, List.intercalate_cons_of_ne_nil (by simp)]
    simp

/-- For every folder and every file, and so for every file of a descriptor
    that the constructor made: the path that is touched is the one that is
    opened if and only if the file has a last section and there is no slash
    in it. -/
theorem touchedPath_eq_savedPath_iff (folderName : Bytes) (file : File) :
    touchedPath folderName file = some (savedPath folderName file) ↔
      ∃ last, file.filepath.getLast? = some last ∧ 47 ∉ last := by
  rcases List.eq_nil_or_concat file.filepath with hnil | ⟨init, last, hsections⟩
  · simp [touchedPath, hnil]
  · rw [List.concat_eq_append] at hsections
    obtain ⟨front, hfront⟩ := exists_front folderName init last
    rw [← hsections] at hfront
    have hsaved : savedPath folderName file = front ++ 47 :: last := hfront
    have hlast : file.filepath.getLast? = some last := by
      rw [hsections, List.getLast?_concat]
    have htouched : touchedPath folderName file =
        (dirname (front ++ 47 :: last)).map fun fileDirpath => fileDirpath ++ 47 :: last := by
      rw [touchedPath, hlast]
      show (dirname (savedPath folderName file)).bind _ = _
      rw [hsaved]
      cases dirname (front ++ 47 :: last) with
      | none => rfl
      | some fileDirpath => rfl
    rw [htouched, hsaved, hlast, dirname_append]
    cases hname : dirname last with
    | none => simp [dirname_eq_none.mp hname]
    | some rest =>
      -- With another slash the directory gets longer.
      have hslash : 47 ∈ last := by
        by_contra hnot
        rw [dirname_eq_none.mpr hnot] at hname
        injection hname
      constructor
      · intro heq
        injection heq with heq
        have hlength := congrArg List.length heq
        simp only [List.length_append, List.length_cons] at hlength
        omega
      · rintro ⟨_, hsome, hnot⟩
        rw [← Option.some.inj hsome] at hnot
        exact absurd hslash hnot

/-! ### Torrents whose files get lost -/

/-- The constructor accepts a torrent `a` whose file has the one section
    `../x`. In the folder `d/a`, the path `d/a/../../x` is touched for it,
    and `d/a/../x` is opened, where there is nothing. It also accepts a
    torrent with a file that has no section, for which there is nothing to be
    touched. -/
theorem touchedPath_slash_in_section :
    (TorrentFile.ofTree (fun _ => []) (namedTree [97] [[46, 46, 47, 120]]) =
        .ok (named [97] [[46, 46, 47, 120]]) ∧
      touchedPath [100, 47, 97] ⟨[[46, 46, 47, 120]], 1⟩ =
        some [100, 47, 97, 47, 46, 46, 47, 46, 46, 47, 120] ∧
      savedPath [100, 47, 97] ⟨[[46, 46, 47, 120]], 1⟩ = [100, 47, 97, 47, 46, 46, 47, 120] ∧
      (prepareTorrentFiles [] {} {} [100] folderDisk (named [97] [[46, 46, 47, 120]])).2.2 =
        .ok true ∧
      find [] (prepareTorrentFiles [] {} {} [100] folderDisk (named [97] [[46, 46, 47, 120]])).1
        [100, 47, 97, 47, 46, 46, 47, 120] = none) ∧
    TorrentFile.ofTree (fun _ => []) (namedTree [97] []) = .ok (named [97] []) ∧
    touchedPath [100, 47, 97] ⟨[], 1⟩ = none := by
  refine ⟨⟨?_, ?_, ?_, ?_, ?_⟩, ?_, ?_⟩
  all_goals decide +kernel

end Furrent.Client
