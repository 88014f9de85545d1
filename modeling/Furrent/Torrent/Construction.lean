import Mathlib.Data.List.Forall2
import Furrent.Bencode.Access
import Furrent.Torrent.Descriptor
import Furrent.Torrent.Hash

/-! # From a tree to a descriptor

    Model of the constructor `TorrentFile(const BencodeValue& tree)` in
    `src/torrent.cpp`. It has no other way to refuse a tree than to throw.
    What it accepts is a dictionary with a string `"announce"` and a
    dictionary `"info"`, in which are a string `"name"`, the files, an
    integer `"piece length"` and a string `"pieces"`. The files are the list
    `"files"` of dictionaries, each with an integer `"length"` and a list of
    strings `"path"`; or, if there is no such key, the integer `"length"` for
    a single one. This shape is said as a relation between trees and
    descriptors (`Describes`), and the constructor computes it
    (`ofTree_eq_ok_iff`).

    The numbers of the tree are taken as they are: the lengths of the files
    are added up in an `int64_t`, the length of a piece is cast to `int`, and
    the number of pieces comes from a division by it. The only test compares
    this number with that of the hashes. -/

namespace Furrent.Torrent

open Cpp Bencode

/-! ### The code -/

/-- `"announce"`. -/
def announceKey : Bytes := [97, 110, 110, 111, 117, 110, 99, 101]

/-- `"info"`. -/
def infoKey : Bytes := [105, 110, 102, 111]

/-- `"name"`. -/
def nameKey : Bytes := [110, 97, 109, 101]

/-- `"files"`. -/
def filesKey : Bytes := [102, 105, 108, 101, 115]

/-- `"length"`. -/
def lengthKey : Bytes := [108, 101, 110, 103, 116, 104]

/-- `"path"`. -/
def pathKey : Bytes := [112, 97, 116, 104]

/-- `"piece length"`. -/
def pieceLengthKey : Bytes := [112, 105, 101, 99, 101, 32, 108, 101, 110, 103, 116, 104]

/-- `"pieces"`. -/
def piecesKey : Bytes := [112, 105, 101, 99, 101, 115]

/-- The loop over the path of a file. -/
def readPath : List BencodeValue → List Bytes → Outcome Empty (List Bytes)
  | [], filepath => .ok filepath
  | node :: nodes, filepath => do
    let segment ← node.asString
    readPath nodes (filepath ++ [segment])

/-- The body of the loop over the files, with the sum of the lengths. -/
def readFile (length : Int) (node : BencodeValue) : Outcome Empty (Int × File) := do
  let fileDict ← node.asDict
  let fileLength ← intAt fileDict lengthKey
  let length ← int64 (length + fileLength.toInt)
  let filepath ← readPath (← listAt fileDict pathKey) []
  .ok (length, ⟨filepath, fileLength.toInt⟩)

/-- The loop over the files. -/
def readFiles : List BencodeValue → Int → List File → Outcome Empty (Int × List File)
  | [], length, files => .ok (length, files)
  | node :: nodes, length, files => do
    let (length, file) ← readFile length node
    readFiles nodes length (files ++ [file])

/-- `length` and `files`, of a torrent with several files or with one. -/
def readContent (infoDict : List (Bytes × BencodeValue)) (name : Bytes) :
    Outcome Empty (Int × List File) :=
  match OrderedMap.find filesKey infoDict with
  | some _ => do
    let filesList ← listAt infoDict filesKey
    readFiles filesList 0 []
  | none => do
    let length ← intAt infoDict lengthKey
    .ok (length.toInt, [⟨[name], length.toInt⟩])

/-- `piece_hashes`. -/
def readHashes (infoDict : List (Bytes × BencodeValue)) : Outcome Empty (List Bytes) := do
  let pieces ← stringAt infoDict piecesKey
  match splitPieceHashes pieces with
  | .error _ => .error (.throw (.invalidArgument "Malformed piece hashes string"))
  | .ok hashes =>
    if INT64_MAX < hashes.length then
      .error (.throw (.outOfRange "number of pieces is too high"))
    else .ok hashes

/-- `(length + piece_length - 1) / piece_length`. -/
def countPieces (length pieceLength : Int) : Outcome Empty Int := do
  let sum ← int64 (length + pieceLength)
  let sum ← int64 (sum - 1)
  divInt64 sum pieceLength

end Torrent

open Cpp Bencode Torrent

/-- `TorrentFile(const BencodeValue& tree)`. -/
def TorrentFile.ofTree (sha1 : Bytes → Bytes) (tree : BencodeValue) :
    Outcome Empty TorrentFile := do
  let dict ← tree.asDict
  let announceUrl ← stringAt dict announceKey
  let infoDict ← dictAt dict infoKey
  let infoHash ← computeInfoHash sha1 (encode (.dict infoDict))
  let name ← stringAt infoDict nameKey
  let (length, files) ← readContent infoDict name
  -- `static_cast<int>`
  let pieceLength := (← intAt infoDict pieceLengthKey).toInt32.toInt
  let pieceHashes ← readHashes infoDict
  let piecesCount ← countPieces length pieceLength
  if piecesCount ≠ pieceHashes.length then
    .error (.throw (.logicError "number of piece hashes does not match with length/pieceLength"))
  else .ok { announceUrl, infoHash, pieceHashes, pieceLength, length, piecesCount, name, files }

namespace Torrent

/-! ### The shape -/

/-- A node of the list of files describes a file. -/
def DescribesFile (node : BencodeValue) (file : File) : Prop :=
  ∃ fileDict length, node = .dict fileDict ∧
    OrderedMap.find lengthKey fileDict = some (.int length) ∧ file.length = length.toInt ∧
    OrderedMap.find pathKey fileDict = some (.list (file.filepath.map .string))

/-- The lengths can be added to `length` one by one without an overflow. -/
def SumsFit : Int → List File → Prop
  | _, [] => True
  | length, file :: files =>
    FitsInt64 (length + file.length) ∧ SumsFit (length + file.length) files

/-- The files that an `"info"` dictionary describes. -/
inductive Content (infoDict : List (Bytes × BencodeValue)) (name : Bytes) : List File → Prop where
  | several {nodes : List BencodeValue} {files : List File}
      (list : OrderedMap.find filesKey infoDict = some (.list nodes))
      (each : List.Forall₂ DescribesFile nodes files) (fits : SumsFit 0 files) :
      Content infoDict name files
  | one {length : Int64} (list : OrderedMap.find filesKey infoDict = none)
      (only : OrderedMap.find lengthKey infoDict = some (.int length)) :
      Content infoDict name [⟨[name], length.toInt⟩]

/-- The hashes in an `"info"` dictionary. -/
structure Hashes (infoDict : List (Bytes × BencodeValue)) (hashes : List Bytes) : Prop where
  joined : OrderedMap.find piecesKey infoDict = some (.string hashes.flatten)
  each : ∀ hash ∈ hashes, hash.length = 20
  size : hashes.flatten.length ≤ INT64_MAX
  few : hashes.length ≤ INT64_MAX

/-- The number of pieces can be computed, and is `count`. -/
structure Counts (length pieceLength count : Int) : Prop where
  sum : FitsInt64 (length + pieceLength)
  pred : FitsInt64 (length + pieceLength - 1)
  ne_zero : pieceLength ≠ 0
  quotient : FitsInt64 ((length + pieceLength - 1).tdiv pieceLength)
  count_eq : count = (length + pieceLength - 1).tdiv pieceLength

/-- The tree is of the right shape, and this is the descriptor. -/
inductive Describes (sha1 : Bytes → Bytes) : BencodeValue → TorrentFile → Prop where
  | intro {dict infoDict : List (Bytes × BencodeValue)} {announceUrl name : Bytes}
      {files : List File} {n : Int64} {hashes : List Bytes}
      (announce : OrderedMap.find announceKey dict = some (.string announceUrl))
      (info : OrderedMap.find infoKey dict = some (.dict infoDict))
      -- beyond it is `sha1::calc` that fails, not the test of the length
      (small : (encode (.dict infoDict)).length < 2 ^ 29)
      (named : OrderedMap.find nameKey infoDict = some (.string name))
      (content : Content infoDict name files)
      (piece : OrderedMap.find pieceLengthKey infoDict = some (.int n))
      (hash : Hashes infoDict hashes)
      (count : Counts (totalLength files) n.toInt32.toInt hashes.length) :
      Describes sha1 (.dict dict)
        { announceUrl, name, files, infoHash := sha1 (encode (.dict infoDict)),
          pieceHashes := hashes, pieceLength := n.toInt32.toInt, length := totalLength files,
          piecesCount := hashes.length }

variable {sha1 : Bytes → Bytes} {tree node : BencodeValue} {nodes : List BencodeValue}
  {infoDict : List (Bytes × BencodeValue)} {name : Bytes} {d : TorrentFile} {file : File}
  {files files' : List File} {length length' : Int}

/-! ### The readers -/

theorem readPath_eq_ok_iff {filepath filepath' : List Bytes} :
    readPath nodes filepath = .ok filepath' ↔
      ∃ sections, nodes = sections.map .string ∧ filepath' = filepath ++ sections := by
  induction nodes generalizing filepath with
  | nil =>
    rw [readPath]
    constructor
    · intro h
      injection h with h
      exact ⟨[], rfl, by rw [← h, List.append_nil]⟩
    · intro ⟨sections, hnodes, h⟩
      rw [h, List.map_eq_nil_iff.mp hnodes.symm, List.append_nil]
  | cons node nodes ih =>
    rw [readPath, bind_eq_ok]
    constructor
    · intro ⟨segment, hsegment, h⟩
      obtain ⟨sections, hnodes, h⟩ := ih.mp h
      refine ⟨segment :: sections, ?_, by rw [h, List.append_assoc, List.singleton_append]⟩
      rw [asString_eq_ok.mp hsegment, hnodes, List.map_cons]
    · intro ⟨sections, hnodes, h⟩
      cases sections with
      | nil => exact absurd hnodes (by simp)
      | cons segment sections =>
        injection hnodes with hnode hnodes
        refine ⟨segment, asString_eq_ok.mpr hnode, ih.mpr ⟨sections, hnodes, ?_⟩⟩
        rw [h, List.append_assoc, List.singleton_append]

theorem readFile_eq_ok_iff :
    readFile length node = .ok (length', file) ↔
      DescribesFile node file ∧ length' = length + file.length ∧
        FitsInt64 (length + file.length) := by
  constructor
  · intro h
    obtain ⟨fileDict, hnode, h⟩ := bind_eq_ok.mp h
    obtain ⟨n, hn, h⟩ := bind_eq_ok.mp h
    obtain ⟨sum, hsum, h⟩ := bind_eq_ok.mp h
    obtain ⟨pathNodes, hpath, h⟩ := bind_eq_ok.mp h
    obtain ⟨filepath, hread, h⟩ := bind_eq_ok.mp h
    obtain ⟨sections, hsections, hfilepath⟩ := readPath_eq_ok_iff.mp hread
    rw [List.nil_append] at hfilepath
    rw [hsections] at hpath
    obtain ⟨hsum, hfits⟩ := int64_eq_ok.mp hsum
    injection h with h
    injection h with hlength hfile
    rw [← hfile, ← hlength, ← hsum, hfilepath]
    exact ⟨⟨fileDict, n, asDict_eq_ok.mp hnode, intAt_eq_ok.mp hn, rfl, listAt_eq_ok.mp hpath⟩,
      rfl, hfits⟩
  · intro ⟨⟨fileDict, n, hnode, hn, hlength, hpath⟩, hsum, hfits⟩
    rw [hlength] at hsum hfits
    rw [readFile, asDict_eq_ok.mpr hnode, ok_bind, intAt_eq_ok.mpr hn, ok_bind,
      int64_eq_ok.mpr ⟨rfl, hfits⟩, ok_bind, listAt_eq_ok.mpr hpath, ok_bind,
      readPath_eq_ok_iff.mpr ⟨_, rfl, rfl⟩, ok_bind, List.nil_append, hsum, ← hlength]

theorem readFiles_eq_ok_iff :
    readFiles nodes length files = .ok (length', files') ↔
      ∃ more, List.Forall₂ DescribesFile nodes more ∧ SumsFit length more ∧
        files' = files ++ more ∧ length' = length + totalLength more := by
  induction nodes generalizing length files with
  | nil =>
    rw [readFiles]
    constructor
    · intro h
      injection h with h
      injection h with hlength hfiles
      refine ⟨[], .nil, trivial, by rw [← hfiles, List.append_nil], ?_⟩
      rw [← hlength]
      exact (Int.add_zero _).symm
    · intro ⟨more, heach, _, hfiles, hlength⟩
      cases heach
      rw [hfiles, hlength, List.append_nil]
      exact congrArg (fun sum => Except.ok (sum, files)) (Int.add_zero _).symm
  | cons node nodes ih =>
    rw [readFiles, bind_eq_ok]
    have htotal : ∀ (file : File) (more : List File),
        length + totalLength (file :: more) = length + file.length + totalLength more := by
      intro file more
      rw [Int.add_assoc]
      rfl
    constructor
    · intro ⟨⟨sum, file⟩, hfile, h⟩
      obtain ⟨hnode, hsum, hfits⟩ := readFile_eq_ok_iff.mp hfile
      obtain ⟨more, heach, hmore, hfiles, hlength⟩ := ih.mp h
      rw [hsum] at hmore hlength
      refine ⟨file :: more, .cons hnode heach, ⟨hfits, hmore⟩, ?_, ?_⟩
      · rw [hfiles, List.append_assoc, List.singleton_append]
      · rw [hlength, htotal]
    · intro ⟨more, heach, hmore, hfiles, hlength⟩
      cases heach with
      | @cons _ file _ more hnode heach =>
        obtain ⟨hfits, hmore⟩ := hmore
        refine ⟨(length + file.length, file), readFile_eq_ok_iff.mpr ⟨hnode, rfl, hfits⟩,
          ih.mpr ⟨more, heach, hmore, ?_, ?_⟩⟩
        · rw [hfiles, List.append_assoc, List.singleton_append]
        · rw [hlength, htotal]

theorem readContent_eq_ok_iff :
    readContent infoDict name = .ok (length, files) ↔
      Content infoDict name files ∧ length = totalLength files := by
  unfold readContent
  constructor
  · intro h
    split at h
    · obtain ⟨nodes, hnodes, h⟩ := bind_eq_ok.mp h
      obtain ⟨more, heach, hfits, hfiles, hlength⟩ := readFiles_eq_ok_iff.mp h
      rw [List.nil_append] at hfiles
      rw [Int.zero_add] at hlength
      rw [hlength, hfiles]
      exact ⟨.several (listAt_eq_ok.mp hnodes) heach hfits, rfl⟩
    · next hnone =>
      obtain ⟨n, hn, h⟩ := bind_eq_ok.mp h
      injection h with h
      injection h with hlength hfiles
      rw [← hlength, ← hfiles]
      exact ⟨.one hnone (intAt_eq_ok.mp hn), (Int.add_zero _).symm⟩
  · intro ⟨hcontent, hlength⟩
    cases hcontent with
    | several list each fits =>
      rw [list]
      simp only [listAt_eq_ok.mpr list, ok_bind]
      exact readFiles_eq_ok_iff.mpr
        ⟨files, each, fits, (List.nil_append _).symm, by rw [hlength, Int.zero_add]⟩
    | one list only =>
      rw [list]
      simp only [intAt_eq_ok.mpr only, ok_bind]
      rw [hlength]
      exact congrArg (fun sum => Except.ok (sum, _)) (Int.add_zero _).symm

theorem readHashes_eq_ok_iff {hashes : List Bytes} :
    readHashes infoDict = .ok hashes ↔ Hashes infoDict hashes := by
  unfold readHashes
  rw [bind_eq_ok]
  constructor
  · intro ⟨pieces, hpieces, h⟩
    split at h
    · injection h
    · next hashes' hsplit =>
      obtain ⟨hfew, h⟩ := guard_eq_ok.mp h
      injection h with h
      obtain ⟨hjoin, heach, hsize⟩ := splitPieceHashes_eq_ok_iff.mp hsplit
      rw [← hjoin] at hpieces hsize
      rw [← h]
      exact ⟨stringAt_eq_ok.mp hpieces, heach, hsize, by omega⟩
  · intro h
    refine ⟨hashes.flatten, stringAt_eq_ok.mpr h.joined, ?_⟩
    simp only [splitPieceHashes_eq_ok_iff.mpr ⟨rfl, h.each, h.size⟩]
    rw [if_neg (Nat.not_lt.mpr h.few)]

theorem countPieces_eq_ok_iff {length pieceLength count : Int} :
    countPieces length pieceLength = .ok count ↔ Counts length pieceLength count := by
  constructor
  · intro h
    obtain ⟨sum, hsum, h⟩ := bind_eq_ok.mp h
    obtain ⟨pred, hpred, h⟩ := bind_eq_ok.mp h
    obtain ⟨rfl, hsumFits⟩ := int64_eq_ok.mp hsum
    obtain ⟨rfl, hpredFits⟩ := int64_eq_ok.mp hpred
    obtain ⟨hne, hcount, hquotient⟩ := divInt64_eq_ok.mp h
    exact ⟨hsumFits, hpredFits, hne, hquotient, hcount.symm⟩
  · intro ⟨hsum, hpred, hne, hquotient, hcount⟩
    rw [countPieces, int64_eq_ok.mpr ⟨rfl, hsum⟩, ok_bind, int64_eq_ok.mpr ⟨rfl, hpred⟩, ok_bind,
      divInt64_eq_ok]
    exact ⟨hne, hcount.symm, hquotient⟩

theorem computeInfoHash_eq_ok_iff {bencodedInfoDict infoHash : Bytes} :
    computeInfoHash sha1 bencodedInfoDict = .ok infoHash ↔
      bencodedInfoDict.length < 2 ^ 29 ∧ infoHash = sha1 bencodedInfoDict := by
  have hmax : INT_MAX = 2147483647 := rfl
  unfold computeInfoHash
  by_cases hlarge : INT_MAX < bencodedInfoDict.length
  · rw [if_pos hlarge]
    refine iff_of_false (by simp) ?_
    rintro ⟨hsmall, _⟩
    omega
  · rw [if_neg hlarge]
    exact calcSha1_eq_ok_iff

/-! ### The constructor -/

/-- For every tree: the constructor returns a descriptor just when the tree
    is of the right shape, and then the one that it describes. -/
theorem ofTree_eq_ok_iff : TorrentFile.ofTree sha1 tree = .ok d ↔ Describes sha1 tree d := by
  constructor
  · intro h
    obtain ⟨dict, hdict, h⟩ := bind_eq_ok.mp h
    obtain ⟨announceUrl, hannounce, h⟩ := bind_eq_ok.mp h
    obtain ⟨infoDict, hinfo, h⟩ := bind_eq_ok.mp h
    obtain ⟨infoHash, hhash, h⟩ := bind_eq_ok.mp h
    obtain ⟨name, hname, h⟩ := bind_eq_ok.mp h
    obtain ⟨⟨length, files⟩, hcontent, h⟩ := bind_eq_ok.mp h
    obtain ⟨n, hn, h⟩ := bind_eq_ok.mp h
    obtain ⟨pieceHashes, hhashes, h⟩ := bind_eq_ok.mp h
    obtain ⟨count, hcount, h⟩ := bind_eq_ok.mp h
    obtain ⟨hsmall, hsha1⟩ := computeInfoHash_eq_ok_iff.mp hhash
    obtain ⟨hfiles, hlength⟩ := readContent_eq_ok_iff.mp hcontent
    by_cases hne : count ≠ pieceHashes.length
    · rw [if_pos hne] at h
      injection h
    · rw [if_neg hne] at h
      injection h with h
      rw [not_not.mp hne, hlength] at hcount
      rw [← h, asDict_eq_ok.mp hdict, hlength, hsha1, not_not.mp hne]
      exact .intro (stringAt_eq_ok.mp hannounce) (dictAt_eq_ok.mp hinfo) hsmall
        (stringAt_eq_ok.mp hname) hfiles (intAt_eq_ok.mp hn) (readHashes_eq_ok_iff.mp hhashes)
        (countPieces_eq_ok_iff.mp hcount)
  · intro h
    cases h with
    | intro announce info small named content piece hash count =>
      rw [TorrentFile.ofTree, asDict_eq_ok.mpr rfl, ok_bind, stringAt_eq_ok.mpr announce, ok_bind,
        dictAt_eq_ok.mpr info, ok_bind, computeInfoHash_eq_ok_iff.mpr ⟨small, rfl⟩, ok_bind,
        stringAt_eq_ok.mpr named, ok_bind, readContent_eq_ok_iff.mpr ⟨content, rfl⟩, ok_bind]
      simp only [intAt_eq_ok.mpr piece, readHashes_eq_ok_iff.mpr hash,
        countPieces_eq_ok_iff.mpr count, ok_bind]
      rw [if_neg (not_not.mpr rfl)]

/-! ### The numbers of a tree -/

/-- A node of the list of files has the length `length`. -/
def IsFile (node : BencodeValue) (length : Int64) : Prop :=
  ∃ fileDict, node = .dict fileDict ∧ OrderedMap.find lengthKey fileDict = some (.int length)

/-- The lengths of the files that an `"info"` dictionary describes. -/
inductive FileLengths (infoDict : List (Bytes × BencodeValue)) : List Int64 → Prop where
  | several {nodes : List BencodeValue} {lengths : List Int64}
      (files : OrderedMap.find filesKey infoDict = some (.list nodes))
      (each : List.Forall₂ IsFile nodes lengths) : FileLengths infoDict lengths
  | one {length : Int64} (files : OrderedMap.find filesKey infoDict = none)
      (only : OrderedMap.find lengthKey infoDict = some (.int length)) :
      FileLengths infoDict [length]

/-- The tree gives the files the lengths `lengths`, and the pieces the length
    `pieceLength`. -/
inductive TreeNumbers : BencodeValue → List Int64 → Int64 → Prop where
  | intro {dict infoDict : List (Bytes × BencodeValue)} {lengths : List Int64}
      {pieceLength : Int64} (info : OrderedMap.find infoKey dict = some (.dict infoDict))
      (files : FileLengths infoDict lengths)
      (piece : OrderedMap.find pieceLengthKey infoDict = some (.int pieceLength)) :
      TreeNumbers (.dict dict) lengths pieceLength

variable {lengths lengths' : List Int64} {n n' : Int64}

theorem isFile_rightUnique : Relator.RightUnique IsFile := by
  intro node length length' h h'
  obtain ⟨fileDict, hnode, hlength⟩ := h
  obtain ⟨fileDict', hnode', hlength'⟩ := h'
  rw [hnode] at hnode'
  injection hnode' with hdict
  rw [hdict, hlength'] at hlength
  injection hlength with heq
  injection heq with heq
  exact heq.symm

theorem FileLengths.unique (h : FileLengths infoDict lengths) (h' : FileLengths infoDict lengths') :
    lengths = lengths' := by
  cases h with
  | several files each =>
    cases h' with
    | several files' each' =>
      rw [files] at files'
      injection files' with heq
      injection heq with heq
      rw [← heq] at each'
      exact List.right_unique_forall₂' isFile_rightUnique each each'
    | one files' only =>
      rw [files] at files'
      injection files'
  | one files only =>
    cases h' with
    | several files' each' =>
      rw [files] at files'
      injection files'
    | one files' only' =>
      rw [only] at only'
      injection only' with heq
      injection heq with heq
      rw [heq]

theorem TreeNumbers.unique (h : TreeNumbers tree lengths n) (h' : TreeNumbers tree lengths' n') :
    lengths = lengths' ∧ n = n' := by
  cases h with
  | intro info files piece =>
    cases h' with
    | intro info' files' piece' =>
      rw [info] at info'
      injection info' with heq
      injection heq with heq
      rw [← heq] at files' piece'
      rw [piece] at piece'
      injection piece' with hn
      injection hn with hn
      exact ⟨files.unique files', hn⟩

/-! ### What the constructor returns -/

/-- The sum of the lengths. -/
def sumLengths (lengths : List Int64) : Int := (lengths.map Int64.toInt).sum

/-- The nodes give the files their lengths. -/
theorem exists_lengths_of_nodes (h : List.Forall₂ DescribesFile nodes files) :
    ∃ lengths, List.Forall₂ IsFile nodes lengths ∧
      files.map File.length = lengths.map Int64.toInt := by
  induction h with
  | nil => exact ⟨[], .nil, rfl⟩
  | cons hnode _ ih =>
    obtain ⟨fileDict, n, hdict, hn, hlength, _⟩ := hnode
    obtain ⟨lengths, heach, hmap⟩ := ih
    refine ⟨n :: lengths, .cons ⟨fileDict, hdict, hn⟩ heach, ?_⟩
    rw [List.map_cons, List.map_cons, hlength, hmap]

theorem Content.exists_lengths (h : Content infoDict name files) :
    ∃ lengths, FileLengths infoDict lengths ∧
      files.map File.length = lengths.map Int64.toInt ∧ totalLength files = sumLengths lengths := by
  cases h with
  | several list each fits =>
    obtain ⟨lengths, heach, hmap⟩ := exists_lengths_of_nodes each
    exact ⟨lengths, .several list heach, hmap, by rw [totalLength, hmap, sumLengths]⟩
  | one list only => exact ⟨[_], .one list only, rfl, rfl⟩

/-- Where the numbers of a descriptor come from. -/
structure Constructed (lengths : List Int64) (n : Int64) (d : TorrentFile) : Prop where
  files : d.files.map File.length = lengths.map Int64.toInt
  length : d.length = sumLengths lengths
  pieceLength : d.pieceLength = n.toInt32.toInt
  fits : FitsInt64 (d.length + d.pieceLength)
  pieceLength_ne : d.pieceLength ≠ 0
  piecesCount : d.piecesCount = (d.length + d.pieceLength - 1).tdiv d.pieceLength
  hashes : d.piecesCount = d.pieceHashes.length

theorem ofTree_eq_ok (h : TorrentFile.ofTree sha1 tree = .ok d) :
    ∃ lengths n, TreeNumbers tree lengths n ∧ Constructed lengths n d := by
  cases ofTree_eq_ok_iff.mp h with
  | intro announce info small named content piece hash count =>
    obtain ⟨lengths, hlengths, hfiles, htotal⟩ := content.exists_lengths
    exact ⟨lengths, _, .intro info hlengths piece, hfiles, htotal, rfl, count.sum, count.ne_zero,
      count.count_eq, rfl⟩

end Furrent.Torrent
