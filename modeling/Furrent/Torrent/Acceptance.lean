import Furrent.Torrent.Construction

/-! # Which descriptors are accepted

    A descriptor should fit the tree it was made from: the length of a piece
    is the one of the tree and positive, no file has a negative length, the
    total length is their sum, and there are as many pieces as it takes and
    as there are hashes. The constructor makes sure of the last only. So the
    tree has to be sane: an insane one is accepted with numbers that do not
    fit, overflows, or divides by zero, unless it is refused. Which trees are
    refused is said on the tree as well. -/

namespace Furrent.Torrent

open Cpp Bencode

variable {sha1 : Bytes → Bytes} {tree node : BencodeValue} {nodes : List BencodeValue}
  {infoDict : List (Bytes × BencodeValue)} {lengths : List Int64} {n : Int64} {d : TorrentFile}

/-- A tree with these numbers can be dealt with. -/
structure Sane (lengths : List Int64) (n : Int64) : Prop where
  length_nonneg : ∀ length ∈ lengths, 0 ≤ length.toInt
  pieceLength_pos : 1 ≤ n.toInt
  pieceLength_le : n.toInt ≤ INT_MAX
  fits : sumLengths lengths + n.toInt ≤ INT64_MAX

/-- The descriptor fits a tree in which the length of a piece is `n`. -/
structure Described (n : Int64) (d : TorrentFile) : Prop where
  pieceLength_eq : d.pieceLength = n.toInt
  pieceLength_pos : 1 ≤ d.pieceLength
  length_nonneg : ∀ f ∈ d.files, 0 ≤ f.length
  length_eq : d.length = totalLength d.files
  /-- Integer ceil division. -/
  piecesCount_eq : d.piecesCount = (d.length + d.pieceLength - 1) / d.pieceLength
  hashes : d.piecesCount = d.pieceHashes.length

/-- The constructor throws or makes a descriptor that fits the tree. In
    particular it does not divide by zero, and no sum overflows. -/
def Conforms (sha1 : Bytes → Bytes) (tree : BencodeValue) : Prop :=
  Throws (TorrentFile.ofTree sha1 tree) ∨
    ∃ d lengths n, TorrentFile.ofTree sha1 tree = .ok d ∧ TreeNumbers tree lengths n ∧
      Described n d

/-! ### Trees that are refused

    The constructor throws at the first thing that is missing or of the wrong
    type, unless there is undefined behaviour before: the hash of an `"info"`
    that is too long, or a sum that overflows. -/

/-- The tree is a dictionary with a string `"announce"`, and `infoDict` is the
    dictionary `"info"` in it. -/
def Headed (tree : BencodeValue) (infoDict : List (Bytes × BencodeValue)) : Prop :=
  ∃ dict announceUrl, tree = .dict dict ∧
    OrderedMap.find announceKey dict = some (.string announceUrl) ∧
    OrderedMap.find infoKey dict = some (.dict infoDict)

/-- A node of the list of files has no length, or it has one that can be added
    to `length`, and no path. -/
def RefusesFile (length : Int) (node : BencodeValue) : Prop :=
  (∀ n, ¬ IsFile node n) ∨ ∃ fileDict n, node = .dict fileDict ∧
    OrderedMap.find lengthKey fileDict = some (.int n) ∧ FitsInt64 (length + n.toInt) ∧
    ∀ filepath : List Bytes,
      OrderedMap.find pathKey fileDict ≠ some (.list (filepath.map .string))

/-- There is something wrong with the files of an `"info"` dictionary, and no
    overflow before. -/
inductive RefusesContent (infoDict : List (Bytes × BencodeValue)) : Prop where
  | notList {value : BencodeValue} (files : OrderedMap.find filesKey infoDict = some value)
      (wrong : ∀ nodes, value ≠ .list nodes)
  | file {before behind : List BencodeValue} {node : BencodeValue} {files : List File}
      (list : OrderedMap.find filesKey infoDict = some (.list (before ++ node :: behind)))
      (each : List.Forall₂ DescribesFile before files) (fits : SumsFit 0 files)
      (wrong : RefusesFile (totalLength files) node)
  | noLength (files : OrderedMap.find filesKey infoDict = none)
      (wrong : ∀ length, OrderedMap.find lengthKey infoDict ≠ some (.int length))

/-- Something is missing or wrong in an `"info"` dictionary. -/
inductive RefusesInfo (infoDict : List (Bytes × BencodeValue)) : Prop where
  | unnamed (wrong : ∀ name, OrderedMap.find nameKey infoDict ≠ some (.string name))
  | content {name : Bytes} (named : OrderedMap.find nameKey infoDict = some (.string name))
      (wrong : RefusesContent infoDict)
  | piece {name : Bytes} {files : List File}
      (named : OrderedMap.find nameKey infoDict = some (.string name))
      (content : Content infoDict name files)
      (wrong : ∀ n, OrderedMap.find pieceLengthKey infoDict ≠ some (.int n))
  | hashes {name : Bytes} {files : List File} {n : Int64}
      (named : OrderedMap.find nameKey infoDict = some (.string name))
      (content : Content infoDict name files)
      (piece : OrderedMap.find pieceLengthKey infoDict = some (.int n))
      (wrong : ∀ hashes, ¬ Hashes infoDict hashes)
  | count {name : Bytes} {files : List File} {n : Int64} {hashes : List Bytes} {count : Int}
      (named : OrderedMap.find nameKey infoDict = some (.string name))
      (content : Content infoDict name files)
      (piece : OrderedMap.find pieceLengthKey infoDict = some (.int n))
      (hash : Hashes infoDict hashes)
      (counts : Counts (totalLength files) n.toInt32.toInt count)
      (wrong : count ≠ hashes.length)

/-- The constructor refuses the tree. -/
inductive Refused (tree : BencodeValue) : Prop where
  | head (wrong : ∀ infoDict, ¬ Headed tree infoDict)
  | large {infoDict : List (Bytes × BencodeValue)} (headed : Headed tree infoDict)
      (wrong : INT_MAX < (encode (.dict infoDict)).length)
  | info {infoDict : List (Bytes × BencodeValue)} (headed : Headed tree infoDict)
      (small : (encode (.dict infoDict)).length < 2 ^ 29) (wrong : RefusesInfo infoDict)

theorem Headed.unique {infoDict' : List (Bytes × BencodeValue)} (h : Headed tree infoDict)
    (h' : Headed tree infoDict') : infoDict = infoDict' := by
  obtain ⟨dict, _, htree, _, hinfo⟩ := h
  obtain ⟨dict', _, htree', _, hinfo'⟩ := h'
  rw [htree] at htree'
  injection htree' with hsame
  rw [← hsame, hinfo] at hinfo'
  injection hinfo' with hinfo'
  injection hinfo'

/-! ### When the readers throw -/

theorem readPath_throws_iff {filepath : List Bytes} :
    Throws (readPath nodes filepath) ↔ ∀ sections : List Bytes, nodes ≠ sections.map .string := by
  have hreturns : ReturnsOrThrows (fun _ => True) (readPath nodes filepath) := by
    induction nodes generalizing filepath with
    | nil => trivial
    | cons node nodes ih =>
      apply asString_throws.bind
      intro segment _ _
      exact ih
  rw [hreturns.throws_iff]
  constructor
  · intro h sections hsections
    exact h _ (readPath_eq_ok_iff.mpr ⟨sections, hsections, rfl⟩)
  · intro h filepath' hread
    obtain ⟨sections, hsections, _⟩ := readPath_eq_ok_iff.mp hread
    exact h sections hsections

theorem not_throws_int64 {k : Int} : ¬ Throws (int64 k : Outcome Empty Int) := by
  unfold int64
  split <;> simp [Throws]

theorem readFile_throws_iff {length : Int} :
    Throws (readFile length node) ↔ RefusesFile length node := by
  constructor
  · intro h
    by_cases hfile : ∀ n, ¬ IsFile node n
    · exact .inl hfile
    push Not at hfile
    obtain ⟨n, fileDict, hnode, hlength⟩ := hfile
    replace h := asDict_throws.throws_bind_iff.mp h fileDict (asDict_eq_ok.mpr hnode)
    replace h := intAt_throws.throws_bind_iff.mp h n (intAt_eq_ok.mpr hlength)
    rcases throws_bind.mp h with h | ⟨sum, hsum, h⟩
    · exact absurd h not_throws_int64
    refine .inr ⟨fileDict, n, hnode, hlength, (int64_eq_ok.mp hsum).2, ?_⟩
    intro filepath hpath
    replace h := listAt_throws.throws_bind_iff.mp h _ (listAt_eq_ok.mpr hpath)
    rcases throws_bind.mp h with h | ⟨filepath', _, h⟩
    · exact readPath_throws_iff.mp h filepath rfl
    · obtain ⟨e, he⟩ := h
      injection he
  · intro h
    rcases h with h | ⟨fileDict, n, hnode, hn, hfits, hpath⟩
    · refine asDict_throws.throws_bind_iff.mpr fun fileDict hnode => ?_
      refine intAt_throws.throws_bind_iff.mpr fun n hn => ?_
      exact absurd ⟨fileDict, asDict_eq_ok.mp hnode, intAt_eq_ok.mp hn⟩ (h n)
    · rw [readFile, asDict_eq_ok.mpr hnode, ok_bind, intAt_eq_ok.mpr hn, ok_bind,
        int64_eq_ok.mpr ⟨rfl, hfits⟩, ok_bind]
      refine listAt_throws.throws_bind_iff.mpr fun pathNodes hpathNodes => ?_
      refine throws_bind.mpr (.inl (readPath_throws_iff.mpr fun sections hsections => ?_))
      apply hpath sections
      rw [listAt_eq_ok.mp hpathNodes, hsections]

theorem readFiles_throws_iff {length : Int} {files : List File} :
    Throws (readFiles nodes length files) ↔ ∃ before node behind more,
      nodes = before ++ node :: behind ∧ List.Forall₂ DescribesFile before more ∧
        SumsFit length more ∧ RefusesFile (length + totalLength more) node := by
  induction nodes generalizing length files with
  | nil =>
    refine iff_of_false (by simp [readFiles, Throws]) ?_
    rintro ⟨before, node, behind, _, h, _⟩
    exact absurd h (by simp)
  | cons node nodes ih =>
    rw [readFiles, throws_bind, readFile_throws_iff]
    constructor
    · rintro (h | ⟨⟨sum, file⟩, hfile, h⟩)
      · refine ⟨[], node, nodes, [], rfl, .nil, trivial, ?_⟩
        rwa [show length + totalLength [] = length from Int.add_zero _]
      · obtain ⟨hnode, hsum, hfits⟩ := readFile_eq_ok_iff.mp hfile
        obtain ⟨before, node', behind, more, hnodes, heach, hsums, hwrong⟩ := ih.mp h
        rw [hsum] at hsums hwrong
        refine ⟨node :: before, node', behind, file :: more, by rw [hnodes]; rfl,
          .cons hnode heach, ⟨hfits, hsums⟩, ?_⟩
        rwa [show length + totalLength (file :: more)
          = length + file.length + totalLength more from (Int.add_assoc ..).symm]
    · rintro ⟨before, node', behind, more, hnodes, heach, hsums, hwrong⟩
      cases heach with
      | nil =>
        injection hnodes with hnode _
        rw [hnode]
        rw [show length + totalLength [] = length from Int.add_zero _] at hwrong
        exact .inl hwrong
      | @cons first file before more hnode heach =>
        injection hnodes with hfirst hnodes
        obtain ⟨hfits, hsums⟩ := hsums
        rw [hfirst]
        refine .inr ⟨(length + file.length, file), readFile_eq_ok_iff.mpr ⟨hnode, rfl, hfits⟩,
          ih.mpr ⟨before, node', behind, more, hnodes, heach, hsums, ?_⟩⟩
        rwa [show length + totalLength (file :: more)
          = length + file.length + totalLength more from (Int.add_assoc ..).symm] at hwrong

theorem readContent_throws_iff {name : Bytes} :
    Throws (readContent infoDict name) ↔ RefusesContent infoDict := by
  unfold readContent
  constructor
  · intro h
    split at h
    · next value hvalue =>
      rcases throws_bind.mp h with h | ⟨nodes, hnodes, h⟩
      · refine .notList hvalue fun nodes hlist => ?_
        rw [hlist] at hvalue
        exact listAt_throws.throws_iff.mp h nodes (listAt_eq_ok.mpr hvalue)
      · obtain ⟨before, node, behind, more, rfl, heach, hfits, hwrong⟩ := readFiles_throws_iff.mp h
        rw [Int.zero_add] at hwrong
        exact .file (listAt_eq_ok.mp hnodes) heach hfits hwrong
    · next hnone =>
      rcases throws_bind.mp h with h | ⟨length, _, h⟩
      · refine .noLength hnone fun length hlength => ?_
        exact intAt_throws.throws_iff.mp h length (intAt_eq_ok.mpr hlength)
      · obtain ⟨e, he⟩ := h
        injection he
  · intro h
    cases h with
    | notList files wrong =>
      rw [files]
      refine throws_bind.mpr (.inl (listAt_throws.throws_iff.mpr fun nodes hnodes => ?_))
      rw [listAt_eq_ok, files] at hnodes
      injection hnodes with hnodes
      exact wrong nodes hnodes
    | file list each fits wrong =>
      rw [list]
      refine throws_bind.mpr (.inr ⟨_, listAt_eq_ok.mpr list, readFiles_throws_iff.mpr ?_⟩)
      exact ⟨_, _, _, _, rfl, each, fits, by rwa [Int.zero_add]⟩
    | noLength files wrong =>
      rw [files]
      refine throws_bind.mpr (.inl (intAt_throws.throws_iff.mpr fun length hlength => ?_))
      exact wrong length (intAt_eq_ok.mp hlength)

theorem readHashes_throws_iff :
    Throws (readHashes infoDict) ↔ ∀ hashes, ¬ Hashes infoDict hashes := by
  have hreturns : ReturnsOrThrows (fun _ => True) (readHashes infoDict) := by
    apply stringAt_throws.bind
    intro pieces _ _
    split
    · trivial
    · split
      · trivial
      · trivial
  rw [hreturns.throws_iff]
  constructor
  · intro h hashes hhashes
    exact h hashes (readHashes_eq_ok_iff.mpr hhashes)
  · intro h hashes hread
    exact h hashes (readHashes_eq_ok_iff.mp hread)

theorem not_throws_countPieces {length pieceLength : Int} :
    ¬ Throws (countPieces length pieceLength) := by
  intro h
  rcases throws_bind.mp h with h | ⟨_, _, h⟩
  · exact not_throws_int64 h
  rcases throws_bind.mp h with h | ⟨_, _, h⟩
  · exact not_throws_int64 h
  unfold divInt64 at h
  split at h
  · simp [Throws] at h
  · exact not_throws_int64 h

theorem computeInfoHash_throws_iff {bencodedInfoDict : Bytes} :
    Throws (computeInfoHash sha1 bencodedInfoDict) ↔ INT_MAX < bencodedInfoDict.length := by
  unfold computeInfoHash
  by_cases hlarge : INT_MAX < bencodedInfoDict.length
  · rw [if_pos hlarge]
    exact iff_of_true ⟨_, rfl⟩ hlarge
  · rw [if_neg hlarge]
    refine iff_of_false ?_ hlarge
    unfold calcSha1
    split <;> simp [Throws]

theorem refused_of_throws (h : Throws (TorrentFile.ofTree sha1 tree)) : Refused tree := by
  by_cases hhead : ∀ infoDict, ¬ Headed tree infoDict
  · exact .head hhead
  push Not at hhead
  obtain ⟨infoDict, headed⟩ := hhead
  have hhead := headed
  obtain ⟨dict, url, htree, hurl, hinfo⟩ := hhead
  replace h := asDict_throws.throws_bind_iff.mp h dict (asDict_eq_ok.mpr htree)
  replace h := stringAt_throws.throws_bind_iff.mp h url (stringAt_eq_ok.mpr hurl)
  replace h := dictAt_throws.throws_bind_iff.mp h infoDict (dictAt_eq_ok.mpr hinfo)
  rcases throws_bind.mp h with h | ⟨infoHash, hhash, h⟩
  · exact .large headed (computeInfoHash_throws_iff.mp h)
  refine .info headed (computeInfoHash_eq_ok_iff.mp hhash).1 ?_
  rcases throws_bind.mp h with h | ⟨name, hname, h⟩
  · refine .unnamed fun name hname => ?_
    exact stringAt_throws.throws_iff.mp h name (stringAt_eq_ok.mpr hname)
  have named := stringAt_eq_ok.mp hname
  rcases throws_bind.mp h with h | ⟨⟨length, files⟩, hcontent, h⟩
  · exact .content named (readContent_throws_iff.mp h)
  obtain ⟨content, hlength⟩ := readContent_eq_ok_iff.mp hcontent
  rcases throws_bind.mp h with h | ⟨n, hn, h⟩
  · refine .piece named content fun n hn => ?_
    exact intAt_throws.throws_iff.mp h n (intAt_eq_ok.mpr hn)
  have piece := intAt_eq_ok.mp hn
  rcases throws_bind.mp h with h | ⟨hashes, hhashes, h⟩
  · exact .hashes named content piece (readHashes_throws_iff.mp h)
  -- What is left after the hashes are read is to count the pieces and to compare.
  rcases throws_bind.mp h with h | ⟨count, hcount, h⟩
  · exact absurd h not_throws_countPieces
  rw [hlength] at hcount
  refine .count named content piece (readHashes_eq_ok_iff.mp hhashes)
    (countPieces_eq_ok_iff.mp hcount) fun heq => ?_
  rw [if_neg (not_not.mpr heq)] at h
  obtain ⟨e, he⟩ := h
  injection he

theorem throws_of_refused (h : Refused tree) : Throws (TorrentFile.ofTree sha1 tree) := by
  refine asDict_throws.throws_bind_iff.mpr fun dict hdict => ?_
  refine stringAt_throws.throws_bind_iff.mpr fun url hurl => ?_
  refine dictAt_throws.throws_bind_iff.mpr fun infoDict hinfo => ?_
  have headed : Headed tree infoDict :=
    ⟨dict, url, asDict_eq_ok.mp hdict, stringAt_eq_ok.mp hurl, dictAt_eq_ok.mp hinfo⟩
  cases h with
  | head wrong => exact absurd headed (wrong infoDict)
  | large headed' wrong =>
    rw [headed'.unique headed] at wrong
    exact throws_bind.mpr (.inl (computeInfoHash_throws_iff.mpr wrong))
  | info headed' small wrong =>
    rw [headed'.unique headed] at small wrong
    rw [computeInfoHash_eq_ok_iff.mpr ⟨small, rfl⟩, ok_bind]
    cases wrong with
    | unnamed wrong =>
      refine throws_bind.mpr (.inl (stringAt_throws.throws_iff.mpr fun name hname => ?_))
      exact wrong name (stringAt_eq_ok.mp hname)
    | content named wrong =>
      rw [stringAt_eq_ok.mpr named, ok_bind]
      exact throws_bind.mpr (.inl (readContent_throws_iff.mpr wrong))
    | piece named content wrong =>
      rw [stringAt_eq_ok.mpr named, ok_bind, readContent_eq_ok_iff.mpr ⟨content, rfl⟩, ok_bind]
      refine throws_bind.mpr (.inl (intAt_throws.throws_iff.mpr fun n hn => ?_))
      exact wrong n (intAt_eq_ok.mp hn)
    | hashes named content piece wrong =>
      rw [stringAt_eq_ok.mpr named, ok_bind, readContent_eq_ok_iff.mpr ⟨content, rfl⟩, ok_bind]
      simp only [intAt_eq_ok.mpr piece, ok_bind]
      exact throws_bind.mpr (.inl (readHashes_throws_iff.mpr wrong))
    | count named content piece hash counts wrong =>
      rw [stringAt_eq_ok.mpr named, ok_bind, readContent_eq_ok_iff.mpr ⟨content, rfl⟩, ok_bind]
      simp only [intAt_eq_ok.mpr piece, readHashes_eq_ok_iff.mpr hash,
        countPieces_eq_ok_iff.mpr counts, ok_bind]
      rw [if_pos wrong]
      exact ⟨_, rfl⟩

/-- The constructor throws just when the tree is refused. -/
theorem ofTree_throws_iff : Throws (TorrentFile.ofTree sha1 tree) ↔ Refused tree :=
  ⟨refused_of_throws, throws_of_refused⟩

/-! ### Sane trees -/

theorem sumLengths_nonneg (h : ∀ length ∈ lengths, 0 ≤ length.toInt) : 0 ≤ sumLengths lengths := by
  apply List.sum_nonneg
  intro length hlength
  obtain ⟨length', hmem, rfl⟩ := List.mem_map.mp hlength
  exact h length' hmem

theorem toInt_toInt32 (hpos : 1 ≤ n.toInt) (hle : n.toInt ≤ INT_MAX) :
    n.toInt32.toInt = n.toInt := by
  have hmax : (INT_MAX : Int) = 2 ^ 31 - 1 := rfl
  rw [Int64.toInt_toInt32, Int.bmod_eq_of_le (by omega) (by omega)]

/-! ### Descriptors that fit -/

theorem totalLength_eq (h : Constructed lengths n d) :
    totalLength d.files = sumLengths lengths := by
  rw [totalLength, h.files, sumLengths]

theorem Constructed.length_nonneg (h : Constructed lengths n d)
    (hlengths : ∀ length ∈ lengths, 0 ≤ length.toInt) : ∀ f ∈ d.files, 0 ≤ f.length := by
  intro f hf
  have hmem : f.length ∈ lengths.map Int64.toInt := by
    rw [← h.files]
    exact List.mem_map_of_mem hf
  obtain ⟨length, hlength, heq⟩ := List.mem_map.mp hmem
  rw [← heq]
  exact hlengths length hlength

theorem Constructed.count_of_pos (h : Constructed lengths n d)
    (hlengths : ∀ length ∈ lengths, 0 ≤ length.toInt) (hpos : 1 ≤ d.pieceLength) :
    d.piecesCount = (d.length + d.pieceLength - 1) / d.pieceLength := by
  have h0 := sumLengths_nonneg hlengths
  rw [h.piecesCount, Int.tdiv_eq_ediv_of_nonneg]
  rw [h.length]
  omega

theorem Constructed.described (h : Constructed lengths n d) (hsane : Sane lengths n) :
    Described n d := by
  have hpiece : d.pieceLength = n.toInt := by
    rw [h.pieceLength, toInt_toInt32 hsane.pieceLength_pos hsane.pieceLength_le]
  have hpos := hsane.pieceLength_pos
  refine ⟨hpiece, by omega, h.length_nonneg hsane.length_nonneg, ?_,
    h.count_of_pos hsane.length_nonneg (by omega), h.hashes⟩
  rw [h.length, totalLength_eq h]

theorem Constructed.sane (h : Constructed lengths n d) (hdescribed : Described n d) :
    Sane lengths n := by
  have hpiece := hdescribed.pieceLength_eq
  have hpos := hdescribed.pieceLength_pos
  have hcast := h.pieceLength
  have hint := n.toInt32.toInt_lt
  have hfits := h.fits.2
  have hlength := h.length
  have hmax : (INT_MAX : Int) = 2 ^ 31 - 1 := rfl
  have hmax64 : (INT64_MAX : Int) = 2 ^ 63 - 1 := rfl
  refine ⟨?_, by omega, by omega, by omega⟩
  intro length hmem
  have hfile : length.toInt ∈ d.files.map File.length := by
    rw [h.files]
    exact List.mem_map_of_mem hmem
  obtain ⟨f, hf, heq⟩ := List.mem_map.mp hfile
  rw [← heq]
  exact hdescribed.length_nonneg f hf

/-- For every tree: the constructor throws or makes a descriptor that fits,
    without a division by zero and without an overflow, just when the tree is
    refused, or when it describes a descriptor and its numbers are sane. -/
theorem conforms_iff (sha1 : Bytes → Bytes) (tree : BencodeValue) :
    Conforms sha1 tree ↔ Refused tree ∨
      ∃ d lengths n, Describes sha1 tree d ∧ TreeNumbers tree lengths n ∧ Sane lengths n := by
  unfold Conforms
  rw [ofTree_throws_iff]
  refine or_congr_right ⟨?_, ?_⟩
  · rintro ⟨d, lengths, n, hd, hnumbers, hdescribed⟩
    obtain ⟨lengths', n', hnumbers', hconstructed⟩ := ofTree_eq_ok hd
    obtain ⟨hlengths, hn⟩ := hnumbers.unique hnumbers'
    rw [← hlengths, ← hn] at hconstructed
    exact ⟨d, lengths, n, ofTree_eq_ok_iff.mp hd, hnumbers, hconstructed.sane hdescribed⟩
  · rintro ⟨d, lengths, n, hdescribes, hnumbers, hsane⟩
    have hd := ofTree_eq_ok_iff.mpr hdescribes
    obtain ⟨lengths', n', hnumbers', hconstructed⟩ := ofTree_eq_ok hd
    obtain ⟨hlengths, hn⟩ := hnumbers.unique hnumbers'
    rw [← hlengths, ← hn] at hconstructed
    exact ⟨d, lengths, n, hd, hnumbers, hconstructed.described hsane⟩

/-! ### Trees that are not sane -/

/-- A tree for one file of length `length`, without hashes. -/
def oneFileTree (length pieceLength : Int64) : BencodeValue :=
  .dict [(announceKey, .string []), (infoKey, .dict [(lengthKey, .int length),
    (nameKey, .string [97]), (pieceLengthKey, .int pieceLength), (piecesKey, .string [])])]

theorem not_conforms_of_trap (h : TorrentFile.ofTree sha1 tree = .error .trap) :
    ¬ Conforms sha1 tree := by
  intro hconforms
  rcases hconforms with ⟨x, hx⟩ | ⟨d, _, _, hd, _⟩
  · rw [h] at hx
    injection hx with hx
    injection hx
  · rw [h] at hd
    injection hd

theorem not_conforms_of_ok (h : TorrentFile.ofTree sha1 tree = .ok d)
    (hnumbers : TreeNumbers tree lengths n) (hd : ¬ Described n d) : ¬ Conforms sha1 tree := by
  intro hconforms
  rcases hconforms with ⟨x, hx⟩ | ⟨d', lengths', n', hd', hnumbers', hdescribed⟩
  · rw [h] at hx
    injection hx
  · rw [h] at hd'
    injection hd' with hd'
    rw [← hd', ← (hnumbers.unique hnumbers').2] at hdescribed
    exact hd hdescribed

theorem oneFileTree_numbers (length pieceLength : Int64) :
    TreeNumbers (oneFileTree length pieceLength) [length] pieceLength :=
  .intro rfl (.one rfl rfl) rfl

/-- With pieces of length zero the constructor divides by zero. A file of
    length -1 is accepted, with no piece of length 2 in it. A length of
    `2 ^ 32 + 1` is accepted and becomes 1. -/
theorem ofTree_insane :
    TorrentFile.ofTree (fun _ => []) (oneFileTree 0 0) = .error .trap ∧
    ¬ Conforms (fun _ => []) (oneFileTree 0 0) ∧
    TorrentFile.ofTree (fun _ => []) (oneFileTree (-1) 2) = .ok
      { infoHash := [], pieceLength := 2, length := -1, name := [97], files := [⟨[[97]], -1⟩] } ∧
    ¬ Conforms (fun _ => []) (oneFileTree (-1) 2) ∧
    TorrentFile.ofTree (fun _ => []) (oneFileTree 0 4294967297) = .ok
      { infoHash := [], pieceLength := 1, name := [97], files := [⟨[[97]], 0⟩] } ∧
    ¬ Conforms (fun _ => []) (oneFileTree 0 4294967297) := by
  have hzero : TorrentFile.ofTree (fun _ => []) (oneFileTree 0 0) = .error .trap := by
    decide +kernel
  have hnegative : TorrentFile.ofTree (fun _ => []) (oneFileTree (-1) 2) = .ok
      { infoHash := [], pieceLength := 2, length := -1, name := [97],
        files := [⟨[[97]], -1⟩] } := by
    decide +kernel
  have hcast : TorrentFile.ofTree (fun _ => []) (oneFileTree 0 4294967297) = .ok
      { infoHash := [], pieceLength := 1, name := [97], files := [⟨[[97]], 0⟩] } := by
    decide +kernel
  refine ⟨hzero, not_conforms_of_trap hzero, hnegative, ?_, hcast, ?_⟩
  · apply not_conforms_of_ok hnegative (oneFileTree_numbers _ _)
    intro hdescribed
    exact absurd (hdescribed.length_nonneg _ List.mem_cons_self) (by decide)
  · apply not_conforms_of_ok hcast (oneFileTree_numbers _ _)
    intro hdescribed
    exact absurd hdescribed.pieceLength_eq (by decide)

end Furrent.Torrent
