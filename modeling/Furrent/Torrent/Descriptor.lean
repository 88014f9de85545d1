import Furrent.Framework.Numeral
import Mathlib.Algebra.Order.BigOperators.Group.List
import Mathlib.Algebra.Order.Ring.Int
import Mathlib.Tactic.Ring

/-! # Torrent descriptors

    The data types of `src/torrent.hpp`. Sizes, offsets and counts are
    `int64_t` in the source. They are integers here: in a valid descriptor
    every value the code computes from them lies between zero and the total
    length, or is one of the fields. -/

namespace Furrent

/-- `TorrentID`. -/
abbrev TorrentID := Int

/-- `File`. -/
structure File where
  filepath : List Bytes
  length : Int
  deriving DecidableEq, Repr

/-- `File::filename()`: the sections joined by `/`. The check on the number
    of sections cannot fail, no vector has more than `INT64_MAX` members. -/
def File.filename (f : File) : Bytes := List.intercalate [47] f.filepath

/-- `TorrentFile`, with the default member initialisers. -/
structure TorrentFile where
  announceUrl : Bytes := []
  infoHash : Bytes := List.replicate 20 0
  pieceHashes : List Bytes := []
  pieceLength : Int := 0
  length : Int := 0
  piecesCount : Int := 0
  name : Bytes := []
  folderName : Bytes := []
  files : List File := []
  deriving DecidableEq, Repr

/-- `Subpiece`: a section of a piece that lies in one file. -/
structure Subpiece where
  filepath : Bytes
  fileOffset : Int
  len : Int
  deriving DecidableEq, Repr

/-- `Piece`. -/
structure Piece where
  index : Int
  subpieces : List Subpiece
  deriving DecidableEq, Repr

/-! ### Valid descriptors -/

/-- The total length of the files. -/
def totalLength (files : List File) : Int := (files.map File.length).sum

/-- The fields of a descriptor fit together. -/
structure TorrentFile.Valid (d : TorrentFile) : Prop where
  files_ne_nil : d.files ≠ []
  length_nonneg : ∀ f ∈ d.files, 0 ≤ f.length
  length_eq : d.length = totalLength d.files
  pieceLength_pos : 1 ≤ d.pieceLength
  /-- Integer ceil division. -/
  piecesCount_eq : d.piecesCount = (d.length + d.pieceLength - 1) / d.pieceLength

namespace TorrentFile.Valid

variable {d : TorrentFile}

theorem total_nonneg (hd : d.Valid) : 0 ≤ d.length := by
  rw [hd.length_eq, totalLength]
  apply List.sum_nonneg
  intro n hn
  obtain ⟨f, hf, rfl⟩ := List.mem_map.mp hn
  exact hd.length_nonneg f hf

/-- The last piece starts before the end, and no further piece does. -/
theorem piecesCount_bounds (hd : d.Valid) :
    (d.piecesCount - 1) * d.pieceLength < d.length ∧
      d.length ≤ d.piecesCount * d.pieceLength := by
  have hpos := hd.pieceLength_pos
  have hdiv := Int.mul_ediv_add_emod (d.length + d.pieceLength - 1) d.pieceLength
  have hnonneg := Int.emod_nonneg (d.length + d.pieceLength - 1) (b := d.pieceLength) (by omega)
  have hlt := Int.emod_lt_of_pos (d.length + d.pieceLength - 1) (b := d.pieceLength) (by omega)
  rw [← hd.piecesCount_eq, Int.mul_comm] at hdiv
  rw [sub_mul, one_mul]
  omega

theorem piecesCount_nonneg (hd : d.Valid) : 0 ≤ d.piecesCount := by
  have h0 := hd.total_nonneg
  have hpos := hd.pieceLength_pos
  rw [hd.piecesCount_eq]
  exact Int.ediv_nonneg (by omega) (by omega)

end TorrentFile.Valid

end Furrent
