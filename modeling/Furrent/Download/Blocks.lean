import Furrent.Torrent.Descriptor
import Furrent.Framework.Tiling

/-! # The blocks of a piece

    The sizes `Downloader::try_download` computes before and inside its
    loop (`src/download/downloader.cpp`): the length of the piece, the
    number of blocks it is asked for in, and the place of each block. -/

namespace Furrent.Download

/-- `Downloaded`: a piece with its bytes. -/
structure Downloaded where
  index : Int
  content : Bytes
  deriving DecidableEq, Repr

/-- The piece length `try_download` computes: the last piece may be
    shorter. -/
def pieceLength (torrent : TorrentFile) (index : Int) : Int :=
  if index = torrent.piecesCount - 1 then
    torrent.length - (torrent.piecesCount - 1) * torrent.pieceLength
  else torrent.pieceLength

/-- How many bytes to demand in a `RequestMessage`. -/
def blockSize : Int := 16384

/-- How many requested but unreceived blocks are awaited at once. -/
def pipelineSizeMax : Int := 5

/-- How many blocks there are to download in total. Integer ceil division. -/
def blocksTotal (pieceLength : Int) : Int := (pieceLength + blockSize - 1) / blockSize

/-- Where block `k` starts. -/
def blockOffset (k : Int) : Int := k * blockSize

/-- The length of block `k`, shorter if it is the last. -/
def blockLength (pieceLength k : Int) : Int :=
  if k = blocksTotal pieceLength - 1 then pieceLength - k * blockSize else blockSize

/-- Every byte of the piece lies in a block. -/
theorem exists_block {pieceLength x : Int} (h0 : 0 ≤ x) (hlt : x < pieceLength) :
    ∃ k, 0 ≤ k ∧ k < blocksTotal pieceLength ∧ blockOffset k ≤ x ∧
      x < blockOffset k + blockLength pieceLength k := by
  refine ⟨x / 16384, ?_⟩
  unfold blockLength blocksTotal blockOffset blockSize
  split <;> omega

/-- The blocks of a piece lie inside of it. -/
theorem block_inside {pieceLength k : Int} (hk0 : 0 ≤ k) (hk : k < blocksTotal pieceLength) :
    0 ≤ blockOffset k ∧ 0 < blockLength pieceLength k ∧
      blockOffset k + blockLength pieceLength k ≤ pieceLength := by
  unfold blocksTotal blockSize at hk
  unfold blockOffset blockLength blocksTotal blockSize
  split <;> omega

end Furrent.Download
