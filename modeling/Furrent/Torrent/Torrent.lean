import Furrent.Torrent.Descriptor

/-! # Torrents

    Model of the class `Torrent` in `src/torrent.hpp`: a descriptor with
    what changes while it is downloaded. `state` and `pieces_processed` are
    atomic and public, the scores of the peers are atomic. The interval
    between two announcements is left out. -/

namespace Furrent

/-- `Peer`. -/
structure Peer where
  ip : UInt32
  port : UInt16
  deriving DecidableEq, Repr

/-- `TorrentState`. -/
inductive TorrentState where
  | loading
  | downloading
  | paused
  | completed
  | stopped
  | error
  deriving DecidableEq, Repr

/-- What `remove_torrent` does not overwrite: `Completed` and `Error`. -/
def TorrentState.Final (state : TorrentState) : Prop := state = .completed ∨ state = .error

instance : DecidablePred TorrentState.Final := fun _ => inferInstanceAs (Decidable (_ ∨ _))

/-- `Torrent`, with the values of the default constructor. -/
structure Torrent where
  tid : TorrentID := 0
  descriptor : TorrentFile := {}
  peers : List Peer := []
  peersScore : List Int := []
  state : TorrentState := .error
  piecesProcessed : Int := 0
  deriving DecidableEq, Repr

namespace Torrent

/-- `Torrent(tid, descriptor)`. The tracker answers the announcement with
    `peers`, an error is the same as no peers. Every score is one. -/
def create (tid : TorrentID) (descriptor : TorrentFile) (peers : List Peer) : Torrent where
  tid := tid
  descriptor := descriptor
  peers := peers
  peersScore := peers.map fun _ => 1
  state := .loading

/-- `atomic_add_peer_score`. -/
def atomicAddPeerScore (t : Torrent) (peerIndex : Nat) : Torrent :=
  { t with peersScore := t.peersScore.modify peerIndex (· + 1) }

end Torrent

end Furrent
