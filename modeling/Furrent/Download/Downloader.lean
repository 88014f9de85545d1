import Furrent.Framework.Program
import Furrent.Download.Message
import Furrent.Download.Blocks
import Furrent.Torrent.Hash

/-! # The downloader

    Model of `src/download/downloader.cpp` and of `verify_piece` in
    `src/hash.cpp`. The object is a `State`, a member function a program on
    it. Everything outside of the object is an `Env`: the sockets with the
    peer behind them, the memory behind a bitfield, the hash function.
    Nothing is assumed about it but that `Socket::read(n)` returns `n`
    bytes or an error. Timeouts decide when the environment answers with an
    error; the values passed to the socket and the log are left out.

    The `trace` is not part of the object. It records, newest first, what
    happened on the wire. -/

namespace Furrent.Download

open Cpp

/-! ### The environment -/

/-- `SocketError`. -/
inductive SocketError where
  | timeout
  | other
  deriving DecidableEq, Repr

/-- `DownloaderError`. -/
inductive DownloaderError where
  | differentInfoHash
  | invalidMessage
  | noBitfield
  | missingPiece
  | corruptPiece
  | socketTimeout
  | socketOther
  deriving DecidableEq, Repr

/-- `from_socket_error`. -/
def fromSocketError : SocketError → DownloaderError
  | .timeout => .socketTimeout
  | .other => .socketOther

/-- What surrounds a downloader, with states `W`. -/
structure Env (W : Type) where
  connect : W → Except SocketError Unit × W
  isOpen : W → Bool × W
  write : Bytes → W → Except SocketError Unit × W
  read : (n : Nat) → W → Except SocketError { bytes : Bytes // bytes.length = n } × W
  close : W → W
  /-- What lies behind the storage of the bitfield. -/
  beyond : W → Nat → Option UInt8
  sha1 : Bytes → Bytes

/-- What is seen of a connection. -/
inductive Event where
  | connected
  /-- The answer to the handshake was read. -/
  | handshake (response : Bytes)
  | received (m : Message)
  /-- The message is handed to the socket. -/
  | sent (m : Message)
  deriving DecidableEq, Repr

/-- `Downloader`. -/
structure State (W : Type) where
  world : W
  /-- `socket.has_value()`. -/
  socket : Bool := false
  choked : Bool := true
  bitfield : Option Bitfield := none
  trace : List Event := []

abbrev Run (W α : Type) := Prog (State W) DownloaderError α

section

variable {W : Type} (env : Env W) (torrent : TorrentFile)

/-! ### Sockets -/

/-- Something the environment does. -/
def call {α : Type} (op : W → α × W) : Run W α := fun s =>
  (.ok (op s.world).1, { s with world := (op s.world).2 })

/-- Something happened on the wire. -/
def record (e : Event) : Run W Unit := Prog.modify fun s => { s with trace := e :: s.trace }

/-- Report an error. -/
def fail {α : Type} (e : DownloaderError) : Run W α := Prog.stop (.error e)

/-- `destroy_socket`. What `close` throws is caught. -/
def destroySocket : Run W Unit :=
  Prog.modify fun s => { s with world := env.close s.world, socket := false }

/-- Use the socket; after an error it is destroyed. -/
def useSocket {α : Type} (op : W → Except SocketError α × W) : Run W α := do
  match ← call op with
  | .ok a => pure a
  | .error e => do
    destroySocket env
    fail (fromSocketError e)

/-- `send_message`. -/
def sendMessage (m : Message) : Run W Unit :=
  match m.encode with
  | .error x => Prog.stop (.throw x)
  | .ok bytes => do
    record (.sent m)
    useSocket env (env.write bytes)

/-- `recv_message`. -/
def recvMessage : Run W Message := do
  let messageLenBytes ← useSocket env (env.read 4)
  let messageLen := decodeInteger messageLenBytes.val
  let rest ← useSocket env (env.read messageLen.toNat)
  match Message.decode torrent (messageLenBytes.val ++ rest.val) with
  | .error _ => do
    destroySocket env
    fail .invalidMessage
  | .ok m => do
    record (.received m)
    pure m

/-! ### Connecting -/

/-- The message `handshake` builds: the length of the protocol identifier
    and the identifier, eight zeroes, the info hash and the peer id. -/
def handshakeMessage : Bytes :=
  19 :: [66, 105, 116, 84, 111, 114, 114, 101, 110, 116, 32, 112, 114, 111, 116, 111, 99, 111, 108]
    ++ List.replicate 8 0 ++ torrent.infoHash ++ (70 :: 85 :: 82 :: List.replicate 17 45)

/-- The info hash in a handshake, at `INFO_HASH_OFFSET`. -/
def responseInfoHash (response : Bytes) : Bytes := (response.drop 28).take 20

/-- `Downloader::handshake`. -/
def handshake : Run W Unit := do
  useSocket env (env.write (handshakeMessage torrent))
  let response ← useSocket env (env.read 68)
  record (.handshake response.val)
  if torrent.infoHash ≠ responseInfoHash response.val then do
    destroySocket env
    fail .differentInfoHash
  else pure ()

/-- The body of the loop `while (choked)` behind `recv_message`. Nothing is
    done for all other messages. -/
def noteUnchoke (message : Message) : Run W Unit :=
  if message = .unchoke then Prog.modify fun s => { s with choked := false } else pure ()

/-- The loop `while (choked)` of `ensure_connected`, at most `n` times. -/
def waitUnchoke : Nat → Run W Unit
  | 0 => Prog.stop .outOfFuel
  | n + 1 => do
    let s ← Prog.get
    if s.choked then do
      let message ← recvMessage env torrent
      noteUnchoke message
      waitUnchoke n
    else pure ()

/-- `ensure_connected` without a healthy socket. -/
def establish (fuel : Nat) : Run W Unit := do
  -- a zombie socket is destroyed, the new one not connected yet
  Prog.modify fun s => { s with socket := true, choked := true }
  useSocket env env.connect
  record .connected
  handshake env torrent
  let message ← recvMessage env torrent
  match message with
  | .bitfield bf => do
    Prog.modify fun s => { s with bitfield := some ⟨bf.storage, bf.len⟩ }
    sendMessage env .unchoke
    sendMessage env .interested
    -- every connection starts choked
    Prog.modify fun s => { s with choked := true }
    waitUnchoke env torrent fuel
  | _ => do
    destroySocket env
    fail .noBitfield

/-- `ensure_connected`. -/
def ensureConnected (fuel : Nat) : Run W Unit := do
  let s ← Prog.get
  if s.socket then do
    let isOpen ← call env.isOpen
    if isOpen then pure () else establish env torrent fuel
  else establish env torrent fuel

/-! ### Downloading -/

/-- The variables of the loop of `try_download`. -/
structure Progress where
  piece : Bytes
  blocksRequested : Int
  blocksReceived : Int
  deriving DecidableEq, Repr

/-- The inner loop, which keeps the pipeline full, at most `n` times. -/
def requestBlocks (index pieceLength : Int) : Nat → Progress → Run W Progress
  | 0, _ => Prog.stop .outOfFuel
  | n + 1, d =>
    if d.blocksRequested - d.blocksReceived < pipelineSizeMax ∧
        d.blocksRequested < blocksTotal pieceLength then do
      sendMessage env (.request index (blockOffset d.blocksRequested)
        (blockLength pieceLength d.blocksRequested))
      requestBlocks index pieceLength n { d with blocksRequested := d.blocksRequested + 1 }
    else pure d

/-- Send requests unless choked. The pipeline is full after at most as many
    rounds as there are blocks left to request. -/
def fillPipeline (index pieceLength : Int) (d : Progress) : Run W Progress := do
  let s ← Prog.get
  if s.choked then pure d
  else
    let rounds := (blocksTotal pieceLength - d.blocksRequested).toNat + 1
    requestBlocks env index pieceLength rounds d

/-- The `switch` on the kind of the message. `std::copy` into the piece is
    not bounds checked. -/
def handleMessage (d : Progress) : Message → Run W Progress
  | .choke => do
    Prog.modify fun s => { s with choked := true }
    pure d
  | .unchoke => do
    Prog.modify fun s => { s with choked := false }
    pure d
  | .haveMsg index => do
    let s ← Prog.get
    match s.bitfield with
    | none => Prog.stop .trap
    | some bf => do
      let bf ← Prog.ofOutcome (bf.set index true)
      Prog.modify fun s => { s with bitfield := some bf }
      pure d
  | .piece _ begin block =>
    if 0 ≤ begin ∧ begin + block.length ≤ d.piece.length then
      pure { d with
        piece := overwrite 0 d.piece begin.toNat block
        blocksReceived := d.blocksReceived + 1 }
    else Prog.stop .trap
  -- we can safely ignore other messages (hopefully)
  | _ => pure d

/-- The loop `while (blocks_received < blocks_total)`, at most `n` times. -/
def downloadLoop (index pieceLength : Int) : Nat → Progress → Run W Progress
  | 0, _ => Prog.stop .outOfFuel
  | n + 1, d =>
    if d.blocksReceived < blocksTotal pieceLength then do
      let d ← fillPipeline env index pieceLength d
      let message ← recvMessage env torrent
      let d ← handleMessage d message
      downloadLoop index pieceLength n d
    else pure d

/-- `verify_piece`. -/
def verifyPiece (piece hash : Bytes) : Outcome Empty Bool :=
  if Torrent.INT_MAX < piece.length then .error (.throw (.invalidArgument "piece is too big"))
  else do
    let buffer ← Torrent.calcSha1 env.sha1 piece
    return buffer = hash

/-- The end of `try_download`. -/
def finishPiece (index : Int) (piece : Bytes) : Run W Downloaded :=
  match torrent.pieceHashes[index.toNat]? with
  | none => Prog.stop .trap
  | some hash => do
    let verified ← Prog.ofOutcome (verifyPiece env piece hash)
    if verified then pure ⟨index, piece⟩ else fail .corruptPiece

/-- `bitfield->get(index)`. -/
def hasPiece (index : Int) : Run W Bool := do
  let s ← Prog.get
  match s.bitfield with
  | none => Prog.stop .trap
  | some bf => Prog.ofOutcome (bf.get (env.beyond s.world) index)

/-- `try_download`, with a bound on each of the two waiting loops. -/
def tryDownload (fuel : Nat) (task : Piece) : Run W Downloaded :=
  if torrent.piecesCount ≤ 0 then
    Prog.stop (.throw (.invalidArgument "expected torrent to have at least a piece"))
  else if task.index < 0 ∨ torrent.piecesCount ≤ task.index then
    Prog.stop (.throw (.invalidArgument "piece index outside valid range"))
  else do
    ensureConnected env torrent fuel
    let has ← hasPiece env task.index
    if has = false then fail .missingPiece
    else
      let length := pieceLength torrent task.index
      if length ≤ 0 then
        Prog.stop (.throw (.invalidArgument "expected piece to have at least a byte"))
      else do
        let d ← downloadLoop env torrent task.index length fuel
          ⟨List.replicate length.toNat 0, 0, 0⟩
        finishPiece env torrent task.index d.piece

end

end Furrent.Download
