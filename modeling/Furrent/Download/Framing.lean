import Furrent.Download.Codec
import Furrent.Download.Downloader
import Mathlib.Data.List.Forall2

/-! # Reading a stream of messages

    `recv_message` reads the four bytes of the length, then as many bytes
    as they say, and hands both to `decode`. On a socket that returns the
    next bytes of a stream, a run of messages is read back one by one and
    the stream is left right behind the last. -/

namespace Furrent.Download

open Cpp Message

variable {W : Type} {env : Env W} {torrent : TorrentFile} {stream : W → Bytes}

/-- `Socket::read(n)` returns the next `n` bytes of `stream`. -/
def Streams (env : Env W) (stream : W → Bytes) : Prop :=
  ∀ n w, n ≤ (stream w).length →
    ∃ bytes w', env.read n w = (.ok bytes, w') ∧ stream w = bytes.val ++ stream w'

/-- A number of successive calls of `recv_message`. -/
def recvMessages (env : Env W) (torrent : TorrentFile) : Nat → Run W (List Message)
  | 0 => pure []
  | n + 1 => do
    let m ← recvMessage env torrent
    let ms ← recvMessages env torrent n
    pure (m :: ms)

theorem useSocket_ok {α : Type} {op : W → Except SocketError α × W} {s : State W} {a : α} {w : W}
    (h : op s.world = (.ok a, w)) : useSocket env op s = (.ok a, { s with world := w }) := by
  have hcall : call op s = (.ok (.ok a), { s with world := w }) := by
    rw [call, h]
  exact Prog.bind_ok hcall

/-- The socket stands in front of `bytes`. -/
theorem useSocket_read (hstream : Streams env stream) {s : State W} {bytes rest : Bytes}
    {n : Nat} (hn : bytes.length = n) (h : stream s.world = bytes ++ rest) :
    ∃ w, useSocket env (env.read n) s = (.ok ⟨bytes, hn⟩, { s with world := w }) ∧
      stream w = rest := by
  have hle : n ≤ (stream s.world).length := by
    rw [h, List.length_append]
    omega
  obtain ⟨⟨bytes', hlen⟩, w, hread, hsplit⟩ := hstream n s.world hle
  rw [h] at hsplit
  obtain ⟨rfl, hrest⟩ := List.append_inj hsplit (by rw [hn, hlen])
  exact ⟨w, useSocket_ok hread, hrest.symm⟩

/-- The length in front of a frame is the length of the rest. -/
theorem messageLen_frame {body : Bytes} (hlen : body.length < 2 ^ 32) :
    body.length = (decodeInteger (Numeral.bigEndian 4 body.length)).toNat := by
  have hint := decodeInteger_bigEndian (n := body.length) (by omega) (by omega)
  rw [Int.toNat_natCast] at hint
  rw [hint, Int.toNat_natCast]

/-- One frame is read, and nothing beyond it. -/
theorem recvMessage_frame (hstream : Streams env stream) {s : State W} {body rest : Bytes}
    {m : Message} (hlen : body.length < 2 ^ 32) (hdecode : decode torrent (frame body) = .ok m)
    (h : stream s.world = frame body ++ rest) :
    ∃ w, recvMessage env torrent s
        = (.ok m, { s with world := w, trace := .received m :: s.trace }) ∧ stream w = rest := by
  rw [frame, List.append_assoc] at h
  obtain ⟨w₁, hread₁, h₁⟩ := useSocket_read hstream (Numeral.length_bigEndian 4 _) h
  obtain ⟨w₂, hread₂, h₂⟩ :=
    useSocket_read (s := { s with world := w₁ }) hstream (messageLen_frame hlen) h₁
  refine ⟨w₂, ?_, h₂⟩
  have hwhole : decode torrent (Numeral.bigEndian 4 body.length ++ body) = .ok m := hdecode
  rw [recvMessage, Prog.bind_ok hread₁, Prog.bind_ok hread₂]
  simp only [hwhole]
  rfl

/-- Messages written one after the other are read back one after the other,
    and the stream is left behind the last. -/
theorem recvMessages_encode (hstream : Streams env stream) {ms : List Message}
    (hms : ∀ m ∈ ms, m.Encodable torrent) :
    ∃ encoded : List Bytes, ms.map Message.encode = encoded.map Except.ok ∧
      List.Forall₂ (fun m bytes => decode torrent bytes = .ok m) ms encoded ∧
      ∀ (s : State W) (rest : Bytes), stream s.world = encoded.flatten ++ rest →
        ∃ s', recvMessages env torrent ms.length s = (.ok ms, s') ∧ stream s'.world = rest := by
  induction ms with
  | nil => exact ⟨[], rfl, .nil, fun s rest h => ⟨s, rfl, h⟩⟩
  | cons m ms ih =>
    obtain ⟨body, hencode, hlen, hdecode⟩ := decode_encode (hms m (by simp))
    obtain ⟨encoded, hencoded, hdecoded, hread⟩ := ih (fun m' hm' => hms m' (by simp [hm']))
    refine ⟨frame body :: encoded, ?_, .cons hdecode hdecoded, ?_⟩
    · rw [List.map_cons, hencode, hencoded, List.map_cons]
    · intro s rest h
      rw [List.flatten_cons, List.append_assoc] at h
      obtain ⟨w, hrecv, hw⟩ := recvMessage_frame hstream hlen hdecode h
      obtain ⟨s', hrecv', hs'⟩ :=
        hread { s with world := w, trace := .received m :: s.trace } rest hw
      refine ⟨s', ?_, hs'⟩
      rw [List.length_cons, recvMessages, Prog.bind_ok hrecv, Prog.bind_ok hrecv']
      rfl

/-! ### A socket that is a list of bytes -/

/-- Reading takes bytes off the list, everything else succeeds. -/
def listEnv : Env Bytes where
  connect := fun w => (.ok (), w)
  isOpen := fun w => (true, w)
  write := fun _ w => (.ok (), w)
  read := fun n w =>
    if h : n ≤ w.length then (.ok ⟨w.take n, List.length_take_of_le h⟩, w.drop n)
    else (.error .timeout, w)
  close := id
  beyond := fun _ _ => none
  sha1 := id

/-- What a peer sends first: the answer to the handshake, a bitfield of one byte
    and an unchoke. -/
def announces (byte : UInt8) : Bytes :=
  List.replicate 68 0 ++ [0, 0, 0, 2, 5, byte] ++ [0, 0, 0, 1, 1]

theorem listEnv_streams : Streams listEnv id := by
  intro n w hle
  refine ⟨⟨w.take n, List.length_take_of_le hle⟩, w.drop n, ?_, (List.take_append_drop n w).symm⟩
  exact dif_pos hle

/-- A keep-alive, a block and a choke message. -/
theorem recvMessages_encode_three :
    ∃ encoded : List Bytes,
      [keepAlive, piece 1 2 [3], choke].map Message.encode = encoded.map Except.ok ∧
      List.Forall₂ (fun m bytes => decode ({} : TorrentFile) bytes = .ok m)
        [keepAlive, piece 1 2 [3], choke] encoded ∧
      ∀ (s : State Bytes) (rest : Bytes), s.world = encoded.flatten ++ rest →
        ∃ s', recvMessages listEnv ({} : TorrentFile) 3 s
            = (.ok [keepAlive, piece 1 2 [3], choke], s') ∧ s'.world = rest := by
  refine recvMessages_encode listEnv_streams ?_
  intro m hm
  simp only [List.mem_cons, List.not_mem_nil, or_false] at hm
  rcases hm with rfl | rfl | rfl
  · trivial
  · exact ⟨by decide, by decide, by decide⟩
  · trivial

end Furrent.Download
