import Furrent.Download.Containment
import Furrent.Download.Sockets
import Furrent.Download.Reassembly
import Furrent.Torrent.Construction

/-! # When a call comes back

    `try_download` promises to report what goes wrong as a result. A peer
    that sends finitely many bytes cannot keep it from returning; but it
    can make it throw, with a `Have` message for a piece that does not
    exist, and it can make it read behind the bitfield and write behind the
    buffer. A torrent has its own ways: a piece without bytes, an index that
    does not fit into a message, a piece that is too long to be hashed. These
    are all: what it takes for a call to give a result is said for every
    torrent that the constructor of `TorrentFile` accepts and for every
    peer. -/

namespace Furrent.Download

open Cpp

variable {W : Type} {env : Env W} {torrent : TorrentFile} {fuel : Nat} {s s' : State W}

/-! ### Peers that send finitely many bytes -/

/-- There are `rank w` bytes left to read in world `w`. -/
structure FinitePeer (env : Env W) (rank : W → Nat) : Prop where
  connect : ∀ w, rank (env.connect w).2 ≤ rank w
  isOpen : ∀ w, rank (env.isOpen w).2 ≤ rank w
  write : ∀ bytes w, rank (env.write bytes w).2 ≤ rank w
  close : ∀ w, rank (env.close w) ≤ rank w
  read : ∀ n w, rank (env.read n w).2 ≤ rank w
  read_ok : ∀ n w bytes w', env.read n w = (.ok bytes, w') → rank w' + n ≤ rank w

section

variable {rank : W → Nat} (hpeer : FinitePeer env rank)

include hpeer

/-- Whatever is done with the socket, there are no more bytes left than
    before. -/
theorem FinitePeer.socketRule (n : Nat) :
    SocketRule env (fun w => rank w ≤ n) (fun w => rank w ≤ n) where
  connect w h := le_trans (hpeer.connect w) (or_self_iff.mp h)
  isOpen w h := le_trans (hpeer.isOpen w) h
  write bytes w h := le_trans (hpeer.write bytes w) h
  read k w h := le_trans (hpeer.read k w) h
  close w h := le_trans (hpeer.close w) h

/-- A message takes at least the four bytes of its length. -/
theorem FinitePeer.recvMessage {m : Message} (h : recvMessage env torrent s = (.ok m, s')) :
    rank s'.world + 4 ≤ rank s.world := by
  obtain ⟨w₁, w₂, messageLenBytes, rest, hread₁, hread₂, _, rfl⟩ := recvMessage_eq_ok h
  have h₁ := hpeer.read_ok _ _ _ _ hread₁
  have h₂ := hpeer.read_ok _ _ _ _ hread₂
  show rank w₂ + 4 ≤ rank s.world
  omega

/-- A round of the loop takes four bytes. -/
theorem FinitePeer.downloadRound {index length : Int} {d d' : Progress}
    (h : downloadRound env torrent index length d s = (.ok d', s')) :
    rank s'.world + 4 ≤ rank s.world := by
  obtain ⟨d₁, s₁, hfill, h₁⟩ := Prog.bind_eq_ok h
  obtain ⟨m, s₂, hrecv, hhandle⟩ := Prog.bind_eq_ok h₁
  have hle := (Prog.wp_ok ((hpeer.socketRule (rank s.world)).keeps_fillPipeline index length d s
    ⟨le_rfl, Or.inr fun _ h => h⟩) hfill).world
  have hlt := hpeer.recvMessage hrecv
  have hworld : s'.world = s₂.world := by
    have hquiet := (handleMessage_quiet d₁ m s₂).world
    rw [hhandle] at hquiet
    exact hquiet
  rw [hworld]
  omega

/-- So does a round of waiting for an unchoke. -/
theorem FinitePeer.waitRound (h : waitRound env torrent () s = (.ok (), s')) :
    rank s'.world + 4 ≤ rank s.world := by
  obtain ⟨m, s₁, hrecv, hnote⟩ := Prog.bind_eq_ok h
  have hlt := hpeer.recvMessage hrecv
  rw [noteUnchoke_eq_ok hnote]
  exact hlt

end

/-! ### Connecting -/

/-- With more rounds than bytes, `ensure_connected` returns or reports an
    error. -/
theorem FinitePeer.wp_ensureConnected {rank : W → Nat} (hpeer : FinitePeer env rank)
    (hfuel : rank s.world < fuel) :
    (ensureConnected env torrent fuel).wp (fun _ s' => rank s'.world ≤ rank s.world)
      (fun e _ => Reported e) s := by
  have hestablish : ∀ s₁ : State W, rank s₁.world ≤ rank s.world →
      (establish env torrent fuel).wp (fun _ s' => rank s'.world ≤ rank s.world)
        (fun e _ => Reported e) s₁ := by
    intro s₁ hle
    rw [establish_eq, Prog.wp_bind]
    refine Prog.wp_intro ?_ fun e s' hrun => (Prog.wp_error wp_greet_closed hrun).reported
    intro _ s₂ hgreet
    have hle₂ := (Prog.wp_ok ((hpeer.socketRule (rank s₁.world)).wp_greet (Or.inl le_rfl))
      hgreet).world
    rw [waitUnchoke_eq_loop]
    apply Prog.wp_loop_rank (I := fun _ s' => rank s'.world ≤ rank s.world)
      (r := fun _ s' => rank s'.world)
    · intro _ s₃ hle₃ _
      refine Prog.wp_intro ?_ fun e s' hrun => (Prog.wp_error wp_waitRound_closed hrun).reported
      intro _ s₄ hrun
      have hlt := hpeer.waitRound hrun
      exact ⟨by omega, by omega⟩
    · intro _ s₃ hle₃ _
      exact hle₃
    · show rank s₂.world < fuel
      omega
    · exact le_trans hle₂ hle
  rw [ensureConnected, Prog.wp_bind, Prog.wp_get]
  apply Prog.wp_ite
  · intro _
    rw [Prog.wp_bind, wp_call]
    apply Prog.wp_ite
    · intro _
      exact hpeer.isOpen s.world
    · intro _
      exact hestablish _ (hpeer.isOpen s.world)
  · intro _
    exact hestablish s le_rfl

/-! ### Harmless messages -/

/-- A piece of the torrent whose blocks can be asked for. -/
structure Downloadable (torrent : TorrentFile) (index : Int) : Prop where
  nonneg : 0 ≤ index
  lt_count : index < torrent.piecesCount
  /-- `encode_integer` writes four bytes. -/
  encodable : index < 2 ^ 32
  length_pos : 0 < pieceLength torrent index
  length_le : pieceLength torrent index ≤ 2147483647

/-- The messages `try_download` can deal with, if the bitfield has `bytes`
    bytes: a `Have` for a piece that exists and has a bit, a block that lies
    inside of the piece. -/
def Harmless (torrent : TorrentFile) (index : Int) (bytes : Nat) : Message → Prop
  | .haveMsg i => i < torrent.piecesCount ∧ i / 8 < bytes
  | .piece _ begin block => begin + block.length ≤ pieceLength torrent index
  | _ => True

/-- The same for piece `index`: after an `Unchoke` it is asked for. -/
def Bearable (torrent : TorrentFile) (index : Int) (bytes : Nat) (m : Message) : Prop :=
  Harmless torrent index bytes m ∧ (m = .unchoke → index < 2 ^ 32)

variable {index : Int} {d : Progress}

/-- Requests for blocks of the piece can be encoded. -/
theorem Downloadable.encode (h : Downloadable torrent index) {k : Int} (h0 : 0 ≤ k)
    (hlt : k < blocksTotal (pieceLength torrent index)) {x : StdException} :
    (Message.request index (blockOffset k) (blockLength (pieceLength torrent index) k)).encode
      ≠ .error x := by
  obtain ⟨hnonneg, _, hencodable, hpos, hle⟩ := h
  have hm : (Message.request index (blockOffset k)
      (blockLength (pieceLength torrent index) k)).Encodable torrent := by
    unfold blocksTotal blockSize at hlt
    refine ⟨⟨hnonneg, hencodable⟩, ?_, ?_⟩
    · unfold blockOffset blockSize
      omega
    · unfold blockLength blocksTotal blockSize
      split <;> omega
  obtain ⟨body, hencode, _⟩ := Message.decode_encode hm
  rw [hencode]
  simp

/-- No request for a piece with a larger index can be. -/
theorem encode_request_of_large (hindex : 2 ^ 32 ≤ index) (begin length : Int) :
    ∃ x, (Message.request index begin length).encode = .error x := by
  refine ⟨.invalidArgument "integer is too big", ?_⟩
  have hthrow : encodeInteger index = .error (.invalidArgument "integer is too big") := by
    rw [encodeInteger, if_neg (by omega), if_pos (by omega)]
  simp [Message.encode, Message.encodePayload, hthrow]
  rfl

theorem fillPipeline_of_choked {length : Int} (hchoked : s.choked = true) :
    fillPipeline env index length d s = (.ok d, s) := by
  have hget : (Prog.get : Run W (State W)) s = (.ok s, s) := rfl
  rw [fillPipeline, Prog.bind_ok hget, if_pos hchoked]
  rfl

theorem fillPipeline_of_large {length : Int} (hindex : 2 ^ 32 ≤ index) (hchoked : s.choked = false)
    (hroom : room length d = true) :
    ∃ x, fillPipeline env index length d s = (.error (.throw x), s) := by
  have hget : (Prog.get : Run W (State W)) s = (.ok s, s) := rfl
  obtain ⟨x, hx⟩ := encode_request_of_large hindex (blockOffset d.blocksRequested)
    (blockLength length d.blocksRequested)
  have hsend : sendMessage env (.request index (blockOffset d.blocksRequested)
      (blockLength length d.blocksRequested)) s = (.error (.throw x), s) := by
    unfold sendMessage
    rw [hx]
    rfl
  refine ⟨x, ?_⟩
  rw [fillPipeline, Prog.bind_ok hget, if_neg (by simp [hchoked])]
  simp only [requestBlocks]
  rw [if_pos (by simpa [room] using hroom), Prog.bind_error hsend]

/-! ### Counting blocks -/

/-- A block was received. -/
def Event.isBlock : Event → Bool
  | .received (.piece _ _ _) => true
  | _ => false

/-- Since the trace was `t₀`, `n` blocks were received. -/
def BlocksSince (n : Int) (t₀ : List Event) (s : State W) : Prop :=
  ∃ t, s.trace = t ++ t₀ ∧ n = (t.filter Event.isBlock).length

section

variable {n : Int} {t₀ : List Event} {e : Event}

theorem blocksSince_self (s : State W) : BlocksSince 0 s.trace s := ⟨[], rfl, rfl⟩

theorem BlocksSince.nonneg (h : BlocksSince n t₀ s) : 0 ≤ n := by
  obtain ⟨t, _, rfl⟩ := h
  exact Int.natCast_nonneg _

theorem BlocksSince.unique {n' : Int} (h : BlocksSince n t₀ s) (h' : BlocksSince n' t₀ s) :
    n = n' := by
  obtain ⟨t, ht, rfl⟩ := h
  obtain ⟨t', ht', rfl⟩ := h'
  rw [ht] at ht'
  rw [List.append_cancel_right ht']

theorem BlocksSince.block (h : BlocksSince n t₀ s) (he : e.isBlock = true)
    (htrace : s'.trace = e :: s.trace) : BlocksSince (n + 1) t₀ s' := by
  obtain ⟨t, ht, rfl⟩ := h
  refine ⟨e :: t, by rw [htrace, ht, List.cons_append], ?_⟩
  rw [List.filter_cons_of_pos he, List.length_cons]
  omega

theorem BlocksSince.other (h : BlocksSince n t₀ s) (he : e.isBlock = false)
    (htrace : s'.trace = e :: s.trace) : BlocksSince n t₀ s' := by
  obtain ⟨t, ht, rfl⟩ := h
  refine ⟨e :: t, by rw [htrace, ht, List.cons_append], ?_⟩
  rw [List.filter_cons_of_neg (by simp [he])]

end

/-! ### The loop

    The state `s₁` is the one in which the loop starts. -/

/-- The bytes of the bitfield. -/
def storageSize (s : State W) : Nat :=
  match s.bitfield with
  | none => 0
  | some bf => bf.storage.length

/-- The bitfield has the length of the torrent, and `bytes` bytes. -/
def HasBitfield (torrent : TorrentFile) (bytes : Nat) (s : State W) : Prop :=
  ∃ bf, s.bitfield = some bf ∧ bf.len = torrent.piecesCount ∧ bf.storage.length = bytes

/-- Nothing has made the loop fail: the piece could be asked for from the
    start, and what was received since is bearable. -/
structure Borne (torrent : TorrentFile) (index : Int) (s₁ s : State W) : Prop where
  asks : s₁.choked = false → index < 2 ^ 32
  bears : ReceivedSince (Bearable torrent index (storageSize s₁)) s₁.trace s

/-- Not all blocks were received. -/
def Short (torrent : TorrentFile) (index : Int) (s₁ s : State W) : Prop :=
  ∃ n, BlocksSince n s₁.trace s ∧ n < blocksTotal (pieceLength torrent index)

/-- The invariant at the head of the loop. An index that does not fit into a
    message is no harm until the peer lets go; the next request throws then. -/
structure Calm (torrent : TorrentFile) (index : Int) (s₁ : State W) (d : Progress) (s : State W) :
    Prop where
  requested : 0 ≤ d.blocksRequested
  unasked : 2 ^ 32 ≤ index → d.blocksRequested = 0
  counted : BlocksSince d.blocksReceived s₁.trace s
  buffer : d.piece.length = (pieceLength torrent index).toNat
  bitfield : HasBitfield torrent (storageSize s₁) s
  borne : Borne torrent index s₁ s ↔ (s.choked = false → index < 2 ^ 32)
  underway : s.choked = false → 2 ^ 32 ≤ index → incomplete (pieceLength torrent index) d = true

/-- The invariant when the pipeline is filled. -/
structure Listening (torrent : TorrentFile) (index : Int) (s₁ : State W) (d : Progress)
    (s : State W) : Prop extends Calm torrent index s₁ d s where
  more : incomplete (pieceLength torrent index) d = true
  asked : s.choked = false → index < 2 ^ 32

/-- How the loop is left early. -/
structure Leaves (torrent : TorrentFile) (index : Int) (s₁ : State W) (e : Stop DownloaderError)
    (s : State W) : Prop where
  reported : Reported e ↔ Borne torrent index s₁ s
  short : Reported e → Short torrent index s₁ s

section

variable {s₁ : State W}

theorem leaves_of_not_borne {e : Stop DownloaderError} (he : ¬ Reported e)
    (h : ¬ Borne torrent index s₁ s) : Leaves torrent index s₁ e s :=
  ⟨iff_of_false he h, fun hreported => absurd hreported he⟩

theorem Listening.borne_self (h : Listening torrent index s₁ d s) : Borne torrent index s₁ s :=
  h.borne.mpr h.asked

/-- Only the newest message has to be looked at. -/
theorem Listening.received_iff (h : Listening torrent index s₁ d s) {m : Message}
    (htrace : s'.trace = .received m :: s.trace) :
    Borne torrent index s₁ s' ↔ Bearable torrent index (storageSize s₁) m := by
  have hiff := h.borne_self.bears.received htrace
  exact ⟨fun hs' => hiff.mp hs'.bears, fun hm => ⟨h.borne_self.asks, hiff.mpr hm⟩⟩

theorem Calm.short (h : Calm torrent index s₁ d s)
    (hmore : incomplete (pieceLength torrent index) d = true) : Short torrent index s₁ s :=
  ⟨_, h.counted, by simpa [incomplete] using hmore⟩

theorem Calm.room (h : Calm torrent index s₁ d s) (hindex : 2 ^ 32 ≤ index)
    (hmore : incomplete (pieceLength torrent index) d = true) :
    room (pieceLength torrent index) d = true := by
  have hzero := h.unasked hindex
  have hcounted := h.counted.nonneg
  have hlt : d.blocksReceived < blocksTotal (pieceLength torrent index) := by
    simpa [incomplete] using hmore
  have hboth : d.blocksRequested - d.blocksReceived < pipelineSizeMax ∧
      d.blocksRequested < blocksTotal (pieceLength torrent index) := by
    unfold pipelineSizeMax
    omega
  simpa [Download.room] using hboth

/-- A message that is harmless and does not let go. -/
theorem Listening.receive (h : Listening torrent index s₁ d s) {m : Message}
    (htrace : s'.trace = .received m :: s.trace)
    (hm : Harmless torrent index (storageSize s₁) m) (hne : m ≠ .unchoke) {d' : Progress}
    (hchoked : s'.choked = false → s.choked = false)
    (hbitfield : HasBitfield torrent (storageSize s₁) s')
    (hrequested : d'.blocksRequested = d.blocksRequested)
    (hcounted : BlocksSince d'.blocksReceived s₁.trace s')
    (hbuffer : d'.piece.length = d.piece.length) : Calm torrent index s₁ d' s' where
  requested := by rw [hrequested]; exact h.requested
  unasked hindex := by rw [hrequested]; exact h.unasked hindex
  counted := hcounted
  buffer := hbuffer.trans h.buffer
  bitfield := hbitfield
  borne := iff_of_true ((h.received_iff htrace).mpr ⟨hm, fun heq => absurd heq hne⟩)
    fun hs' => h.asked (hchoked hs')
  underway hs' hindex := by
    have hlt := h.asked (hchoked hs')
    omega

/-- A `have` message for a bit of the bitfield is one more; for any other `set`
    does not return. -/
theorem Listening.wp_haveMsg {i : Int} {w : W} (h : Listening torrent index s₁ d s) (h0 : 0 ≤ i) :
    (handleMessage d (.haveMsg i)).wp (Calm torrent index s₁) (Leaves torrent index s₁)
      { s with world := w, trace := .received (.haveMsg i) :: s.trace } := by
  obtain ⟨bf, hbf, hlen, hbytes⟩ := h.bitfield
  by_cases hi : i < torrent.piecesCount ∧ i / 8 < storageSize s₁
  · obtain ⟨bf', hset⟩ : ∃ bf', bf.set i true = .ok bf' :=
      Bitfield.set_of_byte h0 (by omega) (by omega)
    refine wp_handleMessage_haveMsg hbf ?_ ?_ ?_
    · intro bf'' hset'
      obtain ⟨hlen', hstorage, _⟩ := Bitfield.set_eq_ok hset'
      exact h.receive (m := .haveMsg i) rfl hi (by simp) id ⟨bf'', rfl, by omega, by omega⟩ rfl
        (h.counted.other rfl rfl) rfl
    · intro x hthrow
      simp [hset] at hthrow
    · intro htrap
      simp [hset] at htrap
  · have hnot : ¬ Borne torrent index s₁
        { s with world := w, trace := .received (.haveMsg i) :: s.trace } :=
      fun hborne => hi ((h.received_iff (m := .haveMsg i) rfl).mp hborne).1
    refine wp_handleMessage_haveMsg hbf ?_ ?_ ?_
    · intro bf' hset
      obtain ⟨_, _, hin, _⟩ := Bitfield.set_eq_ok hset
      have hbyte := Bitfield.byte_of_set hset
      exact absurd ⟨by omega, by omega⟩ hi
    · intro x _
      exact leaves_of_not_borne (by simp [Reported]) hnot
    · intro _
      exact leaves_of_not_borne (by simp [Reported]) hnot

theorem wp_handleMessage_calm {m : Message} {w : W} (hpos : 0 < pieceLength torrent index)
    (h : Listening torrent index s₁ d s) (hm : ∃ buf, Message.decode torrent buf = .ok m) :
    (handleMessage d m).wp (Calm torrent index s₁) (Leaves torrent index s₁)
      { s with world := w, trace := .received m :: s.trace } := by
  have hreceived : Borne torrent index s₁
      { s with world := w, trace := .received m :: s.trace } ↔
        Bearable torrent index (storageSize s₁) m := h.received_iff rfl
  obtain ⟨buf, hdecode⟩ := hm
  cases m with
  | haveMsg i => exact h.wp_haveMsg (Message.decode_have_nonneg hdecode)
  | piece i begin block =>
    have h0 := Message.decode_piece_nonneg hdecode
    have hbuffer := h.buffer
    rw [handleMessage]
    apply Prog.wp_ite
    · intro hin
      have hinside : begin + block.length ≤ pieceLength torrent index := by omega
      refine h.receive (m := .piece i begin block) rfl hinside (by simp) id h.bitfield rfl
        (h.counted.block rfl rfl) ?_
      exact length_overwrite_of_le 0 (by omega)
    · intro hout
      -- The copy leaves the buffer: that is no result, and no harmless block.
      refine leaves_of_not_borne (by simp [Reported]) fun hborne => ?_
      have hinside : begin + block.length ≤ pieceLength torrent index := (hreceived.mp hborne).1
      omega
  | choke =>
    exact h.receive (m := .choke) rfl trivial (by simp) (by simp) h.bitfield rfl
      (h.counted.other rfl rfl) rfl
  | unchoke =>
    have hborne : Borne torrent index s₁
        { s with world := w, trace := .received .unchoke :: s.trace } ↔ index < 2 ^ 32 :=
      hreceived.trans ⟨fun hm => hm.2 rfl, fun hindex => ⟨trivial, fun _ => hindex⟩⟩
    exact {
      requested := h.requested
      unasked := h.unasked
      counted := h.counted.other rfl rfl
      buffer := h.buffer
      bitfield := h.bitfield
      borne := ⟨fun hs' _ => hborne.mp ⟨hs'.asks, hs'.bears⟩, fun hindex =>
        ⟨(hborne.mpr (hindex rfl)).asks, (hborne.mpr (hindex rfl)).bears⟩⟩
      underway := fun _ _ => h.more }
  | _ =>
    refine h.receive rfl ?_ (by simp) id h.bitfield rfl (h.counted.other rfl rfl) rfl
    exact trivial

/-- Requests that fit into a message are sent. -/
theorem listening_pipeline (hd : Downloadable torrent index) :
    PipelineInvariant index (pieceLength torrent index)
      (fun d (s : State W) => Listening torrent index s₁ d s) (Leaves torrent index s₁) := by
  refine ⟨?_, ?_, ?_⟩
  · intro d s w h _ _
    have hrequested := h.requested
    have hindex := hd.encodable
    exact {
      requested := by show 0 ≤ d.blocksRequested + 1; omega
      unasked := fun hlarge => by omega
      counted := h.counted.other rfl rfl
      buffer := h.buffer
      bitfield := h.bitfield
      borne := iff_of_true ⟨h.borne_self.asks, h.borne_self.bears.sent⟩ fun _ => hindex
      underway := fun _ _ => h.more
      more := h.more
      asked := h.asked }
  · intro d s e w _ h _ _
    obtain ⟨n, hcounted, hlt⟩ := h.short h.more
    exact ⟨iff_of_true ⟨e, rfl⟩ ⟨h.borne_self.asks, h.borne_self.bears.sent⟩,
      fun _ => ⟨n, hcounted.other rfl rfl, hlt⟩⟩
  · intro d s x h _ hroom hencode
    exact absurd hencode (hd.encode h.requested (lt_total_of_room hroom))

theorem calm_invariant (h0 : 0 ≤ index) (hlt : index < torrent.piecesCount)
    (hpos : 0 < pieceLength torrent index) (hle : pieceLength torrent index ≤ 2147483647) :
    RoundInvariant env torrent index (pieceLength torrent index) (Calm torrent index s₁)
      (Listening torrent index s₁) (Leaves torrent index s₁) := by
  refine ⟨?_, ?_, ?_⟩
  · intro d s h hmore
    by_cases hindex : index < 2 ^ 32
    · exact (listening_pipeline ⟨h0, hlt, hindex, hpos, hle⟩).wp_fillPipeline
        ⟨h, hmore, fun _ => hindex⟩
    · cases hchoked : s.choked with
      | true =>
        exact Prog.wp_of_ok (fillPipeline_of_choked hchoked) ⟨h, hmore, by simp [hchoked]⟩
      | false =>
        obtain ⟨x, hthrow⟩ : ∃ x, fillPipeline env index (pieceLength torrent index) d s
            = (.error (.throw x), s) :=
          fillPipeline_of_large (by omega) hchoked (h.room (by omega) hmore)
        refine Prog.wp_of_error hthrow (leaves_of_not_borne (by simp [Reported]) fun hborne => ?_)
        exact hindex (h.borne.mp hborne hchoked)
  · intro d s e w _ h
    exact ⟨iff_of_true ⟨e, rfl⟩ ⟨h.borne_self.asks, h.borne_self.bears⟩,
      fun _ => h.short h.more⟩
  · intro d s m w h hm
    exact wp_handleMessage_calm hpos h hm

end

/-! ### Torrents that the constructor accepts -/

/-- A piece has a hash and no more than `INT_MAX` bytes: what is left for the
    last piece is a remainder. -/
theorem piece_of_ofTree {sha1 : Bytes → Bytes} {tree : Bencode.BencodeValue} {t : TorrentFile}
    (h : TorrentFile.ofTree sha1 tree = .ok t) (h0 : 0 ≤ index) (hlt : index < t.piecesCount) :
    (∃ hash, t.pieceHashes[index.toNat]? = some hash) ∧ pieceLength t index ≤ 2147483647 := by
  obtain ⟨lengths, n, _, hc⟩ := Torrent.ofTree_eq_ok h
  have hhashes := hc.hashes
  have hpl : t.pieceLength ≤ 2147483647 := by
    rw [hc.pieceLength]
    exact Int.le_of_lt_add_one n.toInt32.toInt_lt
  refine ⟨⟨_, List.getElem?_eq_getElem (by omega)⟩, ?_⟩
  unfold pieceLength
  split
  · have hcount := hc.piecesCount
    have hmod := Int.mul_tdiv_add_tmod (t.length + t.pieceLength - 1) t.pieceLength
    rw [← hcount] at hmod
    have hlast : t.length - (t.piecesCount - 1) * t.pieceLength
        = (t.length + t.pieceLength - 1).tmod t.pieceLength + 1 := by
      rw [Int.sub_mul, Int.mul_comm t.piecesCount]
      omega
    rw [hlast]
    rcases Int.lt_or_gt_of_ne hc.pieceLength_ne with hneg | hpos
    · -- A negative length of a piece goes with a negative sum.
      have hsum : t.length + t.pieceLength - 1 ≤ 0 := by
        by_contra hsum
        have hquot := Int.tdiv_nonpos_of_nonneg_of_nonpos (a := t.length + t.pieceLength - 1)
          (b := t.pieceLength) (by omega) (by omega)
        omega
      have hrest := Int.tmod_nonneg t.pieceLength (Int.neg_nonneg_of_nonpos hsum)
      rw [Int.neg_tmod] at hrest
      omega
    · have hrest := Int.tmod_lt_of_pos (t.length + t.pieceLength - 1) hpos
      omega
  · exact hpl

/-! ### The call -/

/-- The caller is handed a result, `OK` or an error. -/
def isResult {α : Type} : Outcome DownloaderError α → Bool
  | .ok _ => true
  | .error (.error _) => true
  | _ => false

theorem isResult_error {α : Type} {e : Stop DownloaderError} :
    isResult (.error e : Outcome DownloaderError α) = true ↔ Reported e := by
  cases e with
  | error x => simp [isResult, Reported]
  | _ => simp [isResult, Reported]

theorem isResult_finishPiece {piece hash : Bytes}
    (hhash : torrent.pieceHashes[index.toNat]? = some hash) (s : State W) :
    isResult (finishPiece env torrent index piece s).1 = true ↔ piece.length < 2 ^ 29 := by
  unfold finishPiece
  simp only [hhash]
  cases hverify : verifyPiece env piece hash with
  | ok verified =>
    have hrun : (Prog.ofOutcome (.ok verified) : Run W Bool) s = (.ok verified, s) := rfl
    rw [Prog.bind_ok hrun]
    refine iff_of_true ?_ (verifyPiece_eq_ok_iff.mp hverify).1
    cases verified <;> rfl
  | error e =>
    refine iff_of_false ?_ fun hlt => ?_
    · cases e with
      | error x => exact x.elim
      | _ => simp [isResult, Prog.ofOutcome, bind, Prog.stop]
    · rw [verifyPiece_eq_ok_iff.mpr ⟨hlt, rfl⟩] at hverify
      injection hverify

/-- The byte of the bitfield that is read for a piece, or what lies behind
    the bitfield. -/
def heldByte (env : Env W) (index : Int) (s : State W) : Option UInt8 :=
  match s.bitfield with
  | none => none
  | some bf => uncheckedGet bf.storage (env.beyond s.world) (index / 8).toNat

theorem hasPiece_of_heldByte (env : Env W) {bf : Bitfield} (hbf : s.bitfield = some bf)
    (h0 : 0 ≤ index) (hlt : index < bf.len) :
    hasPiece env index s = match heldByte env index s with
      | none => (.error .trap, s)
      | some byte => (.ok (byte &&& bitMask index ≠ 0), s) := by
  have hget : (Prog.get : Run W (State W)) s = (.ok s, s) := rfl
  rw [hasPiece, Prog.bind_ok hget]
  simp only [hbf, heldByte, Bitfield.get, Bitfield.assertWithinBounds_of_lt h0 hlt]
  cases uncheckedGet bf.storage (env.beyond s.world) (index / 8).toNat with
  | none => rfl
  | some byte => rfl

/-- The loop that starts in state `s₁` comes to its end: as many blocks are
    received as the piece has. -/
def Completes (env : Env W) (torrent : TorrentFile) (fuel : Nat) (index : Int) (s₁ : State W) :
    Prop :=
  ∃ n, BlocksSince n s₁.trace (downloadLoop env torrent index (pieceLength torrent index) fuel
    (startProgress torrent index) s₁).2 ∧ blocksTotal (pieceLength torrent index) ≤ n

/-- Piece `index` can be downloaded from state `s₁` on, as far as it gets. -/
structure Withstands (env : Env W) (torrent : TorrentFile) (fuel : Nat) (index : Int)
    (s₁ : State W) : Prop where
  length_pos : 0 < pieceLength torrent index
  /-- The first request is sent at once. -/
  asks : s₁.choked = false → index < 2 ^ 32
  bears : ∀ m, LoopReceives env torrent index (pieceLength torrent index) fuel
    (startProgress torrent index) s₁ m → Bearable torrent index (storageSize s₁) m
  /-- `sha1::calc` takes no more. -/
  verifies : Completes env torrent fuel index s₁ → pieceLength torrent index < 2 ^ 29

/-- Connected in state `s₁`: there is a byte to be read for the piece, and if
    it says that the peer has the piece, it can be downloaded. -/
def Endures (env : Env W) (torrent : TorrentFile) (fuel : Nat) (index : Int) (s₁ : State W) :
    Prop :=
  ∃ byte, heldByte env index s₁ = some byte ∧
    (byte &&& bitMask index ≠ 0 → Withstands env torrent fuel index s₁)

section

variable {rank : W → Nat} {task : Piece}

/-- The invariant holds when the loop is entered. -/
theorem Enters.calm {s₁ : State W} (h : Enters env torrent fuel task s s₁) (hs : Inv torrent s) :
    Calm torrent task.index s₁ (startProgress torrent task.index) s₁ := by
  obtain ⟨bf, hbf, htracks⟩ := (h.downloading hs).linked.bitfield
  have hpos := h.length_pos
  exact {
    requested := le_rfl
    unasked := fun _ => rfl
    counted := blocksSince_self s₁
    buffer := List.length_replicate
    bitfield := ⟨bf, hbf, htracks.len, by simp only [storageSize, hbf]⟩
    borne := ⟨Borne.asks, fun hasks => ⟨hasks, receivedSince_self s₁⟩⟩
    underway := fun _ _ => by
      have htotal : 0 < blocksTotal (pieceLength torrent task.index) := by
        unfold blocksTotal blockSize
        omega
      exact decide_eq_true htotal }

theorem Enters.wp_downloadLoop {s₁ : State W} (h : Enters env torrent fuel task s s₁)
    (hle : pieceLength torrent task.index ≤ 2147483647) (hpeer : FinitePeer env rank)
    (hs : Inv torrent s) (hfuel : rank s.world < fuel) :
    (downloadLoop env torrent task.index (pieceLength torrent task.index) fuel
      (startProgress torrent task.index)).wp
        (fun d s => Calm torrent task.index s₁ d s ∧
          blocksTotal (pieceLength torrent task.index) ≤ d.blocksReceived)
        (Leaves torrent task.index s₁) s₁ := by
  have hrank : rank s₁.world ≤ rank s.world :=
    Prog.wp_ok (Q := fun _ s' => rank s'.world ≤ rank s.world) (hpeer.wp_ensureConnected hfuel)
      h.connected
  refine (calm_invariant h.nonneg h.lt_count h.length_pos hle).wp_loop_rank
    (r := fun s => rank s.world) ?_ (lt_of_le_of_lt hrank hfuel) (h.calm hs)
  intro _ _ _ _ hrun
  exact lt_of_lt_of_le (Nat.lt_add_of_pos_right (by decide)) (hpeer.downloadRound hrun)

theorem withstands_iff {s₁ : State W} (hpos : 0 < pieceLength torrent task.index) :
    Withstands env torrent fuel task.index s₁ ↔
      Borne torrent task.index s₁ (downloadLoop env torrent task.index
        (pieceLength torrent task.index) fuel (startProgress torrent task.index) s₁).2 ∧
      (Completes env torrent fuel task.index s₁ → pieceLength torrent task.index < 2 ^ 29) :=
  ⟨fun hw => ⟨⟨hw.asks, receivedSince_loop_iff.mpr hw.bears⟩, hw.verifies⟩,
    fun hb => ⟨hpos, hb.1.asks, receivedSince_loop_iff.mp hb.1.bears, hb.2⟩⟩

/-- Once in the loop, the messages decide, and the length of the piece. -/
theorem Enters.isResult_iff {s₁ : State W} {hash : Bytes}
    (h : Enters env torrent fuel task s s₁)
    (hhash : torrent.pieceHashes[task.index.toNat]? = some hash)
    (hle : pieceLength torrent task.index ≤ 2147483647)
    (hpeer : FinitePeer env rank) (hs : Inv torrent s) (hfuel : rank s.world < fuel) :
    isResult (tryDownload env torrent fuel task s).1 = true ↔
      Withstands env torrent fuel task.index s₁ := by
  have hloop := h.wp_downloadLoop hle hpeer hs hfuel
  rw [h.tryDownload_eq, withstands_iff h.length_pos, Completes]
  cases hrun : downloadLoop env torrent task.index (pieceLength torrent task.index) fuel
      (startProgress torrent task.index) s₁ with
  | mk r s₂ =>
    cases r with
    | ok d =>
      obtain ⟨hcalm, hdone⟩ := Prog.wp_ok hloop hrun
      have hborne : Borne torrent task.index s₁ s₂ := by
        refine hcalm.borne.mpr fun hchoked => ?_
        by_contra hindex
        have hmore := hcalm.underway hchoked (by omega)
        simp only [incomplete, decide_eq_true_eq] at hmore
        omega
      have hlength := hcalm.buffer
      rw [Prog.bind_ok hrun, isResult_finishPiece hhash]
      constructor
      · intro hlt
        exact ⟨hborne, fun _ => by omega⟩
      · intro hboth
        have hlt := hboth.2 ⟨_, hcalm.counted, hdone⟩
        omega
    | error e =>
      have hleaves := Prog.wp_error hloop hrun
      rw [Prog.bind_error hrun, isResult_error]
      constructor
      · intro hreported
        refine ⟨hleaves.reported.mp hreported, ?_⟩
        intro hcompletes
        obtain ⟨n, hn, hle⟩ := hcompletes
        obtain ⟨n', hn', hlt⟩ := hleaves.short hreported
        rw [hn.unique hn'] at hle
        omega
      · intro hboth
        exact hleaves.reported.mpr hboth.1

/-- For every torrent that the constructor accepts, with any name for its
    folder, every valid index, every peer that sends finitely many bytes and
    every state between two calls: the call gives a result if and only if no
    connection comes about, or the state in which it is made endures. -/
theorem tryDownload_isResult_iff (task : Piece) {sha1 : Bytes → Bytes} {tree : Bencode.BencodeValue}
    {t : TorrentFile} {folderName : Bytes} (htree : TorrentFile.ofTree sha1 tree = .ok t)
    (htorrent : torrent = { t with folderName := folderName }) (h0 : 0 ≤ task.index)
    (hlt : task.index < torrent.piecesCount) (hpeer : FinitePeer env rank)
    (hs : Between env torrent fuel s) (hfuel : rank s.world < fuel) :
    isResult (tryDownload env torrent fuel task s).1 = true ↔
      ∀ s₁, ensureConnected env torrent fuel s = (.ok (), s₁) →
        Endures env torrent fuel task.index s₁ := by
  obtain ⟨⟨hash, hhash⟩, hle⟩ : (∃ hash, torrent.pieceHashes[task.index.toNat]? = some hash) ∧
      pieceLength torrent task.index ≤ 2147483647 := by
    rw [htorrent] at hlt ⊢
    exact (piece_of_ofTree htree h0 hlt :)
  cases hconnect : ensureConnected env torrent fuel s with
  | mk r s₁ =>
    cases r with
    | error e =>
      rw [tryDownload, if_neg (by omega), if_neg (by omega), Prog.bind_error hconnect]
      refine iff_of_true (isResult_error.mpr ?_) (by simp)
      exact Prog.wp_error (hpeer.wp_ensureConnected hfuel) hconnect
    | ok _ =>
      have hiff : (∀ s₂, ((.ok (), s₁) : Outcome DownloaderError Unit × State W) = (.ok (), s₂) →
          Endures env torrent fuel task.index s₂) ↔ Endures env torrent fuel task.index s₁ :=
        ⟨fun h => h s₁ rfl, fun h s₂ heq => (Prod.mk.inj heq).2 ▸ h⟩
      rw [hiff]
      obtain ⟨hinv, hsocket⟩ := Prog.wp_ok (wp_ensureConnected hs.inv) hconnect
      obtain ⟨bf, hbf, htracks⟩ := (hinv.linked hsocket).bitfield
      have hlen := htracks.len
      have hhas := hasPiece_of_heldByte env hbf h0 (by omega)
      cases hbyte : heldByte env task.index s₁ with
      | none =>
        -- A read behind the bitfield traps.
        simp only [hbyte] at hhas
        rw [tryDownload, if_neg (by omega), if_neg (by omega), Prog.bind_ok hconnect,
          Prog.bind_error hhas]
        exact iff_of_false (by simp [isResult]) (by simp [Endures, hbyte])
      | some byte =>
        simp only [hbyte] at hhas
        by_cases hbit : byte &&& bitMask task.index ≠ 0
        · rw [decide_eq_true hbit] at hhas
          have hendures : Endures env torrent fuel task.index s₁ ↔
              Withstands env torrent fuel task.index s₁ := by
            simp [Endures, hbyte, hbit]
          rw [hendures]
          by_cases hpos : 0 < pieceLength torrent task.index
          · exact Enters.isResult_iff ⟨h0, hlt, hconnect, hhas, hpos⟩ hhash hle hpeer hs.inv hfuel
          · rw [tryDownload, if_neg (by omega), if_neg (by omega), Prog.bind_ok hconnect,
              Prog.bind_ok hhas, if_neg (by simp)]
            simp only [if_pos (show pieceLength torrent task.index ≤ 0 by omega)]
            exact iff_of_false (by simp [isResult, Prog.stop]) fun hw => hpos hw.length_pos
        · rw [decide_eq_false hbit] at hhas
          rw [tryDownload, if_neg (by omega), if_neg (by omega), Prog.bind_ok hconnect,
            Prog.bind_ok hhas, if_pos rfl]
          exact iff_of_true rfl ⟨byte, hbyte, fun h => absurd h hbit⟩

end

/-- The first twenty bytes, in place of a hash. -/
def firstTwenty (bytes : Bytes) : Bytes := (bytes ++ List.replicate 20 0).take 20

/-- A socket that is a list of bytes, with these hashes. -/
def briefEnv : Env Bytes := { listEnv with sha1 := firstTwenty }

theorem briefEnv_finitePeer : FinitePeer briefEnv List.length where
  connect _ := le_rfl
  isOpen _ := le_rfl
  write _ _ := le_rfl
  close _ := le_rfl
  read n w := by
    by_cases h : n ≤ w.length
    · simp [briefEnv, listEnv, h]
    · simp [briefEnv, listEnv, h]
  read_ok n w bytes w' hread := by
    by_cases h : n ≤ w.length
    · simp only [briefEnv, listEnv, dif_pos h, Prod.mk.injEq] at hread
      rw [← hread.2, List.length_drop]
      omega
    · simp [briefEnv, listEnv, h] at hread

/-- The dictionary `"info"` of a torrent with one piece of three bytes. -/
def briefInfo : Bencode.BencodeValue :=
  .dict [(Torrent.lengthKey, .int 3), (Torrent.nameKey, .string [97]),
    (Torrent.pieceLengthKey, .int 3), (Torrent.piecesKey, .string (firstTwenty [1, 2, 3]))]

def briefTree : Bencode.BencodeValue :=
  .dict [(Torrent.announceKey, .string []), (Torrent.infoKey, briefInfo)]

def briefTorrent : TorrentFile :=
  { infoHash := firstTwenty (Bencode.encode briefInfo), pieceHashes := [firstTwenty [1, 2, 3]]
    pieceLength := 3, length := 3, piecesCount := 1, name := [97], files := [⟨[[97]], 3⟩] }

/-- The answer to the handshake, a bitfield with the piece and an unchoke. -/
def briefAnnounces : Bytes :=
  List.replicate 28 0 ++ briefTorrent.infoHash ++ List.replicate 20 0
    ++ [0, 0, 0, 2, 5, 128] ++ [0, 0, 0, 1, 1]

/-- The peer chokes us after the request, announces the piece again, unchokes
    us and answers. -/
def briefAnswers : Bytes :=
  briefAnnounces ++ [0, 0, 0, 1, 0] ++ [0, 0, 0, 5, 4, 0, 0, 0, 0] ++ [0, 0, 0, 1, 1]
    ++ [0, 0, 0, 12, 7, 0, 0, 0, 0, 0, 0, 0, 0, 1, 2, 3]

theorem briefTorrent_of_tree : TorrentFile.ofTree firstTwenty briefTree = .ok briefTorrent := by
  decide +kernel

/-- A whole download is endured. -/
theorem tryDownload_isResult_brief :
    (tryDownload briefEnv briefTorrent 256 ⟨0, []⟩ { world := briefAnswers }).1
      = .ok ⟨0, [1, 2, 3]⟩ ∧
    ∀ s₁, ensureConnected briefEnv briefTorrent 256 { world := briefAnswers } = (.ok (), s₁) →
      Endures briefEnv briefTorrent 256 0 s₁ := by
  have hresult : (tryDownload briefEnv briefTorrent 256 ⟨0, []⟩ { world := briefAnswers }).1
      = .ok ⟨0, [1, 2, 3]⟩ := by decide +kernel
  have hiff : isResult (tryDownload briefEnv briefTorrent 256 ⟨0, []⟩ { world := briefAnswers }).1
      = true ↔ ∀ s₁, ensureConnected briefEnv briefTorrent 256 { world := briefAnswers }
        = (.ok (), s₁) → Endures briefEnv briefTorrent 256 0 s₁ :=
    tryDownload_isResult_iff ⟨0, []⟩ briefTorrent_of_tree rfl (by decide) (by decide)
      briefEnv_finitePeer (.start briefAnswers) (by decide)
  exact ⟨hresult, hiff.mp (by rw [hresult]; rfl)⟩

/-- A torrent of one piece. The peer announces it, and then a second one. -/
theorem tryDownload_have_outside :
    TorrentFile.ofTree firstTwenty briefTree = .ok briefTorrent ∧
    (tryDownload briefEnv briefTorrent 256 ⟨0, []⟩
        { world := briefAnnounces ++ [0, 0, 0, 5, 4, 0, 0, 0, 1] }).1
      = .error (.throw (.invalidArgument "index too large for this bitfield")) ∧
    isResult (tryDownload briefEnv briefTorrent 256 ⟨0, []⟩
        { world := briefAnnounces ++ [0, 0, 0, 5, 4, 0, 0, 0, 1] }).1 = false := by
  decide +kernel

end Furrent.Download
