import Furrent.Framework.Sha1
import Furrent.Download.Reassembly
import Furrent.Download.Returns

/-! # Peers that answer

    `Reassembly` says what a call returns if its loop ends. Against a peer
    that answers, the loop does end. Such a peer puts one block into the
    connection for each request, sooner or later and in any order, with a
    bounded number of other messages around it; it never leaves the
    downloader choked for good, and what it says is true.

    The unread bytes of the connection are the frames of a list of messages.
    At the head of the loop the blocks among them are the requests that
    have not been answered. So there is something to read: a choked
    downloader has an unchoke message ahead of it, and one that is not
    choked has filled its pipeline. -/

namespace Furrent.Download

open Cpp Message

/-! ### Messages under way -/

/-- The bytes are the frames of the messages. -/
inductive Carries (torrent : TorrentFile) : Bytes → List Message → Prop where
  | nil : Carries torrent [] []
  | cons {body rest : Bytes} {m : Message} {ms : List Message} (hlen : body.length < 2 ^ 32)
      (hdecode : decode torrent (frame body) = .ok m) (hrest : Carries torrent rest ms) :
      Carries torrent (frame body ++ rest) (m :: ms)

/-- The block in a message: its index, where it begins and its length. -/
def Message.blockOf : Message → Option (Int × Int × Int)
  | .piece index begin block => some (index, begin, block.length)
  | _ => none

/-- The blocks in a list of messages. -/
def blocksIn (ms : List Message) : List (Int × Int × Int) := ms.filterMap Message.blockOf

/-- The flag `choked` after a message. -/
def Message.chokes (choked : Bool) : Message → Bool
  | .choke => true
  | .unchoke => false
  | _ => choked

/-- The flag `choked` after a list of messages. -/
def chokedAfter (choked : Bool) (ms : List Message) : Bool := ms.foldl Message.chokes choked

/-- A `Have` names a piece of the torrent, a block is part of its piece. -/
def Message.Truthful (torrent : TorrentFile) (content : Int → Bytes) : Message → Prop
  | .haveMsg i => 0 ≤ i ∧ i < torrent.piecesCount
  | .piece i begin block => 0 ≤ begin ∧ begin + block.length ≤ (content i).length ∧
      block = ((content i).drop begin.toNat).take block.length
  | _ => True

theorem Carries.append {torrent : TorrentFile} {bytes bytes' : Bytes} {ms ms' : List Message}
    (h : Carries torrent bytes ms) (h' : Carries torrent bytes' ms') :
    Carries torrent (bytes ++ bytes') (ms ++ ms') := by
  induction h with
  | nil => exact h'
  | cons hlen hdecode _ ih =>
    rw [List.append_assoc]
    exact .cons hlen hdecode ih

theorem blocksIn_append (ms ms' : List Message) :
    blocksIn (ms ++ ms') = blocksIn ms ++ blocksIn ms' := List.filterMap_append

theorem chokedAfter_append (choked : Bool) (ms ms' : List Message) :
    chokedAfter choked (ms ++ ms') = chokedAfter (chokedAfter choked ms) ms' := List.foldl_append

theorem blocksIn_cons_of_none {m : Message} (h : m.blockOf = none) (ms : List Message) :
    blocksIn (m :: ms) = blocksIn ms := List.filterMap_cons_none h

/-! ### The peer -/

/-- What a request does to the messages under way. -/
structure Answered (torrent : TorrentFile) (content : Int → Bytes) (noise : Nat)
    (block : Int × Int × Int) (ms ms' : List Message) : Prop where
  blocks : (blocksIn ms').Perm (block :: blocksIn ms)
  truthful : ∀ m ∈ ms', m ∈ ms ∨ m.Truthful torrent content
  unchokes : ∀ choked, chokedAfter choked ms = false → chokedAfter choked ms' = false
  length_le : ms'.length ≤ ms.length + noise

variable {W : Type}

/-- The piece can be asked for, and `bytes` are its bytes. -/
structure Offered (env : Env W) (torrent : TorrentFile) (index : Int) (bytes : Bytes) : Prop where
  downloadable : Downloadable torrent index
  length_eq : pieceLength torrent index = bytes.length
  hash_eq : torrent.pieceHashes[index.toNat]? = some (env.sha1 bytes)

/-- A peer that answers, in the states of the environment that are
    `ready`. -/
structure Responder (env : Env W) (torrent : TorrentFile) where
  /-- The bytes of each piece. -/
  content : Int → Bytes
  /-- The pieces it has. -/
  offers : Int → Prop
  /-- How many messages it sends for each request. -/
  noise : Nat
  ready : W → Prop
  /-- What is going to be read. -/
  stream : W → Bytes
  offered : ∀ index, offers index → Offered env torrent index (content index)
  streams : Streams env stream
  ready_read : ∀ n w, ready w → ready (env.read n w).2
  isOpen : ∀ w, ready w → ∃ w', env.isOpen w = (true, w') ∧ ready w' ∧ stream w' = stream w
  request : ∀ w ms index k bytes, ready w → Carries torrent (stream w) ms → offers index →
    0 ≤ k → k < blocksTotal (content index).length →
    (Message.request index (blockOffset k) (blockLength (content index).length k)).encode
      = .ok bytes →
    ∃ w' ms', env.write bytes w = (.ok (), w') ∧ ready w' ∧ Carries torrent (stream w') ms' ∧
      Answered torrent content noise
        (index, blockOffset k, blockLength (content index).length k) ms ms'

variable {env : Env W} {torrent : TorrentFile} {peer : Responder env torrent} {s : State W}
  {ms : List Message} {m : Message} {w : W}

/-- The bitfield has a bit for every piece and the bits of the pieces the
    peer has are set. -/
structure Responder.Known (peer : Responder env torrent) (bf : Bitfield) : Prop where
  len : bf.len = torrent.piecesCount
  spans : bf.Spans
  bit : ∀ i, peer.offers i → bf.bit i = true

/-- Connected to the peer, with the messages `ms` still to be read. -/
structure Engaged (peer : Responder env torrent) (s : State W) (ms : List Message) : Prop where
  socket : s.socket = true
  ready : peer.ready s.world
  carries : Carries torrent (peer.stream s.world) ms
  truthful : ∀ m ∈ ms, m.Truthful torrent peer.content
  unchokes : chokedAfter s.choked ms = false
  bitfield : ∃ bf, s.bitfield = some bf ∧ peer.Known bf

/-- The next message is read. -/
theorem Engaged.recvMessage (h : Engaged peer s (m :: ms)) :
    ∃ w, recvMessage env torrent s
        = (.ok m, { s with world := w, trace := .received m :: s.trace }) ∧
      peer.ready w ∧ Carries torrent (peer.stream w) ms := by
  have hcarries := h.carries
  generalize hstream : peer.stream s.world = bytes at hcarries
  cases hcarries with
  | cons hlen hdecode hrest =>
    obtain ⟨w, hrecv, hw⟩ := recvMessage_frame peer.streams hlen hdecode hstream
    refine ⟨w, hrecv, ?_, by rw [hw]; exact hrest⟩
    -- The world is the one behind two reads.
    obtain ⟨w₁, w₂, len, _, hread₁, hread₂, _, hs⟩ := recvMessage_eq_ok hrecv
    have hworld : w = w₂ := congrArg State.world hs
    have hready₁ := peer.ready_read 4 s.world h.ready
    rw [hread₁] at hready₁
    have hready₂ := peer.ready_read (decodeInteger len.val).toNat w₁ hready₁
    rw [hread₂] at hready₂
    rw [hworld]
    exact hready₂

/-! ### The loop of `try_download` -/

variable {index : Int} {t₀ t : List Event} {d d' : Progress}

/-- The downloader after the events `t` of the loop. -/
structure Serving (peer : Responder env torrent) (index : Int) (t₀ : List Event) (d : Progress)
    (s : State W) (ms : List Message) (t : List Event) : Prop extends Engaged peer s ms where
  trace : s.trace = t ++ t₀
  honest : Honest (peer.content index) t
  assembling : Assembling (peer.content index) index d t
  nonneg : 0 ≤ d.blocksRequested
  /-- The blocks under way are the unanswered requests. -/
  flying : (blocksIn ms).Perm (outstanding t)
  same : ∀ x ∈ outstanding t, x.1 = index

/-- Asking for the next block. -/
theorem Serving.requestBlock (h : Serving peer index t₀ d s ms t) (hoffers : peer.offers index)
    (hlt : d.blocksRequested < blocksTotal (peer.content index).length) :
    ∃ s' ms' t', requestBlock env index (peer.content index).length d s
        = (.ok { d with blocksRequested := d.blocksRequested + 1 }, s') ∧
      Serving peer index t₀ { d with blocksRequested := d.blocksRequested + 1 } s' ms' t' ∧
      s'.choked = s.choked ∧ ms'.length ≤ ms.length + peer.noise := by
  have hoffered := peer.offered index hoffers
  set m := Message.request index (blockOffset d.blocksRequested)
    (blockLength (peer.content index).length d.blocksRequested) with hm
  have hencode : ∃ bytes, m.encode = .ok bytes := by
    cases hres : m.encode with
    | ok bytes => exact ⟨bytes, rfl⟩
    | error x =>
      rw [hm, ← hoffered.length_eq] at hres
      rw [← hoffered.length_eq] at hlt
      exact absurd hres (hoffered.downloadable.encode h.nonneg hlt)
  obtain ⟨bytes, hbytes⟩ := hencode
  obtain ⟨w', ms', hwrite, hready, hcarries, hanswered⟩ := peer.request s.world ms index
    d.blocksRequested bytes h.ready h.carries hoffers h.nonneg hlt hbytes
  have hsend : sendMessage env m s
      = (.ok (), { s with world := w', trace := .sent m :: s.trace }) := by
    rw [sendMessage, hbytes]
    have hrecord : (record (.sent m) : Run W Unit) s
        = (.ok (), { s with trace := .sent m :: s.trace }) := rfl
    exact (Prog.bind_ok hrecord).trans (useSocket_ok hwrite)
  refine ⟨_, ms', .sent m :: t, Prog.bind_ok hsend, ⟨⟨h.socket, hready, hcarries, ?_,
    hanswered.unchokes _ h.unchokes, h.bitfield⟩, ?_, h.honest, h.assembling.sent hlt, ?_, ?_, ?_⟩,
    rfl, hanswered.length_le⟩
  · intro m' hm'
    rcases hanswered.truthful m' hm' with hold | hnew
    · exact h.truthful m' hold
    · exact hnew
  · show .sent m :: s.trace = .sent m :: t ++ t₀
    rw [h.trace]
    rfl
  · have hnonneg := h.nonneg
    show 0 ≤ d.blocksRequested + 1
    omega
  · exact hanswered.blocks.trans (h.flying.cons _)
  · intro x hx
    rcases List.mem_cons.mp hx with rfl | hx
    · rfl
    · exact h.same x hx

/-- The same with a bound on the messages that are read until the piece is
    complete. -/
def Serves (peer : Responder env torrent) (index : Int) (t₀ : List Event) (bound : Nat)
    (d : Progress) (s : State W) : Prop :=
  ∃ ms t, Serving peer index t₀ d s ms t ∧
    ms.length + peer.noise
      * (blocksTotal (peer.content index).length - d.blocksRequested).toNat ≤ bound

theorem Serves.requestBlock {bound : Nat} (h : Serves peer index t₀ bound d s)
    (hoffers : peer.offers index)
    (hlt : d.blocksRequested < blocksTotal (peer.content index).length) :
    ∃ s', requestBlock env index (peer.content index).length d s
        = (.ok { d with blocksRequested := d.blocksRequested + 1 }, s') ∧
      Serves peer index t₀ bound { d with blocksRequested := d.blocksRequested + 1 } s' ∧
      s'.choked = s.choked := by
  obtain ⟨ms, t, hserving, hbound⟩ := h
  obtain ⟨s', ms', t', hrun, hserving', hchoked, hlength⟩ := hserving.requestBlock hoffers hlt
  refine ⟨s', hrun, ⟨ms', t', hserving', ?_⟩, hchoked⟩
  -- The messages that came in answer have been paid for by the request.
  have hleft : (blocksTotal (peer.content index).length - d.blocksRequested).toNat
      = (blocksTotal (peer.content index).length - (d.blocksRequested + 1)).toNat + 1 := by omega
  rw [hleft, Nat.mul_succ] at hbound
  show ms'.length + peer.noise
    * (blocksTotal (peer.content index).length - (d.blocksRequested + 1)).toNat ≤ bound
  omega

/-- Requests are sent until there is no room, or not at all. -/
theorem Serves.wp_fillPipeline {bound : Nat} (h : Serves peer index t₀ bound d s)
    (hoffers : peer.offers index) :
    (fillPipeline env index (peer.content index).length d).wp
      (fun d' s' => Serves peer index t₀ bound d' s' ∧ d'.blocksReceived = d.blocksReceived ∧
        (s'.choked = false → room (peer.content index).length d' = false))
      (fun _ _ => False) s := by
  rw [fillPipeline, Prog.wp_bind, Prog.wp_get]
  apply Prog.wp_ite
  · intro hchoked
    exact ⟨h, rfl, by simp [hchoked]⟩
  · intro hchoked
    show (requestBlocks env index _ _ d).wp _ _ s
    rw [requestBlocks_eq_loop]
    apply Prog.wp_loop_rank
      (I := fun d' s' => (Serves peer index t₀ bound d' s' ∧ s'.choked = false) ∧
        d'.blocksReceived = d.blocksReceived)
      (r := fun d' _ => (blocksTotal (peer.content index).length - d'.blocksRequested).toNat)
    · intro d₁ s₁ hI hroom
      have hlt := lt_total_of_room hroom
      obtain ⟨s₂, hrun, hserves, hchoked₂⟩ := hI.1.1.requestBlock hoffers hlt
      refine Prog.wp_of_ok hrun ⟨⟨⟨hserves, hchoked₂.trans hI.1.2⟩, hI.2⟩, ?_⟩
      show (blocksTotal (peer.content index).length - (d₁.blocksRequested + 1)).toNat
        < (blocksTotal (peer.content index).length - d₁.blocksRequested).toNat
      omega
    · intro d₁ s₁ hI hroom
      exact ⟨hI.1.1, hI.2, fun _ => hroom⟩
    · exact Nat.lt_succ_self _
    · exact ⟨⟨h, by simpa using hchoked⟩, rfl⟩

/-- There is something to read before the piece is complete. -/
theorem Serving.exists_message (h : Serving peer index t₀ d s ms t)
    (hmore : d.blocksReceived < blocksTotal (peer.content index).length)
    (hroom : s.choked = false → room (peer.content index).length d = false) :
    ∃ m ms', ms = m :: ms' := by
  cases ms with
  | cons m ms' => exact ⟨m, ms', rfl⟩
  | nil =>
    exfalso
    have hunchokes : s.choked = false := h.unchokes
    have hflight := h.assembling.in_flight
    have hempty : outstanding t = [] := h.flying.nil_eq.symm
    rw [hempty] at hflight
    have hfull : ¬ (d.blocksRequested - d.blocksReceived < pipelineSizeMax ∧
        d.blocksRequested < blocksTotal (peer.content index).length) := by
      simpa [room] using hroom hunchokes
    -- Nothing is in flight, so the pipeline has room.
    have hzero : (0 : Int) = d.blocksRequested - d.blocksReceived := hflight
    unfold pipelineSizeMax at hfull
    omega

/-! ### The messages -/

theorem honest_received {R : Bytes} (hm : m.blockOf = none) (h : Honest R t) :
    Honest R (.received m :: t) := by
  cases m with
  | piece index begin block => cases hm
  | _ => exact h

theorem ne_piece_of_blockOf (hm : m.blockOf = none) (index begin : Int) (block : Bytes) :
    m ≠ .piece index begin block := by
  rintro rfl
  cases hm

/-- A message without a block was read. -/
theorem Serving.received (h : Serving peer index t₀ d s (m :: ms) t) (hm : m.blockOf = none)
    (hready : peer.ready w) (hcarries : Carries torrent (peer.stream w) ms) {bf : Bitfield}
    (hbf : peer.Known bf) :
    Serving peer index t₀ d
      { world := w, socket := s.socket, choked := m.chokes s.choked, bitfield := some bf,
        trace := .received m :: s.trace } ms (.received m :: t) := by
  have hne := ne_piece_of_blockOf hm
  refine ⟨⟨h.socket, hready, hcarries, fun m' hm' => h.truthful m' (List.mem_cons_of_mem m hm'),
    h.unchokes, ⟨bf, rfl, hbf⟩⟩, ?_, honest_received hm h.honest, h.assembling.received hne,
    h.nonneg, ?_, ?_⟩
  · show .received m :: s.trace = .received m :: t ++ t₀
    rw [h.trace]
    rfl
  · rw [outstanding_received hne, ← blocksIn_cons_of_none hm ms]
    exact h.flying
  · rw [outstanding_received hne]
    exact h.same

/-- A block was read and written into the piece. -/
theorem Serving.piece {i begin : Int} {block : Bytes}
    (h : Serving peer index t₀ d s (.piece i begin block :: ms) t)
    (hready : peer.ready w) (hcarries : Carries torrent (peer.stream w) ms) :
    (0 ≤ begin ∧ begin + block.length ≤ d.piece.length) ∧
      Serving peer index t₀
        { d with
          piece := overwrite 0 d.piece begin.toNat block
          blocksReceived := d.blocksReceived + 1 }
        { s with world := w, trace := .received (.piece i begin block) :: s.trace } ms
        (.received (.piece i begin block) :: t) := by
  have hflying : ((i, begin, (block.length : Int)) :: blocksIn ms).Perm (outstanding t) := h.flying
  have hmem : (i, begin, (block.length : Int)) ∈ outstanding t := hflying.subset List.mem_cons_self
  have hi : i = index := h.same _ hmem
  obtain ⟨h0, hle, hblock⟩ := h.truthful _ List.mem_cons_self
  rw [hi] at hle hblock
  have hin : begin + block.length ≤ d.piece.length := by
    rw [h.assembling.size]
    exact hle
  have hhonest : Honest (peer.content index) (.received (.piece i begin block) :: t) :=
    ⟨hmem, hblock, h.honest⟩
  refine ⟨⟨h0, hin⟩, ⟨h.socket, hready, hcarries,
    fun m' hm' => h.truthful m' (List.mem_cons_of_mem _ hm'), h.unchokes, h.bitfield⟩, ?_, hhonest,
    h.assembling.piece hhonest h0 hin, h.nonneg, ?_, ?_⟩
  · show .received (.piece i begin block) :: s.trace = .received (.piece i begin block) :: t ++ t₀
    rw [h.trace]
    rfl
  · show (blocksIn ms).Perm ((outstanding t).erase (i, begin, (block.length : Int)))
    have herase := hflying.erase (i, begin, (block.length : Int))
    rw [List.erase_cons_head] at herase
    exact herase
  · intro x hx
    exact h.same x (List.mem_of_mem_erase hx)

/-- The bit of a piece of the torrent can be set. -/
theorem Responder.Known.set {bf : Bitfield} (h : peer.Known bf) {i : Int} (h0 : 0 ≤ i)
    (hlt : i < torrent.piecesCount) : ∃ bf', bf.set i true = .ok bf' ∧ peer.Known bf' := by
  have hspans := h.spans
  unfold Bitfield.Spans at hspans
  have hlen : i < bf.len := by
    rw [h.len]
    exact hlt
  obtain ⟨bf', hset⟩ := Bitfield.set_of_byte h0 hlen (by omega)
  obtain ⟨hlen', hsize', _, _⟩ := Bitfield.set_eq_ok hset
  refine ⟨bf', hset, hlen'.trans h.len, ?_, ?_⟩
  · unfold Bitfield.Spans
    omega
  · intro j hj
    have hj0 := (peer.offered j hj).downloadable.nonneg
    exact (Bitfield.bit_set hset hj0).mpr (Or.inl (h.bit j hj))

/-- The `switch` deals with every message of the peer. -/
theorem Serving.handleMessage (h : Serving peer index t₀ d s (m :: ms) t)
    (hready : peer.ready w) (hcarries : Carries torrent (peer.stream w) ms) :
    ∃ d' s', handleMessage d m { s with world := w, trace := .received m :: s.trace }
        = (.ok d', s') ∧ Serving peer index t₀ d' s' ms (.received m :: t) ∧
      d'.blocksRequested = d.blocksRequested := by
  obtain ⟨bf, hbf, hknown⟩ := h.bitfield
  cases m with
  | piece i begin block =>
    obtain ⟨hin, hserving⟩ := h.piece hready hcarries
    refine ⟨_, _, ?_, hserving, rfl⟩
    rw [Download.handleMessage, if_pos hin]
    rfl
  | haveMsg i =>
    obtain ⟨h0, hlt⟩ := h.truthful _ List.mem_cons_self
    obtain ⟨bf', hset, hknown'⟩ := hknown.set h0 hlt
    refine ⟨_, _, ?_, h.received rfl hready hcarries hknown', rfl⟩
    have hbf₁ :
        ({ s with world := w, trace := .received (.haveMsg i) :: s.trace } : State W).bitfield
          = some bf := hbf
    refine (handleMessage_haveMsg hbf₁).trans ?_
    rw [hset]
    rfl
  | _ =>
    have hserving := h.received rfl hready hcarries hknown
    rw [← hbf] at hserving
    exact ⟨_, _, rfl, hserving, rfl⟩

/-- A round of the loop reads one message. -/
theorem Serves.wp_round {bound : Nat} (h : Serves peer index t₀ bound d s)
    (hoffers : peer.offers index)
    (hmore : incomplete (peer.content index).length d = true) :
    (downloadRound env torrent index (peer.content index).length d).wp
      (fun d' s' => ∃ bound' < bound, Serves peer index t₀ bound' d' s') (fun _ _ => False) s := by
  rw [downloadRound, Prog.wp_bind]
  refine Prog.wp_mono (h.wp_fillPipeline hoffers) ?_ (fun _ _ he => he)
  intro d₁ s₁ hfilled
  obtain ⟨⟨ms, t, hserving, hbound⟩, hreceived, hroom⟩ := hfilled
  have hlt : d₁.blocksReceived < blocksTotal (peer.content index).length := by
    rw [hreceived]
    simpa [incomplete] using hmore
  obtain ⟨m, ms', rfl⟩ := hserving.exists_message hlt hroom
  obtain ⟨w, hrecv, hready, hcarries⟩ := hserving.recvMessage
  obtain ⟨d₂, s₂, hhandle, hserving₂, hrequested⟩ := hserving.handleMessage hready hcarries
  rw [List.length_cons] at hbound
  refine Prog.wp_of_ok ((Prog.bind_ok hrecv).trans hhandle)
    ⟨bound - 1, by omega, ms', _, hserving₂, ?_⟩
  rw [hrequested]
  omega

/-- With enough fuel the loop ends, and the piece is complete. -/
theorem Serves.wp_downloadLoop {bound n : Nat} (h : Serves peer index t₀ bound d s)
    (hoffers : peer.offers index) (hn : bound < n) :
    (downloadLoop env torrent index (peer.content index).length n d).wp
      (fun d' s' => d'.piece = peer.content index ∧
        (∃ t, s'.trace = t ++ t₀ ∧ Honest (peer.content index) t) ∧
        ∃ ms, Engaged peer s' ms ∧ blocksIn ms = [] ∧ ms.length ≤ bound)
      (fun _ _ => False) s := by
  rw [downloadLoop_eq_loop]
  apply Prog.wp_loop_variant (I := fun b d s => Serves peer index t₀ b d s ∧ b ≤ bound)
  · intro b d s hI hmore
    refine Prog.wp_mono (hI.1.wp_round hoffers hmore) ?_ (fun _ _ he => he)
    intro d' s' hround
    obtain ⟨b', hb', hserves⟩ := hround
    exact ⟨b', hb', hserves, by omega⟩
  · intro b d s hI hdone
    obtain ⟨⟨ms, t, hserving, hbound⟩, hb⟩ := hI
    have hle : blocksTotal (peer.content index).length ≤ d.blocksReceived := by
      simpa [incomplete] using hdone
    obtain ⟨hempty, hpiece, _⟩ := hserving.assembling.complete hle
    have hflying := hserving.flying
    rw [hempty] at hflying
    exact ⟨hpiece, ⟨t, hserving.trace, hserving.honest⟩, ms, hserving.toEngaged, hflying.eq_nil,
      by omega⟩
  · exact hn
  · exact ⟨h, le_rfl⟩

/-! ### The call -/

variable {fuel : Nat} {task : Piece}

/-- `ensure_connected` succeeds, and `ms` is still to be read. No block is
    among it. -/
def Connects (peer : Responder env torrent) (fuel : Nat) (s : State W) (ms : List Message) : Prop :=
  ∃ s₁, ensureConnected env torrent fuel s = (.ok (), s₁) ∧ Engaged peer s₁ ms ∧ blocksIn ms = []

/-- An open connection is used again. -/
theorem Engaged.connects (h : Engaged peer s ms) (hblocks : blocksIn ms = []) :
    Connects peer fuel s ms := by
  obtain ⟨w, hopen, hready, hstream⟩ := peer.isOpen s.world h.ready
  refine ⟨{ s with world := w }, ?_, ⟨h.socket, hready, ?_, h.truthful, h.unchokes, h.bitfield⟩,
    hblocks⟩
  · have hget : (Prog.get : Run W (State W)) s = (.ok s, s) := rfl
    have hcall : call env.isOpen s = (.ok true, { s with world := w }) := by
      rw [call, hopen]
    rw [ensureConnected, Prog.bind_ok hget, if_pos h.socket, Prog.bind_ok hcall]
    rfl
  · show Carries torrent (peer.stream w) ms
    rw [hstream]
    exact h.carries

theorem noteUnchoke_ok (m : Message) (s : State W) :
    noteUnchoke m s
      = (.ok (), { s with choked := if m = .unchoke then false else s.choked }) := by
  unfold noteUnchoke
  by_cases hm : m = .unchoke
  · rw [if_pos hm, if_pos hm]
    rfl
  · rw [if_neg hm, if_neg hm]
    rfl

theorem chokes_true (m : Message) : m.chokes true = if m = .unchoke then false else true := by
  cases m with
  | unchoke => rfl
  | _ => rfl

/-- One message is read while waiting for an unchoke message. -/
theorem Engaged.waitRound (h : Engaged peer s (m :: ms)) (hchoked : s.choked = true) :
    ∃ s', waitRound env torrent () s = (.ok (), s') ∧ Engaged peer s' ms := by
  obtain ⟨w, hrecv, hready, hcarries⟩ := h.recvMessage
  have hunchokes : chokedAfter (if m = .unchoke then false else s.choked) ms = false := by
    have hcons : chokedAfter (m.chokes s.choked) ms = false := h.unchokes
    rw [hchoked, chokes_true] at hcons
    rw [hchoked]
    exact hcons
  exact ⟨_, (Prog.bind_ok hrecv).trans (noteUnchoke_ok m _), h.socket, hready, hcarries,
    fun m' hm' => h.truthful m' (List.mem_cons_of_mem m hm'), hunchokes, h.bitfield⟩

/-- Waiting for the first unchoke message. -/
theorem Engaged.wp_waitUnchoke {n : Nat} (h : Engaged peer s ms) (hblocks : blocksIn ms = [])
    (hn : ms.length < n) :
    (waitUnchoke env torrent n).wp
      (fun _ s' => ∃ ms', Engaged peer s' ms' ∧ blocksIn ms' = [] ∧ ms'.length ≤ ms.length)
      (fun _ _ => False) s := by
  rw [waitUnchoke_eq_loop]
  apply Prog.wp_loop_variant
    (I := fun b _ s => ∃ ms', Engaged peer s ms' ∧ ms'.length = b ∧ ms' <:+ ms)
  · intro b _ s hI hchoked
    obtain ⟨ms', h, hlength, hsuffix⟩ := hI
    cases ms' with
    | nil =>
      -- Somebody who is choked is going to be unchoked.
      have hunchokes : s.choked = false := h.unchokes
      rw [hunchokes] at hchoked
      cases hchoked
    | cons m ms' =>
      obtain ⟨s', hrun, hengaged⟩ := h.waitRound hchoked
      rw [List.length_cons] at hlength
      exact Prog.wp_of_ok hrun
        ⟨ms'.length, by omega, ms', hengaged, rfl, (List.suffix_cons m ms').trans hsuffix⟩
  · intro b _ s hI _
    obtain ⟨ms', h, _, hsuffix⟩ := hI
    have hnone := (hsuffix.filterMap Message.blockOf).length_le
    have hzero : (blocksIn ms).length = 0 := by rw [hblocks]; rfl
    exact ⟨ms', h, List.length_eq_zero_iff.mp (Nat.le_zero.mp (hnone.trans hzero.le)),
      hsuffix.length_le⟩
  · exact hn
  · exact ⟨ms, h, rfl, List.suffix_rfl⟩

/-- A new connection, once the peer has been greeted. -/
theorem Engaged.connects_of_greet {s₁ : State W} (hsocket : s.socket = false)
    (hgreet : greet env torrent s = (.ok (), s₁)) (h : Engaged peer s₁ ms)
    (hblocks : blocksIn ms = []) (hfuel : ms.length < fuel) :
    ∃ ms', Connects peer fuel s ms' ∧ ms'.length ≤ ms.length := by
  have hget : (Prog.get : Run W (State W)) s = (.ok s, s) := rfl
  have hconnect : ensureConnected env torrent fuel s = waitUnchoke env torrent fuel s₁ := by
    rw [ensureConnected, Prog.bind_ok hget, hsocket, if_neg (by simp), establish_eq,
      Prog.bind_ok hgreet]
  have hwait := h.wp_waitUnchoke hblocks hfuel
  rw [Prog.wp] at hwait
  split at hwait
  · next hrun =>
    obtain ⟨ms', hengaged, hblocks', hle⟩ := hwait
    exact ⟨ms', ⟨_, hconnect.trans hrun, hengaged, hblocks'⟩, hle⟩
  · exact hwait.elim

/-- The loop of a call ends, honestly, with the whole piece and no block left
    behind. -/
structure Completed (peer : Responder env torrent) (fuel : Nat) (task : Piece) (bound : Nat)
    (s s₁ : State W) (d : Progress) (s₂ : State W) : Prop where
  enters : Enters env torrent fuel task s s₁
  loop : downloadLoop env torrent task.index (pieceLength torrent task.index) fuel
    (startProgress torrent task.index) s₁ = (.ok d, s₂)
  piece : d.piece = peer.content task.index
  honest : ∃ t, s₂.trace = t ++ s₁.trace ∧ Honest (peer.content task.index) t
  engaged : ∃ ms, Engaged peer s₂ ms ∧ blocksIn ms = [] ∧ ms.length ≤ bound

theorem Connects.completed {ms : List Message} (h : Connects peer fuel s ms)
    (hoffers : peer.offers task.index)
    (hfuel : ms.length + peer.noise * (blocksTotal (pieceLength torrent task.index)).toNat < fuel) :
    ∃ s₁ d s₂, Completed peer fuel task
      (ms.length + peer.noise * (blocksTotal (pieceLength torrent task.index)).toNat)
      s s₁ d s₂ := by
  obtain ⟨s₁, hconn, hengaged, hblocks⟩ := h
  have hoffered := peer.offered task.index hoffers
  have hd := hoffered.downloadable
  have hlength := hoffered.length_eq
  have hstart : Serves peer task.index s₁.trace
      (ms.length + peer.noise * (blocksTotal (peer.content task.index).length).toNat)
      ⟨List.replicate (peer.content task.index).length 0, 0, 0⟩ s₁ := by
    refine ⟨ms, [], ⟨hengaged, rfl, trivial, assembling_start task.index, le_rfl, ?_, ?_⟩, ?_⟩
    · rw [hblocks]
      exact List.Perm.nil
    · intro x hx
      exact absurd hx List.not_mem_nil
    · simp
  have hhas : hasPiece env task.index s₁ = (.ok true, s₁) := by
    obtain ⟨bf, hbf, hknown⟩ := hengaged.bitfield
    have hlt : task.index < bf.len := by
      rw [hknown.len]
      exact hd.lt_count
    have hget : (Prog.get : Run W (State W)) s₁ = (.ok s₁, s₁) := rfl
    rw [hasPiece, Prog.bind_ok hget]
    simp only [hbf]
    rw [Bitfield.get_of_spans hknown.spans _ hd.nonneg hlt, hknown.bit task.index hoffers]
    rfl
  rw [hlength] at hfuel ⊢
  have hloop := hstart.wp_downloadLoop hoffers hfuel
  rw [Prog.wp] at hloop
  split at hloop
  · next d s₂ hrun =>
    obtain ⟨hpiece, hhonest, hleft⟩ := hloop
    refine ⟨s₁, d, s₂, ⟨hd.nonneg, hd.lt_count, hconn, hhas, hd.length_pos⟩, ?_, hpiece, hhonest,
      hleft⟩
    rw [startProgress, hlength, Int.toNat_natCast]
    exact hrun
  · exact hloop.elim

/-- What is left of the call is to verify the piece. -/
theorem Completed.tryDownload_eq {bound : Nat} {s₁ s₂ : State W}
    (h : Completed peer fuel task bound s s₁ d s₂) :
    tryDownload env torrent fuel task s
      = finishPiece env torrent task.index (peer.content task.index) s₂ := by
  rw [h.enters.tryDownload_eq, Prog.bind_ok h.loop, h.piece]

/-- A call returns a piece that can be hashed, and leaves no block behind. -/
theorem Connects.tryDownload {ms : List Message} (h : Connects peer fuel s ms)
    (hoffers : peer.offers task.index) (hsmall : pieceLength torrent task.index < 2 ^ 29)
    (hfuel : ms.length + peer.noise * (blocksTotal (pieceLength torrent task.index)).toNat < fuel) :
    ∃ s' ms', tryDownload env torrent fuel task s
        = (.ok ⟨task.index, peer.content task.index⟩, s') ∧
      Engaged peer s' ms' ∧ blocksIn ms' = [] ∧
      ms'.length ≤ ms.length
        + peer.noise * (blocksTotal (pieceLength torrent task.index)).toNat := by
  obtain ⟨s₁, d, s₂, hcompleted⟩ := h.completed hoffers hfuel
  obtain ⟨ms', hengaged, hblocks, hle⟩ := hcompleted.engaged
  have hoffered := peer.offered task.index hoffers
  have hlength := hoffered.length_eq
  refine ⟨s₂, ms', ?_, hengaged, hblocks, hle⟩
  rw [hcompleted.tryDownload_eq]
  exact (finishPiece_ok_iff hoffered.hash_eq).mpr (by omega)

/-! ### Many calls -/

/-- Calls of `try_download` one after the other. -/
def tryDownloads (env : Env W) (torrent : TorrentFile) (fuel : Nat) :
    List Piece → Run W (List Downloaded)
  | [] => pure []
  | task :: tasks => do
    let downloaded ← tryDownload env torrent fuel task
    let rest ← tryDownloads env torrent fuel tasks
    pure (downloaded :: rest)

/-- How many blocks there are in the pieces. -/
def blocksOf (torrent : TorrentFile) (tasks : List Piece) : Nat :=
  (tasks.map fun task => (blocksTotal (pieceLength torrent task.index)).toNat).sum

theorem Connects.tryDownloads {tasks : List Piece} (h : Connects peer fuel s ms)
    (hoffers : ∀ task ∈ tasks, peer.offers task.index)
    (hsmall : ∀ task ∈ tasks, pieceLength torrent task.index < 2 ^ 29)
    (hfuel : ms.length + peer.noise * blocksOf torrent tasks < fuel) :
    ∃ s', tryDownloads env torrent fuel tasks s
      = (.ok (tasks.map fun task => ⟨task.index, peer.content task.index⟩), s') := by
  induction tasks generalizing s ms with
  | nil => exact ⟨s, rfl⟩
  | cons task tasks ih =>
    have hcons : blocksOf torrent (task :: tasks)
        = (blocksTotal (pieceLength torrent task.index)).toNat + blocksOf torrent tasks := by
      simp [blocksOf]
    rw [hcons, Nat.mul_add] at hfuel
    obtain ⟨s₁, ms₁, hcall, hengaged, hblocks, hle⟩ :=
      h.tryDownload (hoffers task (by simp)) (hsmall task (by simp)) (by omega)
    obtain ⟨s', hrest⟩ := ih (hengaged.connects hblocks)
      (fun task' htask' => hoffers task' (by simp [htask']))
      (fun task' htask' => hsmall task' (by simp [htask'])) (by omega)
    refine ⟨s', ?_⟩
    rw [Download.tryDownloads, Prog.bind_ok hcall, Prog.bind_ok hrest]
    rfl

/-- A downloader that greets a peer that answers gets every piece below
    `2 ^ 29` bytes that the peer has, call after call on one connection, in
    any order and as often as it asks. Nothing is left out: no call fails,
    runs out of fuel or returns other bytes. -/
theorem tryDownloads_responder (peer : Responder env torrent) {tasks : List Piece} {s₁ : State W}
    (hsocket : s.socket = false) (hgreet : greet env torrent s = (.ok (), s₁))
    (hengaged : Engaged peer s₁ ms) (hblocks : blocksIn ms = [])
    (hoffers : ∀ task ∈ tasks, peer.offers task.index)
    (hsmall : ∀ task ∈ tasks, pieceLength torrent task.index < 2 ^ 29)
    (hfuel : ms.length + peer.noise * blocksOf torrent tasks < fuel) :
    ∃ s', tryDownloads env torrent fuel tasks s
      = (.ok (tasks.map fun task => ⟨task.index, peer.content task.index⟩), s') := by
  have hlt : ms.length < fuel := by omega
  obtain ⟨ms', hconnects, hle⟩ := hengaged.connects_of_greet hsocket hgreet hblocks hlt
  exact hconnects.tryDownloads hoffers hsmall (by omega)

/-! ### Pieces that are too long

    `verify_piece` lets a piece through that `sha1::calc` cannot take. -/

/-- A longer piece is downloaded, and then the call ends in undefined
    behaviour. -/
theorem Completed.tryDownload_long {bound : Nat} {s₁ s₂ : State W}
    (h : Completed peer fuel task bound s s₁ d s₂) (hoffers : peer.offers task.index)
    (hlong : 2 ^ 29 ≤ pieceLength torrent task.index) :
    tryDownload env torrent fuel task s = (.error .trap, s₂) := by
  have hoffered := peer.offered task.index hoffers
  have hlength := hoffered.length_eq
  have hle := hoffered.downloadable.length_le
  have hmax : Torrent.INT_MAX = 2147483647 := rfl
  have hverify : verifyPiece env (peer.content task.index) (env.sha1 (peer.content task.index))
      = .error .trap := by
    rw [verifyPiece, if_neg (by omega), Torrent.calcSha1, if_neg (by omega)]
    rfl
  rw [h.tryDownload_eq, finishPiece, hoffered.hash_eq]
  simp only [hverify]
  rfl

/-- A torrent of one piece. -/
def onePiece (R : Bytes) : TorrentFile where
  pieceHashes := [Sha1.sha1 R]
  pieceLength := R.length
  length := R.length
  piecesCount := 1

/-- What a peer that has the piece writes back. -/
def prompt (R bytes : Bytes) : Bytes :=
  match Message.decode (onePiece R) bytes with
  | .ok (.request index begin length) =>
    match (Message.piece index begin ((R.drop begin.toNat).take length.toNat)).encode with
    | .ok answer => answer
    | .error _ => []
  | _ => []

/-- The unread bytes, and a peer that answers every request at once. -/
def promptEnv (R : Bytes) : Env Bytes where
  connect w := (.ok (), w)
  isOpen w := (true, w)
  write bytes w := (.ok (), w ++ prompt R bytes)
  read := listEnv.read
  close := id
  beyond _ _ := none
  sha1 := Sha1.sha1

section

variable {R : Bytes}

theorem onePiece_length : pieceLength (onePiece R) 0 = R.length := by
  simp [pieceLength, onePiece]

theorem onePiece_offered (hpos : 1 ≤ R.length) (hmax : R.length ≤ 2147483647) :
    Offered (promptEnv R) (onePiece R) 0 R where
  downloadable := ⟨le_rfl, Int.one_pos, by decide, by rw [onePiece_length]; omega,
    by rw [onePiece_length]; omega⟩
  length_eq := onePiece_length
  hash_eq := rfl

/-- Block `k` of the piece. -/
def blockAt (R : Bytes) (k : Int) : Bytes :=
  (R.drop (blockOffset k).toNat).take (blockLength R.length k).toNat

theorem length_blockAt {k : Int} (h0 : 0 ≤ k) (hlt : k < blocksTotal R.length) :
    ((blockAt R k).length : Int) = blockLength R.length k := by
  obtain ⟨hoffset, hlength, hinside⟩ := block_inside h0 hlt
  rw [blockAt, List.length_take, List.length_drop]
  omega

/-- A request is answered by its block. -/
theorem prompt_request {k : Int} {bytes : Bytes} (hmax : R.length ≤ 2147483647) (h0 : 0 ≤ k)
    (hlt : k < blocksTotal R.length)
    (hencode : (Message.request 0 (blockOffset k) (blockLength R.length k)).encode = .ok bytes) :
    ∃ body, prompt R bytes = frame body ∧ body.length < 2 ^ 32 ∧
      Message.decode (onePiece R) (frame body) = .ok (.piece 0 (blockOffset k)
        (blockAt R k)) := by
  obtain ⟨hoffset, hlength, hinside⟩ := block_inside h0 hlt
  have hrequest : (Message.request 0 (blockOffset k) (blockLength R.length k)).Encodable
      (onePiece R) := ⟨by decide, ⟨hoffset, by omega⟩, by omega, by omega⟩
  obtain ⟨body', hbytes, _, hdecode⟩ := Message.decode_encode hrequest
  rw [hencode] at hbytes
  injection hbytes with hbytes
  have hpiece : (Message.piece 0 (blockOffset k) (blockAt R k)).Encodable (onePiece R) := by
    have hblock := length_blockAt h0 hlt
    exact ⟨by decide, ⟨hoffset, by omega⟩, by omega⟩
  obtain ⟨body, hanswer, hbody, hdecode'⟩ := Message.decode_encode hpiece
  refine ⟨body, ?_, hbody, hdecode'⟩
  rw [blockAt] at hanswer
  rw [prompt, hbytes, hdecode]
  simp only [hanswer]

/-- The peer that answers at once. -/
def promptPeer (hpos : 1 ≤ R.length) (hmax : R.length ≤ 2147483647) :
    Responder (promptEnv R) (onePiece R) where
  content _ := R
  offers index := index = 0
  noise := 1
  ready _ := True
  stream := id
  offered := by
    rintro index rfl
    exact onePiece_offered hpos hmax
  streams := listEnv_streams
  ready_read _ _ _ := trivial
  isOpen w _ := ⟨w, rfl, trivial, rfl⟩
  request := by
    rintro w ms index k bytes _ hcarries rfl h0 hlt hencode
    obtain ⟨body, hprompt, hbody, hdecode⟩ := prompt_request hmax h0 hlt hencode
    obtain ⟨hoffset, hlength, hinside⟩ := block_inside h0 hlt
    have hblock := length_blockAt h0 hlt
    refine ⟨w ++ prompt R bytes, ms ++ [.piece 0 (blockOffset k) (blockAt R k)], rfl, trivial,
      ?_, ?_⟩
    · rw [hprompt]
      have hnil : Carries (onePiece R) (frame body ++ [])
          [.piece 0 (blockOffset k) (blockAt R k)] := .cons hbody hdecode .nil
      rw [List.append_nil] at hnil
      exact hcarries.append hnil
    · constructor
      · have hone : blocksIn [.piece 0 (blockOffset k) (blockAt R k)]
            = [(0, blockOffset k, blockLength R.length k)] := by
          simp only [blocksIn, List.filterMap_cons, List.filterMap_nil, Message.blockOf, hblock]
        rw [blocksIn_append, hone]
        exact List.perm_append_comm
      · intro m hm
        rcases List.mem_append.mp hm with hold | hnew
        · exact Or.inl hold
        · rw [List.mem_singleton.mp hnew]
          have hle : blockOffset k + (blockAt R k).length ≤ R.length := by omega
          refine Or.inr ⟨hoffset, hle, ?_⟩
          have hnat : (blockAt R k).length = (blockLength R.length k).toNat := by omega
          rw [hnat]
          rfl
      · intro choked hms
        rw [chokedAfter_append, hms]
        rfl
      · rw [List.length_append, List.length_singleton]

/-- Once greeted, the peer lets go at once. -/
theorem greet_prompt :
    greet (promptEnv R) (onePiece R) { world := announces 128 }
      = (.ok (), greeted [0, 0, 0, 1, 1] [] (List.replicate 68 0) ⟨[128], 1⟩) := by
  have hreset : (Prog.modify fun s => { s with socket := true, choked := true } : Run Bytes Unit)
      { world := announces 128 } = (.ok (), { world := announces 128, socket := true }) := rfl
  have hconnect : useSocket (promptEnv R) (promptEnv R).connect
      { world := announces 128, socket := true }
        = (.ok (), { world := announces 128, socket := true }) := rfl
  have hrecord : (record .connected : Run Bytes Unit) { world := announces 128, socket := true }
      = (.ok (), { world := announces 128, socket := true, trace := [.connected] }) := rfl
  have hshake : handshake (promptEnv R) (onePiece R)
      { world := announces 128, socket := true, trace := [.connected] }
        = (.ok (), { world := [0, 0, 0, 2, 5, 128] ++ [0, 0, 0, 1, 1], socket := true
                     trace := [.handshake (List.replicate 68 0), .connected] }) := rfl
  have hrecv : recvMessage (promptEnv R) (onePiece R)
      { world := [0, 0, 0, 2, 5, 128] ++ [0, 0, 0, 1, 1], socket := true
        trace := [.handshake (List.replicate 68 0), .connected] }
        = (.ok (.bitfield ⟨[128], 1⟩), { world := [0, 0, 0, 1, 1], socket := true
                                         trace := [.received (.bitfield ⟨[128], 1⟩),
                                           .handshake (List.replicate 68 0), .connected] }) := rfl
  rw [greet, Prog.bind_ok hreset, Prog.bind_ok hconnect, Prog.bind_ok hrecord, Prog.bind_ok hshake,
    Prog.bind_ok hrecv]
  rfl

theorem greeted_prompt (hpos : 1 ≤ R.length) (hmax : R.length ≤ 2147483647) :
    Engaged (promptPeer hpos hmax) (greeted [0, 0, 0, 1, 1] [] (List.replicate 68 0) ⟨[128], 1⟩)
      [.unchoke] where
  socket := rfl
  ready := trivial
  carries := (.cons (by decide) rfl .nil : Carries _ (frame [1] ++ []) _)
  truthful m hm := by
    rw [List.mem_singleton.mp hm]
    trivial
  unchokes := rfl
  bitfield := by
    refine ⟨⟨[128], 1⟩, rfl, rfl, by unfold Bitfield.Spans; decide, ?_⟩
    rintro i rfl
    decide

/-- A piece of `2 ^ 29` bytes or more, up to `INT_MAX`, from a peer that
    answers every request at once with the right bytes: the loop ends with the
    whole piece, and the call does not return it. -/
theorem tryDownload_prompt_long (hlong : 2 ^ 29 ≤ R.length) (hmax : R.length ≤ 2147483647) :
    ∃ fuel s₁ d s₂ t, Enters (promptEnv R) (onePiece R) fuel ⟨0, []⟩ { world := announces 128 } s₁ ∧
      downloadLoop (promptEnv R) (onePiece R) 0 R.length fuel (startProgress (onePiece R) 0) s₁
        = (.ok d, s₂) ∧
      s₂.trace = t ++ s₁.trace ∧ Honest R t ∧ d.piece = R ∧
      tryDownload (promptEnv R) (onePiece R) fuel ⟨0, []⟩ { world := announces 128 }
        = (.error .trap, s₂) := by
  set fuel := (blocksTotal R.length).toNat + 2 with hfuel
  have hpos : 1 ≤ R.length := by omega
  obtain ⟨ms, hconnects, hle⟩ : ∃ ms, Connects (promptPeer hpos hmax) fuel
      { world := announces 128 } ms ∧ ms.length ≤ 1 :=
    (greeted_prompt hpos hmax).connects_of_greet rfl greet_prompt rfl (by show 1 < fuel; omega)
  have hoffers : (promptPeer hpos hmax).offers 0 := rfl
  have hbound : ms.length + 1 * (blocksTotal (pieceLength (onePiece R) 0)).toNat < fuel := by
    rw [onePiece_length]
    omega
  obtain ⟨s₁, d, s₂, hcompleted⟩ : ∃ s₁ d s₂, Completed (promptPeer hpos hmax) fuel ⟨0, []⟩ _ _
      s₁ d s₂ := hconnects.completed hoffers hbound
  obtain ⟨t, htrace, hhonest⟩ := hcompleted.honest
  have hloop := hcompleted.loop
  rw [onePiece_length] at hloop
  exact ⟨fuel, s₁, d, s₂, t, hcompleted.enters, hloop, htrace, hhonest, hcompleted.piece,
    hcompleted.tryDownload_long hoffers (by rw [onePiece_length]; omega)⟩

/-- Half a gigabyte of zeros. -/
theorem tryDownload_half_gigabyte :
    ∃ fuel s₁ d s₂ t, Enters (promptEnv (List.replicate (2 ^ 29) 0))
        (onePiece (List.replicate (2 ^ 29) 0)) fuel ⟨0, []⟩ { world := announces 128 } s₁ ∧
      downloadLoop (promptEnv (List.replicate (2 ^ 29) 0)) (onePiece (List.replicate (2 ^ 29) 0)) 0
        (2 ^ 29) fuel (startProgress (onePiece (List.replicate (2 ^ 29) 0)) 0) s₁ = (.ok d, s₂) ∧
      s₂.trace = t ++ s₁.trace ∧ Honest (List.replicate (2 ^ 29) 0) t ∧
      d.piece = List.replicate (2 ^ 29) 0 ∧
      tryDownload (promptEnv (List.replicate (2 ^ 29) 0)) (onePiece (List.replicate (2 ^ 29) 0))
        fuel ⟨0, []⟩ { world := announces 128 } = (.error .trap, s₂) := by
  have hlength : (List.replicate (2 ^ 29) (0 : UInt8)).length = 2 ^ 29 := List.length_replicate
  have h := tryDownload_prompt_long (R := List.replicate (2 ^ 29) 0) (by omega) (by omega)
  rw [hlength] at h
  exact_mod_cast h

end

end Furrent.Download
