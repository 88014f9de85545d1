import Furrent.Faker.Seeding

/-! # What the seeder asserts

    The seeder checks what it receives: the two messages of
    `ensure_connected`, the length and the id of a request, and that the
    piece is one it has announced. None of these assertions ever fails,
    whatever the seeder draws (a wrong info hash, no bitfield, bad
    messages, corrupt blocks, dropped and hanging connections) and however
    often and for which pieces `try_download` is called.

    What the downloader believes the seeder to have, it has been told; what
    it has been told is true, and stays true. -/

namespace Furrent.Faker

open Cpp Numeral Assembly Download Message

variable {fixture : Bytes} {c : Choices} {torrent : TorrentFile} {s : Seeder} {bytes : Bytes}
  {index begin length : Int} {P P' : Message → Prop}

/-! ### Frames -/

/-- The bytes are frames, and `P` holds of the messages in those that can be
    decoded. -/
inductive Frames (torrent : TorrentFile) (P : Message → Prop) : Bytes → Prop where
  | nil : Frames torrent P []
  | cons {body rest : Bytes} (hlen : body.length < 2 ^ 32)
      (hdecode : ∀ m, decode torrent (frame body) = .ok m → P m) (hrest : Frames torrent P rest) :
      Frames torrent P (frame body ++ rest)

theorem Frames.append {bytes' : Bytes} (h : Frames torrent P bytes) (h' : Frames torrent P bytes') :
    Frames torrent P (bytes ++ bytes') := by
  induction h with
  | nil => exact h'
  | cons hlen hdecode _ ih =>
    rw [List.append_assoc]
    exact .cons hlen hdecode ih

theorem Frames.mono (h : Frames torrent P bytes) (hP : ∀ m, P m → P' m) :
    Frames torrent P' bytes := by
  induction h with
  | nil => exact .nil
  | cons hlen hdecode _ ih => exact .cons hlen (fun m hm => hP m (hdecode m hm)) ih

theorem frames_of_carries {ms : List Message} (h : Carries torrent bytes ms)
    (hP : ∀ m ∈ ms, P m) : Frames torrent P bytes := by
  induction h with
  | nil => exact .nil
  | @cons body rest m ms hlen hdecode _ ih =>
    refine .cons hlen ?_ (ih fun m' hm' => hP m' (List.mem_cons_of_mem m hm'))
    intro m' hm'
    rw [hdecode] at hm'
    injection hm' with hm'
    rw [← hm']
    exact hP m List.mem_cons_self

theorem frames_ite (b : Bool) (h : Frames torrent P bytes) :
    Frames torrent P (if b then bytes else []) := by
  cases b with
  | true => exact h
  | false => exact .nil

/-! ### What the seeder says -/

/-- What a message says about the pieces of the seeder is true. -/
def Told (bitfield : UInt8) : Message → Prop
  | .haveMsg i => bitfieldHas bitfield i = true
  | .bitfield bf => ∀ i, 0 ≤ i → bf.bit i = true → bitfieldHas bitfield i = true
  | _ => True

theorem Told.mono {b b' : UInt8} (h : ∀ i, bitfieldHas b i = true → bitfieldHas b' i = true)
    {m : Message} (hm : Told b m) : Told b' m := by
  cases m with
  | haveMsg i => exact h i hm
  | bitfield bf => exact fun i h0 hi => h i (hm i h0 hi)
  | _ => trivial

/-- The seeder waits for a request, or has left. -/
def Control.Serves (control : Control) (input : Bytes) : Prop :=
  control = .request ∧ input = [] ∨ control = .closed ∨ control = .hung

/-- The seeder in the loop of `handle`. -/
structure Seeder.Serving (torrent : TorrentFile) (s : Seeder) : Prop where
  control : s.control.Serves s.input
  output : Frames torrent (Told s.bitfield) s.output

theorem Control.Serves.ne_failed {control : Control} {input : Bytes} (h : control.Serves input) :
    control ≠ .failed := by
  rcases h with ⟨rfl, _⟩ | rfl | rfl <;> simp

theorem bit_bitfield {b : UInt8} {len i : Int} (h0 : 0 ≤ i)
    (h : (⟨[b], len⟩ : Bitfield).bit i = true) : bitfieldHas b i = true := by
  by_cases hlt : i < 8
  · exact (bit_singleton h0 hlt).mp h
  · have hnone : [b][(i / 8).toNat]? = none := List.getElem?_eq_none (by simp; omega)
    rw [Bitfield.bit, hnone] at h
    cases h

theorem frames_frame {id : UInt8} {payload : Bytes} (hlen : payload.length + 1 < 2 ^ 32)
    (h : ∀ m, decodeBody torrent id payload = .ok m → P m) :
    Frames torrent P (frame (id :: payload)) := by
  have hframes : Frames torrent P (frame (id :: payload) ++ []) := by
    refine .cons hlen ?_ .nil
    intro m hm
    rw [decode_frame_cons] at hm
    exact h m hm
  rw [List.append_nil] at hframes
  exact hframes

/-- The four kinds of messages without a payload say nothing. -/
theorem frames_signal {b : UInt8} (id : UInt8) (payload : Bytes) (hid : id < 4)
    (hlen : payload.length + 1 < 2 ^ 32) : Frames torrent (Told b) (frame (id :: payload)) := by
  refine frames_frame hlen ?_
  intro m hm
  rw [decodeBody, if_pos hid] at hm
  split at hm
  · injection hm with hm
    rw [← hm]
    trivial
  · split at hm
    · injection hm with hm
      rw [← hm]
      trivial
    · split at hm <;> injection hm with hm <;> rw [← hm] <;> trivial

/-- What is sent behind the handshake is true. -/
theorem frames_greeting :
    Frames torrent (Told (randomBitfieldFresh c.picks)) (Seeder.greeting c) := by
  set b := randomBitfieldFresh c.picks with hb
  have hgreeting : Seeder.greeting c = (if c.sendsBitfield then frame [5, b] else [])
      ++ if c.unchokes then if c.badUnchoke then frame [1, 5] else frame [1] else [] := by
    simp [Seeder.greeting, frame, bigEndian, hb]
  have hbitfield : Frames torrent (Told b) (frame [5, b]) := by
    refine frames_frame (by simp) ?_
    intro m hm
    injection hm with hm
    rw [← hm]
    exact fun i h0 hi => bit_bitfield h0 hi
  rw [hgreeting]
  refine (frames_ite _ hbitfield).append (frames_ite _ ?_)
  split
  · exact frames_signal 1 [5] (by decide) (by simp)
  · exact frames_signal 1 [] (by decide) (by simp)

/-! ### What the seeder answers -/

theorem bitfieldHas_bitOf (i : Fin N_PIECES) : bitfieldHas (bitOf i) i = true := by
  revert i
  decide

theorem output_acquire (t : Turn) (h : Frames torrent (Told s.bitfield) s.output) :
    Frames torrent (Told (s.acquire t).bitfield) (s.acquire t).output := by
  unfold Seeder.acquire
  split
  · exact h
  · refine (h.mono fun m => Told.mono fun i hi => bitfieldHas_or.mpr (Or.inl hi)).append ?_
    have hnew : bitfieldHas (s.bitfield ||| bitOf t.acquires) t.acquires = true :=
      bitfieldHas_or.mpr (Or.inr (bitfieldHas_bitOf t.acquires))
    split
    · -- Five bytes are too many for a `Have`.
      have hlen : (packInt t.acquires).length = 4 := length_bigEndian 4 _
      obtain ⟨b₀, b₁, b₂, b₃, hpack⟩ := exists_four hlen
      have hbad : [0, 0, 0, 6, 4] ++ packInt t.acquires ++ [0] =
          frame (4 :: [b₀, b₁, b₂, b₃, 0]) := by
        rw [hpack]
        simp [frame, bigEndian]
      rw [hbad]
      refine frames_frame (by simp) ?_
      intro m hm
      cases hm
    · refine frames_of_carries (carries_have t) ?_
      intro m hm
      rw [List.mem_singleton.mp hm]
      exact hnew

theorem frames_chatter (b : UInt8) (t : Turn) : Frames torrent (Told b) (Seeder.chatter t) := by
  refine frames_of_carries (carries_chatter t) ?_
  intro m hm
  simp only [chatterMessages, List.mem_append] at hm
  rcases hm with (hka | hint) | hni
  · rw [eq_of_mem_ite hka]
    trivial
  · rw [eq_of_mem_ite hint]
    trivial
  · rw [eq_of_mem_ite hni]
    trivial

@[simp] theorem bitfield_endTurn (t : Turn) : (s.endTurn c t).bitfield = s.bitfield := by
  unfold Seeder.endTurn
  split
  · split <;> rfl
  · rfl

theorem serves_nextTurn (h : s.input = []) :
    (s.nextTurn c).control.Serves (s.nextTurn c).input := by
  unfold Seeder.nextTurn
  split
  · exact Or.inr (Or.inl rfl)
  · exact Or.inl ⟨rfl, h⟩

/-- A round ends in front of the next request, or the seeder leaves. -/
theorem serving_endTurn (t : Turn) (hinput : s.input = [])
    (h : Frames torrent (Told s.bitfield) s.output) : (s.endTurn c t).Serving torrent := by
  have hchoke : Frames torrent (Told s.bitfield) [0, 0, 0, 1, 0] :=
    frames_signal 0 [] (by decide) (by simp)
  have hunchoke : Frames torrent (Told s.bitfield) [0, 0, 0, 1, 1] :=
    frames_signal 1 [] (by decide) (by simp)
  unfold Seeder.endTurn
  dsimp only
  split
  · split
    · exact ⟨Or.inr (Or.inr rfl), h.append hchoke⟩
    · exact ⟨serves_nextTurn hinput, (h.append hchoke).append hunchoke⟩
  · exact ⟨serves_nextTurn hinput, h⟩

theorem corrupt_eq_some (t : Turn) {payload : Bytes} (hpos : 0 < length)
    (hlen : payload.length = length.toNat) :
    ∃ payload', Seeder.corrupt t length payload = some payload' ∧
      payload'.length = payload.length := by
  unfold Seeder.corrupt
  split
  · exact ⟨payload, rfl, rfl⟩
  · next i b _ =>
    have hlt : i % length.toNat < payload.length := by
      rw [hlen]
      exact Nat.mod_lt _ (by omega)
    rw [if_pos ⟨hpos, hlt⟩]
    exact ⟨_, rfl, List.length_set⟩

/-- A request for a block of a piece the seeder has is answered. -/
theorem serving_serve (h : s.Serving torrent) (hinput : s.input = []) {payload : Bytes}
    (hread : readFixture fixture index begin length = some payload) (hpos : 0 < length)
    (hlen : payload.length = length.toNat) (hi : 0 ≤ index ∧ index < 2 ^ 32)
    (hb : 0 ≤ begin ∧ begin < 2 ^ 32) (hp : payload.length + 9 < 2 ^ 32) :
    (s.serve fixture c index begin length).Serving torrent ∧
      ∀ i, bitfieldHas s.bitfield i = true →
        bitfieldHas (s.serve fixture c index begin length).bitfield i = true := by
  obtain ⟨payload', hcorrupt, hlen'⟩ := corrupt_eq_some (c.turns s.turn) hpos hlen
  have hserve : s.serve fixture c index begin length
      = (((s.send (Seeder.blockMessage index begin payload')).acquire (c.turns s.turn)).send
          (Seeder.chatter (c.turns s.turn))).endTurn c (c.turns s.turn) := by
    rw [Seeder.serve]
    simp only [hread, Option.bind_some, hcorrupt]
  have hblock : Frames torrent (Told s.bitfield) (Seeder.blockMessage index begin payload') := by
    refine frames_of_carries (carries_blockMessage hi hb (by omega)) ?_
    intro m hm
    rw [List.mem_singleton.mp hm]
    trivial
  have hacquire := output_acquire (s := s.send (Seeder.blockMessage index begin payload'))
    (c.turns s.turn) (h.output.append hblock)
  rw [hserve]
  constructor
  · refine serving_endTurn _ ?_ (hacquire.append (frames_chatter _ _))
    simp [hinput]
  · intro i hhas
    rw [bitfield_endTurn]
    exact bitfieldHas_acquire (s := s.send (Seeder.blockMessage index begin payload')) hhas

/-! ### The downloader -/

variable {choices : Nat → Choices} {sha1 : Bytes → Bytes} {d : Download.State Server}
  {Q : Message → Download.State Server → Prop}
  {E : Stop DownloaderError → Download.State Server → Prop}

/-- On a connection. The downloader believes what it has been told. -/
structure Conforms (torrent : TorrentFile) (d : Download.State Server) : Prop where
  serving : d.world.seeder.Serving torrent
  bits : ∀ bf, d.bitfield = some bf → ∀ i, 0 ≤ i → bf.bit i = true →
    bitfieldHas d.world.seeder.bitfield i = true

/-- Between two calls. -/
structure Sound (torrent : TorrentFile) (d : Download.State Server) : Prop where
  ne_failed : d.world.seeder.control ≠ .failed
  conforms : d.socket = true → Conforms torrent d

theorem Conforms.sound (h : Conforms torrent d) : Sound torrent d :=
  ⟨h.serving.control.ne_failed, fun _ => h⟩

/-- The socket is destroyed. -/
theorem sound_close {w : Server} {choked : Bool} {bitfield : Option Bitfield} {trace : List Event}
    (h : w.seeder.control ≠ .failed) :
    Sound torrent ⟨(aliceEnv fixture choices sha1).close w, false, choked, bitfield, trace⟩ := by
  refine ⟨?_, by simp⟩
  simp [aliceEnv, h]

/-- A frame that cannot be decoded. -/
theorem recvMessage_invalid {body rest : Bytes} {e : DecodeError} (hlen : body.length < 2 ^ 32)
    (hdecode : decode torrent (frame body) = .error e)
    (h : d.world.seeder.output = frame body ++ rest) :
    recvMessage (aliceEnv fixture choices sha1) torrent d
      = (.error (.error .invalidMessage), { d with
          world := (aliceEnv fixture choices sha1).close (d.world.withOutput rest)
          socket := false }) := by
  rw [frame, List.append_assoc] at h
  have hread₁ := useSocket_alice fixture choices sha1 (length_bigEndian 4 _) h
  have hread₂ := useSocket_alice fixture choices sha1
    (d := { d with world := d.world.withOutput (body ++ rest) }) (messageLen_frame hlen) rfl
  rw [frame] at hdecode
  rw [recvMessage, Prog.bind_ok hread₁, Prog.bind_ok hread₂]
  simp only [hdecode]
  rfl

/-- A message is received, or the socket destroyed. -/
theorem wp_recvMessage_frames (h : Frames torrent P d.world.seeder.output)
    (hup : d.world.seeder.control ≠ .failed)
    (hok : ∀ m rest, P m → Frames torrent P rest →
      Q m { d with world := d.world.withOutput rest, trace := .received m :: d.trace })
    (herr : ∀ e d', Sound torrent d' → E e d') :
    (recvMessage (aliceEnv fixture choices sha1) torrent).wp Q E d := by
  generalize houtput : d.world.seeder.output = output at h
  cases h with
  | nil =>
    have hread : (aliceEnv fixture choices sha1).read 4 d.world
        = (.error (if d.world.seeder.control = .closed then .other else .timeout), d.world) := by
      simp [aliceEnv, houtput]
    rw [recvMessage, Prog.wp_bind]
    apply wp_useSocket_run
    · intro a w hrun
      rw [hread] at hrun
      cases hrun
    · intro e w hrun
      rw [hread] at hrun
      obtain ⟨_, rfl⟩ := Prod.mk.inj hrun
      exact herr _ _ (sound_close hup)
  | @cons body rest hlen hdecode hrest =>
    cases hmessage : decode torrent (frame body) with
    | ok m =>
      exact Prog.wp_of_ok (recvMessage_alice hlen hmessage houtput)
        (hok m rest (hdecode m hmessage) hrest)
    | error e =>
      exact Prog.wp_of_error (recvMessage_invalid hlen hmessage houtput)
        (herr _ _ (sound_close (w := d.world.withOutput rest) hup))

/-- Nobody listens: the bytes stay where they are. -/
theorem receive_of_none (h : s.control.awaits = none) :
    s.receive fixture c bytes = { s with input := s.input ++ bytes } := by
  rw [Seeder.receive]
  cases s.input.length + bytes.length with
  | zero => rfl
  | succ n =>
    rw [Seeder.react]
    simp only [h]

/-- The seeder after a request for a block of a piece it has. -/
theorem serving_receive (h : s.Serving torrent) (hlt : index < N_PIECES)
    (hhas : bitfieldHas s.bitfield index = true) {k : Int} (hk0 : 0 ≤ k)
    (hk : k < blocksTotal (pieceOf fixture index).length)
    (hencode : (Message.request index (blockOffset k)
      (blockLength (pieceOf fixture index).length k)).encode = .ok bytes) :
    (s.receive fixture c bytes).Serving torrent ∧
      ∀ i, bitfieldHas s.bitfield i = true →
        bitfieldHas (s.receive fixture c bytes).bitfield i = true := by
  rcases h.control with ⟨hcontrol, hinput⟩ | hcontrol | hcontrol
  · obtain ⟨payload, hfinds⟩ := exists_finds fixture c hcontrol hinput hlt hhas hk0 hk hencode
    rw [hfinds.receive]
    have hlen := hfinds.length_eq
    have hpos := hfinds.length_pos
    exact serving_serve h hinput hfinds.read (by omega) (by omega) hfinds.index_range
      hfinds.begin_range hfinds.size
  · rw [receive_of_none (by rw [hcontrol]; rfl)]
    exact ⟨⟨Or.inr (Or.inl hcontrol), h.output⟩, fun i hi => hi⟩
  · rw [receive_of_none (by rw [hcontrol]; rfl)]
    exact ⟨⟨Or.inr (Or.inr hcontrol), h.output⟩, fun i hi => hi⟩

/-- Inside of the loop for piece `index`. -/
structure Asks (torrent : TorrentFile) (index : Int) (p : Progress) (d : Download.State Server) :
    Prop extends Conforms torrent d where
  has : bitfieldHas d.world.seeder.bitfield index = true
  nonneg : 0 ≤ p.blocksRequested

variable {p : Progress}

theorem Asks.wp_requestBlock (h : Asks torrent index p d) (hlt : index < N_PIECES)
    (hmore : p.blocksRequested < blocksTotal (pieceOf fixture index).length) :
    (requestBlock (aliceEnv fixture choices sha1) index (pieceOf fixture index).length p).wp
      (Asks torrent index) (fun _ d' => Sound torrent d') d := by
  rw [requestBlock, Prog.wp_bind]
  cases hencode : (Message.request index (blockOffset p.blocksRequested)
      (blockLength (pieceOf fixture index).length p.blocksRequested)).encode with
  | error x =>
    rw [sendMessage, hencode]
    exact h.sound
  | ok bytes =>
    obtain ⟨hserving, hgrows⟩ := serving_receive (c := choices d.world.accepted) h.serving hlt h.has
      h.nonneg hmore hencode
    have hnonneg := h.nonneg
    refine Prog.wp_of_ok (sendMessage_alice hencode) ⟨⟨hserving, ?_⟩, hgrows index h.has, ?_⟩
    · intro bf hbf i h0 hi
      exact hgrows i (h.bits bf hbf i h0 hi)
    · show 0 ≤ p.blocksRequested + 1
      omega

theorem Asks.wp_fillPipeline (h : Asks torrent index p d) (hlt : index < N_PIECES) :
    (fillPipeline (aliceEnv fixture choices sha1) index (pieceOf fixture index).length p).wp
      (Asks torrent index) (fun _ d' => Sound torrent d') d := by
  rw [fillPipeline, Prog.wp_bind, Prog.wp_get]
  apply Prog.wp_ite
  · intro _
    exact h
  · intro _
    show (requestBlocks (aliceEnv fixture choices sha1) index _ _ p).wp _ _ d
    rw [requestBlocks_eq_loop]
    apply Prog.wp_loop (I := Asks torrent index)
    · intro p d h hroom
      exact h.wp_requestBlock hlt (lt_total_of_room hroom)
    · intro p d h _
      exact h
    · intro p d h
      exact h.sound
    · exact h

/-- What is received is believed, and it is true. -/
theorem Asks.wp_handleMessage {m : Message} (h : Asks torrent index p d)
    (hm : Told d.world.seeder.bitfield m) :
    (handleMessage p m).wp (Asks torrent index) (fun _ d' => Sound torrent d') d := by
  cases m with
  | haveMsg i =>
    cases hbf : d.bitfield with
    | none =>
      rw [handleMessage, Prog.wp_bind, Prog.wp_get]
      simp only [hbf]
      exact h.sound
    | some bf =>
      apply wp_handleMessage_haveMsg hbf
      · intro bf' hset
        refine ⟨⟨h.serving, ?_⟩, h.has, h.nonneg⟩
        intro bf'' hbf'' j h0 hj
        injection hbf'' with hbf''
        rw [← hbf''] at hj
        rcases (Bitfield.bit_set hset h0).mp hj with hold | rfl
        · exact h.bits bf hbf j h0 hold
        · exact hm
      · intro _ _
        exact h.sound
      · intro _
        exact h.sound
  | piece i begin block =>
    rw [handleMessage]
    apply Prog.wp_ite
    · intro _
      exact ⟨h.toConforms, h.has, h.nonneg⟩
    · intro _
      exact h.sound
  | _ => exact ⟨⟨h.serving, h.bits⟩, h.has, h.nonneg⟩

theorem Asks.wp_downloadLoop {n : Nat} (h : Asks torrent index p d) (hlt : index < N_PIECES) :
    (downloadLoop (aliceEnv fixture choices sha1) torrent index (pieceOf fixture index).length n
      p).wp (Asks torrent index) (fun _ d' => Sound torrent d') d := by
  rw [downloadLoop_eq_loop]
  apply Prog.wp_loop (I := Asks torrent index)
  · intro p d h _
    rw [downloadRound, Prog.wp_bind]
    refine Prog.wp_mono (h.wp_fillPipeline hlt) ?_ (fun _ _ he => he)
    intro p d h
    rw [Prog.wp_bind]
    refine wp_recvMessage_frames h.serving.output h.serving.control.ne_failed ?_ (fun _ _ he => he)
    intro m rest hm hrest
    have hasks : Asks torrent index p
        { d with world := d.world.withOutput rest, trace := .received m :: d.trace } :=
      ⟨⟨⟨h.serving.control, hrest⟩, h.bits⟩, h.has, h.nonneg⟩
    exact hasks.wp_handleMessage hm
  · intro p d h _
    exact h
  · intro p d h
    exact h.sound
  · exact h

/-! ### Connecting -/

/-- The seeder behind the handshake: what is left to read is true, and it
    waits for the first message of `ensure_connected` or has left. -/
structure Seeder.Greeted (torrent : TorrentFile) (s : Seeder) (rest : Bytes) : Prop where
  control : s.control = .unchoke ∧ s.input = [] ∨ s.control = .closed
  rest : Frames torrent (Told s.bitfield) rest

theorem length_response (hhash : torrent.infoHash.length = 20) :
    (handshakeMessage torrent).length = 68 ∧
      (Seeder.response c (handshakeMessage torrent)).length = 68 := by
  have hlength : (handshakeMessage torrent).length = 68 := by
    simp [handshakeMessage, hhash]
  refine ⟨hlength, ?_⟩
  unfold Seeder.response
  dsimp only
  split <;> simp [hlength, Seeder.peerId]

theorem greeted_handshake (fixture : Bytes) (c : Choices) (hhash : torrent.infoHash.length = 20) :
    ∃ rest, (({} : Seeder).receive fixture c (handshakeMessage torrent)).output
        = Seeder.response c (handshakeMessage torrent) ++ rest ∧
      (({} : Seeder).receive fixture c (handshakeMessage torrent)).Greeted torrent rest := by
  have hlength := (length_response (c := c) hhash).1
  rw [Seeder.receive_eq rfl (by rw [hlength]; rfl), Seeder.resume, Seeder.onHandshake]
  dsimp only
  split
  · exact ⟨[], (List.append_nil _).symm, Or.inr rfl, .nil⟩
  · exact ⟨Seeder.greeting c, rfl, Or.inl ⟨rfl, rfl⟩, frames_greeting⟩

/-- The two messages of `ensure_connected` are the ones that are expected. -/
theorem serving_unchoke_interested (fixture : Bytes) (c : Choices)
    (h : s.Greeted torrent s.output) :
    ((s.receive fixture c [0, 0, 0, 1, 1]).receive fixture c [0, 0, 0, 1, 2]).Serving torrent ∧
      ((s.receive fixture c [0, 0, 0, 1, 1]).receive fixture c [0, 0, 0, 1, 2]).bitfield
        = s.bitfield := by
  rcases h.control with ⟨hcontrol, hinput⟩ | hcontrol
  · have hunchoke : s.receive fixture c [0, 0, 0, 1, 1] = { s with control := .interested } := by
      rw [Seeder.receive_eq hinput (by rw [hcontrol]; rfl), Seeder.resume, hcontrol]
      rfl
    have hinterested :
        ({ s with control := .interested } : Seeder).receive fixture c [0, 0, 0, 1, 2]
          = ({ s with control := .interested } : Seeder).nextTurn c := by
      exact Seeder.receive_eq (s := { s with control := .interested }) hinput rfl
    rw [hunchoke, hinterested]
    exact ⟨⟨serves_nextTurn hinput, h.rest⟩, rfl⟩
  · have hnone : s.control.awaits = none := by rw [hcontrol]; rfl
    rw [receive_of_none hnone]
    rw [receive_of_none (s := { s with input := s.input ++ [0, 0, 0, 1, 1] }) hnone]
    exact ⟨⟨Or.inr (Or.inl hcontrol), h.rest⟩, rfl⟩

/-- The handshake, with a seeder that has just accepted. -/
theorem wp_handshake_alice {Q : Unit → Download.State Server → Prop}
    (hhash : torrent.infoHash.length = 20) (hnew : d.world.seeder = {})
    (hok : ∀ d' : Download.State Server, d'.world.seeder.Greeted torrent d'.world.seeder.output →
      Q () d') :
    (handshake (aliceEnv fixture choices sha1) torrent).wp Q (fun _ d' => Sound torrent d') d := by
  obtain ⟨rest, houtput, hgreeted⟩ := greeted_handshake fixture (choices d.world.accepted) hhash
  rw [← hnew] at houtput hgreeted
  have hup : (d.world.seeder.receive fixture (choices d.world.accepted)
      (handshakeMessage torrent)).control ≠ .failed := by
    rcases hgreeted.control with ⟨hcontrol, _⟩ | hcontrol <;> rw [hcontrol] <;> simp
  have hwrite : useSocket (aliceEnv fixture choices sha1)
      ((aliceEnv fixture choices sha1).write (handshakeMessage torrent)) d
      = (.ok (), { d with world := { d.world with
          seeder := d.world.seeder.receive fixture (choices d.world.accepted)
            (handshakeMessage torrent) } }) := rfl
  have hread := useSocket_alice fixture choices sha1 (d := { d with world := { d.world with
    seeder := d.world.seeder.receive fixture (choices d.world.accepted)
      (handshakeMessage torrent) } }) (length_response hhash).2 houtput
  rw [handshake, Prog.wp_bind]
  refine Prog.wp_of_ok hwrite ?_
  rw [Prog.wp_bind]
  refine Prog.wp_of_ok hread ?_
  rw [Prog.wp_bind, wp_record]
  apply Prog.wp_ite
  · intro _
    exact sound_close hup
  · intro _
    exact hok _ ⟨hgreeted.control, hgreeted.rest⟩

/-- A new connection. -/
theorem wp_greet_alice (hhash : torrent.infoHash.length = 20)
    (hup : d.world.seeder.control ≠ .failed) :
    (greet (aliceEnv fixture choices sha1) torrent).wp (fun _ d' => Conforms torrent d')
      (fun _ d' => Sound torrent d') d := by
  rw [greet, Prog.wp_bind, Prog.wp_modify, Prog.wp_bind]
  have hconnect : (aliceEnv fixture choices sha1).connect d.world
      = (.ok (), ⟨d.world.accepted + 1, {}⟩) := by simp [aliceEnv, hup]
  refine Prog.wp_of_ok (useSocket_ok hconnect) ?_
  rw [Prog.wp_bind, wp_record, Prog.wp_bind]
  refine wp_handshake_alice hhash rfl ?_
  intro d hgreeted
  have hup : d.world.seeder.control ≠ .failed := by
    rcases hgreeted.control with ⟨hcontrol, _⟩ | hcontrol <;> rw [hcontrol] <;> simp
  rw [Prog.wp_bind]
  refine wp_recvMessage_frames hgreeted.rest hup ?_ (fun _ _ he => he)
  intro m rest hm hrest
  cases m with
  | bitfield bf =>
    rw [Prog.wp_bind, Prog.wp_modify, Prog.wp_bind]
    refine Prog.wp_of_ok (sendMessage_alice rfl) ?_
    rw [Prog.wp_bind]
    refine Prog.wp_of_ok (sendMessage_alice rfl) ?_
    rw [Prog.wp_modify]
    obtain ⟨hserving, hbitfield⟩ := serving_unchoke_interested fixture
      (choices d.world.accepted) (s := (d.world.withOutput rest).seeder) ⟨hgreeted.control, hrest⟩
    refine ⟨hserving, ?_⟩
    intro bf' hbf' i h0 hi
    injection hbf' with hbf'
    rw [← hbf'] at hi
    exact hbitfield ▸ hm i h0 hi
  | _ => exact sound_close hup

theorem Conforms.wp_waitUnchoke {n : Nat} (h : Conforms torrent d) :
    (waitUnchoke (aliceEnv fixture choices sha1) torrent n).wp (fun _ d' => Conforms torrent d')
      (fun _ d' => Sound torrent d') d := by
  rw [waitUnchoke_eq_loop]
  apply Prog.wp_loop (I := fun _ d' => Conforms torrent d')
  · intro _ d h _
    rw [waitRound, Prog.wp_bind]
    refine wp_recvMessage_frames h.serving.output h.serving.control.ne_failed ?_ (fun _ _ he => he)
    intro m rest _ hrest
    refine Prog.wp_of_ok (noteUnchoke_ok m _) ⟨⟨h.serving.control, hrest⟩, h.bits⟩
  · intro _ d h _
    exact h
  · intro _ d h
    exact h.sound
  · exact h

theorem Sound.wp_ensureConnected {fuel : Nat} (hhash : torrent.infoHash.length = 20)
    (h : Sound torrent d) :
    (ensureConnected (aliceEnv fixture choices sha1) torrent fuel).wp
      (fun _ d' => Conforms torrent d') (fun _ d' => Sound torrent d') d := by
  have hestablish : (establish (aliceEnv fixture choices sha1) torrent fuel).wp
      (fun _ d' => Conforms torrent d') (fun _ d' => Sound torrent d') d := by
    rw [establish_eq, Prog.wp_bind]
    refine Prog.wp_mono (wp_greet_alice hhash h.ne_failed) ?_ (fun _ _ he => he)
    intro _ d h
    exact h.wp_waitUnchoke
  rw [ensureConnected, Prog.wp_bind, Prog.wp_get]
  apply Prog.wp_ite
  · intro hsocket
    rw [Prog.wp_bind, wp_call]
    exact h.conforms hsocket
  · intro _
    exact hestablish

/-! ### Calls -/

/-- The bitfield has the bit of the piece. -/
theorem bit_of_hasPiece
    (h : hasPiece (aliceEnv fixture choices sha1) index d = (.ok true, d)) :
    ∃ bf, d.bitfield = some bf ∧ bf.bit index = true := by
  have hget : (Prog.get : Run Server (Download.State Server)) d = (.ok d, d) := rfl
  rw [hasPiece, Prog.bind_ok hget] at h
  cases hbf : d.bitfield with
  | none =>
    simp only [hbf] at h
    cases h
  | some bf =>
    simp only [hbf] at h
    obtain ⟨hbit, _⟩ := Prog.ofOutcome_eq_ok h
    exact ⟨bf, rfl, Bitfield.bit_of_get hbit⟩

/-- One call, for any piece. -/
theorem Sound.tryDownload {fuel : Nat} {task : Piece} (h : Sound torrent d)
    (hd : Describes torrent fixture sha1) :
    Sound torrent (tryDownload (aliceEnv fixture choices sha1) torrent fuel task d).2 := by
  apply Prog.wp_state
  apply wp_tryDownload_rule (C := Conforms torrent) (L := Asks torrent task.index)
  · intro _
    exact h
  · exact h.wp_ensureConnected hd.infoHash
  · intro d' _ hd' _
    exact hd'.sound
  · intro d' hconforms h0 hlt hhas _
    rw [hd.piecesCount] at hlt
    rw [hd.length_eq h0 hlt]
    obtain ⟨bf, hbf, hbit⟩ := bit_of_hasPiece hhas
    have hasks : Asks torrent task.index
        ⟨List.replicate ((pieceOf fixture task.index).length : Int).toNat 0, 0, 0⟩ d' :=
      ⟨hconforms, hconforms.bits bf hbf task.index h0 hbit, le_rfl⟩
    exact hasks.wp_downloadLoop hlt
  · intro _ d' hd' _
    exact hd'.sound
  · intro _ d' _ hd' _
    exact hd'.sound

/-- The object after calls of `try_download`, however each of them ended. -/
def attempts {W : Type} (env : Env W) (torrent : TorrentFile) (fuel : Nat) (tasks : List Piece)
    (s : Download.State W) : Download.State W :=
  tasks.foldl (fun s task => (tryDownload env torrent fuel task s).2) s

/-- No assertion of the seeder ever fails. -/
theorem attempts_conform (h : Describes torrent fixture sha1) (choices : Nat → Choices)
    (fuel : Nat) (tasks : List Piece) :
    (attempts (aliceEnv fixture choices sha1) torrent fuel tasks
      { world := {} }).world.seeder.control ≠ .failed := by
  have hruns : ∀ d : Download.State Server, Sound torrent d →
      Sound torrent (attempts (aliceEnv fixture choices sha1) torrent fuel tasks d) := by
    induction tasks with
    | nil => exact fun d hd => hd
    | cons task tasks ih => exact fun d hd => ih _ (hd.tryDownload h)
  refine (hruns _ ⟨?_, ?_⟩).ne_failed
  · decide
  · intro hsocket
    cases hsocket

/-- A seeder that always lies about the info hash on its first connection and
    hangs after its first block on all others. -/
theorem attempts_conform_zeroes :
    (attempts (aliceEnv zeroes
        (fun n => { talkative with
          wrongInfoHash := n = 1
          turns := fun _ =>
            ⟨false, some (7, 1), ⟨1, by decide⟩, true, true, true, true, true, true⟩ })
        Sha1.sha1) zeroesTorrent 30 [⟨0, []⟩, ⟨3, []⟩, ⟨-1, []⟩, ⟨0, []⟩]
      { world := {} }).world.seeder.control ≠ .failed :=
  attempts_conform zeroes_describes _ 30 _

end Furrent.Faker
