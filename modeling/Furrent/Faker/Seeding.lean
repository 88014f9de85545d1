import Furrent.Faker.AliceSeeder
import Furrent.Download.Responder

/-! # Downloading from the seeder

    As long as the seeder draws nothing that breaks the connection or the
    data, it is a peer that answers: whatever it says between the blocks
    and however often it chokes the downloader for a while, every piece of
    its first bitfield is downloaded. -/

namespace Furrent.Faker

open Cpp Numeral Assembly Download Message

variable {fixture : Bytes} {c : Choices} {torrent : TorrentFile} {s : Seeder} {bytes : Bytes}
  {index begin length : Int}

/-! ### Bytes and messages -/

theorem carries_of_encode (m : Message) (hm : m.Encodable torrent) (h : m.encode = .ok bytes) :
    Carries torrent bytes [m] := by
  obtain ⟨body, hencode, hlen, hdecode⟩ := decode_encode hm
  rw [h] at hencode
  injection hencode with hbytes
  have hcarries := Carries.cons hlen hdecode (Carries.nil : Carries torrent [] [])
  rw [List.append_nil, ← hbytes] at hcarries
  exact hcarries

theorem carries_ite {ms : List Message} (b : Bool) (h : Carries torrent bytes ms) :
    Carries torrent (if b then bytes else []) (if b then ms else []) := by
  cases b with
  | true => exact h
  | false => exact .nil

theorem unpackInt_bigEndian {n : Nat} (h : n < 2 ^ 31) : unpackInt (bigEndian 4 n) = n := by
  rw [unpackInt, bigEndianValue_bigEndian (by omega), if_pos h]

theorem packInt_eq {n : Int} (h0 : 0 ≤ n) (hlt : n < 2 ^ 32) : packInt n = bigEndian 4 n.toNat := by
  rw [packInt, Int.emod_eq_of_lt h0 hlt]

/-- The seventeen bytes of a request. -/
theorem encode_request (hi : 0 ≤ index ∧ index < 2 ^ 31) (hb : 0 ≤ begin ∧ begin < 2 ^ 31)
    (hl : 0 ≤ length ∧ length < 2 ^ 31)
    (h : (Message.request index begin length).encode = .ok bytes) :
    bytes = 0 :: 0 :: 0 :: 13 :: 6
      :: (bigEndian 4 index.toNat ++ bigEndian 4 begin.toNat ++ bigEndian 4 length.toNat) := by
  have hpayload : (Message.request index begin length).encodePayload
      = .ok (bigEndian 4 index.toNat ++ bigEndian 4 begin.toNat ++ bigEndian 4 length.toNat) := by
    rw [encodePayload, encodeInteger_eq hi.1 (by omega), encodeInteger_eq hb.1 (by omega),
      encodeInteger_eq hl.1 (by omega)]
    rfl
  rw [encode_eq_frame (by simp) hpayload (by simp)] at h
  injection h with h
  rw [← h, frame]
  simp [messageId, bigEndian]

/-- A request is understood by the seeder as it was meant. -/
theorem onRequest_request (fixture : Bytes) (hi : 0 ≤ index ∧ index < 2 ^ 31)
    (hb : 0 ≤ begin ∧ begin < 2 ^ 31) (hl : 0 ≤ length ∧ length < 2 ^ 31)
    (h : (Message.request index begin length).encode = .ok bytes)
    (hhas : bitfieldHas s.bitfield index = true) :
    bytes.length = 17 ∧
      s.onRequest fixture c bytes = s.serve fixture c index begin length := by
  have hbytes := encode_request hi hb hl h
  have hindex := unpackInt_bigEndian (n := index.toNat) (by omega)
  have hbegin := unpackInt_bigEndian (n := begin.toNat) (by omega)
  have hlength := unpackInt_bigEndian (n := length.toNat) (by omega)
  rw [Int.toNat_of_nonneg hi.1] at hindex
  rw [Int.toNat_of_nonneg hb.1] at hbegin
  rw [Int.toNat_of_nonneg hl.1] at hlength
  obtain ⟨_, _, _, _, hbi⟩ := exists_four (length_bigEndian 4 index.toNat)
  obtain ⟨_, _, _, _, hbb⟩ := exists_four (length_bigEndian 4 begin.toNat)
  obtain ⟨_, _, _, _, hbl⟩ := exists_four (length_bigEndian 4 length.toNat)
  rw [hbi] at hindex
  rw [hbb] at hbegin
  rw [hbl] at hlength
  rw [hbi, hbb, hbl] at hbytes
  subst hbytes
  refine ⟨rfl, ?_⟩
  rw [Seeder.onRequest]
  simp only [slice, List.drop_succ_cons, List.drop_zero, List.take_succ_cons, List.take_zero,
    List.cons_append, List.nil_append, hindex, hbegin, hlength, hhas]
  exact if_pos ⟨rfl, rfl, trivial⟩

/-! ### The file -/

/-- The bytes of a piece. -/
def pieceOf (fixture : Bytes) (i : Int) : Bytes :=
  slice fixture (i.toNat * PIECE_LENGTH) PIECE_LENGTH

/-- The torrent is the one of the file. -/
structure Describes (torrent : TorrentFile) (fixture : Bytes) (sha1 : Bytes → Bytes) : Prop where
  piecesCount : torrent.piecesCount = N_PIECES
  pieceLength : torrent.pieceLength = PIECE_LENGTH
  length : torrent.length = fixture.length
  lt_length : (N_PIECES - 1) * PIECE_LENGTH < fixture.length
  length_le : fixture.length ≤ N_PIECES * PIECE_LENGTH
  infoHash : torrent.infoHash.length = 20
  hashes : ∀ i < N_PIECES, torrent.pieceHashes[i]? = some (sha1 (pieceOf fixture i))

variable {sha1 : Bytes → Bytes}

theorem length_pieceOf (fixture : Bytes) (i : Int) :
    (pieceOf fixture i).length = min PIECE_LENGTH (fixture.length - i.toNat * PIECE_LENGTH) := by
  rw [pieceOf, slice, List.length_take, List.length_drop]

theorem Describes.length_eq (h : Describes torrent fixture sha1) (h0 : 0 ≤ index)
    (hlt : index < N_PIECES) :
    Download.pieceLength torrent index = (pieceOf fixture index).length := by
  have hlength := h.lt_length
  have hle := h.length_le
  rw [length_pieceOf, Download.pieceLength, h.piecesCount, h.pieceLength, h.length]
  unfold N_PIECES PIECE_LENGTH at *
  split <;> omega

/-- A block of a piece is where the seeder looks for it. -/
theorem readFixture_block (h0 : 0 ≤ index) (hb : 0 ≤ begin) (hl : 0 ≤ length)
    (hin : begin + length ≤ (pieceOf fixture index).length) :
    readFixture fixture index begin length
        = some (slice (pieceOf fixture index) begin.toNat length.toNat) ∧
      (slice (pieceOf fixture index) begin.toNat length.toNat).length = length.toNat := by
  have hlen := length_pieceOf fixture index
  have hpos : (index * PIECE_LENGTH + begin).toNat = index.toNat * PIECE_LENGTH + begin.toNat := by
    unfold PIECE_LENGTH
    omega
  have hnonneg : ¬ index * PIECE_LENGTH + begin < 0 := by
    unfold PIECE_LENGTH
    omega
  constructor
  · rw [readFixture, if_neg hnonneg, if_neg (by omega), hpos, pieceOf]
    simp only [slice, List.drop_take, List.take_take, List.drop_drop]
    congr 2
    omega
  · rw [slice, List.length_take, List.length_drop]
    omega

/-! ### An answer -/

/-- Nothing that is drawn breaks the connection or the data. An unchoke
    message with a payload does not: it is accepted. -/
structure Choices.WellBehaved (c : Choices) : Prop where
  infoHash : c.wrongInfoHash = false
  stays : c.dropsAfterHandshake = false
  sendsBitfield : c.sendsBitfield = true
  unchokes : c.unchokes = true
  drops : ∀ k, (c.turns k).drops = false
  corrupts : ∀ k, (c.turns k).corrupts = none
  badHave : ∀ k, (c.turns k).badHave = false
  hangs : ∀ k, (c.turns k).hangs = false

/-- The messages of `chatter`. -/
def chatterMessages (t : Turn) : List Message :=
  (if t.keepAlive then [.keepAlive] else []) ++ (if t.interested then [.interested] else [])
    ++ if t.notInterested then [.notInterested] else []

/-- The messages a request is answered with. -/
def answerMessages (t : Turn) (bitfield : UInt8) (index begin : Int) (payload : Bytes) :
    List Message :=
  .piece index begin payload :: (if !bitfieldComplete bitfield then [.haveMsg t.acquires] else [])
    ++ chatterMessages t ++ if t.chokes then [.choke, .unchoke] else []

theorem carries_chatter (t : Turn) : Carries torrent (Seeder.chatter t) (chatterMessages t) :=
  ((carries_ite t.keepAlive (carries_of_encode .keepAlive trivial rfl)).append
    (carries_ite t.interested (carries_of_encode .interested trivial rfl))).append
    (carries_ite t.notInterested (carries_of_encode .notInterested trivial rfl))

theorem carries_blockMessage {payload : Bytes} (hi : 0 ≤ index ∧ index < 2 ^ 32)
    (hb : 0 ≤ begin ∧ begin < 2 ^ 32) (hp : payload.length + 9 < 2 ^ 32) :
    Carries torrent (Seeder.blockMessage index begin payload) [.piece index begin payload] := by
  apply carries_of_encode (.piece index begin payload) ⟨hi, hb, hp⟩
  have hpayload : (Message.piece index begin payload).encodePayload
      = .ok (bigEndian 4 index.toNat ++ bigEndian 4 begin.toNat ++ payload) := by
    rw [encodePayload, encodeInteger_eq hi.1 hi.2, encodeInteger_eq hb.1 hb.2]
    rfl
  rw [encode_eq_frame (by simp) hpayload (by simp; omega), frame, Seeder.blockMessage,
    packInt_eq hi.1 hi.2, packInt_eq hb.1 hb.2, packInt_eq (by omega) (by omega)]
  have hlen : (9 + (payload.length : Int)).toNat
      = ((Message.piece index begin payload).messageId
        :: (bigEndian 4 index.toNat ++ bigEndian 4 begin.toNat ++ payload)).length := by
    simp only [List.length_cons, List.length_append, length_bigEndian]
    omega
  rw [hlen]
  simp [messageId]

theorem carries_have (t : Turn) :
    Carries torrent ([0, 0, 0, 5, 4] ++ packInt t.acquires) [.haveMsg t.acquires] := by
  have hlt := t.acquires.isLt
  unfold N_PIECES at hlt
  apply carries_of_encode (.haveMsg t.acquires) ⟨by omega, by omega⟩
  have hpayload : (Message.haveMsg t.acquires).encodePayload
      = .ok (bigEndian 4 (t.acquires : Int).toNat) := encodeInteger_eq (by omega) (by omega)
  rw [encode_eq_frame (by simp) hpayload (by simp), frame, packInt_eq (by omega) (by omega)]
  simp [messageId, bigEndian]

/-- The seeder sends the block and goes on to the next request. -/
theorem serve_eq (torrent : TorrentFile) (hc : c.WellBehaved) {payload : Bytes}
    (hread : readFixture fixture index begin length = some payload)
    (hi : 0 ≤ index ∧ index < 2 ^ 32) (hb : 0 ≤ begin ∧ begin < 2 ^ 32)
    (hp : payload.length + 9 < 2 ^ 32) :
    ∃ answer, s.serve fixture c index begin length
        = { s with
            control := .request
            bitfield := (s.acquire (c.turns s.turn)).bitfield
            turn := s.turn + 1
            output := s.output ++ answer } ∧
      Carries torrent answer (answerMessages (c.turns s.turn) s.bitfield index begin payload) := by
  refine ⟨Seeder.blockMessage index begin payload
    ++ (if !bitfieldComplete s.bitfield then [0, 0, 0, 5, 4] ++ packInt (c.turns s.turn).acquires
      else [])
    ++ Seeder.chatter (c.turns s.turn)
    ++ (if (c.turns s.turn).chokes then [0, 0, 0, 1, 0] ++ [0, 0, 0, 1, 1] else []), ?_, ?_⟩
  · have hpayload : (readFixture fixture index begin length).bind
        (Seeder.corrupt (c.turns s.turn) length) = some payload := by
      rw [hread, Option.bind_some, Seeder.corrupt, hc.corrupts]
    rw [Seeder.serve]
    simp only [hpayload]
    simp only [Seeder.endTurn, Seeder.nextTurn, Seeder.acquire, Seeder.send, hc.badHave, hc.hangs,
      hc.drops]
    cases bitfieldComplete s.bitfield with
    | true => cases (c.turns s.turn).chokes <;> simp
    | false => cases (c.turns s.turn).chokes <;> simp
  · exact (((carries_blockMessage hi hb hp).append (carries_ite _ (carries_have _))).append
      (carries_chatter _)).append (carries_ite _
        ((carries_of_encode .choke trivial rfl).append (carries_of_encode .unchoke trivial rfl)))

theorem eq_of_mem_ite {b : Bool} {m m' : Message} (h : m ∈ if b then [m'] else []) : m = m' := by
  cases b with
  | true => exact List.mem_singleton.mp h
  | false => cases h

/-- One block, and not more than seven messages. -/
theorem answered (ms : List Message) (t : Turn) (bitfield : UInt8) {payload : Bytes}
    (hcount : torrent.piecesCount = N_PIECES) (hb : 0 ≤ begin)
    (hin : begin + payload.length ≤ (pieceOf fixture index).length)
    (hpayload : payload = slice (pieceOf fixture index) begin.toNat payload.length) :
    Answered torrent (pieceOf fixture) 7 (index, begin, payload.length) ms
      (ms ++ answerMessages t bitfield index begin payload) := by
  have hacquires := t.acquires.isLt
  refine ⟨?_, ?_, ?_, ?_⟩
  · have hblocks : blocksIn (answerMessages t bitfield index begin payload)
        = [(index, begin, (payload.length : Int))] := by
      unfold answerMessages chatterMessages blocksIn
      split <;> split <;> split <;> split <;> split <;> rfl
    rw [blocksIn_append, hblocks]
    exact List.perm_append_singleton _ _
  · intro m hm
    rcases List.mem_append.mp hm with hold | hnew
    · exact Or.inl hold
    · right
      simp only [answerMessages, chatterMessages, List.cons_append, List.mem_cons,
        List.mem_append] at hnew
      rcases hnew with rfl | (hhave | (hka | hint) | hni) | hchoke
      · exact ⟨hb, hin, hpayload⟩
      · rw [eq_of_mem_ite hhave, Truthful, hcount]
        omega
      · rw [eq_of_mem_ite hka]
        trivial
      · rw [eq_of_mem_ite hint]
        trivial
      · rw [eq_of_mem_ite hni]
        trivial
      · split at hchoke
        · simp only [List.mem_cons, List.not_mem_nil, or_false] at hchoke
          rcases hchoke with rfl | rfl <;> trivial
        · cases hchoke
  · intro choked hchoked
    rw [chokedAfter_append, hchoked]
    unfold answerMessages chatterMessages chokedAfter
    split <;> split <;> split <;> split <;> split <;> rfl
  · rw [List.length_append]
    unfold answerMessages chatterMessages
    split <;> split <;> split <;> split <;> split <;> simp

/-! ### Bits -/

theorem bitOf_eq_mask {i : Nat} (h : i < 8) : bitOf i = Bits.mask i := by
  revert i
  decide

theorem bitfieldHas_iff {b : UInt8} {i : Int} :
    bitfieldHas b i = true ↔ 0 ≤ i ∧ i < 8 ∧ b.toNat.testBit (7 - i.toNat % 8) = true := by
  rw [bitfieldHas, decide_eq_true_iff]
  constructor
  · rintro ⟨h0, hlt, hbit⟩
    rw [bitOf_eq_mask (by omega), Bits.and_mask_ne_zero] at hbit
    exact ⟨h0, hlt, hbit⟩
  · rintro ⟨h0, hlt, hbit⟩
    refine ⟨h0, hlt, ?_⟩
    rw [bitOf_eq_mask (by omega), Bits.and_mask_ne_zero]
    exact hbit

theorem bitfieldHas_or {b b' : UInt8} {i : Int} :
    bitfieldHas (b ||| b') i = true ↔ bitfieldHas b i = true ∨ bitfieldHas b' i = true := by
  simp only [bitfieldHas_iff, UInt8.toNat_or, Nat.testBit_or, Bool.or_eq_true]
  tauto

/-- The seeder loses no piece. -/
theorem bitfieldHas_acquire {t : Turn} {i : Int} (h : bitfieldHas s.bitfield i = true) :
    bitfieldHas (s.acquire t).bitfield i = true := by
  unfold Seeder.acquire
  split
  · exact h
  · exact bitfieldHas_or.mpr (Or.inl h)

/-- The downloader sees the bits the seeder has set. -/
theorem bit_singleton {b : UInt8} {len i : Int} (h0 : 0 ≤ i) (hlt : i < 8) :
    (⟨[b], len⟩ : Bitfield).bit i = true ↔ bitfieldHas b i = true := by
  have hbyte : [b][i.toNat / 8]? = some b := by
    rw [Nat.div_eq_of_lt (by omega)]
    rfl
  rw [Bitfield.bit_eq_bitAt h0, Bits.bitAt_of_byte hbyte, bitfieldHas_iff]
  constructor
  · intro hbit
    exact ⟨h0, hlt, hbit⟩
  · intro hbit
    exact hbit.2.2

/-! ### A request for a block -/

/-- Block `k` of a piece is what the seeder reads for the request `bytes`. -/
structure Finds (fixture : Bytes) (c : Choices) (s : Seeder) (index k : Int)
    (bytes payload : Bytes) : Prop where
  receive : s.receive fixture c bytes
    = s.serve fixture c index (blockOffset k) (blockLength (pieceOf fixture index).length k)
  read : readFixture fixture index (blockOffset k) (blockLength (pieceOf fixture index).length k)
    = some payload
  payload_eq : payload = slice (pieceOf fixture index) (blockOffset k).toNat payload.length
  length_eq : (payload.length : Int) = blockLength (pieceOf fixture index).length k
  length_pos : 0 < payload.length
  inside : blockOffset k + payload.length ≤ (pieceOf fixture index).length
  index_range : 0 ≤ index ∧ index < 2 ^ 32
  begin_range : 0 ≤ blockOffset k ∧ blockOffset k < 2 ^ 32
  size : payload.length + 9 < 2 ^ 32

theorem exists_finds (fixture : Bytes) (c : Choices) (hcontrol : s.control = .request)
    (hinput : s.input = []) (hlt : index < N_PIECES) (hhas : bitfieldHas s.bitfield index = true)
    {k : Int} (hk0 : 0 ≤ k) (hk : k < blocksTotal (pieceOf fixture index).length)
    (hencode : (Message.request index (blockOffset k)
      (blockLength (pieceOf fixture index).length k)).encode = .ok bytes) :
    ∃ payload, Finds fixture c s index k bytes payload := by
  have h0 := (bitfieldHas_iff.mp hhas).1
  have hsize := length_pieceOf fixture index
  obtain ⟨hb, hl, hin⟩ := block_inside hk0 hk
  unfold PIECE_LENGTH at hsize
  unfold N_PIECES at hlt
  obtain ⟨hread, hlen⟩ := readFixture_block h0 hb hl.le hin
  obtain ⟨hlength, hserve⟩ := onRequest_request fixture (c := c) (s := s) ⟨h0, by omega⟩
    ⟨hb, by omega⟩ ⟨hl.le, by omega⟩ hencode hhas
  refine ⟨_, ?_, hread, ?_, by omega, by omega, by omega, ⟨h0, by omega⟩, ⟨hb, by omega⟩, by omega⟩
  · rw [Seeder.receive_eq hinput (by rw [hcontrol, hlength]; rfl), Seeder.resume, hcontrol]
    exact hserve
  · rw [hlen]

/-! ### The peer -/

variable {choices : Nat → Choices} {n : Nat} {w : Server}

/-- The seeder waits for a request on connection `n`. -/
structure Server.Ready (choices : Nat → Choices) (n : Nat) (w : Server) : Prop where
  accepted : w.accepted = n
  control : w.seeder.control = .request
  input : w.seeder.input = []
  bits : ∀ i, bitfieldHas (randomBitfieldFresh (choices n).picks) i = true →
    bitfieldHas w.seeder.bitfield i = true

theorem read_eq {k : Nat} {bytes rest : Bytes} (hk : bytes.length = k)
    (h : w.seeder.output = bytes ++ rest) :
    (aliceEnv fixture choices sha1).read k w
      = (.ok ⟨bytes, hk⟩, w.withOutput rest) := by
  subst hk
  simp [aliceEnv, h]

/-- A read changes what is left to read, and nothing else. -/
theorem read_frame {k : Nat} {r : Except SocketError { bytes : Bytes // bytes.length = k }}
    {w' : Server} (h : (aliceEnv fixture choices sha1).read k w = (r, w')) :
    ∃ rest, w' = w.withOutput rest := by
  simp only [aliceEnv] at h
  split at h
  · exact ⟨_, (congrArg Prod.snd h).symm⟩
  · exact ⟨w.seeder.output, (congrArg Prod.snd h).symm⟩

theorem alice_streams : Streams (aliceEnv fixture choices sha1) fun w => w.seeder.output := by
  intro k w hk
  have hsplit := (List.take_append_drop k w.seeder.output).symm
  exact ⟨_, _, read_eq (List.length_take_of_le hk) hsplit, hsplit⟩

theorem Server.Ready.read (h : w.Ready choices n) (k : Nat) :
    (((aliceEnv fixture choices sha1).read k w).2).Ready choices n := by
  obtain ⟨rest, hrest⟩ :=
    read_frame (Prod.mk.eta (p := (aliceEnv fixture choices sha1).read k w)).symm
  rw [hrest]
  exact ⟨h.accepted, h.control, h.input, h.bits⟩

theorem Describes.offered (h : Describes torrent fixture sha1) (h0 : 0 ≤ index)
    (hlt : index < N_PIECES) :
    Offered (aliceEnv fixture choices sha1) torrent index (pieceOf fixture index) := by
  have hlength := h.length_eq h0 hlt
  have hsize := length_pieceOf fixture index
  have hlt_length := h.lt_length
  have hhash : torrent.pieceHashes[index.toNat]? = some (sha1 (pieceOf fixture index)) := by
    have hi := h.hashes index.toNat (by omega)
    rw [Int.toNat_of_nonneg h0] at hi
    exact hi
  unfold N_PIECES PIECE_LENGTH at *
  refine ⟨⟨h0, ?_, by omega, by omega, by omega⟩, hlength, hhash⟩
  rw [h.piecesCount]
  exact hlt

/-- A request is answered. -/
theorem Server.Ready.request (h : w.Ready choices n) (hc : (choices n).WellBehaved)
    (hcount : torrent.piecesCount = N_PIECES) {ms : List Message} {k : Int} {bytes : Bytes}
    (hcarries : Carries torrent w.seeder.output ms)
    (hoffers : index < N_PIECES ∧
      bitfieldHas (randomBitfieldFresh (choices n).picks) index = true)
    (hk0 : 0 ≤ k) (hk : k < blocksTotal (pieceOf fixture index).length)
    (hencode : (Message.request index (blockOffset k)
      (blockLength (pieceOf fixture index).length k)).encode = .ok bytes) :
    ∃ w' ms', (aliceEnv fixture choices sha1).write bytes w = (.ok (), w') ∧
      w'.Ready choices n ∧ Carries torrent w'.seeder.output ms' ∧
      Answered torrent (pieceOf fixture) 7
        (index, blockOffset k, blockLength (pieceOf fixture index).length k) ms ms' := by
  obtain ⟨hlt, hhas⟩ := hoffers
  obtain ⟨payload, hfinds⟩ := exists_finds fixture (choices n) h.control h.input hlt
    (h.bits index hhas) hk0 hk hencode
  obtain ⟨answer, hanswer, hmessages⟩ := serve_eq torrent (s := w.seeder) hc hfinds.read
    hfinds.index_range hfinds.begin_range hfinds.size
  rw [← hfinds.receive] at hanswer
  refine ⟨{ w with seeder := w.seeder.receive fixture (choices n) bytes },
    ms ++ answerMessages ((choices n).turns w.seeder.turn) w.seeder.bitfield index (blockOffset k)
      payload, ?_, ⟨h.accepted, ?_, ?_, ?_⟩, ?_, ?_⟩
  · simp only [aliceEnv, h.accepted]
  · rw [hanswer]
  · rw [hanswer]
    exact h.input
  · intro i hi
    rw [hanswer]
    exact bitfieldHas_acquire (h.bits i hi)
  · rw [hanswer]
    exact hcarries.append hmessages
  · rw [← hfinds.length_eq]
    exact answered ms _ _ hcount hfinds.begin_range.1 hfinds.inside hfinds.payload_eq

/-- Connection `n` of a seeder that is well-behaved on it. -/
def alice (h : Describes torrent fixture sha1) (hc : (choices n).WellBehaved) :
    Responder (aliceEnv fixture choices sha1) torrent where
  content := pieceOf fixture
  offers := fun i => i < N_PIECES ∧ bitfieldHas (randomBitfieldFresh (choices n).picks) i = true
  noise := 7
  ready := Server.Ready choices n
  stream := fun w => w.seeder.output
  offered := fun _ hi => h.offered (bitfieldHas_iff.mp hi.2).1 hi.1
  streams := alice_streams
  ready_read := fun k _ hw => hw.read k
  isOpen := fun w hw => ⟨w, rfl, hw, rfl⟩
  request := fun _ _ _ _ _ hw hcarries hoffers hk0 hk hencode =>
    hw.request hc h.piecesCount hcarries hoffers hk0 hk hencode

/-! ### The greeting -/

variable {d : Download.State Server}

theorem sendMessage_alice {m : Message} (h : m.encode = .ok bytes) :
    sendMessage (aliceEnv fixture choices sha1) m d
      = (.ok (), { d with
          world := { d.world with
            seeder := d.world.seeder.receive fixture (choices d.world.accepted) bytes }
          trace := .sent m :: d.trace }) := by
  rw [sendMessage, h]
  rfl

theorem useSocket_alice (fixture : Bytes) (choices : Nat → Choices) (sha1 : Bytes → Bytes)
    {k : Nat} {bytes rest : Bytes} (hk : bytes.length = k)
    (h : d.world.seeder.output = bytes ++ rest) :
    useSocket (aliceEnv fixture choices sha1) ((aliceEnv fixture choices sha1).read k) d
      = (.ok ⟨bytes, hk⟩, { d with world := d.world.withOutput rest }) :=
    useSocket_ok (read_eq hk h)

/-- A frame is read off the output of the seeder. -/
theorem recvMessage_alice {body rest : Bytes} {m : Message} (hlen : body.length < 2 ^ 32)
    (hdecode : decode torrent (frame body) = .ok m)
    (h : d.world.seeder.output = frame body ++ rest) :
    recvMessage (aliceEnv fixture choices sha1) torrent d
      = (.ok m, { d with
          world := d.world.withOutput rest, trace := .received m :: d.trace }) := by
  rw [frame, List.append_assoc] at h
  have hread₁ := useSocket_alice fixture choices sha1 (length_bigEndian 4 _) h
  have hread₂ := useSocket_alice fixture choices sha1
    (d := { d with world := d.world.withOutput (body ++ rest) }) (messageLen_frame hlen) rfl
  rw [frame] at hdecode
  rw [recvMessage, Prog.bind_ok hread₁, Prog.bind_ok hread₂]
  simp only [hdecode]
  rfl

/-- What stands in front of the info hash in a handshake. -/
def handshakeHead : Bytes :=
  19 :: [66, 105, 116, 84, 111, 114, 114, 101, 110, 116, 32, 112, 114, 111, 116, 111, 99, 111, 108]
    ++ List.replicate 8 0

theorem response_eq (hc : c.wrongInfoHash = false) (hhash : torrent.infoHash.length = 20) :
    (handshakeMessage torrent).length = 68 ∧
      Seeder.response c (handshakeMessage torrent)
        = handshakeHead ++ torrent.infoHash ++ Seeder.peerId := by
  have hmessage : handshakeMessage torrent
      = (handshakeHead ++ torrent.infoHash) ++ (70 :: 85 :: 82 :: List.replicate 17 45) := rfl
  have hhead : handshakeHead.length = 28 := rfl
  have hlength : (handshakeMessage torrent).length = 68 := by
    rw [hmessage]
    simp [hhead, hhash]
  refine ⟨hlength, ?_⟩
  rw [Seeder.response, hc, if_neg (by simp), hlength, hmessage,
    List.take_left' (by simp [hhead, hhash])]

theorem responseInfoHash_response (hc : c.wrongInfoHash = false)
    (hhash : torrent.infoHash.length = 20) :
    responseInfoHash (Seeder.response c (handshakeMessage torrent)) = torrent.infoHash := by
  have hhead : handshakeHead.length = 28 := rfl
  rw [(response_eq hc hhash).2, responseInfoHash, List.append_assoc, List.drop_left' hhead,
    List.take_left' hhash]

/-- The seeder behind the handshake, with `output` still to be read. -/
def Choices.greets (c : Choices) (output : Bytes) : Seeder where
  control := .unchoke
  bitfield := randomBitfieldFresh c.picks
  output := output

theorem receive_handshake (hc : c.WellBehaved) (hhash : torrent.infoHash.length = 20) :
    ({} : Seeder).receive fixture c (handshakeMessage torrent)
      = c.greets (Seeder.response c (handshakeMessage torrent) ++ Seeder.greeting c) := by
  have hlength := (response_eq hc.infoHash hhash).1
  rw [Seeder.receive_eq rfl (by rw [hlength]; rfl), Seeder.resume, Seeder.onHandshake, hc.stays]
  rfl

/-- The handshake with a new seeder. -/
theorem handshake_alice (h : Describes torrent fixture sha1) (hc : (choices n).WellBehaved)
    (hnew : d.world = ⟨n, {}⟩) :
    handshake (aliceEnv fixture choices sha1) torrent d
      = (.ok (), { d with
          world := ⟨n, (choices n).greets (Seeder.greeting (choices n))⟩
          trace := .handshake (Seeder.response (choices n) (handshakeMessage torrent))
            :: d.trace }) := by
  have hsize : (Seeder.response (choices n) (handshakeMessage torrent)).length = 68 := by
    rw [(response_eq hc.infoHash h.infoHash).2]
    simp [handshakeHead, Seeder.peerId, h.infoHash]
  have hwrite : useSocket (aliceEnv fixture choices sha1)
      ((aliceEnv fixture choices sha1).write (handshakeMessage torrent)) d
      = (.ok (), { d with world := ⟨n, (choices n).greets
          (Seeder.response (choices n) (handshakeMessage torrent) ++
            Seeder.greeting (choices n))⟩ }) := by
    apply useSocket_ok
    simp only [aliceEnv, hnew, receive_handshake hc h.infoHash]
  have hread := useSocket_alice fixture choices sha1 (d := { d with world := ⟨n, (choices n).greets
      (Seeder.response (choices n) (handshakeMessage torrent) ++ Seeder.greeting (choices n))⟩ })
    hsize rfl
  have hsame : ¬ torrent.infoHash
      ≠ responseInfoHash (Seeder.response (choices n) (handshakeMessage torrent)) := by
    rw [responseInfoHash_response hc.infoHash h.infoHash]
    simp
  rw [handshake, Prog.bind_ok hwrite, Prog.bind_ok hread]
  exact congrFun (if_neg hsame) _

/-- The messages behind the handshake. -/
theorem greeting_eq (hc : c.WellBehaved) :
    ∃ unchoke, Seeder.greeting c = frame [5, randomBitfieldFresh c.picks] ++ unchoke ∧
      Carries torrent unchoke [.unchoke] := by
  refine ⟨if c.badUnchoke then [0, 0, 0, 2, 1, 5] else [0, 0, 0, 1, 1], ?_, ?_⟩
  · rw [Seeder.greeting, hc.sendsBitfield, hc.unchokes]
    simp [frame, bigEndian]
  · cases c.badUnchoke with
    | true =>
      -- The payload is dropped by `decode`.
      have hunchoke : Carries torrent (frame [1, 5] ++ []) [.unchoke] :=
        .cons (by decide) rfl .nil
      exact hunchoke
    | false => exact carries_of_encode .unchoke trivial rfl

/-- The seeder behind the two messages of `ensure_connected`. -/
theorem receive_unchoke (output : Bytes) :
    (c.greets output).receive fixture c [0, 0, 0, 1, 1]
      = { c.greets output with control := .interested } := by
  rw [Seeder.receive_eq rfl rfl]
  rfl

theorem receive_interested (hc : c.WellBehaved) (output : Bytes) :
    ({ c.greets output with control := .interested } : Seeder).receive fixture c [0, 0, 0, 1, 2]
      = { c.greets output with control := .request } := by
  rw [Seeder.receive_eq rfl rfl, Seeder.resume]
  simp [Seeder.nextTurn, hc.drops]

/-- What `ensure_connected` does before it waits, up to the message it
    receives. -/
theorem greet_run (h : Describes torrent fixture sha1) (hn : d.world.accepted + 1 = n)
    (hc : (choices n).WellBehaved) (hup : d.world.seeder.control ≠ .failed) {unchoke : Bytes}
    (hgreeting : Seeder.greeting (choices n)
      = frame [5, randomBitfieldFresh (choices n).picks] ++ unchoke) :
    greet (aliceEnv fixture choices sha1) torrent d
      = (.ok (), greeted ⟨n, { (choices n).greets unchoke with control := .request }⟩ d.trace
          (Seeder.response (choices n) (handshakeMessage torrent))
          ⟨[randomBitfieldFresh (choices n).picks], torrent.piecesCount⟩) := by
  have hreset : (Prog.modify fun s => { s with socket := true, choked := true } : Run Server Unit) d
      = (.ok (), { d with socket := true, choked := true }) := rfl
  have hconnect : useSocket (aliceEnv fixture choices sha1) (aliceEnv fixture choices sha1).connect
      { d with socket := true, choked := true }
      = (.ok (), { d with socket := true, choked := true, world := ⟨n, {}⟩ }) := by
    apply useSocket_ok
    simp only [aliceEnv, if_neg hup, hn]
  have hrecord : (record .connected : Run Server Unit)
      { d with socket := true, choked := true, world := ⟨n, {}⟩ }
      = (.ok (), { d with
          socket := true, choked := true, world := ⟨n, {}⟩, trace := .connected :: d.trace }) := rfl
  have hshake := handshake_alice (d := { d with
    socket := true, choked := true, world := ⟨n, {}⟩, trace := .connected :: d.trace }) h hc rfl
  have hdecode : decode torrent (frame [5, randomBitfieldFresh (choices n).picks])
      = .ok (.bitfield ⟨[randomBitfieldFresh (choices n).picks], torrent.piecesCount⟩) := by
    rw [decode_frame_cons]
    rfl
  have hseeder : (((choices n).greets unchoke).receive fixture (choices n) [0, 0, 0, 1, 1]).receive
      fixture (choices n) [0, 0, 0, 1, 2] =
        { (choices n).greets unchoke with control := .request } := by
    rw [receive_unchoke, receive_interested hc]
  rw [greet, Prog.bind_ok hreset, Prog.bind_ok hconnect, Prog.bind_ok hrecord, Prog.bind_ok hshake,
    hgreeting, Prog.bind_ok (recvMessage_alice (by simp) hdecode rfl), ← hseeder]
  exact (Prog.bind_ok rfl).trans ((Prog.bind_ok (sendMessage_alice rfl)).trans
    (Prog.bind_ok (sendMessage_alice rfl)))

/-- The seeder and the downloader agree on a connection. -/
theorem greet_alice (h : Describes torrent fixture sha1) (hn : d.world.accepted + 1 = n)
    (hc : (choices n).WellBehaved) (hup : d.world.seeder.control ≠ .failed) :
    ∃ d₁, greet (aliceEnv fixture choices sha1) torrent d = (.ok (), d₁) ∧
      Engaged (alice h hc) d₁ [.unchoke] := by
  obtain ⟨unchoke, hgreeting, hunchoke⟩ : ∃ unchoke, Seeder.greeting (choices n)
      = frame [5, randomBitfieldFresh (choices n).picks] ++ unchoke ∧
        Carries torrent unchoke [.unchoke] := greeting_eq hc
  refine ⟨_, greet_run h hn hc hup hgreeting, rfl, ⟨rfl, rfl, rfl, fun i hi => hi⟩, hunchoke, ?_,
    rfl, ⟨_, rfl, rfl, ?_, ?_⟩⟩
  · intro m hm
    rw [List.mem_singleton.mp hm]
    trivial
  · show torrent.piecesCount ≤ 8 * ((1 : Nat) : Int)
    rw [h.piecesCount]
    decide
  · rintro i ⟨hlt, hhas⟩
    obtain ⟨h0, hlt', _⟩ := bitfieldHas_iff.mp hhas
    exact (bit_singleton h0 hlt').mpr hhas

/-- On a connection on which the seeder is well-behaved, every piece it has
    at the beginning is downloaded: whatever else it draws, the calls of
    `try_download` return the parts of the file, one after the other. -/
theorem tryDownloads_alice (h : Describes torrent fixture sha1) {tasks : List Piece} {fuel : Nat}
    (hsocket : d.socket = false) (hup : d.world.seeder.control ≠ .failed)
    (hc : (choices (d.world.accepted + 1)).WellBehaved)
    (htasks : ∀ task ∈ tasks, task.index < N_PIECES ∧
      bitfieldHas (randomBitfieldFresh (choices (d.world.accepted + 1)).picks) task.index = true)
    (hfuel : 1 + 7 * blocksOf torrent tasks < fuel) :
    ∃ d', tryDownloads (aliceEnv fixture choices sha1) torrent fuel tasks d
      = (.ok (tasks.map fun task => ⟨task.index, pieceOf fixture task.index⟩), d') := by
  obtain ⟨d₁, hgreet, hengaged⟩ := greet_alice h rfl hc hup
  have hlt : [Message.unchoke].length < fuel := by
    show 1 < fuel
    omega
  obtain ⟨ms, hconnects, hle⟩ := hengaged.connects_of_greet hsocket hgreet rfl hlt
  have hle : ms.length ≤ 1 := hle
  have hsmall : ∀ task ∈ tasks, pieceLength torrent task.index < 2 ^ 29 := by
    intro task htask
    obtain ⟨hlt, hhas⟩ := htasks task htask
    have hsize := length_pieceOf fixture task.index
    rw [h.length_eq (bitfieldHas_iff.mp hhas).1 hlt, hsize]
    unfold PIECE_LENGTH
    omega
  exact hconnects.tryDownloads htasks hsmall (by show ms.length + 7 * _ < fuel; omega)

/-! ### A file of zeroes

    It has the size of the file the seeder is shipped with. -/

def zeroes : Bytes := List.replicate 163783 0

def zeroesTorrent : TorrentFile where
  pieceHashes := (List.range 5).map fun i : Nat => Sha1.sha1 (pieceOf zeroes i)
  pieceLength := 32768
  length := 163783
  piecesCount := 5

theorem zeroes_describes : Describes zeroesTorrent zeroes Sha1.sha1 where
  piecesCount := rfl
  pieceLength := rfl
  length := by
    rw [zeroes, List.length_replicate]
    rfl
  lt_length := by
    rw [zeroes, List.length_replicate]
    decide
  length_le := by
    rw [zeroes, List.length_replicate]
    decide
  infoHash := rfl
  hashes := by
    intro i hi
    have hrange : (List.range 5)[i]? = some i := List.getElem?_range hi
    rw [zeroesTorrent, List.getElem?_map, hrange]
    rfl

/-- A seeder that talks a lot and chokes the downloader after every block. -/
def talkative : Choices where
  wrongInfoHash := false
  dropsAfterHandshake := false
  picks := fun i => i = 0 ∨ i = 4
  sendsBitfield := true
  unchokes := true
  badUnchoke := true
  turns := fun _ => ⟨false, none, ⟨2, by decide⟩, false, true, true, true, true, false⟩

theorem talkative_wellBehaved : talkative.WellBehaved :=
  ⟨rfl, rfl, rfl, rfl, fun _ => rfl, fun _ => rfl, fun _ => rfl, fun _ => rfl⟩

theorem talkative_has {task : Piece} (h : task ∈ [⟨4, []⟩, ⟨0, []⟩, (⟨4, []⟩ : Piece)]) :
    task.index < N_PIECES ∧
      bitfieldHas (randomBitfieldFresh talkative.picks) task.index = true := by
  simp only [List.mem_cons, List.not_mem_nil, or_false] at h
  rcases h with rfl | rfl | rfl <;> decide

theorem tryDownloads_alice_zeroes :
    ∃ d', tryDownloads (aliceEnv zeroes (fun _ => talkative) Sha1.sha1) zeroesTorrent 44
        [⟨4, []⟩, ⟨0, []⟩, ⟨4, []⟩] { world := {} }
      = (.ok ([⟨4, []⟩, ⟨0, []⟩, (⟨4, []⟩ : Piece)].map fun task =>
          ⟨task.index, pieceOf zeroes task.index⟩), d') :=
  tryDownloads_alice zeroes_describes rfl (by decide) talkative_wellBehaved
    (fun _ h => talkative_has h) (by decide)

/-- The first connection of the talkative seeder. -/
def zeroesPeer : Responder (aliceEnv zeroes (fun _ => talkative) Sha1.sha1) zeroesTorrent :=
  alice (n := 1) zeroes_describes talkative_wellBehaved

theorem greet_zeroes :
    ∃ d₁, greet (aliceEnv zeroes (fun _ => talkative) Sha1.sha1) zeroesTorrent { world := {} }
        = (.ok (), d₁) ∧ Engaged zeroesPeer d₁ [.unchoke] :=
  greet_alice zeroes_describes rfl talkative_wellBehaved (by decide)

theorem tryDownloads_responder_zeroes :
    ∃ d', tryDownloads (aliceEnv zeroes (fun _ => talkative) Sha1.sha1) zeroesTorrent 44
        [⟨4, []⟩, ⟨0, []⟩, ⟨4, []⟩] { world := {} }
      = (.ok ([⟨4, []⟩, ⟨0, []⟩, (⟨4, []⟩ : Piece)].map fun task =>
          ⟨task.index, pieceOf zeroes task.index⟩), d') := by
  obtain ⟨d₁, hgreet, hengaged⟩ := greet_zeroes
  exact tryDownloads_responder zeroesPeer rfl hgreet hengaged rfl (fun _ h => talkative_has h)
    (by decide) (by decide)

end Furrent.Faker
