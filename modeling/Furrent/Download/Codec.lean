import Furrent.Download.Message
import Mathlib.Tactic.IntervalCases

/-! # The wire format

    What `encode` writes is the length of the rest as a big-endian integer,
    then the rest. `decode` reads every message back that `encode` can
    write. The other direction fails for the four kinds without a payload:
    bytes behind the id are accepted and dropped. -/

namespace Furrent.Download

open Cpp Numeral

/-! ### Integers -/

theorem encodeLoop_eq (w : Nat) (n : UInt32) (result : Bytes) :
    encodeLoop w n result = bigEndian w n.toNat ++ result := by
  induction w generalizing n result with
  | zero => rfl
  | succ w ih =>
    have hshift : (n >>> 8).toNat = n.toNat / 256 := by
      rw [UInt32.toNat_shiftRight]
      exact Nat.shiftRight_eq_div_pow _ 8
    have hbyte : (n &&& 0xFF).toUInt8 = UInt8.ofNat n.toNat := by
      apply UInt8.toNat_inj.mp
      rw [UInt32.toNat_toUInt8, UInt32.toNat_and, UInt8.toNat_ofNat']
      have hmask : n.toNat &&& (255 : UInt32).toNat = n.toNat % 2 ^ 8 :=
        Nat.and_two_pow_sub_one_eq_mod n.toNat 8
      rw [hmask]
      omega
    rw [encodeLoop, ih, hshift, hbyte, bigEndian, List.append_assoc, List.singleton_append]

/-- In the range of `uint32_t`, four big-endian bytes are written. -/
theorem encodeInteger_eq {n : Int} (h0 : 0 ≤ n) (hlt : n < 2 ^ 32) :
    encodeInteger n = .ok (bigEndian 4 n.toNat) := by
  have hn : (UInt32.ofNat n.toNat).toNat = n.toNat :=
    UInt32.toNat_ofNat_of_lt' (by show n.toNat < 4294967296; omega)
  rw [encodeInteger, if_neg (by omega), if_neg (by omega), encodeLoop_eq, hn, List.append_nil]

theorem two_pow_eight_mul (n : Nat) : 2 ^ (8 * n) = 256 ^ n := by
  rw [pow_mul]
  norm_num

/-- The bytes read so far fill the high digits, the next byte goes below. -/
theorem decodeLoop_eq (bs : Bytes) {result : UInt32} {acc : Nat} (hlen : bs.length ≤ 4)
    (hresult : result.toNat = acc * 256 ^ bs.length) :
    (decodeLoop bs result).toNat = bs.foldl (fun acc b => acc * 256 + b.toNat) acc := by
  induction bs generalizing result acc with
  | nil => simpa [decodeLoop] using hresult
  | cons b bs ih =>
    have hb := b.toNat_lt
    rw [List.length_cons] at hlen hresult
    -- The shifted byte stays below the bits already set, so `|=` is a sum.
    have hsmall : b.toNat * 256 ^ bs.length < 2 ^ (8 * (bs.length + 1)) := by
      rw [Nat.mul_add, pow_add, two_pow_eight_mul, Nat.mul_comm]
      exact Nat.mul_lt_mul_of_pos_left (by omega) (by positivity)
    have hword : (2 : Nat) ^ (8 * (bs.length + 1)) ≤ 2 ^ 32 :=
      Nat.pow_le_pow_right (by omega) (by omega)
    have hshift : (b.toUInt32 <<< UInt32.ofNat (8 * bs.length)).toNat
        = b.toNat * 256 ^ bs.length := by
      rw [UInt32.toNat_shiftLeft, UInt8.toNat_toUInt32, UInt32.toNat_ofNat', Nat.shiftLeft_eq,
        show 8 * bs.length % 2 ^ 32 % 32 = 8 * bs.length by omega, two_pow_eight_mul]
      exact Nat.mod_eq_of_lt (by omega)
    have hhigh : result.toNat = acc <<< (8 * (bs.length + 1)) := by
      rw [hresult, Nat.shiftLeft_eq, two_pow_eight_mul]
    have hor : (result ||| b.toUInt32 <<< UInt32.ofNat (8 * bs.length)).toNat
        = (acc * 256 + b.toNat) * 256 ^ bs.length := by
      rw [UInt32.toNat_or, hshift, hhigh, ← Nat.shiftLeft_add_eq_or_of_lt hsmall,
        Nat.shiftLeft_eq, two_pow_eight_mul]
      ring
    rw [decodeLoop, ih (by omega) hor, List.foldl_cons]

theorem decodeInteger_eq {buf : Bytes} (h : buf.length = 4) :
    decodeInteger buf = bigEndianValue buf := by
  have hloop : (decodeLoop buf 0).toNat = bigEndianValue buf :=
    decodeLoop_eq buf (by omega) (by simp)
  rw [decodeInteger, hloop]

theorem decodeInteger_bigEndian {n : Int} (h0 : 0 ≤ n) (hlt : n < 2 ^ 32) :
    decodeInteger (bigEndian 4 n.toNat) = n := by
  rw [decodeInteger_eq (length_bigEndian 4 _), bigEndianValue_bigEndian (by omega)]
  omega

theorem encodeInteger_decodeInteger {buf : Bytes} (h : buf.length = 4) :
    encodeInteger (decodeInteger buf) = .ok buf := by
  have hlt := bigEndianValue_lt buf
  rw [h] at hlt
  rw [decodeInteger_eq h, encodeInteger_eq (by omega) (by omega), Int.toNat_natCast, ← h,
    bigEndian_bigEndianValue]

/-- Four bytes are a list of four. -/
theorem exists_four {buf : Bytes} (h : buf.length = 4) :
    ∃ b₀ b₁ b₂ b₃, buf = [b₀, b₁, b₂, b₃] := by
  match buf, h with
  | [b₀, b₁, b₂, b₃], _ => exact ⟨b₀, b₁, b₂, b₃, rfl⟩

/-! ### Payloads -/

namespace Message

variable {torrent : TorrentFile}

/-- What `encode` can write: integers in the range of `uint32_t`, a payload
    whose length fits, a bitfield of the torrent. -/
def Encodable (torrent : TorrentFile) : Message → Prop
  | haveMsg index => 0 ≤ index ∧ index < 2 ^ 32
  | bitfield bf => bf.len = torrent.piecesCount ∧ bf.storage.length + 1 < 2 ^ 32
  | request index begin length =>
    (0 ≤ index ∧ index < 2 ^ 32) ∧ (0 ≤ begin ∧ begin < 2 ^ 32) ∧ 0 ≤ length ∧ length < 2 ^ 32
  | piece index begin block =>
    (0 ≤ index ∧ index < 2 ^ 32) ∧ (0 ≤ begin ∧ begin < 2 ^ 32) ∧ block.length + 9 < 2 ^ 32
  | _ => True

theorem decodeHave_of_length {buf : Bytes} (h : buf.length = 4) :
    decodeHave buf = .ok (haveMsg (decodeInteger buf)) := by
  obtain ⟨b₀, b₁, b₂, b₃, rfl⟩ := exists_four h
  rfl

theorem decodeRequest_append {bi bb bl : Bytes} (hi : bi.length = 4) (hb : bb.length = 4)
    (hl : bl.length = 4) : decodeRequest (bi ++ bb ++ bl)
      = .ok (request (decodeInteger bi) (decodeInteger bb) (decodeInteger bl)) := by
  obtain ⟨_, _, _, _, rfl⟩ := exists_four hi
  obtain ⟨_, _, _, _, rfl⟩ := exists_four hb
  obtain ⟨_, _, _, _, rfl⟩ := exists_four hl
  rfl

theorem decodePiece_append {bi bb : Bytes} (hi : bi.length = 4) (hb : bb.length = 4)
    (block : Bytes) : decodePiece (bi ++ bb ++ block)
      = .ok (piece (decodeInteger bi) (decodeInteger bb) block) := by
  obtain ⟨_, _, _, _, rfl⟩ := exists_four hi
  obtain ⟨_, _, _, _, rfl⟩ := exists_four hb
  rfl

/-- The payload is written and read back by the code for its id. -/
theorem decodeBody_encodePayload {m : Message} (hm : m.Encodable torrent) (hk : m ≠ keepAlive) :
    ∃ payload, m.encodePayload = .ok payload ∧ payload.length + 1 < 2 ^ 32 ∧
      decodeBody torrent m.messageId payload = .ok m := by
  cases m with
  | keepAlive => exact absurd rfl hk
  | choke => exact ⟨[], rfl, by decide, rfl⟩
  | unchoke => exact ⟨[], rfl, by decide, rfl⟩
  | interested => exact ⟨[], rfl, by decide, rfl⟩
  | notInterested => exact ⟨[], rfl, by decide, rfl⟩
  | haveMsg index =>
    obtain ⟨h0, hlt⟩ := hm
    refine ⟨bigEndian 4 index.toNat, encodeInteger_eq h0 hlt, by simp, ?_⟩
    show decodeHave (bigEndian 4 index.toNat) = _
    rw [decodeHave_of_length (length_bigEndian 4 _), decodeInteger_bigEndian h0 hlt]
  | bitfield bf =>
    obtain ⟨hlen, hsize⟩ := hm
    refine ⟨bf.storage, rfl, hsize, ?_⟩
    show Except.ok (bitfield ⟨bf.storage, torrent.piecesCount⟩) = _
    rw [← hlen]
  | request index begin length =>
    obtain ⟨⟨hi0, hi⟩, ⟨hb0, hb⟩, hl0, hl⟩ := hm
    refine ⟨bigEndian 4 index.toNat ++ bigEndian 4 begin.toNat ++ bigEndian 4 length.toNat,
      ?_, by simp, ?_⟩
    · rw [encodePayload, encodeInteger_eq hi0 hi, encodeInteger_eq hb0 hb,
        encodeInteger_eq hl0 hl]
      rfl
    · show decodeRequest (bigEndian 4 index.toNat ++ bigEndian 4 begin.toNat ++
        bigEndian 4 length.toNat) = .ok (request index begin length)
      rw [decodeRequest_append (length_bigEndian 4 _) (length_bigEndian 4 _)
        (length_bigEndian 4 _), decodeInteger_bigEndian hi0 hi, decodeInteger_bigEndian hb0 hb,
        decodeInteger_bigEndian hl0 hl]
  | piece index begin block =>
    obtain ⟨⟨hi0, hi⟩, ⟨hb0, hb⟩, hsize⟩ := hm
    refine ⟨bigEndian 4 index.toNat ++ bigEndian 4 begin.toNat ++ block, ?_, ?_, ?_⟩
    · rw [encodePayload, encodeInteger_eq hi0 hi, encodeInteger_eq hb0 hb]
      rfl
    · simp only [List.length_append, length_bigEndian]
      omega
    · show decodePiece (bigEndian 4 index.toNat ++ bigEndian 4 begin.toNat ++ block)
        = .ok (piece index begin block)
      rw [decodePiece_append (length_bigEndian 4 _) (length_bigEndian 4 _),
        decodeInteger_bigEndian hi0 hi, decodeInteger_bigEndian hb0 hb]

/-! ### Frames -/

/-- A message as `recv_message` hands it to `decode`: four bytes that give
    the length of the rest, and the rest. -/
def frame (body : Bytes) : Bytes := bigEndian 4 body.length ++ body

theorem length_frame (body : Bytes) : (frame body).length = body.length + 4 := by
  rw [frame, List.length_append, length_bigEndian]
  omega

theorem encode_eq_frame {m : Message} {payload : Bytes} (hk : m ≠ keepAlive)
    (h : m.encodePayload = .ok payload) (hlen : payload.length + 1 < 2 ^ 32) :
    m.encode = .ok (frame (m.messageId :: payload)) := by
  have hint : encodeInteger (1 + payload.length) = .ok (bigEndian 4 (payload.length + 1)) := by
    rw [encodeInteger_eq (by omega) (by omega)]
    congr 2
    omega
  have hmax : ¬ INT64_MAX < payload.length := by
    unfold INT64_MAX
    omega
  -- The eight classes with an id share the inherited `encode`.
  have hencode : m.encode = (do
      let payload ← m.encodePayload
      if INT64_MAX < payload.length then .error (.invalidArgument "payload is too big")
      else do
        let len ← encodeInteger (1 + payload.length)
        .ok (len ++ m.messageId :: payload)) := by
    cases m with
    | keepAlive => exact absurd rfl hk
    | _ => rfl
  rw [hencode, h]
  show (if INT64_MAX < payload.length then _ else _) = _
  rw [if_neg hmax, hint]
  rfl

theorem decode_frame_cons (torrent : TorrentFile) (id : UInt8) (payload : Bytes) :
    decode torrent (frame (id :: payload)) = decodeBody torrent id payload := by
  -- `decode` takes four bytes off without looking at them; only the test for
  -- `[0, 0, 0, 0]` could see them, and the frame is longer than that.
  obtain ⟨b₀, b₁, b₂, b₃, hb⟩ := exists_four (length_bigEndian 4 (id :: payload).length)
  have hne : b₀ :: b₁ :: b₂ :: b₃ :: id :: payload ≠ [0, 0, 0, 0] := by simp
  rw [frame, hb]
  exact if_neg hne

/-- `decode` reads back what `encode` writes, and what it writes is a frame. -/
theorem decode_encode {m : Message} (hm : m.Encodable torrent) :
    ∃ body, m.encode = .ok (frame body) ∧ body.length < 2 ^ 32 ∧
      decode torrent (frame body) = .ok m := by
  by_cases hk : m = keepAlive
  · rw [hk]
    exact ⟨[], rfl, by decide, rfl⟩
  · obtain ⟨payload, hpayload, hlen, hdecode⟩ := decodeBody_encodePayload hm hk
    refine ⟨m.messageId :: payload, encode_eq_frame hk hpayload hlen, hlen, ?_⟩
    rw [decode_frame_cons, hdecode]

/-! ### Accepted frames -/

theorem lt_eight_cases {id : UInt8} (h : id < 8) :
    id = 0 ∨ id = 1 ∨ id = 2 ∨ id = 3 ∨ id = 4 ∨ id = 5 ∨ id = 6 ∨ id = 7 := by
  have hlt : id.toNat < 8 := UInt8.lt_iff_toNat_lt.mp h
  have hid : id = UInt8.ofNat id.toNat := UInt8.ofNat_toNat.symm
  generalize id.toNat = n at hlt hid
  subst hid
  interval_cases n <;> simp

theorem decodeHave_eq_ok {buf : Bytes} {m : Message} (h : decodeHave buf = .ok m) :
    m.messageId = 4 ∧ m.encodePayload = .ok buf := by
  unfold decodeHave at h
  split at h
  · injection h with h
    subst h
    exact ⟨rfl, encodeInteger_decodeInteger rfl⟩
  · injection h

theorem decodeRequest_eq_ok {buf : Bytes} {m : Message} (h : decodeRequest buf = .ok m) :
    m.messageId = 6 ∧ m.encodePayload = .ok buf := by
  unfold decodeRequest at h
  split at h
  · injection h with h
    subst h
    refine ⟨rfl, ?_⟩
    rw [encodePayload, encodeInteger_decodeInteger rfl, encodeInteger_decodeInteger rfl,
      encodeInteger_decodeInteger rfl]
    rfl
  · injection h

theorem decodePiece_eq_ok {buf : Bytes} {m : Message} (h : decodePiece buf = .ok m) :
    m.messageId = 7 ∧ m.encodePayload = .ok buf := by
  unfold decodePiece at h
  split at h
  · injection h with h
    subst h
    refine ⟨rfl, ?_⟩
    rw [encodePayload, encodeInteger_decodeInteger rfl, encodeInteger_decodeInteger rfl]
    rfl
  · injection h

theorem ne_keepAlive_of_messageId {m : Message} (h : m.messageId ≠ 0) : m ≠ keepAlive := by
  intro hk
  rw [hk] at h
  exact h rfl

/-- What is accepted has the id it came with. Its payload is the one it came
    with, or empty for an id below four. -/
theorem encodePayload_of_decodeBody {id : UInt8} {payload : Bytes} {m : Message}
    (h : decodeBody torrent id payload = .ok m) :
    m ≠ keepAlive ∧ m.messageId = id ∧
      m.encodePayload = .ok (if id < 4 then [] else payload) := by
  by_cases h8 : id < 8
  · rcases lt_eight_cases h8 with rfl | rfl | rfl | rfl | rfl | rfl | rfl | rfl
    · obtain rfl : choke = m := Except.ok.inj h
      exact ⟨by simp, rfl, rfl⟩
    · obtain rfl : unchoke = m := Except.ok.inj h
      exact ⟨by simp, rfl, rfl⟩
    · obtain rfl : interested = m := Except.ok.inj h
      exact ⟨by simp, rfl, rfl⟩
    · obtain rfl : notInterested = m := Except.ok.inj h
      exact ⟨by simp, rfl, rfl⟩
    · obtain ⟨hid, hpayload⟩ := decodeHave_eq_ok (show decodeHave payload = .ok m from h)
      exact ⟨ne_keepAlive_of_messageId (by rw [hid]; decide), hid, hpayload⟩
    · obtain rfl : bitfield ⟨payload, torrent.piecesCount⟩ = m := Except.ok.inj h
      exact ⟨by simp, rfl, rfl⟩
    · obtain ⟨hid, hpayload⟩ := decodeRequest_eq_ok (show decodeRequest payload = .ok m from h)
      exact ⟨ne_keepAlive_of_messageId (by rw [hid]; decide), hid, hpayload⟩
    · obtain ⟨hid, hpayload⟩ := decodePiece_eq_ok (show decodePiece payload = .ok m from h)
      exact ⟨ne_keepAlive_of_messageId (by rw [hid]; decide), hid, hpayload⟩
  · have h4 : ¬ id < 4 := by
      intro h4
      exact h8 (lt_trans h4 (by decide))
    rw [decodeBody, if_neg h4, if_neg h8] at h
    injection h

/-- A decoded message that is no keep-alive came with its id and payload in
    the fifth byte and behind it. -/
theorem decode_eq_ok {buf : Bytes} {m : Message} (h : decode torrent buf = .ok m)
    (hm : m ≠ keepAlive) :
    4 < buf.length ∧ decodeBody torrent m.messageId (buf.drop 5) = .ok m := by
  unfold decode at h
  split at h
  · injection h with h
    exact absurd h.symm hm
  · split at h
    · next id payload _ =>
      obtain ⟨_, hid, _⟩ := encodePayload_of_decodeBody h
      rw [hid]
      exact ⟨by simp, h⟩
    · injection h

/-- A decoded bitfield has the length of the torrent, and whatever bytes the
    peer sent. -/
theorem decode_bitfield_eq {buf : Bytes} {bf : Bitfield}
    (h : decode torrent buf = .ok (bitfield bf)) :
    4 < buf.length ∧ bf = ⟨buf.drop 5, torrent.piecesCount⟩ := by
  obtain ⟨hlen, hbody⟩ := decode_eq_ok h (by simp)
  have hbf : bitfield ⟨buf.drop 5, torrent.piecesCount⟩ = bitfield bf := Except.ok.inj hbody
  injection hbf with hbf
  exact ⟨hlen, hbf.symm⟩

theorem decode_bitfield {buf : Bytes} {bf : Bitfield}
    (h : decode torrent buf = .ok (bitfield bf)) : bf.len = torrent.piecesCount := by
  rw [(decode_bitfield_eq h).2]

theorem decode_have_nonneg {buf : Bytes} {index : Int}
    (h : decode torrent buf = .ok (haveMsg index)) : 0 ≤ index := by
  obtain ⟨_, hbody⟩ := decode_eq_ok h (by simp)
  have hhave : decodeHave (buf.drop 5) = .ok (haveMsg index) := hbody
  unfold decodeHave at hhave
  split at hhave
  · injection hhave with hhave
    injection hhave with hindex
    rw [← hindex, decodeInteger]
    omega
  · injection hhave

/-- The place of a decoded block is not before the piece. -/
theorem decode_piece_nonneg {buf block : Bytes} {index begin : Int}
    (h : decode torrent buf = .ok (piece index begin block)) : 0 ≤ begin := by
  obtain ⟨_, hbody⟩ := decode_eq_ok h (by simp)
  have hpiece : decodePiece (buf.drop 5) = .ok (piece index begin block) := hbody
  unfold decodePiece at hpiece
  split at hpiece
  · injection hpiece with hpiece
    injection hpiece with _ hbegin _
    rw [← hbegin, decodeInteger]
    omega
  · injection hpiece

/-- An accepted frame is what `encode` writes for the message, unless it
    carries bytes behind an id below four. -/
theorem encode_decode_iff {body : Bytes} {m : Message} (hlen : body.length < 2 ^ 32)
    (h : decode torrent (frame body) = .ok m) :
    m.encode = .ok (frame body) ↔
      ¬ (5 < (frame body).length ∧ ∃ id, (frame body)[4]? = some id ∧ id < 4) := by
  cases body with
  | nil =>
    obtain rfl : keepAlive = m := Except.ok.inj h
    refine ⟨fun _ hcon => ?_, fun _ => rfl⟩
    exact absurd hcon.1 (by decide)
  | cons id payload =>
    rw [decode_frame_cons] at h
    obtain ⟨hk, hid, hpayload⟩ := encodePayload_of_decodeBody h
    rw [List.length_cons] at hlen
    have hget : (frame (id :: payload))[4]? = some id := by
      rw [frame, List.getElem?_append_right (by rw [length_bigEndian]), length_bigEndian]
      rfl
    have hframe : (frame (id :: payload)).length = payload.length + 5 := length_frame _
    rw [hget, hframe]
    by_cases h4 : id < 4
    · rw [if_pos h4] at hpayload
      rw [encode_eq_frame hk hpayload (by decide), hid]
      constructor
      · intro heq hcon
        -- `encode` writes five bytes, so the frame has no byte behind its id.
        have hl := congrArg List.length (Except.ok.inj heq)
        rw [hframe, length_frame, List.length_singleton] at hl
        omega
      · intro hcon
        have hnil : payload = [] := by
          by_contra hne
          have hpos := List.length_pos_of_ne_nil hne
          exact hcon ⟨by omega, id, rfl, h4⟩
        rw [hnil]
    · rw [if_neg h4] at hpayload
      rw [encode_eq_frame hk hpayload hlen, hid]
      refine ⟨?_, fun _ => rfl⟩
      intro _ hcon
      obtain ⟨_, id', hid', hlt⟩ := hcon
      obtain rfl : id = id' := Option.some.inj hid'
      exact h4 hlt

/-- A request is accepted as it is. -/
theorem encode_decode_iff_request :
    (request 1 2 3).encode = .ok [0, 0, 0, 13, 6, 0, 0, 0, 1, 0, 0, 0, 2, 0, 0, 0, 3] := by
  have h : decode ({} : TorrentFile) (frame [6, 0, 0, 0, 1, 0, 0, 0, 2, 0, 0, 0, 3])
      = .ok (request 1 2 3) := by decide
  exact (encode_decode_iff (by decide) h).mpr (by decide)

/-- A choke message with a byte behind the id is accepted. -/
theorem choke_with_payload :
    decode ({} : TorrentFile) [0, 0, 0, 2, 0, 7] = .ok choke ∧
      frame [0, 7] = [0, 0, 0, 2, 0, 7] ∧ choke.encode = .ok [0, 0, 0, 1, 0] := by
  decide

end Message

end Furrent.Download
