import Furrent.Framework.Cpp
import Furrent.Torrent.Descriptor
import Mathlib.Data.Nat.Bitwise

/-! # Messages

    Model of `src/download/util.cpp`, `src/download/bitfield.cpp` and
    `src/download/message.cpp`: the integers, the bitfield and the messages
    of the peer protocol with their wire format.

    The classes derived from `Message` are the constructors of one type,
    which is also what `kind()` returns. -/

namespace Furrent.Download

open Cpp

/-! ### Integers -/

/-- The loop of `encode_integer`: the bytes from the last to the first. -/
def encodeLoop : Nat → UInt32 → Bytes → Bytes
  | 0, _, result => result
  | i + 1, encodeMe, result =>
    encodeLoop i (encodeMe >>> 8) ((encodeMe &&& 0xFF).toUInt8 :: result)

/-- `encode_integer`. -/
def encodeInteger (n : Int) : Except StdException Bytes :=
  if n < 0 then .error (.invalidArgument "expected positive integer")
  else if 4294967295 < n then .error (.invalidArgument "integer is too big")
  else .ok (encodeLoop 4 (UInt32.ofNat n.toNat) [])

/-- The loop of `decode_integer`. A byte is shifted by eight bits for each
    byte behind it. -/
def decodeLoop : Bytes → UInt32 → UInt32
  | [], result => result
  | b :: bs, result => decodeLoop bs (result ||| b.toUInt32 <<< UInt32.ofNat (8 * bs.length))

/-- `decode_integer`, for an array of four bytes. -/
def decodeInteger (buf : Bytes) : Int := (decodeLoop buf 0).toNat

/-! ### Bitfields -/

/-- `Bitfield`. -/
structure Bitfield where
  storage : Bytes
  len : Int
  deriving DecidableEq, Repr

/-- `assert_within_bounds`. -/
def assertWithinBounds (len index : Int) : Except StdException Unit :=
  if index < 0 then .error (.invalidArgument "index less than zero")
  else if len ≤ index then .error (.invalidArgument "index too large for this bitfield")
  else .ok ()

/-- `INDEX_ZERO >> byte_offset(index)`. -/
def bitMask (index : Int) : UInt8 := 128 >>> UInt8.ofNat (index % 8).toNat

namespace Bitfield

/-- `Bitfield::get`. The byte is read without a bounds check. -/
def get (bf : Bitfield) (beyond : Nat → Option UInt8) (index : Int) : Outcome Empty Bool :=
  match assertWithinBounds bf.len index with
  | .error x => .error (.throw x)
  | .ok _ =>
    match uncheckedGet bf.storage beyond (index / 8).toNat with
    | none => .error .trap
    | some b => .ok (b &&& bitMask index ≠ 0)

/-- `Bitfield::set`. A write outside of the storage is not followed up. -/
def set (bf : Bitfield) (index : Int) (value : Bool) : Outcome Empty Bitfield :=
  match assertWithinBounds bf.len index with
  | .error x => .error (.throw x)
  | .ok _ =>
    match bf.storage[(index / 8).toNat]? with
    | none => .error .trap
    | some b =>
      let b := if value then b ||| bitMask index else b &&& ~~~ bitMask index
      .ok { bf with storage := bf.storage.set (index / 8).toNat b }

end Bitfield

/-! ### Messages -/

/-- `Message` and its subclasses. -/
inductive Message where
  | keepAlive
  | choke
  | unchoke
  | interested
  | notInterested
  | haveMsg (index : Int)
  | bitfield (bitfield : Bitfield)
  | request (index begin length : Int)
  | piece (index begin : Int) (block : Bytes)
  deriving DecidableEq, Repr

/-- `DecodeError`. -/
inductive DecodeError where
  | unexpectedPayload
  | invalidHeader
  | unknownMessageID
  | invalidPayloadLength
  deriving DecidableEq, Repr

namespace Message

/-- `message_id()`. -/
def messageId : Message → UInt8
  | keepAlive => 0
  | choke => 0
  | unchoke => 1
  | interested => 2
  | notInterested => 3
  | haveMsg _ => 4
  | bitfield _ => 5
  | request _ _ _ => 6
  | piece _ _ _ => 7

/-- `encode_payload()`. -/
def encodePayload : Message → Except StdException Bytes
  | haveMsg index => encodeInteger index
  | bitfield bf => .ok bf.storage
  | request index begin length => do
    let indexEncoded ← encodeInteger index
    let beginEncoded ← encodeInteger begin
    let lengthEncoded ← encodeInteger length
    .ok (indexEncoded ++ beginEncoded ++ lengthEncoded)
  | piece index begin block => do
    let indexEncoded ← encodeInteger index
    let beginEncoded ← encodeInteger begin
    .ok (indexEncoded ++ beginEncoded ++ block)
  | _ => .ok []

/-- `encode()`. -/
def encode : Message → Except StdException Bytes
  | keepAlive => .ok [0, 0, 0, 0]
  | m => do
    let payload ← m.encodePayload
    if INT64_MAX < payload.length then .error (.invalidArgument "payload is too big")
    else do
      let len ← encodeInteger (1 + payload.length)
      .ok (len ++ m.messageId :: payload)

/-- `HaveMessage::decode`. -/
def decodeHave : Bytes → Except DecodeError Message
  | [b₀, b₁, b₂, b₃] => .ok (haveMsg (decodeInteger [b₀, b₁, b₂, b₃]))
  | _ => .error .invalidPayloadLength

/-- `RequestMessage::decode`. -/
def decodeRequest : Bytes → Except DecodeError Message
  | [b₀, b₁, b₂, b₃, b₄, b₅, b₆, b₇, b₈, b₉, b₁₀, b₁₁] =>
    .ok (request (decodeInteger [b₀, b₁, b₂, b₃]) (decodeInteger [b₄, b₅, b₆, b₇])
      (decodeInteger [b₈, b₉, b₁₀, b₁₁]))
  | _ => .error .invalidPayloadLength

/-- `PieceMessage::decode`. -/
def decodePiece : Bytes → Except DecodeError Message
  | b₀ :: b₁ :: b₂ :: b₃ :: b₄ :: b₅ :: b₆ :: b₇ :: block =>
    .ok (piece (decodeInteger [b₀, b₁, b₂, b₃]) (decodeInteger [b₄, b₅, b₆, b₇]) block)
  | _ => .error .invalidPayloadLength

/-- The part of `decode` behind the header. -/
def decodeBody (torrent : TorrentFile) (id : UInt8) (payload : Bytes) :
    Except DecodeError Message :=
  if id < 4 then
    -- `Result::ERROR(UnexpectedPayload)` is built for a payload, but there is
    -- no `return`
    if id = 0 then .ok choke
    else if id = 1 then .ok unchoke
    else if id = 2 then .ok interested
    else .ok notInterested
  else if id < 8 then
    if id = 4 then decodeHave payload
    else if id = 5 then .ok (bitfield ⟨payload, torrent.piecesCount⟩)
    else if id = 6 then decodeRequest payload
    else decodePiece payload
  else .error .unknownMessageID

/-- `Message::decode`. The four bytes of the length are not looked at. -/
def decode (torrent : TorrentFile) (buf : Bytes) : Except DecodeError Message :=
  if buf = [0, 0, 0, 0] then .ok keepAlive
  else
    match buf with
    | _ :: _ :: _ :: _ :: id :: payload => decodeBody torrent id payload
    | _ => .error .invalidHeader

end Message

end Furrent.Download
