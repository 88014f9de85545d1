import Furrent.Framework.Assembly
import Furrent.Framework.Numeral
import Furrent.Download.Downloader

/-! # The seeder the downloader is tested against

    Model of `test/faker/alice_seeder.py`. `handle` is cut at its calls of
    `recv`: a `Seeder` stands in front of one of them, and what it does
    with the bytes it waits for is a function. Every `random.random()` is a
    field of `Choices` or `Turn`. A call `recv(n)` returns `n` bytes; the
    downloader writes each message at once.

    A `Server` is the loop of `faker_alice`, seen from a downloader that has
    one connection at a time. The branch in front of the handshake is never
    taken (`random.random() < 0.0`); the prints and the sleep are left
    out. -/

namespace Furrent.Faker

open Cpp Numeral Assembly

def N_PIECES : Nat := 5

def PIECE_LENGTH : Nat := 32768

/-! ### Bitfields of one byte -/

/-- `1 << (8 - i - 1)`. -/
def bitOf (i : Nat) : UInt8 := 1 <<< UInt8.ofNat (8 - i - 1)

/-- `bitfield_has`. No bit of a byte has a negative index. Above seven the
    shift raises, which ends the seeder like the failed assertion around the
    only call that can get there. -/
def bitfieldHas (bitfield : UInt8) (i : Int) : Bool :=
  0 ≤ i ∧ i < 8 ∧ bitfield &&& bitOf i.toNat ≠ 0

/-- `bitfield_complete`. -/
def bitfieldComplete (bitfield : UInt8) : Bool :=
  (List.range N_PIECES).all fun i => bitfieldHas bitfield i

/-- `random_bitfield_fresh`. -/
def randomBitfieldFresh (picks : Nat → Bool) : UInt8 :=
  let bitfield := (List.range N_PIECES).foldl
    (fun bitfield i => if picks i then bitfield ||| bitOf i else bitfield) 0
  if bitfield = 0 then 8 else bitfield

/-! ### Integers and the file -/

/-- `struct.unpack(">i", …)`. -/
def unpackInt (bytes : Bytes) : Int :=
  if bigEndianValue bytes < 2 ^ 31 then bigEndianValue bytes else bigEndianValue bytes - 2 ^ 32

/-- `struct.pack(">i", …)`. -/
def packInt (n : Int) : Bytes := bigEndian 4 (n % 2 ^ 32).toNat

/-- `read_fixture`. A seek in front of the file raises; `read` takes a
    negative length for the rest of the file. -/
def readFixture (fixture : Bytes) (pieceIndex pieceOffset length : Int) : Option Bytes :=
  let pos := pieceIndex * PIECE_LENGTH + pieceOffset
  if pos < 0 then none
  else if length < 0 then some (fixture.drop pos.toNat)
  else some (slice fixture pos.toNat length.toNat)

/-! ### Choices -/

/-- What is drawn in one round of the loop. -/
structure Turn where
  /-- The connection is dropped in front of the round. -/
  drops : Bool
  /-- A byte of the block is replaced, at this index modulo the length. -/
  corrupts : Option (Nat × UInt8)
  /-- The piece that is acquired. It need not be a new one here. -/
  acquires : Fin N_PIECES
  badHave : Bool
  keepAlive : Bool
  interested : Bool
  notInterested : Bool
  chokes : Bool
  /-- The seeder never comes back after a choke message. -/
  hangs : Bool
  deriving DecidableEq, Repr

/-- What is drawn on one connection. -/
structure Choices where
  wrongInfoHash : Bool
  dropsAfterHandshake : Bool
  picks : Nat → Bool
  sendsBitfield : Bool
  unchokes : Bool
  badUnchoke : Bool
  turns : Nat → Turn

/-! ### `handle` -/

/-- Which `recv` is next, or how `handle` has ended. -/
inductive Control where
  | handshake
  | unchoke
  | interested
  | request
  /-- The connection is closed. -/
  | closed
  /-- The connection is open, and nobody uses it. -/
  | hung
  /-- An assertion failed or something else was raised. -/
  | failed
  deriving DecidableEq, Repr

/-- How many bytes are waited for. -/
def Control.awaits : Control → Option Nat
  | handshake => some 68
  | unchoke => some 5
  | interested => some 5
  | request => some 17
  | _ => none

structure Seeder where
  control : Control := .handshake
  bitfield : UInt8 := 0
  /-- How many rounds of the loop are behind. -/
  turn : Nat := 0
  /-- Bytes from the downloader that have not been received. -/
  input : Bytes := []
  /-- Bytes to the downloader that have not been read. -/
  output : Bytes := []
  deriving DecidableEq, Repr

namespace Seeder

/-- `conn.send`. -/
def send (bytes : Bytes) (s : Seeder) : Seeder := { s with output := s.output ++ bytes }

variable (fixture : Bytes) (c : Choices)

/-- `b"WhoLetTheDogsOut----"`. -/
def peerId : Bytes :=
  [87, 104, 111, 76, 101, 116, 84, 104, 101, 68, 111, 103, 115, 79, 117, 116, 45, 45, 45, 45]

/-- The answer to the handshake. -/
def response (handshake : Bytes) : Bytes :=
  let handshake := if c.wrongInfoHash then handshake.set 30 0 else handshake
  handshake.take (handshake.length - 20) ++ peerId

/-- What is sent behind the answer to the handshake. -/
def greeting : Bytes :=
  (if c.sendsBitfield then [0, 0, 0, 2, 5, randomBitfieldFresh c.picks] else [])
    ++ if c.unchokes then if c.badUnchoke then [0, 0, 0, 2, 1, 5] else [0, 0, 0, 1, 1] else []

/-- From the first `recv` to the second. -/
def onHandshake (handshake : Bytes) (s : Seeder) : Seeder :=
  let s := s.send (response c handshake)
  if c.dropsAfterHandshake then { s with control := .closed }
  else { s.send (greeting c) with
    control := .unchoke, bitfield := randomBitfieldFresh c.picks }

/-- The head of the loop. -/
def nextTurn (s : Seeder) : Seeder :=
  { s with control := if (c.turns s.turn).drops then .closed else .request }

/-- The block with a byte replaced. `randint` raises for an empty range, and
    so does an assignment behind the end of the block. -/
def corrupt (t : Turn) (length : Int) (payload : Bytes) : Option Bytes :=
  match t.corrupts with
  | none => some payload
  | some (i, b) =>
    if 0 < length ∧ i % length.toNat < payload.length then some (payload.set (i % length.toNat) b)
    else none

/-- The message with the block. -/
def blockMessage (pieceIndex pieceOffset : Int) (payload : Bytes) : Bytes :=
  packInt (9 + payload.length) ++ [7] ++ packInt pieceIndex ++ packInt pieceOffset ++ payload

/-- A new piece is acquired and announced. -/
def acquire (t : Turn) (s : Seeder) : Seeder :=
  if bitfieldComplete s.bitfield then s
  else { s.send (if t.badHave then [0, 0, 0, 6, 4] ++ packInt t.acquires ++ [0]
      else [0, 0, 0, 5, 4] ++ packInt t.acquires) with
    bitfield := s.bitfield ||| bitOf t.acquires }

/-- Messages without a meaning for the downloader. -/
def chatter (t : Turn) : Bytes :=
  (if t.keepAlive then [0, 0, 0, 0] else []) ++ (if t.interested then [0, 0, 0, 1, 2] else [])
    ++ if t.notInterested then [0, 0, 0, 1, 3] else []

/-- The end of a round. -/
def endTurn (t : Turn) (s : Seeder) : Seeder :=
  let next (s : Seeder) := nextTurn c { s with turn := s.turn + 1 }
  if t.chokes then
    let s := s.send [0, 0, 0, 1, 0]
    if t.hangs then { s with control := .hung } else next (s.send [0, 0, 0, 1, 1])
  else next s

/-- A request for a piece the seeder has is answered. -/
def serve (pieceIndex pieceOffset length : Int) (s : Seeder) : Seeder :=
  let t := c.turns s.turn
  match (readFixture fixture pieceIndex pieceOffset length).bind (corrupt t length) with
  | none => { s with control := .failed }
  | some payload =>
    let s := acquire t (s.send (blockMessage pieceIndex pieceOffset payload))
    endTurn c t (s.send (chatter t))

/-- A round of the loop behind its `recv`. -/
def onRequest (request : Bytes) (s : Seeder) : Seeder :=
  let pieceIndex := unpackInt (slice request 5 4)
  let pieceOffset := unpackInt (slice request 9 4)
  let length := unpackInt (request.drop 13)
  if request[3]? = some 13 ∧ request[4]? = some 6 ∧ bitfieldHas s.bitfield pieceIndex then
    serve fixture c pieceIndex pieceOffset length s
  else { s with control := .failed }

/-- From one `recv`, which has returned `bytes`, to the next. -/
def resume (bytes : Bytes) (s : Seeder) : Seeder :=
  match s.control with
  | .handshake => onHandshake c bytes s
  | .unchoke => if bytes = [0, 0, 0, 1, 1] then { s with control := .interested }
      else { s with control := .failed }
  | .interested => if bytes = [0, 0, 0, 1, 2] then nextTurn c s
      else { s with control := .failed }
  | .request => onRequest fixture c bytes s
  | _ => s

/-- As long as there are the bytes that are waited for, at most `n` times. -/
def react : Nat → Seeder → Seeder
  | 0, s => s
  | n + 1, s =>
    match s.control.awaits with
    | none => s
    | some k =>
      if k ≤ s.input.length then
        react n (resume fixture c (s.input.take k) { s with input := s.input.drop k })
      else s

/-- Bytes arrive. No message is empty. -/
def receive (bytes : Bytes) (s : Seeder) : Seeder :=
  react fixture c (s.input.length + bytes.length) { s with input := s.input ++ bytes }

/-! ### Receiving -/

variable {fixture : Bytes} {c : Choices} {s : Seeder} {bytes : Bytes}

@[simp] theorem input_send : (s.send bytes).input = s.input := rfl

@[simp] theorem input_acquire (t : Turn) : (s.acquire t).input = s.input := by
  unfold acquire
  split <;> rfl

@[simp] theorem input_endTurn (t : Turn) : (s.endTurn c t).input = s.input := by
  unfold endTurn
  split
  · split <;> rfl
  · rfl

theorem input_serve (i begin length : Int) :
    (s.serve fixture c i begin length).input = s.input := by
  unfold serve
  dsimp only
  split
  · rfl
  · simp

/-- What has been received is all that is taken off the input. -/
theorem input_resume : (s.resume fixture c bytes).input = s.input := by
  unfold resume
  split
  · unfold onHandshake
    split <;> rfl
  · split <;> rfl
  · split <;> rfl
  · unfold onRequest
    dsimp only
    split
    · exact input_serve _ _ _
    · rfl
  · rfl

theorem awaits_pos {control : Control} {k : Nat} (h : control.awaits = some k) : 0 < k := by
  cases control with
  | handshake => cases h; decide
  | unchoke => cases h; decide
  | interested => cases h; decide
  | request => cases h; decide
  | _ => cases h

theorem react_of_empty (n : Nat) (h : s.input = []) : s.react fixture c n = s := by
  cases n with
  | zero => rfl
  | succ n =>
    rw [react]
    cases hawaits : s.control.awaits with
    | none => rfl
    | some k =>
      have hpos := awaits_pos hawaits
      rw [h]
      exact if_neg (by simp; omega)

/-- The bytes that are waited for arrive. -/
theorem receive_eq (hinput : s.input = []) (hawaits : s.control.awaits = some bytes.length) :
    s.receive fixture c bytes = s.resume fixture c bytes := by
  have hpos := awaits_pos hawaits
  obtain ⟨n, hn⟩ : ∃ n, bytes.length = n + 1 := ⟨bytes.length - 1, by omega⟩
  have hs : ({ s with input := [] } : Seeder) = s := by rw [← hinput]
  rw [receive, hinput, List.nil_append, List.length_nil, Nat.zero_add, hn, react]
  simp only [hawaits, le_refl, if_true, List.take_length, List.drop_length, hs]
  exact react_of_empty n (input_resume.trans hinput)

end Seeder

/-! ### The connection -/

structure Server where
  /-- How many connections have been accepted. -/
  accepted : Nat := 0
  /-- The connection accepted last. -/
  seeder : Seeder := { control := .closed }
  deriving DecidableEq, Repr

/-- The bytes still to be read are replaced. -/
def Server.withOutput (w : Server) (output : Bytes) : Server :=
  { w with seeder := { w.seeder with output := output } }

/-- The environment of a downloader that has the seeder as its peer. Once an
    assertion has failed, nobody listens any more. -/
def aliceEnv (fixture : Bytes) (choices : Nat → Choices) (sha1 : Bytes → Bytes) :
    Download.Env Server where
  connect := fun w =>
    if w.seeder.control = .failed then (.error .other, w) else (.ok (), ⟨w.accepted + 1, {}⟩)
  isOpen := fun w => (true, w)
  write := fun bytes w =>
    (.ok (), { w with seeder := w.seeder.receive fixture (choices w.accepted) bytes })
  read := fun n w =>
    if h : n ≤ w.seeder.output.length then
      (.ok ⟨w.seeder.output.take n, List.length_take_of_le h⟩,
        w.withOutput (w.seeder.output.drop n))
    else (.error (if w.seeder.control = .closed then .other else .timeout), w)
  -- the seeder receives the end of the stream and returns
  close := fun w => if w.seeder.control = .failed then w
    else { w with seeder := { w.seeder with control := .closed, output := [] } }
  beyond := fun _ _ => none
  sha1 := sha1

end Furrent.Faker
