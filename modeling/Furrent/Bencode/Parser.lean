import Furrent.Bencode.Value

/-! # The Bencode parser

    Model of `src/bencode/bencode_parser.cpp`. The member `_index` is passed
    along: a function takes the index it starts at and returns the index it
    leaves behind. Errors and exceptions are passed on by every caller, so
    they are the failures of one `Except` monad.

    `_tokens[_index]` is not bounds checked. Index `size()` is the
    terminating NUL of `std::string`; what an access further out yields is a
    parameter of the model.

    The mutual recursion of the source is cut at `decode`: the functions for
    lists and dictionaries take the decoder of their elements as an argument,
    and `decodeValue` hands them itself with one less level of nesting. Both
    the nesting and the loops carry a bound; `decode_ne_outOfFuel` shows that
    the bounds are never met. -/

namespace Furrent.Bencode

open Cpp

/-! ### Errors -/

/-- `BencodeParserError`. -/
inductive BencodeParserError where
  | invalidString
  | intFormat
  | intValue
  | stringFormat
  | listFormat
  | dictFormat
  | dictKey
  | dictKeyOrder
  deriving DecidableEq, Repr

/-- `BencodeResult`, for a call that may also throw. -/
abbrev Parse (α : Type) := Outcome BencodeParserError α

/-! ### Tokens -/

/-- The string under the parser, and what lies behind its terminating NUL. -/
structure Tokens where
  text : Bytes
  beyond : Nat → Option UInt8

namespace Tokens

/-- `_tokens.size()`. -/
def size (t : Tokens) : Nat := t.text.length

/-- `_tokens[i]`. -/
def read (t : Tokens) (i : Nat) : Parse UInt8 :=
  match uncheckedGet (t.text ++ [0]) t.beyond i with
  | some b => .ok b
  | none => .error .trap

/-- The bytes collected by
    `while (_index < size && _tokens[_index] != stop)` from index `i` on. -/
def scan (t : Tokens) (stop : UInt8) (i : Nat) : Bytes :=
  (t.text.drop i).takeWhile (· ≠ stop)

/-- The loop condition `_index < size && _tokens[_index] != 'e'`. -/
def more (t : Tokens) (i : Nat) : Bool :=
  match t.text[i]? with
  | some b => b ≠ charE
  | none => false

end Tokens

/-! ### What is left of the input

    The parser walks by index, the grammar speaks of byte strings. `rest`
    relates the two: what is left of the text at an index. -/

namespace Tokens

variable {t : Tokens} {i : Nat} {b stop : UInt8} {c r s : Bytes}

/-- What is left of the text at index `i`. -/
def rest (t : Tokens) (i : Nat) : Bytes := t.text.drop i

theorem length_rest : (t.rest i).length = t.size - i := List.length_drop

theorem rest_of_append (h : t.rest i = s ++ r) : t.rest (i + s.length) = r := by
  unfold rest at *
  rw [← List.drop_drop, h, List.drop_left]

theorem rest_succ (h : t.rest i = b :: r) : t.rest (i + 1) = r :=
  rest_of_append (s := [b]) h

theorem lt_size_of_rest (h : t.rest i = b :: r) : i < t.size := by
  have := congrArg List.length h
  rw [length_rest, List.length_cons] at this
  omega

theorem getElem?_of_rest (h : t.rest i = b :: r) : t.text[i]? = some b := by
  have := congrArg List.head? h
  rwa [rest, List.head?_drop] at this

theorem read_of_rest (h : t.rest i = b :: r) : t.read i = .ok b := by
  have hlt : i < t.text.length := lt_size_of_rest h
  have hget : (t.text ++ [0])[i]? = some b := by
    rw [List.getElem?_append_left hlt]
    exact getElem?_of_rest h
  simp [read, uncheckedGet, hget]

theorem rest_of_lt (h : i < t.size) : ∃ b r, t.rest i = b :: r :=
  ⟨t.text[i], t.text.drop (i + 1), List.drop_eq_getElem_cons h⟩

theorem rest_of_read (h : i < t.size) (hr : t.read i = .ok b) : ∃ r, t.rest i = b :: r := by
  obtain ⟨b', r, hb'⟩ := rest_of_lt h
  rw [read_of_rest hb'] at hr
  cases hr
  exact ⟨r, hb'⟩

theorem more_of_rest (h : t.rest i = b :: r) : t.more i = decide (b ≠ charE) := by
  simp [more, getElem?_of_rest h]

theorem more_of_ge (h : t.size ≤ i) : t.more i = false := by
  have hnone : t.text[i]? = none := List.getElem?_eq_none h
  simp [more, hnone]

theorem lt_size_of_more (h : t.more i = true) : i < t.size := by
  by_contra hge
  rw [more_of_ge (by omega)] at h
  exact absurd h (by decide)

/-- A scan stops at the first `stop`. -/
theorem scan_of_rest (h : t.rest i = c ++ stop :: r) (hc : ∀ b ∈ c, b ≠ stop) :
    t.scan stop i = c := by
  have hc' : ∀ b ∈ c, decide (b ≠ stop) = true := by simpa using hc
  have hdrop : t.text.drop i = c ++ stop :: r := h
  rw [scan, hdrop, List.takeWhile_append_of_pos hc']
  simp

theorem rest_scan (t : Tokens) (stop : UInt8) (i : Nat) :
    t.rest i = t.scan stop i ++ t.rest (i + (t.scan stop i).length) := by
  have h : t.rest i = t.scan stop i ++ (t.text.drop i).dropWhile (· ≠ stop) :=
    (List.takeWhile_append_dropWhile).symm
  rw [rest_of_append h]
  exact h

/-- What is left after a scan is empty or starts with `stop`. -/
theorem rest_after_scan (h : t.rest (i + (t.scan stop i).length) = b :: r) : b = stop := by
  have hd : t.rest (i + (t.scan stop i).length) = (t.text.drop i).dropWhile (· ≠ stop) :=
    rest_of_append (List.takeWhile_append_dropWhile).symm
  rw [hd] at h
  have hhead := List.head?_dropWhile_not (fun b : UInt8 => decide (b ≠ stop)) (t.text.drop i)
  rw [h] at hhead
  simpa using hhead

end Tokens

/-! ### Integers and strings -/

/-- `BencodeParser::decode_int`. -/
def decodeInt (t : Tokens) (i : Nat) : Parse (BencodeValue × Nat) :=
  if (t.size : Int) - i < 3 then .error (.error .intFormat)
  else
    let integer := t.scan charE (i + 1)
    let i := i + 1 + integer.length
    if i = t.size then .error (.error .intFormat)
    else do
      let token ← t.read i
      if token ≠ charE then .error (.error .intFormat)
      -- "-0"
      else if integer = [45, 48] then .error (.error .intValue)
      else if ¬ Numeral.IsSigned integer then .error (.error .intValue)
      else
        match stol integer with
        | .ok n => .ok (.int n, i + 1)
        | .error x => .error (.throw x)

/-- `BencodeParser::decode_string`. -/
def decodeString (t : Tokens) (i : Nat) : Parse (BencodeValue × Nat) :=
  if (t.size : Int) - i < 3 then .error (.error .stringFormat)
  else
    let len := t.scan charColon i
    if ¬ Numeral.IsNumeral len then .error (.error .invalidString)
    else
      -- the index skips the ':' also when the scan ran into the end
      let i := i + len.length + 1
      match stol len with
      | .error x => .error (.throw x)
      | .ok lengthStr =>
        let str := (t.text.drop i).take lengthStr.toInt.toNat
        if INT64_MAX < str.length ∨ (str.length : Int) ≠ lengthStr.toInt then
          .error (.error .invalidString)
        else .ok (.string str, i + str.length)

/-! ### Lists and dictionaries -/

/-- The loop of `decode_list`, at most `n` times. -/
def decodeListLoop (t : Tokens) (dec : Nat → Parse (BencodeValue × Nat)) :
    Nat → Nat → List BencodeValue → Parse (List BencodeValue × Nat)
  | 0, _, _ => .error .outOfFuel
  | n + 1, i, ptr =>
    if t.more i then do
      let (v, i) ← dec i
      decodeListLoop t dec n i (ptr ++ [v])
    else .ok (ptr, i)

/-- `BencodeParser::decode_list`. -/
def decodeList (t : Tokens) (dec : Nat → Parse (BencodeValue × Nat)) (i : Nat) :
    Parse (BencodeValue × Nat) :=
  if (t.size : Int) - i < 2 then .error (.error .listFormat)
  else do
    let (ptr, i) ← decodeListLoop t dec (t.size + 1) (i + 1) []
    if t.size ≤ i then .error (.error .listFormat)
    else do
      let token ← t.read i
      if token ≠ charE then .error (.error .listFormat)
      else .ok (.list ptr, i + 1)

/-- The loop of `decode_dict`, at most `n` times. -/
def decodeDictLoop (t : Tokens) (dec : Nat → Parse (BencodeValue × Nat)) :
    Nat → Nat → List Bytes → List (Bytes × BencodeValue) →
      Parse (List Bytes × List (Bytes × BencodeValue) × Nat)
  | 0, _, _, _ => .error .outOfFuel
  | n + 1, i, keys, ptr =>
    if t.more i then do
      let (key, i) ← dec i
      match key with
      | .string keyStr => do
        let (value, i) ← dec i
        decodeDictLoop t dec n i (keys ++ [keyStr]) (OrderedMap.insert keyStr value ptr)
      | _ => .error (.error .dictKey)
    else .ok (keys, ptr, i)

/-- No two neighbours with `keys[i] > keys[i + 1]`. -/
def keysOrdered : List Bytes → Bool
  | a :: b :: keys => ¬ b < a && keysOrdered (b :: keys)
  | _ => true

/-- `BencodeParser::decode_dict`. -/
def decodeDict (t : Tokens) (dec : Nat → Parse (BencodeValue × Nat)) (i : Nat) :
    Parse (BencodeValue × Nat) :=
  if (t.size : Int) - i < 2 then .error (.error .dictFormat)
  else do
    let (keys, ptr, i) ← decodeDictLoop t dec (t.size + 1) (i + 1) [] []
    if t.size ≤ i then .error (.error .dictFormat)
    else do
      let token ← t.read i
      if token ≠ charE then .error (.error .dictFormat)
      else if ¬ keysOrdered keys then .error (.error .dictKeyOrder)
      else .ok (.dict ptr, i + 1)

/-! ### The entry points -/

/-- The private `BencodeParser::decode()`, for at most `depth` levels of
    nesting. -/
def decodeValue (t : Tokens) : Nat → Nat → Parse (BencodeValue × Nat)
  | 0, _ => .error .outOfFuel
  | depth + 1, i =>
    if t.text.isEmpty then .error (.error .invalidString)
    else do
      let token ← t.read i
      if token = charI then decodeInt t i
      else if token ≤ 57 ∧ 48 ≤ token then decodeString t i
      else if token = charL then decodeList t (decodeValue t depth) i
      else if token = charD then decodeDict t (decodeValue t depth) i
      else .error (.error .invalidString)

/-- The private `BencodeParser::decode()`, run at index `i`. -/
def decodeAt (t : Tokens) (i : Nat) : Parse (BencodeValue × Nat) :=
  decodeValue t (t.size + 1) i

/-- The public `BencodeParser::decode`. -/
def decode (beyond : Nat → Option UInt8) (decoded : Bytes) : Parse BencodeValue :=
  if INT64_MAX < decoded.length then
    .error (.throw (.invalidArgument "string to decode is too large"))
  else do
    let (v, i) ← decodeAt ⟨decoded, beyond⟩ 0
    if i ≠ decoded.length then .error (.error .invalidString) else .ok v

end Furrent.Bencode
