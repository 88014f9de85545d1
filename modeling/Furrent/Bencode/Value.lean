import Furrent.Framework.Cpp
import Furrent.Framework.OrderedMap

/-! # Bencode values and their encoding

    Model of `src/bencode/bencode_value.cpp`. A `BencodeValue` is one of the
    four subclasses; the map of a `BencodeDict` is kept as the list of its
    entries in key order. `WellFormed` says that this is so at every depth.

    `toString` is the virtual `to_string()`, which `BencodeParser::encode`
    calls. -/

namespace Furrent.Bencode

/-! ### Delimiters -/

abbrev charI : UInt8 := 105      -- 'i'
abbrev charL : UInt8 := 108      -- 'l'
abbrev charD : UInt8 := 100      -- 'd'
abbrev charE : UInt8 := 101      -- 'e'
abbrev charColon : UInt8 := 58   -- ':'

/-! ### Values -/

/-- `BencodeInt`, `BencodeString`, `BencodeList` and `BencodeDict`. -/
inductive BencodeValue where
  | int (val : Int64)
  | string (val : Bytes)
  | list (val : List BencodeValue)
  | dict (val : List (Bytes × BencodeValue))

namespace BencodeValue

/-- Every dictionary in the value has strictly increasing keys. -/
inductive WellFormed : BencodeValue → Prop where
  | int (n : Int64) : WellFormed (.int n)
  | string (s : Bytes) : WellFormed (.string s)
  | list {vs : List BencodeValue} (h : ∀ v ∈ vs, WellFormed v) : WellFormed (.list vs)
  | dict {m : List (Bytes × BencodeValue)} (h : ∀ e ∈ m, WellFormed e.2)
      (sorted : OrderedMap.Sorted m) : WellFormed (.dict m)

/-! ### Encoding -/

/-- `std::to_string(s.size()) + ":" + s`. -/
def stringToString (s : Bytes) : Bytes := Numeral.decimal s.length ++ charColon :: s

mutual

/-- `BencodeValue::to_string()`. -/
def toString : BencodeValue → Bytes
  | .int val => charI :: (Numeral.signedDecimal val.toInt ++ [charE])
  | .string val => stringToString val
  | .list val => charL :: (listToString val ++ [charE])
  | .dict val => charD :: (dictToString val ++ [charE])

/-- The loop of `BencodeList::to_string()`. -/
def listToString : List BencodeValue → Bytes
  | [] => []
  | v :: vs => toString v ++ listToString vs

/-- The loop of `BencodeDict::to_string()`. -/
def dictToString : List (Bytes × BencodeValue) → Bytes
  | [] => []
  | (key, v) :: m => stringToString key ++ (toString v ++ dictToString m)

end

end BencodeValue

/-- `BencodeParser::encode`. -/
def encode (value : BencodeValue) : Bytes := value.toString

-- "d3:bar4:spam3:fooi42ee", as in the tests of the parser
example : encode (.dict [([98, 97, 114], .string [115, 112, 97, 109]),
      ([102, 111, 111], .int 42)]) =
    [100, 51, 58, 98, 97, 114, 52, 58, 115, 112, 97, 109, 51, 58, 102, 111, 111,
      105, 52, 50, 101, 101] := by decide

end Furrent.Bencode
