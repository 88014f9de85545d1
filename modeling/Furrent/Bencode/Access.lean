import Furrent.Bencode.Value

/-! # Reading a tree

    How the readers of bencode trees get at the values: with `dynamic_cast`
    to a reference of one of the subclasses, which throws `std::bad_cast`
    for another one, and with `std::map::at`, which throws for a key that is
    not there. -/

namespace Furrent.Bencode

open Cpp

variable {ε : Type}

namespace BencodeValue

/-- `dynamic_cast<BencodeInt&>(value).value()`. -/
def asInt : BencodeValue → Outcome ε Int64
  | .int val => .ok val
  | _ => .error (.throw .badCast)

/-- `dynamic_cast<BencodeString&>(value).value()`. -/
def asString : BencodeValue → Outcome ε Bytes
  | .string val => .ok val
  | _ => .error (.throw .badCast)

/-- `dynamic_cast<BencodeList&>(value).value()`. -/
def asList : BencodeValue → Outcome ε (List BencodeValue)
  | .list val => .ok val
  | _ => .error (.throw .badCast)

/-- `dynamic_cast<BencodeDict&>(value).value()`. -/
def asDict : BencodeValue → Outcome ε (List (Bytes × BencodeValue))
  | .dict val => .ok val
  | _ => .error (.throw .badCast)

end BencodeValue

/-- `dict.at(key)`. -/
def atKey (dict : List (Bytes × BencodeValue)) (key : Bytes) : Outcome ε BencodeValue :=
  match OrderedMap.find key dict with
  | some v => .ok v
  | none => .error (.throw (.outOfRange "map::at"))

/-- `dynamic_cast<BencodeInt&>(*dict.at(key)).value()`. -/
def intAt (dict : List (Bytes × BencodeValue)) (key : Bytes) : Outcome ε Int64 := do
  (← atKey dict key).asInt

/-- `dynamic_cast<BencodeString&>(*dict.at(key)).value()`. -/
def stringAt (dict : List (Bytes × BencodeValue)) (key : Bytes) : Outcome ε Bytes := do
  (← atKey dict key).asString

/-- `dynamic_cast<BencodeList&>(*dict.at(key)).value()`. -/
def listAt (dict : List (Bytes × BencodeValue)) (key : Bytes) :
    Outcome ε (List BencodeValue) := do
  (← atKey dict key).asList

/-- `dynamic_cast<BencodeDict&>(*dict.at(key)).value()`. -/
def dictAt (dict : List (Bytes × BencodeValue)) (key : Bytes) :
    Outcome ε (List (Bytes × BencodeValue)) := do
  (← atKey dict key).asDict

/-! ### What they return -/

variable {v : BencodeValue} {dict dict' : List (Bytes × BencodeValue)} {key : Bytes}

@[simp] theorem asInt_eq_ok {n : Int64} : (v.asInt : Outcome ε Int64) = .ok n ↔ v = .int n := by
  cases v <;> simp [BencodeValue.asInt]

@[simp] theorem asString_eq_ok {s : Bytes} :
    (v.asString : Outcome ε Bytes) = .ok s ↔ v = .string s := by
  cases v <;> simp [BencodeValue.asString]

@[simp] theorem asList_eq_ok {vs : List BencodeValue} :
    (v.asList : Outcome ε (List BencodeValue)) = .ok vs ↔ v = .list vs := by
  cases v <;> simp [BencodeValue.asList]

@[simp] theorem asDict_eq_ok :
    (v.asDict : Outcome ε (List (Bytes × BencodeValue))) = .ok dict ↔ v = .dict dict := by
  cases v <;> simp [BencodeValue.asDict]

@[simp] theorem atKey_eq_ok :
    (atKey dict key : Outcome ε BencodeValue) = .ok v ↔ OrderedMap.find key dict = some v := by
  unfold atKey
  cases OrderedMap.find key dict <;> simp

@[simp] theorem intAt_eq_ok {n : Int64} :
    (intAt dict key : Outcome ε Int64) = .ok n ↔ OrderedMap.find key dict = some (.int n) := by
  simp [intAt, bind_eq_ok]

@[simp] theorem stringAt_eq_ok {s : Bytes} :
    (stringAt dict key : Outcome ε Bytes) = .ok s ↔
      OrderedMap.find key dict = some (.string s) := by
  simp [stringAt, bind_eq_ok]

@[simp] theorem listAt_eq_ok {vs : List BencodeValue} :
    (listAt dict key : Outcome ε (List BencodeValue)) = .ok vs
      ↔ OrderedMap.find key dict = some (.list vs) := by
  simp [listAt, bind_eq_ok]

@[simp] theorem dictAt_eq_ok :
    (dictAt dict key : Outcome ε (List (Bytes × BencodeValue))) = .ok dict'
      ↔ OrderedMap.find key dict = some (.dict dict') := by
  simp [dictAt, bind_eq_ok]

/-! ### Otherwise they throw -/

theorem asInt_throws : ReturnsOrThrows (fun _ => True) (v.asInt : Outcome ε Int64) := by
  cases v <;> trivial

theorem asString_throws : ReturnsOrThrows (fun _ => True) (v.asString : Outcome ε Bytes) := by
  cases v <;> trivial

theorem asDict_throws :
    ReturnsOrThrows (fun _ => True) (v.asDict : Outcome ε (List (Bytes × BencodeValue))) := by
  cases v <;> trivial

theorem atKey_throws :
    ReturnsOrThrows (fun _ => True) (atKey dict key : Outcome ε BencodeValue) := by
  unfold atKey
  cases OrderedMap.find key dict <;> trivial

theorem intAt_throws : ReturnsOrThrows (fun _ => True) (intAt dict key : Outcome ε Int64) := by
  apply atKey_throws.bind
  intro v _ _
  exact asInt_throws

theorem stringAt_throws :
    ReturnsOrThrows (fun _ => True) (stringAt dict key : Outcome ε Bytes) := by
  apply atKey_throws.bind
  intro v _ _
  exact asString_throws

theorem listAt_throws :
    ReturnsOrThrows (fun _ => True) (listAt dict key : Outcome ε (List BencodeValue)) := by
  apply atKey_throws.bind
  intro v _ _
  cases v <;> trivial

theorem dictAt_throws :
    ReturnsOrThrows (fun _ => True)
      (dictAt dict key : Outcome ε (List (Bytes × BencodeValue))) := by
  apply atKey_throws.bind
  intro v _ _
  exact asDict_throws

end Furrent.Bencode
