import Furrent.Bencode.Parser

/-! # The length guards

    Each of `decode_int`, `decode_string`, `decode_list` and `decode_dict`
    starts by asking for a minimal number of bytes. The functions without
    these guards are written down here; they make up a parser of their own,
    which returns `OK` wherever the parser with the guards does. What follows
    from a call that returned `OK` is shown for the parser without guards.

    * The guards of lists and dictionaries change nothing, not even the
      error.
    * The guard of integers only stops calls that would fail anyway.
    * The guard of strings also stops calls that would return `OK`. -/

namespace Furrent.Bencode

open Cpp

/-! ### The parser without guards -/

namespace Unguarded

/-- `BencodeParser::decode_int` without its guard. -/
def decodeInt (t : Tokens) (i : Nat) : Parse (BencodeValue × Nat) :=
  let integer := t.scan charE (i + 1)
  let i := i + 1 + integer.length
  if i = t.size then .error (.error .intFormat)
  else do
    let token ← t.read i
    if token ≠ charE then .error (.error .intFormat)
    -- "-0"
    else if integer = [45, 48] then .error (.error .intValue)
    else if ¬ Numeral.IsSigned integer then .error (.error .intValue)
    else
      match stol integer with
      | .ok n => .ok (.int n, i + 1)
      | .error x => .error (.throw x)

/-- `BencodeParser::decode_string` without its guard. -/
def decodeString (t : Tokens) (i : Nat) : Parse (BencodeValue × Nat) :=
  let len := t.scan charColon i
  if ¬ Numeral.IsNumeral len then .error (.error .invalidString)
  else
    -- the index skips the ':' also when the scan ran into the end
    let i := i + len.length + 1
    match stol len with
    | .error x => .error (.throw x)
    | .ok lengthStr =>
      let str := (t.text.drop i).take lengthStr.toInt.toNat
      if INT64_MAX < str.length ∨ (str.length : Int) ≠ lengthStr.toInt then
        .error (.error .invalidString)
      else .ok (.string str, i + str.length)

/-- `BencodeParser::decode_list` without its guard. -/
def decodeList (t : Tokens) (dec : Nat → Parse (BencodeValue × Nat)) (i : Nat) :
    Parse (BencodeValue × Nat) := do
  let (ptr, i) ← decodeListLoop t dec (t.size + 1) (i + 1) []
  if t.size ≤ i then .error (.error .listFormat)
  else do
    let token ← t.read i
    if token ≠ charE then .error (.error .listFormat)
    else .ok (.list ptr, i + 1)

/-- `BencodeParser::decode_dict` without its guard. -/
def decodeDict (t : Tokens) (dec : Nat → Parse (BencodeValue × Nat)) (i : Nat) :
    Parse (BencodeValue × Nat) := do
  let (keys, ptr, i) ← decodeDictLoop t dec (t.size + 1) (i + 1) [] []
  if t.size ≤ i then .error (.error .dictFormat)
  else do
    let token ← t.read i
    if token ≠ charE then .error (.error .dictFormat)
    else if ¬ keysOrdered keys then .error (.error .dictKeyOrder)
    else .ok (.dict ptr, i + 1)

/-- The private `BencodeParser::decode()` over the functions without guards. -/
def decodeValue (t : Tokens) : Nat → Nat → Parse (BencodeValue × Nat)
  | 0, _ => .error .outOfFuel
  | depth + 1, i =>
    if t.text.isEmpty then .error (.error .invalidString)
    else do
      let token ← t.read i
      if token = charI then decodeInt t i
      else if token ≤ 57 ∧ 48 ≤ token then decodeString t i
      else if token = charL then decodeList t (decodeValue t depth) i
      else if token = charD then decodeDict t (decodeValue t depth) i
      else .error (.error .invalidString)

/-- The public `BencodeParser::decode` over the functions without guards. -/
def decode (beyond : Nat → Option UInt8) (decoded : Bytes) : Parse BencodeValue :=
  if INT64_MAX < decoded.length then
    .error (.throw (.invalidArgument "string to decode is too large"))
  else do
    let (v, i) ← decodeValue ⟨decoded, beyond⟩ (decoded.length + 1) 0
    if i ≠ decoded.length then .error (.error .invalidString) else .ok v

end Unguarded

variable {t : Tokens} {i j : Nat} {v : BencodeValue} {r : BencodeValue × Nat}
  {dec dec' : Nat → Parse (BencodeValue × Nat)}

/-! ### What a guard adds -/

theorem decodeInt_guard (t : Tokens) (i : Nat) :
    decodeInt t i = if (t.size : Int) - i < 3 then .error (.error .intFormat)
      else Unguarded.decodeInt t i := rfl

theorem decodeString_guard (t : Tokens) (i : Nat) :
    decodeString t i = if (t.size : Int) - i < 3 then .error (.error .stringFormat)
      else Unguarded.decodeString t i := rfl

theorem decodeList_guard (t : Tokens) (dec : Nat → Parse (BencodeValue × Nat)) (i : Nat) :
    decodeList t dec i = if (t.size : Int) - i < 2 then .error (.error .listFormat)
      else Unguarded.decodeList t dec i := rfl

theorem decodeDict_guard (t : Tokens) (dec : Nat → Parse (BencodeValue × Nat)) (i : Nat) :
    decodeDict t dec i = if (t.size : Int) - i < 2 then .error (.error .dictFormat)
      else Unguarded.decodeDict t dec i := rfl

/-! ### Integers -/

theorem length_scan (t : Tokens) (stop : UInt8) (i : Nat) :
    (t.scan stop i).length ≤ t.size - i := by
  have hlen := congrArg List.length (t.rest_scan stop i)
  rw [List.length_append, Tokens.length_rest] at hlen
  omega

/-- What `decode_int` has done when it returns. -/
theorem Unguarded.decodeInt_cases (h : Unguarded.decodeInt t i = .ok (v, j)) :
    ∃ n, v = .int n ∧ Numeral.IsSigned (t.scan charE (i + 1)) ∧
      t.scan charE (i + 1) ≠ [45, 48] ∧ n.toInt = Numeral.signedValue (t.scan charE (i + 1)) ∧
      j = i + 1 + (t.scan charE (i + 1)).length + 1 ∧ j ≤ t.size := by
  obtain ⟨hend, h⟩ := guard_eq_ok.mp h
  obtain ⟨token, _, h⟩ := bind_eq_ok.mp h
  obtain ⟨_, h⟩ := guard_eq_ok.mp h
  obtain ⟨hzero, h⟩ := guard_eq_ok.mp h
  obtain ⟨hsigned, h⟩ := guard_eq_ok.mp h
  have hsigned := not_not.mp hsigned
  -- A digit was scanned, so the scan started inside the text.
  have hpos := Numeral.length_pos_of_isSigned hsigned
  have hscan := length_scan t charE (i + 1)
  split at h
  · next n hn =>
    cases h
    exact ⟨n, rfl, hsigned, hzero, (stol_eq_ok_iff hsigned n).mp hn, rfl, by omega⟩
  · cases h

/-- An integer takes an `i`, a digit and an `e`. -/
theorem Unguarded.three_le_of_decodeInt (h : Unguarded.decodeInt t i = .ok (v, j)) :
    i + 3 ≤ t.size := by
  obtain ⟨n, -, hsigned, -, -, hj, hle⟩ := Unguarded.decodeInt_cases h
  have hpos := Numeral.length_pos_of_isSigned hsigned
  omega

/-- The guard of `decode_int` stops no call that would return `OK`. -/
theorem Unguarded.decodeInt_iff :
    Unguarded.decodeInt t i = .ok r ↔ Bencode.decodeInt t i = .ok r := by
  rw [decodeInt_guard]
  constructor
  · intro h
    have h3 := Unguarded.three_le_of_decodeInt h
    rw [if_neg (by omega), h]
  · intro h
    exact (guard_eq_ok.mp h).2

/-! ### Strings -/

/-- What `decode_string` has done when it returns. -/
theorem Unguarded.decodeString_cases (h : Unguarded.decodeString t i = .ok (v, j)) :
    ∃ b r : Bytes, v = .string b ∧ Numeral.IsNumeral (t.scan charColon i) ∧
      Numeral.value (t.scan charColon i) = b.length ∧
      t.rest (i + (t.scan charColon i).length + 1) = b ++ r ∧
      j = i + (t.scan charColon i).length + 1 + b.length := by
  obtain ⟨hnum, h⟩ := guard_eq_ok.mp h
  have hnum := not_not.mp hnum
  simp only at h
  split at h
  · cases h
  · next n hn =>
    have hval := (stol_eq_ok_iff (Numeral.isSigned_of_isNumeral hnum) n).mp hn
    rw [Numeral.signedValue_of_isNumeral hnum] at hval
    obtain ⟨hstr, h⟩ := guard_eq_ok.mp h
    obtain ⟨-, hstr⟩ := not_or.mp hstr
    cases h
    exact ⟨_, _, rfl, hnum, by omega, (List.take_append_drop n.toInt.toNat _).symm, rfl⟩

theorem Unguarded.lt_size_of_decodeString (h : Unguarded.decodeString t i = .ok (v, j)) :
    i < t.size := by
  obtain ⟨b, r, -, hnum, -⟩ := Unguarded.decodeString_cases h
  have hpos := List.length_pos_of_ne_nil hnum.1
  have hscan := length_scan t charColon i
  omega

/-! ### Lists and dictionaries

    With less than two bytes left the loop has nothing to read, and the
    check behind it reports the error of the guard. -/

theorem Unguarded.decodeList_eq (t : Tokens) (dec : Nat → Parse (BencodeValue × Nat)) (i : Nat) :
    Unguarded.decodeList t dec i = Bencode.decodeList t dec i := by
  rw [decodeList_guard]
  split
  · next hshort =>
    have hend : t.size ≤ i + 1 := by omega
    rw [Unguarded.decodeList, decodeListLoop, Tokens.more_of_ge hend]
    simp [hend]
  · rfl

theorem Unguarded.decodeDict_eq (t : Tokens) (dec : Nat → Parse (BencodeValue × Nat)) (i : Nat) :
    Unguarded.decodeDict t dec i = Bencode.decodeDict t dec i := by
  rw [decodeDict_guard]
  split
  · next hshort =>
    have hend : t.size ≤ i + 1 := by omega
    rw [Unguarded.decodeDict, decodeDictLoop, Tokens.more_of_ge hend]
    simp [hend]
  · rfl

/-- What `decode_list` has done when it returns. -/
theorem decodeList_cases (h : decodeList t dec i = .ok (v, j)) :
    ∃ ptr k, decodeListLoop t dec (t.size + 1) (i + 1) [] = .ok (ptr, k) ∧
      i + 2 ≤ t.size ∧ k < t.size ∧ t.read k = .ok charE ∧ v = .list ptr ∧ j = k + 1 := by
  obtain ⟨hguard, h⟩ := guard_eq_ok.mp h
  obtain ⟨⟨ptr, k⟩, hloop, h⟩ := bind_eq_ok.mp h
  obtain ⟨hk, h⟩ := guard_eq_ok.mp h
  obtain ⟨token, htok, h⟩ := bind_eq_ok.mp h
  obtain ⟨htoken, h⟩ := guard_eq_ok.mp h
  cases h
  rw [not_not.mp htoken] at htok
  exact ⟨ptr, k, hloop, by omega, by omega, htok, rfl, rfl⟩

/-- What `decode_dict` has done when it returns. -/
theorem decodeDict_cases (h : decodeDict t dec i = .ok (v, j)) :
    ∃ keys ptr k, decodeDictLoop t dec (t.size + 1) (i + 1) [] [] = .ok (keys, ptr, k) ∧
      i + 2 ≤ t.size ∧ k < t.size ∧ t.read k = .ok charE ∧ keysOrdered keys = true ∧
      v = .dict ptr ∧ j = k + 1 := by
  obtain ⟨hguard, h⟩ := guard_eq_ok.mp h
  obtain ⟨⟨keys, ptr, k⟩, hloop, h⟩ := bind_eq_ok.mp h
  obtain ⟨hk, h⟩ := guard_eq_ok.mp h
  obtain ⟨token, htok, h⟩ := bind_eq_ok.mp h
  obtain ⟨htoken, h⟩ := guard_eq_ok.mp h
  obtain ⟨hord, h⟩ := guard_eq_ok.mp h
  cases h
  rw [not_not.mp htoken] at htok
  exact ⟨keys, ptr, k, hloop, by omega, by omega, htok, not_not.mp hord, rfl, rfl⟩

/-- The loop of `decode_list` goes on where a decoder returns more often. -/
theorem decodeListLoop_mono (hdec : ∀ k r, dec k = .ok r → dec' k = .ok r) {n : Nat}
    {ptr : List BencodeValue} {r : List BencodeValue × Nat}
    (h : decodeListLoop t dec n i ptr = .ok r) : decodeListLoop t dec' n i ptr = .ok r := by
  induction n generalizing i ptr with
  | zero => cases h
  | succ n ih =>
    rw [decodeListLoop] at h ⊢
    split at h
    · next hmore =>
      obtain ⟨⟨v, k⟩, hk, h⟩ := bind_eq_ok.mp h
      rw [if_pos hmore, hdec i _ hk, ok_bind]
      exact ih h
    · next hmore => rwa [if_neg hmore]

theorem decodeDictLoop_mono (hdec : ∀ k r, dec k = .ok r → dec' k = .ok r) {n : Nat}
    {keys : List Bytes} {ptr : List (Bytes × BencodeValue)}
    {r : List Bytes × List (Bytes × BencodeValue) × Nat}
    (h : decodeDictLoop t dec n i keys ptr = .ok r) :
    decodeDictLoop t dec' n i keys ptr = .ok r := by
  induction n generalizing i keys ptr with
  | zero => cases h
  | succ n ih =>
    rw [decodeDictLoop] at h ⊢
    split at h
    · next hmore =>
      obtain ⟨⟨key, k⟩, hk, h⟩ := bind_eq_ok.mp h
      rw [if_pos hmore, hdec i _ hk, ok_bind]
      cases key with
      | string keyStr =>
        obtain ⟨⟨w, l⟩, hl, h⟩ := bind_eq_ok.mp h
        simp only [hdec k _ hl, ok_bind]
        exact ih h
      | int _ => cases h
      | list _ => cases h
      | dict _ => cases h
    · next hmore => rwa [if_neg hmore]

theorem Unguarded.decodeList_mono (hdec : ∀ k r, dec k = .ok r → dec' k = .ok r)
    (h : Unguarded.decodeList t dec i = .ok r) : Unguarded.decodeList t dec' i = .ok r := by
  obtain ⟨a, hloop, h⟩ := bind_eq_ok.mp h
  exact bind_eq_ok.mpr ⟨a, decodeListLoop_mono hdec hloop, h⟩

theorem Unguarded.decodeDict_mono (hdec : ∀ k r, dec k = .ok r → dec' k = .ok r)
    (h : Unguarded.decodeDict t dec i = .ok r) : Unguarded.decodeDict t dec' i = .ok r := by
  obtain ⟨a, hloop, h⟩ := bind_eq_ok.mp h
  exact bind_eq_ok.mpr ⟨a, decodeDictLoop_mono hdec hloop, h⟩

/-! ### The dispatch -/

/-- What `decode()` does with the four functions it chooses from. -/
def dispatch (t : Tokens) (i : Nat) (int string list dict : Parse (BencodeValue × Nat)) :
    Parse (BencodeValue × Nat) :=
  if t.text.isEmpty then .error (.error .invalidString)
  else do
    let token ← t.read i
    if token = charI then int
    else if token ≤ 57 ∧ 48 ≤ token then string
    else if token = charL then list
    else if token = charD then dict
    else .error (.error .invalidString)

theorem decodeValue_succ (t : Tokens) (depth i : Nat) :
    decodeValue t (depth + 1) i = dispatch t i (decodeInt t i) (decodeString t i)
      (decodeList t (decodeValue t depth) i) (decodeDict t (decodeValue t depth) i) := rfl

theorem Unguarded.decodeValue_succ (t : Tokens) (depth i : Nat) :
    Unguarded.decodeValue t (depth + 1) i =
      dispatch t i (Unguarded.decodeInt t i) (Unguarded.decodeString t i)
        (Bencode.decodeList t (Unguarded.decodeValue t depth) i)
        (Bencode.decodeDict t (Unguarded.decodeValue t depth) i) := by
  rw [← Unguarded.decodeList_eq, ← Unguarded.decodeDict_eq]
  rfl

section

variable {int string list dict int' string' list' dict' : Parse (BencodeValue × Nat)}

/-- A call that returns has returned from one of the four. -/
theorem dispatch_eq_ok (h : dispatch t i int string list dict = .ok r) :
    (t.read i = .ok charI ∧ int = .ok r) ∨ string = .ok r ∨
      (t.read i = .ok charL ∧ list = .ok r) ∨ (t.read i = .ok charD ∧ dict = .ok r) := by
  unfold dispatch at h
  split at h
  · cases h
  · obtain ⟨token, htok, h⟩ := bind_eq_ok.mp h
    split at h
    · next htoken => exact .inl ⟨by rw [htok, htoken], h⟩
    · split at h
      · exact .inr (.inl h)
      · split at h
        · next htoken => exact .inr (.inr (.inl ⟨by rw [htok, htoken], h⟩))
        · split at h
          · next htoken => exact .inr (.inr (.inr ⟨by rw [htok, htoken], h⟩))
          · cases h

theorem dispatch_mono (hint : int = .ok r → int' = .ok r)
    (hstring : string = .ok r → string' = .ok r) (hlist : list = .ok r → list' = .ok r)
    (hdict : dict = .ok r → dict' = .ok r) (h : dispatch t i int string list dict = .ok r) :
    dispatch t i int' string' list' dict' = .ok r := by
  unfold dispatch at h ⊢
  split at h
  · cases h
  · next hne =>
    obtain ⟨token, htok, h⟩ := bind_eq_ok.mp h
    rw [if_neg hne, htok, ok_bind]
    split_ifs at h ⊢
    · exact hint h
    · exact hstring h
    · exact hlist h
    · exact hdict h

end

/-- Without the guards a call returns what it returned with them. -/
theorem Unguarded.decodeValue_of_guarded {depth : Nat}
    (h : Bencode.decodeValue t depth i = .ok r) : Unguarded.decodeValue t depth i = .ok r := by
  induction depth generalizing i r with
  | zero => cases h
  | succ depth ih =>
    have hdec : ∀ k r, Bencode.decodeValue t depth k = .ok r →
        Unguarded.decodeValue t depth k = .ok r := fun _ _ => ih
    rw [Bencode.decodeValue_succ, ← Unguarded.decodeList_eq, ← Unguarded.decodeDict_eq] at h
    refine dispatch_mono Unguarded.decodeInt_iff.mpr ?_ (Unguarded.decodeList_mono hdec)
      (Unguarded.decodeDict_mono hdec) h
    intro hstring
    exact (guard_eq_ok.mp hstring).2

end Furrent.Bencode
