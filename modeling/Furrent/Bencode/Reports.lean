import Furrent.Bencode.Stops

/-! # When the parser reports

    The other direction: an input that leads the parser to an oversized
    numeral or to a key that is cut off makes it break off there, whatever
    is around. Together with the analysis of failures this says for which
    inputs the parser throws, and for which it reads past its input. -/

namespace Furrent.Bencode

open Cpp

/-! ### From the cause to the failure -/

variable {t : Tokens} {i d : Nat} {e : Stop BencodeParserError} {r : Bytes}

theorem decodeInt_oversized {u : Bytes} (hrest : t.rest i = charI :: (u ++ charE :: r))
    (hsigned : Numeral.IsSigned u) (hlarge : ¬ FitsInt64 (Numeral.signedValue u)) :
    decodeInt t i = .error tooLarge := by
  obtain ⟨hpos, hlt, hscan, hread⟩ := int_of_rest hrest hsigned
  have hzero : u ≠ [45, 48] := by
    rintro rfl
    exact hlarge (by decide)
  unfold decodeInt
  rw [if_neg (by omega)]
  simp only [hscan]
  rw [if_neg (by omega), hread, ok_bind, if_neg (by simp), if_neg hzero,
    if_neg (by simpa using hsigned), (stol_eq_error_iff hsigned).mpr ⟨rfl, hlarge⟩]
  rfl

/-- A numeral that does not fit has more than two digits. -/
theorem three_le_length_of_large {u : Bytes} (hnum : Numeral.IsNumeral u)
    (hlarge : ¬ FitsInt64 (Numeral.value u)) : 3 ≤ u.length := by
  by_contra hshort
  have hlt := Numeral.value_lt hnum.2
  have hpow : 10 ^ u.length ≤ 10 ^ 2 := Nat.pow_le_pow_right (by omega) (by omega)
  exact hlarge ⟨by omega, by omega⟩

theorem decodeString_oversized {u : Bytes} (hrest : t.rest i = u ++ r)
    (hnum : Numeral.IsNumeral u) (hlarge : ¬ FitsInt64 (Numeral.value u))
    (hends : r = [] ∨ ∃ r', r = charColon :: r') : decodeString t i = .error tooLarge := by
  have hlen := congrArg List.length hrest
  rw [Tokens.length_rest, List.length_append] at hlen
  have hlong := three_le_length_of_large hnum hlarge
  have hscan : t.scan charColon i = u := scan_of_isNumeral hrest hnum hends
  have hsigned := Numeral.isSigned_of_isNumeral hnum
  rw [← Numeral.signedValue_of_isNumeral hnum] at hlarge
  unfold decodeString
  rw [if_neg (by omega)]
  simp only [hscan]
  rw [if_neg (by simpa using hnum), (stol_eq_error_iff hsigned).mpr ⟨rfl, hlarge⟩]
  rfl

theorem more_of_begins (hrest : t.rest i = r) (h : Begins r) : t.more i = true := by
  obtain ⟨b, r', rfl, hb⟩ := h
  rw [Tokens.more_of_rest hrest]
  simpa using hb

/-- A failure behind the items of a list is passed on. -/
theorem decodeValue_list_error {items : List (Bytes × BencodeValue)}
    (hsize : t.size ≤ INT64_MAX) (hitems : ∀ p ∈ items, Derives lenient p.1 p.2)
    (hrest : t.rest i = charL :: (items.flatMap Prod.fst ++ r)) (hr : Begins r)
    (hdepth : (items.flatMap Prod.fst ++ r).length ≤ d)
    (hfail : decodeValue t d (i + 1 + (items.flatMap Prod.fst).length) = .error e) :
    decodeValue t (d + 1) i = .error e := by
  have hpos := List.length_pos_of_ne_nil hr.ne_nil
  have hlen := congrArg List.length hrest
  rw [Tokens.length_rest, List.length_cons, List.length_append] at hlen
  rw [List.length_append] at hdepth
  obtain ⟨hcount, hmem⟩ := length_items hitems
  have hreads : ∀ p ∈ items, Reads t (decodeValue t d) p.1 p.2 := by
    intro p hp
    have := hmem p hp
    exact decodeValue_complete (hitems p hp) hsize (by omega)
  have hnext := Tokens.rest_of_append (Tokens.rest_succ hrest)
  have hloop : decodeListLoop t (decodeValue t d) (t.size + 1) (i + 1) [] = .error e := by
    obtain ⟨m, hm⟩ : ∃ m, t.size + 1 = m + 1 + items.length := ⟨t.size - items.length, by omega⟩
    rw [hm, decodeListLoop_items (m + 1) hitems hreads (Tokens.rest_succ hrest) hr.ne_nil,
      decodeListLoop, more_of_begins hnext hr, if_pos rfl, hfail, error_bind]
  rw [decodeValue_of_rest hrest, if_neg (by decide), if_neg (by decide), if_pos rfl, decodeList,
    if_neg (by omega), hloop, error_bind]

/-- So is one behind the entries of a dictionary. -/
theorem decodeValue_dict_error {entries : List Entry} (hsize : t.size ≤ INT64_MAX)
    (hread : Entries entries) (hrest : t.rest i = charD :: (entries.flatMap Entry.text ++ r))
    (hr : Begins r) (hdepth : (entries.flatMap Entry.text ++ r).length ≤ d)
    (hfail : ∀ n keys ptr, decodeDictLoop t (decodeValue t d) (n + 1)
      (i + 1 + (entries.flatMap Entry.text).length) keys ptr = .error e) :
    decodeValue t (d + 1) i = .error e := by
  have hpos := List.length_pos_of_ne_nil hr.ne_nil
  have hlen := congrArg List.length hrest
  rw [Tokens.length_rest, List.length_cons, List.length_append] at hlen
  rw [List.length_append] at hdepth
  obtain ⟨hcount, hmem⟩ := length_entries hread.keys
  have htext : ∀ x ∈ entries, x.keyText.length ≤ d ∧ x.valueText.length ≤ d := by
    intro x hx
    have := hmem x hx
    rw [Entry.text, List.length_append] at this
    omega
  have hloop : decodeDictLoop t (decodeValue t d) (t.size + 1) (i + 1) [] [] = .error e := by
    obtain ⟨m, hm⟩ : ∃ m, t.size + 1 = m + 1 + entries.length :=
      ⟨t.size - entries.length, by omega⟩
    rw [hm, decodeDictLoop_entries (m + 1) hread.keys hread.values
      (fun x hx => decodeValue_complete (hread.keys x hx) hsize (htext x hx).1)
      (fun x hx => decodeValue_complete (hread.values x hx) hsize (htext x hx).2)
      (Tokens.rest_succ hrest) hr.ne_nil]
    exact hfail m _ _
  rw [decodeValue_of_rest hrest, if_neg (by decide), if_neg (by decide), if_neg (by decide),
    if_pos rfl, decodeDict, if_neg (by omega), hloop, error_bind]

theorem decodeValue_of_breaks (hsize : t.size ≤ INT64_MAX) (h : Breaks t e r)
    (hrest : t.rest i = r) {depth : Nat} (hdepth : r.length ≤ depth) :
    decodeValue t depth i = .error e := by
  have hpos := List.length_pos_of_ne_nil h.begins.ne_nil
  obtain ⟨d, rfl⟩ : ∃ d, depth = d + 1 := ⟨depth - 1, by omega⟩
  cases h with
  | throw h =>
    cases h with
    | int numeral large =>
      rw [decodeValue_of_rest hrest, if_pos rfl]
      exact decodeInt_oversized hrest numeral large
    | length numeral large ends =>
      rw [decodeValue_of_digit hrest numeral]
      exact decodeString_oversized hrest numeral large ends
  | trap h unreadable =>
    cases h with
    | @intro entries u read numeral zero long =>
      have hbegins : Begins u := by simpa using begins_of_isNumeral numeral []
      rw [List.length_cons] at hdepth
      apply decodeValue_dict_error hsize read hrest hbegins (by omega)
      intro n keys ptr
      rw [List.length_append] at hdepth
      obtain ⟨d, rfl⟩ : ∃ m, d = m + 1 := ⟨d - 1, by omega⟩
      have hnext := Tokens.rest_of_append (Tokens.rest_succ hrest)
      have hlt : i < t.size := Tokens.lt_size_of_rest hrest
      -- The key is read as the empty string, and the value behind the NUL.
      have hkey : decodeValue t (d + 1) (i + 1 + (entries.flatMap Entry.text).length)
          = .ok (.string [], t.size + 1) := by
        rw [decodeValue_of_digit (r := []) (by rw [hnext, List.append_nil]) numeral]
        exact decodeString_zeros hnext numeral zero long
      have hvalue : decodeValue t (d + 1) (t.size + 1) = .error .trap := by
        rw [decodeValue, isEmpty_eq_false hlt, if_neg (by simp), read_past_end unreadable,
          error_bind]
      rw [decodeDictLoop, more_of_begins hnext hbegins, if_pos rfl, hkey, ok_bind]
      simp only
      rw [hvalue, error_bind]

theorem decodeValue_of_meets (hsize : t.size ≤ INT64_MAX) (h : Meets (Breaks t e) r)
    (hrest : t.rest i = r) {depth : Nat} (hdepth : r.length ≤ depth) :
    decodeValue t depth i = .error e := by
  -- By induction on the way to the failure: what is around it passes it on.
  induction h generalizing i depth with
  | here h => exact decodeValue_of_breaks hsize h hrest hdepth
  | @item items r hitems h ih =>
    rw [List.length_cons] at hdepth
    obtain ⟨d, rfl⟩ : ∃ d, depth = d + 1 := ⟨depth - 1, by omega⟩
    have hbegins := h.begins fun _ hr => hr.begins
    refine decodeValue_list_error hsize hitems hrest hbegins (by omega) ?_
    rw [List.length_append] at hdepth
    exact ih (Tokens.rest_of_append (Tokens.rest_succ hrest)) (by omega)
  | @key entries r hread h ih =>
    rw [List.length_cons] at hdepth
    obtain ⟨d, rfl⟩ : ∃ d, depth = d + 1 := ⟨depth - 1, by omega⟩
    have hbegins := h.begins fun _ hr => hr.begins
    have hnext := Tokens.rest_of_append (Tokens.rest_succ hrest)
    apply decodeValue_dict_error hsize hread hrest hbegins (by omega)
    intro n keys ptr
    rw [List.length_append] at hdepth
    rw [decodeDictLoop, more_of_begins hnext hbegins, if_pos rfl, ih hnext (by omega), error_bind]
  | @value entries keyText key r hread hkey h ih =>
    rw [List.length_cons] at hdepth
    obtain ⟨d, rfl⟩ : ∃ d, depth = d + 1 := ⟨depth - 1, by omega⟩
    have hbegins := h.begins fun _ hr => hr.begins
    have hnext := Tokens.rest_of_append (Tokens.rest_succ hrest)
    have hkeyBegins : Begins (keyText ++ r) := by
      obtain ⟨b, s, rfl, hb⟩ := hkey.head_ne_charE lenient_standard
      exact ⟨b, s ++ r, rfl, hb⟩
    apply decodeValue_dict_error hsize hread hrest hkeyBegins (by omega)
    intro n keys ptr
    rw [List.length_append, List.length_append] at hdepth
    have hkeyRead : decodeValue t d (i + 1 + (entries.flatMap Entry.text).length) = _ :=
      decodeValue_complete hkey hsize (by omega) _ r hnext
        (append_ne_zero_colon hkey hbegins.ne_nil)
    rw [decodeDictLoop, more_of_begins hnext hkeyBegins, if_pos rfl, hkeyRead, ok_bind]
    simp only
    rw [ih (Tokens.rest_of_append hnext) (by omega), error_bind]

/-! ### The public parser -/

section

variable {beyond : Nat → Option UInt8} {s : Bytes}

theorem decodeAt_eq_error_iff (hsize : s.length ≤ INT64_MAX) (he : Abrupt e) :
    decodeAt ⟨s, beyond⟩ 0 = .error e ↔ Meets (Breaks ⟨s, beyond⟩ e) s := by
  constructor
  · intro h
    have hlt : 0 < (Tokens.mk s beyond).size := by
      by_contra hnot
      have hempty := decodeValue_breaks_past_end (Nat.le_of_not_lt hnot) h he
      omega
    exact decodeValue_breaks hlt h he
  · intro h
    exact decodeValue_of_meets (t := ⟨s, beyond⟩) hsize h rfl (Nat.le_succ _)

theorem decode_eq_error_iff (hsize : s.length ≤ INT64_MAX) (he : Abrupt e) :
    decode beyond s = .error e ↔ Meets (Breaks ⟨s, beyond⟩ e) s := by
  rw [← decodeAt_eq_error_iff hsize he, decode, if_neg (by omega)]
  cases decodeAt ⟨s, beyond⟩ 0 with
  | error e' => simp
  | ok r =>
    obtain ⟨v, k⟩ := r
    rw [ok_bind]
    -- What `decode` reports itself is an error value.
    show (if k ≠ s.length then _ else _) = _ ↔ _
    split
    · simp [he.ne_error]
    · simp

theorem Meets.exists {P : Bytes → Prop} (h : Meets P s) : ∃ r, P r := by
  induction h with
  | here h => exact ⟨_, h⟩
  | item _ _ ih => exact ih
  | key _ _ ih => exact ih
  | value _ _ _ ih => exact ih

theorem Breaks.oversized (h : Breaks t e r) (he : e ≠ .trap) : Oversized r := by
  cases h with
  | throw h => exact h
  | trap _ _ => exact absurd rfl he

theorem Breaks.cutKey (h : Breaks t e r) (he : e = .trap) :
    CutKey r ∧ t.beyond (t.size + 1) = none := by
  cases h with
  | throw _ => simp [tooLarge] at he
  | trap h unreadable => exact ⟨h, unreadable⟩

theorem decode_throws_iff (hsize : s.length ≤ INT64_MAX) :
    (∃ x, decode beyond s = .error (.throw x)) ↔ Meets Oversized s := by
  constructor
  · rintro ⟨x, hx⟩
    rw [decode_eq_error_iff hsize (Or.inr ⟨x, rfl⟩)] at hx
    exact hx.mono fun r hr => hr.oversized (by simp)
  · intro h
    have hthrow : decode beyond s = .error tooLarge :=
      (decode_eq_error_iff hsize (Or.inr ⟨_, rfl⟩)).mpr (h.mono fun r hr => .throw hr)
    exact ⟨_, hthrow⟩

theorem decode_traps_iff (hsize : s.length ≤ INT64_MAX) :
    decode beyond s = .error .trap ↔ Meets CutKey s ∧ beyond (s.length + 1) = none := by
  rw [decode_eq_error_iff hsize (Or.inl rfl)]
  constructor
  · intro h
    obtain ⟨r, hr⟩ := h.exists
    exact ⟨h.mono fun r hr => (hr.cutKey rfl).1, (hr.cutKey rfl).2⟩
  · rintro ⟨h, hnone⟩
    exact h.mono fun r hr => .trap hr hnone

end

/-! ### Reading past the input -/

/-- No access `_tokens[_index]` goes past the terminating NUL: with nothing
    to be read there, the run of the parser does not trap. The accesses in
    loop conditions and bodies stand behind `_index < _tokens.size()`. -/
def ReadsInside (s : Bytes) : Prop := decode (fun _ => none) s ≠ .error .trap

/-- The parser reads past its input just when a key of a dictionary, at any
    depth, is cut off behind three zeros or more. -/
theorem readsInside_iff (s : Bytes) :
    ReadsInside s ↔ ¬ (s.length ≤ INT64_MAX ∧ Meets CutKey s) := by
  unfold ReadsInside
  by_cases hsize : s.length ≤ INT64_MAX
  · rw [Ne, decode_traps_iff hsize]
    simp [hsize]
  · rw [decode, if_pos (by omega)]
    simp [hsize]

/-- In `d000` the value of the key is looked for at index 5. -/
theorem readsInside_cut_key : ¬ ReadsInside [100, 48, 48, 48] := by
  intro h
  exact h rfl

/-! ### Exceptions -/

/-- For every input of at most `INT64_MAX` bytes and whatever lies behind it:
    an exception escapes just when a numeral that does not fit an `int64_t`
    is met, at any depth. Otherwise the parser returns a value or reports an
    error, unless it reads past the input and is stopped there. -/
theorem decode_reports_iff (beyond : Nat → Option UInt8) (s : Bytes)
    (hsize : s.length ≤ INT64_MAX) :
    ((∃ x, decode beyond s = .error (.throw x)) ↔ Meets Oversized s) ∧
    (Reports (decode beyond s) ↔
      ¬ Meets Oversized s ∧ ¬ (Meets CutKey s ∧ beyond (s.length + 1) = none)) := by
  have hthrows : (∃ x, decode beyond s = .error (.throw x)) ↔ Meets Oversized s :=
    decode_throws_iff hsize
  refine ⟨hthrows, ?_⟩
  rw [reports_iff, ← decode_traps_iff hsize, ← hthrows, not_exists]
  simp [decode_ne_outOfFuel]

/-- `li1ee` has no such numeral. -/
theorem decode_reports_small_numeral :
    decode (fun _ => none) [108, 105, 49, 101, 101] = .ok (.list [.int 1]) ∧
      ¬ Meets Oversized [108, 105, 49, 101, 101] :=
  ⟨rfl, ((decode_reports_iff (fun _ => none) [108, 105, 49, 101, 101] (by decide)).2.mp
    (Or.inl ⟨_, rfl⟩)).1⟩

/-- `i9223372036854775808e` makes `std::stol` throw, and so does a list with
    a string of that length. -/
theorem decode_throws_on_large_numeral :
    decode (fun _ => none) [105, 57, 50, 50, 51, 51, 55, 50, 48, 51, 54, 56, 53, 52, 55, 55, 53,
      56, 48, 56, 101] = .error (.throw (.outOfRange "stol")) ∧
    decode (fun _ => none) [108, 57, 50, 50, 51, 51, 55, 50, 48, 51, 54, 56, 53, 52, 55, 55, 53,
      56, 48, 56, 58, 101] = .error (.throw (.outOfRange "stol")) :=
  ⟨rfl, rfl⟩

end Furrent.Bencode
