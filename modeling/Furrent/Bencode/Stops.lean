import Furrent.Bencode.Completeness

/-! # Where the parser breaks off

    The parser should return a value or one of its errors. It breaks off in
    two places:

    * a numeral, of an integer or of a length, that matches the expression
      and does not fit an `int64_t` makes `std::stol` throw;
    * a key whose length is spelled with zeros up to the end of the input
      is taken for the empty string and leaves the index behind the
      terminating NUL, where `decode()` then looks for the value.

    Which inputs get there is said in terms of the grammar: `Meets P s` says
    that the parser, reading `s`, gets to a call of `decode()` at which the
    rest of the input satisfies `P`. -/

namespace Furrent.Bencode

open Cpp

/-! ### The calls of `decode()` -/

/-- Entries of a dictionary that has been opened. -/
structure Entries (entries : List Entry) : Prop where
  keys : ∀ e ∈ entries, Derives lenient e.keyText (.string e.key)
  values : ∀ e ∈ entries, Derives lenient e.valueText e.value

/-- Reading the text, the parser calls `decode()` where the rest satisfies
    `P`: at the start, for an item of a list, for a key or for a value. -/
inductive Meets (P : Bytes → Prop) : Bytes → Prop where
  | here {r : Bytes} (h : P r) : Meets P r
  | item {items : List (Bytes × BencodeValue)} {r : Bytes}
      (items_read : ∀ p ∈ items, Derives lenient p.1 p.2) (h : Meets P r) :
      Meets P (charL :: (items.flatMap Prod.fst ++ r))
  | key {entries : List Entry} {r : Bytes} (read : Entries entries) (h : Meets P r) :
      Meets P (charD :: (entries.flatMap Entry.text ++ r))
  | value {entries : List Entry} {keyText key r : Bytes} (read : Entries entries)
      (key_read : Derives lenient keyText (.string key)) (h : Meets P r) :
      Meets P (charD :: (entries.flatMap Entry.text ++ (keyText ++ r)))

theorem Meets.mono {P Q : Bytes → Prop} (hPQ : ∀ r, P r → Q r) {s : Bytes} (h : Meets P s) :
    Meets Q s := by
  induction h with
  | here h => exact .here (hPQ _ h)
  | item hitems _ ih => exact .item hitems ih
  | key hread _ ih => exact .key hread ih
  | value hread hkey _ ih => exact .value hread hkey ih

/-- A value may begin here. -/
def Begins (r : Bytes) : Prop := ∃ b r', r = b :: r' ∧ b ≠ charE

theorem Begins.ne_nil {r : Bytes} (h : Begins r) : r ≠ [] := by
  obtain ⟨b, r', rfl, _⟩ := h
  simp

theorem Meets.begins {P : Bytes → Prop} (hP : ∀ r, P r → Begins r) {s : Bytes} (h : Meets P s) :
    Begins s := by
  cases h with
  | here h => exact hP _ h
  | item _ _ => exact ⟨_, _, rfl, by decide⟩
  | key _ _ => exact ⟨_, _, rfl, by decide⟩
  | value _ _ _ => exact ⟨_, _, rfl, by decide⟩

/-! ### What makes it break off -/

/-- An integer or a length that does not fit an `int64_t`. -/
inductive Oversized : Bytes → Prop where
  | int {u r : Bytes} (numeral : Numeral.IsSigned u) (large : ¬ FitsInt64 (Numeral.signedValue u)) :
      Oversized (charI :: (u ++ charE :: r))
  | length {u r : Bytes} (numeral : Numeral.IsNumeral u) (large : ¬ FitsInt64 (Numeral.value u))
      (ends : r = [] ∨ ∃ r', r = charColon :: r') : Oversized (u ++ r)

/-- A dictionary in which three zeros or more, and nothing else, stand in the
    place of the next key. -/
inductive CutKey : Bytes → Prop where
  | intro {entries : List Entry} {u : Bytes} (read : Entries entries)
      (numeral : Numeral.IsNumeral u) (zero : Numeral.value u = 0) (long : 3 ≤ u.length) :
      CutKey (charD :: (entries.flatMap Entry.text ++ u))

theorem begins_of_isNumeral {u : Bytes} (h : Numeral.IsNumeral u) (r : Bytes) :
    Begins (u ++ r) := by
  obtain ⟨c, ds, rfl, _⟩ := Numeral.isNumeral_cases h
  exact ⟨c, ds ++ r, rfl, ne_charE_of_isDigit (h.2 c (by simp))⟩

theorem Oversized.begins {r : Bytes} (h : Oversized r) : Begins r := by
  cases h with
  | int _ _ => exact ⟨_, _, rfl, by decide⟩
  | length numeral _ _ => exact begins_of_isNumeral numeral _

theorem CutKey.begins {r : Bytes} (h : CutKey r) : Begins r := by
  cases h with
  | intro _ _ _ _ => exact ⟨_, _, rfl, by decide⟩

/-- The exception of `std::stol`. -/
def tooLarge : Stop BencodeParserError := .throw (.outOfRange "stol")

variable {t : Tokens} {i : Nat} {e : Stop BencodeParserError}
  {dec : Nat → Parse (BencodeValue × Nat)}

/-- The rest of the input makes the parser break off with `e`. -/
inductive Breaks (t : Tokens) : Stop BencodeParserError → Bytes → Prop where
  | throw {r : Bytes} (h : Oversized r) : Breaks t tooLarge r
  | trap {r : Bytes} (h : CutKey r) (unreadable : t.beyond (t.size + 1) = none) : Breaks t .trap r

theorem Breaks.begins {r : Bytes} (h : Breaks t e r) : Begins r := by
  cases h with
  | throw h => exact h.begins
  | trap h _ => exact h.begins

/-- An exception or undefined behaviour. -/
def Abrupt (e : Stop BencodeParserError) : Prop := e = .trap ∨ ∃ x, e = .throw x

theorem Abrupt.ne_error (h : Abrupt e) {α : Type} {x : BencodeParserError} :
    (.error (.error x) : Parse α) ≠ .error e := by
  rcases h with rfl | ⟨y, rfl⟩
  · simp
  · simp

theorem Abrupt.ne_outOfFuel (h : Abrupt e) {α : Type} :
    (.error .outOfFuel : Parse α) ≠ .error e := by
  rcases h with rfl | ⟨y, rfl⟩
  · simp
  · simp

/-- A check that reports an error does not break off. -/
theorem Abrupt.guard (he : Abrupt e) {α : Type} {c : Prop} [Decidable c] {x : BencodeParserError}
    {y : Parse α} (h : (if c then .error (.error x) else y) = .error e) : ¬ c ∧ y = .error e := by
  split at h
  · exact absurd h he.ne_error
  · next hc => exact ⟨hc, h⟩

/-! ### Accesses -/

theorem read_of_le (h : i ≤ t.size) : ∃ b, t.read i = .ok b := by
  have hlt : i < (t.text ++ [0]).length := by
    rw [List.length_append, List.length_singleton]
    exact Nat.lt_succ_of_le h
  exact ⟨_, by rw [Tokens.read, uncheckedGet_of_lt hlt]⟩

/-- Behind the NUL there is what `beyond` says. -/
theorem uncheckedGet_of_size_lt (h : t.size < i) :
    uncheckedGet (t.text ++ [0]) t.beyond i = t.beyond i := by
  have hnone : (t.text ++ [0])[i]? = none := by
    rw [List.getElem?_eq_none_iff, List.length_append, List.length_singleton]
    exact h
  rw [uncheckedGet, hnone]

theorem read_eq_error (h : t.read i = .error e) : e = .trap ∧ t.size < i ∧ t.beyond i = none := by
  have hlt : t.size < i := by
    by_contra hge
    obtain ⟨b, hb⟩ := read_of_le (Nat.le_of_not_lt hge)
    rw [hb] at h
    injection h
  rw [Tokens.read, uncheckedGet_of_size_lt hlt] at h
  cases hbeyond : t.beyond i with
  | none =>
    rw [hbeyond] at h
    injection h with h
    exact ⟨h.symm, hlt, rfl⟩
  | some b =>
    rw [hbeyond] at h
    injection h

theorem read_past_end (h : t.beyond (t.size + 1) = none) :
    t.read (t.size + 1) = .error .trap := by
  rw [Tokens.read, uncheckedGet_of_size_lt (Nat.lt_succ_self _), h]

theorem isEmpty_eq_false (h : i < t.size) : t.text.isEmpty = false := by
  have hpos : 0 < t.text.length := by
    unfold Tokens.size at h
    omega
  rw [List.isEmpty_eq_false_iff]
  exact List.ne_nil_of_length_pos hpos

/-! ### Numerals -/

theorem decodeInt_breaks (hi : t.read i = .ok charI) (h : decodeInt t i = .error e)
    (he : Abrupt e) : Breaks t e (t.rest i) := by
  obtain ⟨hguard, h⟩ := he.guard h
  obtain ⟨r, hr⟩ := Tokens.rest_of_read (by omega) hi
  have hscan := t.rest_scan charE (i + 1)
  have hle := length_scan t charE (i + 1)
  obtain ⟨hend, h⟩ := he.guard h
  -- The scan has not come to the end, so it has come to an `e`.
  obtain ⟨b, r', hr'⟩ := Tokens.rest_of_lt
    (show i + 1 + (t.scan charE (i + 1)).length < t.size by omega)
  have hb : b = charE := Tokens.rest_after_scan hr'
  rw [Tokens.read_of_rest hr', ok_bind] at h
  obtain ⟨_, h⟩ := he.guard h
  obtain ⟨_, h⟩ := he.guard h
  obtain ⟨hsigned, h⟩ := he.guard h
  have hsigned := not_not.mp hsigned
  split at h
  · injection h
  · next x hx =>
    injection h with h
    obtain ⟨hx, hlarge⟩ := (stol_eq_error_iff hsigned).mp hx
    rw [hx] at h
    rw [← h, hr, ← Tokens.rest_succ hr, hscan, hr', hb]
    exact .throw (.int hsigned hlarge)

theorem decodeString_breaks (h : decodeString t i = .error e) (he : Abrupt e) :
    Breaks t e (t.rest i) := by
  obtain ⟨_, h⟩ := he.guard h
  obtain ⟨hnum, h⟩ := he.guard h
  have hnum := not_not.mp hnum
  have hsigned := Numeral.isSigned_of_isNumeral hnum
  simp only at h
  split at h
  · next x hx =>
    injection h with h
    obtain ⟨hx, hlarge⟩ := (stol_eq_error_iff hsigned).mp hx
    rw [Numeral.signedValue_of_isNumeral hnum] at hlarge
    rw [hx] at h
    rw [← h, t.rest_scan charColon i]
    refine .throw (.length hnum hlarge ?_)
    cases hafter : t.rest (i + (t.scan charColon i).length) with
    | nil => exact Or.inl rfl
    | cons b r =>
      rw [Tokens.rest_after_scan hafter]
      exact Or.inr ⟨r, rfl⟩
  · have hok := (he.guard h).2
    injection hok

/-! ### A key that is cut off -/

/-- Zeros up to the end of the input pass for the empty string. -/
theorem decodeString_zeros {u : Bytes} (hrest : t.rest i = u) (hnum : Numeral.IsNumeral u)
    (hzero : Numeral.value u = 0) (hlong : 3 ≤ u.length) :
    decodeString t i = .ok (.string [], t.size + 1) := by
  have hlen := congrArg List.length hrest
  rw [Tokens.length_rest] at hlen
  have hscan : t.scan charColon i = u :=
    scan_of_isNumeral (by rw [hrest, List.append_nil]) hnum (Or.inl rfl)
  have hstol : stol u = .ok 0 := by
    rw [stol_eq_ok_iff (Numeral.isSigned_of_isNumeral hnum), Numeral.signedValue_of_isNumeral hnum,
      hzero]
    rfl
  have hend : t.text.drop (i + u.length + 1) = [] :=
    List.drop_eq_nil_of_le (by unfold Tokens.size at hlen; omega)
  unfold decodeString
  rw [if_neg (by omega)]
  simp only [hscan]
  rw [if_neg (by simpa using hnum), hstol]
  simp only [hend, List.take_nil, List.length_nil]
  rw [if_neg (by decide)]
  simp only [Except.ok.injEq, Prod.mk.injEq, true_and]
  omega

/-- A string that leaves the index behind the NUL was cut off. -/
theorem decodeString_overrun {v : BencodeValue} (h : decodeString t i = .ok (v, t.size + 1)) :
    Numeral.IsNumeral (t.rest i) ∧ Numeral.value (t.rest i) = 0 ∧ 3 ≤ (t.rest i).length := by
  obtain ⟨hguard, h⟩ := guard_eq_ok.mp h
  obtain ⟨b, r, -, hnum, hval, hrest, hj⟩ := Unguarded.decodeString_cases h
  have hlength := congrArg List.length hrest
  rw [Tokens.length_rest, List.length_append] at hlength
  -- Nothing is collected behind the end, so the scan went up to it.
  have hnil : t.rest (i + (t.scan charColon i).length) = [] :=
    List.length_eq_zero_iff.mp (by rw [Tokens.length_rest]; omega)
  have hscan := t.rest_scan charColon i
  rw [hnil, List.append_nil] at hscan
  rw [hscan]
  refine ⟨hnum, by omega, ?_⟩
  rw [← hscan, Tokens.length_rest]
  omega

/-- Only a string can leave the index there. -/
theorem decodeValue_overrun {depth : Nat} {v : BencodeValue}
    (h : decodeValue t depth i = .ok (v, t.size + 1)) :
    Numeral.IsNumeral (t.rest i) ∧ Numeral.value (t.rest i) = 0 ∧ 3 ≤ (t.rest i).length := by
  have hconsumed : ∀ w, ¬ Consumed t i (t.size + 1) w := by
    intro w hw
    have := hw.le_size
    omega
  cases depth with
  | zero => injection h
  | succ depth =>
    have hdec := decodeValue_sound (t := t) depth
    rw [decodeValue_succ] at h
    rcases dispatch_eq_ok h with ⟨htok, h⟩ | h | ⟨htok, h⟩ | ⟨htok, h⟩
    · exact absurd (decodeInt_sound htok h) (hconsumed v)
    · exact decodeString_overrun h
    · exact absurd (decodeList_sound hdec htok h) (hconsumed v)
    · exact absurd (decodeDict_sound hdec htok h) (hconsumed v)

/-- Past the end the parser breaks off only on reading behind the NUL. -/
theorem decodeValue_breaks_past_end {depth : Nat} (hge : t.size ≤ i)
    (h : decodeValue t depth i = .error e) (he : Abrupt e) :
    e = .trap ∧ t.size < i ∧ t.beyond i = none := by
  cases depth with
  | zero =>
    exact absurd h he.ne_outOfFuel
  | succ depth =>
    have h3 : (t.size : Int) - i < 3 := by omega
    have h2 : (t.size : Int) - i < 2 := by omega
    rw [decodeValue, decodeInt, if_pos h3, decodeString, if_pos h3, decodeList, if_pos h2,
      decodeDict, if_pos h2] at h
    split at h
    · exact absurd h he.ne_error
    · cases hread : t.read i with
      | error e' =>
        rw [hread, error_bind] at h
        injection h with h
        rw [← h]
        exact read_eq_error hread
      | ok token =>
        -- Whatever is read, the length guard of its branch refuses.
        rw [hread, ok_bind] at h
        repeat' split at h
        all_goals exact absurd h he.ne_error

/-! ### From a failure to its cause

    The loops pass on what the calls in them break off with. -/

theorem decodeListLoop_past_end (hge : t.size ≤ i) {n : Nat} {ptr : List BencodeValue}
    (h : decodeListLoop t dec n i ptr = .error e) : e = .outOfFuel := by
  cases n with
  | zero =>
    injection h with h
    exact h.symm
  | succ n =>
    rw [decodeListLoop, Tokens.more_of_ge hge, if_neg (by simp)] at h
    injection h

theorem decodeDictLoop_past_end (hge : t.size ≤ i) {n : Nat} {keys : List Bytes}
    {ptr : List (Bytes × BencodeValue)} (h : decodeDictLoop t dec n i keys ptr = .error e) :
    e = .outOfFuel := by
  cases n with
  | zero =>
    injection h with h
    exact h.symm
  | succ n =>
    rw [decodeDictLoop, Tokens.more_of_ge hge, if_neg (by simp)] at h
    injection h

theorem Abrupt.ne (h : Abrupt e) : e ≠ .outOfFuel := by
  rcases h with rfl | ⟨y, rfl⟩
  · simp
  · simp

theorem decodeListLoop_breaks (hdec : SoundDecoder t dec) {n : Nat} {ptr : List BencodeValue}
    (h : decodeListLoop t dec n i ptr = .error e) (he : Abrupt e) :
    ∃ items : List (Bytes × BencodeValue), ∃ k, (∀ p ∈ items, Derives lenient p.1 p.2) ∧
      t.rest i = items.flatMap Prod.fst ++ t.rest k ∧ k < t.size ∧ dec k = .error e := by
  induction n generalizing i ptr with
  | zero => exact absurd h he.ne_outOfFuel
  | succ n ih =>
    rw [decodeListLoop] at h
    split at h
    · next hmore =>
      cases hv : dec i with
      | error e' =>
        rw [hv, error_bind] at h
        injection h with h
        refine ⟨[], i, by simp, by simp, Tokens.lt_size_of_more hmore, ?_⟩
        rw [hv, h]
      | ok r =>
        obtain ⟨w, k⟩ := r
        rw [hv, ok_bind] at h
        rcases hdec.sound i w k hv with hread | hk
        · obtain ⟨s, hrest, _, hd⟩ := hread.rest
          obtain ⟨items, l, hitems, hrest', hl, hfail⟩ := ih h
          refine ⟨(s, w) :: items, l, List.forall_mem_cons.mpr ⟨hd, hitems⟩, ?_, hl, hfail⟩
          rw [hrest, hrest', List.flatMap_cons, List.append_assoc]
        · exact absurd (decodeListLoop_past_end (by omega) h) he.ne
    · injection h

/-- In a dictionary it is the call for a key, or the one for a value. -/
theorem decodeDictLoop_breaks (hdec : SoundDecoder t dec) {n : Nat} {keys : List Bytes}
    {ptr : List (Bytes × BencodeValue)} (h : decodeDictLoop t dec n i keys ptr = .error e)
    (he : Abrupt e) :
    ∃ entries k, Entries entries ∧ t.rest i = entries.flatMap Entry.text ++ t.rest k ∧
      k < t.size ∧ (dec k = .error e ∨
        ∃ key l, dec k = .ok (.string key, l) ∧ dec l = .error e) := by
  induction n generalizing i keys ptr with
  | zero => exact absurd h he.ne_outOfFuel
  | succ n ih =>
    rw [decodeDictLoop] at h
    split at h
    · next hmore =>
      have hlt := Tokens.lt_size_of_more hmore
      have hnone : Entries [] := ⟨by simp, by simp⟩
      cases hkey : dec i with
      | error e' =>
        rw [hkey, error_bind] at h
        injection h with h
        refine ⟨[], i, hnone, by simp, hlt, Or.inl ?_⟩
        rw [hkey, h]
      | ok r =>
        obtain ⟨key, k⟩ := r
        rw [hkey, ok_bind] at h
        simp only at h
        split at h
        · next keyStr =>
          cases hv : dec k with
          | error e' =>
            rw [hv, error_bind] at h
            injection h with h
            refine ⟨[], i, hnone, by simp, hlt, Or.inr ⟨keyStr, k, hkey, ?_⟩⟩
            rw [hv, h]
          | ok r =>
            obtain ⟨w, l⟩ := r
            rw [hv, ok_bind] at h
            rcases hdec.sound i _ k hkey with hreadk | hk
            · rcases hdec.sound k w l hv with hreadv | hl
              · obtain ⟨s, hrest, _, hd⟩ := hreadk.rest
                obtain ⟨s', hrest', _, hd'⟩ := hreadv.rest
                obtain ⟨entries, m, hread, hrest'', hm, hfail⟩ := ih h
                refine ⟨⟨s, keyStr, s', w⟩ :: entries, m,
                  ⟨List.forall_mem_cons.mpr ⟨hd, hread.keys⟩,
                    List.forall_mem_cons.mpr ⟨hd', hread.values⟩⟩, ?_, hm, hfail⟩
                rw [hrest, hrest', hrest'', List.flatMap_cons, Entry.text, List.append_assoc,
                  List.append_assoc]
              · exact absurd (decodeDictLoop_past_end (by omega) h) he.ne
            · exact absurd hv (hdec.past_end k w l (by omega))
        · exact absurd h he.ne_error
    · injection h

/-- Behind its loop `decode_list` does not break off. -/
theorem loop_of_decodeList (h : decodeList t dec i = .error e) (he : Abrupt e) :
    decodeListLoop t dec (t.size + 1) (i + 1) [] = .error e := by
  obtain ⟨_, h⟩ := he.guard h
  cases hloop : decodeListLoop t dec (t.size + 1) (i + 1) [] with
  | error e' =>
    rw [hloop, error_bind] at h
    injection h with h
    rw [h]
  | ok r =>
    obtain ⟨vs, k⟩ := r
    rw [hloop, ok_bind] at h
    obtain ⟨hk, h⟩ := he.guard h
    obtain ⟨b, hb⟩ := read_of_le (show k ≤ t.size by omega)
    rw [hb, ok_bind] at h
    have hok := (he.guard h).2
    injection hok

theorem loop_of_decodeDict (h : decodeDict t dec i = .error e) (he : Abrupt e) :
    decodeDictLoop t dec (t.size + 1) (i + 1) [] [] = .error e := by
  obtain ⟨_, h⟩ := he.guard h
  cases hloop : decodeDictLoop t dec (t.size + 1) (i + 1) [] [] with
  | error e' =>
    rw [hloop, error_bind] at h
    injection h with h
    rw [h]
  | ok r =>
    obtain ⟨keys, m, k⟩ := r
    rw [hloop, ok_bind] at h
    obtain ⟨hk, h⟩ := he.guard h
    obtain ⟨b, hb⟩ := read_of_le (show k ≤ t.size by omega)
    rw [hb, ok_bind] at h
    obtain ⟨_, h⟩ := he.guard h
    have hok := (he.guard h).2
    injection hok

/-- The value of a dictionary is looked for behind its key, or behind the
    NUL. -/
theorem meets_of_value {depth k l : Nat} {key : Bytes} {entries : List Entry} {r : Bytes}
    (hread : Entries entries) (hr : r = entries.flatMap Entry.text ++ t.rest k)
    (hkey : decodeValue t depth k = .ok (.string key, l))
    (hvalue : decodeValue t depth l = .error e) (he : Abrupt e)
    (ih : l < t.size → Meets (Breaks t e) (t.rest l)) : Meets (Breaks t e) (charD :: r) := by
  rcases (decodeValue_sound depth).sound k _ l hkey with hconsumed | hl
  · have hlt : l < t.size := by
      by_contra hge
      have hlast := decodeValue_breaks_past_end (by omega) hvalue he
      have hle := hconsumed.le_size
      omega
    obtain ⟨s, hrest, _, hd⟩ := hconsumed.rest
    rw [hr, hrest]
    exact .value hread hd (ih hlt)
  · rw [hl] at hkey hvalue
    obtain ⟨hnum, hzero, hlong⟩ := decodeValue_overrun hkey
    obtain ⟨rfl, _, hnone⟩ := decodeValue_breaks_past_end (by omega) hvalue he
    rw [hr]
    exact .here (.trap (.intro hread hnum hzero hlong) hnone)

theorem decodeValue_breaks {depth : Nat} (hlt : i < t.size)
    (h : decodeValue t depth i = .error e) (he : Abrupt e) : Meets (Breaks t e) (t.rest i) := by
  induction depth generalizing i with
  | zero => exact absurd h he.ne_outOfFuel
  | succ depth ih =>
    have hdec := decodeValue_sound (t := t) depth
    obtain ⟨b, r, hr⟩ := Tokens.rest_of_lt hlt
    have hread := Tokens.read_of_rest hr
    rw [decodeValue_of_rest hr] at h
    split at h
    · next htoken =>
      rw [htoken] at hread
      exact .here (decodeInt_breaks hread h he)
    · split at h
      · exact .here (decodeString_breaks h he)
      · split at h
        · next htoken =>
          obtain ⟨items, k, hitems, hrest, hk, hfail⟩ :=
            decodeListLoop_breaks hdec (loop_of_decodeList h he) he
          rw [hr, htoken, ← Tokens.rest_succ hr, hrest]
          exact .item hitems (ih hk hfail)
        · split at h
          · next htoken =>
            obtain ⟨entries, k, hentries, hrest, hk, hfail⟩ :=
              decodeDictLoop_breaks hdec (loop_of_decodeDict h he) he
            rw [hr, htoken, ← Tokens.rest_succ hr]
            rcases hfail with hfail | ⟨key, l, hkey, hfail⟩
            · rw [hrest]
              exact .key hentries (ih hk hfail)
            · exact meets_of_value hentries hrest hkey hfail he (fun hl => ih hl hfail)
          · exact absurd h he.ne_error

end Furrent.Bencode
