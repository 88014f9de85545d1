import Furrent.Bencode.Soundness

/-! # The parser accepts the grammar

    The other direction: on a sentence of the `lenient` grammar, with
    anything behind it, the parser returns the value the sentence denotes
    and stops right behind the sentence. The one exception is the sentence
    `0:` with nothing behind it, which the length guard of `decode_string`
    refuses; a sentence inside a list or a dictionary always has a byte
    behind it.

    The last part shows that the bounds of the model are never met. -/

namespace Furrent.Bencode

open Cpp

variable {t : Tokens} {i : Nat} {r : Bytes}

/-! ### Integers and strings -/

theorem ne_charE_of_mem_signed {u : Bytes} (h : Numeral.IsSigned u) :
    ∀ b ∈ u, b ≠ charE := by
  rcases Numeral.isSigned_cases h with hnum | ⟨ds, rfl, hnum⟩
  · exact fun b hb => ne_charE_of_isDigit (hnum.2 b hb)
  · intro b hb
    rcases List.mem_cons.mp hb with rfl | hb
    · decide
    · exact ne_charE_of_isDigit (hnum.2 b hb)

/-- What `decode_int` finds at an integer. -/
theorem int_of_rest {u : Bytes} (hrest : t.rest i = charI :: (u ++ charE :: r))
    (hsigned : Numeral.IsSigned u) :
    1 ≤ u.length ∧ i + 1 + u.length < t.size ∧ t.scan charE (i + 1) = u ∧
      t.read (i + 1 + u.length) = .ok charE := by
  have hlen := congrArg List.length hrest
  rw [Tokens.length_rest, List.length_cons, List.length_append, List.length_cons] at hlen
  exact ⟨Numeral.length_pos_of_isSigned hsigned, by omega,
    Tokens.scan_of_rest (Tokens.rest_succ hrest) (ne_charE_of_mem_signed hsigned),
    Tokens.read_of_rest (Tokens.rest_of_append (Tokens.rest_succ hrest))⟩

theorem decodeInt_complete {u : Bytes} {n : Int64}
    (hrest : t.rest i = charI :: (u ++ charE :: r))
    (hnum : lenient.intNumeral u) (hval : n.toInt = Numeral.signedValue u) :
    decodeInt t i = .ok (.int n, i + (u.length + 2)) := by
  obtain ⟨hsigned, hzero⟩ := hnum
  obtain ⟨hpos, hlt, hscan, hread⟩ := int_of_rest hrest hsigned
  unfold decodeInt
  rw [if_neg (by omega)]
  simp only [hscan]
  rw [if_neg (by omega), hread, ok_bind, if_neg (by simp), if_neg hzero,
    if_neg (by simpa using hsigned), (stol_eq_ok_iff hsigned n).mpr hval]
  simp only [Except.ok.injEq, Prod.mk.injEq, true_and]
  omega

/-- The digits of a length are scanned up to the colon, or up to the end. -/
theorem scan_of_isNumeral {u : Bytes} (hrest : t.rest i = u ++ r) (hnum : Numeral.IsNumeral u)
    (hends : r = [] ∨ ∃ r', r = charColon :: r') : t.scan charColon i = u := by
  have hcolon : ∀ c ∈ u, decide (c ≠ charColon) = true := by
    intro c hc
    have hdigit := hnum.2 c hc
    simp only [decide_eq_true_eq]
    rintro rfl
    exact absurd hdigit (by decide)
  have hdrop : t.text.drop i = u ++ r := hrest
  rw [Tokens.scan, hdrop, List.takeWhile_append_of_pos hcolon]
  rcases hends with rfl | ⟨r', rfl⟩
  · simp
  · simp

theorem decodeString_complete {u b : Bytes}
    (hrest : t.rest i = u ++ charColon :: (b ++ r))
    (hnum : Numeral.IsNumeral u) (hval : Numeral.value u = b.length)
    (hlen : 3 ≤ (t.rest i).length) (hsize : t.size ≤ INT64_MAX) :
    decodeString t i = .ok (.string b, i + (u.length + 1 + b.length)) := by
  have hlen' := congrArg List.length hrest
  rw [Tokens.length_rest, List.length_append, List.length_cons, List.length_append] at hlen'
  rw [Tokens.length_rest] at hlen
  have hscan : t.scan charColon i = u := scan_of_isNumeral hrest hnum (Or.inr ⟨_, rfl⟩)
  have hafter : t.text.drop (i + u.length + 1) = b ++ r :=
    Tokens.rest_succ (Tokens.rest_of_append hrest)
  -- The length of `b` is below the size of the input, so it fits.
  have hb : b.length < 2 ^ 63 := by
    unfold INT64_MAX at hsize
    omega
  have hn : (Int64.ofInt b.length).toInt = b.length :=
    Int64.toInt_ofInt_of_le (by omega) (by omega)
  have hstol : stol u = .ok (Int64.ofInt b.length) := by
    rw [stol_eq_ok_iff (Numeral.isSigned_of_isNumeral hnum),
      Numeral.signedValue_of_isNumeral hnum, hval]
    exact hn
  have htake : (b ++ r).take (b.length : Int).toNat = b := by simp
  unfold decodeString
  rw [if_neg (by omega)]
  simp only [hscan]
  rw [if_neg (by simpa using hnum), hstol]
  simp only [hafter, hn, htake]
  rw [if_neg (by unfold INT64_MAX; omega)]
  simp only [Except.ok.injEq, Prod.mk.injEq, true_and]
  omega

/-- `0:` is the one string sentence of fewer than three bytes. -/
theorem three_le_length_of_ne {u b : Bytes} (hnum : Numeral.IsNumeral u)
    (hval : Numeral.value u = b.length) (hne : u ++ charColon :: (b ++ r) ≠ [48, 58]) :
    3 ≤ (u ++ charColon :: (b ++ r)).length := by
  obtain ⟨c, ds, rfl, _⟩ := Numeral.isNumeral_cases hnum
  by_contra hlt
  simp only [List.length_append, List.length_cons] at hlt
  have hds : ds = [] := List.length_eq_zero_iff.mp (by omega)
  have hb : b = [] := List.length_eq_zero_iff.mp (by omega)
  have hr : r = [] := List.length_eq_zero_iff.mp (by omega)
  subst hds hb hr
  -- A single digit of value zero is the digit zero.
  have hc : Numeral.digitVal c = 0 := by simpa [Numeral.value] using hval
  have hdigit := Numeral.digitByte_digitVal (hnum.2 c (by simp))
  rw [hc] at hdigit
  exact hne (by rw [← hdigit]; rfl)

/-! ### Lists and dictionaries -/

/-- The decoder `dec` reads the sentence `s` for `v` wherever it stands,
    unless it is a `0:` at the end of the input. -/
def Reads (t : Tokens) (dec : Nat → Parse (BencodeValue × Nat)) (s : Bytes)
    (v : BencodeValue) : Prop :=
  ∀ i r, t.rest i = s ++ r → s ++ r ≠ [48, 58] → dec i = .ok (v, i + s.length)

/-- A sentence with something behind it is longer than `0:`. -/
theorem append_ne_zero_colon {s : Bytes} {v : BencodeValue} (hd : Derives lenient s v)
    (hr : r ≠ []) : s ++ r ≠ [48, 58] := by
  intro h
  have h2 := hd.two_le_length lenient_standard
  have hpos := List.length_pos_of_ne_nil hr
  have hlen := congrArg List.length h
  simp only [List.length_append, List.length_cons, List.length_nil] at hlen
  omega

theorem more_of_derives {s : Bytes} {v : BencodeValue} (hd : Derives lenient s v)
    (hrest : t.rest i = s ++ r) : t.more i = true := by
  obtain ⟨b, s', rfl, hb⟩ := hd.head_ne_charE lenient_standard
  rw [Tokens.more_of_rest hrest]
  simpa using hb

theorem more_of_charE (hrest : t.rest i = charE :: r) : t.more i = false := by
  rw [Tokens.more_of_rest hrest]
  simp

/-- The loop of `decode_list` gets through the items and goes on behind
    them. -/
theorem decodeListLoop_items {dec : Nat → Parse (BencodeValue × Nat)} (n : Nat)
    {items : List (Bytes × BencodeValue)} {ptr : List BencodeValue}
    (hitems : ∀ p ∈ items, Derives lenient p.1 p.2)
    (hdec : ∀ p ∈ items, Reads t dec p.1 p.2)
    (hrest : t.rest i = items.flatMap Prod.fst ++ r) (hr : r ≠ []) :
    decodeListLoop t dec (n + items.length) i ptr
      = decodeListLoop t dec n (i + (items.flatMap Prod.fst).length)
          (ptr ++ items.map Prod.snd) := by
  induction items generalizing i ptr with
  | nil => simp
  | cons p items ih =>
    have hd := hitems p (by simp)
    have hrest' : t.rest i = p.1 ++ (items.flatMap Prod.fst ++ r) := by
      rw [hrest, List.flatMap_cons, List.append_assoc]
    have hp : dec i = .ok (p.2, i + p.1.length) :=
      hdec p (by simp) i _ hrest' (append_ne_zero_colon hd (by simp [hr]))
    rw [List.length_cons, ← Nat.add_assoc, decodeListLoop, more_of_derives hd hrest']
    simp only [if_true, hp, ok_bind]
    rw [ih (fun q hq => hitems q (by simp [hq])) (fun q hq => hdec q (by simp [hq]))
      (Tokens.rest_of_append hrest')]
    simp only [List.map_cons, List.flatMap_cons, List.length_append, List.append_assoc,
      List.singleton_append, Nat.add_assoc]

theorem decodeListLoop_complete {dec : Nat → Parse (BencodeValue × Nat)} {n : Nat}
    {items : List (Bytes × BencodeValue)} {ptr : List BencodeValue}
    (hitems : ∀ p ∈ items, Derives lenient p.1 p.2)
    (hdec : ∀ p ∈ items, Reads t dec p.1 p.2)
    (hrest : t.rest i = items.flatMap Prod.fst ++ charE :: r) (hn : items.length < n) :
    decodeListLoop t dec n i ptr
      = .ok (ptr ++ items.map Prod.snd, i + (items.flatMap Prod.fst).length) := by
  obtain ⟨m, rfl⟩ : ∃ m, n = m + 1 + items.length := ⟨n - 1 - items.length, by omega⟩
  rw [decodeListLoop_items (m + 1) hitems hdec hrest (by simp), decodeListLoop,
    more_of_charE (Tokens.rest_of_append hrest)]
  rfl

/-- The same for the entries of a dictionary. -/
theorem decodeDictLoop_entries {dec : Nat → Parse (BencodeValue × Nat)} (n : Nat)
    {entries : List Entry} {keys : List Bytes} {ptr : List (Bytes × BencodeValue)}
    (hkeys : ∀ e ∈ entries, Derives lenient e.keyText (.string e.key))
    (hvalues : ∀ e ∈ entries, Derives lenient e.valueText e.value)
    (hdeck : ∀ e ∈ entries, Reads t dec e.keyText (.string e.key))
    (hdecv : ∀ e ∈ entries, Reads t dec e.valueText e.value)
    (hrest : t.rest i = entries.flatMap Entry.text ++ r) (hr : r ≠ []) :
    decodeDictLoop t dec (n + entries.length) i keys ptr
      = decodeDictLoop t dec n (i + (entries.flatMap Entry.text).length)
          (keys ++ entries.map Entry.key)
          (OrderedMap.insertAll ptr (entries.map Entry.pair)) := by
  induction entries generalizing i keys ptr with
  | nil => simp
  | cons e entries ih =>
    have hdk := hkeys e (by simp)
    have hdv := hvalues e (by simp)
    have hrest' : t.rest i = e.keyText
        ++ (e.valueText ++ (entries.flatMap Entry.text ++ r)) := by
      rw [hrest, List.flatMap_cons, Entry.text, List.append_assoc, List.append_assoc]
    have hrest'' := Tokens.rest_of_append hrest'
    have hk : dec i = .ok (.string e.key, i + e.keyText.length) :=
      hdeck e (by simp) i _ hrest' (append_ne_zero_colon hdk (by simp [hr]))
    have hv : dec (i + e.keyText.length)
        = .ok (e.value, i + e.keyText.length + e.valueText.length) :=
      hdecv e (by simp) _ _ hrest'' (append_ne_zero_colon hdv (by simp [hr]))
    rw [List.length_cons, ← Nat.add_assoc, decodeDictLoop, more_of_derives hdk hrest']
    simp only [if_true, hk, hv, ok_bind]
    rw [ih (fun f hf => hkeys f (by simp [hf])) (fun f hf => hvalues f (by simp [hf]))
      (fun f hf => hdeck f (by simp [hf])) (fun f hf => hdecv f (by simp [hf]))
      (Tokens.rest_of_append hrest'')]
    simp only [List.map_cons, List.flatMap_cons, Entry.text, Entry.pair, List.length_append,
      List.append_assoc, List.singleton_append, Nat.add_assoc, OrderedMap.insertAll_cons]

theorem decodeDictLoop_complete {dec : Nat → Parse (BencodeValue × Nat)} {n : Nat}
    {entries : List Entry} {keys : List Bytes} {ptr : List (Bytes × BencodeValue)}
    (hkeys : ∀ e ∈ entries, Derives lenient e.keyText (.string e.key))
    (hvalues : ∀ e ∈ entries, Derives lenient e.valueText e.value)
    (hdeck : ∀ e ∈ entries, Reads t dec e.keyText (.string e.key))
    (hdecv : ∀ e ∈ entries, Reads t dec e.valueText e.value)
    (hrest : t.rest i = entries.flatMap Entry.text ++ charE :: r) (hn : entries.length < n) :
    decodeDictLoop t dec n i keys ptr
      = .ok (keys ++ entries.map Entry.key, OrderedMap.insertAll ptr (entries.map Entry.pair),
          i + (entries.flatMap Entry.text).length) := by
  obtain ⟨m, rfl⟩ : ∃ m, n = m + 1 + entries.length := ⟨n - 1 - entries.length, by omega⟩
  rw [decodeDictLoop_entries (m + 1) hkeys hvalues hdeck hdecv hrest (by simp), decodeDictLoop,
    more_of_charE (Tokens.rest_of_append hrest)]
  rfl

/-- A list of non-empty texts has at most as many members as bytes, and each
    member is no longer than the whole. -/
theorem length_le_flatMap {α : Type} (f : α → Bytes) {l : List α}
    (h : ∀ a ∈ l, 1 ≤ (f a).length) :
    l.length ≤ (l.flatMap f).length ∧ ∀ a ∈ l, (f a).length ≤ (l.flatMap f).length := by
  induction l with
  | nil => simp
  | cons a l ih =>
    obtain ⟨hlen, hmem⟩ := ih (fun b hb => h b (by simp [hb]))
    have ha := h a (by simp)
    rw [List.flatMap_cons, List.length_append, List.length_cons]
    refine ⟨by omega, ?_⟩
    intro b hb
    rcases List.mem_cons.mp hb with rfl | hb
    · omega
    · have := hmem b hb
      omega

/-! ### Values -/

/-- The dispatch on the first byte. -/
theorem decodeValue_of_rest {depth : Nat} {b : UInt8} (h : t.rest i = b :: r) :
    decodeValue t (depth + 1) i =
      if b = charI then decodeInt t i
      else if b ≤ 57 ∧ 48 ≤ b then decodeString t i
      else if b = charL then decodeList t (decodeValue t depth) i
      else if b = charD then decodeDict t (decodeValue t depth) i
      else .error (.error .invalidString) := by
  have hne : t.text.isEmpty = false := by
    have hlt : i < t.text.length := Tokens.lt_size_of_rest h
    cases hb : t.text with
    | nil => simp [hb] at hlt
    | cons _ _ => rfl
  rw [decodeValue, hne, Tokens.read_of_rest h]
  rfl

/-- The dispatch on a digit. -/
theorem decodeValue_of_digit {depth : Nat} {u : Bytes} (hrest : t.rest i = u ++ r)
    (hnum : Numeral.IsNumeral u) : decodeValue t (depth + 1) i = decodeString t i := by
  obtain ⟨c, ds, rfl, _⟩ := Numeral.isNumeral_cases hnum
  have hdigit : Numeral.isDigit c = true := hnum.2 c (by simp)
  have hc : c ≤ 57 ∧ 48 ≤ c := by
    simp only [Numeral.isDigit, Bool.and_eq_true, decide_eq_true_eq] at hdigit
    exact ⟨hdigit.2, hdigit.1⟩
  -- The dispatch asks for an `i` first.
  have hcI : c ≠ charI := by
    rintro rfl
    exact absurd hdigit (by decide)
  rw [decodeValue_of_rest hrest, if_neg hcI, if_pos hc]

/-! ### One construct at a time

    With a decoder for the parts, the dispatch reads the whole. -/

section

variable {d : Nat} {u b : Bytes}

theorem reads_int {n : Int64} (hnum : lenient.intNumeral u)
    (hval : n.toInt = Numeral.signedValue u) :
    Reads t (decodeValue t (d + 1)) (charI :: (u ++ [charE])) (.int n) := by
  intro i r hrest _
  have hrest' : t.rest i = charI :: (u ++ charE :: r) := by
    rw [hrest]
    simp
  rw [decodeValue_of_rest hrest', if_pos rfl, decodeInt_complete hrest' hnum hval]
  simp

theorem reads_string (hnum : Numeral.IsNumeral u) (hval : Numeral.value u = b.length)
    (hsize : t.size ≤ INT64_MAX) :
    Reads t (decodeValue t (d + 1)) (u ++ charColon :: b) (.string b) := by
  intro i r hrest hne
  have hrest' : t.rest i = u ++ charColon :: (b ++ r) := by
    rw [hrest]
    simp
  have h3 : 3 ≤ (t.rest i).length := by
    rw [hrest']
    exact three_le_length_of_ne hnum hval (by rw [← hrest', hrest]; exact hne)
  rw [decodeValue_of_digit hrest' hnum, decodeString_complete hrest' hnum hval h3 hsize]
  simp only [List.length_append, List.length_cons, Except.ok.injEq, Prod.mk.injEq, true_and]
  omega

/-- A list has no more members than bytes, and no member is longer. -/
theorem length_items {items : List (Bytes × BencodeValue)}
    (hitems : ∀ p ∈ items, Derives lenient p.1 p.2) :
    items.length ≤ (items.flatMap Prod.fst).length ∧
      ∀ p ∈ items, p.1.length ≤ (items.flatMap Prod.fst).length := by
  apply length_le_flatMap Prod.fst
  intro p hp
  have := (hitems p hp).two_le_length lenient_standard
  omega

/-- So it is with the entries of a dictionary. -/
theorem length_entries {entries : List Entry}
    (hkeys : ∀ e ∈ entries, Derives lenient e.keyText (.string e.key)) :
    entries.length ≤ (entries.flatMap Entry.text).length ∧
      ∀ e ∈ entries, e.text.length ≤ (entries.flatMap Entry.text).length := by
  apply length_le_flatMap Entry.text
  intro e he
  have := (hkeys e he).two_le_length lenient_standard
  rw [Entry.text, List.length_append]
  omega

theorem reads_list {items : List (Bytes × BencodeValue)}
    (hitems : ∀ p ∈ items, Derives lenient p.1 p.2)
    (hreads : ∀ p ∈ items, Reads t (decodeValue t d) p.1 p.2) :
    Reads t (decodeValue t (d + 1)) (charL :: (items.flatMap Prod.fst ++ [charE]))
      (.list (items.map Prod.snd)) := by
  intro i r hrest _
  have hrest' : t.rest i = charL :: (items.flatMap Prod.fst ++ charE :: r) := by
    rw [hrest]
    simp
  have hlen := congrArg List.length hrest'
  rw [Tokens.length_rest, List.length_cons, List.length_append, List.length_cons] at hlen
  have hcount := (length_items hitems).1
  have hloop : decodeListLoop t (decodeValue t d) (t.size + 1) (i + 1) [] = _ :=
    decodeListLoop_complete hitems hreads (Tokens.rest_succ hrest') (by omega)
  have hafter := Tokens.rest_of_append (Tokens.rest_succ hrest')
  rw [decodeValue_of_rest hrest', if_neg (by decide), if_neg (by decide), if_pos rfl,
    decodeList, if_neg (by omega), hloop, ok_bind]
  simp only
  rw [if_neg (by omega), Tokens.read_of_rest hafter, ok_bind, if_neg (by simp)]
  simp only [List.nil_append, List.length_cons, List.length_append, List.length_nil,
    Except.ok.injEq, Prod.mk.injEq, true_and]
  omega

/-- The map built by the insertions is the one the grammar speaks of. -/
theorem insertAll_entries {entries : List Entry} {m : List (Bytes × BencodeValue)}
    (hsorted : OrderedMap.Sorted m)
    (hfirst : ∀ k, OrderedMap.find k m = OrderedMap.find k (entries.map Entry.pair)) :
    OrderedMap.insertAll [] (entries.map Entry.pair) = m := by
  apply OrderedMap.ext_find (OrderedMap.sorted_insertAll OrderedMap.sorted_nil) hsorted
  intro k
  rw [hfirst, OrderedMap.find_insertAll OrderedMap.sorted_nil]
  rfl

theorem reads_dict {entries : List Entry} {m : List (Bytes × BencodeValue)}
    (hkeys : ∀ e ∈ entries, Derives lenient e.keyText (.string e.key))
    (hvalues : ∀ e ∈ entries, Derives lenient e.valueText e.value)
    (horder : (entries.map Entry.key).Pairwise lenient.keyOrder)
    (hm : OrderedMap.insertAll [] (entries.map Entry.pair) = m)
    (hreads : ∀ e ∈ entries, Reads t (decodeValue t d) e.keyText (.string e.key) ∧
      Reads t (decodeValue t d) e.valueText e.value) :
    Reads t (decodeValue t (d + 1)) (charD :: (entries.flatMap Entry.text ++ [charE]))
      (.dict m) := by
  intro i r hrest _
  have hrest' : t.rest i = charD :: (entries.flatMap Entry.text ++ charE :: r) := by
    rw [hrest]
    simp
  have hlen := congrArg List.length hrest'
  rw [Tokens.length_rest, List.length_cons, List.length_append, List.length_cons] at hlen
  have hcount := (length_entries hkeys).1
  have hloop : decodeDictLoop t (decodeValue t d) (t.size + 1) (i + 1) [] [] = _ :=
    decodeDictLoop_complete hkeys hvalues (fun e he => (hreads e he).1)
      (fun e he => (hreads e he).2) (Tokens.rest_succ hrest') (by omega)
  have hafter := Tokens.rest_of_append (Tokens.rest_succ hrest')
  have hord : keysOrdered ([] ++ entries.map Entry.key) = true :=
    (keysOrdered_iff _).mpr horder
  rw [decodeValue_of_rest hrest', if_neg (by decide), if_neg (by decide), if_neg (by decide),
    if_pos rfl, decodeDict, if_neg (by omega), hloop, ok_bind]
  simp only
  rw [if_neg (by omega), Tokens.read_of_rest hafter, ok_bind, if_neg (by simp),
    if_neg (by simpa using hord), hm]
  simp only [List.length_cons, List.length_append, List.length_nil, Except.ok.injEq,
    Prod.mk.injEq, true_and]
  omega

end

theorem decodeValue_complete {s : Bytes} {v : BencodeValue} (hd : Derives lenient s v)
    (hsize : t.size ≤ INT64_MAX) {depth : Nat} (hdepth : s.length ≤ depth) :
    Reads t (decodeValue t depth) s v := by
  -- By induction on the derivation. The depth left is at least the length of
  -- the sentence, and a member of a list is shorter than the list.
  induction hd generalizing depth with
  | int hnum hval =>
    obtain ⟨d, rfl⟩ : ∃ d, depth = d + 1 := ⟨depth - 1, by simp at hdepth; omega⟩
    exact reads_int hnum hval
  | string hnum hval =>
    obtain ⟨d, rfl⟩ : ∃ d, depth = d + 1 := ⟨depth - 1, by simp at hdepth; omega⟩
    exact reads_string hnum hval hsize
  | @list items hitems ih =>
    rw [List.length_cons, List.length_append, List.length_singleton] at hdepth
    obtain ⟨d, rfl⟩ : ∃ d, depth = d + 1 := ⟨depth - 1, by omega⟩
    apply reads_list hitems
    intro p hp
    have := (length_items hitems).2 p hp
    exact ih p hp (by omega)
  | @dict entries m hkeys hvalues horder hsorted hfirst ihk ihv =>
    rw [List.length_cons, List.length_append, List.length_singleton] at hdepth
    obtain ⟨d, rfl⟩ : ∃ d, depth = d + 1 := ⟨depth - 1, by omega⟩
    apply reads_dict hkeys hvalues horder (insertAll_entries hsorted hfirst)
    intro e he
    have := (length_entries hkeys).2 e he
    rw [Entry.text, List.length_append] at this
    exact ⟨ihk e he (by omega), ihv e he (by omega)⟩

/-- The public parser returns what the grammar derives. -/
theorem decode_complete {beyond : Nat → Option UInt8} {s : Bytes} {v : BencodeValue}
    (hd : Derives lenient s v) (hne : s ≠ [48, 58]) (hsize : s.length ≤ INT64_MAX) :
    decode beyond s = .ok v := by
  have hread : decodeAt ⟨s, beyond⟩ 0 = .ok (v, 0 + s.length) :=
    decodeValue_complete (t := ⟨s, beyond⟩) hd hsize (Nat.le_succ s.length) 0 []
      (List.append_nil s).symm (by simpa using hne)
  rw [decode, if_neg (by omega), hread, ok_bind]
  simp

/-! ### The bounds of the model are never met

    A value takes at least one byte, so neither the nesting nor the number
    of elements exceeds the number of bytes that are left. -/

theorem SoundDecoder.progress {dec : Nat → Parse (BencodeValue × Nat)}
    (hdec : SoundDecoder t dec) {v : BencodeValue} {j : Nat} (h : dec i = .ok (v, j)) :
    i < j := by
  rcases hdec.sound i v j h with hc | hj
  · exact hc.le_size.1
  · by_contra hge
    exact hdec.past_end i v j (by omega) h

theorem read_ne_outOfFuel (t : Tokens) (i : Nat) : t.read i ≠ .error .outOfFuel := by
  unfold Tokens.read
  split <;> simp

theorem dispatch_ne_outOfFuel {int string list dict : Parse (BencodeValue × Nat)}
    (hint : int ≠ .error .outOfFuel) (hstring : string ≠ .error .outOfFuel)
    (hlist : list ≠ .error .outOfFuel) (hdict : dict ≠ .error .outOfFuel) :
    dispatch t i int string list dict ≠ .error .outOfFuel := by
  unfold dispatch
  split
  · simp
  · refine bind_ne_error (read_ne_outOfFuel t i) ?_
    intro token _
    split_ifs
    · exact hint
    · exact hstring
    · exact hlist
    · exact hdict
    · simp

theorem Unguarded.decodeInt_ends (t : Tokens) (i : Nat) :
    Unguarded.decodeInt t i ≠ .error .outOfFuel := by
  unfold Unguarded.decodeInt
  simp only
  split
  · simp
  · refine bind_ne_error (read_ne_outOfFuel t _) ?_
    intro token _
    repeat' split
    all_goals simp

theorem decodeInt_ne_outOfFuel (t : Tokens) (i : Nat) :
    decodeInt t i ≠ .error .outOfFuel := by
  rw [decodeInt_guard]
  split
  · simp
  · exact Unguarded.decodeInt_ends t i

theorem Unguarded.decodeString_ends (t : Tokens) (i : Nat) :
    Unguarded.decodeString t i ≠ .error .outOfFuel := by
  unfold Unguarded.decodeString
  simp only
  repeat' split
  all_goals simp

theorem decodeString_ne_outOfFuel (t : Tokens) (i : Nat) :
    decodeString t i ≠ .error .outOfFuel := by
  rw [decodeString_guard]
  split
  · simp
  · exact Unguarded.decodeString_ends t i

theorem decodeListLoop_ne_outOfFuel {dec : Nat → Parse (BencodeValue × Nat)}
    (hdec : SoundDecoder t dec) (hfuel : ∀ k, i ≤ k → dec k ≠ .error .outOfFuel) {n : Nat}
    (hn : t.size < n + i) (hpos : 0 < n) (ptr : List BencodeValue) :
    decodeListLoop t dec n i ptr ≠ .error .outOfFuel := by
  induction n generalizing i ptr with
  | zero => omega
  | succ n ih =>
    rw [decodeListLoop]
    split
    · next hmore =>
      have hlt := Tokens.lt_size_of_more hmore
      refine bind_ne_error (hfuel i le_rfl) ?_
      rintro ⟨v, k⟩ hk
      have hik := hdec.progress hk
      exact ih (fun l hl => hfuel l (by omega)) (by omega) (by omega) _
    · simp

theorem decodeDictLoop_ne_outOfFuel {dec : Nat → Parse (BencodeValue × Nat)}
    (hdec : SoundDecoder t dec) (hfuel : ∀ k, i ≤ k → dec k ≠ .error .outOfFuel) {n : Nat}
    (hn : t.size < n + i) (hpos : 0 < n) (keys : List Bytes)
    (ptr : List (Bytes × BencodeValue)) :
    decodeDictLoop t dec n i keys ptr ≠ .error .outOfFuel := by
  induction n generalizing i keys ptr with
  | zero => omega
  | succ n ih =>
    rw [decodeDictLoop]
    split
    · next hmore =>
      have hlt := Tokens.lt_size_of_more hmore
      refine bind_ne_error (hfuel i le_rfl) ?_
      rintro ⟨key, k⟩ hk
      have hik := hdec.progress hk
      cases key with
      | string keyStr =>
        refine bind_ne_error (hfuel k (by omega)) ?_
        rintro ⟨v, l⟩ hl
        have hkl := hdec.progress hl
        exact ih (fun l hl => hfuel l (by omega)) (by omega) (by omega) _ _
      | int _ => simp
      | list _ => simp
      | dict _ => simp
    · simp

theorem decodeList_ne_outOfFuel {dec : Nat → Parse (BencodeValue × Nat)}
    (hdec : SoundDecoder t dec)
    (hfuel : i < t.size → ∀ k, i + 1 ≤ k → dec k ≠ .error .outOfFuel) :
    decodeList t dec i ≠ .error .outOfFuel := by
  rw [decodeList]
  split
  · simp
  · have hloop := decodeListLoop_ne_outOfFuel hdec (hfuel (by omega)) (n := t.size + 1) (by omega)
      (by omega) []
    refine bind_ne_error hloop ?_
    rintro ⟨ptr, k⟩ _
    show (if t.size ≤ k then _ else _) ≠ _
    split
    · simp
    · refine bind_ne_error (read_ne_outOfFuel t k) ?_
      intro token _
      split <;> simp

theorem decodeDict_ne_outOfFuel {dec : Nat → Parse (BencodeValue × Nat)}
    (hdec : SoundDecoder t dec)
    (hfuel : i < t.size → ∀ k, i + 1 ≤ k → dec k ≠ .error .outOfFuel) :
    decodeDict t dec i ≠ .error .outOfFuel := by
  rw [decodeDict]
  split
  · simp
  · have hloop := decodeDictLoop_ne_outOfFuel hdec (hfuel (by omega)) (n := t.size + 1) (by omega)
      (by omega) [] []
    refine bind_ne_error hloop ?_
    rintro ⟨keys, ptr, k⟩ _
    show (if t.size ≤ k then _ else _) ≠ _
    split
    · simp
    · refine bind_ne_error (read_ne_outOfFuel t k) ?_
      intro token _
      repeat' split
      all_goals simp

theorem decodeValue_ne_outOfFuel {depth : Nat} (hdepth : t.size < depth + i)
    (hpos : 0 < depth) : decodeValue t depth i ≠ .error .outOfFuel := by
  induction depth generalizing i with
  | zero => omega
  | succ depth ih =>
    have hdec := decodeValue_sound (t := t) depth
    -- One level down the index is at least one further on.
    have hfuel : i < t.size → ∀ k, i + 1 ≤ k → decodeValue t depth k ≠ .error .outOfFuel :=
      fun _ k hk => ih (by omega) (by omega)
    rw [decodeValue_succ]
    exact dispatch_ne_outOfFuel (decodeInt_ne_outOfFuel t i) (decodeString_ne_outOfFuel t i)
      (decodeList_ne_outOfFuel hdec hfuel) (decodeDict_ne_outOfFuel hdec hfuel)

/-- The parser returns, reports an error, throws or traps on every input. -/
theorem decode_ne_outOfFuel (beyond : Nat → Option UInt8) (s : Bytes) :
    decode beyond s ≠ .error .outOfFuel := by
  rw [decode]
  split
  · simp
  · have hat : decodeAt ⟨s, beyond⟩ 0 ≠ .error .outOfFuel :=
      decodeValue_ne_outOfFuel (by omega) (by omega)
    refine bind_ne_error hat ?_
    rintro ⟨v, i⟩ _
    show (if i ≠ s.length then _ else _) ≠ _
    split <;> simp

end Furrent.Bencode
