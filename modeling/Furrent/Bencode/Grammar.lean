import Furrent.Bencode.Value

/-! # The grammar of Bencode

    What the parser is for, stated without the parser: which byte strings
    are sentences and which value each denotes. The rules are those of the
    format; a `Dialect` fixes the three points on which dialects differ:
    how integers and string lengths may be spelled, and how consecutive
    dictionary keys must be ordered.

    * `lenient` is the language of the parser: numerals may have leading
      zeros, equal neighbouring keys are let through.
    * `canonical` is the language of the encoder: one spelling for each
      value. -/

namespace Furrent.Bencode

/-! ### Dialects -/

structure Dialect where
  /-- Spellings allowed between `i` and `e`. -/
  intNumeral : Bytes → Prop
  /-- Spellings allowed for the length of a string. -/
  lengthNumeral : Bytes → Prop
  /-- How an earlier key relates to a later one. -/
  keyOrder : Bytes → Bytes → Prop

/-- Integers match `-?[0-9]+` and are not `-0`; lengths match `[0-9]+`; keys
    do not decrease. -/
def lenient : Dialect where
  intNumeral := fun t => Numeral.IsSigned t ∧ t ≠ [45, 48]
  lengthNumeral := Numeral.IsNumeral
  keyOrder := fun k k' => k ≤ k'

/-- Numerals have no superfluous leading zero, zero has no sign, and keys
    increase strictly. -/
def canonical : Dialect where
  intNumeral := fun t => Numeral.IsSigned t ∧ Numeral.IsSignedCanonical t
  lengthNumeral := fun t => Numeral.IsNumeral t ∧ Numeral.IsCanonical t
  keyOrder := fun k k' => k < k'

/-! ### Derivations -/

/-- A key and a value of a dictionary, each with its spelling. -/
structure Entry where
  keyText : Bytes
  key : Bytes
  valueText : Bytes
  value : BencodeValue

/-- The spelling of an entry. -/
def Entry.text (e : Entry) : Bytes := e.keyText ++ e.valueText

/-- The key and the value of an entry. -/
def Entry.pair (e : Entry) : Bytes × BencodeValue := (e.key, e.value)

/-- `Derives g s v`: the byte string `s` is a sentence of `g` for `v`.
    A dictionary maps each key to the value of its first occurrence. -/
inductive Derives (g : Dialect) : Bytes → BencodeValue → Prop where
  | int {t : Bytes} {n : Int64} (numeral : g.intNumeral t)
      (value : n.toInt = Numeral.signedValue t) :
      Derives g (charI :: (t ++ [charE])) (.int n)
  | string {t b : Bytes} (numeral : g.lengthNumeral t)
      (value : Numeral.value t = b.length) :
      Derives g (t ++ charColon :: b) (.string b)
  | list {items : List (Bytes × BencodeValue)}
      (derives : ∀ p ∈ items, Derives g p.1 p.2) :
      Derives g (charL :: (items.flatMap Prod.fst ++ [charE])) (.list (items.map Prod.snd))
  | dict {entries : List Entry} {m : List (Bytes × BencodeValue)}
      (keys : ∀ e ∈ entries, Derives g e.keyText (.string e.key))
      (values : ∀ e ∈ entries, Derives g e.valueText e.value)
      (order : (entries.map Entry.key).Pairwise g.keyOrder)
      (sorted : OrderedMap.Sorted m)
      (first : ∀ k, OrderedMap.find k m = OrderedMap.find k (entries.map Entry.pair)) :
      Derives g (charD :: (entries.flatMap Entry.text ++ [charE])) (.dict m)

/-! ### First bytes

    Every sentence starts with `i`, `l`, `d` or a digit, so that the first
    byte selects the rule and is never the closing `e`. -/

/-- A numeral is one or more digits in both dialects. -/
structure Dialect.Standard (g : Dialect) : Prop where
  isSigned : ∀ t, g.intNumeral t → Numeral.IsSigned t
  isNumeral : ∀ t, g.lengthNumeral t → Numeral.IsNumeral t

theorem lenient_standard : lenient.Standard := ⟨fun _ h => h.1, fun _ h => h⟩

theorem canonical_standard : canonical.Standard := ⟨fun _ h => h.1, fun _ h => h.1⟩

theorem ne_charE_of_isDigit {b : UInt8} (h : Numeral.isDigit b = true) : b ≠ charE := by
  intro hb
  rw [hb] at h
  exact absurd h (by decide)

theorem Derives.head_ne_charE {g : Dialect} (hg : g.Standard) {s : Bytes} {v : BencodeValue}
    (h : Derives g s v) : ∃ b r, s = b :: r ∧ b ≠ charE := by
  cases h with
  | int _ _ => exact ⟨_, _, rfl, by decide⟩
  | @string t b hnum _ =>
    have hn := hg.isNumeral t hnum
    obtain ⟨c, ds, rfl, _⟩ := Numeral.isNumeral_cases hn
    exact ⟨c, ds ++ charColon :: b, rfl, ne_charE_of_isDigit (hn.2 c (by simp))⟩
  | list _ => exact ⟨_, _, rfl, by decide⟩
  | dict _ _ _ _ _ => exact ⟨_, _, rfl, by decide⟩

/-- A sentence has at least two bytes. -/
theorem Derives.two_le_length {g : Dialect} (hg : g.Standard) {s : Bytes} {v : BencodeValue}
    (h : Derives g s v) : 2 ≤ s.length := by
  cases h with
  | int _ _ => simp
  | @string t b hnum _ =>
    obtain ⟨c, ds, rfl, _⟩ := Numeral.isNumeral_cases (hg.isNumeral t hnum)
    simp
    omega
  | list _ => simp
  | dict _ _ _ _ _ => simp

/-! ### Derived values -/

/-- What a sentence denotes is well-formed. -/
theorem Derives.wellFormed {g : Dialect} {s : Bytes} {v : BencodeValue} (h : Derives g s v) :
    v.WellFormed := by
  induction h with
  | int _ _ => exact .int _
  | string _ _ => exact .string _
  | list _ ih =>
    refine .list ?_
    intro v hv
    obtain ⟨p, hp, rfl⟩ := List.mem_map.mp hv
    exact ih p hp
  | @dict entries m _ _ _ hsorted hfirst _ ihv =>
    refine .dict ?_ hsorted
    -- Every entry of the map is the first occurrence of its key in the text.
    have hmem : ∀ (l : List Entry) k w, OrderedMap.find k (l.map Entry.pair) = some w →
        ∃ e ∈ l, e.value = w := by
      intro l k w
      induction l with
      | nil => simp [OrderedMap.find]
      | cons e l ihl =>
        intro hf
        rw [List.map_cons, Entry.pair, OrderedMap.find] at hf
        split at hf
        · exact ⟨e, by simp, by simpa using hf⟩
        · obtain ⟨e', he', hw⟩ := ihl hf
          exact ⟨e', by simp [he'], hw⟩
    intro e he
    have hfind := OrderedMap.find_of_mem hsorted he
    rw [hfirst] at hfind
    obtain ⟨e', he', hw⟩ := hmem entries _ _ hfind
    rw [← hw]
    exact ihv e' he'

/-- A canonical sentence is a lenient one with the same value. -/
theorem Derives.lenient_of_canonical {s : Bytes} {v : BencodeValue}
    (h : Derives canonical s v) : Derives lenient s v := by
  induction h with
  | @int t n hnum hval =>
    refine .int ⟨hnum.1, ?_⟩ hval
    rintro rfl
    exact hnum.2.2 rfl
  | string hnum hval => exact .string hnum.1 hval
  | list _ ih => exact .list ih
  | dict _ _ horder hsorted hfirst ihk ihv =>
    exact .dict ihk ihv (horder.imp fun h => le_of_lt h) hsorted hfirst

/-! ### The encoder writes canonical sentences -/

theorem derives_stringToString (s : Bytes) :
    Derives canonical (BencodeValue.stringToString s) (.string s) :=
  .string ⟨Numeral.isNumeral_decimal _, Numeral.isCanonical_decimal _⟩ (Numeral.value_decimal _)

theorem listToString_eq (vs : List BencodeValue) :
    BencodeValue.listToString vs
      = (vs.map fun v => (encode v, v)).flatMap Prod.fst := by
  induction vs with
  | nil => rfl
  | cons v vs ih => simp [BencodeValue.listToString, ih, encode]

/-- The entry the encoder writes for a key and a value. -/
def encodeEntry (e : Bytes × BencodeValue) : Entry where
  keyText := BencodeValue.stringToString e.1
  key := e.1
  valueText := encode e.2
  value := e.2

theorem dictToString_eq (m : List (Bytes × BencodeValue)) :
    BencodeValue.dictToString m = (m.map encodeEntry).flatMap Entry.text := by
  induction m with
  | nil => rfl
  | cons e m ih =>
    obtain ⟨k, v⟩ := e
    simp [BencodeValue.dictToString, ih, encode, encodeEntry, Entry.text]

theorem derives_encode {v : BencodeValue} (h : v.WellFormed) :
    Derives canonical (encode v) v := by
  induction h with
  | int n =>
    exact .int ⟨Numeral.isSigned_signedDecimal _, Numeral.isSignedCanonical_signedDecimal _⟩
      (Numeral.signedValue_signedDecimal _).symm
  | string s => exact derives_stringToString s
  | @list vs _ ih =>
    have hitems : ∀ p ∈ vs.map (fun v => (encode v, v)), Derives canonical p.1 p.2 := by
      intro p hp
      obtain ⟨v, hv, rfl⟩ := List.mem_map.mp hp
      exact ih v hv
    have hd := Derives.list hitems
    rw [List.map_map] at hd
    rw [encode, BencodeValue.toString, listToString_eq]
    simpa [Function.comp_def] using hd
  | @dict m _ hsorted ih =>
    have hkeys : (m.map encodeEntry).map Entry.key = m.map Prod.fst := by
      simp [encodeEntry]
    -- Each key occurs once in a sorted map, so its first occurrence is its entry.
    have hpairs : (m.map encodeEntry).map Entry.pair = m := by
      rw [List.map_map]
      exact List.map_id m
    rw [encode, BencodeValue.toString, dictToString_eq]
    refine .dict ?_ ?_ ?_ hsorted ?_
    · intro e he
      obtain ⟨p, hp, rfl⟩ := List.mem_map.mp he
      exact derives_stringToString p.1
    · intro e he
      obtain ⟨p, hp, rfl⟩ := List.mem_map.mp he
      exact ih p hp
    · rw [hkeys]
      exact hsorted
    · intro k
      rw [hpairs]

/-- Conversely, a canonical sentence is what the encoder writes for its
    value. -/
theorem Derives.encode_eq {s : Bytes} {v : BencodeValue} (h : Derives canonical s v) :
    encode v = s := by
  induction h with
  | @int t n hnum hval =>
    rw [encode, BencodeValue.toString, hval, Numeral.signedDecimal_signedValue hnum.1 hnum.2]
  | @string t b hnum hval =>
    rw [encode, BencodeValue.toString, BencodeValue.stringToString, ← hval,
      Numeral.decimal_value hnum.1 hnum.2]
  | @list items _ ih =>
    have htexts : (items.map Prod.snd).map (fun v => (encode v, v)) = items := by
      rw [List.map_map]
      refine (List.map_congr_left ?_).trans (List.map_id _)
      intro p hp
      simp [ih p hp]
    rw [encode, BencodeValue.toString, listToString_eq, htexts]
  | @dict entries m _ _ horder hsorted hfirst ihk ihv =>
    -- Strictly ordered keys: the map has the same entries as the text.
    have hm : m = entries.map Entry.pair := by
      apply OrderedMap.ext_find hsorted
      · have hkeys : (entries.map Entry.pair).map Prod.fst = entries.map Entry.key := by
          rw [List.map_map]
          rfl
        rw [OrderedMap.Sorted, hkeys]
        exact horder
      · exact hfirst
    have htexts : (entries.map Entry.pair).map encodeEntry = entries := by
      rw [List.map_map]
      refine (List.map_congr_left ?_).trans (List.map_id _)
      intro e he
      have hk : BencodeValue.stringToString e.key = e.keyText := by
        simpa [encode, BencodeValue.toString] using ihk e he
      simp [encodeEntry, Entry.pair, hk, ihv e he]
    rw [encode, BencodeValue.toString, dictToString_eq, hm, htexts]

end Furrent.Bencode
