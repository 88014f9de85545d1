import Mathlib.Data.List.Perm.Subperm
import Furrent.Bencode.RoundTrip

/-! # What a dictionary loses

    `decode_dict` inserts the entries into a map as it reads them and checks
    the order of the keys in the end. The check lets equal neighbours
    through, and of two entries with the same key the map keeps the first.
    So a dictionary comes through complete just when its keys increase
    strictly.

    Which entries a dictionary has in the input is a matter of the input
    alone: the grammar is unambiguous. -/

namespace Furrent.Bencode

open Cpp

/-- As the parser reads it, but with strictly increasing keys. -/
def strict : Dialect := { lenient with keyOrder := fun k k' => k < k' }

/-- A dictionary with these entries in the input is decoded to `m`. -/
structure Decodes (entries : List Entry) (m : List (Bytes × BencodeValue)) : Prop where
  keys : ∀ e ∈ entries, Derives lenient e.keyText (.string e.key)
  values : ∀ e ∈ entries, Derives lenient e.valueText e.value
  order : (entries.map Entry.key).Pairwise (· ≤ ·)
  sorted : OrderedMap.Sorted m
  first : ∀ k, OrderedMap.find k m = OrderedMap.find k (entries.map Entry.pair)

/-- In the text, at some depth, stands a dictionary with these entries that
    is decoded to `m`. -/
inductive DictIn (entries : List Entry) (m : List (Bytes × BencodeValue)) :
    Bytes → BencodeValue → Prop where
  | here (h : Decodes entries m) :
      DictIn entries m (charD :: (entries.flatMap Entry.text ++ [charE])) (.dict m)
  | item {items : List (Bytes × BencodeValue)} {p : Bytes × BencodeValue}
      (derives : ∀ p ∈ items, Derives lenient p.1 p.2) (hp : p ∈ items)
      (h : DictIn entries m p.1 p.2) :
      DictIn entries m (charL :: (items.flatMap Prod.fst ++ [charE])) (.list (items.map Prod.snd))
  | value {entries' : List Entry} {m' : List (Bytes × BencodeValue)} {e : Entry}
      (outer : Decodes entries' m') (he : e ∈ entries')
      (h : DictIn entries m e.valueText e.value) :
      DictIn entries m (charD :: (entries'.flatMap Entry.text ++ [charE])) (.dict m')

/-- The map has as many entries as the input, and each key its own value. -/
structure Lossless (entries : List Entry) (m : List (Bytes × BencodeValue)) : Prop where
  count : m.length = entries.length
  own : ∀ e ∈ entries, OrderedMap.find e.key m = some e.value

variable {entries entries' : List Entry} {m m' : List (Bytes × BencodeValue)} {s s' r r' : Bytes}
  {v v' : BencodeValue}

/-! ### One dictionary -/

theorem keys_of_pairs (entries : List Entry) :
    (entries.map Entry.pair).map Prod.fst = entries.map Entry.key := by
  rw [List.map_map]
  rfl

/-- The keys of the map are keys of the input. -/
theorem Decodes.subset (h : Decodes entries m) : m.map Prod.fst ⊆ entries.map Entry.key := by
  intro k hk
  obtain ⟨e, he, rfl⟩ := List.mem_map.mp hk
  have hfind := OrderedMap.find_of_mem h.sorted he
  by_contra hnot
  rw [h.first, OrderedMap.find_eq_none (by rwa [keys_of_pairs])] at hfind
  injection hfind

theorem Decodes.lossless_iff (h : Decodes entries m) :
    Lossless entries m ↔ (entries.map Entry.key).Pairwise (· < ·) := by
  constructor
  · intro hlossless
    -- The keys of the map differ, and there are as many of them as in the
    -- input: so the keys of the input differ as well.
    have hnodup : (m.map Prod.fst).Nodup := h.sorted.imp ne_of_lt
    have hsub := List.subperm_of_subset hnodup h.subset
    have hperm := hsub.perm_of_length_le (by simp [hlossless.count])
    have hkeys : (entries.map Entry.key).Nodup := hperm.nodup_iff.mp hnodup
    exact h.order.and hkeys |>.imp fun hab => lt_of_le_of_ne hab.1 hab.2
  · intro hkeys
    have hsorted : OrderedMap.Sorted (entries.map Entry.pair) := by
      rw [OrderedMap.Sorted, keys_of_pairs]
      exact hkeys
    have hm : m = entries.map Entry.pair := OrderedMap.ext_find h.sorted hsorted h.first
    refine ⟨by rw [hm, List.length_map], ?_⟩
    intro e he
    rw [h.first]
    exact OrderedMap.find_of_mem hsorted (List.mem_map_of_mem he)

/-! ### The grammar is unambiguous -/

/-- A text begins with one sentence at most. -/
theorem Derives.unique (hd : Derives lenient s v) (hd' : Derives lenient s' v')
    (heq : s ++ r = s' ++ r') (hr : r ≠ []) (hr' : r' ≠ [])
    (hsize : (s ++ r).length ≤ INT64_MAX) : s = s' ∧ v = v' := by
  -- The parser reads both, and it is a function.
  have hread := decodeValue_complete (t := ⟨s ++ r, fun _ => none⟩) hd hsize
    (Nat.le_add_right s.length s'.length) 0 r rfl (append_ne_zero_colon hd hr)
  have hread' := decodeValue_complete (t := ⟨s ++ r, fun _ => none⟩) hd' hsize
    (Nat.le_add_left s'.length s.length) 0 r' heq (append_ne_zero_colon hd' hr')
  rw [hread] at hread'
  injection hread' with hpair
  injection hpair with hv hlen
  exact ⟨(List.append_inj heq (by omega)).1, hv⟩

theorem Derives.ne_charE_append (hd : Derives lenient s v) : s ++ r ≠ charE :: r' := by
  obtain ⟨b, s', rfl, hb⟩ := hd.head_ne_charE lenient_standard
  intro h
  exact hb (List.cons.inj h).1

theorem items_unique {items items' : List (Bytes × BencodeValue)}
    (hitems : ∀ p ∈ items, Derives lenient p.1 p.2)
    (hitems' : ∀ p ∈ items', Derives lenient p.1 p.2)
    (heq : items.flatMap Prod.fst ++ charE :: r = items'.flatMap Prod.fst ++ charE :: r')
    (hsize : (items.flatMap Prod.fst ++ charE :: r).length ≤ INT64_MAX) : items = items' := by
  induction items generalizing items' with
  | nil =>
    cases items' with
    | nil => rfl
    | cons p' items' =>
      rw [List.flatMap_cons, List.append_assoc] at heq
      exact absurd heq.symm (hitems' p' (by simp)).ne_charE_append
  | cons p items ih =>
    have hd := hitems p (by simp)
    rw [List.flatMap_cons, List.append_assoc] at heq hsize
    cases items' with
    | nil => exact absurd heq hd.ne_charE_append
    | cons p' items' =>
      rw [List.flatMap_cons, List.append_assoc] at heq
      obtain ⟨htext, hvalue⟩ := hd.unique (hitems' p' (by simp)) heq (by simp) (by simp) hsize
      rw [← htext] at heq
      rw [List.length_append] at hsize
      have htail := ih (fun q hq => hitems q (by simp [hq])) (fun q hq => hitems' q (by simp [hq]))
        (List.append_cancel_left heq) (by omega)
      rw [htail, Prod.ext htext hvalue]

theorem entries_unique (hkeys : ∀ e ∈ entries, Derives lenient e.keyText (.string e.key))
    (hvalues : ∀ e ∈ entries, Derives lenient e.valueText e.value)
    (hkeys' : ∀ e ∈ entries', Derives lenient e.keyText (.string e.key))
    (hvalues' : ∀ e ∈ entries', Derives lenient e.valueText e.value)
    (heq : entries.flatMap Entry.text ++ charE :: r = entries'.flatMap Entry.text ++ charE :: r')
    (hsize : (entries.flatMap Entry.text ++ charE :: r).length ≤ INT64_MAX) :
    entries = entries' := by
  induction entries generalizing entries' with
  | nil =>
    cases entries' with
    | nil => rfl
    | cons e' entries' =>
      rw [List.flatMap_cons, Entry.text, List.append_assoc, List.append_assoc] at heq
      exact absurd heq.symm (hkeys' e' (by simp)).ne_charE_append
  | cons e entries ih =>
    have hdk := hkeys e (by simp)
    have hdv := hvalues e (by simp)
    rw [List.flatMap_cons, Entry.text, List.append_assoc, List.append_assoc] at heq hsize
    cases entries' with
    | nil => exact absurd heq hdk.ne_charE_append
    | cons e' entries' =>
      rw [List.flatMap_cons, Entry.text, List.append_assoc, List.append_assoc] at heq
      obtain ⟨hkeyText, hkey⟩ := hdk.unique (hkeys' e' (by simp)) heq (by simp) (by simp) hsize
      rw [← hkeyText] at heq
      rw [List.length_append] at hsize
      replace heq := List.append_cancel_left heq
      obtain ⟨hvalueText, hvalue⟩ :=
        hdv.unique (hvalues' e' (by simp)) heq (by simp) (by simp) (by omega)
      rw [← hvalueText] at heq
      rw [List.length_append] at hsize
      have htail := ih (fun f hf => hkeys f (by simp [hf])) (fun f hf => hvalues f (by simp [hf]))
        (fun f hf => hkeys' f (by simp [hf])) (fun f hf => hvalues' f (by simp [hf]))
        (List.append_cancel_left heq) (by omega)
      injection hkey with hkey
      obtain ⟨keyText, key, valueText, value⟩ := e
      obtain ⟨keyText', key', valueText', value'⟩ := e'
      simp only at hkeyText hkey hvalueText hvalue
      rw [htail, hkeyText, hkey, hvalueText, hvalue]

/-! ### All dictionaries of an input -/

theorem not_dictIn_string {b : Bytes} : ¬ DictIn entries m s (.string b) := by
  intro h
  cases h

/-- Every dictionary of the text comes through complete: then the text is in
    the stricter language. -/
theorem derives_strict (h : Derives lenient s v)
    (hall : ∀ entries m, DictIn entries m s v → Lossless entries m) : Derives strict s v := by
  induction h with
  | int numeral value => exact .int numeral value
  | string numeral value => exact .string numeral value
  | list derives ih =>
    refine .list ?_
    intro p hp
    exact ih p hp fun entries m hin => hall entries m (.item derives hp hin)
  | @dict outer m' keys values order sorted first ihk ihv =>
    have hdecodes : Decodes outer m' := ⟨keys, values, order, sorted, first⟩
    have hstrict := hdecodes.lossless_iff.mp (hall outer m' (.here hdecodes))
    refine .dict ?_ ?_ hstrict sorted first
    · intro e he
      exact ihk e he fun entries m hin => absurd hin not_dictIn_string
    · intro e he
      exact ihv e he fun entries m hin => hall entries m (.value hdecodes he hin)

theorem Derives.lenient_of_strict (h : Derives strict s v) : Derives lenient s v := by
  induction h with
  | int numeral value => exact .int numeral value
  | string numeral value => exact .string numeral value
  | list _ ih => exact .list ih
  | dict _ _ order sorted first ihk ihv =>
    exact .dict ihk ihv (order.imp fun h => le_of_lt h) sorted first

/-- Conversely, a text of the stricter language has no dictionary with equal
    keys. -/
theorem DictIn.strict_keys (hin : DictIn entries m s v) (h : Derives strict s v)
    (hsize : s.length ≤ INT64_MAX) : (entries.map Entry.key).Pairwise (· < ·) := by
  induction hin with
  | here hdecodes =>
    generalize hs : charD :: (entries.flatMap Entry.text ++ [charE]) = s at h
    generalize hv : BencodeValue.dict m = v at h
    cases h with
    | dict keys values order sorted first =>
      rw [List.length_cons] at hsize
      rw [entries_unique hdecodes.keys hdecodes.values
        (fun e he => (keys e he).lenient_of_strict) (fun e he => (values e he).lenient_of_strict)
        (List.cons.inj hs).2 (by omega)]
      exact order
    | _ => injection hv
  | @item items p hitems hp _ ih =>
    generalize hs : charL :: (items.flatMap Prod.fst ++ [charE]) = s at h
    generalize hv : BencodeValue.list (items.map Prod.snd) = v at h
    cases h with
    | list derives =>
      rw [List.length_cons] at hsize
      have heq := items_unique hitems (fun q hq => (derives q hq).lenient_of_strict)
        (List.cons.inj hs).2 (by omega)
      rw [← heq] at derives
      have hlen := (length_items hitems).2 p hp
      rw [List.length_append] at hsize
      exact ih (derives p hp) (by omega)
    | _ => injection hv
  | @value outer m' e hdecodes he _ ih =>
    generalize hs : charD :: (outer.flatMap Entry.text ++ [charE]) = s at h
    generalize hv : BencodeValue.dict m' = v at h
    cases h with
    | dict keys values order sorted first =>
      rw [List.length_cons] at hsize
      have heq := entries_unique hdecodes.keys hdecodes.values
        (fun e he => (keys e he).lenient_of_strict) (fun e he => (values e he).lenient_of_strict)
        (List.cons.inj hs).2 (by omega)
      rw [← heq] at values
      have hlen := (length_entries hdecodes.keys).2 e he
      rw [Entry.text, List.length_append] at hlen
      rw [List.length_append] at hsize
      exact ih (values e he) (by omega)
    | _ => injection hv

theorem DictIn.decodes (hin : DictIn entries m s v) : Decodes entries m := by
  induction hin with
  | here h => exact h
  | item _ _ _ ih => exact ih
  | value _ _ _ ih => exact ih

/-- For every accepted input: each dictionary in it comes through complete
    just when its keys increase strictly, so all of them do just when the
    input is in the stricter language. -/
theorem decode_lossless_iff {beyond : Nat → Option UInt8} (h : decode beyond s = .ok v) :
    (∀ entries m, DictIn entries m s v →
      (Lossless entries m ↔ (entries.map Entry.key).Pairwise (· < ·))) ∧
    ((∀ entries m, DictIn entries m s v → Lossless entries m) ↔ Derives strict s v) := by
  have hsize : s.length ≤ INT64_MAX := by
    by_contra hlt
    rw [decode, if_pos (by omega)] at h
    injection h
  refine ⟨fun entries m hin => hin.decodes.lossless_iff, ?_⟩
  constructor
  · intro hall
    exact derives_strict (decode_sound h) hall
  · intro hstrict entries m hin
    exact hin.decodes.lossless_iff.mpr (hin.strict_keys hstrict hsize)

/-- `1:a` with the value `i1e`. -/
def entryA1 : Entry := ⟨[49, 58, 97], [97], [105, 49, 101], .int 1⟩

/-- `1:a` with the value `i2e`. -/
def entryA2 : Entry := ⟨[49, 58, 97], [97], [105, 50, 101], .int 2⟩

theorem decodes_entryA2 : Decodes [entryA1, entryA2] [([97], .int 1)] where
  keys := by
    intro e he
    rcases List.mem_pair.mp he with rfl | rfl <;>
      exact .string (t := [49]) (b := [97]) ⟨by decide, by simp [Numeral.isDigit]⟩ rfl
  values := by
    intro e he
    rcases List.mem_pair.mp he with rfl | rfl
    · exact .int (t := [49]) ⟨by decide, by decide⟩ (by decide)
    · exact .int (t := [50]) ⟨by decide, by decide⟩ (by decide)
  order := by decide
  sorted := List.pairwise_singleton _ _
  first := by
    intro k
    by_cases hk : k = [97] <;> simp [OrderedMap.find, entryA1, entryA2, Entry.pair, hk]

/-- `1:b` with the value `d1:ai1e1:ai2ee`. -/
def entryB : Entry :=
  ⟨[49, 58, 98], [98], [100, 49, 58, 97, 105, 49, 101, 49, 58, 97, 105, 50, 101, 101],
    .dict [([97], .int 1)]⟩

theorem decodes_entryB :
    Decodes [entryA1, entryB] [([97], .int 1), ([98], .dict [([97], .int 1)])] where
  keys := by
    intro e he
    rcases List.mem_pair.mp he with rfl | rfl
    · exact decodes_entryA2.keys entryA1 List.mem_cons_self
    · exact .string (t := [49]) (b := [98]) ⟨by decide, by simp [Numeral.isDigit]⟩ rfl
  values := by
    intro e he
    rcases List.mem_pair.mp he with rfl | rfl
    · exact decodes_entryA2.values entryA1 List.mem_cons_self
    · exact .dict decodes_entryA2.keys decodes_entryA2.values decodes_entryA2.order
        decodes_entryA2.sorted decodes_entryA2.first
  order := by decide
  sorted := List.pairwise_pair.mpr (by decide)
  first := fun _ => rfl

/-- `d1:ai1e1:bd1:ai1e1:ai2eee`: the outer dictionary comes through, the one
    inside does not, so the input is not in the stricter language. -/
theorem decode_lossless_nested :
    decode (fun _ => none) [100, 49, 58, 97, 105, 49, 101, 49, 58, 98, 100, 49, 58, 97, 105, 49,
        101, 49, 58, 97, 105, 50, 101, 101, 101]
        = .ok (.dict [([97], .int 1), ([98], .dict [([97], .int 1)])]) ∧
      Lossless [entryA1, entryB] [([97], .int 1), ([98], .dict [([97], .int 1)])] ∧
      ¬ Lossless [entryA1, entryA2] [([97], .int 1)] ∧
      ¬ Derives strict [100, 49, 58, 97, 105, 49, 101, 49, 58, 98, 100, 49, 58, 97, 105, 49, 101,
        49, 58, 97, 105, 50, 101, 101, 101] (.dict [([97], .int 1), ([98], .dict [([97], .int 1)])])
      := by
  have hdecode : decode (fun _ => none) [100, 49, 58, 97, 105, 49, 101, 49, 58, 98, 100, 49, 58, 97,
      105, 49, 101, 49, 58, 97, 105, 50, 101, 101, 101]
      = .ok (.dict [([97], .int 1), ([98], .dict [([97], .int 1)])]) := rfl
  obtain ⟨heach, hall⟩ := decode_lossless_iff hdecode
  have hinner : DictIn [entryA1, entryA2] [([97], .int 1)] _ _ :=
    .value decodes_entryB (List.mem_cons_of_mem _ List.mem_cons_self) (.here decodes_entryA2)
  have hlossy : ¬ Lossless [entryA1, entryA2] [([97], .int 1)] := by
    rw [heach _ _ hinner]
    decide
  refine ⟨hdecode, (heach _ _ (.here decodes_entryB)).mpr (by decide), hlossy, ?_⟩
  intro hstrict
  exact hlossy (hall.mpr hstrict _ _ hinner)

/-- `d1:ai1e1:ai2ee` is accepted, and the second entry is gone. -/
theorem decode_drops_second_value :
    decode (fun _ => none) [100, 49, 58, 97, 105, 49, 101, 49, 58, 97, 105, 50, 101, 101]
        = .ok (.dict [([97], .int 1)]) ∧
      DictIn [entryA1, entryA2] [([97], .int 1)]
        [100, 49, 58, 97, 105, 49, 101, 49, 58, 97, 105, 50, 101, 101] (.dict [([97], .int 1)]) ∧
      OrderedMap.find entryA2.key [([97], .int 1)] ≠ some entryA2.value ∧
      ¬ Lossless [entryA1, entryA2] [([97], .int 1)] := by
  refine ⟨rfl, .here decodes_entryA2, ?_, ?_⟩
  · intro h
    injection h with h
    injection h with h
    exact absurd h (by decide)
  · intro h
    exact absurd h.count (by decide)

end Furrent.Bencode
