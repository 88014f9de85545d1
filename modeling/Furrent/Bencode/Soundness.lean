import Furrent.Bencode.Grammar
import Furrent.Bencode.Guards

/-! # What the parser accepts is in the grammar

    Each function of the parser is shown to return `OK` only after reading a
    sentence of the `lenient` grammar for the value it returns, with one
    exception: a run of digits that reaches the end of the input without a
    colon can pass for the empty string and leaves the index one past the
    end. No enclosing list, dictionary or top-level call lets this through,
    whatever an access past the end of the input yields. The length guards
    have no part in this. -/

namespace Furrent.Bencode

open Cpp

variable {t : Tokens} {i j : Nat} {v : BencodeValue}

/-- The text between `i` and `j` is a sentence for `v`. -/
def Consumed (t : Tokens) (i j : Nat) (v : BencodeValue) : Prop :=
  ∃ s r, t.rest i = s ++ r ∧ j = i + s.length ∧ Derives lenient s v

theorem Consumed.rest (h : Consumed t i j v) :
    ∃ s, t.rest i = s ++ t.rest j ∧ j = i + s.length ∧ Derives lenient s v := by
  obtain ⟨s, r, hrest, rfl, hd⟩ := h
  exact ⟨s, by rw [Tokens.rest_of_append hrest, hrest], rfl, hd⟩

theorem Consumed.le_size (h : Consumed t i j v) : i < j ∧ j ≤ t.size := by
  obtain ⟨s, r, hrest, rfl, hd⟩ := h
  have h2 := hd.two_le_length lenient_standard
  have hlen := congrArg List.length hrest
  rw [Tokens.length_rest, List.length_append] at hlen
  omega

/-! ### Integers and strings -/

theorem Unguarded.decodeInt_sound (hi : t.read i = .ok charI)
    (h : Unguarded.decodeInt t i = .ok (v, j)) : Consumed t i j v := by
  obtain ⟨n, rfl, hsigned, hzero, hval, rfl, hle⟩ := Unguarded.decodeInt_cases h
  obtain ⟨r, hr⟩ := Tokens.rest_of_read (by omega) hi
  have hscan := t.rest_scan charE (i + 1)
  -- The scan stopped inside the text, so it stopped at an `e`.
  obtain ⟨b, r', hr'⟩ := Tokens.rest_of_lt
    (show i + 1 + (t.scan charE (i + 1)).length < t.size by omega)
  have hb : b = charE := Tokens.rest_after_scan hr'
  subst hb
  refine ⟨charI :: (t.scan charE (i + 1) ++ [charE]), r', ?_, ?_, .int ⟨hsigned, hzero⟩ hval⟩
  · rw [hr, ← Tokens.rest_succ hr, hscan, hr']
    simp
  · rw [List.length_cons, List.length_append, List.length_singleton]
    omega

theorem decodeInt_sound (hi : t.read i = .ok charI) (h : decodeInt t i = .ok (v, j)) :
    Consumed t i j v :=
  Unguarded.decodeInt_sound hi (Unguarded.decodeInt_iff.mpr h)

/-- A string is read as such, or the digits of its length ran into the end
    of the input. -/
theorem Unguarded.decodeString_sound (h : Unguarded.decodeString t i = .ok (v, j)) :
    Consumed t i j v ∨ j = t.size + 1 := by
  obtain ⟨s, r, rfl, hnum, hval, hrest, rfl⟩ := Unguarded.decodeString_cases h
  have hscan := t.rest_scan charColon i
  cases hafter : t.rest (i + (t.scan charColon i).length) with
  | nil =>
    -- No colon: the index is past the end, so nothing was collected.
    right
    have hend := congrArg List.length hafter
    have hlength := congrArg List.length hrest
    have hscan := length_scan t charColon i
    have hpos := List.length_pos_of_ne_nil hnum.1
    rw [Tokens.length_rest, List.length_nil] at hend
    rw [Tokens.length_rest, List.length_append] at hlength
    omega
  | cons b r' =>
    left
    have hb : b = charColon := Tokens.rest_after_scan hafter
    subst hb
    rw [Tokens.rest_succ hafter] at hrest
    refine ⟨t.scan charColon i ++ charColon :: s, r, ?_, ?_, .string hnum hval⟩
    · rw [hscan, hafter, hrest]
      simp
    · rw [List.length_append, List.length_cons]
      omega

theorem decodeString_sound (h : decodeString t i = .ok (v, j)) :
    Consumed t i j v ∨ j = t.size + 1 :=
  Unguarded.decodeString_sound (guard_eq_ok.mp h).2

/-! ### Past the end of the input -/

/-- Run past the end, the parser reports an error whatever it reads there. -/
theorem Unguarded.decodeValue_past_end {depth : Nat} (hge : t.size ≤ i) :
    Unguarded.decodeValue t depth i ≠ .ok (v, j) := by
  intro h
  cases depth with
  | zero => cases h
  | succ depth =>
    rw [Unguarded.decodeValue_succ] at h
    rcases dispatch_eq_ok h with ⟨_, h⟩ | h | ⟨_, h⟩ | ⟨_, h⟩
    · have := Unguarded.three_le_of_decodeInt h
      omega
    · have := Unguarded.lt_size_of_decodeString h
      omega
    · obtain ⟨_, _, _, _, _⟩ := decodeList_cases h
      omega
    · obtain ⟨_, _, _, _, _, _⟩ := decodeDict_cases h
      omega

/-! ### Lists

    The loops are analysed for any decoder of the elements that is sound and
    reports an error past the end. -/

/-- What the loops need to know about the decoder of the elements. -/
structure SoundDecoder (t : Tokens) (dec : Nat → Parse (BencodeValue × Nat)) : Prop where
  sound : ∀ i v j, dec i = .ok (v, j) → Consumed t i j v ∨ j = t.size + 1
  past_end : ∀ i v j, t.size ≤ i → dec i ≠ .ok (v, j)

theorem decodeListLoop_sound {dec : Nat → Parse (BencodeValue × Nat)}
    (hdec : SoundDecoder t dec) {n : Nat} {ptr vs : List BencodeValue}
    (h : decodeListLoop t dec n i ptr = .ok (vs, j)) (hj : j < t.size) :
    ∃ items : List (Bytes × BencodeValue), ∃ r, t.rest i = items.flatMap Prod.fst ++ r ∧
      j = i + (items.flatMap Prod.fst).length ∧ vs = ptr ++ items.map Prod.snd ∧
      ∀ p ∈ items, Derives lenient p.1 p.2 := by
  induction n generalizing i ptr with
  | zero => cases h
  | succ n ih =>
    unfold decodeListLoop at h
    split at h
    · obtain ⟨⟨w, k⟩, hw, h⟩ := bind_eq_ok.mp h
      rcases hdec.sound i w k hw with hread | hk
      · obtain ⟨s, hrest, hk, hd⟩ := hread.rest
        obtain ⟨items, r', hrest', hj', hvs, hitems⟩ := ih h
        refine ⟨(s, w) :: items, r', ?_, ?_, ?_, List.forall_mem_cons.mpr ⟨hd, hitems⟩⟩
        · rw [hrest, hrest', List.flatMap_cons, List.append_assoc]
        · show j = i + (s ++ items.flatMap Prod.fst).length
          rw [List.length_append]
          omega
        · rw [hvs]
          simp
      · -- The element overran the input, and the loop ends there.
        exfalso
        cases n with
        | zero => cases h
        | succ n =>
          simp only [decodeListLoop, Tokens.more_of_ge (show t.size ≤ k by omega)] at h
          cases h
          omega
    · cases h
      exact ⟨[], t.rest j, by simp, by simp, by simp, by simp⟩

theorem decodeList_sound {dec : Nat → Parse (BencodeValue × Nat)} (hdec : SoundDecoder t dec)
    (hi : t.read i = .ok charL) (h : decodeList t dec i = .ok (v, j)) : Consumed t i j v := by
  -- The check behind the loop asks for an index inside the input, which rules
  -- out an overrun.
  obtain ⟨vs, k, hloop, hlong, hk, htok, rfl, rfl⟩ := decodeList_cases h
  obtain ⟨items, r', hrest, hk', rfl, hitems⟩ := decodeListLoop_sound hdec hloop hk
  obtain ⟨r, hr⟩ := Tokens.rest_of_read (by omega) hi
  obtain ⟨r'', hr''⟩ := Tokens.rest_of_read hk htok
  rw [hk', Tokens.rest_of_append hrest] at hr''
  refine ⟨_, r'', ?_, ?_, .list hitems⟩
  · rw [hr, ← Tokens.rest_succ hr, hrest, hr'']
    simp
  · rw [List.length_cons, List.length_append, List.length_singleton]
    omega

/-! ### Dictionaries -/

theorem decodeDictLoop_sound {dec : Nat → Parse (BencodeValue × Nat)}
    (hdec : SoundDecoder t dec) {n : Nat} {keys ks : List Bytes}
    {ptr m : List (Bytes × BencodeValue)}
    (h : decodeDictLoop t dec n i keys ptr = .ok (ks, m, j)) (hj : j < t.size) :
    ∃ entries : List Entry, ∃ r, t.rest i = entries.flatMap Entry.text ++ r ∧
      j = i + (entries.flatMap Entry.text).length ∧ ks = keys ++ entries.map Entry.key ∧
      m = OrderedMap.insertAll ptr (entries.map Entry.pair) ∧
      (∀ e ∈ entries, Derives lenient e.keyText (.string e.key)) ∧
      ∀ e ∈ entries, Derives lenient e.valueText e.value := by
  induction n generalizing i keys ptr with
  | zero => cases h
  | succ n ih =>
    unfold decodeDictLoop at h
    split at h
    · obtain ⟨⟨key, k⟩, hkey, h⟩ := bind_eq_ok.mp h
      simp only at h
      split at h
      · next keyStr =>
        obtain ⟨⟨w, l⟩, hw, h⟩ := bind_eq_ok.mp h
        -- An overrun in the key stops the value, one in the value the loop.
        rcases hdec.sound i _ k hkey with hread | hk
        · rcases hdec.sound k w l hw with hread' | hl
          · obtain ⟨s, hrest, hk, hd⟩ := hread.rest
            obtain ⟨s', hrest', hl, hd'⟩ := hread'.rest
            obtain ⟨entries, r'', hrest'', hj', hks, hm, hke, hve⟩ := ih h
            refine ⟨⟨s, keyStr, s', w⟩ :: entries, r'', ?_, ?_, ?_, ?_,
              List.forall_mem_cons.mpr ⟨hd, hke⟩, List.forall_mem_cons.mpr ⟨hd', hve⟩⟩
            · rw [hrest, hrest', hrest'']
              simp [Entry.text]
            · show j = i + ((s ++ s') ++ entries.flatMap Entry.text).length
              rw [List.length_append, List.length_append]
              omega
            · rw [hks]
              simp
            · rw [hm]
              rfl
          · exfalso
            cases n with
            | zero => cases h
            | succ n =>
              simp only [decodeDictLoop, Tokens.more_of_ge (show t.size ≤ l by omega)] at h
              cases h
              omega
        · exact absurd hw (hdec.past_end k w l (by omega))
      · cases h
    · cases h
      exact ⟨[], t.rest j, by simp, by simp, by simp, by simp, by simp, by simp⟩

/-- The check of neighbouring keys makes all keys non-decreasing. -/
theorem keysOrdered_iff (keys : List Bytes) :
    keysOrdered keys = true ↔ keys.Pairwise (· ≤ ·) := by
  induction keys with
  | nil => simp [keysOrdered]
  | cons a keys ih =>
    cases keys with
    | nil => simp [keysOrdered]
    | cons b keys =>
      rw [keysOrdered, Bool.and_eq_true, ih, List.pairwise_cons (a := a)]
      simp only [not_lt, decide_eq_true_eq]
      constructor
      · rintro ⟨hab, hp⟩
        refine ⟨?_, hp⟩
        intro c hc
        rcases List.mem_cons.mp hc with rfl | hc
        · exact hab
        · exact le_trans hab ((List.pairwise_cons.mp hp).1 c hc)
      · rintro ⟨hall, hp⟩
        exact ⟨hall b (by simp), hp⟩

theorem decodeDict_sound {dec : Nat → Parse (BencodeValue × Nat)} (hdec : SoundDecoder t dec)
    (hi : t.read i = .ok charD) (h : decodeDict t dec i = .ok (v, j)) : Consumed t i j v := by
  obtain ⟨keys, m, k, hloop, hlong, hk, htok, hord, rfl, rfl⟩ := decodeDict_cases h
  obtain ⟨entries, r', hrest, hk', rfl, rfl, hke, hve⟩ := decodeDictLoop_sound hdec hloop hk
  obtain ⟨r, hr⟩ := Tokens.rest_of_read (by omega) hi
  obtain ⟨r'', hr''⟩ := Tokens.rest_of_read hk htok
  rw [hk', Tokens.rest_of_append hrest] at hr''
  have hord := (keysOrdered_iff _).mp hord
  refine ⟨_, r'', ?_, ?_, .dict hke hve hord
    (OrderedMap.sorted_insertAll OrderedMap.sorted_nil) ?_⟩
  · rw [hr, ← Tokens.rest_succ hr, hrest, hr'']
    simp
  · rw [List.length_cons, List.length_append, List.length_singleton]
    omega
  · intro key
    rw [OrderedMap.find_insertAll OrderedMap.sorted_nil]
    simp [OrderedMap.find]

/-! ### Values -/

theorem Unguarded.decodeValue_sound (depth : Nat) :
    SoundDecoder t (Unguarded.decodeValue t depth) := by
  induction depth with
  | zero =>
    refine ⟨?_, fun _ _ _ => Unguarded.decodeValue_past_end⟩
    intro i v j h
    cases h
  | succ depth ih =>
    refine ⟨?_, fun _ _ _ => Unguarded.decodeValue_past_end⟩
    intro i v j h
    rw [Unguarded.decodeValue_succ] at h
    rcases dispatch_eq_ok h with ⟨htok, h⟩ | h | ⟨htok, h⟩ | ⟨htok, h⟩
    · exact Or.inl (Unguarded.decodeInt_sound htok h)
    · exact Unguarded.decodeString_sound h
    · exact Or.inl (decodeList_sound ih htok h)
    · exact Or.inl (decodeDict_sound ih htok h)

theorem decodeValue_sound (depth : Nat) : SoundDecoder t (decodeValue t depth) where
  sound i v j h :=
    (Unguarded.decodeValue_sound depth).sound i v j (Unguarded.decodeValue_of_guarded h)
  past_end i v j hge h :=
    (Unguarded.decodeValue_sound depth).past_end i v j hge (Unguarded.decodeValue_of_guarded h)

/-- A decoder that got through the whole input has read a sentence. -/
theorem SoundDecoder.derives {beyond : Nat → Option UInt8} {s : Bytes}
    {dec : Nat → Parse (BencodeValue × Nat)} (hdec : SoundDecoder ⟨s, beyond⟩ dec)
    (h : dec 0 = .ok (v, s.length)) : Derives lenient s v := by
  rcases hdec.sound 0 v s.length h with hread | hover
  · obtain ⟨s', hrest, _, hd⟩ := hread.rest
    -- Nothing is left behind the sentence.
    have hs : s = s' ++ s.drop s.length := hrest
    rw [List.drop_length, List.append_nil] at hs
    rw [hs]
    exact hd
  · have hover' : s.length = s.length + 1 := hover
    omega

/-- The public parser returns only what the grammar derives. -/
theorem decode_sound {beyond : Nat → Option UInt8} {s : Bytes} (h : decode beyond s = .ok v) :
    Derives lenient s v := by
  obtain ⟨_, h⟩ := guard_eq_ok.mp h
  obtain ⟨⟨w, k⟩, hw, h⟩ := bind_eq_ok.mp h
  obtain ⟨hk, h⟩ := guard_eq_ok.mp h
  cases h
  rw [not_not.mp hk] at hw
  exact (decodeValue_sound _).derives hw

end Furrent.Bencode
