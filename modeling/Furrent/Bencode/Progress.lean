import Furrent.Bencode.Completeness

/-! # The parser moves on

    The loops of `decode_list` and `decode_dict` have no counter of their
    own. They end because every call that returns `OK` has moved the index
    on, and neither the rounds nor the nesting can use up more bytes than
    there are. A call may leave the index one past the end of the text,
    when the digits of a length run into the end.

    The model puts a bound on the rounds and on the nesting. What follows
    is that a bound of `t.size` is as good as none: a larger one gives the
    same result. -/

namespace Furrent.Bencode

open Cpp

variable {t : Tokens} {i : Nat} {dec dec' : Nat → Parse (BencodeValue × Nat)}

/-- A call that started at index `i` comes to an end, and if it returns `OK`
    the index has moved on and is at most one past the end of the text. -/
structure Progresses (t : Tokens) (i : Nat) (result : Parse (BencodeValue × Nat)) : Prop where
  ends : result ≠ .error .outOfFuel
  moves : ∀ v j, result = .ok (v, j) → i < j ∧ j ≤ t.size + 1

/-! ### The index -/

theorem SoundDecoder.moves (hdec : SoundDecoder t dec) {v : BencodeValue} {j : Nat}
    (h : dec i = .ok (v, j)) : i < j ∧ j ≤ t.size + 1 := by
  refine ⟨hdec.progress h, ?_⟩
  rcases hdec.sound i v j h with hconsumed | hj
  · have := hconsumed.le_size
    omega
  · omega

theorem decodeInt_moves {v : BencodeValue} {j : Nat} (h : decodeInt t i = .ok (v, j)) :
    i < j ∧ j ≤ t.size + 1 := by
  obtain ⟨n, -, -, -, -, hj, hle⟩ := Unguarded.decodeInt_cases (Unguarded.decodeInt_iff.mpr h)
  omega

theorem decodeInt_progresses (t : Tokens) (i : Nat) : Progresses t i (decodeInt t i) :=
  ⟨decodeInt_ne_outOfFuel t i, fun _ _ h => decodeInt_moves h⟩

theorem decodeString_progresses (hi : i < t.size) : Progresses t i (decodeString t i) := by
  refine ⟨decodeString_ne_outOfFuel t i, ?_⟩
  intro v j h
  rcases decodeString_sound h with hconsumed | hj
  · have := hconsumed.le_size
    omega
  · omega

theorem le_of_decodeListLoop (hdec : SoundDecoder t dec) {n j : Nat} {ptr vs : List BencodeValue}
    (h : decodeListLoop t dec n i ptr = .ok (vs, j)) : i ≤ j := by
  induction n generalizing i ptr with
  | zero => cases h
  | succ n ih =>
    rw [decodeListLoop] at h
    split at h
    · obtain ⟨⟨v, k⟩, hk, h⟩ := bind_eq_ok.mp h
      exact (hdec.progress hk).le.trans (ih h)
    · cases h
      exact le_rfl

theorem le_of_decodeDictLoop (hdec : SoundDecoder t dec) {n j : Nat} {keys ks : List Bytes}
    {ptr m : List (Bytes × BencodeValue)}
    (h : decodeDictLoop t dec n i keys ptr = .ok (ks, m, j)) : i ≤ j := by
  induction n generalizing i keys ptr with
  | zero => cases h
  | succ n ih =>
    rw [decodeDictLoop] at h
    split at h
    · obtain ⟨⟨key, k⟩, hk, h⟩ := bind_eq_ok.mp h
      simp only at h
      split at h
      · obtain ⟨⟨v, l⟩, hl, h⟩ := bind_eq_ok.mp h
        exact (hdec.progress hk).le.trans ((hdec.progress hl).le.trans (ih h))
      · cases h
    · cases h
      exact le_rfl

theorem decodeList_moves (hdec : SoundDecoder t dec) {v : BencodeValue} {j : Nat}
    (h : decodeList t dec i = .ok (v, j)) : i < j ∧ j ≤ t.size + 1 := by
  obtain ⟨vs, k, hloop, _, hk, _, _, hj⟩ := decodeList_cases h
  have hle := le_of_decodeListLoop hdec hloop
  omega

theorem decodeDict_moves (hdec : SoundDecoder t dec) {v : BencodeValue} {j : Nat}
    (h : decodeDict t dec i = .ok (v, j)) : i < j ∧ j ≤ t.size + 1 := by
  obtain ⟨keys, m, k, hloop, _, hk, _, _, _, hj⟩ := decodeDict_cases h
  have hle := le_of_decodeDictLoop hdec hloop
  omega

/-! ### The bounds

    Two bounds that are both large enough make no difference. -/

theorem decodeListLoop_congr (hdec : SoundDecoder t dec) (heq : ∀ k, i ≤ k → dec k = dec' k)
    {n n' : Nat} (hn : t.size < n + i) (hn' : t.size < n' + i) (hpos : 0 < n) (hpos' : 0 < n')
    (ptr : List BencodeValue) :
    decodeListLoop t dec n i ptr = decodeListLoop t dec' n' i ptr := by
  induction n generalizing i n' ptr with
  | zero => omega
  | succ n ih =>
    obtain ⟨n', rfl⟩ : ∃ m, n' = m + 1 := ⟨n' - 1, by omega⟩
    rw [decodeListLoop, decodeListLoop, ← heq i le_rfl]
    split
    · next hmore =>
      have hlt := Tokens.lt_size_of_more hmore
      cases hv : dec i with
      | error e => rfl
      | ok r =>
        have hik := hdec.progress hv
        exact ih (fun k hk => heq k (by omega)) (by omega) (by omega) (by omega) (by omega) _
    · rfl

theorem decodeDictLoop_congr (hdec : SoundDecoder t dec) (heq : ∀ k, i ≤ k → dec k = dec' k)
    {n n' : Nat} (hn : t.size < n + i) (hn' : t.size < n' + i) (hpos : 0 < n) (hpos' : 0 < n')
    (keys : List Bytes) (ptr : List (Bytes × BencodeValue)) :
    decodeDictLoop t dec n i keys ptr = decodeDictLoop t dec' n' i keys ptr := by
  induction n generalizing i n' keys ptr with
  | zero => omega
  | succ n ih =>
    obtain ⟨n', rfl⟩ : ∃ m, n' = m + 1 := ⟨n' - 1, by omega⟩
    rw [decodeDictLoop, decodeDictLoop, ← heq i le_rfl]
    split
    · next hmore =>
      have hlt := Tokens.lt_size_of_more hmore
      cases hkey : dec i with
      | error e => rfl
      | ok r =>
        obtain ⟨key, k⟩ := r
        have hik := hdec.progress hkey
        rw [ok_bind, ok_bind]
        cases key with
        | string keyStr =>
          simp only
          rw [← heq k (by omega)]
          cases hv : dec k with
          | error e => rfl
          | ok r =>
            have hkl := hdec.progress hv
            exact ih (fun k hk => heq k (by omega)) (by omega) (by omega) (by omega) (by omega) _ _
        | int _ => rfl
        | list _ => rfl
        | dict _ => rfl
    · rfl

/-- Behind its guard `decode_list` calls the decoder behind the index. -/
theorem decodeList_congr (hdec : SoundDecoder t dec)
    (heq : i + 2 ≤ t.size → ∀ k, i + 1 ≤ k → dec k = dec' k) :
    decodeList t dec i = decodeList t dec' i := by
  rw [decodeList, decodeList]
  split
  · rfl
  · have hloop : decodeListLoop t dec (t.size + 1) (i + 1) []
        = decodeListLoop t dec' (t.size + 1) (i + 1) [] :=
      decodeListLoop_congr hdec (heq (by omega)) (by omega) (by omega) (by omega) (by omega) []
    rw [hloop]

theorem decodeDict_congr (hdec : SoundDecoder t dec)
    (heq : i + 2 ≤ t.size → ∀ k, i + 1 ≤ k → dec k = dec' k) :
    decodeDict t dec i = decodeDict t dec' i := by
  rw [decodeDict, decodeDict]
  split
  · rfl
  · have hloop : decodeDictLoop t dec (t.size + 1) (i + 1) [] []
        = decodeDictLoop t dec' (t.size + 1) (i + 1) [] [] :=
      decodeDictLoop_congr hdec (heq (by omega)) (by omega) (by omega) (by omega) (by omega) [] []
    rw [hloop]

/-- One level of nesting for each byte that is left is enough. -/
theorem decodeValue_congr {d d' : Nat} (hd : t.size ≤ d + i) (hd' : t.size ≤ d' + i)
    (hpos : 0 < d) (hpos' : 0 < d') : decodeValue t d i = decodeValue t d' i := by
  induction d generalizing i d' with
  | zero => omega
  | succ d ih =>
    obtain ⟨d', rfl⟩ : ∃ m, d' = m + 1 := ⟨d' - 1, by omega⟩
    have hdec := decodeValue_sound (t := t) d
    -- One level down the index is further on by one at least.
    have heq : i + 2 ≤ t.size → ∀ k, i + 1 ≤ k → decodeValue t d k = decodeValue t d' k :=
      fun _ k hk => ih (by omega) (by omega) (by omega) (by omega)
    rw [decodeValue, decodeValue, decodeList_congr hdec heq, decodeDict_congr hdec heq]

theorem decodeValue_size_ne_outOfFuel (hpos : 0 < t.size) (i : Nat) :
    decodeValue t t.size i ≠ .error .outOfFuel := by
  have hmore : decodeValue t t.size i = decodeValue t (t.size + 1) i :=
    decodeValue_congr (by omega) (by omega) hpos (by omega)
  rw [hmore]
  exact decodeValue_ne_outOfFuel (by omega) (by omega)

/-! ### Calls -/

/-- From every index in the text, each of the functions comes to an end and
    makes progress, with at most `t.size` levels of nesting. The loops go
    through at most `t.size` rounds: they ask for a further one at most
    `t.size + 1` times. -/
theorem parser_progresses (t : Tokens) (i : Nat) (hi : i < t.size) :
    Progresses t i (decodeValue t t.size i) ∧
    Progresses t i (decodeInt t i) ∧
    Progresses t i (decodeString t i) ∧
    Progresses t i (decodeList t (decodeValue t t.size) i) ∧
    Progresses t i (decodeDict t (decodeValue t t.size) i) ∧
    (∀ depth, t.size ≤ depth → decodeValue t depth i = decodeValue t t.size i) ∧
    (∀ rounds, t.size < rounds →
      decodeListLoop t (decodeValue t t.size) rounds (i + 1) []
          = decodeListLoop t (decodeValue t t.size) (t.size + 1) (i + 1) [] ∧
        decodeListLoop t (decodeValue t t.size) rounds (i + 1) [] ≠ .error .outOfFuel) ∧
    (∀ rounds, t.size < rounds →
      decodeDictLoop t (decodeValue t t.size) rounds (i + 1) [] []
          = decodeDictLoop t (decodeValue t t.size) (t.size + 1) (i + 1) [] [] ∧
        decodeDictLoop t (decodeValue t t.size) rounds (i + 1) [] [] ≠ .error .outOfFuel) := by
  have hpos : 0 < t.size := by omega
  have hdec := decodeValue_sound (t := t) t.size
  have hends : ∀ k, decodeValue t t.size k ≠ .error .outOfFuel := decodeValue_size_ne_outOfFuel hpos
  refine ⟨⟨hends i, fun v j h => hdec.moves h⟩, decodeInt_progresses t i,
    decodeString_progresses hi, ?_, ?_, ?_, ?_, ?_⟩
  · exact ⟨decodeList_ne_outOfFuel hdec fun _ k _ => hends k, fun v j h => decodeList_moves hdec h⟩
  · exact ⟨decodeDict_ne_outOfFuel hdec fun _ k _ => hends k, fun v j h => decodeDict_moves hdec h⟩
  · intro depth hdepth
    exact decodeValue_congr (by omega) (by omega) (by omega) hpos
  · intro rounds hrounds
    refine ⟨?_, decodeListLoop_ne_outOfFuel hdec (fun k _ => hends k) (by omega) (by omega) []⟩
    exact decodeListLoop_congr hdec (fun _ _ => rfl) (by omega) (by omega) (by omega) (by omega) []
  · intro rounds hrounds
    refine ⟨?_, decodeDictLoop_ne_outOfFuel hdec (fun k _ => hends k) (by omega) (by omega) [] []⟩
    exact decodeDictLoop_congr hdec (fun _ _ => rfl) (by omega) (by omega) (by omega) (by omega)
      [] []

/-- The digits of a key run into the end of `d000`: the index is left at 5. -/
theorem parser_progresses_overrun :
    decodeValue ⟨[100, 48, 48, 48], fun _ => none⟩ 4 1 = .ok (.string [], 5) ∧
      Progresses ⟨[100, 48, 48, 48], fun _ => none⟩ 1
        (decodeValue ⟨[100, 48, 48, 48], fun _ => none⟩ 4 1) :=
  ⟨rfl, (parser_progresses ⟨[100, 48, 48, 48], fun _ => none⟩ 1 (by decide)).1⟩

end Furrent.Bencode
