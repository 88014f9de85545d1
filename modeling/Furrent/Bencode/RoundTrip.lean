import Furrent.Bencode.Completeness

/-! # Round trips between values and byte strings

    The three relations between `encode` and `decode`:

    * what the encoder writes is read back, whatever stands behind it;
    * the parser accepts the `lenient` grammar and nothing else;
    * re-encoding a decoded value gives the bytes it was decoded from
      exactly when they were canonical. The info hash of a torrent is taken
      over the re-encoded dictionary. -/

namespace Furrent.Bencode

open Cpp

/-! ### Decoding what was encoded -/

/-- `0:` denotes the empty string. -/
theorem Derives.eq_of_zero_colon {g : Dialect} (hg : g.Standard) {v : BencodeValue}
    (hd : Derives g [48, 58] v) : v = .string [] := by
  generalize hs : ([48, 58] : Bytes) = s at hd
  cases hd with
  | int _ _ => simp [charI] at hs
  | @string u b hnum hval =>
    obtain ⟨c, ds, rfl, _⟩ := Numeral.isNumeral_cases (hg.isNumeral u hnum)
    have hlen := congrArg List.length hs
    simp only [List.length_append, List.length_cons, List.length_nil] at hlen
    have hb : b = [] := List.length_eq_zero_iff.mp (by omega)
    rw [hb]
  | list _ => simp [charL] at hs
  | dict _ _ _ _ _ => simp [charD] at hs

theorem encode_eq_zero_colon {v : BencodeValue} (hv : v.WellFormed)
    (h : encode v = [48, 58]) : v = .string [] := by
  have hd := derives_encode hv
  rw [h] at hd
  exact hd.eq_of_zero_colon canonical_standard

theorem decodeAt_encode {v : BencodeValue} (hv : v.WellFormed) (rest : Bytes)
    (beyond : Nat → Option UInt8) (hne : ¬ (v = .string [] ∧ rest = []))
    (hsize : (encode v ++ rest).length ≤ INT64_MAX) :
    decodeAt ⟨encode v ++ rest, beyond⟩ 0 = .ok (v, (encode v).length) := by
  have hd := (derives_encode hv).lenient_of_canonical
  have hzero : encode v ++ rest ≠ [48, 58] := by
    intro h
    have h2 := hd.two_le_length lenient_standard
    have hlen := congrArg List.length h
    simp only [List.length_append, List.length_cons, List.length_nil] at hlen
    have hrest : rest = [] := List.length_eq_zero_iff.mp (by omega)
    rw [hrest, List.append_nil] at h
    exact hne ⟨encode_eq_zero_colon hv h, hrest⟩
  have hdepth : (encode v).length ≤ (encode v ++ rest).length + 1 := by
    rw [List.length_append]
    omega
  have hread := decodeValue_complete (t := ⟨encode v ++ rest, beyond⟩) hd hsize hdepth 0 rest
    rfl hzero
  rwa [Nat.zero_add] at hread

theorem decode_encode {v : BencodeValue} (hv : v.WellFormed) (beyond : Nat → Option UInt8)
    (hne : v ≠ .string []) (hsize : (encode v).length ≤ INT64_MAX) :
    decode beyond (encode v) = .ok v := by
  have hat := decodeAt_encode hv [] beyond (by simp [hne]) (by simpa using hsize)
  rw [List.append_nil] at hat
  rw [decode, if_neg (by omega), hat, ok_bind]
  simp

/-- No encoding is a proper prefix of another, and equal encodings come from
    equal values. -/
theorem encode_prefix_free {v w : BencodeValue} (hv : v.WellFormed) (hw : w.WellFormed)
    {rest : Bytes} (h : encode v ++ rest = encode w) (hsize : (encode w).length ≤ INT64_MAX) :
    rest = [] ∧ v = w := by
  by_cases hvw : v = .string [] ∧ rest = []
  · obtain ⟨rfl, rfl⟩ := hvw
    rw [List.append_nil] at h
    exact ⟨rfl, (encode_eq_zero_colon hw h.symm).symm⟩
  · have hreadv := decodeAt_encode hv rest (fun _ => none) hvw (by rw [h]; exact hsize)
    by_cases hw0 : w = .string []
    · -- The text is `0:`, too short to be anything else.
      subst hw0
      have h2 := (derives_encode hv).two_le_length canonical_standard
      have hlen := congrArg List.length h
      rw [List.length_append, show (encode (.string [])).length = 2 by rfl] at hlen
      have hrest : rest = [] := List.length_eq_zero_iff.mp (by omega)
      rw [hrest, List.append_nil] at h
      exact absurd ⟨encode_eq_zero_colon hv h, hrest⟩ hvw
    · have hreadw := decodeAt_encode hw [] (fun _ => none) (by simp [hw0]) (by simpa using hsize)
      rw [h] at hreadv
      rw [List.append_nil, hreadv] at hreadw
      injection hreadw with hpair
      injection hpair with hval hidx
      have hlen := congrArg List.length h
      rw [List.length_append] at hlen
      exact ⟨List.length_eq_zero_iff.mp (by omega), hval⟩

/-- What the encoder writes is read back in any context, by the private and
    by the public parser, and encodings are prefix-free. -/
theorem decode_encode_in_context {v : BencodeValue} (hv : v.WellFormed) (rest : Bytes)
    (beyond : Nat → Option UInt8) (hsize : (encode v ++ rest).length ≤ INT64_MAX) :
    (¬ (v = .string [] ∧ rest = []) →
      decodeAt ⟨encode v ++ rest, beyond⟩ 0 = .ok (v, (encode v).length)) ∧
    (v ≠ .string [] → decode beyond (encode v) = .ok v) ∧
    ∀ w : BencodeValue, w.WellFormed → encode v ++ rest = encode w → rest = [] ∧ v = w := by
  refine ⟨?_, ?_, ?_⟩
  · intro hne
    exact decodeAt_encode hv rest beyond hne hsize
  · intro hne
    rw [List.length_append] at hsize
    exact decode_encode hv beyond hne (by omega)
  · intro w hw h
    exact encode_prefix_free hv hw h (by rw [← h]; exact hsize)

/-- A list of the empty string, with the bytes of another value behind it. -/
theorem decode_encode_in_context_list :
    decodeAt ⟨encode (.list [.string []]) ++ [105, 49, 101], fun _ => none⟩ 0
      = .ok (.list [.string []], 4) := by
  have hv : (BencodeValue.list [.string []]).WellFormed := by
    refine .list ?_
    intro v hmem
    rw [List.mem_singleton.mp hmem]
    exact .string []
  exact (decode_encode_in_context hv [105, 49, 101] (fun _ => none) (by decide)).1
    (by simp)

/-! ### The language of the parser -/

/-- `0:` is below the length guard of `decode_string`. -/
theorem decode_zero_colon (beyond : Nat → Option UInt8) :
    decode beyond [48, 58] = .error (.error .stringFormat) := rfl

/-- The parser returns a value exactly on the sentences of the `lenient`
    grammar, and the value is the one the sentence denotes. The length bound
    is the check `decode` starts with; no `std::string` is longer. -/
theorem decode_eq_ok_iff (beyond : Nat → Option UInt8) (s : Bytes) (hne : s ≠ [48, 58])
    (hsize : s.length ≤ INT64_MAX) (v : BencodeValue) :
    decode beyond s = .ok v ↔ Derives lenient s v := by
  constructor
  · exact decode_sound
  · intro hd
    exact decode_complete hd hne hsize

/-- `i-07e` is accepted and denotes `-7`. -/
theorem decode_eq_ok_iff_leading_zero :
    Derives lenient [105, 45, 48, 55, 101] (.int (-7)) :=
  (decode_eq_ok_iff (fun _ => none) [105, 45, 48, 55, 101] (by decide) (by decide)
    (.int (-7))).mp rfl

/-! ### Encoding what was decoded -/

/-- Re-encoding gives the input back exactly for canonical inputs: no
    superfluous leading zeros, no signed zero and no key given twice. -/
theorem encode_decode_iff_canonical {beyond : Nat → Option UInt8} {s : Bytes}
    {v : BencodeValue} (h : decode beyond s = .ok v) :
    encode v = s ↔ ∃ w, Derives canonical s w := by
  constructor
  · intro he
    have hd := derives_encode (decode_sound h).wellFormed
    rw [he] at hd
    exact ⟨v, hd⟩
  · intro hcan
    obtain ⟨w, hw⟩ := hcan
    have hne : s ≠ [48, 58] := by
      intro hs
      rw [hs, decode_zero_colon] at h
      injection h
    have hsize : s.length ≤ INT64_MAX := by
      by_contra hlt
      rw [decode, if_pos (by omega)] at h
      injection h
    -- The parser is a function, so `w` is what was decoded.
    have hw' : decode beyond s = .ok w := decode_complete hw.lenient_of_canonical hne hsize
    rw [h] at hw'
    injection hw' with hvw
    rw [hvw]
    exact hw.encode_eq

/-- `i42e` is canonical. -/
theorem encode_decode_iff_canonical_int :
    ∃ w, Derives canonical [105, 52, 50, 101] w := by
  have h : decode (fun _ => none) [105, 52, 50, 101] = .ok (.int 42) := rfl
  exact (encode_decode_iff_canonical h).mp (by decide)

/-- `i007e` is accepted, and its value is written as `i7e`. -/
theorem encode_decode_leading_zeros :
    decode (fun _ => none) [105, 48, 48, 55, 101] = .ok (.int 7) ∧
      encode (.int 7) ≠ [105, 48, 48, 55, 101] := by
  refine ⟨rfl, ?_⟩
  decide

-- A key given twice is accepted, and the second value is dropped:
-- "d1:ai1e1:ai2ee" is written as "d1:ai1ee".
example : decode (fun _ => none) [100, 49, 58, 97, 105, 49, 101, 49, 58, 97, 105, 50, 101, 101]
      = .ok (.dict [([97], .int 1)]) ∧
    encode (.dict [([97], .int 1)]) = [100, 49, 58, 97, 105, 49, 101, 101] := by
  refine ⟨rfl, ?_⟩
  decide

end Furrent.Bencode
