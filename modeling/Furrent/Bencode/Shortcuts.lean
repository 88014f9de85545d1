import Furrent.Bencode.RoundTrip

/-! # The guards as shortcuts

    A length guard is a shortcut if it only rejects what the rest of the
    parser would reject. That is so on every input but one. The parser
    without guards accepts the `lenient` grammar, and the guards take one
    sentence away from it: `0:`, the empty string, which is shorter than
    `decode_string` asks for. Inside a list or a dictionary something follows
    it, and the guard lets it pass. -/

namespace Furrent.Bencode

open Cpp

namespace Unguarded

variable {t : Tokens} {i j : Nat} {v : BencodeValue} {beyond : Nat → Option UInt8} {s : Bytes}

/-! ### What the parser without guards accepts -/

theorem decode_of_guarded (h : Bencode.decode beyond s = .ok v) : decode beyond s = .ok v := by
  obtain ⟨hsize, h⟩ := guard_eq_ok.mp h
  obtain ⟨r, hr, h⟩ := bind_eq_ok.mp h
  rw [decode, if_neg hsize]
  exact bind_eq_ok.mpr ⟨r, decodeValue_of_guarded hr, h⟩

theorem decode_iff_derives (beyond : Nat → Option UInt8) (s : Bytes) (v : BencodeValue) :
    decode beyond s = .ok v ↔ s.length ≤ INT64_MAX ∧ Derives lenient s v := by
  constructor
  · intro h
    obtain ⟨hsize, h⟩ := guard_eq_ok.mp h
    obtain ⟨⟨w, k⟩, hw, h⟩ := bind_eq_ok.mp h
    obtain ⟨hk, h⟩ := guard_eq_ok.mp h
    cases h
    rw [not_not.mp hk] at hw
    exact ⟨by omega, (decodeValue_sound _).derives hw⟩
  · rintro ⟨hsize, hd⟩
    by_cases hs : s = [48, 58]
    · subst hs
      rw [hd.eq_of_zero_colon lenient_standard]
      rfl
    · exact decode_of_guarded (decode_complete hd hs hsize)

/-! ### The bounds of the model are never met -/

theorem decodeValue_ends {depth : Nat} (hdepth : t.size < depth + i) (hpos : 0 < depth) :
    decodeValue t depth i ≠ .error .outOfFuel := by
  induction depth generalizing i with
  | zero => omega
  | succ depth ih =>
    have hdec := decodeValue_sound (t := t) depth
    -- One level down the index is at least one further on.
    have hfuel : i < t.size → ∀ k, i + 1 ≤ k → decodeValue t depth k ≠ .error .outOfFuel :=
      fun _ k hk => ih (by omega) (by omega)
    rw [decodeValue_succ]
    exact dispatch_ne_outOfFuel (decodeInt_ends t i) (decodeString_ends t i)
      (decodeList_ne_outOfFuel hdec hfuel) (decodeDict_ne_outOfFuel hdec hfuel)

theorem decode_ends (beyond : Nat → Option UInt8) (s : Bytes) :
    decode beyond s ≠ .error .outOfFuel := by
  rw [decode]
  split
  · simp
  · have hvalue : decodeValue ⟨s, beyond⟩ (s.length + 1) 0 ≠ .error .outOfFuel :=
      decodeValue_ends (Nat.lt_succ_self s.length) (Nat.succ_pos _)
    refine bind_ne_error hvalue ?_
    rintro ⟨v, i⟩ _
    show (if i ≠ s.length then _ else _) ≠ _
    split <;> simp

end Unguarded

/-! ### The parser with and without guards -/

/-- On every input but `0:` the parser returns the values it would return
    without its length guards. -/
theorem decode_iff_unguarded (beyond : Nat → Option UInt8) (s : Bytes) :
    (∀ v, decode beyond s = .ok v ↔ Unguarded.decode beyond s = .ok v) ↔ s ≠ [48, 58] := by
  constructor
  · intro h hs
    subst hs
    have hok : decode beyond [48, 58] = .ok (.string []) := (h (.string [])).mpr rfl
    rw [decode_zero_colon] at hok
    cases hok
  · intro hne v
    constructor
    · exact Unguarded.decode_of_guarded
    · intro h
      obtain ⟨hsize, hd⟩ := (Unguarded.decode_iff_derives beyond s v).mp h
      exact decode_complete hd hne hsize

/-- The guard of `decode_string` rejects `0:`, which the rest of the parser
    would read as the empty string. -/
theorem decode_zero_colon_unguarded :
    decode (fun _ => none) [48, 58] = .error (.error .stringFormat) ∧
      Unguarded.decode (fun _ => none) [48, 58] = .ok (.string []) :=
  ⟨rfl, rfl⟩

end Furrent.Bencode
