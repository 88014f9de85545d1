import Mathlib.Data.Nat.Digits.Lemmas
import Mathlib.Data.List.Lex

/-! # Numerals written as bytes

    Two ways of writing a natural number as a string of bytes:

    * **decimal**: ASCII digits, most significant first, the way
      `std::to_string` prints them;
    * **big-endian**: a fixed number of base-256 digits.

    Each comes with its reading function and the round trips between the
    two. A decimal numeral is *canonical* when it has no superfluous
    leading zero; canonical numerals are exactly the printed ones. -/

/-- Byte strings. The bytes are unsigned. -/
abbrev Bytes : Type := List UInt8

/-- Bytes are ordered by their value, so that `Bytes` gets the
    byte-lexicographic order of `std::string`. -/
instance instLinearOrderByte : LinearOrder UInt8 where
  le_refl := UInt8.le_refl
  le_trans := fun _ _ _ => UInt8.le_trans
  le_antisymm := fun _ _ => UInt8.le_antisymm
  le_total := UInt8.le_total
  lt_iff_le_not_ge := fun a b => by
    rw [UInt8.not_le]
    exact ⟨fun h => ⟨UInt8.le_of_lt h, h⟩, fun h => h.2⟩
  toDecidableLE := inferInstance
  toDecidableLT := inferInstance

namespace Numeral

/-! ## Decimal digits -/

/-- `'0' <= b <= '9'`. -/
def isDigit (b : UInt8) : Bool := 48 ≤ b && b ≤ 57

/-- The number a digit stands for. -/
def digitVal (b : UInt8) : Nat := b.toNat - 48

/-- The digit that stands for `d`. -/
def digitByte (d : Nat) : UInt8 := UInt8.ofNat (48 + d)

theorem toNat_digitByte {d : Nat} (h : d < 10) : (digitByte d).toNat = 48 + d := by
  unfold digitByte
  exact UInt8.toNat_ofNat_of_lt (by simp [UInt8.size]; omega)

theorem digitVal_digitByte {d : Nat} (h : d < 10) : digitVal (digitByte d) = d := by
  unfold digitVal
  rw [toNat_digitByte h]
  omega

theorem isDigit_iff (b : UInt8) : isDigit b = true ↔ 48 ≤ b.toNat ∧ b.toNat ≤ 57 := by
  simp [isDigit, UInt8.le_iff_toNat_le]

theorem isDigit_digitByte {d : Nat} (h : d < 10) : isDigit (digitByte d) = true := by
  rw [isDigit_iff, toNat_digitByte h]
  omega

theorem digitVal_lt {b : UInt8} (h : isDigit b = true) : digitVal b < 10 := by
  have hb := (isDigit_iff b).mp h
  unfold digitVal
  omega

theorem digitByte_digitVal {b : UInt8} (h : isDigit b = true) :
    digitByte (digitVal b) = b := by
  have hb := (isDigit_iff b).mp h
  apply UInt8.toNat_inj.mp
  rw [toNat_digitByte (digitVal_lt h)]
  unfold digitVal
  omega

/-! ## Decimal numerals -/

/-- One or more digits: the expression `\d+`. -/
def IsNumeral (t : Bytes) : Prop := t ≠ [] ∧ ∀ b ∈ t, isDigit b = true

instance (t : Bytes) : Decidable (IsNumeral t) :=
  decidable_of_iff (t ≠ [] ∧ t.all isDigit = true) (by simp [IsNumeral])

/-- The value of a string of digits, accumulated from the left. -/
def value (t : Bytes) : Nat := t.foldl (fun acc b => acc * 10 + digitVal b) 0

/-- The decimal digits of `n` without leading zeros. -/
def decimal (n : Nat) : Bytes :=
  if n = 0 then [48] else (Nat.digits 10 n).reverse.map digitByte

/-- No superfluous leading zero. -/
def IsCanonical (t : Bytes) : Prop := t = [48] ∨ ∃ b ds, t = b :: ds ∧ b ≠ 48

theorem value_eq_ofDigits (t : Bytes) :
    value t = Nat.ofDigits 10 (t.reverse.map digitVal) := by
  induction t using List.reverseRecOn with
  | nil => simp [value]
  | append_singleton t b ih =>
    -- `Nat.ofDigits` starts with the lowest digit, the last one of the text.
    have hstep : value (t ++ [b]) = value t * 10 + digitVal b := by
      simp [value]
    rw [hstep, ih, List.reverse_append]
    simp [Nat.ofDigits_cons]
    omega

theorem value_lt {t : Bytes} (h : ∀ b ∈ t, isDigit b = true) : value t < 10 ^ t.length := by
  have hdigits : ∀ d ∈ t.reverse.map digitVal, d < 10 := by
    intro d hd
    obtain ⟨b, hb, rfl⟩ := List.mem_map.mp hd
    exact digitVal_lt (h b (List.mem_reverse.mp hb))
  have hlt := Nat.ofDigits_lt_base_pow_length (by omega : 1 < 10) hdigits
  rwa [← value_eq_ofDigits, List.length_map, List.length_reverse] at hlt

theorem isNumeral_decimal (n : Nat) : IsNumeral (decimal n) := by
  unfold decimal
  split
  · refine ⟨by simp, ?_⟩
    intro b hb
    rw [List.mem_singleton.mp hb]
    rfl
  · next hn =>
    refine ⟨by simpa [Nat.digits_eq_nil_iff_eq_zero] using hn, ?_⟩
    intro b hb
    simp only [List.mem_map, List.mem_reverse] at hb
    obtain ⟨d, hd, rfl⟩ := hb
    exact isDigit_digitByte (Nat.digits_lt_base (by omega) hd)

/-- Reading what was printed. -/
theorem value_decimal (n : Nat) : value (decimal n) = n := by
  rw [value_eq_ofDigits]
  unfold decimal
  split
  · next hn => subst hn; decide
  · have hmap : ((Nat.digits 10 n).map digitByte).map digitVal = Nat.digits 10 n := by
      rw [List.map_map]
      refine (List.map_congr_left ?_).trans (List.map_id _)
      intro d hd
      exact digitVal_digitByte (Nat.digits_lt_base (by omega) hd)
    rw [← List.map_reverse, List.reverse_reverse, hmap]
    exact Nat.ofDigits_digits 10 n

theorem isCanonical_decimal (n : Nat) : IsCanonical (decimal n) := by
  unfold decimal
  split
  · exact Or.inl rfl
  · next hn =>
    right
    -- The leading byte is the last of `Nat.digits`, which is not zero.
    have hne : Nat.digits 10 n ≠ [] := by simpa [Nat.digits_eq_nil_iff_eq_zero] using hn
    have hlast := Nat.getLast_digit_ne_zero 10 hn
    have hlt := Nat.digits_lt_base (b := 10) (by omega) (List.getLast_mem hne)
    have hrev : (Nat.digits 10 n).reverse
        = (Nat.digits 10 n).getLast hne :: (Nat.digits 10 n).dropLast.reverse := by
      conv_lhs => rw [← List.dropLast_append_getLast hne]
      simp
    refine ⟨_, _, by rw [hrev, List.map_cons], ?_⟩
    intro h48
    have := congrArg UInt8.toNat h48
    rw [toNat_digitByte hlt] at this
    have h48' : (48 : UInt8).toNat = 48 := rfl
    omega

/-- Printing what was read gives the numeral back if it was canonical. -/
theorem decimal_value {t : Bytes} (hnum : IsNumeral t) (hcan : IsCanonical t) :
    decimal (value t) = t := by
  rcases hcan with rfl | ⟨b, ds, rfl, hb⟩
  · decide
  · have hdigit : isDigit b = true := hnum.2 b (by simp)
    -- The reversed digits satisfy the side conditions of `Nat.digits_ofDigits`:
    -- each is below ten and the last one, `b`, is not zero.
    have hlt : ∀ d ∈ ((b :: ds).reverse.map digitVal), d < 10 := by
      intro d hd
      simp only [List.mem_map, List.mem_reverse] at hd
      obtain ⟨c, hc, rfl⟩ := hd
      exact digitVal_lt (hnum.2 c hc)
    have hbval : digitVal b ≠ 0 := by
      intro h0
      have hb' := (isDigit_iff b).mp hdigit
      apply hb
      apply UInt8.toNat_inj.mp
      have h48 : (48 : UInt8).toNat = 48 := rfl
      unfold digitVal at h0
      omega
    have hdig := Nat.digits_ofDigits 10 (by omega) ((b :: ds).reverse.map digitVal) hlt
      (by intro h; simpa using hbval)
    rw [← value_eq_ofDigits] at hdig
    have hpos : value (b :: ds) ≠ 0 := by
      intro h0
      rw [h0] at hdig
      simp at hdig
    unfold decimal
    rw [if_neg hpos, hdig, ← List.map_reverse, List.reverse_reverse, List.map_map]
    refine (List.map_congr_left ?_).trans (List.map_id _)
    intro c hc
    exact digitByte_digitVal (hnum.2 c hc)

example : decimal 1024 = [49, 48, 50, 52] := by decide

/-! ## Signed decimal numerals -/

/-- The expression `-?\d+`. -/
def IsSigned : Bytes → Prop
  | 45 :: ds => IsNumeral ds
  | t => IsNumeral t

instance (t : Bytes) : Decidable (IsSigned t) := by
  unfold IsSigned
  split <;> infer_instance

/-- The value of a signed numeral. -/
def signedValue : Bytes → Int
  | 45 :: ds => -(value ds)
  | t => value t

/-- An integer the way `std::to_string` prints it. -/
def signedDecimal (n : Int) : Bytes :=
  if n < 0 then 45 :: decimal n.natAbs else decimal n.natAbs

/-- No superfluous leading zero and no negative zero. -/
def IsSignedCanonical : Bytes → Prop
  | 45 :: ds => IsCanonical ds ∧ ds ≠ [48]
  | t => IsCanonical t

theorem isDigit_minus : isDigit 45 = false := by decide

/-- A numeral does not start with a sign, so the second clause of the
    signed definitions applies to it. -/
theorem isNumeral_cases {t : Bytes} (h : IsNumeral t) : ∃ b ds, t = b :: ds ∧ b ≠ 45 := by
  cases t with
  | nil => exact absurd rfl h.1
  | cons b ds =>
    refine ⟨b, ds, rfl, ?_⟩
    intro hb
    have hd := h.2 b (by simp)
    rw [hb, isDigit_minus] at hd
    exact absurd hd (by decide)

theorem isSigned_of_isNumeral {t : Bytes} (h : IsNumeral t) : IsSigned t := by
  obtain ⟨b, ds, rfl, hb⟩ := isNumeral_cases h
  unfold IsSigned
  split
  · next heq => exact absurd (List.cons.inj heq).1 hb
  · exact h

theorem signedValue_of_isNumeral {t : Bytes} (h : IsNumeral t) : signedValue t = value t := by
  obtain ⟨b, ds, rfl, hb⟩ := isNumeral_cases h
  unfold signedValue
  split
  · next heq => exact absurd (List.cons.inj heq).1 hb
  · rfl

theorem isSignedCanonical_iff_of_isNumeral {t : Bytes} (h : IsNumeral t) :
    IsSignedCanonical t ↔ IsCanonical t := by
  obtain ⟨b, ds, rfl, hb⟩ := isNumeral_cases h
  unfold IsSignedCanonical
  split
  · next heq => exact absurd (List.cons.inj heq).1 hb
  · rfl

theorem isSigned_cases {t : Bytes} (h : IsSigned t) :
    IsNumeral t ∨ ∃ ds, t = 45 :: ds ∧ IsNumeral ds := by
  unfold IsSigned at h
  split at h
  · next ds => exact Or.inr ⟨ds, rfl, h⟩
  · exact Or.inl h

theorem length_pos_of_isSigned {t : Bytes} (h : IsSigned t) : 0 < t.length := by
  rcases isSigned_cases h with hnum | ⟨ds, rfl, _⟩
  · exact List.length_pos_of_ne_nil hnum.1
  · simp

theorem isSigned_signedDecimal (n : Int) : IsSigned (signedDecimal n) := by
  unfold signedDecimal
  split
  · exact isNumeral_decimal _
  · exact isSigned_of_isNumeral (isNumeral_decimal _)

theorem signedValue_signedDecimal (n : Int) : signedValue (signedDecimal n) = n := by
  unfold signedDecimal
  split
  · show -((value (decimal n.natAbs) : Nat) : Int) = n
    rw [value_decimal]
    omega
  · rw [signedValue_of_isNumeral (isNumeral_decimal _), value_decimal]
    omega

theorem isSignedCanonical_signedDecimal (n : Int) : IsSignedCanonical (signedDecimal n) := by
  unfold signedDecimal
  split
  · next hn =>
    refine ⟨isCanonical_decimal _, ?_⟩
    intro h0
    have := congrArg value h0
    rw [value_decimal] at this
    have hz : value [48] = 0 := by decide
    omega
  · rw [isSignedCanonical_iff_of_isNumeral (isNumeral_decimal _)]
    exact isCanonical_decimal _

theorem signedDecimal_signedValue {t : Bytes} (hnum : IsSigned t) (hcan : IsSignedCanonical t) :
    signedDecimal (signedValue t) = t := by
  rcases isSigned_cases hnum with h | ⟨ds, rfl, h⟩
  · have hcan' := (isSignedCanonical_iff_of_isNumeral h).mp hcan
    rw [signedValue_of_isNumeral h]
    unfold signedDecimal
    rw [if_neg (by omega), Int.natAbs_natCast]
    exact decimal_value h hcan'
  · obtain ⟨hcan', hne⟩ : IsCanonical ds ∧ ds ≠ [48] := hcan
    have hdv := decimal_value h hcan'
    -- The value is not zero, for otherwise the digits would be `0`.
    have hpos : value ds ≠ 0 := by
      intro h0
      rw [h0] at hdv
      exact hne (by rw [← hdv]; decide)
    show signedDecimal (-(value ds : Int)) = 45 :: ds
    unfold signedDecimal
    rw [if_pos (by omega), Int.natAbs_neg, Int.natAbs_natCast, hdv]

/-! ## Big-endian numerals -/

/-- The `w` lowest base-256 digits of `n`, most significant first. -/
def bigEndian : Nat → Nat → Bytes
  | 0, _ => []
  | w + 1, n => bigEndian w (n / 256) ++ [UInt8.ofNat n]

/-- The value of a string of base-256 digits, accumulated from the left. -/
def bigEndianValue (bs : Bytes) : Nat := bs.foldl (fun acc b => acc * 256 + b.toNat) 0

@[simp] theorem length_bigEndian (w n : Nat) : (bigEndian w n).length = w := by
  induction w generalizing n with
  | zero => rfl
  | succ w ih => rw [bigEndian, List.length_append, ih, List.length_singleton]

theorem bigEndianValue_append_singleton (bs : Bytes) (b : UInt8) :
    bigEndianValue (bs ++ [b]) = bigEndianValue bs * 256 + b.toNat := by
  simp [bigEndianValue]

theorem bigEndianValue_lt (bs : Bytes) : bigEndianValue bs < 256 ^ bs.length := by
  induction bs using List.reverseRecOn with
  | nil => decide
  | append_singleton bs b ih =>
    have hb := b.toNat_lt
    rw [bigEndianValue_append_singleton, List.length_append, List.length_singleton, pow_succ]
    omega

theorem bigEndianValue_bigEndian {w n : Nat} (h : n < 256 ^ w) :
    bigEndianValue (bigEndian w n) = n := by
  induction w generalizing n with
  | zero =>
    have hn : n = 0 := by simpa using h
    rw [hn]
    rfl
  | succ w ih =>
    -- The last byte is `n % 256`, the bytes before it are those of `n / 256`.
    have hdiv : n / 256 < 256 ^ w := by
      rw [pow_succ] at h
      exact Nat.div_lt_of_lt_mul (by omega)
    rw [bigEndian, bigEndianValue_append_singleton, ih hdiv, UInt8.toNat_ofNat']
    omega

theorem bigEndian_bigEndianValue (bs : Bytes) :
    bigEndian bs.length (bigEndianValue bs) = bs := by
  induction bs using List.reverseRecOn with
  | nil => rfl
  | append_singleton bs b ih =>
    have hb := b.toNat_lt
    have hdiv : (bigEndianValue bs * 256 + b.toNat) / 256 = bigEndianValue bs := by omega
    have hbyte : UInt8.ofNat (bigEndianValue bs * 256 + b.toNat) = b := by
      apply UInt8.toNat_inj.mp
      rw [UInt8.toNat_ofNat']
      omega
    rw [List.length_append, List.length_singleton, bigEndianValue_append_singleton, bigEndian,
      hdiv, hbyte, ih]

end Numeral
