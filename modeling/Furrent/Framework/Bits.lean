import Mathlib.Data.Nat.Bitwise
import Mathlib.Data.List.Basic

/-! # Bits in bytes

    A sequence of bytes as a sequence of bits, eight to a byte and the most
    significant bit first, as they are sent over a network. One bit is read
    and written with a mask; a write changes this bit and no other. -/

namespace Bits

/-- Only the bit at position `k` of a byte. -/
def mask (k : Nat) : UInt8 := 128 >>> UInt8.ofNat (k % 8)

/-- Bit `i`; there are none behind the end. -/
def bitAt (bytes : List UInt8) (i : Nat) : Bool :=
  match bytes[i / 8]? with
  | some b => b.toNat.testBit (7 - i % 8)
  | none => false

/-- Set or clear bit `i`. -/
def write (bytes : List UInt8) (i : Nat) (value : Bool) : List UInt8 :=
  bytes.modify (i / 8) fun b => if value then b ||| mask i else b &&& ~~~ mask i

variable {bytes bytes' : List UInt8} {b : UInt8} {i j k : Nat} {value value' : Bool}

/-! ### One byte -/

theorem toNat_mask (i : Nat) : (mask i).toNat = 2 ^ (7 - i % 8) := by
  have hall : ∀ k < 8, (128 >>> UInt8.ofNat k : UInt8).toNat = 2 ^ (7 - k) := by decide
  exact hall (i % 8) (Nat.mod_lt i (by decide))

theorem testBit_mask (hk : k < 8) (i : Nat) :
    (mask i).toNat.testBit (7 - k) = decide (i % 8 = k) := by
  rw [toNat_mask, Nat.testBit_two_pow]
  have : i % 8 < 8 := Nat.mod_lt i (by decide)
  rw [decide_eq_decide]
  omega

/-- Reading with the mask. -/
theorem and_mask_ne_zero (b : UInt8) (i : Nat) :
    b &&& mask i ≠ 0 ↔ b.toNat.testBit (7 - i % 8) = true := by
  have hvalue : (b &&& mask i).toNat = (b.toNat.testBit (7 - i % 8)).toNat * 2 ^ (7 - i % 8) := by
    rw [UInt8.toNat_and, toNat_mask, Nat.and_two_pow]
  rw [Ne, ← UInt8.toNat_inj, hvalue]
  cases b.toNat.testBit (7 - i % 8) with
  | false => simp
  | true => simp

theorem testBit_not (b : UInt8) (hk : k < 8) : (~~~ b).toNat.testBit k = !b.toNat.testBit k := by
  show (~~~ b).toBitVec.toNat.testBit k = !b.toBitVec.toNat.testBit k
  rw [UInt8.toBitVec_not, BitVec.testBit_toNat, BitVec.testBit_toNat, BitVec.getLsbD_not]
  simp [hk]

/-- Setting or clearing with the mask. -/
theorem testBit_write (b : UInt8) (hk : k < 8) :
    (if value then b ||| mask i else b &&& ~~~ mask i).toNat.testBit (7 - k)
      = if k = i % 8 then value else b.toNat.testBit (7 - k) := by
  have hmask := testBit_mask hk i
  cases value with
  | true =>
    rw [if_pos rfl, UInt8.toNat_or, Nat.testBit_or, hmask]
    by_cases hki : k = i % 8
    · simp [hki]
    · simp [hki, Ne.symm hki]
  | false =>
    rw [if_neg Bool.false_ne_true, UInt8.toNat_and, Nat.testBit_and, testBit_not _ (by omega),
      hmask]
    by_cases hki : k = i % 8
    · simp [hki]
    · simp [hki, Ne.symm hki]

/-! ### All bytes -/

@[simp] theorem length_write : (write bytes i value).length = bytes.length := by
  rw [write, List.length_modify]

theorem bitAt_of_byte (h : bytes[i / 8]? = some b) :
    bitAt bytes i = b.toNat.testBit (7 - i % 8) := by
  rw [bitAt, h]

/-- A write changes one bit. -/
theorem bitAt_write (h : i / 8 < bytes.length) :
    bitAt (write bytes i value) j = if j = i then value else bitAt bytes j := by
  by_cases hbyte : i / 8 = j / 8
  · have hold : bytes[j / 8]? = some bytes[i / 8] := by
      rw [← hbyte]
      exact List.getElem?_eq_getElem h
    have hnew : (write bytes i value)[j / 8]? = some
        (if value then bytes[i / 8] ||| mask i else bytes[i / 8] &&& ~~~ mask i) := by
      rw [← hbyte, write, List.getElem?_modify_eq, List.getElem?_eq_getElem h]
      rfl
    rw [bitAt_of_byte hnew, bitAt_of_byte hold, testBit_write _ (Nat.mod_lt j (by decide))]
    by_cases hji : j = i
    · rw [if_pos hji, if_pos (by rw [hji])]
    · rw [if_neg hji, if_neg (by omega)]
  · have hji : j ≠ i := by
      rintro rfl
      exact hbyte rfl
    rw [if_neg hji, bitAt, write, List.getElem?_modify_ne _ _ hbyte]
    rfl

theorem bitAt_replicate (n : Nat) (i : Nat) : bitAt (List.replicate n 0) i = false := by
  unfold bitAt
  split
  · next b hb =>
    rw [List.eq_of_mem_replicate (List.mem_of_getElem? hb)]
    simp
  · rfl

theorem byte_ext {b b' : UInt8} (h : ∀ k < 8, b.toNat.testBit (7 - k) = b'.toNat.testBit (7 - k)) :
    b = b' := by
  apply UInt8.toNat_inj.mp
  apply Nat.eq_of_testBit_eq
  intro k
  by_cases hk : k < 8
  · have hbit := h (7 - k) (by omega)
    have hback : 7 - (7 - k) = k := by omega
    rwa [hback] at hbit
  · have hsmall : ∀ b : UInt8, b.toNat.testBit k = false := by
      intro b
      apply Nat.testBit_lt_two_pow
      calc b.toNat < 2 ^ 8 := b.toNat_lt
        _ ≤ 2 ^ k := Nat.pow_le_pow_right (by decide) (by omega)
    rw [hsmall, hsmall]

/-- Bytes are told apart by their bits. -/
theorem ext (hlength : bytes.length = bytes'.length) (h : ∀ i, bitAt bytes i = bitAt bytes' i) :
    bytes = bytes' := by
  apply List.ext_getElem hlength
  intro n hn hn'
  apply byte_ext
  intro k hk
  have hbit := h (8 * n + k)
  have hbyte : (8 * n + k) / 8 = n := by omega
  have hoffset : (8 * n + k) % 8 = k := by omega
  unfold bitAt at hbit
  rw [hbyte, hoffset, List.getElem?_eq_getElem hn, List.getElem?_eq_getElem hn'] at hbit
  exact hbit

/-- Writes of different bits commute. -/
theorem write_comm (hij : i ≠ j) (hi : i / 8 < bytes.length) (hj : j / 8 < bytes.length) :
    write (write bytes i value) j value' = write (write bytes j value') i value := by
  apply ext
  · simp
  · intro k
    rw [bitAt_write (by simpa using hj), bitAt_write hi, bitAt_write (by simpa using hi),
      bitAt_write hj]
    by_cases hki : k = i
    · rw [if_neg (by omega), if_pos hki, if_pos hki]
    · rw [if_neg hki, if_neg hki]

end Bits
