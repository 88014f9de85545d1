import Furrent.Framework.Bits
import Furrent.Download.Message

/-! # Bitfields as sets of indices

    `get` and `set` without the details of the storage: which bits are set,
    and what a successful `set` changes. A read stays inside the storage as
    long as the storage has a bit for every index below `len`. -/

namespace Furrent.Download

open Cpp

namespace Bitfield

variable {bf bf' : Bitfield} {i j : Int} {value : Bool}

/-- Bit `i` of the storage; there are none behind its end. -/
def bit (bf : Bitfield) (i : Int) : Bool :=
  match bf.storage[(i / 8).toNat]? with
  | none => false
  | some b => b &&& bitMask i ≠ 0

/-- The storage has a bit for every index below `len`. -/
def Spans (bf : Bitfield) : Prop := bf.len ≤ 8 * bf.storage.length

theorem assertWithinBounds_eq_ok {len : Int} (h : assertWithinBounds len i = .ok ()) :
    0 ≤ i ∧ i < len := by
  obtain ⟨hneg, h⟩ := guard_eq_ok.mp h
  obtain ⟨hlarge, _⟩ := guard_eq_ok.mp h
  omega

theorem assertWithinBounds_of_lt {len : Int} (h0 : 0 ≤ i) (hlt : i < len) :
    assertWithinBounds len i = .ok () := by
  rw [assertWithinBounds, if_neg (by omega), if_neg (by omega)]

theorem get_of_byte (beyond : Nat → Option UInt8) (h0 : 0 ≤ i) (hlt : i < bf.len)
    (hbyte : (i / 8).toNat < bf.storage.length) : bf.get beyond i = .ok (bf.bit i) := by
  unfold get bit
  rw [assertWithinBounds_of_lt h0 hlt]
  simp only [uncheckedGet_of_lt hbyte, List.getElem?_eq_getElem hbyte]

theorem get_of_spans (hspans : bf.Spans) (beyond : Nat → Option UInt8) (h0 : 0 ≤ i)
    (hlt : i < bf.len) : bf.get beyond i = .ok (bf.bit i) := by
  unfold Spans at hspans
  exact get_of_byte beyond h0 hlt (by omega)

/-- With nothing behind the storage, a bit that is read is in it. -/
theorem bit_of_get (h : bf.get (fun _ => none) i = .ok true) : bf.bit i = true := by
  unfold get at h
  split at h
  · injection h
  · unfold uncheckedGet at h
    unfold bit
    cases hbyte : bf.storage[(i / 8).toNat]? with
    | none => simp [hbyte] at h
    | some b =>
      simp only [hbyte] at h ⊢
      injection h

theorem set_ne_outOfFuel : bf.set i true ≠ .error .outOfFuel := by
  unfold set
  split
  · simp
  · split
    · simp
    · simp

/-! ### Bits of the storage -/

theorem bitMask_eq (h : 0 ≤ i) : bitMask i = Bits.mask i.toNat := by
  have hmod : (i % 8).toNat = i.toNat % 8 := by omega
  rw [bitMask, Bits.mask, hmod]

theorem byteIndex_eq (i : Int) : (i / 8).toNat = i.toNat / 8 := by omega

theorem exists_byte (h : (i / 8).toNat < bf.storage.length) :
    ∃ b, bf.storage[i.toNat / 8]? = some b := by
  rw [byteIndex_eq] at h
  exact ⟨_, List.getElem?_eq_getElem h⟩

theorem bit_eq_bitAt (h : 0 ≤ i) : bf.bit i = Bits.bitAt bf.storage i.toNat := by
  rw [bit, Bits.bitAt, byteIndex_eq]
  split
  · next hbyte => rw [hbyte]
  · next b hbyte =>
    rw [hbyte, bitMask_eq h, Bool.decide_congr (Bits.and_mask_ne_zero b i.toNat),
      Bool.decide_eq_true]

/-- The bitfield with bit `i` of its storage written. -/
def write (bf : Bitfield) (i : Int) (value : Bool) : Bitfield :=
  { bf with storage := Bits.write bf.storage i.toNat value }

@[simp] theorem len_write : (bf.write i value).len = bf.len := rfl

@[simp] theorem size_write : (bf.write i value).storage.length = bf.storage.length :=
  Bits.length_write

/-- One bit is written and no other, be its index below `len` or not. -/
theorem bit_write (h0 : 0 ≤ i) (hbyte : (i / 8).toNat < bf.storage.length) (hj : 0 ≤ j) :
    (bf.write i value).bit j = if i = j then value else bf.bit j := by
  rw [byteIndex_eq] at hbyte
  rw [bit_eq_bitAt hj, bit_eq_bitAt hj, write, Bits.bitAt_write hbyte]
  by_cases hij : i = j
  · rw [if_pos hij, if_pos (by rw [hij])]
  · rw [if_neg hij, if_neg (by omega)]

/-! ### Setting a bit -/

/-- `set` writes a bit of the storage, if the index is below `len` and there
    is such a bit. -/
theorem set_eq_write (h0 : 0 ≤ i) (hlt : i < bf.len) (hbyte : (i / 8).toNat < bf.storage.length) :
    bf.set i value = .ok (bf.write i value) := by
  obtain ⟨b, hold⟩ := exists_byte hbyte
  rw [set, assertWithinBounds_of_lt h0 hlt]
  simp only [byteIndex_eq, hold, bitMask_eq h0]
  rw [write, Bits.write, List.modify_eq_set_getElem?, hold]
  rfl

theorem set_of_byte (h0 : 0 ≤ i) (hlt : i < bf.len)
    (hbyte : (i / 8).toNat < bf.storage.length) : ∃ bf', bf.set i true = .ok bf' :=
  ⟨_, set_eq_write h0 hlt hbyte⟩

theorem set_eq (h : bf.set i value = .ok bf') :
    (0 ≤ i ∧ i < bf.len) ∧ (i / 8).toNat < bf.storage.length ∧ bf' = bf.write i value := by
  have hset := h
  unfold set at h
  split at h
  · injection h
  · next hbounds =>
    split at h
    · injection h
    · next b hb =>
      have hin := assertWithinBounds_eq_ok hbounds
      have hbyte := (List.getElem?_eq_some_iff.mp hb).1
      rw [set_eq_write hin.1 hin.2 hbyte] at hset
      injection hset with hset
      exact ⟨hin, hbyte, hset.symm⟩

theorem byte_of_set (h : bf.set i true = .ok bf') : (i / 8).toNat < bf.storage.length :=
  (set_eq h).2.1

/-- A successful `set(index)` sets one bit and no other. -/
theorem bit_set (h : bf.set i true = .ok bf') (hj : 0 ≤ j) :
    bf'.bit j = true ↔ bf.bit j = true ∨ j = i := by
  obtain ⟨hin, hbyte, rfl⟩ := set_eq h
  rw [bit_write hin.1 hbyte hj]
  by_cases hij : i = j
  · simp [hij]
  · simp [hij, Ne.symm hij]

theorem set_eq_ok (h : bf.set i true = .ok bf') :
    bf'.len = bf.len ∧ bf'.storage.length = bf.storage.length ∧ (0 ≤ i ∧ i < bf.len) ∧
      ∀ j, 0 ≤ j → bf'.bit j = true → bf.bit j = true ∨ j = i := by
  refine ⟨?_, ?_, (set_eq h).1, fun j hj => (bit_set h hj).mp⟩
  · obtain ⟨_, _, rfl⟩ := set_eq h
    exact len_write
  · obtain ⟨_, _, rfl⟩ := set_eq h
    exact size_write

end Bitfield

end Furrent.Download
