import Furrent.Framework.Object
import Furrent.Download.Bitfield

/-! # Bitfields as arrays

    A bitfield whose storage has room for `len` bits is an array of booleans
    of this length: it answers every sequence of calls as the array does. A
    call with an index outside of the array throws and changes nothing, and
    no call touches what lies in the storage behind the array. -/

namespace Furrent.Download

open Cpp Sequential

namespace Bitfield

variable {bf bf' : Bitfield} {i j : Int} {value : Bool}

/-- `Bitfield(len)`. -/
def create (len : Int) : Outcome Empty Bitfield :=
  if len < 0 then .error (.throw (.invalidArgument "expected positive length"))
  else do
    let rounded ← int64 (len + 7)
    .ok ⟨List.replicate (rounded / 8).toNat 0, len⟩

/-! ### Inside of the array -/

theorem Spans.byte (h : bf.Spans) (h0 : 0 ≤ i) (hlt : i < bf.len) :
    (i / 8).toNat < bf.storage.length := by
  unfold Spans at h
  omega

theorem Spans.write (h : bf.Spans) (value : Bool) : (bf.write i value).Spans := by
  rw [Spans, len_write, size_write]
  exact h

theorem Spans.set_eq (h : bf.Spans) (h0 : 0 ≤ i) (hlt : i < bf.len) (value : Bool) :
    bf.set i value = .ok (bf.write i value) :=
  set_eq_write h0 hlt (h.byte h0 hlt)

theorem Spans.bit_write (h : bf.Spans) (h0 : 0 ≤ i) (hlt : i < bf.len) (hj : 0 ≤ j) :
    (bf.write i value).bit j = if i = j then value else bf.bit j :=
  Bitfield.bit_write h0 (h.byte h0 hlt) hj

theorem Spans.write_comm (h : bf.Spans) (hij : i ≠ j) (hi0 : 0 ≤ i) (hi : i < bf.len) (hj0 : 0 ≤ j)
    (hj : j < bf.len) {value' : Bool} :
    (bf.write i value).write j value' = (bf.write j value').write i value := by
  have hibyte := h.byte hi0 hi
  have hjbyte := h.byte hj0 hj
  rw [byteIndex_eq] at hibyte hjbyte
  simp only [Bitfield.write]
  rw [Bits.write_comm (by omega) hibyte hjbyte]

/-- Outside of the array both calls throw. -/
theorem outside (bf : Bitfield) (beyond : Nat → Option UInt8) (h : i < 0 ∨ bf.len ≤ i) :
    ∃ what, assertWithinBounds bf.len i = .error (.invalidArgument what) ∧
      bf.get beyond i = .error (.throw (.invalidArgument what)) ∧
      ∀ value, bf.set i value = .error (.throw (.invalidArgument what)) := by
  obtain ⟨what, hassert⟩ :
      ∃ what, assertWithinBounds bf.len i = .error (.invalidArgument what) := by
    unfold assertWithinBounds
    by_cases hneg : i < 0
    · exact ⟨_, if_pos hneg⟩
    · rw [if_neg hneg, if_pos (by omega)]
      exact ⟨_, rfl⟩
  refine ⟨what, hassert, ?_, ?_⟩
  · rw [get, hassert]
  · intro value
    rw [set, hassert]

/-! ### New bitfields -/

/-- A new bitfield has room for its bits, and all of them are false. -/
theorem create_eq_ok {len : Int} (h : create len = .ok bf) :
    bf.len = len ∧ (bf.storage.length : Int) = (len + 7) / 8 ∧ ∀ j, 0 ≤ j → bf.bit j = false := by
  unfold create at h
  split at h
  · injection h
  · next hpos =>
    obtain ⟨rounded, hrounded, h⟩ := bind_eq_ok.mp h
    obtain ⟨rfl, _⟩ := int64_eq_ok.mp hrounded
    injection h with h
    rw [← h]
    refine ⟨rfl, ?_, ?_⟩
    · show ((List.replicate ((len + 7) / 8).toNat (0 : UInt8)).length : Int) = (len + 7) / 8
      rw [List.length_replicate]
      omega
    · intro j hj
      rw [bit_eq_bitAt hj]
      exact Bits.bitAt_replicate _ _

theorem create_returns {len : Int} (h0 : 0 ≤ len) (hfits : len + 7 < 2 ^ 63) :
    ∃ bf, create len = .ok bf := by
  have hrounded : (int64 (len + 7) : Outcome Empty Int) = .ok (len + 7) :=
    int64_eq_ok.mpr ⟨rfl, by unfold FitsInt64; omega⟩
  rw [create, if_neg (by omega), hrounded, ok_bind]
  exact ⟨_, rfl⟩

/-! ### The array -/

/-- The bits as booleans. -/
def bits (bf : Bitfield) : List Bool := (List.range bf.len.toNat).map fun k : Nat => bf.bit k

theorem length_bits (bf : Bitfield) : bf.bits.length = bf.len.toNat := by
  rw [bits, List.length_map, List.length_range]

theorem getElem?_bits (h0 : 0 ≤ i) (hlt : i < bf.len) : bf.bits[i.toNat]? = some (bf.bit i) := by
  have hi : (i.toNat : Int) = i := Int.toNat_of_nonneg h0
  rw [bits, List.getElem?_map, List.getElem?_range (by omega), Option.map_some, hi]

theorem Spans.bits_write (h : bf.Spans) (h0 : 0 ≤ i) (hlt : i < bf.len) (value : Bool) :
    (bf.write i value).bits = bf.bits.set i.toNat value := by
  apply List.ext_getElem
  · rw [List.length_set, length_bits, length_bits, len_write]
  · intro k hk hk'
    have hlen : k < bf.len.toNat := by rwa [length_bits] at hk
    simp only [bits, List.getElem_map, List.getElem_range, List.getElem_set]
    rw [h.bit_write h0 hlt (by omega)]
    by_cases hik : i = k
    · rw [if_pos hik, if_pos (by omega)]
    · rw [if_neg hik, if_neg (by omega)]

/-- A call of `set`, `unset` or `get`. -/
inductive Access where
  | set (index : Int) (value : Bool)
  | get (index : Int)
  deriving DecidableEq, Repr

/-- A bitfield as an object. -/
def object (beyond : Nat → Option UInt8) (start : Bitfield) :
    Object Bitfield Access (Outcome Empty (Option Bool)) where
  start := start
  step bf call :=
    match call with
    | .set index value =>
      match bf.set index value with
      | .ok bf' => (bf', .ok none)
      | .error e => (bf, .error e)
    | .get index =>
      match bf.get beyond index with
      | .ok value => (bf, .ok (some value))
      | .error e => (bf, .error e)

/-- An array of booleans as an object. -/
def array (start : List Bool) : Object (List Bool) Access (Outcome Empty (Option Bool)) where
  start := start
  step l call :=
    match call with
    | .set index value =>
      match assertWithinBounds l.length index with
      | .ok _ => (l.set index.toNat value, .ok none)
      | .error x => (l, .error (.throw x))
    | .get index =>
      match assertWithinBounds l.length index with
      | .ok _ => (l, .ok l[index.toNat]?)
      | .error x => (l, .error (.throw x))

/-- The bitfield stands for the array, and behind the array it is as it was
    in the beginning. -/
structure Represents (start bf : Bitfield) (l : List Bool) : Prop where
  spans : bf.Spans
  bits : bf.bits = l
  len : bf.len = start.len
  size : bf.storage.length = start.storage.length
  behind : ∀ j, 0 ≤ j → start.len ≤ j → bf.bit j = start.bit j

variable {start : Bitfield} {l : List Bool}

theorem Represents.write (h : Represents start bf l) (h0 : 0 ≤ i) (hlt : i < bf.len)
    (value : Bool) :
    Represents start (bf.write i value)
      (l.set i.toNat value) where
  spans := h.spans.write value
  bits := by rw [h.spans.bits_write h0 hlt, h.bits]
  len := h.len
  size := by rw [size_write, h.size]
  behind := by
    intro j hj hle
    have hlen := h.len
    rw [h.spans.bit_write h0 hlt hj, if_neg (by omega)]
    exact h.behind j hj hle

/-- The check of the index is the same for both. -/
theorem assertWithinBounds_bits (bf : Bitfield) (i : Int) :
    assertWithinBounds bf.bits.length i = assertWithinBounds bf.len i := by
  rw [length_bits]
  unfold assertWithinBounds
  by_cases hneg : i < 0
  · rw [if_pos hneg, if_pos hneg]
  · by_cases hle : bf.len ≤ i
    · rw [if_neg hneg, if_neg hneg, if_pos (by omega), if_pos hle]
    · rw [if_neg hneg, if_neg hneg, if_neg (by omega), if_neg hle]

theorem object_bisimulates (beyond : Nat → Option UInt8) (h : start.Spans) :
    Object.Bisimulates (object beyond start) (array start.bits) (Represents start) where
  start := ⟨h, rfl, rfl, rfl, fun _ _ _ => rfl⟩
  step := by
    intro bf l call hrel
    obtain rfl := hrel.bits
    cases call with
    | set index value =>
      simp only [object, array, assertWithinBounds_bits]
      by_cases hin : 0 ≤ index ∧ index < bf.len
      · rw [hrel.spans.set_eq hin.1 hin.2, assertWithinBounds_of_lt hin.1 hin.2]
        exact ⟨hrel.write hin.1 hin.2 value, rfl⟩
      · obtain ⟨what, hassert, _, hset⟩ := outside bf beyond (i := index) (by omega)
        rw [hset, hassert]
        exact ⟨hrel, rfl⟩
    | get index =>
      simp only [object, array, assertWithinBounds_bits]
      by_cases hin : 0 ≤ index ∧ index < bf.len
      · rw [get_of_spans hrel.spans beyond hin.1 hin.2, assertWithinBounds_of_lt hin.1 hin.2]
        exact ⟨hrel, by rw [getElem?_bits hin.1 hin.2]⟩
      · obtain ⟨what, hassert, hget, _⟩ := outside bf beyond (i := index) (by omega)
        rw [hget, hassert]
        exact ⟨hrel, rfl⟩

/-- What a call of `set` leaves. -/
theorem object_step_set (beyond : Nat → Option UInt8) (h : bf.Spans) (i : Int) (value : Bool) :
    ((object beyond start).step bf (.set i value)).1
      = if 0 ≤ i ∧ i < bf.len then bf.write i value else bf := by
  simp only [object]
  by_cases hin : 0 ≤ i ∧ i < bf.len
  · rw [h.set_eq hin.1 hin.2, if_pos hin]
  · obtain ⟨what, _, _, hset⟩ := outside bf beyond (i := i) (by omega)
    rw [hset, if_neg hin]

/-- Calls of `set` for different indices commute, down to the bytes. -/
theorem set_comm (beyond : Nat → Option UInt8) (h : start.Spans) (hij : i ≠ j)
    (value value' : Bool) :
    (object beyond start).state [.set i value, .set j value']
      = (object beyond start).state [.set j value', .set i value] := by
  show ((object beyond start).step ((object beyond start).step start (.set i value)).1
      (.set j value')).1
    = ((object beyond start).step ((object beyond start).step start (.set j value')).1
      (.set i value)).1
  rw [object_step_set beyond h, object_step_set beyond h]
  by_cases hi : 0 ≤ i ∧ i < start.len
  · by_cases hj : 0 ≤ j ∧ j < start.len
    · rw [if_pos hi, if_pos hj, object_step_set beyond (h.write value),
        object_step_set beyond (h.write value'), len_write, len_write, if_pos hj, if_pos hi]
      exact h.write_comm hij hi.1 hi.2 hj.1 hj.2
    · rw [if_pos hi, if_neg hj, object_step_set beyond (h.write value),
        object_step_set beyond h, len_write, if_neg hj, if_pos hi]
  · by_cases hj : 0 ≤ j ∧ j < start.len
    · rw [if_neg hi, if_pos hj, object_step_set beyond (h.write value'),
        object_step_set beyond h, len_write, if_pos hj, if_neg hi]
    · rw [if_neg hi, if_neg hj, object_step_set beyond h, object_step_set beyond h, if_neg hi,
        if_neg hj]

/-- For every bitfield with storage for its bits: where each bit is, what a
    call of `set` changes and what it leaves alone, and which calls throw;
    and every sequence of calls is answered, and leaves the bits, as with an
    array of booleans. The last part is about new bitfields. -/
theorem bitfield_is_array (bf : Bitfield) (beyond : Nat → Option UInt8)
    (h : (bf.len + 7) / 8 ≤ bf.storage.length) :
    (∀ i, 0 ≤ i → i < bf.len → ∃ b, bf.storage[(i / 8).toNat]? = some b ∧
      bf.get beyond i = .ok (b.toNat.testBit (7 - (i % 8).toNat))) ∧
    (∀ i value, 0 ≤ i → i < bf.len → ∃ bf', bf.set i value = .ok bf' ∧ bf'.len = bf.len ∧
      bf'.storage.length = bf.storage.length ∧
      (∀ j, 0 ≤ j → j < bf.len →
        bf'.get beyond j = if i = j then .ok value else bf.get beyond j) ∧
      ∀ j, bf.len ≤ j → 0 ≤ j → bf'.bit j = bf.bit j) ∧
    (∀ i, i < 0 ∨ bf.len ≤ i → ∃ what,
      bf.get beyond i = .error (.throw (.invalidArgument what)) ∧
      ∀ value, bf.set i value = .error (.throw (.invalidArgument what)) ∧
        (object beyond bf).state [.set i value] = bf) ∧
    (∀ calls, (object beyond bf).results calls = (array bf.bits).results calls ∧
      ((object beyond bf).state calls).bits = (array bf.bits).state calls) ∧
    bf.bits.length = bf.len.toNat ∧
    (∀ i j value value', i ≠ j → (object beyond bf).state [.set i value, .set j value']
      = (object beyond bf).state [.set j value', .set i value]) ∧
    ∀ len, (∀ new, create len = .ok new → new.len = len ∧
        (new.storage.length : Int) = (len + 7) / 8 ∧ ∀ j, 0 ≤ j → new.bit j = false) ∧
      (0 ≤ len → len + 7 < 2 ^ 63 → ∃ new, create len = .ok new) := by
  have hspans : bf.Spans := by
    unfold Spans
    omega
  refine ⟨?_, ?_, ?_, ?_, length_bits bf, ?_, ?_⟩
  · intro i h0 hlt
    obtain ⟨b, hbyte⟩ := exists_byte (hspans.byte h0 hlt)
    have hoffset : (i % 8).toNat = i.toNat % 8 := by omega
    refine ⟨b, by rw [byteIndex_eq]; exact hbyte, ?_⟩
    rw [get_of_spans hspans beyond h0 hlt, bit_eq_bitAt h0, Bits.bitAt_of_byte hbyte, hoffset]
  · intro i value h0 hlt
    refine ⟨_, hspans.set_eq h0 hlt value, len_write, size_write, ?_, ?_⟩
    · intro j hj0 hjlt
      rw [get_of_spans (hspans.write value) beyond hj0 hjlt, hspans.bit_write h0 hlt hj0,
        get_of_spans hspans beyond hj0 hjlt]
      by_cases hij : i = j
      · rw [if_pos hij, if_pos hij]
      · rw [if_neg hij, if_neg hij]
    · intro j hle hj0
      rw [hspans.bit_write h0 hlt hj0, if_neg (by omega)]
  · intro i hout
    obtain ⟨what, _, hget, hset⟩ := outside bf beyond hout
    refine ⟨what, hget, fun value => ⟨hset value, ?_⟩⟩
    show ((object beyond bf).step bf (.set i value)).1 = bf
    rw [object_step_set beyond hspans, if_neg (by omega)]
  · intro calls
    have hsim := object_bisimulates beyond hspans
    exact ⟨hsim.results_eq calls, (hsim.state calls).bits⟩
  · intro i j value value' hij
    exact set_comm beyond hspans hij value value'
  · intro len
    exact ⟨fun new hnew => create_eq_ok hnew, create_returns⟩

/-- Eleven bits in two bytes, of which the last five are not used. -/
theorem bitfield_is_array_eleven :
    get ⟨[0x80, 0x21], 11⟩ (fun _ => none) 10 = .ok true ∧
    (object (fun _ => none) ⟨[0x80, 0x21], 11⟩).results
        [.set 10 false, .get 10, .get 0, .set 11 true]
      = (array (bits ⟨[0x80, 0x21], 11⟩)).results [.set 10 false, .get 10, .get 0, .set 11 true] :=
  ⟨by decide, ((bitfield_is_array ⟨[0x80, 0x21], 11⟩ (fun _ => none) (by decide)).2.2.2.1 _).1⟩

end Bitfield

end Furrent.Download
