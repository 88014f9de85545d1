import Furrent.Framework.Numeral

/-! # SHA-1

    The function of FIPS 180-4, section 6.1, on strings of bytes, and what a
    proof about an implementation needs of it:

    * the logical functions with `∨` in place of `⊕`, as they are often
      written (`ch_eq_or`, `maj_eq_or`);
    * a compression depends on the sixteen words of its block only
      (`compress_congr`);
    * the words of a string that is built byte by byte (`wordAt_concat`),
      where the bytes that are missing count as zero;
    * the blocks of a padded message: those of the message itself
      (`chain_append`), and one or two more (`wordAt_pad`). -/

namespace Sha1

abbrev Word := BitVec 32

/-! ### The compression -/

/-- `ROTL`. -/
def rotl (n : Nat) (x : Word) : Word := x <<< n ||| x >>> (32 - n)

def ch (x y z : Word) : Word := (x &&& y) ^^^ (~~~x &&& z)

def parity (x y z : Word) : Word := x ^^^ y ^^^ z

def maj (x y z : Word) : Word := (x &&& y) ^^^ (x &&& z) ^^^ (y &&& z)

/-- The function of round `t`. -/
def f (t : Nat) : Word → Word → Word → Word :=
  if t < 20 then ch else if t < 40 then parity else if t < 60 then maj else parity

/-- The constant of round `t`. -/
def k (t : Nat) : Word :=
  if t < 20 then 0x5a827999
  else if t < 40 then 0x6ed9eba1
  else if t < 60 then 0x8f1bbcdc
  else 0xca62c1d6

/-- The working variables, and the hash value between two blocks. -/
structure Vars where
  a : Word
  b : Word
  c : Word
  d : Word
  e : Word
  deriving DecidableEq, Repr

/-- The message schedule of a block. -/
def schedule (block : Nat → Word) (t : Nat) : Word :=
  if t < 16 then block t
  else rotl 1 (schedule block (t - 3) ^^^ schedule block (t - 8) ^^^ schedule block (t - 14)
    ^^^ schedule block (t - 16))

/-- Round `t`. -/
def step (block : Nat → Word) (t : Nat) (v : Vars) : Vars where
  a := rotl 5 v.a + f t v.b v.c v.d + v.e + k t + schedule block t
  b := v.a
  c := rotl 30 v.b
  d := v.c
  e := v.d

/-- The first `t` rounds. -/
def rounds (block : Nat → Word) (v : Vars) : Nat → Vars
  | 0 => v
  | t + 1 => step block t (rounds block v t)

def Vars.add (h v : Vars) : Vars := ⟨h.a + v.a, h.b + v.b, h.c + v.c, h.d + v.d, h.e + v.e⟩

def compress (h : Vars) (block : Nat → Word) : Vars := h.add (rounds block h 80)

/-! ### Messages -/

/-- Four bytes, the first one in front. -/
def word (b₀ b₁ b₂ b₃ : UInt8) : Word :=
  b₀.toBitVec ++ b₁.toBitVec ++ b₂.toBitVec ++ b₃.toBitVec

/-- The word at byte `i`. -/
def wordAt (bytes : Bytes) (i : Nat) : Word :=
  word (bytes.getD i 0) (bytes.getD (i + 1) 0) (bytes.getD (i + 2) 0) (bytes.getD (i + 3) 0)

/-- The initial hash value. -/
def initial : Vars := ⟨0x67452301, 0xefcdab89, 0x98badcfe, 0x10325476, 0xc3d2e1f0⟩

/-- The hash value after the first `n` blocks. -/
def chain (bytes : Bytes) : Nat → Vars
  | 0 => initial
  | n + 1 => compress (chain bytes n) fun t => wordAt bytes (64 * n + 4 * t)

/-- The zeros that fill up the last block. -/
def zeros (length : Nat) : Nat := (119 - length % 64) % 64

/-- A one, zeros, and the number of bits. -/
def pad (message : Bytes) : Bytes :=
  message ++ 0x80 :: (List.replicate (zeros message.length) 0
    ++ Numeral.bigEndian 8 (8 * message.length))

def digest (h : Vars) : Bytes :=
  Numeral.bigEndian 4 h.a.toNat ++ Numeral.bigEndian 4 h.b.toNat ++ Numeral.bigEndian 4 h.c.toNat
    ++ Numeral.bigEndian 4 h.d.toNat ++ Numeral.bigEndian 4 h.e.toNat

def sha1 (message : Bytes) : Bytes := digest (chain (pad message) ((pad message).length / 64))

/-! ### Logical functions -/

theorem ch_eq_or (x y z : Word) : ch x y z = (x &&& y) ||| (~~~x &&& z) := by
  apply BitVec.eq_of_getLsbD_eq
  intro i hi
  simp only [ch, BitVec.getLsbD_xor, BitVec.getLsbD_or, BitVec.getLsbD_and, BitVec.getLsbD_not, hi]
  cases x.getLsbD i
  · simp
  · simp

theorem maj_eq_or (x y z : Word) : maj x y z = (x &&& y) ||| (x &&& z) ||| (y &&& z) := by
  apply BitVec.eq_of_getLsbD_eq
  intro i _
  simp only [maj, BitVec.getLsbD_xor, BitVec.getLsbD_or, BitVec.getLsbD_and]
  cases x.getLsbD i
  · simp
  · cases y.getLsbD i
    · simp
    · simp

/-! ### Schedules -/

variable {block block' : Nat → Word}

theorem schedule_of_lt {t : Nat} (h : t < 16) : schedule block t = block t := by
  rw [schedule, if_pos h]

theorem schedule_of_le {t : Nat} (h : 16 ≤ t) :
    schedule block t = rotl 1 (schedule block (t - 3) ^^^ schedule block (t - 8)
      ^^^ schedule block (t - 14) ^^^ schedule block (t - 16)) := by
  rw [schedule, if_neg (by omega)]

theorem schedule_congr (h : ∀ t < 16, block t = block' t) (t : Nat) :
    schedule block t = schedule block' t := by
  induction t using Nat.strong_induction_on with
  | _ t ih =>
    by_cases ht : t < 16
    · rw [schedule_of_lt ht, schedule_of_lt ht, h t ht]
    · have hle : 16 ≤ t := by omega
      rw [@schedule_of_le block t hle, @schedule_of_le block' t hle, ih (t - 3) (by omega),
        ih (t - 8) (by omega), ih (t - 14) (by omega), ih (t - 16) (by omega)]

theorem rounds_congr (h : ∀ t < 16, block t = block' t) (v : Vars) (t : Nat) :
    rounds block v t = rounds block' v t := by
  induction t with
  | zero => rfl
  | succ t ih => rw [rounds, rounds, ih, step, step, schedule_congr h]

theorem compress_congr (h : ∀ t < 16, block t = block' t) (v : Vars) :
    compress v block = compress v block' := by
  rw [compress, compress, rounds_congr h]

/-! ### Words -/

/-- A byte as a word. -/
def byte (b : UInt8) : Word := b.toBitVec.setWidth 32

theorem getLsbD_byte_of_le (b : UInt8) {i : Nat} (h : 8 ≤ i) : (byte b).getLsbD i = false := by
  rw [byte, BitVec.getLsbD_setWidth, BitVec.getLsbD_of_ge _ _ h, Bool.and_false]

theorem getLsbD_byte (b : UInt8) {i : Nat} (h : i < 32) :
    (byte b).getLsbD i = b.toBitVec.getLsbD i := by
  rw [byte, BitVec.getLsbD_setWidth, decide_eq_true h, Bool.true_and]

theorem word_eq_or (b₀ b₁ b₂ b₃ : UInt8) :
    word b₀ b₁ b₂ b₃ = byte b₃ ||| byte b₂ <<< 8 ||| byte b₁ <<< 16 ||| byte b₀ <<< 24 := by
  apply BitVec.eq_of_getLsbD_eq
  intro i hi
  simp only [word, BitVec.getLsbD_append, BitVec.getLsbD_or, BitVec.getLsbD_shiftLeft]
  by_cases h8 : i < 8
  · simp [h8, getLsbD_byte _ hi, show i < 16 by omega, show i < 24 by omega]
  · rw [getLsbD_byte_of_le _ (by omega)]
    by_cases h16 : i < 16
    · simp [h8, h16, hi, getLsbD_byte _ (show i - 8 < 32 by omega), show i < 24 by omega,
        show i - 8 < 8 by omega]
    · rw [getLsbD_byte_of_le _ (by omega)]
      by_cases h24 : i < 24
      · simp [h8, h16, h24, hi, getLsbD_byte _ (show i - 16 < 32 by omega),
          show ¬ i - 8 < 8 by omega, show i - 16 < 8 by omega, show i - 8 - 8 = i - 16 by omega]
      · rw [getLsbD_byte_of_le _ (by omega)]
        simp [h8, h16, h24, hi, getLsbD_byte _ (show i - 24 < 32 by omega),
          show ¬ i - 8 < 8 by omega, show ¬ i - 8 - 8 < 8 by omega,
          show i - 8 - 8 - 8 = i - 24 by omega]

theorem byte_zero : byte 0 = 0#32 := by decide

/-! A word whose bytes are put in one after the other. -/

theorem word_first (x : UInt8) : word x 0 0 0 = word 0 0 0 0 ||| byte x <<< ((3 - 0) * 8) := by
  simp only [word_eq_or, byte_zero, BitVec.zero_shiftLeft, BitVec.zero_or]

theorem word_second (b₀ x : UInt8) :
    word b₀ x 0 0 = word b₀ 0 0 0 ||| byte x <<< ((3 - 1) * 8) := by
  simp only [word_eq_or, byte_zero, BitVec.zero_shiftLeft, BitVec.zero_or]
  exact BitVec.or_comm ..

theorem word_third (b₀ b₁ x : UInt8) :
    word b₀ b₁ x 0 = word b₀ b₁ 0 0 ||| byte x <<< ((3 - 2) * 8) := by
  simp only [word_eq_or, byte_zero, BitVec.zero_shiftLeft, BitVec.zero_or]
  rw [BitVec.or_assoc, BitVec.or_comm]

theorem word_fourth (b₀ b₁ b₂ x : UInt8) :
    word b₀ b₁ b₂ x = word b₀ b₁ b₂ 0 ||| byte x <<< ((3 - 3) * 8) := by
  rw [word_eq_or, word_eq_or, byte_zero, BitVec.zero_or, Nat.sub_self, Nat.zero_mul,
    BitVec.shiftLeft_zero, BitVec.or_assoc, BitVec.or_assoc, BitVec.or_comm, ← BitVec.or_assoc]

/-! ### Words of a string -/

theorem getD_of_le {bytes : Bytes} {i : Nat} (h : bytes.length ≤ i) : bytes.getD i 0 = 0 := by
  rw [List.getD_eq_getElem?_getD, List.getElem?_eq_none h]
  rfl

theorem getD_concat (bytes : Bytes) (x : UInt8) (i : Nat) :
    (bytes ++ [x]).getD i 0 = if i = bytes.length then x else bytes.getD i 0 := by
  simp only [List.getD_eq_getElem?_getD]
  by_cases h : i = bytes.length
  · simp [h]
  · by_cases hlt : i < bytes.length
    · simp [h, List.getElem?_append_left hlt]
    · rw [if_neg h, List.getElem?_eq_none (by simp; omega), List.getElem?_eq_none (by omega)]

/-- A byte at the end changes one word. -/
theorem wordAt_concat (bytes : Bytes) (x : UInt8) (t : Nat) :
    wordAt (bytes ++ [x]) (4 * t) = if t = bytes.length / 4 then
        wordAt bytes (4 * t) ||| byte x <<< ((3 - bytes.length % 4) * 8)
      else wordAt bytes (4 * t) := by
  simp only [wordAt, getD_concat]
  by_cases ht : t = bytes.length / 4
  · rw [if_pos ht]
    -- The bytes behind it are missing.
    have hmissing : ∀ i, bytes.length ≤ i → bytes.getD i 0 = 0 := fun i => getD_of_le
    obtain h | h | h | h : bytes.length % 4 = 0 ∨ bytes.length % 4 = 1 ∨ bytes.length % 4 = 2 ∨
        bytes.length % 4 = 3 := by omega
    · rw [if_pos (by omega), if_neg (by omega), if_neg (by omega), if_neg (by omega), h,
        hmissing (4 * t) (by omega), hmissing (4 * t + 1) (by omega),
        hmissing (4 * t + 2) (by omega), hmissing (4 * t + 3) (by omega), word_first]
    · rw [if_neg (by omega), if_pos (by omega), if_neg (by omega), if_neg (by omega), h,
        hmissing (4 * t + 1) (by omega), hmissing (4 * t + 2) (by omega),
        hmissing (4 * t + 3) (by omega), word_second]
    · rw [if_neg (by omega), if_neg (by omega), if_pos (by omega), if_neg (by omega), h,
        hmissing (4 * t + 2) (by omega), hmissing (4 * t + 3) (by omega), word_third]
    · rw [if_neg (by omega), if_neg (by omega), if_neg (by omega), if_pos (by omega), h,
        hmissing (4 * t + 3) (by omega), word_fourth]
  · rw [if_neg ht, if_neg (by omega), if_neg (by omega), if_neg (by omega), if_neg (by omega)]

theorem wordAt_append_left {x y : Bytes} {i : Nat} (h : i + 4 ≤ x.length) :
    wordAt (x ++ y) i = wordAt x i := by
  have hget : ∀ j, j < x.length → (x ++ y).getD j 0 = x.getD j 0 := by
    intro j hj
    rw [List.getD_eq_getElem?_getD, List.getD_eq_getElem?_getD, List.getElem?_append_left hj]
  rw [wordAt, wordAt, hget _ (by omega), hget _ (by omega), hget _ (by omega), hget _ (by omega)]

theorem wordAt_append_right {x y : Bytes} {n : Nat} (h : x.length = n) (i : Nat) :
    wordAt (x ++ y) (n + i) = wordAt y i := by
  have hget : ∀ j, (x ++ y).getD (n + j) 0 = y.getD j 0 := by
    intro j
    rw [List.getD_eq_getElem?_getD, List.getD_eq_getElem?_getD,
      List.getElem?_append_right (by omega), h, Nat.add_sub_cancel_left]
  simp only [wordAt, Nat.add_assoc, hget]

/-- Zeros at the end change nothing. -/
theorem wordAt_append_zeros (x : Bytes) (n i : Nat) :
    wordAt (x ++ List.replicate n 0) i = wordAt x i := by
  have hget : ∀ j, (x ++ List.replicate n 0).getD j 0 = x.getD j 0 := by
    intro j
    by_cases hj : j < x.length
    · rw [List.getD_eq_getElem?_getD, List.getD_eq_getElem?_getD, List.getElem?_append_left hj]
    · rw [getD_of_le (Nat.le_of_not_lt hj), List.getD_eq_getElem?_getD,
        List.getElem?_append_right (Nat.le_of_not_lt hj), List.getElem?_replicate]
      split
      · rfl
      · rfl
  simp only [wordAt, hget]

theorem wordAt_of_le {x : Bytes} {i : Nat} (h : x.length ≤ i) : wordAt x i = 0 := by
  rw [wordAt, getD_of_le h, getD_of_le (by omega), getD_of_le (by omega), getD_of_le (by omega)]
  rfl

/-! ### Numbers -/

theorem toNat_byte (n : Nat) : (UInt8.ofNat n).toBitVec.toNat = n % 256 := UInt8.toNat_ofNat'

theorem word_ofNat (n : Nat) :
    word (UInt8.ofNat (n / 256 / 256 / 256)) (UInt8.ofNat (n / 256 / 256)) (UInt8.ofNat (n / 256))
      (UInt8.ofNat n) = BitVec.ofNat 32 n := by
  apply BitVec.eq_of_toNat_eq
  have hor : ∀ a b, (a <<< 8 ||| b % 256) = a * 256 + b % 256 := by
    intro a b
    rw [← Nat.shiftLeft_add_eq_or_of_lt (show b % 256 < 2 ^ 8 by omega), Nat.shiftLeft_eq]
  simp only [word, BitVec.toNat_append, BitVec.toNat_ofNat, toNat_byte, hor]
  omega

/-- The first word of a numeral of four bytes. -/
theorem wordAt_bigEndian (n : Nat) (rest : Bytes) :
    wordAt (Numeral.bigEndian 4 n ++ rest) 0 = BitVec.ofNat 32 n := by
  rw [← word_ofNat n]
  rfl

theorem bigEndian_eight (n : Nat) :
    Numeral.bigEndian 8 n = Numeral.bigEndian 4 (n / 2 ^ 32) ++ Numeral.bigEndian 4 n := by
  simp only [Numeral.bigEndian, List.nil_append, List.append_assoc, List.singleton_append,
    Nat.div_div_eq_div_mul]
  rfl

/-! ### The blocks of a padded message -/

theorem chain_append {x y : Bytes} {n : Nat} (h : 64 * n ≤ x.length) :
    chain (x ++ y) n = chain x n := by
  induction n with
  | zero => rfl
  | succ n ih =>
    rw [chain, chain, ih (by omega)]
    apply compress_congr
    intro t ht
    exact wordAt_append_left (by omega)

variable {message : Bytes}

theorem length_pad : (pad message).length = message.length + zeros message.length + 9 := by
  simp [pad]
  omega

/-- What is left after the full blocks, with the one behind it. -/
def tail (message : Bytes) : Bytes := message.drop (64 * (message.length / 64)) ++ [0x80]

theorem length_tail : (tail message).length = message.length % 64 + 1 := by
  simp [tail]
  omega

/-- The words behind the full blocks. -/
theorem wordAt_pad (i : Nat) :
    wordAt (pad message) (64 * (message.length / 64) + i)
      = wordAt (tail message ++ List.replicate (zeros message.length) 0
          ++ Numeral.bigEndian 8 (8 * message.length)) i := by
  have hlength : (message.take (64 * (message.length / 64))).length
      = 64 * (message.length / 64) := by
    rw [List.length_take]
    omega
  have hpad : pad message = message.take (64 * (message.length / 64))
      ++ (tail message ++ List.replicate (zeros message.length) 0
          ++ Numeral.bigEndian 8 (8 * message.length)) := by
    rw [tail, List.append_assoc, List.append_assoc, ← List.append_assoc, List.take_append_drop, pad]
    rfl
  rw [hpad, wordAt_append_right hlength]

/-- In front of the length there are zeros. -/
theorem wordAt_pad_of_le {i : Nat} (h : i + 4 ≤ message.length % 64 + zeros message.length + 1) :
    wordAt (pad message) (64 * (message.length / 64) + i) = wordAt (tail message) i := by
  rw [wordAt_pad, wordAt_append_left, wordAt_append_zeros]
  rw [List.length_append, length_tail, List.length_replicate]
  omega

/-- The number of bits stands at the end, as two words. -/
theorem wordAt_pad_length (message : Bytes) {i : Nat}
    (h : i = message.length % 64 + zeros message.length + 1) :
    wordAt (pad message) (64 * (message.length / 64) + i)
      = BitVec.ofNat 32 (8 * message.length / 2 ^ 32) ∧
    wordAt (pad message) (64 * (message.length / 64) + (i + 4))
      = BitVec.ofNat 32 (8 * message.length) := by
  have hlength : (tail message ++ List.replicate (zeros message.length) 0).length = i := by
    rw [List.length_append, length_tail, List.length_replicate]
    omega
  rw [wordAt_pad, wordAt_pad, bigEndian_eight, wordAt_append_right hlength 4]
  constructor
  · exact (wordAt_append_right hlength 0).trans (wordAt_bigEndian ..)
  · have hword := wordAt_bigEndian (8 * message.length) []
    rw [List.append_nil] at hword
    exact (wordAt_append_right (Numeral.length_bigEndian 4 _) 0).trans hword

/-- The last two words of a message's last block. -/
def lengthWords (length : Nat) (block : Nat → Word) (t : Nat) : Word :=
  if t = 14 then BitVec.ofNat 32 (8 * length / 2 ^ 32)
  else if t = 15 then BitVec.ofNat 32 (8 * length)
  else block t

/-- There is room for the length in the block of the tail. -/
theorem sha1_of_short (h : message.length % 64 < 56) :
    sha1 message = digest (compress (chain message (message.length / 64))
      (lengthWords message.length fun t => wordAt (tail message) (4 * t))) := by
  have hzeros : zeros message.length = 55 - message.length % 64 := by
    rw [zeros]
    omega
  have hblocks : (pad message).length / 64 = message.length / 64 + 1 := by
    rw [length_pad, hzeros]
    omega
  have hwords : ∀ t < 16, wordAt (pad message) (64 * (message.length / 64) + 4 * t)
      = lengthWords message.length (fun t => wordAt (tail message) (4 * t)) t := by
    intro t ht
    obtain ⟨hhigh, hlow⟩ := wordAt_pad_length message (i := 56) (by omega)
    by_cases h14 : t = 14
    · rw [lengthWords, if_pos h14, h14, ← hhigh]
    · by_cases h15 : t = 15
      · rw [lengthWords, if_neg h14, if_pos h15, h15, ← hlow]
      · rw [lengthWords, if_neg h14, if_neg h15]
        exact wordAt_pad_of_le (by omega)
  rw [sha1, hblocks, chain, compress_congr hwords, pad, chain_append (by omega)]

/-- The length needs a block of its own. -/
theorem sha1_of_long (h : 56 ≤ message.length % 64) :
    sha1 message = digest (compress (compress (chain message (message.length / 64))
      fun t => wordAt (tail message) (4 * t)) (lengthWords message.length fun _ => 0)) := by
  have hzeros : zeros message.length = 119 - message.length % 64 := by
    rw [zeros]
    omega
  have hblocks : (pad message).length / 64 = message.length / 64 + 1 + 1 := by
    rw [length_pad, hzeros]
    omega
  have hfirst : ∀ t < 16, wordAt (pad message) (64 * (message.length / 64) + 4 * t)
      = wordAt (tail message) (4 * t) := fun t ht => wordAt_pad_of_le (by omega)
  have hsecond : ∀ t < 16, wordAt (pad message) (64 * (message.length / 64 + 1) + 4 * t)
      = lengthWords message.length (fun _ => 0) t := by
    intro t ht
    obtain ⟨hhigh, hlow⟩ := wordAt_pad_length message (i := 120) (by omega)
    rw [show 64 * (message.length / 64 + 1) + 4 * t = 64 * (message.length / 64) + (64 + 4 * t) by
      omega]
    by_cases h14 : t = 14
    · rw [lengthWords, if_pos h14, h14, ← hhigh]
    · by_cases h15 : t = 15
      · rw [lengthWords, if_neg h14, if_pos h15, h15, ← hlow]
      · rw [lengthWords, if_neg h14, if_neg h15, wordAt_pad_of_le (by omega)]
        exact wordAt_of_le (by rw [length_tail]; omega)
  rw [sha1, hblocks, chain, compress_congr hsecond, chain, compress_congr hfirst, pad,
    chain_append (by omega)]

end Sha1
