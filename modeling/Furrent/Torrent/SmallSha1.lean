import Furrent.Framework.Array
import Furrent.Framework.Sha1
import Furrent.Torrent.Hash
import Furrent.Download.Downloader

/-! # The bundled SHA-1

    Model of `third_party/smallsha1/sha1.cpp` and of the three functions of
    `src/hash.cpp` that call it. The arrays are C arrays: the round buffer
    `w` of eighty words, the five words of `result` and the twenty bytes of
    `hash`, where `w` and `hash` are not initialised. An access outside and
    an overflow of `bytelength << 3` are undefined.

    `sha1::calc` is SHA-1 for every message below 2²⁹ bytes (`sha1Calc_eq`). The
    checks of the callers let messages through that are four times as
    long. -/

namespace Furrent.SmallSha1

open Cpp Sha1

/-! ## The program -/

/-- `rol`. -/
def rol (value : Word) (steps : Nat) : Word := value <<< steps ||| value >>> (32 - steps)

/-- `clearWBuffert`. -/
def clearWBuffert (buffert : List Word) : Outcome Empty (List Word) :=
  downFrom (fun pos buffert => arraySet buffert pos 0) 16 buffert

/-- The round buffer and the variables `a` to `e` of `innerHash`. -/
structure Turn where
  w : List Word
  vars : Vars

/-- `sha1macro(func, val)`, with `func` as a function of `b`, `c` and `d`. -/
def sha1Macro (func : Word → Word → Word → Word) (val : Word) (round : Nat) (s : Turn) :
    Outcome Empty Turn := do
  let t := rol s.vars.a 5 + func s.vars.b s.vars.c s.vars.d + s.vars.e + val
    + (← arrayGet s.w round)
  return { s with vars := ⟨t, s.vars.a, rol s.vars.b 30, s.vars.c, s.vars.d⟩ }

/-- `w[round] = rol(w[round - 3] ^ …, 1)`. -/
def extend (round : Nat) (s : Turn) : Outcome Empty Turn := do
  let x := (← arrayGet s.w (round - 3)) ^^^ (← arrayGet s.w (round - 8))
    ^^^ (← arrayGet s.w (round - 14)) ^^^ (← arrayGet s.w (round - 16))
  return { s with w := ← arraySet s.w round (rol x 1) }

/-- The body of the last four loops of `innerHash`. -/
def turn (func : Word → Word → Word → Word) (val : Word) (round : Nat) (s : Turn) :
    Outcome Empty Turn := do
  let s ← extend round s
  sha1Macro func val round s

/-- `result[i] += x`. -/
def addTo (result : List Word) (i : Nat) (x : Word) : Outcome Empty (List Word) := do
  arraySet result i ((← arrayGet result i) + x)

/-- `innerHash`. Both arrays are changed in place. -/
def innerHash (result w : List Word) : Outcome Empty (List Word × List Word) := do
  let vars : Vars := ⟨← arrayGet result 0, ← arrayGet result 1, ← arrayGet result 2,
    ← arrayGet result 3, ← arrayGet result 4⟩
  let s : Turn := ⟨w, vars⟩
  let s ← upTo 16 (sha1Macro (fun b c d => (b &&& c) ||| (~~~b &&& d)) 0x5a827999) 0 s
  let s ← upTo 20 (turn (fun b c d => (b &&& c) ||| (~~~b &&& d)) 0x5a827999) 16 s
  let s ← upTo 40 (turn (fun b c d => b ^^^ c ^^^ d) 0x6ed9eba1) 20 s
  let s ← upTo 60 (turn (fun b c d => (b &&& c) ||| (b &&& d) ||| (c &&& d)) 0x8f1bbcdc) 40 s
  let s ← upTo 80 (turn (fun b c d => b ^^^ c ^^^ d) 0xca62c1d6) 60 s
  let result ← addTo result 0 s.vars.a
  let result ← addTo result 1 s.vars.b
  let result ← addTo result 2 s.vars.c
  let result ← addTo result 3 s.vars.d
  let result ← addTo result 4 s.vars.e
  return (result, s.w)

/-- The loop that fills the round buffer with a block. -/
def loadBlock (sarray : Bytes) (endCurrentBlock currentBlock roundPos : Nat) (w : List Word) :
    Outcome Empty (List Word) :=
  if currentBlock < endCurrentBlock then do
    let x := byte (← arrayGet sarray (currentBlock + 3))
      ||| byte (← arrayGet sarray (currentBlock + 2)) <<< 8
      ||| byte (← arrayGet sarray (currentBlock + 1)) <<< 16
      ||| byte (← arrayGet sarray currentBlock) <<< 24
    let w ← arraySet w roundPos x
    loadBlock sarray endCurrentBlock (currentBlock + 4) (roundPos + 1) w
  else .ok w
termination_by endCurrentBlock - currentBlock

/-- What the loop over the full blocks leaves behind. -/
structure Blocks where
  currentBlock : Nat
  result : List Word
  w : List Word

/-- The loop over the full blocks. Sixteen words of four bytes lead
    `currentBlock` to `endCurrentBlock`. -/
def fullBlocks (sarray : Bytes) (endOfFullBlocks : Int) (currentBlock : Nat)
    (result w : List Word) : Outcome Empty Blocks :=
  if currentBlock ≤ endOfFullBlocks then do
    let endCurrentBlock := currentBlock + 64
    let w ← loadBlock sarray endCurrentBlock currentBlock 0 w
    let (result, w) ← innerHash result w
    fullBlocks sarray endOfFullBlocks endCurrentBlock result w
  else .ok ⟨currentBlock, result, w⟩
termination_by (endOfFullBlocks + 1 - currentBlock).toNat

/-- `w[i >> 2] |= x << ((3 - (i & 3)) << 3)`. -/
def orByte (w : List Word) (i : Nat) (x : UInt8) : Outcome Empty (List Word) := do
  arraySet w (i / 4) ((← arrayGet w (i / 4)) ||| byte x <<< ((3 - i % 4) * 8))

/-- A round of the loop over the bytes of the last block. -/
def lastByte (sarray : Bytes) (currentBlock lastBlockBytes : Nat) (w : List Word) :
    Outcome Empty (List Word) := do
  orByte w lastBlockBytes (← arrayGet sarray (lastBlockBytes + currentBlock))

/-- `bytelength << 3` for an `int`, stored in an `unsigned int`. The shift is
    defined as long as the product fits into an `unsigned int`. -/
def bitLength (bytelength : Nat) : Outcome Empty Word :=
  if bytelength * 8 < 2 ^ 32 then .ok (BitVec.ofNat 32 (bytelength * 8)) else .error .trap

/-- A round of the loop that stores the hash. `(3 - hashByte) & 0x3` is a
    remainder, also where the difference is negative. -/
def storeByte (result : List Word) (hashByte : Nat) (hash : Bytes) : Outcome Empty Bytes := do
  let x ← arrayGet result (hashByte / 4)
  let shift := ((3 - (hashByte : Int)) % 4).toNat * 8
  arraySet hash hashByte (UInt8.ofNat (x >>> shift &&& 0xff).toNat)

/-- A block without room for the length is hashed by itself. -/
def makeRoom (endCurrentBlock : Nat) (result w : List Word) :
    Outcome Empty (List Word × List Word) :=
  if 56 ≤ endCurrentBlock then do
    let (result, w) ← innerHash result w
    let w ← clearWBuffert w
    return (result, w)
  else .ok (result, w)

/-- `sha1::calc`. The callers' lengths are not negative. -/
def sha1Calc (w : List Word) (src : Bytes) (bytelength : Nat) (hash : Bytes) :
    Outcome Empty Bytes := do
  let result : List Word := [0x67452301, 0xefcdab89, 0x98badcfe, 0x10325476, 0xc3d2e1f0]
  let endOfFullBlocks : Int := bytelength - 64
  let s ← fullBlocks src endOfFullBlocks 0 result w
  let endCurrentBlock := bytelength - s.currentBlock
  let w ← clearWBuffert s.w
  let w ← upTo endCurrentBlock (lastByte src s.currentBlock) 0 w
  let w ← orByte w endCurrentBlock 0x80
  let (result, w) ← makeRoom endCurrentBlock s.result w
  let w ← arraySet w 15 (← bitLength bytelength)
  let (result, _) ← innerHash result w
  downFrom (storeByte result) 20 hash

/-! ## The inner hash -/

/-- The five words of `result`. -/
def words (h : Vars) : List Word := [h.a, h.b, h.c, h.d, h.e]

/-- The buffer has its eighty words, and the first sixteen are `block`. -/
structure Holds (w : List Word) (block : Nat → Word) : Prop where
  length : w.length = 80
  block : ∀ t < 16, w[t]? = some (block t)

/-- After `t` rounds on `block` from the hash value `h`, with the words of
    the schedule below `n` in the buffer. -/
structure Turned (block : Nat → Word) (h : Vars) (n t : Nat) (s : Turn) : Prop where
  length : s.w.length = 80
  schedule : ∀ i, i < 16 ∨ i < n → s.w[i]? = some (schedule block i)
  vars : s.vars = rounds block h t

section

variable {block : Nat → Word} {h : Vars} {n t : Nat} {s : Turn} {w : List Word}
  {func : Word → Word → Word → Word} {val : Word}

theorem sha1Macro_turned (ht : t < 16 ∨ t < n) (hfunc : func = f t) (hval : val = k t)
    (hs : Turned block h n t s) :
    ∃ s', sha1Macro func val t s = .ok s' ∧ Turned block h n (t + 1) s' := by
  refine ⟨⟨s.w, step block t (rounds block h t)⟩, ?_, hs.length, hs.schedule, rfl⟩
  rw [sha1Macro, arrayGet_ok (hs.schedule t ht), ok_bind, hfunc, hval, hs.vars]
  rfl

/-- The next word of the schedule. -/
theorem extend_turned (hle : 16 ≤ t) (hlt : t < 80) (hs : Turned block h t t s) :
    ∃ s', extend t s = .ok s' ∧ Turned block h (t + 1) t s' := by
  have hget : ∀ i, i < t → (arrayGet s.w i : Outcome Empty Word) = .ok (schedule block i) :=
    fun i hi => arrayGet_ok (hs.schedule i (Or.inr hi))
  have hset : t < s.w.length := by
    rw [hs.length]
    exact hlt
  refine ⟨⟨s.w.set t (schedule block t), s.vars⟩, ?_, ?_, ?_, hs.vars⟩
  · rw [extend, hget _ (by omega), hget _ (by omega), hget _ (by omega), hget _ (by omega),
      schedule_of_le hle]
    simp only [ok_bind, arraySet_ok _ hset]
    rfl
  · rw [List.length_set, hs.length]
  · intro i hi
    by_cases hit : i = t
    · rw [hit, List.getElem?_set_self hset]
    · rw [List.getElem?_set_ne (Ne.symm hit)]
      exact hs.schedule i (by omega)

theorem turn_turned (hle : 16 ≤ t) (hlt : t < 80) (hfunc : func = f t) (hval : val = k t)
    (hs : Turned block h t t s) :
    ∃ s', turn func val t s = .ok s' ∧ Turned block h (t + 1) (t + 1) s' := by
  obtain ⟨s₁, hs₁, h₁⟩ := extend_turned hle hlt hs
  obtain ⟨s', hs', h'⟩ := sha1Macro_turned (Or.inr (Nat.lt_succ_self t)) hfunc hval h₁
  refine ⟨s', ?_, h'⟩
  rw [turn, hs₁]
  exact hs'

/-- One of the last four loops. -/
theorem turns {lo hi : Nat} (hlo : 16 ≤ lo) (hle : lo ≤ hi) (hhi : hi ≤ 80)
    (hround : ∀ t, lo ≤ t → t < hi → func = f t ∧ val = k t) (hs : Turned block h lo lo s) :
    ∃ s', upTo hi (turn func val) lo s = .ok s' ∧ Turned block h hi hi s' := by
  obtain ⟨s', hs', _, h'⟩ := @upTo_ok Empty Turn (turn func val)
    (fun t s => lo ≤ t ∧ Turned block h t t s) hi lo s (by
      rintro t s ht ⟨hlot, hs⟩
      obtain ⟨hfunc, hval⟩ := hround t hlot ht
      obtain ⟨s', hs', h'⟩ := turn_turned (by omega) (by omega) hfunc hval hs
      exact ⟨s', hs', by omega, h'⟩) hle ⟨Nat.le_refl lo, hs⟩
  exact ⟨s', hs', h'⟩

theorem f_ch (ht : t < 20) : (fun b c d => (b &&& c) ||| (~~~b &&& d)) = f t := by
  rw [f, if_pos ht]
  funext b c d
  exact (ch_eq_or b c d).symm

theorem f_maj (hle : 40 ≤ t) (hlt : t < 60) :
    (fun b c d => (b &&& c) ||| (b &&& d) ||| (c &&& d)) = f t := by
  rw [f, if_neg (by omega), if_neg (by omega), if_pos hlt]
  funext b c d
  exact (maj_eq_or b c d).symm

theorem f_parity (ht : 20 ≤ t ∧ t < 40 ∨ 60 ≤ t) : (fun b c d => b ^^^ c ^^^ d) = f t := by
  rw [f, if_neg (by omega)]
  by_cases h40 : t < 40
  · rw [if_pos h40]
    rfl
  · rw [if_neg h40, if_neg (by omega)]
    rfl

/-- The five loops are the eighty rounds. -/
theorem loops_turned (hw : Holds w block) :
    ∃ s₁ s₂ s₃ s₄ s₅,
      upTo 16 (sha1Macro (fun b c d => (b &&& c) ||| (~~~b &&& d)) 0x5a827999) 0 ⟨w, h⟩ = .ok s₁ ∧
      upTo 20 (turn (fun b c d => (b &&& c) ||| (~~~b &&& d)) 0x5a827999) 16 s₁ = .ok s₂ ∧
      upTo 40 (turn (fun b c d => b ^^^ c ^^^ d) 0x6ed9eba1) 20 s₂ = .ok s₃ ∧
      upTo 60 (turn (fun b c d => (b &&& c) ||| (b &&& d) ||| (c &&& d)) 0x8f1bbcdc) 40 s₃
        = .ok s₄ ∧
      upTo 80 (turn (fun b c d => b ^^^ c ^^^ d) 0xca62c1d6) 60 s₄ = .ok s₅ ∧
      Turned block h 80 80 s₅ := by
  have hstart : Turned block h 16 0 ⟨w, h⟩ := by
    refine ⟨hw.length, ?_, rfl⟩
    intro i hi
    have hlt : i < 16 := by omega
    rw [schedule_of_lt hlt]
    exact hw.block i hlt
  obtain ⟨s₁, hs₁, h₁⟩ := @upTo_ok Empty Turn
    (sha1Macro (fun b c d => (b &&& c) ||| (~~~b &&& d)) 0x5a827999)
    (fun t s => Turned block h 16 t s) 16 0 _ (by
      intro t s ht hs
      exact sha1Macro_turned (Or.inl ht) (f_ch (by omega))
        (by rw [k, if_pos (by omega)]) hs) (by omega) hstart
  obtain ⟨s₂, hs₂, h₂⟩ := turns (Nat.le_refl 16) (show 16 ≤ 20 by omega) (by omega)
    (fun t _ ht => ⟨f_ch ht, by rw [k, if_pos ht]⟩) h₁
  obtain ⟨s₃, hs₃, h₃⟩ := turns (by omega) (show 20 ≤ 40 by omega) (by omega)
    (fun t hle hlt => ⟨f_parity (Or.inl ⟨hle, hlt⟩),
      by rw [k, if_neg (by omega), if_pos hlt]⟩) h₂
  obtain ⟨s₄, hs₄, h₄⟩ := turns (by omega) (show 40 ≤ 60 by omega) (by omega)
    (fun t hle hlt => ⟨f_maj hle hlt,
      by rw [k, if_neg (by omega), if_neg (by omega), if_pos hlt]⟩) h₃
  obtain ⟨s₅, hs₅, h₅⟩ := turns (by omega) (show 60 ≤ 80 by omega) (Nat.le_refl 80)
    (fun t hle _ => ⟨f_parity (Or.inr hle),
      by rw [k, if_neg (by omega), if_neg (by omega), if_neg (by omega)]⟩) h₄
  exact ⟨s₁, s₂, s₃, s₄, s₅, hs₁, hs₂, hs₃, hs₄, hs₅, h₅⟩

/-- `innerHash` is the compression. -/
theorem innerHash_ok (hw : Holds w block) :
    ∃ w', innerHash (words h) w = .ok (words (compress h block), w') ∧ w'.length = 80 := by
  obtain ⟨s₁, s₂, s₃, s₄, s₅, hs₁, hs₂, hs₃, hs₄, hs₅, h₅⟩ := @loops_turned block h w hw
  refine ⟨s₅.w, ?_, h₅.length⟩
  rw [compress, ← h₅.vars, innerHash]
  have hget : (arrayGet (words h) 0 : Outcome Empty Word) = .ok h.a ∧
      (arrayGet (words h) 1 : Outcome Empty Word) = .ok h.b ∧
      (arrayGet (words h) 2 : Outcome Empty Word) = .ok h.c ∧
      (arrayGet (words h) 3 : Outcome Empty Word) = .ok h.d ∧
      (arrayGet (words h) 4 : Outcome Empty Word) = .ok h.e := ⟨rfl, rfl, rfl, rfl, rfl⟩
  rw [hget.1, hget.2.1, hget.2.2.1, hget.2.2.2.1, hget.2.2.2.2]
  simp only [ok_bind, hs₁, hs₂, hs₃, hs₄, hs₅]
  rfl

end

/-! ## The full blocks -/

section

variable {src : Bytes} {w : List Word} {block : Nat → Word} {h : Vars} {n : Nat}

theorem arrayGet_getD {i : Nat} (hi : i < src.length) :
    (arrayGet src i : Outcome Empty UInt8) = .ok (src.getD i 0) := by
  apply arrayGet_ok
  rw [List.getD_eq_getElem?_getD, List.getElem?_eq_getElem hi]
  rfl

/-- The words of block `n` below `k` are in the buffer. -/
theorem loadBlock_ok {k : Nat} (hsrc : 64 * n + 64 ≤ src.length) (hk : k ≤ 16)
    (hlength : w.length = 80) (hwords : ∀ t < k, w[t]? = some (wordAt src (64 * n + 4 * t))) :
    ∃ w', loadBlock src (64 * n + 64) (64 * n + 4 * k) k w = .ok w' ∧
      Holds w' fun t => wordAt src (64 * n + 4 * t) := by
  obtain ⟨m, hm⟩ := Nat.exists_eq_add_of_le hk
  induction m generalizing k w with
  | zero =>
    obtain rfl : 16 = k := hm
    exact ⟨w, by rw [loadBlock, if_neg (by omega)], hlength, hwords⟩
  | succ m ih =>
    have hset : k < w.length := by omega
    obtain ⟨w', hw', hholds⟩ := @ih (w.set k (wordAt src (64 * n + 4 * k))) (k + 1) (by omega)
      (by rw [List.length_set, hlength]) (by
        intro t ht
        by_cases htk : t = k
        · rw [htk, List.getElem?_set_self hset]
        · rw [List.getElem?_set_ne (Ne.symm htk)]
          exact hwords t (by omega)) (by omega)
    refine ⟨w', ?_, hholds⟩
    rw [loadBlock, if_pos (by omega), arrayGet_getD (by omega), arrayGet_getD (by omega),
      arrayGet_getD (by omega), arrayGet_getD (by omega)]
    simp only [ok_bind, ← word_eq_or]
    rw [← wordAt, arraySet_ok _ hset, ok_bind]
    exact hw'

/-- The full blocks behind the first `n`. -/
theorem fullBlocks_ok (hn : 64 * n ≤ src.length) (hlength : w.length = 80) :
    ∃ w', fullBlocks src (src.length - 64) (64 * n) (words (chain src n)) w
        = .ok ⟨64 * (src.length / 64), words (chain src (src.length / 64)), w'⟩ ∧
      w'.length = 80 := by
  obtain ⟨m, hm⟩ := Nat.exists_eq_add_of_le (show n ≤ src.length / 64 by omega)
  induction m generalizing n w with
  | zero =>
    obtain rfl : src.length / 64 = n := hm
    exact ⟨w, by rw [fullBlocks, if_neg (by omega)], hlength⟩
  | succ m ih =>
    obtain ⟨w₁, hload, hholds⟩ := @loadBlock_ok src w n 0 (by omega) (by omega) hlength
      (fun t ht => absurd ht (Nat.not_lt_zero t))
    obtain ⟨w₂, hinner, hlength₂⟩ := @innerHash_ok _ (chain src n) _ hholds
    obtain ⟨w', hrest, hlength'⟩ := @ih w₂ (n + 1) (by omega) hlength₂ (by omega)
    refine ⟨w', ?_, hlength'⟩
    have hload' : loadBlock src (64 * n + 64) (64 * n) 0 w = .ok w₁ := hload
    rw [fullBlocks, if_pos (by omega)]
    simp only [hload', ok_bind, hinner]
    rw [chain, Nat.mul_add_one] at hrest
    exact hrest

/-! ## The last block -/

theorem clearWBuffert_ok (hlength : w.length = 80) :
    ∃ w', clearWBuffert w = .ok w' ∧ Holds w' fun _ => 0 := by
  obtain ⟨w', hw', hlength', hzero⟩ := @downFrom_ok Empty (List Word)
    (fun pos buffert => arraySet buffert pos 0)
    (fun i w => w.length = 80 ∧ ∀ t, i ≤ t → t < 16 → w[t]? = some 0) 16 w (by
      rintro i w hi ⟨hlength, hzero⟩
      have hset : i < w.length := by omega
      refine ⟨w.set i 0, arraySet_ok 0 hset, by rw [List.length_set, hlength], ?_⟩
      intro t hle hlt
      by_cases hti : t = i
      · rw [hti, List.getElem?_set_self hset]
      · rw [List.getElem?_set_ne (Ne.symm hti)]
        exact hzero t (by omega) hlt) ⟨hlength, fun t hle hlt => absurd hlt (by omega)⟩
  exact ⟨w', hw', hlength', fun t ht => hzero t (Nat.zero_le t) ht⟩

/-- A word of the first sixteen is replaced. -/
theorem Holds.set (hw : Holds w block) {i : Nat} (hi : i < 16) (x : Word) :
    ∃ w', (arraySet w i x : Outcome Empty (List Word)) = .ok w' ∧
      Holds w' fun t => if t = i then x else block t := by
  have hset : i < w.length := by
    rw [hw.length]
    omega
  refine ⟨w.set i x, arraySet_ok x hset, by rw [List.length_set, hw.length], ?_⟩
  intro t ht
  by_cases hti : t = i
  · rw [hti, List.getElem?_set_self hset, if_pos rfl]
  · rw [List.getElem?_set_ne (Ne.symm hti), if_neg hti]
    exact hw.block t ht

/-- The bytes of the last block are put in one after the other. -/
theorem orByte_ok {bytes : Bytes} (hbytes : bytes.length < 64) (x : UInt8)
    (hw : Holds w fun t => wordAt bytes (4 * t)) :
    ∃ w', orByte w bytes.length x = .ok w' ∧ Holds w' fun t => wordAt (bytes ++ [x]) (4 * t) := by
  have hlt : bytes.length / 4 < 16 := by omega
  obtain ⟨w', hw', hholds⟩ := hw.set hlt
    (wordAt bytes (4 * (bytes.length / 4)) ||| byte x <<< ((3 - bytes.length % 4) * 8))
  refine ⟨w', ?_, hholds.length, ?_⟩
  · rw [orByte, arrayGet_ok (hw.block _ hlt), ok_bind]
    exact hw'
  · intro t ht
    rw [hholds.block t ht, wordAt_concat]
    by_cases htb : t = bytes.length / 4
    · rw [if_pos htb, if_pos htb, htb]
    · rw [if_neg htb, if_neg htb]

/-- The loop over the bytes of the last block. -/
theorem lastBytes_ok (hn : src.length - 64 * n < 64) (hw : Holds w fun _ => 0) :
    ∃ w', upTo (src.length - 64 * n) (lastByte src (64 * n)) 0 w = .ok w' ∧
      Holds w' fun t => wordAt (src.drop (64 * n)) (4 * t) := by
  have hempty : Holds w fun t => wordAt ((src.drop (64 * n)).take 0) (4 * t) := by
    refine ⟨hw.length, ?_⟩
    intro t ht
    rw [hw.block t ht, List.take_zero, wordAt_of_le (Nat.zero_le _)]
  obtain ⟨w', hw', hholds⟩ := @upTo_ok Empty (List Word) (lastByte src (64 * n))
    (fun i w => Holds w fun t => wordAt ((src.drop (64 * n)).take i) (4 * t))
    (src.length - 64 * n) 0 w (by
      intro i w hi hw
      have hlength : ((src.drop (64 * n)).take i).length = i := by
        rw [List.length_take, List.length_drop]
        omega
      have hbyte := List.getElem?_eq_getElem (show i + 64 * n < src.length by omega)
      obtain ⟨w', hw', hholds⟩ := orByte_ok (by omega) src[i + 64 * n] hw
      refine ⟨w', ?_, ?_⟩
      · rw [lastByte, arrayGet_ok hbyte, ok_bind, ← hw', hlength]
      · rw [List.take_add_one, List.getElem?_drop, Nat.add_comm _ i, hbyte]
        exact hholds)
    (Nat.zero_le _) hempty
  rw [← List.length_drop, List.take_length] at hholds
  exact ⟨w', hw', hholds⟩

/-- The number of bits is written over the last word; the word in front of
    it is zero, as the length fits into one. -/
theorem setLength_ok {length : Nat} (hlength : length < 2 ^ 29) (hblock : block 14 = 0)
    (hw : Holds w block) :
    ∃ w', (arraySet w 15 (BitVec.ofNat 32 (length * 8)) : Outcome Empty (List Word)) = .ok w' ∧
      Holds w' (lengthWords length block) := by
  obtain ⟨w', hw', hholds⟩ := hw.set (show 15 < 16 by omega) (BitVec.ofNat 32 (length * 8))
  refine ⟨w', hw', hholds.length, ?_⟩
  intro t ht
  rw [hholds.block t ht, lengthWords]
  by_cases h14 : t = 14
  · rw [if_neg (by omega), if_pos h14, h14, hblock, Nat.div_eq_of_lt (by omega)]
    rfl
  · by_cases h15 : t = 15
    · rw [if_pos h15, if_neg h14, if_pos h15, Nat.mul_comm]
    · rw [if_neg h15, if_neg h14, if_neg h15]

/-! ## The stored hash -/

theorem storedByte_eq (x : Word) (shift : Nat) :
    UInt8.ofNat (x >>> shift &&& 0xff).toNat = UInt8.ofNat (x.toNat / 2 ^ shift) := by
  apply UInt8.toNat_inj.mp
  have hmask : (0xff : Word).toNat = 2 ^ 8 - 1 := rfl
  rw [UInt8.toNat_ofNat', UInt8.toNat_ofNat', BitVec.toNat_and, BitVec.toNat_ushiftRight, hmask,
    Nat.and_two_pow_sub_one_eq_mod, Nat.mod_mod, Nat.shiftRight_eq_div_pow]

/-- Byte `j` of a word. -/
theorem getElem?_bigEndian (x : Word) {j : Nat} (hj : j < 4) :
    (Numeral.bigEndian 4 x.toNat)[j]? = some (UInt8.ofNat (x.toNat / 2 ^ ((3 - j) * 8))) := by
  have hdiv : x.toNat / 256 / 256 = x.toNat / 2 ^ 16 ∧
      x.toNat / 256 / 256 / 256 = x.toNat / 2 ^ 24 := by omega
  interval_cases j
  · rw [← hdiv.2]
    rfl
  · rw [← hdiv.1]
    rfl
  · rfl
  · rw [Nat.sub_self, Nat.zero_mul, Nat.pow_zero, Nat.div_one]
    rfl

/-- Byte `i` of the digest is a byte of word `i / 4`. -/
theorem getElem?_digest {i : Nat} (hi : i < 20) :
    ∃ x, (words h)[i / 4]? = some x ∧ (digest h)[i]? = (Numeral.bigEndian 4 x.toNat)[i % 4]? := by
  interval_cases i <;> exact ⟨_, rfl, rfl⟩

theorem storeBytes_ok {hash : Bytes} (hhash : hash.length = 20) :
    downFrom (storeByte (words h)) 20 hash = .ok (digest h) := by
  obtain ⟨hash', hhash', hlength, hstored⟩ := @downFrom_ok Empty Bytes (storeByte (words h))
    (fun i hash => hash.length = 20 ∧ ∀ j, i ≤ j → j < 20 → hash[j]? = (digest h)[j]?) 20 hash (by
      rintro i hash hi ⟨hlength, hstored⟩
      obtain ⟨x, hx, hbyte⟩ := @getElem?_digest h i hi
      have hset : i < hash.length := by omega
      have hshift : ((3 - (i : Int)) % 4).toNat = 3 - i % 4 := by omega
      refine ⟨hash.set i (UInt8.ofNat (x.toNat / 2 ^ ((3 - i % 4) * 8))), ?_, ?_, ?_⟩
      · rw [storeByte, arrayGet_ok hx, ok_bind, hshift]
        simp only [storedByte_eq, arraySet_ok _ hset]
      · rw [List.length_set, hlength]
      · intro j hle hlt
        by_cases hij : i = j
        · rw [← hij, List.getElem?_set_self hset, hbyte, getElem?_bigEndian x (by omega)]
        · rw [List.getElem?_set_ne hij]
          exact hstored j (by omega) hlt) ⟨hhash, fun j hle hlt => absurd hlt (by omega)⟩
  have hsame : hash' = digest h := by
    apply List.ext_getElem?
    intro j
    by_cases hj : j < 20
    · exact hstored j (Nat.zero_le j) hj
    · have hdigest : (digest h).length = 20 := rfl
      rw [List.getElem?_eq_none (by omega), List.getElem?_eq_none (by omega)]
  rw [← hsame]
  exact hhash'

/-! ## The whole function -/

/-- The block of the length comes behind the block of the tail, or is the
    same. -/
theorem makeRoom_ok (hw : Holds w fun t => wordAt (tail src) (4 * t)) :
    ∃ h' block w', makeRoom (src.length % 64) (words (chain src (src.length / 64))) w
        = .ok (words h', w') ∧ Holds w' block ∧ block 14 = 0 ∧
      sha1 src = digest (compress h' (lengthWords src.length block)) := by
  by_cases hroom : 56 ≤ src.length % 64
  · obtain ⟨w₁, hinner, hlength₁⟩ := @innerHash_ok _ (chain src (src.length / 64)) w hw
    obtain ⟨w', hclear, hholds⟩ := clearWBuffert_ok hlength₁
    refine ⟨_, _, w', ?_, hholds, rfl, sha1_of_long hroom⟩
    rw [makeRoom, if_pos hroom, hinner]
    simp only [ok_bind, hclear]
    rfl
  · refine ⟨_, _, w, ?_, hw, ?_, sha1_of_short (by omega)⟩
    · rw [makeRoom, if_neg hroom]
    · exact wordAt_of_le (by rw [length_tail]; omega)

theorem bitLength_eq (n : Nat) :
    bitLength n = if n < 2 ^ 29 then .ok (BitVec.ofNat 32 (n * 8)) else .error .trap := by
  rw [bitLength]
  by_cases hn : n < 2 ^ 29
  · rw [if_pos (by omega), if_pos hn]
  · rw [if_neg (by omega), if_neg hn]

theorem sha1Calc_eq {hash : Bytes} (hlength : w.length = 80) (hhash : hash.length = 20)
    (src : Bytes) :
    sha1Calc w src src.length hash = Torrent.calcSha1 sha1 src := by
  obtain ⟨w₁, hfull, hlength₁⟩ := @fullBlocks_ok src w 0 (by omega) hlength
  obtain ⟨w₂, hclear, hholds₂⟩ := clearWBuffert_ok hlength₁
  obtain ⟨w₃, hlast, hholds₃⟩ := @lastBytes_ok src w₂ (src.length / 64) (by omega) hholds₂
  obtain ⟨w₄, hmarker, hholds₄⟩ := orByte_ok (by rw [List.length_drop]; omega) 0x80 hholds₃
  obtain ⟨h', block, w₅, hroom, hholds₅, hblock, hsha1⟩ := makeRoom_ok hholds₄
  have hrest : src.length - 64 * (src.length / 64) = src.length % 64 := by omega
  rw [List.length_drop, hrest] at hmarker
  rw [hrest] at hlast
  have hfull' : fullBlocks src (src.length - 64) 0
      [0x67452301, 0xefcdab89, 0x98badcfe, 0x10325476, 0xc3d2e1f0] w = _ := hfull
  rw [sha1Calc, Torrent.calcSha1]
  simp only [hfull', ok_bind, hclear, hrest, hlast, hmarker, hroom, bitLength_eq]
  by_cases hshort : src.length < 2 ^ 29
  · obtain ⟨w₆, hset, hholds₆⟩ := setLength_ok hshort hblock hholds₅
    obtain ⟨w₇, hinner, _⟩ := @innerHash_ok _ h' w₆ hholds₆
    rw [if_pos hshort, if_pos hshort, hsha1]
    simp only [ok_bind, hset, hinner]
    exact storeBytes_ok hhash
  · rw [if_neg hshort, if_neg hshort]
    rfl

end

/-- The hash of the standard's first example. -/
def abcHash : Bytes :=
  [0xa9, 0x99, 0x3e, 0x36, 0x47, 0x06, 0x81, 0x6a, 0xba, 0x3e, 0x25, 0x71, 0x78, 0x50, 0xc2, 0x6c,
    0x9c, 0xd0, 0xd8, 0x9d]

/-- The program is quicker to run than the definition. -/
theorem sha1_abc : sha1 [97, 98, 99] = abcHash := by
  have hcalc := @sha1Calc_eq (List.replicate 80 0) (List.replicate 20 0) rfl rfl [97, 98, 99]
  have heval : sha1Calc (List.replicate 80 0) [97, 98, 99] 3 (List.replicate 20 0)
      = .ok abcHash := by decide +kernel
  exact (Torrent.calcSha1_eq_ok_iff.mp (hcalc.symm.trans heval)).2.symm

/-! ## The callers -/

/-- `compute_info_hash`. -/
def computeInfoHash (w : List Word) (buffer bencodedInfoDict : Bytes) : Outcome Empty Bytes :=
  if Torrent.INT_MAX < bencodedInfoDict.length then
    .error (.throw (.invalidArgument "input info dict is too large"))
  else sha1Calc w bencodedInfoDict bencodedInfoDict.length buffer

/-- `verify_piece`. -/
def verifyPiece (w : List Word) (buffer piece hash : Bytes) : Outcome Empty Bool :=
  if Torrent.INT_MAX < piece.length then .error (.throw (.invalidArgument "piece is too big"))
  else do
    let buffer ← sha1Calc w piece piece.length buffer
    return buffer = hash

/-- What the callers compute. Whatever the arrays hold at first, they are the
    functions of the model, with SHA-1 for the hash. They compute it for every
    input that is shorter than 2²⁹ bytes. From there on the number of bits
    overflows, up to the length that the check refuses: the check is four times
    too generous. -/
theorem smallSha1_correct {W : Type} (env : Download.Env W) (henv : env.sha1 = sha1)
    {w : List Word} (hlength : w.length = 80) {buffer : Bytes} (hbuffer : buffer.length = 20)
    (bytes hash : Bytes) :
    (computeInfoHash w buffer bytes = Torrent.computeInfoHash sha1 bytes ∧
      verifyPiece w buffer bytes hash = Download.verifyPiece env bytes hash) ∧
    (bytes.length < 2 ^ 29 →
      computeInfoHash w buffer bytes = .ok (sha1 bytes) ∧
        verifyPiece w buffer bytes hash = .ok (decide (sha1 bytes = hash))) ∧
    (2 ^ 29 ≤ bytes.length ∧ bytes.length ≤ Torrent.INT_MAX →
      computeInfoHash w buffer bytes = .error .trap ∧
        verifyPiece w buffer bytes hash = .error .trap) := by
  have hcalc := sha1Calc_eq hlength hbuffer bytes
  have hmax : Torrent.INT_MAX = 2147483647 := rfl
  rw [computeInfoHash, Torrent.computeInfoHash, verifyPiece, Download.verifyPiece, henv, hcalc,
    hmax]
  refine ⟨⟨rfl, rfl⟩, ?_, ?_⟩
  · intro hshort
    rw [if_neg (by omega), if_neg (by omega), Torrent.calcSha1, if_pos hshort]
    exact ⟨rfl, rfl⟩
  · rintro ⟨hle, hge⟩
    rw [if_neg (by omega), if_neg (by omega), Torrent.calcSha1, if_neg (by omega)]
    exact ⟨rfl, rfl⟩

/-- An environment without a peer, and with this hash. -/
def silent : Download.Env Unit where
  connect s := (.error .other, s)
  isOpen s := (false, s)
  write _ s := (.error .other, s)
  read _ s := (.error .other, s)
  close s := s
  beyond _ _ := none
  sha1 := sha1

/-- The arrays hold something else at first. One message is hashed, the other
    one is too long. -/
theorem smallSha1_correct_abc :
    computeInfoHash (List.replicate 80 0xdead) (List.replicate 20 7) [97, 98, 99] = .ok abcHash ∧
    verifyPiece (List.replicate 80 0xdead) (List.replicate 20 7) [97, 98, 99] abcHash = .ok true ∧
    verifyPiece (List.replicate 80 0xdead) (List.replicate 20 7) (List.replicate (2 ^ 29) 0) abcHash
      = .error .trap := by
  have hcorrect := @smallSha1_correct Unit silent rfl (List.replicate 80 0xdead) rfl
    (List.replicate 20 7) rfl
  have habc := (hcorrect [97, 98, 99] abcHash).2.1 (by decide)
  rw [sha1_abc] at habc
  have hlength : (List.replicate (2 ^ 29) (0 : UInt8)).length = 2 ^ 29 := List.length_replicate
  have hmax : Torrent.INT_MAX = 2147483647 := rfl
  exact ⟨habc.1, habc.2,
    ((hcorrect (List.replicate (2 ^ 29) 0) abcHash).2.2 ⟨by omega, by omega⟩).2⟩

/-! ## Hexadecimal digits -/

/-- `hexDigits`, with the zero at its end. -/
def hexDigits : Bytes :=
  [48, 49, 50, 51, 52, 53, 54, 55, 56, 57, 97, 98, 99, 100, 101, 102, 0]

/-- A round of the loop of `toHexString`. -/
def hexByte (hash : Bytes) (hashByte : Nat) (hexstring : Bytes) : Outcome Empty Bytes := do
  let x ← arrayGet hash hashByte
  let hexstring ← arraySet hexstring (hashByte * 2) (← arrayGet hexDigits (x.toNat / 16 % 16))
  arraySet hexstring (hashByte * 2 + 1) (← arrayGet hexDigits (x.toNat % 16))

/-- `toHexString`. -/
def toHexString (hash hexstring : Bytes) : Outcome Empty Bytes := do
  let hexstring ← downFrom (hexByte hash) 20 hexstring
  arraySet hexstring 40 0

/-- `hash_to_hex`, where `result` is not initialised. -/
def hashToHex (result hash : Bytes) : Outcome Empty Bytes := do
  let result ← toHexString hash result
  return result.take 40

/-- The two digits of a byte. -/
def hexPair (x : UInt8) : Bytes :=
  [hexDigits.getD (x.toNat / 16 % 16) 0, hexDigits.getD (x.toNat % 16) 0]

/-- Two digits are read as a byte. -/
def unhex : Bytes → Bytes
  | high :: low :: rest =>
    UInt8.ofNat (16 * hexDigits.idxOf high + hexDigits.idxOf low) :: unhex rest
  | _ => []

theorem idxOf_hexDigits {n : Nat} (h : n < 16) : hexDigits.idxOf (hexDigits.getD n 0) = n := by
  interval_cases n <;> rfl

theorem unhex_flatMap (hash : Bytes) : unhex (hash.flatMap hexPair) = hash := by
  induction hash with
  | nil => rfl
  | cons x hash ih =>
    have hbyte : 16 * (x.toNat / 16 % 16) + x.toNat % 16 = x.toNat := by
      have hlt := x.toNat_lt
      omega
    rw [List.flatMap_cons, hexPair, List.cons_append, List.cons_append, List.nil_append, unhex, ih,
      idxOf_hexDigits (Nat.mod_lt _ (by omega)), idxOf_hexDigits (Nat.mod_lt _ (by omega)), hbyte,
      UInt8.ofNat_toNat]

theorem arrayGet_hexDigits {n : Nat} (h : n < 16) :
    (arrayGet hexDigits n : Outcome Empty UInt8) = .ok (hexDigits.getD n 0) :=
  arrayGet_getD (show n < 17 by omega)

theorem drop_set_set {α : Type} (l : List α) (x y : α) {n : Nat} (h : n + 1 < l.length) :
    ((l.set n x).set (n + 1) y).drop n = x :: y :: l.drop (n + 2) := by
  induction n generalizing l with
  | zero =>
    obtain _ | ⟨a, _ | ⟨b, l⟩⟩ := l
    · simp at h
    · simp at h
    · rfl
  | succ n ih =>
    obtain _ | ⟨a, l⟩ := l
    · simp at h
    · exact ih l (by simpa using h)

/-- The digits of the bytes from `i` on are in place. -/
theorem hexBytes_ok {hash hexstring : Bytes} (hhash : hash.length = 20)
    (hlength : hexstring.length = 41) :
    ∃ last, downFrom (hexByte hash) 20 hexstring = .ok (hash.flatMap hexPair ++ [last]) := by
  obtain ⟨text, htext, hlength', htail⟩ := @downFrom_ok Empty Bytes (hexByte hash)
    (fun i text => text.length = 41 ∧
      text.drop (i * 2) = (hash.drop i).flatMap hexPair ++ text.drop 40) 20 hexstring (by
      rintro i text hi ⟨hlength, htail⟩
      have hbyte := List.getElem?_eq_getElem (show i < hash.length by omega)
      refine ⟨(text.set (i * 2) (hexDigits.getD (hash[i].toNat / 16 % 16) 0)).set (i * 2 + 1)
        (hexDigits.getD (hash[i].toNat % 16) 0), ?_, ?_, ?_⟩
      · rw [hexByte, arrayGet_ok hbyte, ok_bind, arrayGet_hexDigits (Nat.mod_lt _ (by omega)),
          arrayGet_hexDigits (Nat.mod_lt _ (by omega)), ok_bind, arraySet_ok _ (by omega), ok_bind,
          ok_bind, arraySet_ok _ (by rw [List.length_set]; omega)]
      · rw [List.length_set, List.length_set, hlength]
      · rw [drop_set_set _ _ _ (by omega), ← Nat.add_one_mul, htail,
          List.drop_eq_getElem_cons (show i < hash.length by omega), List.flatMap_cons,
          List.drop_set_of_lt (by omega), List.drop_set_of_lt (by omega)]
        rfl) ⟨hlength, by rw [List.drop_of_length_le hhash.le]; rfl⟩
  obtain ⟨last, hlast⟩ := List.length_eq_one_iff.mp
    (show (text.drop 40).length = 1 by rw [List.length_drop, hlength'])
  refine ⟨last, ?_⟩
  rw [htext, ← hlast]
  exact congrArg _ htail

theorem length_flatMap_hexPair (hash : Bytes) :
    (hash.flatMap hexPair).length = 2 * hash.length := by
  induction hash with
  | nil => rfl
  | cons x hash ih =>
    rw [List.flatMap_cons, List.length_append, ih, List.length_cons]
    have hpair : (hexPair x).length = 2 := rfl
    omega

theorem hashToHex_eq {result hash : Bytes} (hresult : result.length = 41)
    (hhash : hash.length = 20) : hashToHex result hash = .ok (hash.flatMap hexPair) := by
  obtain ⟨last, hlast⟩ := hexBytes_ok hhash hresult
  have hlength : (hash.flatMap hexPair).length = 40 := by
    rw [length_flatMap_hexPair, hhash]
  rw [hashToHex, toHexString, hlast, ok_bind, arraySet_ok _ (by simp [hlength]), ok_bind,
    List.set_append_right _ _ hlength.le, List.take_append_of_le_length hlength.ge,
    List.take_of_length_le hlength.le]
  rfl

/-- `hash_to_hex` loses nothing. The text has forty characters, all of them
    digits in lower case, and they are read back as the hash. -/
theorem hashToHex_lossless {result hash : Bytes} (hresult : result.length = 41)
    (hhash : hash.length = 20) :
    ∃ text, hashToHex result hash = .ok text ∧ text.length = 40 ∧
      (∀ c ∈ text, c ∈ hexDigits.take 16) ∧ unhex text = hash := by
  refine ⟨_, hashToHex_eq hresult hhash, ?_, ?_, unhex_flatMap hash⟩
  · rw [length_flatMap_hexPair, hhash]
  · intro c hc
    obtain ⟨x, _, hx⟩ := List.mem_flatMap.mp hc
    have hdigit : ∀ n < 16, hexDigits.getD n 0 ∈ hexDigits.take 16 := by decide
    simp only [hexPair, List.mem_cons, List.not_mem_nil, or_false] at hx
    rcases hx with rfl | rfl
    · exact hdigit _ (Nat.mod_lt _ (by omega))
    · exact hdigit _ (Nat.mod_lt _ (by omega))

/-- The digits `a9993e364706816aba3e25717850c26c9cd0d89d`. -/
theorem hashToHex_lossless_abc :
    ∃ text, hashToHex (List.replicate 41 7) abcHash = .ok text ∧ text.length = 40 ∧
      (∀ c ∈ text, c ∈ hexDigits.take 16) ∧ unhex text = abcHash ∧
      text = [97, 57, 57, 57, 51, 101, 51, 54, 52, 55, 48, 54, 56, 49, 54, 97, 98, 97, 51, 101,
        50, 53, 55, 49, 55, 56, 53, 48, 99, 50, 54, 99, 57, 99, 100, 48, 100, 56, 57, 100] := by
  obtain ⟨text, htext, hlength, hdigits, hback⟩ :=
    @hashToHex_lossless (List.replicate 41 7) abcHash rfl rfl
  refine ⟨text, htext, hlength, hdigits, hback, ?_⟩
  have heval : hashToHex (List.replicate 41 7) abcHash
      = .ok [97, 57, 57, 57, 51, 101, 51, 54, 52, 55, 48, 54, 56, 49, 54, 97, 98, 97, 51, 101,
        50, 53, 55, 49, 55, 56, 53, 48, 99, 50, 54, 99, 57, 99, 100, 48, 100, 56, 57, 100] := by
    decide +kernel
  rw [heval] at htext
  injection htext with htext
  exact htext.symm

end Furrent.SmallSha1
