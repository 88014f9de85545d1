import Mathlib.Data.List.SplitLengths
import Furrent.Framework.Cpp

/-! # Hashes

    Model of `compute_info_hash` and `split_piece_hashes` in `src/hash.cpp`.
    A hash is an array of twenty bytes. How it is computed is left open here,
    but not of what: `sha1::calc` counts the bits of its input in an `int`,
    so that `compute_info_hash` lets inputs through that it cannot hash. A
    string of piece hashes and the hashes it is split into determine each
    other. -/

namespace Furrent.Torrent

open Cpp

/-- `std::numeric_limits<int>::max()`. -/
def INT_MAX : Nat := 2 ^ 31 - 1

/-- `HashError`. -/
inductive HashError where
  | malformedPieceHashesString
  | pieceHashesStringTooLarge
  deriving DecidableEq, Repr

/-- `sha1::calc`, with the function `sha1`. From `2 ^ 29` bytes on the shift
    `bytelength << 3` is undefined. -/
def calcSha1 (sha1 : Bytes → Bytes) (src : Bytes) : Outcome Empty Bytes :=
  if src.length < 2 ^ 29 then .ok (sha1 src) else .error .trap

theorem calcSha1_eq_ok_iff {sha1 : Bytes → Bytes} {src hash : Bytes} :
    calcSha1 sha1 src = .ok hash ↔ src.length < 2 ^ 29 ∧ hash = sha1 src := by
  unfold calcSha1
  by_cases hlt : src.length < 2 ^ 29
  · rw [if_pos hlt, Except.ok.injEq]
    exact ⟨fun h => ⟨hlt, h.symm⟩, fun h => h.2.symm⟩
  · rw [if_neg hlt]
    exact iff_of_false (by simp) fun h => hlt h.1

/-- `compute_info_hash`, with the function `sha1`. -/
def computeInfoHash (sha1 : Bytes → Bytes) (bencodedInfoDict : Bytes) : Outcome Empty Bytes :=
  if INT_MAX < bencodedInfoDict.length then
    .error (.throw (.invalidArgument "input info dict is too large"))
  else calcSha1 sha1 bencodedInfoDict

/-- `str.copy(…, 20, i)` into an array that is filled with zeros. -/
def copyHash (str : Bytes) (i : Nat) : Bytes :=
  overwrite 0 (List.replicate 20 0) 0 ((str.drop i).take 20)

/-- The loop of `split_piece_hashes`. -/
def splitLoop (str : Bytes) (i : Nat) (result : List Bytes) : List Bytes :=
  if i < str.length then splitLoop str (i + 20) (result ++ [copyHash str i]) else result
termination_by str.length - i

/-- `split_piece_hashes`. -/
def splitPieceHashes (pieceHashesStr : Bytes) : Except HashError (List Bytes) :=
  if INT64_MAX < pieceHashesStr.length then .error .pieceHashesStringTooLarge
  else if 0 < pieceHashesStr.length % 20 then .error .malformedPieceHashesString
  else .ok (splitLoop pieceHashesStr 0 [])

/-! ### Cutting a string into hashes

    The loop is Mathlib's `splitLengths` with twenty bytes to a piece. -/

/-- A full hash leaves nothing of the zeros. -/
theorem copyHash_of_le {str : Bytes} {i : Nat} (h : i + 20 ≤ str.length) :
    copyHash str i = (str.drop i).take 20 := by
  have hlength : ((str.drop i).take 20).length = 20 := by
    rw [List.length_take, List.length_drop]
    omega
  have hne : (str.drop i).take 20 ≠ [] := List.ne_nil_of_length_pos (by omega)
  rw [copyHash, overwrite, if_neg hne, hlength]
  simp

/-- A string of `k` hashes has `k` rounds. -/
theorem splitLoop_eq {str : Bytes} {i k : Nat} (hlength : str.length = i + 20 * k)
    (result : List Bytes) :
    splitLoop str i result = result ++ (List.replicate k 20).splitLengths (str.drop i) := by
  induction k generalizing i result with
  | zero =>
    rw [splitLoop, if_neg (by omega), List.replicate_zero, List.splitLengths_nil,
      List.append_nil]
  | succ k ih =>
    rw [splitLoop, if_pos (by omega), copyHash_of_le (by omega), ih (by omega),
      List.replicate_succ, List.splitLengths_cons, List.drop_drop, List.append_assoc,
      List.singleton_append]

theorem splitPieceHashes_of_length {str : Bytes} {k : Nat} (hlength : str.length = 20 * k)
    (hsize : str.length ≤ INT64_MAX) :
    splitPieceHashes str = .ok ((List.replicate k 20).splitLengths str) := by
  have hloop := splitLoop_eq (show str.length = 0 + 20 * k by omega) []
  rw [splitPieceHashes, if_neg (by omega), if_neg (by omega), hloop, List.nil_append,
    List.drop_zero]

-- The three hashes of `test/hash.cpp`.
example : splitPieceHashes (List.replicate 20 0 ++ List.replicate 20 1 ++ List.replicate 20 2)
    = .ok [List.replicate 20 0, List.replicate 20 1, List.replicate 20 2] := by
  rw [splitPieceHashes_of_length (k := 3) rfl (by decide)]
  rfl

/-- A string is cut exactly if its length is a multiple of twenty and within
    the bound of the first check. -/
theorem splitPieceHashes_cuts_iff (str : Bytes) :
    (∃ hashes, splitPieceHashes str = .ok hashes) ↔
      20 ∣ str.length ∧ str.length ≤ INT64_MAX := by
  constructor
  · rintro ⟨hashes, h⟩
    obtain ⟨hlarge, h⟩ := guard_eq_ok.mp h
    obtain ⟨hodd, _⟩ := guard_eq_ok.mp h
    exact ⟨Nat.dvd_of_mod_eq_zero (by omega), by omega⟩
  · rintro ⟨⟨k, hk⟩, hsize⟩
    exact ⟨_, splitPieceHashes_of_length hk hsize⟩

/-- The pieces are hashes, and together they are the string. -/
theorem splitPieceHashes_joins {str : Bytes} {hashes : List Bytes}
    (h : splitPieceHashes str = .ok hashes) :
    hashes.map List.length = List.replicate (str.length / 20) 20 ∧ hashes.flatten = str := by
  obtain ⟨⟨k, hk⟩, hsize⟩ := (splitPieceHashes_cuts_iff str).mp ⟨hashes, h⟩
  have hsum : (List.replicate k 20).sum = str.length := by
    rw [List.sum_replicate_nat, hk, Nat.mul_comm]
  rw [splitPieceHashes_of_length hk hsize] at h
  cases h
  rw [hk, Nat.mul_div_cancel_left k (by omega)]
  exact ⟨List.map_splitLengths_length str _ hsum.le, List.flatten_splitLengths str _ hsum.ge⟩

/-- The hashes are the strings of twenty bytes that it is joined of. -/
theorem splitPieceHashes_eq_ok_iff {str : Bytes} {hashes : List Bytes} :
    splitPieceHashes str = .ok hashes ↔
      hashes.flatten = str ∧ (∀ hash ∈ hashes, hash.length = 20) ∧ str.length ≤ INT64_MAX := by
  constructor
  · intro h
    obtain ⟨hlengths, hjoin⟩ := splitPieceHashes_joins h
    refine ⟨hjoin, ?_, ((splitPieceHashes_cuts_iff str).mp ⟨hashes, h⟩).2⟩
    intro hash hmem
    have hmem' : hash.length ∈ hashes.map List.length := List.mem_map_of_mem hmem
    rw [hlengths] at hmem'
    exact List.eq_of_mem_replicate hmem'
  · intro h
    obtain ⟨rfl, hhashes, hsize⟩ := h
    have hlengths : hashes.map List.length = List.replicate hashes.length 20 :=
      List.eq_replicate_iff.mpr ⟨List.length_map _, by simpa using hhashes⟩
    have hlength : hashes.flatten.length = 20 * hashes.length := by
      rw [List.length_flatten, hlengths, List.sum_replicate_nat, Nat.mul_comm]
    obtain ⟨cut, hcut⟩ := (splitPieceHashes_cuts_iff hashes.flatten).mpr
      ⟨⟨hashes.length, hlength⟩, hsize⟩
    -- The cut has the same bytes and the same lengths, so it is the list.
    obtain ⟨hlengths', hjoin⟩ := splitPieceHashes_joins hcut
    rw [hlength, Nat.mul_div_cancel_left _ (by omega), ← hlengths] at hlengths'
    rw [hcut, List.eq_iff_flatten_eq.mpr ⟨hjoin, hlengths'⟩]

/-- Splitting loses nothing. A string of piece hashes is accepted exactly if
    its length is a multiple of twenty; the bound is the first check of
    `split_piece_hashes` and no `std::string` is longer. What it is cut into
    joins to the string again, and hashes that were joined are found. -/
theorem splitPieceHashes_lossless :
    (∀ str : Bytes, (∃ hashes, splitPieceHashes str = .ok hashes) ↔
      20 ∣ str.length ∧ str.length ≤ INT64_MAX) ∧
    (∀ str hashes, splitPieceHashes str = .ok hashes →
      hashes.length = str.length / 20 ∧ (∀ hash ∈ hashes, hash.length = 20) ∧
        hashes.flatten = str) ∧
    (∀ hashes : List Bytes, (∀ hash ∈ hashes, hash.length = 20) →
      hashes.flatten.length ≤ INT64_MAX → splitPieceHashes hashes.flatten = .ok hashes) := by
  refine ⟨splitPieceHashes_cuts_iff, ?_, ?_⟩
  · intro str hashes h
    obtain ⟨hlengths, hjoin⟩ := splitPieceHashes_joins h
    have hcount := congrArg List.length hlengths
    rw [List.length_map, List.length_replicate] at hcount
    exact ⟨hcount, (splitPieceHashes_eq_ok_iff.mp h).2.1, hjoin⟩
  · intro hashes hhashes hsize
    exact splitPieceHashes_eq_ok_iff.mpr ⟨rfl, hhashes, hsize⟩

end Furrent.Torrent
