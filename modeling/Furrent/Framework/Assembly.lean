import Furrent.Framework.Cpp

/-! # A sequence put together from blocks

    Blocks `c 0`, `c 1`, … are to stand one after the other. A sequence of the
    right length is their concatenation when it holds each of them at its
    place (`eq_upTo_iff`).

    A write into one of several sequences is a write into their
    concatenation (`flatMap_overwrite`), and it changes no `slice` but
    those it overlaps. -/

namespace Assembly

open Cpp

variable {α : Type u} (zero : α) {c : Nat → List α}

/-- The first `n` blocks. -/
def upTo (c : Nat → List α) (n : Nat) : List α := (List.range n).flatMap c

/-- The place of block `n`. -/
def start (c : Nat → List α) (n : Nat) : Nat := (upTo c n).length

theorem upTo_succ (n : Nat) : upTo c (n + 1) = upTo c n ++ c n := by
  simp [upTo, List.range_succ]

theorem start_succ (n : Nat) : start c (n + 1) = start c n + (c n).length := by
  rw [start, upTo_succ, List.length_append, start]

theorem start_mono {m n : Nat} (h : m ≤ n) : start c m ≤ start c n := by
  induction h with
  | refl => exact le_refl _
  | step _ ih =>
    rw [start_succ]
    omega

/-- A block ends before a later one starts. -/
theorem end_le_start {m n : Nat} (h : m < n) : start c m + (c m).length ≤ start c n := by
  rw [← start_succ]
  exact start_mono h

/-- No position lies in two blocks. -/
theorem eq_of_start_add_eq {m n x y : Nat} (hx : x < (c m).length) (hy : y < (c n).length)
    (h : start c m + x = start c n + y) : m = n := by
  rcases Nat.lt_trichotomy m n with hlt | heq | hgt
  · have := end_le_start (c := c) hlt
    omega
  · exact heq
  · have := end_le_start (c := c) hgt
    omega

/-- Block `k` stands at its place in `l`. -/
def Holds (c : Nat → List α) (l : List α) (k : Nat) : Prop :=
  ∀ x, x < (c k).length → l[start c k + x]? = (c k)[x]?

variable {l : List α} {k n : Nat}

/-- A sequence that holds each of the blocks starts with their
    concatenation. -/
theorem take_of_holds (h : ∀ k < n, Holds c l k) : l.take (start c n) = upTo c n := by
  induction n with
  | zero => rfl
  | succ n ih =>
    have hprefix := ih fun k hk => h k (by omega)
    rw [start_succ, List.take_add, hprefix, upTo_succ]
    congr 1
    -- What follows is block `n`, which stands there.
    apply List.ext_getElem?
    intro x
    rw [List.getElem?_take]
    split
    · next hx => rw [List.getElem?_drop, h n (Nat.lt_succ_self n) x hx]
    · next hx => rw [List.getElem?_eq_none (by omega)]

/-- The concatenation holds each of the blocks. -/
theorem holds_upTo (hk : k < n) : Holds c (upTo c n) k := by
  intro x hx
  induction n with
  | zero => omega
  | succ n ih =>
    rw [upTo_succ]
    rcases Nat.lt_succ_iff_lt_or_eq.mp hk with hlt | rfl
    · have hend := end_le_start (c := c) hlt
      rw [List.getElem?_append_left (by rw [← start]; omega), ih hlt]
    · rw [List.getElem?_append_right (by rw [← start]; omega), ← start, Nat.add_sub_cancel_left]

/-- A sequence is the concatenation when it has its length and holds each of
    the blocks. -/
theorem eq_upTo_iff : l = upTo c n ↔ l.length = start c n ∧ ∀ k < n, Holds c l k := by
  constructor
  · rintro rfl
    exact ⟨rfl, fun k hk => holds_upTo hk⟩
  · rintro ⟨hl, h⟩
    rw [← take_of_holds h, ← hl, List.take_length]

/-! ### Sections -/

/-- The `len` elements from `off` on. -/
def slice (l : List α) (off len : Nat) : List α := (l.drop off).take len

theorem getElem?_slice (l : List α) (off len x : Nat) :
    (slice l off len)[x]? = if x < len then l[off + x]? else none := by
  rw [slice, List.getElem?_take, List.getElem?_drop]

variable {off : Nat} {bs : List α}

theorem slice_overwrite_self : slice (overwrite zero l off bs) off bs.length = bs := by
  apply List.ext_getElem?
  intro x
  rw [getElem?_slice]
  by_cases hx : x < bs.length
  · rw [if_pos hx, getElem?_overwrite_inside zero (by omega) (by omega), Nat.add_sub_cancel_left]
  · rw [if_neg hx, List.getElem?_eq_none (by omega)]

theorem slice_overwrite_of_disjoint {off' len : Nat} (h : off + bs.length ≤ l.length)
    (hdisjoint : off' + len ≤ off ∨ off + bs.length ≤ off') :
    slice (overwrite zero l off bs) off' len = slice l off' len := by
  apply List.ext_getElem?
  intro x
  rw [getElem?_slice, getElem?_slice]
  by_cases hx : x < len
  · rw [if_pos hx, if_pos hx, getElem?_overwrite_outside zero h (by omega)]
  · rw [if_neg hx, if_neg hx]

/-! ### Concatenations -/

theorem overwrite_append_left (r : List α) (h : off + bs.length ≤ l.length) :
    overwrite zero (l ++ r) off bs = overwrite zero l off bs ++ r := by
  have hin : off + bs.length ≤ (l ++ r).length := by
    rw [List.length_append]
    omega
  apply List.ext_getElem?
  intro x
  by_cases hx : x < l.length
  · have hx' : x < (overwrite zero l off bs).length := by
      rw [length_overwrite_of_le zero h]
      exact hx
    rw [List.getElem?_append_left hx']
    by_cases hwritten : off ≤ x ∧ x < off + bs.length
    · rw [getElem?_overwrite_inside zero hwritten.1 hwritten.2,
        getElem?_overwrite_inside zero hwritten.1 hwritten.2]
    · rw [getElem?_overwrite_outside zero hin (by omega),
        getElem?_overwrite_outside zero h (by omega), List.getElem?_append_left hx]
  · rw [getElem?_overwrite_outside zero hin (by omega), List.getElem?_append_right (by omega),
      List.getElem?_append_right (by rw [length_overwrite_of_le zero h]; omega),
      length_overwrite_of_le zero h]

theorem overwrite_append_right (r : List α) (h : off + bs.length ≤ r.length) :
    overwrite zero (l ++ r) (l.length + off) bs = l ++ overwrite zero r off bs := by
  have hin : l.length + off + bs.length ≤ (l ++ r).length := by
    rw [List.length_append]
    omega
  apply List.ext_getElem?
  intro x
  by_cases hx : x < l.length
  · rw [getElem?_overwrite_outside zero hin (by omega), List.getElem?_append_left hx,
      List.getElem?_append_left hx]
  · rw [List.getElem?_append_right (by omega)]
    by_cases hwritten : off ≤ x - l.length ∧ x - l.length < off + bs.length
    · rw [getElem?_overwrite_inside zero (by omega) (by omega),
        getElem?_overwrite_inside zero hwritten.1 hwritten.2]
      congr 1
      omega
    · rw [getElem?_overwrite_outside zero hin (by omega),
        getElem?_overwrite_outside zero h (by omega), List.getElem?_append_right (by omega)]

/-- Of several sequences, the one of `x` is written to. -/
theorem flatMap_overwrite {β : Type v} {xs : List β} {c c' : β → List α} {x : β}
    (hx : xs[k]? = some x) (h : off + bs.length ≤ (c x).length)
    (hself : c' x = overwrite zero (c x) off bs)
    (hother : ∀ j y, xs[j]? = some y → j ≠ k → c' y = c y) :
    xs.flatMap c' = overwrite zero (xs.flatMap c) (((xs.take k).flatMap c).length + off) bs := by
  induction xs generalizing k with
  | nil => simp at hx
  | cons y xs ih =>
    rw [List.flatMap_cons, List.flatMap_cons]
    cases k with
    | zero =>
      obtain rfl : y = x := by simpa using hx
      -- None of those behind it is the same sequence.
      have hrest : xs.flatMap c' = xs.flatMap c := by
        apply List.flatMap_congr
        intro z hz
        obtain ⟨j, hj⟩ := List.mem_iff_getElem?.mp hz
        exact hother (j + 1) z hj (Nat.succ_ne_zero j)
      rw [hself, hrest, List.take_zero, List.flatMap_nil, List.length_nil, Nat.zero_add,
        overwrite_append_left zero _ h]
    | succ k =>
      have hfront : c' y = c y := hother 0 y rfl (Nat.zero_ne_add_one k)
      have hrest := ih hx fun j z hj hne => hother (j + 1) z hj (by omega)
      have hlong : ((xs.take k).flatMap c).length + off + bs.length ≤ (xs.flatMap c).length := by
        obtain ⟨hlt, hget⟩ := List.getElem?_eq_some_iff.mp (show xs[k]? = some x from hx)
        have hsplit : xs = xs.take k ++ x :: xs.drop (k + 1) := by
          rw [← hget, ← List.drop_eq_getElem_cons hlt, List.take_append_drop]
        have hlength := congrArg (fun l => (l.flatMap c).length) hsplit
        simp only [List.flatMap_append, List.flatMap_cons, List.length_append] at hlength
        omega
      rw [hfront, hrest, List.take_succ_cons, List.flatMap_cons, List.length_append,
        Nat.add_assoc, overwrite_append_right zero _ hlong]

end Assembly
