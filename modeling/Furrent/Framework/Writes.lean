import Furrent.Framework.Cpp

/-! # Sequences of writes

    A file is written to at several places, one write after the other, and
    grows when a write goes past its end. What is at a position afterwards
    is what the last write that covers the position has put there, or what
    was there before (`Write.getD_run`); positions past the end are read as
    zeroes, which is what a gap is filled with. -/

open Cpp

/-- Elements to be written at a place. -/
structure Write (α : Type*) where
  offset : Nat
  elems : List α

namespace Write

variable {α : Type*} (zero : α) {w w₀ : Write α} {ws : List (Write α)} {l : List α} {x : Nat}

/-- Some writes, one after the other. -/
def run (ws : List (Write α)) (l : List α) : List α :=
  ws.foldl (fun l w => overwrite zero l w.offset w.elems) l

@[simp] theorem run_nil : run zero [] l = l := rfl

@[simp] theorem run_cons :
    run zero (w :: ws) l = run zero ws (overwrite zero l w.offset w.elems) := rfl

/-- Position `x` is written to. -/
def Covers (w : Write α) (x : Nat) : Prop := w.offset ≤ x ∧ x < w.offset + w.elems.length

instance : Decidable (w.Covers x) := inferInstanceAs (Decidable (_ ∧ _))

/-- The last write that covers a position. -/
def last (ws : List (Write α)) (x : Nat) : Option (Write α) := ws.reverse.find? (·.Covers x)

theorem last_append (ws ws' : List (Write α)) (x : Nat) :
    last (ws ++ ws') x = (last ws' x).or (last ws x) := by
  rw [last, List.reverse_append, List.find?_append]
  rfl

theorem last_singleton (w : Write α) (x : Nat) :
    last [w] x = if w.Covers x then some w else none := by
  by_cases h : w.Covers x
  · simp [last, h]
  · simp [last, h]

theorem mem_of_last (h : last ws x = some w) : w ∈ ws ∧ w.Covers x :=
  ⟨List.mem_reverse.mp (List.mem_of_find?_eq_some h), by simpa using List.find?_some h⟩

theorem last_eq_none_iff : last ws x = none ↔ ∀ w ∈ ws, ¬ w.Covers x := by
  simp [last]

/-- A position that is covered is covered last by some write. -/
theorem exists_last (h : ∃ w ∈ ws, w.Covers x) : ∃ w, last ws x = some w := by
  obtain ⟨w, hw, hx⟩ := h
  apply Option.ne_none_iff_exists'.mp
  intro hnone
  exact last_eq_none_iff.mp hnone w hw hx

/-! ### What is read back -/

theorem getD_overwrite (w : Write α) (l : List α) (x : Nat) :
    (overwrite zero l w.offset w.elems)[x]?.getD zero
      = if w.Covers x then w.elems[x - w.offset]?.getD zero else l[x]?.getD zero := by
  obtain ⟨off, bs⟩ := w
  dsimp only
  split
  · next h => rw [getElem?_overwrite_inside zero h.1 h.2]
  · next h =>
    by_cases hbs : bs = []
    · rw [overwrite, if_pos hbs]
    · rw [overwrite, if_neg hbs]
      rcases Nat.lt_or_ge x off with hlt | hge
      · -- in front of the new elements there are old ones and zeroes
        rw [List.append_assoc _ bs, List.getElem?_append_left (by simp; omega),
          List.getElem?_append]
        split
        · rw [List.getElem?_take_of_lt hlt]
        · next hpast =>
          have hend : l.length ≤ x := by
            rw [List.length_take] at hpast
            omega
          rw [List.getElem?_replicate, List.getElem?_eq_none hend]
          split <;> rfl
      · have hend : off + bs.length ≤ x := by
          by_contra hin
          exact h ⟨hge, Nat.lt_of_not_le hin⟩
        rw [List.getElem?_append_right (by simp; omega), List.getElem?_drop]
        congr 2
        simp
        omega

theorem getD_run : (run zero ws l)[x]?.getD zero
    = ((last ws x).map fun w => w.elems[x - w.offset]?.getD zero).getD (l[x]?.getD zero) := by
  induction ws generalizing l with
  | nil => rfl
  | cons w ws ih =>
    rw [run_cons, ih, ← List.singleton_append, last_append, last_singleton, getD_overwrite]
    cases last ws x with
    | some w' => rfl
    | none =>
      by_cases h : w.Covers x
      · rw [if_pos h, if_pos h]
        rfl
      · rw [if_neg h, if_neg h]
        rfl

theorem getD_run_of_last (h : last ws x = some w) :
    (run zero ws l)[x]?.getD zero = w.elems[x - w.offset]?.getD zero := by
  rw [getD_run, h]
  rfl

theorem getD_run_of_not_covered (h : ∀ w ∈ ws, ¬ w.Covers x) :
    (run zero ws l)[x]?.getD zero = l[x]?.getD zero := by
  rw [getD_run, last_eq_none_iff.mpr h]
  rfl

/-- What has changed has been written to. -/
theorem exists_last_of_changed (h : (run zero ws l)[x]?.getD zero ≠ l[x]?.getD zero) :
    ∃ w, last ws x = some w := by
  apply Option.ne_none_iff_exists'.mp
  intro hnone
  exact h (getD_run_of_not_covered zero (last_eq_none_iff.mp hnone))

/-- The length is the position where the last of the elements ends. -/
theorem length_run_le_iff {n : Nat} : (run zero ws l).length ≤ n ↔
    l.length ≤ n ∧ ∀ w ∈ ws, w.elems ≠ [] → w.offset + w.elems.length ≤ n := by
  induction ws generalizing l with
  | nil => simp
  | cons w ws ih =>
    rw [run_cons, ih, List.forall_mem_cons, ← and_assoc]
    refine and_congr_left fun _ => ?_
    by_cases h : w.elems = []
    · simp [overwrite, h]
    · rw [length_overwrite zero l w.offset h]
      simp [h]

/-- In sequences of the same length the default does not matter. -/
theorem getElem?_eq_of_getD {l l' : List α} {y : Nat} (hx : x < l.length) (hy : y < l'.length)
    (h : l[x]?.getD zero = l'[y]?.getD zero) : l[x]? = l'[y]? := by
  rw [List.getElem?_eq_getElem hx, List.getElem?_eq_getElem hy] at h ⊢
  exact congrArg some h

end Write
