import Mathlib.Data.List.Perm.Basic

/-! # Ledgers

    A ledger is a list of lines, each with a mark that says where the line
    is by now. A container of a program holds the lines with one mark. To
    move some of them to another container is to change their marks; no
    line is lost or written twice, and the lines with one mark keep their
    order.

    Which of the lines with a mark move is told by a mask, one `Bool` for
    each of them in order; lines past the end of the mask stay. -/

namespace Ledger

variable {α M : Type*} [DecidableEq M]

/-! ### Masks -/

/-- The elements the mask picks. -/
def taken : List Bool → List α → List α
  | b :: mask, a :: l => if b then a :: taken mask l else taken mask l
  | _, _ => []

/-- The elements the mask leaves. -/
def kept : List Bool → List α → List α
  | b :: mask, a :: l => if b then kept mask l else a :: kept mask l
  | _, l => l

/-- The mask that picks the element at position `k` only. -/
def single (k : Nat) : List Bool := List.replicate k false ++ [true]

theorem taken_cons (b : Bool) (mask : List Bool) (a : α) (l : List α) :
    taken (b :: mask) (a :: l) = if b then a :: taken mask l else taken mask l := rfl

theorem kept_cons (b : Bool) (mask : List Bool) (a : α) (l : List α) :
    kept (b :: mask) (a :: l) = if b then kept mask l else a :: kept mask l := rfl

theorem kept_nil_right (mask : List Bool) : kept mask ([] : List α) = [] := by
  cases mask <;> rfl

theorem taken_nil_right (mask : List Bool) : taken mask ([] : List α) = [] := by
  cases mask <;> rfl

theorem taken_single (k : Nat) (l : List α) : taken (single k) l = l[k]?.toList := by
  induction k generalizing l with
  | zero =>
    cases l with
    | nil => rfl
    | cons a l =>
      show a :: taken [] l = _
      cases l <;> rfl
  | succ k ih =>
    cases l with
    | nil => rfl
    | cons a l =>
      rw [List.getElem?_cons_succ, ← ih]
      rfl

theorem kept_single (k : Nat) (l : List α) : kept (single k) l = l.eraseIdx k := by
  induction k generalizing l with
  | zero =>
    cases l with
    | nil => rfl
    | cons a l =>
      show kept [] l = _
      cases l <;> rfl
  | succ k ih =>
    cases l with
    | nil => rfl
    | cons a l =>
      rw [List.eraseIdx_cons_succ, ← ih]
      rfl

/-! ### Lines -/

/-- The lines with mark `m`, in order. -/
def marked (m : M) (lines : List (α × M)) : List α :=
  (lines.filter fun line => line.2 = m).map Prod.fst

/-- Of the lines with mark `m` those the mask picks get mark `m'`. -/
def remark (m m' : M) : List Bool → List (α × M) → List (α × M)
  | b :: mask, line :: lines =>
    if line.2 = m then (line.1, if b then m' else m) :: remark m m' mask lines
    else line :: remark m m' (b :: mask) lines
  | _, lines => lines

@[simp] theorem marked_nil (m : M) : marked m ([] : List (α × M)) = [] := rfl

@[simp] theorem marked_cons (m : M) (line : α × M) (lines : List (α × M)) :
    marked m (line :: lines)
      = if line.2 = m then line.1 :: marked m lines else marked m lines := by
  unfold marked
  by_cases h : line.2 = m
  · simp [h]
  · simp [h]

theorem marked_append (m : M) (lines lines' : List (α × M)) :
    marked m (lines ++ lines') = marked m lines ++ marked m lines' := by
  simp [marked]

theorem remark_nil_right (m m' : M) (mask : List Bool) :
    remark m m' mask ([] : List (α × M)) = [] := by
  cases mask <;> rfl

theorem remark_cons (m m' : M) (b : Bool) (mask : List Bool) (line : α × M)
    (lines : List (α × M)) :
    remark m m' (b :: mask) (line :: lines)
      = if line.2 = m then (line.1, if b then m' else m) :: remark m m' mask lines
        else line :: remark m m' (b :: mask) lines := rfl

/-- The lines stay the same but for their marks. -/
theorem map_fst_remark (m m' : M) (mask : List Bool) (lines : List (α × M)) :
    (remark m m' mask lines).map Prod.fst = lines.map Prod.fst := by
  induction lines generalizing mask with
  | nil => rw [remark_nil_right]
  | cons line lines ih =>
    cases mask with
    | nil => rfl
    | cons b mask =>
      rw [remark_cons]
      by_cases h : line.2 = m
      · rw [if_pos h, List.map_cons, List.map_cons, ih]
      · rw [if_neg h, List.map_cons, List.map_cons, ih]

/-- What stays behind. -/
theorem marked_remark_self {m m' : M} (hne : m' ≠ m) (mask : List Bool)
    (lines : List (α × M)) :
    marked m (remark m m' mask lines) = kept mask (marked m lines) := by
  induction lines generalizing mask with
  | nil => rw [remark_nil_right, marked_nil, kept_nil_right]
  | cons line lines ih =>
    cases mask with
    | nil =>
      show marked m (line :: lines) = kept [] _
      cases marked m (line :: lines) <;> rfl
    | cons b mask =>
      rw [remark_cons]
      by_cases h : line.2 = m
      · cases b with
        | true => simp [h, hne, kept_cons, ih]
        | false => simp [h, kept_cons, ih]
      · simp [h, ih]

/-- What arrives. -/
theorem marked_remark_of_ne {m m' : M} (hne : m' ≠ m) (mask : List Bool)
    (lines : List (α × M)) :
    (marked m' (remark m m' mask lines)).Perm (taken mask (marked m lines) ++ marked m' lines) := by
  induction lines generalizing mask with
  | nil =>
    rw [remark_nil_right, marked_nil, marked_nil, taken_nil_right]
    exact List.Perm.refl _
  | cons line lines ih =>
    cases mask with
    | nil =>
      have hnone : taken [] (marked m (line :: lines)) = [] := rfl
      rw [hnone, List.nil_append]
      exact List.Perm.refl _
    | cons b mask =>
      rw [remark_cons]
      by_cases h : line.2 = m
      · have hline : line.2 ≠ m' := by
          rw [h]
          exact Ne.symm hne
        cases b with
        | true => simpa [h, hline, Ne.symm hne, taken_cons] using ih mask
        | false => simpa [h, hline, Ne.symm hne, taken_cons] using ih mask
      · by_cases h' : line.2 = m'
        · rw [if_neg h, marked_cons, marked_cons, marked_cons, if_pos h', if_pos h', if_neg h]
          exact ((ih (b :: mask)).cons line.1).trans List.perm_middle.symm
        · simpa [h, h'] using ih (b :: mask)

theorem marked_remark_other {m m' x : M} (hm : x ≠ m) (hm' : x ≠ m') (mask : List Bool)
    (lines : List (α × M)) : marked x (remark m m' mask lines) = marked x lines := by
  induction lines generalizing mask with
  | nil => rw [remark_nil_right]
  | cons line lines ih =>
    cases mask with
    | nil => rfl
    | cons b mask =>
      rw [remark_cons]
      by_cases h : line.2 = m
      · cases b with
        | true => simp [h, Ne.symm hm, Ne.symm hm', ih]
        | false => simp [h, Ne.symm hm, ih]
      · rw [if_neg h, marked_cons, marked_cons, ih]

/-- The lines with one mark stand in the order of the ledger. -/
theorem marked_sublist (m : M) (lines : List (α × M)) :
    (marked m lines).Sublist (lines.map Prod.fst) :=
  (List.filter_sublist).map Prod.fst

end Ledger
