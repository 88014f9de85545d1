import Mathlib.Order.Lattice
import Mathlib.Data.List.Pairwise

/-! # Ordered maps as sorted association lists

    `std::map` seen as the list of its entries in iteration order: the keys
    increase strictly, so that equal maps are equal lists. `insert` is
    `std::map::insert`, which leaves an entry that is already there alone.

    The functions are defined on plain lists and `Sorted` is kept beside
    them, because the element type of a map is often the recursive type
    that holds the map. -/

namespace OrderedMap

variable {κ : Type u} {α : Type v} [LinearOrder κ]

/-- The keys increase strictly. -/
def Sorted (m : List (κ × α)) : Prop := (m.map Prod.fst).Pairwise (· < ·)

/-- The value of the first entry with key `k`. -/
def find (k : κ) : List (κ × α) → Option α
  | [] => none
  | (k', a) :: m => if k = k' then some a else find k m

/-- `std::map::insert`. -/
def insert (k : κ) (a : α) : List (κ × α) → List (κ × α)
  | [] => [(k, a)]
  | (k', a') :: m =>
      if k < k' then (k, a) :: (k', a') :: m
      else if k = k' then (k', a') :: m
      else (k', a') :: insert k a m

/-- Insert a run of entries, first to last. -/
def insertAll (m : List (κ × α)) (entries : List (κ × α)) : List (κ × α) :=
  entries.foldl (fun m e => insert e.1 e.2 m) m

@[simp] theorem insertAll_nil (m : List (κ × α)) : insertAll m [] = m := rfl

@[simp] theorem insertAll_cons (m : List (κ × α)) (e : κ × α) (es : List (κ × α)) :
    insertAll m (e :: es) = insertAll (insert e.1 e.2 m) es := rfl

/-! ## Sortedness -/

omit [LinearOrder κ] in
theorem mem_keys {k : κ} {a : α} {m : List (κ × α)} (h : (k, a) ∈ m) :
    k ∈ m.map Prod.fst := List.mem_map.mpr ⟨(k, a), h, rfl⟩

theorem sorted_nil : Sorted ([] : List (κ × α)) := List.Pairwise.nil

theorem sorted_cons {e : κ × α} {m : List (κ × α)} :
    Sorted (e :: m) ↔ (∀ k ∈ m.map Prod.fst, e.1 < k) ∧ Sorted m := by
  simp only [Sorted, List.map_cons, List.pairwise_cons]

theorem mem_keys_insert {k j : κ} {a : α} {m : List (κ × α)}
    (h : j ∈ (insert k a m).map Prod.fst) : j = k ∨ j ∈ m.map Prod.fst := by
  induction m with
  | nil => simpa [insert] using h
  | cons e m ih =>
    obtain ⟨k', a'⟩ := e
    unfold insert at h
    split at h
    · simpa using h
    · split at h
      · exact Or.inr h
      · rcases List.mem_cons.mp h with rfl | h
        · exact Or.inr (by simp)
        · rcases ih h with h | h
          · exact Or.inl h
          · exact Or.inr (List.mem_cons_of_mem _ h)

theorem sorted_insert {k : κ} {a : α} {m : List (κ × α)} (hm : Sorted m) :
    Sorted (insert k a m) := by
  induction m with
  | nil => simp [insert, Sorted]
  | cons e m ih =>
    obtain ⟨k', a'⟩ := e
    obtain ⟨hlt, hm'⟩ := sorted_cons.mp hm
    unfold insert
    split
    · next hkk' =>
      refine sorted_cons.mpr ⟨?_, hm⟩
      intro j hj
      rcases List.mem_cons.mp hj with rfl | hj
      · exact hkk'
      · exact lt_trans hkk' (hlt j hj)
    · split
      · exact hm
      · next hle hne =>
        have hk'k : k' < k := lt_of_le_of_ne (not_lt.mp hle) (Ne.symm hne)
        refine sorted_cons.mpr ⟨?_, ih hm'⟩
        intro j hj
        rcases mem_keys_insert hj with rfl | hj
        · exact hk'k
        · exact hlt j hj

theorem sorted_insertAll {m es : List (κ × α)} (hm : Sorted m) : Sorted (insertAll m es) := by
  induction es generalizing m with
  | nil => exact hm
  | cons e es ih => exact ih (sorted_insert hm)

/-! ## Lookups -/

theorem find_eq_none {k : κ} {m : List (κ × α)} (h : k ∉ m.map Prod.fst) :
    find k m = none := by
  induction m with
  | nil => rfl
  | cons e m ih =>
    obtain ⟨k', a'⟩ := e
    simp only [List.map_cons, List.mem_cons, not_or] at h
    rw [find, if_neg h.1]
    exact ih h.2

/-- The entries of a sorted map are found. -/
theorem find_of_mem {e : κ × α} {m : List (κ × α)} (hm : Sorted m) (he : e ∈ m) :
    find e.1 m = some e.2 := by
  induction m with
  | nil => cases he
  | cons e' m ih =>
    obtain ⟨hlt, hm'⟩ := sorted_cons.mp hm
    rcases List.mem_cons.mp he with rfl | he
    · simp [find]
    · have hne : e.1 ≠ e'.1 := ne_of_gt (hlt e.1 (mem_keys he))
      rw [find, if_neg hne]
      exact ih hm' he

/-- Nothing below the first key is in a sorted map. -/
theorem find_eq_none_of_lt {k : κ} {e : κ × α} {m : List (κ × α)} (hm : Sorted (e :: m))
    (hk : k < e.1) : find k (e :: m) = none := by
  apply find_eq_none
  intro h
  rcases List.mem_cons.mp h with rfl | h
  · exact lt_irrefl _ hk
  · exact lt_asymm hk ((sorted_cons.mp hm).1 k h)

/-- An inserted entry is found unless the key was there before. -/
theorem find_insert {k j : κ} {a : α} {m : List (κ × α)} (hm : Sorted m) :
    find j (insert k a m) = (find j m).or (if j = k then some a else none) := by
  induction m with
  | nil => simp [insert, find]
  | cons e m ih =>
    obtain ⟨k', a'⟩ := e
    unfold insert
    split
    · next hkk' =>
      -- The entry goes in front: the key was not there.
      by_cases hj : j = k
      · rw [find_eq_none_of_lt hm (by rw [hj]; exact hkk'), hj]
        simp [find]
      · rw [find, if_neg hj]
        simp [hj]
    · split
      · next hkk' =>
        -- The key is there, and its entry stays.
        by_cases hj : j = k
        · simp [find, hj, hkk']
        · simp [hj]
      · rw [find, find]
        split
        · rfl
        · exact ih (sorted_cons.mp hm).2

/-- Inserting a run keeps, for each key, the value already there and else
    the value of its first occurrence in the run. -/
theorem find_insertAll {k : κ} {m es : List (κ × α)} (hm : Sorted m) :
    find k (insertAll m es) = (find k m).or (find k es) := by
  induction es generalizing m with
  | nil => simp [find]
  | cons e es ih =>
    obtain ⟨k', a'⟩ := e
    rw [insertAll_cons, ih (sorted_insert hm), find_insert hm, find]
    split
    · simp
    · simp

/-! ## Extensionality -/

/-- Sorted maps with the same lookups are the same list. -/
theorem ext_find {m m' : List (κ × α)} (hm : Sorted m) (hm' : Sorted m')
    (h : ∀ k, find k m = find k m') : m = m' := by
  induction m generalizing m' with
  | nil =>
    cases m' with
    | nil => rfl
    | cons e m' =>
      have := h e.1
      simp [find] at this
  | cons e m ih =>
    obtain ⟨k, a⟩ := e
    cases m' with
    | nil =>
      have := h k
      simp [find] at this
    | cons e' m' =>
      obtain ⟨k', a'⟩ := e'
      -- The first keys agree: the smaller one would be missing on the other side.
      have hkk' : k = k' := by
        rcases lt_trichotomy k k' with hlt | heq | hgt
        · have := h k
          rw [find_eq_none_of_lt hm' hlt] at this
          simp [find] at this
        · exact heq
        · have := h k'
          rw [find_eq_none_of_lt hm hgt] at this
          simp [find] at this
      subst hkk'
      have haa' : a = a' := by
        have := h k
        simpa [find] using this
      subst haa'
      have htail : m = m' := by
        apply ih (sorted_cons.mp hm).2 (sorted_cons.mp hm').2
        intro j
        by_cases hj : j = k
        · subst hj
          rw [find_eq_none (fun hin => lt_irrefl _ ((sorted_cons.mp hm).1 j hin)),
            find_eq_none (fun hin => lt_irrefl _ ((sorted_cons.mp hm').1 j hin))]
        · have := h j
          rwa [find, find, if_neg hj, if_neg hj] at this
      rw [htail]

end OrderedMap
