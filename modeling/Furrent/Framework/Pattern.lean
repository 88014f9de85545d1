import Mathlib.Data.List.TakeWhile
import Mathlib.Data.List.Forall2

/-! # Patterns

    Regular expressions that are sequences of symbols and repeated classes,
    such as `\s*(\d+)\.(\d+)`, matched against a whole word. A match cuts the
    word into one part for each atom of the pattern. Where no part can be
    continued by what may follow it, the parts are the longest ones, and
    there is no need to backtrack. -/

namespace Pattern

/-- `a`, `c*` or `c+`. -/
inductive Atom (α : Type u) where
  | symbol (a : α)
  | star (c : α → Bool)
  | plus (c : α → Bool)

variable {α : Type u}

/-- The words an atom stands for. -/
def Atom.Accepts : Atom α → List α → Prop
  | .symbol a, w => w = [a]
  | .star c, w => ∀ a ∈ w, c a = true
  | .plus c, w => w ≠ [] ∧ ∀ a ∈ w, c a = true

/-- The word is cut into these parts. -/
structure Matches (pattern : List (Atom α)) (word : List α) (parts : List (List α)) : Prop where
  word : word = parts.flatten
  accepts : List.Forall₂ Atom.Accepts pattern parts

/-! ### The matcher -/

/-- The longest part for an atom at the start of a word, and the rest. -/
def Atom.take [DecidableEq α] : Atom α → List α → Option (List α × List α)
  | .symbol _, [] => none
  | .symbol a, b :: word => if b = a then some ([b], word) else none
  | .star c, word => some (word.takeWhile c, word.dropWhile c)
  | .plus c, word =>
    if word.takeWhile c = [] then none else some (word.takeWhile c, word.dropWhile c)

/-- The parts of a word, from left to right. -/
def run [DecidableEq α] : List (Atom α) → List α → Option (List (List α))
  | [], [] => some []
  | [], _ :: _ => none
  | atom :: pattern, word => do
    let (part, rest) ← atom.take word
    let parts ← run pattern rest
    some (part :: parts)

/-! ### Patterns that need no backtracking -/

/-- A word of the pattern may start with `a`. -/
def Starts : List (Atom α) → α → Prop
  | [], _ => False
  | .symbol b :: _, a => a = b
  | .star c :: pattern, a => c a = true ∨ Starts pattern a
  | .plus c :: _, a => c a = true

/-- What is repeated does not go on with what follows. -/
def Deterministic : List (Atom α) → Prop
  | [] => True
  | .symbol _ :: pattern => Deterministic pattern
  | .star c :: pattern => (∀ a, c a = true → ¬ Starts pattern a) ∧ Deterministic pattern
  | .plus c :: pattern => (∀ a, c a = true → ¬ Starts pattern a) ∧ Deterministic pattern

variable {pattern : List (Atom α)} {atom : Atom α} {word rest part : List α}
  {parts : List (List α)} {c : α → Bool} {a : α}

/-- The first symbol of a word. -/
theorem starts_of_matches (h : List.Forall₂ Atom.Accepts pattern parts)
    (hword : parts.flatten = a :: rest) : Starts pattern a := by
  induction h with
  | nil => simp at hword
  | @cons atom part pattern parts haccepts _ ih =>
    cases part with
    | nil =>
      rw [List.flatten_cons, List.nil_append] at hword
      cases atom with
      | symbol b => simp [Atom.Accepts] at haccepts
      | star c => exact .inr (ih hword)
      | plus c => exact absurd rfl haccepts.1
    | cons b part =>
      obtain ⟨rfl, _⟩ := List.cons.inj hword
      cases atom with
      | symbol b' => exact (List.cons.inj haccepts).1
      | star c => exact .inl (haccepts b (by simp))
      | plus c => exact haccepts.2 b (by simp)

/-- A part that is repeated ends where the rest of the word starts. -/
theorem span_eq (hpart : ∀ a ∈ part, c a = true) (hrest : ∀ a w, rest = a :: w → c a = false) :
    (part ++ rest).takeWhile c = part ∧ (part ++ rest).dropWhile c = rest := by
  have hstop : rest.takeWhile c = [] ∧ rest.dropWhile c = rest := by
    cases rest with
    | nil => exact ⟨rfl, rfl⟩
    | cons b w => simp [hrest b w rfl]
  rw [List.takeWhile_append_of_pos hpart, List.dropWhile_append_of_pos hpart, hstop.1, hstop.2]
  exact ⟨List.append_nil _, rfl⟩

theorem take_complete [DecidableEq α] (haccepts : atom.Accepts part)
    (hdet : Deterministic (atom :: pattern)) (hrest : ∀ a w, rest = a :: w → Starts pattern a) :
    atom.take (part ++ rest) = some (part, rest) := by
  have hstop : ∀ c : α → Bool, (∀ a, c a = true → ¬ Starts pattern a) →
      ∀ a w, rest = a :: w → c a = false := by
    intro c hc a w hw
    cases hca : c a with
    | false => rfl
    | true => exact absurd (hrest a w hw) (hc a hca)
  cases atom with
  | symbol a =>
    have hpart : part = [a] := haccepts
    simp [hpart, Atom.take]
  | star c =>
    obtain ⟨htake, hdrop⟩ := span_eq haccepts (hstop c hdet.1)
    simp [Atom.take, htake, hdrop]
  | plus c =>
    obtain ⟨htake, hdrop⟩ := span_eq haccepts.2 (hstop c hdet.1)
    simp [Atom.take, htake, hdrop, haccepts.1]

theorem take_sound [DecidableEq α] (h : atom.take word = some (part, rest)) :
    atom.Accepts part ∧ word = part ++ rest := by
  have hspan : ∀ c : α → Bool, (word.takeWhile c, word.dropWhile c) = (part, rest) →
      (∀ a ∈ part, c a = true) ∧ word = part ++ rest := by
    intro c heq
    injection heq with hpart hrest
    rw [← hpart, ← hrest, List.takeWhile_append_dropWhile]
    exact ⟨fun a ha => List.mem_takeWhile_imp ha, rfl⟩
  cases atom with
  | symbol a =>
    cases word with
    | nil => simp [Atom.take] at h
    | cons b word =>
      simp only [Atom.take, Option.ite_none_right_eq_some, Option.some.injEq, Prod.mk.injEq] at h
      obtain ⟨rfl, rfl, rfl⟩ := h
      exact ⟨rfl, rfl⟩
  | star c => exact hspan c (Option.some.inj h)
  | plus c =>
    rw [Atom.take, Option.ite_none_left_eq_some] at h
    obtain ⟨hne, heq⟩ := h
    injection heq with heq
    obtain ⟨hall, hword⟩ := hspan c heq
    injection heq with hpart _
    rw [hpart] at hne
    exact ⟨⟨hne, hall⟩, hword⟩

/-- On a pattern without ambiguity the matcher finds the match there is. -/
theorem run_eq_some_iff [DecidableEq α] (hdet : Deterministic pattern) :
    run pattern word = some parts ↔ Matches pattern word parts := by
  induction pattern generalizing word parts with
  | nil =>
    cases word with
    | nil =>
      constructor
      · intro h
        rw [← Option.some.inj h]
        exact ⟨rfl, .nil⟩
      · rintro ⟨_, haccepts⟩
        cases haccepts
        rfl
    | cons a word =>
      refine ⟨fun h => by simp [run] at h, ?_⟩
      rintro ⟨hword, haccepts⟩
      cases haccepts
      simp at hword
  | cons atom pattern ih =>
    have htail : Deterministic pattern := by
      cases atom with
      | symbol a => exact hdet
      | star c => exact hdet.2
      | plus c => exact hdet.2
    rw [run]
    simp only [Option.bind_eq_bind, Option.bind_eq_some_iff, Option.some.injEq, Prod.exists]
    constructor
    · rintro ⟨part, rest, htake, parts', hrun, rfl⟩
      obtain ⟨haccepts, rfl⟩ := take_sound htake
      obtain ⟨rfl, htailAccepts⟩ := (ih htail).mp hrun
      exact ⟨rfl, .cons haccepts htailAccepts⟩
    · rintro ⟨rfl, haccepts⟩
      cases haccepts with
      | @cons _ part _ parts' hpart hparts =>
        refine ⟨part, parts'.flatten, ?_, parts', (ih htail).mpr ⟨rfl, hparts⟩, rfl⟩
        exact take_complete hpart hdet fun a w hw => starts_of_matches hparts hw

end Pattern
