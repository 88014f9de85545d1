import Mathlib.Logic.Function.Basic

/-! # Tokens in places

    A token is in one place at a time and wanders from place to place.
    Where the tokens are is recorded by the containers of a program, one
    for each place: `found p k` says how often container `p` holds token
    `k`. The containers agree with a map `loc` when each token is found
    exactly once, in its place. A program that takes a token out of one
    container and puts it into another keeps such an agreement. -/

namespace Tokens

variable {P K : Type*} [DecidableEq P]

/-- Every token is found once in the place `loc` says and nowhere else. -/
def Located (found : P → K → Nat) (loc : K → Option P) : Prop :=
  ∀ p k, found p k = if loc k = some p then 1 else 0

variable {found found' : P → K → Nat} {loc : K → Option P} {k : K} {p q : P}

theorem Located.eq_some (h : Located found loc) (hpos : 0 < found p k) : loc k = some p := by
  by_contra hne
  rw [h p k, if_neg hne] at hpos
  omega

theorem Located.eq_one (h : Located found loc) (hloc : loc k = some p) : found p k = 1 := by
  rw [h p k, if_pos hloc]

theorem Located.eq_zero (h : Located found loc) (hloc : loc k ≠ some p) : found p k = 0 := by
  rw [h p k, if_neg hloc]

/-- A token somewhere is in exactly one place. -/
theorem Located.exactly_one (h : Located found loc) (hloc : loc k ≠ none) :
    ∃ p, found p k = 1 ∧ ∀ q, q ≠ p → found q k = 0 := by
  obtain ⟨p, hp⟩ := Option.ne_none_iff_exists'.mp hloc
  refine ⟨p, h.eq_one hp, ?_⟩
  intro q hq
  apply h.eq_zero
  rw [hp]
  intro heq
  exact hq (Option.some.inj heq).symm

/-! ### Moving a token -/

variable [DecidableEq K]

/-- Token `k` was taken from `p` and put to `q`, nothing else. -/
structure Moved (found found' : P → K → Nat) (k : K) (p q : P) : Prop where
  taken : ∀ k', found p k' = found' p k' + if k' = k then 1 else 0
  put : ∀ k', found' q k' = found q k' + if k' = k then 1 else 0
  other : ∀ p', p' ≠ p → p' ≠ q → found' p' = found p'

/-- The token that moved was there, and the containers agree with the map
    in which it has moved. -/
theorem Located.moved (h : Located found loc) (hpq : p ≠ q) (hmoved : Moved found found' k p q) :
    loc k = some p ∧ Located found' (Function.update loc k (some q)) := by
  have hhere : loc k = some p := by
    have htaken := hmoved.taken k
    rw [if_pos rfl] at htaken
    exact h.eq_some (by omega)
  refine ⟨hhere, ?_⟩
  intro p' k'
  have hold := h p' k'
  by_cases hk : k' = k
  · subst hk
    rw [Function.update_self]
    rw [hhere] at hold
    by_cases hp : p' = p
    · subst hp
      have htaken := hmoved.taken k'
      rw [if_pos rfl] at htaken hold
      rw [if_neg (fun heq => hpq (Option.some.inj heq).symm)]
      omega
    · rw [if_neg (fun heq => hp (Option.some.inj heq).symm)] at hold
      by_cases hq : p' = q
      · subst hq
        have hput := hmoved.put k'
        rw [if_pos rfl] at hput ⊢
        omega
      · rw [hmoved.other p' hp hq, if_neg (fun heq => hq (Option.some.inj heq).symm)]
        exact hold
  · -- The other tokens are where they were.
    rw [Function.update_of_ne hk, ← hold]
    by_cases hp : p' = p
    · have htaken := hmoved.taken k'
      rw [if_neg hk] at htaken
      rw [hp]
      omega
    · by_cases hq : p' = q
      · have hput := hmoved.put k'
        rw [if_neg hk] at hput
        rw [hq]
        omega
      · rw [hmoved.other p' hp hq]

/-! ### Moving all tokens of a kind -/

/-- The tokens in `S` were taken from `p` and put to `q`, nothing else. -/
structure MovedAll (found found' : P → K → Nat) (S : K → Prop) [DecidablePred S] (p q : P) :
    Prop where
  taken : ∀ k, found' p k = if S k then 0 else found p k
  put : ∀ k, found' q k = found q k + if S k then found p k else 0
  other : ∀ p', p' ≠ p → p' ≠ q → found' p' = found p'

omit [DecidableEq K] in
theorem Located.movedAll {S : K → Prop} [DecidablePred S] (h : Located found loc) (hpq : p ≠ q)
    (hmoved : MovedAll found found' S p q) :
    Located found' fun k => if S k ∧ loc k = some p then some q else loc k := by
  intro p' k
  have hp := h p k
  have hq := h q k
  have hput := hmoved.put k
  by_cases hk : S k ∧ loc k = some p
  · -- A token that moves: it was at `p`, so it was not at `q`.
    rw [if_pos hk.2] at hp
    rw [if_neg (by rw [hk.2]; simpa using hpq)] at hq
    rw [if_pos hk.1] at hput
    simp only [if_pos hk]
    by_cases hp' : p' = p
    · rw [hp', hmoved.taken k, if_pos hk.1, if_neg (by simpa using Ne.symm hpq)]
    · by_cases hq' : p' = q
      · rw [hq', if_pos rfl]
        omega
      · rw [hmoved.other p' hp' hq', h p' k, if_neg (by rw [hk.2]; simpa using Ne.symm hp'),
          if_neg (by simpa using Ne.symm hq')]
  · -- A token that stays, in `S` or not.
    have hzero : S k → found p k = 0 := fun hS => h.eq_zero fun hloc => hk ⟨hS, hloc⟩
    simp only [if_neg hk]
    rw [← h p' k]
    by_cases hp' : p' = p
    · rw [hp', hmoved.taken k]
      split
      · next hS => rw [hzero hS]
      · rfl
    · by_cases hq' : p' = q
      · rw [hq', hput]
        split
        · next hS => rw [hzero hS, Nat.add_zero]
        · rfl
      · rw [hmoved.other p' hp' hq']

end Tokens
