import Furrent.Framework.Cpp

/-! # Arrays

    An array of a fixed length, as C has it: an access outside is undefined.
    With it the two loops that count through one, upwards (`upTo`) and
    downwards (`downFrom`), and their rules: an invariant that every round
    keeps and under which no round stops (`upTo_ok`, `downFrom_ok`). -/

namespace Cpp

variable {ε : Type u} {α σ : Type v}

/-- `a[i]`. -/
def arrayGet (a : List α) (i : Nat) : Outcome ε α :=
  if h : i < a.length then .ok a[i] else .error .trap

/-- `a[i] = x`. -/
def arraySet (a : List α) (i : Nat) (x : α) : Outcome ε (List α) :=
  if i < a.length then .ok (a.set i x) else .error .trap

/-- `for (; i < n; ++i) body(i)`. -/
def upTo (n : Nat) (body : Nat → σ → Outcome ε σ) (i : Nat) (s : σ) : Outcome ε σ :=
  if i < n then do
    let s ← body i s
    upTo n body (i + 1) s
  else .ok s
termination_by n - i

/-- `for (int i = n; --i >= 0;) body(i)`. -/
def downFrom (body : Nat → σ → Outcome ε σ) : Nat → σ → Outcome ε σ
  | 0, s => .ok s
  | i + 1, s => do
    let s ← body i s
    downFrom body i s

theorem arrayGet_ok {a : List α} {i : Nat} {x : α} (h : a[i]? = some x) :
    (arrayGet a i : Outcome ε α) = .ok x := by
  obtain ⟨hi, hx⟩ := List.getElem?_eq_some_iff.mp h
  rw [arrayGet, dif_pos hi, hx]

theorem arraySet_ok {a : List α} {i : Nat} (x : α) (h : i < a.length) :
    (arraySet a i x : Outcome ε (List α)) = .ok (a.set i x) := by
  rw [arraySet, if_pos h]

variable {body : Nat → σ → Outcome ε σ} {I : Nat → σ → Prop} {n i : Nat} {s : σ}

theorem upTo_ok (hbody : ∀ i s, i < n → I i s → ∃ s', body i s = .ok s' ∧ I (i + 1) s')
    (hi : i ≤ n) (h : I i s) : ∃ s', upTo n body i s = .ok s' ∧ I n s' := by
  obtain ⟨k, hk⟩ := Nat.exists_eq_add_of_le hi
  induction k generalizing i s with
  | zero =>
    obtain rfl : n = i := hk
    exact ⟨s, by rw [upTo, if_neg (Nat.lt_irrefl n)], h⟩
  | succ k ih =>
    have hlt : i < n := by omega
    obtain ⟨s₁, hs₁, h₁⟩ := hbody i s hlt h
    obtain ⟨s', hs', h'⟩ := ih hlt h₁ (by omega)
    refine ⟨s', ?_, h'⟩
    rw [upTo, if_pos hlt, hs₁]
    exact hs'

theorem downFrom_ok (hbody : ∀ i s, i < n → I (i + 1) s → ∃ s', body i s = .ok s' ∧ I i s')
    (h : I n s) : ∃ s', downFrom body n s = .ok s' ∧ I 0 s' := by
  induction n generalizing s with
  | zero => exact ⟨s, rfl, h⟩
  | succ n ih =>
    obtain ⟨s₁, hs₁, h₁⟩ := hbody n s (Nat.lt_succ_self n) h
    obtain ⟨s', hs', h'⟩ := ih (fun i s hi => hbody i s (by omega)) h₁
    refine ⟨s', ?_, h'⟩
    rw [downFrom, hs₁]
    exact hs'

end Cpp
