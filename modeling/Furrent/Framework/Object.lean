import Mathlib.Tactic.TypeStar

/-! # Sequential objects

    An object has a state and operations; each call of an operation changes
    the state and returns a result. Two objects are told apart only by the
    results of their calls. A relation between their states that every call
    keeps, with the same result on both sides, shows that they return the
    same results for every sequence of calls (`Bisimulates.results_eq`), and one
    object then stands for the other. -/

namespace Sequential

/-- States `σ`, operations `κ`, results `ρ`. -/
structure Object (σ κ ρ : Type*) where
  start : σ
  step : σ → κ → σ × ρ

namespace Object

variable {σ τ κ ρ : Type*} (S : Object σ κ ρ) (T : Object τ κ ρ)

/-- What a sequence of calls returns. -/
def resultsFrom (s : σ) : List κ → List ρ
  | [] => []
  | call :: calls => (S.step s call).2 :: resultsFrom (S.step s call).1 calls

/-- The same for a new object. -/
def results (calls : List κ) : List ρ := S.resultsFrom S.start calls

/-- The state a sequence of calls leaves. -/
def stateFrom (s : σ) : List κ → σ
  | [] => s
  | call :: calls => stateFrom (S.step s call).1 calls

/-- The same for a new object. -/
def state (calls : List κ) : σ := S.stateFrom S.start calls

/-- Each call of related objects returns the same and leads to related
    states. -/
structure Bisimulates (R : σ → τ → Prop) : Prop where
  start : R S.start T.start
  step : ∀ s t call, R s t →
    R (S.step s call).1 (T.step t call).1 ∧ (S.step s call).2 = (T.step t call).2

variable {S T} {R : σ → τ → Prop}

theorem Bisimulates.resultsFrom_eq (h : Bisimulates S T R) {s : σ} {t : τ} (hrel : R s t)
    (calls : List κ) : S.resultsFrom s calls = T.resultsFrom t calls := by
  induction calls generalizing s t with
  | nil => rfl
  | cons call calls ih =>
    obtain ⟨hrel', hresult⟩ := h.step s t call hrel
    rw [resultsFrom, resultsFrom, hresult, ih hrel']

theorem Bisimulates.stateFrom (h : Bisimulates S T R) {s : σ} {t : τ} (hrel : R s t)
    (calls : List κ) : R (S.stateFrom s calls) (T.stateFrom t calls) := by
  induction calls generalizing s t with
  | nil => exact hrel
  | cons call calls ih => exact ih (h.step s t call hrel).1

theorem Bisimulates.state (h : Bisimulates S T R) (calls : List κ) :
    R (S.state calls) (T.state calls) :=
  h.stateFrom h.start calls

theorem Bisimulates.results_eq (h : Bisimulates S T R) (calls : List κ) :
    S.results calls = T.results calls :=
  h.resultsFrom_eq h.start calls

end Object

end Sequential
