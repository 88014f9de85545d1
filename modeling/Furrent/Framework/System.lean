import Mathlib.Tactic.TypeStar
import Mathlib.Logic.Relation

/-! # Transition systems

    A system has initial states and labelled steps. What every step keeps
    holds in every reachable state (`Reachable.invariant`). A system
    simulates another when each of its steps is a step of the other or
    changes nothing there; the reachable states are then related
    (`Simulates.reachable`). A property that does not hold of every run is
    proved of the runs of a restricted system, whose steps all meet a
    condition (`System.restrict`). A quantity that some steps lower and no
    step raises bounds how many of them a run can take (`Run.le_rank`). -/

namespace Transition

/-- States `σ`, labels `ι`. -/
structure System (σ ι : Type*) where
  init : σ → Prop
  step : σ → ι → σ → Prop

/-- The states a run can get to. -/
inductive Reachable {σ ι : Type*} (S : System σ ι) : σ → Prop where
  | init {s : σ} (h : S.init s) : Reachable S s
  | step {s s' : σ} {a : ι} (h : Reachable S s) (hstep : S.step s a s') : Reachable S s'

variable {σ τ ι κ : Type*} {S : System σ ι} {T : System τ κ}

/-- What holds initially and is kept by every step holds all the time. -/
theorem Reachable.invariant {I : σ → Prop} (hinit : ∀ s, S.init s → I s)
    (hstep : ∀ s a s', Reachable S s → I s → S.step s a s' → I s') {s : σ}
    (h : Reachable S s) : I s := by
  induction h with
  | init h => exact hinit _ h
  | step h hs ih => exact hstep _ _ _ h ih hs

/-- A run leads from one state to the other. -/
def Reaches (S : System σ ι) : σ → σ → Prop :=
  Relation.ReflTransGen fun s s' => ∃ a, S.step s a s'

theorem Reaches.step {s s' s'' : σ} {a : ι} (hstep : S.step s a s') (h : Reaches S s' s'') :
    Reaches S s s'' := .head ⟨a, hstep⟩ h

theorem Reachable.trans {s s' : σ} (h : Reachable S s) (hreaches : Reaches S s s') :
    Reachable S s' := by
  induction hreaches with
  | refl => exact h
  | tail _ hlast ih =>
    obtain ⟨a, hstep⟩ := hlast
    exact ih.step hstep

/-- What every step keeps holds all along a run. -/
theorem Reaches.invariant {I : σ → Prop} {s s' : σ}
    (hstep : ∀ s a s', I s → S.step s a s' → I s') (hI : I s) (h : Reaches S s s') : I s' := by
  induction h with
  | refl => exact hI
  | tail _ hlast ih =>
    obtain ⟨a, ha⟩ := hlast
    exact hstep _ a _ ih ha

/-! ### Runs whose steps meet a condition -/

/-- The system that takes only the steps that meet the condition `P`. -/
def System.restrict (S : System σ ι) (P : σ → ι → σ → Prop) : System σ ι where
  init := S.init
  step := fun s a s' => S.step s a s' ∧ P s a s'

variable {P Q : σ → ι → σ → Prop}

theorem Reachable.of_restrict {s : σ} (h : Reachable (S.restrict P) s) : Reachable S s := by
  induction h with
  | init hinit => exact .init hinit
  | step _ hstep ih => exact .step ih hstep.1

theorem Reachable.restrict_mono {s : σ} (hPQ : ∀ s a s', P s a s' → Q s a s')
    (h : Reachable (S.restrict P) s) : Reachable (S.restrict Q) s := by
  induction h with
  | init hinit => exact .init hinit
  | step _ hstep ih => exact .step ih ⟨hstep.1, hPQ _ _ _ hstep.2⟩

/-! ### Counting steps -/

/-- A run from `s` to `s'` in which `k` steps meet `P`. -/
inductive Run (S : System σ ι) (P : σ → ι → σ → Prop) (s : σ) : Nat → σ → Prop where
  | refl : Run S P s 0 s
  | counted {k : Nat} {s₁ s₂ : σ} {a : ι} (run : Run S P s k s₁) (hstep : S.step s₁ a s₂)
      (hmeets : P s₁ a s₂) : Run S P s (k + 1) s₂
  | other {k : Nat} {s₁ s₂ : σ} {a : ι} (run : Run S P s k s₁) (hstep : S.step s₁ a s₂)
      (hnot : ¬ P s₁ a s₂) : Run S P s k s₂

/-- What the counted steps lower and no step raises bounds their number. -/
theorem Run.le_rank {I : σ → Prop} {rank : σ → Nat} {s s' : σ} {k : Nat} (h : Run S P s k s')
    (hkeep : ∀ s a s', I s → S.step s a s' → I s')
    (hmono : ∀ s a s', I s → S.step s a s' → rank s' ≤ rank s)
    (hlower : ∀ s a s', I s → S.step s a s' → P s a s' → rank s' < rank s) (hI : I s) :
    I s' ∧ k + rank s' ≤ rank s := by
  induction h with
  | refl => exact ⟨hI, by omega⟩
  | counted _ hstep hmeets ih =>
    have hlt := hlower _ _ _ ih.1 hstep hmeets
    exact ⟨hkeep _ _ _ ih.1 hstep, by omega⟩
  | other _ hstep _ ih =>
    have hle := hmono _ _ _ ih.1 hstep
    exact ⟨hkeep _ _ _ ih.1 hstep, by omega⟩

/-- What the counted steps lower by one and the others leave alone is their
    number. -/
theorem Run.add_rank {I : σ → Prop} {rank : σ → Nat} {s s' : σ} {k : Nat} (h : Run S P s k s')
    (hkeep : ∀ s a s', I s → S.step s a s' → I s')
    (hcounted : ∀ s a s', I s → S.step s a s' → P s a s' → rank s' + 1 = rank s)
    (hother : ∀ s a s', I s → S.step s a s' → ¬ P s a s' → rank s' = rank s) (hI : I s) :
    I s' ∧ k + rank s' = rank s := by
  induction h with
  | refl => exact ⟨hI, Nat.zero_add _⟩
  | counted _ hstep hmeets ih =>
    have hlower := hcounted _ _ _ ih.1 hstep hmeets
    exact ⟨hkeep _ _ _ ih.1 hstep, by omega⟩
  | other _ hstep hnot ih =>
    have hsame := hother _ _ _ ih.1 hstep hnot
    exact ⟨hkeep _ _ _ ih.1 hstep, by omega⟩

/-- Where every state with a positive rank has a step that is counted and
    lowers the rank by one, a run gets to rank zero. -/
theorem Run.exists_of_rank {I : σ → Prop} {rank : σ → Nat} {s : σ}
    (hprogress : ∀ s, I s → rank s ≠ 0 →
      ∃ a s', S.step s a s' ∧ P s a s' ∧ I s' ∧ rank s' + 1 = rank s) (hI : I s) :
    ∃ s', Run S P s (rank s) s' ∧ I s' ∧ rank s' = 0 := by
  have hsteps : ∀ k ≤ rank s, ∃ s', Run S P s k s' ∧ I s' ∧ rank s' + k = rank s := by
    intro k
    induction k with
    | zero => exact fun _ => ⟨s, .refl, hI, rfl⟩
    | succ k ih =>
      intro hk
      obtain ⟨s₁, hrun, hI₁, hrank⟩ := ih (by omega)
      obtain ⟨a, s₂, hstep, hmeets, hI₂, hlower⟩ := hprogress s₁ hI₁ (by omega)
      exact ⟨s₂, hrun.counted hstep hmeets, hI₂, by omega⟩
  obtain ⟨s', hrun, hI', hrank⟩ := hsteps (rank s) (Nat.le_refl _)
  exact ⟨s', hrun, hI', by omega⟩

/-! ### Simulation -/

/-- A step of the concrete system `S` is a step of the abstract system `T`
    or is not seen there. -/
structure Simulates (S : System σ ι) (T : System τ κ) (R : σ → τ → Prop) : Prop where
  init : ∀ s, S.init s → ∃ t, T.init t ∧ R s t
  step : ∀ s a s' t, Reachable S s → R s t → S.step s a s' →
    R s' t ∨ ∃ b t', T.step t b t' ∧ R s' t'

theorem Simulates.reachable {R : σ → τ → Prop} (h : Simulates S T R) {s : σ}
    (hs : Reachable S s) : ∃ t, Reachable T t ∧ R s t := by
  induction hs with
  | init hinit =>
    obtain ⟨t, ht, hrel⟩ := h.init _ hinit
    exact ⟨t, .init ht, hrel⟩
  | step hreach hstep ih =>
    obtain ⟨t, ht, hrel⟩ := ih
    rcases h.step _ _ _ t hreach hrel hstep with hsame | ⟨b, t', hb, hrel'⟩
    · exact ⟨t, ht, hsame⟩
    · exact ⟨t', .step ht hb, hrel'⟩

end Transition
