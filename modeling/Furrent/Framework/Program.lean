import Furrent.Framework.Cpp

/-! # Programs on a state

    A member function runs on the state of its object. It may return,
    report an error, throw, trap or use up its fuel, and in each case it
    leaves a state behind: an error or an exception does not undo what was
    done before it.

    `wp` is the weakest precondition for two postconditions, one for runs
    that return and one for runs that stop. A function is specified once by
    a rule that says what its `wp` follows from; the rules compose with
    `wp_bind`. -/

namespace Cpp

/-- A call on a state of type `σ` that returns an `α`. -/
def Prog (σ ε α : Type) := σ → Outcome ε α × σ

namespace Prog

variable {σ ε α β : Type}

instance : Monad (Prog σ ε) where
  pure a := fun s => (.ok a, s)
  bind p f := fun s =>
    match p s with
    | (.ok a, s') => f a s'
    | (.error e, s') => (.error e, s')

/-- The state. -/
def get : Prog σ ε σ := fun s => (.ok s, s)

/-- Change the state. -/
def modify (f : σ → σ) : Prog σ ε Unit := fun s => (.ok (), f s)

/-- End the call. -/
def stop (e : Stop ε) : Prog σ ε α := fun s => (.error e, s)

/-- A call that reports no error of its own and does not touch the state. -/
def ofOutcome : Outcome Empty α → Prog σ ε α
  | .ok a => pure a
  | .error (.throw x) => stop (.throw x)
  | .error .trap => stop .trap
  | .error .outOfFuel => stop .outOfFuel

/-! ### Runs -/

theorem ofOutcome_state (o : Outcome Empty α) (s : σ) :
    (ofOutcome o s : Outcome ε α × σ).2 = s := by
  cases o with
  | ok a => rfl
  | error e =>
    cases e with
    | error x => exact x.elim
    | throw x => rfl
    | trap => rfl
    | outOfFuel => rfl

theorem ofOutcome_eq_ok {o : Outcome Empty α} {a : α} {s s' : σ}
    (h : (ofOutcome o s : Outcome ε α × σ) = (.ok a, s')) : o = .ok a ∧ s' = s := by
  cases o with
  | ok a' =>
    obtain ⟨ha, hs⟩ := Prod.mk.inj h
    cases ha
    exact ⟨rfl, hs.symm⟩
  | error e =>
    cases e with
    | error x => exact x.elim
    | throw x => cases h
    | trap => cases h
    | outOfFuel => cases h

section

variable {p : Prog σ ε α} {f : α → Prog σ ε β} {s s' : σ}

/-- A call whose first part returned goes on with the second. -/
theorem bind_ok {a : α} (h : p s = (.ok a, s')) : (p >>= f) s = f a s' := by
  show (match p s with
    | (.ok a, s') => f a s'
    | (.error e, s') => (.error e, s')) = _
  rw [h]

/-- A call whose first part stopped has stopped. -/
theorem bind_error {e : Stop ε} (h : p s = (.error e, s')) : (p >>= f) s = (.error e, s') := by
  show (match p s with
    | (.ok a, s') => f a s'
    | (.error e, s') => (.error e, s')) = _
  rw [h]

theorem bind_assoc {γ : Type} (p : Prog σ ε α) (f : α → Prog σ ε β) (g : β → Prog σ ε γ) :
    (p >>= f) >>= g = p >>= fun a => f a >>= g := by
  funext s
  cases hrun : p s with
  | mk r s' =>
    cases r with
    | ok a =>
      rw [bind_ok hrun]
      cases hf : f a s' with
      | mk r' s'' =>
        have hpf : (p >>= f) s = (r', s'') := by rw [bind_ok hrun, hf]
        cases r' with
        | ok b => rw [bind_ok hpf, bind_ok hf]
        | error e => rw [bind_error hpf, bind_error hf]
    | error e =>
      have hpf : (p >>= f) s = (.error e, s') := bind_error hrun
      rw [bind_error hpf, bind_error hrun]

/-- Two sequences run alike when their parts do. -/
theorem bind_congr {q : Prog σ ε α} {g : α → Prog σ ε β} (hpq : p s = q s)
    (hfg : ∀ a s', q s = (.ok a, s') → f a s' = g a s') : (p >>= f) s = (q >>= g) s := by
  cases hrun : q s with
  | mk r s' =>
    rw [hrun] at hpq
    cases r with
    | ok a => rw [bind_ok hpq, bind_ok hrun, hfg a s' hrun]
    | error e => rw [bind_error hpq, bind_error hrun]

/-- A call that returned has got through both its parts. -/
theorem bind_eq_ok {b : β} (h : (p >>= f) s = (.ok b, s')) :
    ∃ a s₁, p s = (.ok a, s₁) ∧ f a s₁ = (.ok b, s') := by
  cases hrun : p s with
  | mk r s₁ =>
    cases r with
    | ok a =>
      rw [bind_ok hrun] at h
      exact ⟨a, s₁, rfl, h⟩
    | error e =>
      rw [bind_error hrun] at h
      injection h with h _
      injection h

end

/-! ### Weakest preconditions -/

/-- Run on `s`, the call returns into `Q` or stops into `E`. -/
def wp (p : Prog σ ε α) (Q : α → σ → Prop) (E : Stop ε → σ → Prop) (s : σ) : Prop :=
  match p s with
  | (.ok a, s') => Q a s'
  | (.error e, s') => E e s'

variable {p : Prog σ ε α} {f : α → Prog σ ε β} {Q Q' : α → σ → Prop}
  {E E' : Stop ε → σ → Prop} {s s' : σ}

theorem wp_ok {a : α} (h : wp p Q E s) (hrun : p s = (.ok a, s')) : Q a s' := by
  rw [wp, hrun] at h
  exact h

theorem wp_error {e : Stop ε} (h : wp p Q E s) (hrun : p s = (.error e, s')) : E e s' := by
  rw [wp, hrun] at h
  exact h

theorem wp_of_ok {a : α} (hrun : p s = (.ok a, s')) (h : Q a s') : wp p Q E s := by
  rw [wp, hrun]
  exact h

theorem wp_of_error {e : Stop ε} (hrun : p s = (.error e, s')) (h : E e s') : wp p Q E s := by
  rw [wp, hrun]
  exact h

theorem wp_intro (hok : ∀ a s', p s = (.ok a, s') → Q a s')
    (herror : ∀ e s', p s = (.error e, s') → E e s') : wp p Q E s := by
  unfold wp
  split
  · next a s' hrun => exact hok a s' hrun
  · next e s' hrun => exact herror e s' hrun

/-- What holds however the call ends holds of the state it leaves. -/
theorem wp_state {I : σ → Prop} (h : wp p (fun _ s' => I s') (fun _ s' => I s') s) :
    I (p s).2 := by
  unfold wp at h
  split at h
  · next hrun =>
    rw [hrun]
    exact h
  · next hrun =>
    rw [hrun]
    exact h

theorem wp_mono (h : wp p Q E s) (hQ : ∀ a s', Q a s' → Q' a s')
    (hE : ∀ e s', E e s' → E' e s') : wp p Q' E' s := by
  unfold wp at h ⊢
  split
  · next a s' hrun =>
    rw [hrun] at h
    exact hQ a s' h
  · next e s' hrun =>
    rw [hrun] at h
    exact hE e s' h

@[simp] theorem wp_pure {a : α} : wp (pure a : Prog σ ε α) Q E s ↔ Q a s := Iff.rfl

@[simp] theorem wp_get {Q : σ → σ → Prop} : wp (get : Prog σ ε σ) Q E s ↔ Q s s := Iff.rfl

@[simp] theorem wp_modify {g : σ → σ} {Q : Unit → σ → Prop} :
    wp (modify g : Prog σ ε Unit) Q E s ↔ Q () (g s) := Iff.rfl

@[simp] theorem wp_stop {e : Stop ε} : wp (stop e : Prog σ ε α) Q E s ↔ E e s := Iff.rfl

@[simp] theorem wp_bind {Q : β → σ → Prop} :
    wp (p >>= f) Q E s ↔ wp p (fun a s' => wp (f a) Q E s') E s := by
  cases hrun : p s with
  | mk r s' =>
    cases r with
    | ok a => rw [wp, bind_ok hrun, wp, hrun]; rfl
    | error e => rw [wp, bind_error hrun, wp, hrun]

/-- A call without effects returns what it computes, or stops. -/
theorem wp_ofOutcome {o : Outcome Empty α} (hok : ∀ a, o = .ok a → Q a s)
    (hstop : ∀ e, E e s) : wp (ofOutcome o : Prog σ ε α) Q E s := by
  cases o with
  | ok a => exact hok a rfl
  | error e =>
    cases e with
    | error x => exact x.elim
    | throw x => exact hstop (.throw x)
    | trap => exact hstop .trap
    | outOfFuel => exact hstop .outOfFuel

/-- A condition is decided where it stands. -/
theorem wp_ite {c : Prop} [Decidable c] {p q : Prog σ ε α} (hp : c → wp p Q E s)
    (hq : ¬ c → wp q Q E s) : wp (if c then p else q) Q E s := by
  by_cases h : c
  · rw [if_pos h]
    exact hp h
  · rw [if_neg h]
    exact hq h

end Prog

end Cpp
