import Furrent.Framework.Program

/-! # Loops

    `while (cond) body` as a program: the variables of the loop are passed
    from round to round, the state of the object is changed in place, and
    the model allows at most `n` rounds.

    `Rounds` is the loop seen from inside, without a bound: how far it has
    got after some completed rounds. A run of the loop is a number of
    rounds and a way to end (`loop_cases`), so that what every round keeps
    holds at the head of the loop all the time (`Rounds.invariant`). A
    number that every round lowers keeps the loop within its bound
    (`wp_loop_variant`, `wp_loop_rank`). -/

namespace Cpp.Prog

variable {σ ε α : Type}

/-- `while (cond) body`, at most `n` times. -/
def loop (cond : α → σ → Bool) (body : α → Prog σ ε α) : Nat → α → Prog σ ε α
  | 0, _ => stop .outOfFuel
  | n + 1, a => do
    let s ← get
    if cond a s then do
      let a ← body a
      loop cond body n a
    else pure a

/-- From variables `a` and state `s`, `k` rounds lead to `a'` and `s'`. -/
inductive Rounds (cond : α → σ → Bool) (body : α → Prog σ ε α) :
    Nat → α → σ → α → σ → Prop where
  | refl (a : α) (s : σ) : Rounds cond body 0 a s a s
  | step {k : Nat} {a a₁ a' : α} {s s₁ s' : σ} (hcond : cond a s = true)
      (hbody : body a s = (.ok a₁, s₁)) (rest : Rounds cond body k a₁ s₁ a' s') :
      Rounds cond body (k + 1) a s a' s'

variable {cond : α → σ → Bool} {body : α → Prog σ ε α} {n k : Nat} {a a' : α} {s s' : σ}

/-! ### One round -/

theorem loop_done (h : cond a s = false) : loop cond body (n + 1) a s = (.ok a, s) := by
  have hget : (get : Prog σ ε σ) s = (.ok s, s) := rfl
  rw [loop, bind_ok hget, h]
  rfl

theorem loop_ok {a₁ : α} {s₁ : σ} (h : cond a s = true) (hbody : body a s = (.ok a₁, s₁)) :
    loop cond body (n + 1) a s = loop cond body n a₁ s₁ := by
  have hget : (get : Prog σ ε σ) s = (.ok s, s) := rfl
  rw [loop, bind_ok hget, h, if_pos rfl, bind_ok hbody]

theorem loop_error {e : Stop ε} (h : cond a s = true) (hbody : body a s = (.error e, s')) :
    loop cond body (n + 1) a s = (.error e, s') := by
  have hget : (get : Prog σ ε σ) s = (.ok s, s) := rfl
  rw [loop, bind_ok hget, h, if_pos rfl, bind_error hbody]

/-! ### Rounds -/

/-- What every round keeps holds at the head of the loop. -/
theorem Rounds.invariant {I : α → σ → Prop} (h : Rounds cond body k a s a' s')
    (hstep : ∀ a s a₁ s₁, I a s → cond a s = true → body a s = (.ok a₁, s₁) → I a₁ s₁)
    (hI : I a s) : I a' s' := by
  induction h with
  | refl a s => exact hI
  | step hcond hbody rest ih => exact ih (hstep _ _ _ _ hI hcond hbody)

/-! ### Runs -/

/-- How the loop ends after its rounds. -/
inductive Ends (cond : α → σ → Bool) (body : α → Prog σ ε α) (a : α) (s : σ) :
    Outcome ε α → σ → Prop where
  /-- The condition does not hold any more. -/
  | done (hcond : cond a s = false) : Ends cond body a s (.ok a) s
  | stopped {e : Stop ε} {s' : σ} (hcond : cond a s = true) (hbody : body a s = (.error e, s')) :
      Ends cond body a s (.error e) s'

/-- A run of the loop is a number of rounds and an end, or all its rounds. -/
theorem loop_cases {r : Outcome ε α} (h : loop cond body n a s = (r, s')) :
    ∃ k a₁ s₁, Rounds cond body k a s a₁ s₁ ∧
      (k < n ∧ Ends cond body a₁ s₁ r s' ∨
        k = n ∧ r = .error .outOfFuel ∧ s' = s₁) := by
  induction n generalizing a s with
  | zero =>
    obtain ⟨rfl, rfl⟩ := Prod.mk.inj h
    exact ⟨0, a, s, .refl a s, Or.inr ⟨rfl, rfl, rfl⟩⟩
  | succ n ih =>
    cases hcond : cond a s with
    | false =>
      rw [loop_done hcond] at h
      obtain ⟨rfl, rfl⟩ := Prod.mk.inj h
      exact ⟨0, a, s, .refl a s, Or.inl ⟨Nat.succ_pos n, .done hcond⟩⟩
    | true =>
      cases hbody : body a s with
      | mk o s₁ =>
        cases o with
        | error e =>
          rw [loop_error hcond hbody] at h
          obtain ⟨rfl, rfl⟩ := Prod.mk.inj h
          exact ⟨0, a, s, .refl a s, Or.inl ⟨Nat.succ_pos n, .stopped hcond hbody⟩⟩
        | ok a₁ =>
          rw [loop_ok hcond hbody] at h
          obtain ⟨k, a₂, s₂, hrounds, hend⟩ := ih h
          refine ⟨k + 1, a₂, s₂, .step hcond hbody hrounds, ?_⟩
          rcases hend with ⟨hk, hends⟩ | ⟨rfl, hr, hs⟩
          · exact Or.inl ⟨Nat.succ_lt_succ hk, hends⟩
          · exact Or.inr ⟨rfl, hr, hs⟩

/-- A loop that returns has been through rounds until the condition failed. -/
theorem rounds_of_loop (h : loop cond body n a s = (.ok a', s')) :
    ∃ k, Rounds cond body k a s a' s' ∧ cond a' s' = false := by
  obtain ⟨k, a₁, s₁, hrounds, ⟨_, hends⟩ | ⟨_, hr, _⟩⟩ := loop_cases h
  · cases hends with
    | done hcond => exact ⟨k, hrounds, hcond⟩
  · injection hr

/-- The rule of the loop: an invariant of the body. -/
theorem wp_loop {I Q : α → σ → Prop} {E : Stop ε → σ → Prop}
    (hbody : ∀ a s, I a s → cond a s = true → (body a).wp I E s)
    (hdone : ∀ a s, I a s → cond a s = false → Q a s) (hfuel : ∀ a s, I a s → E .outOfFuel s)
    (hI : I a s) : (loop cond body n a).wp Q E s := by
  induction n generalizing a s with
  | zero => exact hfuel a s hI
  | succ n ih =>
    rw [loop, wp_bind, wp_get]
    apply wp_ite
    · intro hcond
      rw [wp_bind]
      exact wp_mono (hbody a s hI hcond) (fun a s hI => ih hI) (fun _ _ he => he)
    · intro hcond
      exact hdone a s hI (by simpa using hcond)

/-- The same for an invariant with a number that every round lowers: a loop
    that may take more rounds than that does not run out of them. -/
theorem wp_loop_variant {I : Nat → α → σ → Prop} {Q : α → σ → Prop} {E : Stop ε → σ → Prop}
    {b : Nat}
    (hbody : ∀ b a s, I b a s → cond a s = true →
      (body a).wp (fun a' s' => ∃ b' < b, I b' a' s') E s)
    (hdone : ∀ b a s, I b a s → cond a s = false → Q a s) (hn : b < n) (hI : I b a s) :
    (loop cond body n a).wp Q E s := by
  induction n generalizing a s b with
  | zero => omega
  | succ n ih =>
    rw [loop, wp_bind, wp_get]
    apply wp_ite
    · intro hcond
      rw [wp_bind]
      refine wp_mono (hbody b a s hI hcond) ?_ (fun _ _ he => he)
      intro a' s' h
      obtain ⟨b', hlt, hI'⟩ := h
      exact ih (by omega) hI'
    · intro hcond
      exact hdone b a s hI (by simpa using hcond)

/-- The number may be a quantity of the variables and the state. -/
theorem wp_loop_rank {I Q : α → σ → Prop} {E : Stop ε → σ → Prop} {r : α → σ → Nat}
    (hbody : ∀ a s, I a s → cond a s = true →
      (body a).wp (fun a' s' => I a' s' ∧ r a' s' < r a s) E s)
    (hdone : ∀ a s, I a s → cond a s = false → Q a s) (hn : r a s < n) (hI : I a s) :
    (loop cond body n a).wp Q E s := by
  apply wp_loop_variant (I := fun b a s => I a s ∧ r a s = b)
  · intro b a s h hcond
    refine wp_mono (hbody a s h.1 hcond) ?_ (fun _ _ he => he)
    intro a' s' h'
    exact ⟨r a' s', by omega, h'.1, rfl⟩
  · intro b a s h hcond
    exact hdone a s h.1 hcond
  · exact hn
  · exact ⟨hI, rfl⟩

end Cpp.Prog
