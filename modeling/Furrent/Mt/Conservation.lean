import Furrent.Mt.SharedQueue

/-! # The queue loses nothing

    What the shared queue is for: everything that is inserted is queued
    until it is extracted or removed. In a ledger of the insertions every
    line is marked with what has become of it. The queue holds the queued
    lines in the order of the ledger, and the log has the others; so nothing
    gets lost, nothing is handed out twice, and what remains keeps its
    order. -/

namespace Furrent.Mt

open Cpp Policy Transition Ledger

/-! ### The abstract model -/

/-- What has become of something that was inserted. -/
inductive Status where
  | queued
  | extracted
  | removed
  deriving DecidableEq, Repr

variable {α ι : Type}

/-- What can happen to the insertions. -/
inductive LedgerStep : List (α × Status) → Unit → List (α × Status) → Prop where
  | insert {lines : List (α × Status)} (item : α) : LedgerStep lines () (lines ++ [(item, .queued)])
  /-- The line at position `k` of the queued ones. -/
  | extract {lines : List (α × Status)} (k : Nat) :
      LedgerStep lines () (remark .queued .extracted (single k) lines)
  | remove {lines : List (α × Status)} (mask : List Bool) :
      LedgerStep lines () (remark .queued .removed mask lines)

def ledger (α : Type) : System (List (α × Status)) Unit where
  init := fun lines => lines = []
  step := LedgerStep

/-- The ledger agrees with the queue and the log. -/
structure State.Agrees (s : State α ι) (lines : List (α × Status)) : Prop where
  inserted : s.log.inserted = lines.map Prod.fst
  queued : s.work = marked .queued lines
  extracted : s.log.extracted.Perm (marked .extracted lines)
  removed : s.log.removed.Perm (marked .removed lines)

variable {s s' : State α ι} {c : Call α} {thread : Thread} {lines : List (α × Status)}

/-! ### The queue refines the ledger -/

/-- The extracted line goes from the queue to the end of the log. -/
theorem State.Agrees.extract (h : s.Agrees lines) {k : Nat} {item : α}
    (hitem : s.work[k]? = some item) (hwork : s'.work = s.work.eraseIdx k)
    (hlog : s'.log = { s.log with extracted := s.log.extracted ++ [item] }) :
    s'.Agrees (remark .queued .extracted (single k) lines) := by
  have harrives := marked_remark_of_ne (show Status.extracted ≠ .queued by decide) (single k) lines
  rw [← h.queued, taken_single, hitem] at harrives
  constructor
  · rw [hlog, map_fst_remark, h.inserted]
  · rw [hwork, marked_remark_self (by decide), ← h.queued, kept_single]
  · rw [hlog]
    calc (s.log.extracted ++ [item]).Perm (item :: s.log.extracted) :=
          List.perm_append_singleton item _
      List.Perm _ (item :: marked .extracted lines) := h.extracted.cons item
      List.Perm _ _ := harrives.symm
  · rw [hlog, marked_remark_other (by decide) (by decide)]
    exact h.removed

/-- The lines that are removed, likewise. -/
theorem State.Agrees.remove (h : s.Agrees lines) {mask : List Bool}
    (hwork : s'.work = kept mask s.work)
    (hlog : s'.log = { s.log with removed := s.log.removed ++ taken mask s.work }) :
    s'.Agrees (remark .queued .removed mask lines) := by
  have harrives := marked_remark_of_ne (show Status.removed ≠ .queued by decide) mask lines
  rw [← h.queued] at harrives
  constructor
  · rw [hlog, map_fst_remark, h.inserted]
  · rw [hwork, marked_remark_self (by decide), ← h.queued]
  · rw [hlog, marked_remark_other (by decide) (by decide)]
    exact h.extracted
  · rw [hlog]
    calc (s.log.removed ++ taken mask s.work).Perm (taken mask s.work ++ s.log.removed) :=
          List.perm_append_comm
      List.Perm _ (taken mask s.work ++ marked .removed lines) := h.removed.append_left _
      List.Perm _ _ := harrives.symm

theorem State.Agrees.insert (h : s.Agrees lines) {item : α} (hwork : s'.work = s.work ++ [item])
    (hlog : s'.log = { s.log with inserted := s.log.inserted ++ [item] }) :
    s'.Agrees (lines ++ [(item, .queued)]) := by
  constructor
  · rw [hlog, List.map_append, h.inserted]
    rfl
  · rw [hwork, marked_append, h.queued]
    rfl
  · rw [hlog, marked_append]
    simpa using h.extracted
  · rw [hlog, marked_append]
    simpa using h.removed

theorem Effect.refines (heffect : Effect s c s' thread) (h : s.Agrees lines) :
    s'.Agrees lines ∨ ∃ lines', LedgerStep lines () lines' ∧ s'.Agrees lines' := by
  cases heffect with
  | push call => exact .inr ⟨_, .insert _, h.insert rfl rfl⟩
  | extract found => exact .inr ⟨_, .extract _, h.extract found rfl rfl⟩
  | mutate mutation => exact .inr ⟨_, .remove _, h.remove rfl rfl⟩
  | beginSkipWaiting => exact .inl ⟨h.inserted, h.queued, h.extracted, h.removed⟩
  | _ => exact .inl h

/-- The threads do not matter. -/
theorem State.Agrees.congr (h : s.Agrees lines) (hwork : s'.work = s.work)
    (hlog : s'.log = s.log) : s'.Agrees lines := by
  constructor
  · rw [hlog, h.inserted]
  · rw [hwork, h.queued]
  · rw [hlog]
    exact h.extracted
  · rw [hlog]
    exact h.removed

variable [DecidableEq ι]

theorem Step.refines {a : ι × Action α} (hstep : Step s a s') (h : s.Agrees lines) :
    s'.Agrees lines ∨ ∃ lines', LedgerStep lines () lines' ∧ s'.Agrees lines' := by
  cases hstep with
  | call c ht =>
    rcases (enter_effect s c).refines h with hsame | ⟨lines', hledger, hmoved⟩
    · exact .inl (hsame.congr rfl rfl)
    · exact .inr ⟨lines', hledger, hmoved.congr rfl rfl⟩
  | notify ht => exact .inl (h.congr rfl rfl)
  | wakeUp ht => exact .inl (h.congr rfl rfl)
  | recheck ht => exact .inl (h.congr rfl rfl)

theorem sharedQueue_simulates : Simulates (sharedQueue α ι) (ledger α) State.Agrees where
  init := by
    intro s hs
    have hstart : s = State.start := hs
    rw [hstart]
    exact ⟨[], rfl, rfl, rfl, .refl _, .refl _⟩
  step := by
    intro s a s' lines _ hagrees hstep
    rcases Step.refines hstep hagrees with hsame | ⟨lines', hledger, hmoved⟩
    · exact .inl hsame
    · exact .inr ⟨(), lines', hledger, hmoved⟩

/-! ### What follows for the queue -/

omit [DecidableEq ι] in
/-- Every line has one of the three marks. -/
theorem lines_perm (lines : List (α × Status)) :
    (lines.map Prod.fst).Perm
      (marked .extracted lines ++ marked .removed lines ++ marked .queued lines) := by
  induction lines with
  | nil => exact .refl _
  | cons line lines ih =>
    obtain ⟨item, status⟩ := line
    rw [List.map_cons]
    cases status with
    | queued =>
      simp only [marked_cons, if_true, reduceCtorEq, if_false]
      exact (ih.cons item).trans List.perm_middle.symm
    | extracted =>
      simp only [marked_cons, if_true, reduceCtorEq, if_false]
      exact ih.cons item
    | removed =>
      simp only [marked_cons, if_true, reduceCtorEq, if_false]
      rw [List.append_assoc] at ih ⊢
      exact (ih.cons item).trans List.perm_middle.symm

/-- At every point of every interleaving of the calls: the insertions are the
    lines of a ledger, of which the queue holds the queued ones in order; as
    a multiset, they are what was extracted, what was removed and what is
    queued, and the queue keeps their order. `mutate` calls its function once
    for each queued item, and a failed extraction changes nothing. -/
theorem queue_conserves (h : Reachable (sharedQueue α ι) s) :
    (∃ lines, s.Agrees lines) ∧
    s.log.inserted.Perm (s.log.extracted ++ s.log.removed ++ s.work) ∧
    s.work.Sublist s.log.inserted ∧
    (∀ mutation, Queue.mutateLoop mutation [] [] s.work 0
      = (kept (Queue.answers mutation [] s.work) s.work,
        taken (Queue.answers mutation [] s.work) s.work, s.work)) ∧
    ∀ policy e, Queue.extract policy s.work = .error e → (s.enter (.tryExtract policy)).1 = s := by
  obtain ⟨lines, _, hagrees⟩ := sharedQueue_simulates.reachable h
  refine ⟨⟨lines, hagrees⟩, ?_, ?_, ?_, ?_⟩
  · rw [hagrees.inserted, hagrees.queued]
    exact (lines_perm lines).trans
      ((hagrees.extracted.symm.append hagrees.removed.symm).append_right _)
  · rw [hagrees.inserted, hagrees.queued]
    exact marked_sublist .queued lines
  · intro mutation
    exact Queue.mutateLoop_eq mutation [] [] [] s.work
  · intro policy e hfailed
    simp only [State.enter, State.extract, hfailed]

/-- Three items are inserted, the second is extracted and the first removed. -/
theorem queue_conserves_three : ∃ s : State Nat Unit,
    Reachable (sharedQueue Nat Unit) s ∧ s.work = [3] ∧
    s.log.inserted.Perm (s.log.extracted ++ s.log.removed ++ s.work) := by
  have hone := ((Reachable.init (S := sharedQueue Nat Unit) rfl).step
    (.call (t := ()) (.insert 1) rfl)).step (.notify (t := ()) rfl)
  have htwo := (hone.step (.call (t := ()) (.insert 2) rfl)).step (.notify (t := ()) rfl)
  have hthree := (htwo.step (.call (t := ()) (.emplace 3) rfl)).step (.notify (t := ()) rfl)
  have hextract := hthree.step (.call (t := ()) (.tryExtract fun _ => 1) rfl)
  have hremove := hextract.step (step_mutate (t := ()) (fun _ item => item == 1) rfl)
  exact ⟨_, hremove, rfl, (queue_conserves hremove).2.1⟩

end Furrent.Mt
