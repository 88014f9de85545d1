import Furrent.Framework.Object
import Furrent.Policy.Queue

/-! # Queue disciplines

    In what order a queue hands its items out, when every extraction uses
    the same policy. `insert` and `emplace` append to the list; `LIFOPolicy`
    answers with `begin`, the oldest item, and `FIFOPolicy` with `--end`, the
    newest. So the names are exchanged: with `FIFOPolicy` the queue is a
    stack, and with `LIFOPolicy` the first item in is the first out. -/

namespace Furrent.Policy

open Cpp Sequential

variable {α : Type}

/-- The calls of a queue, the policy being fixed. -/
inductive QueueCall (α : Type) where
  | insert (item : α)
  | emplace (item : α)
  | extract
  deriving DecidableEq, Repr

/-- What a call returns: `insert` and `emplace` nothing, `extract` an item. -/
abbrev QueueResult (α : Type) := Outcome QueueError (Option α)

/-! ### The code -/

namespace Queue

/-- A call of `Queue::insert` or of `Queue::emplace`, with the items that it
    leaves. -/
def push (items : List α) (item : α) : List α × QueueResult α :=
  match insert items item with
  | .ok items' => (items', .ok none)
  | .error stop => (items, .error stop)

/-- A call of `extract`. -/
def pop (policy : IPolicy α) (items : List α) : List α × QueueResult α :=
  match extract policy items with
  | .ok (item, items') => (items', .ok (some item))
  | .error e => (items, .error (.error e))

end Queue

/-- A `Queue` from which items are extracted with `policy` only. -/
def policyQueue (policy : IPolicy α) : Object (List α) (QueueCall α) (QueueResult α) where
  start := []
  step := fun items call =>
    match call with
    | .insert item => Queue.push items item
    | .emplace item => Queue.push items item
    | .extract => Queue.pop policy items

/-! ### What the names stand for -/

/-- The item that a call brings. -/
def QueueCall.item? : QueueCall α → Option α
  | .insert item => some item
  | .emplace item => some item
  | .extract => none

/-- The items are kept in the order in which they are to be handed out;
    `place` says where a new one goes. There is room for as many as in the
    code. -/
def discipline (place : List α → α → List α) : Object (List α) (QueueCall α) (QueueResult α) where
  start := []
  step := fun items call =>
    match call.item?, items with
    | some item, items =>
      if items.length = INT64_MAX then
        (items, .error (.throw (.logicError "queue cannot fit more items")))
      else (place items item, .ok none)
    | none, [] => ([], .error (.error .empty))
    | none, item :: items => (items, .ok (some item))

/-- First in, first out: a new item is the last to be handed out. -/
def fifoQueue : Object (List α) (QueueCall α) (QueueResult α) :=
  discipline fun items item => items ++ [item]

/-- Last in, first out: a new item is the next to be handed out. -/
def stack : Object (List α) (QueueCall α) (QueueResult α) :=
  discipline fun items item => item :: items

section Discipline

variable {place : List α → α → List α} {items : List α} {item : α} {call : QueueCall α}

theorem discipline_full (hcall : call.item? = some item) (hfull : items.length = INT64_MAX) :
    (discipline place).step items call
      = (items, .error (.throw (.logicError "queue cannot fit more items"))) := by
  simp only [discipline, hcall, hfull, if_true]

theorem discipline_push (hcall : call.item? = some item) (hfull : items.length ≠ INT64_MAX) :
    (discipline place).step items call = (place items item, .ok none) := by
  simp only [discipline, hcall, hfull, if_false]

theorem discipline_empty (hcall : call.item? = none) :
    (discipline place).step [] call = ([], .error (.error .empty)) := by
  simp only [discipline, hcall]

theorem discipline_pop (hcall : call.item? = none) :
    (discipline place).step (item :: items) call = (items, .ok (some item)) := by
  simp only [discipline, hcall]

end Discipline

/-! ### What the code does -/

namespace Queue

theorem push_full {items : List α} (item : α) (hfull : items.length = INT64_MAX) :
    push items item = (items, .error (.throw (.logicError "queue cannot fit more items"))) := by
  simp only [push, insert, hfull, if_true]

theorem push_of_room {items : List α} (item : α) (hfull : items.length ≠ INT64_MAX) :
    push items item = (items ++ [item], .ok none) := by
  simp only [push, insert, emplace, hfull, if_false]

theorem pop_nil (policy : IPolicy α) : pop policy [] = ([], .error (.error .empty)) := rfl

theorem pop_lifo (item : α) (items : List α) :
    pop lifoPolicy (item :: items) = (items, .ok (some item)) := rfl

theorem pop_fifo (items : List α) (item : α) :
    pop fifoPolicy (items ++ [item]) = (items, .ok (some item)) := by
  simp [pop, extract, fifoPolicy, List.eraseIdx_append_of_length_le]

end Queue

theorem policyQueue_push (policy : IPolicy α) (items : List α) {item : α} {call : QueueCall α}
    (hcall : call.item? = some item) :
    (policyQueue policy).step items call = Queue.push items item := by
  cases call with
  | insert item' =>
    injection hcall with heq
    rw [heq, policyQueue]
  | emplace item' =>
    injection hcall with heq
    rw [heq, policyQueue]
  | extract => injection hcall

theorem policyQueue_pop (policy : IPolicy α) (items : List α) {call : QueueCall α}
    (hcall : call.item? = none) :
    (policyQueue policy).step items call = Queue.pop policy items := by
  cases call with
  | extract => rfl
  | _ => injection hcall

/-- With `LIFOPolicy` the list is handed out from its oldest item on. -/
theorem lifoPolicy_bisimulates :
    Object.Bisimulates (policyQueue (lifoPolicy : IPolicy α)) fifoQueue fun items queued =>
      items = queued where
  start := rfl
  step := by
    intro items queued call hrel
    rw [← hrel]
    suffices hstep : (policyQueue lifoPolicy).step items call = fifoQueue.step items call by
      rw [hstep]
      exact ⟨rfl, rfl⟩
    cases hcall : call.item? with
    | some item =>
      rw [policyQueue_push _ _ hcall]
      by_cases hfull : items.length = INT64_MAX
      · rw [Queue.push_full _ hfull, fifoQueue, discipline_full hcall hfull]
      · rw [Queue.push_of_room _ hfull, fifoQueue, discipline_push hcall hfull]
    | none =>
      rw [policyQueue_pop _ _ hcall]
      cases items with
      | nil => rw [Queue.pop_nil, fifoQueue, discipline_empty hcall]
      | cons item items => rw [Queue.pop_lifo, fifoQueue, discipline_pop hcall]

/-- With `FIFOPolicy` it is a stack, which the list has backwards. -/
theorem fifoPolicy_bisimulates :
    Object.Bisimulates (policyQueue (fifoPolicy : IPolicy α)) stack fun items stacked =>
      stacked = items.reverse where
  start := rfl
  step := by
    intro items stacked call hrel
    rw [hrel]
    cases hcall : call.item? with
    | some item =>
      rw [policyQueue_push _ _ hcall]
      by_cases hfull : items.length = INT64_MAX
      · rw [Queue.push_full _ hfull, stack, discipline_full hcall (by rwa [List.length_reverse])]
        exact ⟨rfl, rfl⟩
      · rw [Queue.push_of_room _ hfull, stack,
          discipline_push hcall (by rwa [List.length_reverse])]
        exact ⟨by simp, rfl⟩
    | none =>
      rw [policyQueue_pop _ _ hcall]
      rcases List.eq_nil_or_concat items with hnil | ⟨rest, item, hconcat⟩
      · rw [hnil, Queue.pop_nil, stack, List.reverse_nil, discipline_empty hcall]
        exact ⟨rfl, rfl⟩
      · rw [hconcat, List.concat_eq_append, Queue.pop_fifo, stack, List.reverse_append,
          List.reverse_singleton, List.singleton_append, discipline_pop hcall]
        exact ⟨rfl, rfl⟩

/-! ### When the names are right nevertheless -/

/-- With `n` items in the queue: every extraction finds one item at most. -/
def OneAtATime : Nat → List (QueueCall α) → Prop
  | _, [] => True
  | n, call :: calls =>
    match call.item? with
    | some _ => OneAtATime (if n = INT64_MAX then n else n + 1) calls
    | none => n ≤ 1 ∧ OneAtATime (n - 1) calls

/-- The items that are inserted. -/
def inserted (calls : List (QueueCall α)) : List α := calls.filterMap QueueCall.item?

/-- A queue and a stack with at most one item at each extraction return the
    same; the stack has the items of the queue backwards. -/
theorem resultsFrom_of_oneAtATime {calls : List (QueueCall α)} (items : List α)
    (h : OneAtATime items.length calls) :
    fifoQueue.resultsFrom items calls = stack.resultsFrom items.reverse calls := by
  induction calls generalizing items with
  | nil => rfl
  | cons call calls ih =>
    rw [Object.resultsFrom, Object.resultsFrom]
    cases hcall : call.item? with
    | some item =>
      simp only [OneAtATime, hcall] at h
      by_cases hfull : items.length = INT64_MAX
      · rw [if_pos hfull] at h
        rw [fifoQueue, stack, discipline_full hcall hfull,
          discipline_full hcall (by rwa [List.length_reverse])]
        exact congrArg _ (ih _ h)
      · rw [if_neg hfull, ← List.length_concat (a := item), List.concat_eq_append] at h
        rw [fifoQueue, stack, discipline_push hcall hfull,
          discipline_push hcall (by rwa [List.length_reverse])]
        have hnext := ih _ h
        rw [List.reverse_append] at hnext
        exact congrArg _ hnext
    | none =>
      simp only [OneAtATime, hcall] at h
      obtain ⟨hone, hrest⟩ := h
      rcases items with _ | ⟨item, _ | ⟨item', items⟩⟩
      · rw [List.reverse_nil, fifoQueue, stack, discipline_empty hcall, discipline_empty hcall]
        exact congrArg _ (ih _ hrest)
      · rw [List.reverse_singleton, fifoQueue, stack, discipline_pop hcall, discipline_pop hcall]
        exact congrArg _ (ih _ hrest)
      · simp at hone

/-- With items that can be told apart it is the only case: the oldest of two
    items is not the newest. -/
theorem oneAtATime_of_resultsFrom {calls : List (QueueCall α)} (items : List α)
    (hdistinct : (items ++ inserted calls).Nodup)
    (h : fifoQueue.resultsFrom items calls = stack.resultsFrom items.reverse calls) :
    OneAtATime items.length calls := by
  induction calls generalizing items with
  | nil => trivial
  | cons call calls ih =>
    rw [Object.resultsFrom, Object.resultsFrom] at h
    cases hcall : call.item? with
    | some item =>
      simp only [OneAtATime, hcall]
      rw [inserted, List.filterMap_cons_some hcall] at hdistinct
      by_cases hfull : items.length = INT64_MAX
      · rw [if_pos hfull]
        rw [fifoQueue, stack, discipline_full hcall hfull,
          discipline_full hcall (by rwa [List.length_reverse])] at h
        refine ih _ (hdistinct.sublist ?_) (List.cons.inj h).2
        exact (List.sublist_cons_self ..).append_left _
      · rw [if_neg hfull, ← List.length_concat (a := item), List.concat_eq_append]
        rw [fifoQueue, stack, discipline_push hcall hfull,
          discipline_push hcall (by rwa [List.length_reverse])] at h
        apply ih
        · rw [List.append_assoc]
          exact hdistinct
        · rw [List.reverse_append]
          exact (List.cons.inj h).2
    | none =>
      simp only [OneAtATime, hcall]
      rw [inserted, List.filterMap_cons_none hcall] at hdistinct
      rcases items with _ | ⟨oldest, _ | ⟨item, items⟩⟩
      · rw [List.reverse_nil, fifoQueue, stack, discipline_empty hcall,
          discipline_empty hcall] at h
        exact ⟨by simp, ih _ hdistinct (List.cons.inj h).2⟩
      · rw [List.reverse_singleton, fifoQueue, stack, discipline_pop hcall,
          discipline_pop hcall] at h
        exact ⟨by simp, ih _ (List.nodup_cons.mp hdistinct).2 (List.cons.inj h).2⟩
      · exfalso
        obtain ⟨rest, newest, hlast⟩ : ∃ rest newest, item :: items = rest ++ [newest] :=
          ⟨_, _, (List.dropLast_append_getLast (List.cons_ne_nil item items)).symm⟩
        rw [hlast] at h hdistinct
        rw [fifoQueue, stack, discipline_pop hcall, ← List.cons_append, List.reverse_append,
          List.reverse_singleton, List.singleton_append, discipline_pop hcall] at h
        have heq : oldest = newest := by simpa using (List.cons.inj h).1
        rw [heq] at hdistinct
        simp at hdistinct

/-- The queue keeps what the names of the policies promise, for a sequence
    of calls. -/
def RefinesNames (calls : List (QueueCall α)) : Prop :=
  (policyQueue fifoPolicy).results calls = fifoQueue.results calls ∧
  (policyQueue lifoPolicy).results calls = stack.results calls

/-- For every sequence of calls the queue with `FIFOPolicy` is a stack and
    the one with `LIFOPolicy` is first in, first out. The names are right
    just when a queue and a stack cannot be told apart: if every extraction
    finds one item at most and, with distinct items, only then. -/
theorem refinesNames_iff (calls : List (QueueCall α)) :
    (policyQueue fifoPolicy).results calls = stack.results calls ∧
    (policyQueue lifoPolicy).results calls = fifoQueue.results calls ∧
    (RefinesNames calls ↔ fifoQueue.results calls = stack.results calls) ∧
    (OneAtATime 0 calls → RefinesNames calls) ∧
    ((inserted calls).Nodup → RefinesNames calls → OneAtATime 0 calls) := by
  have hfifo := (fifoPolicy_bisimulates (α := α)).results_eq calls
  have hlifo := (lifoPolicy_bisimulates (α := α)).results_eq calls
  have hiff : RefinesNames calls ↔ fifoQueue.results calls = stack.results calls := by
    rw [RefinesNames, hfifo, hlifo]
    constructor
    · intro h
      exact h.2
    · intro h
      exact ⟨h.symm, h⟩
  refine ⟨hfifo, hlifo, hiff, ?_, ?_⟩
  · intro hone
    rw [hiff]
    exact resultsFrom_of_oneAtATime [] hone
  · intro hdistinct hnames
    rw [hiff] at hnames
    exact oneAtATime_of_resultsFrom [] hdistinct hnames

/-- Two items and one extraction: `FIFOPolicy` hands out the newer item and
    `LIFOPolicy` the older. -/
theorem refinesNames_two_items :
    ¬ RefinesNames [.insert 1, .insert 2, .extract] ∧
    (policyQueue fifoPolicy).results [.insert 1, .insert 2, .extract]
      = [.ok none, .ok none, .ok (some 2)] ∧
    (policyQueue lifoPolicy).results [.insert 1, .insert 2, .extract]
      = [.ok none, .ok none, .ok (some 1)] := by
  refine ⟨?_, rfl, rfl⟩
  intro hnames
  have hfirst : (policyQueue fifoPolicy).results [.insert 1, .insert 2, .extract]
      = [.ok none, .ok none, .ok (some 1)] := hnames.1
  have hsecond : (policyQueue fifoPolicy).results [.insert 1, .insert 2, .extract]
      = [.ok none, .ok none, .ok (some 2)] := rfl
  rw [hsecond] at hfirst
  simp at hfirst

end Furrent.Policy
