import Furrent.Framework.Cpp
import Furrent.Framework.Ledger

/-! # Queues with a policy

    Model of `src/policy/queue.inl` and `src/policy/policy.inl`. The items
    are a `std::list`; a policy is given the iterators of its begin and end
    and answers with one of the range, here the position in the list. Each
    operation of `SharedQueue` (`src/mt/sharing_queue.inl`) is one of these
    under the mutex of the queue.

    `Queue::insert` and `Queue::emplace` do the same with an item: both test
    for a queue with `INT64_MAX` items and throw, and put the item at the end
    otherwise. The definition `insert` is this, for the two of them; the
    definition `emplace` is what they do after the test. -/

namespace Furrent.Policy

open Cpp

/-- `Queue<T>::Error`. -/
inductive QueueError where
  | empty
  | policyFailure
  deriving DecidableEq, Repr

/-- `IPolicy`: the position of the item to extract, that of `end` being the
    length of the list. -/
abbrev IPolicy (α : Type) := List α → Nat

variable {α : Type}

/-- `LIFOPolicy`: it answers with `begin`. -/
def lifoPolicy : IPolicy α := fun _ => 0

/-- `FIFOPolicy`: it answers with `--end`. -/
def fifoPolicy : IPolicy α := fun items => items.length - 1

namespace Queue

/-- `_items.emplace(_items.end(), …)` in `Queue::emplace` and
    `_items.push_back(…)` in `Queue::insert`, without the test before it. -/
def emplace (items : List α) (item : α) : List α := items ++ [item]

/-- `Queue::insert`, and `Queue::emplace` for the item that it constructs.
    The exception leaves the items as they are. -/
def insert (items : List α) (item : α) : Outcome QueueError (List α) :=
  if items.length = INT64_MAX then .error (.throw (.logicError "queue cannot fit more items"))
  else .ok (emplace items item)

/-- `Queue::extract`. -/
def extract (policy : IPolicy α) (items : List α) : Except QueueError (α × List α) :=
  if items = [] then .error .empty
  else
    match items[policy items]? with
    | none => .error .policyFailure
    | some item => .ok (item, items.eraseIdx (policy items))

/-- `Queue::mutate`: the items for which the mutation answers `true` are
    erased. It is given a reference and might change the items; the only
    one there is does not. -/
def mutate (mutation : α → Bool) : List α → List α
  | [] => []
  | item :: items => if mutation item then mutate mutation items else item :: mutate mutation items

/-- The workers extract the first item of the list. -/
theorem extract_lifo {items rest : List α} {item : α}
    (h : extract lifoPolicy items = .ok (item, rest)) : items = item :: rest := by
  cases items with
  | nil => simp [extract] at h
  | cons a as =>
    simp only [extract, lifoPolicy, List.getElem?_cons_zero, List.eraseIdx_cons_zero] at h
    injection h with h
    injection h with hitem hrest
    rw [hitem, hrest]

/-- The loop of `Queue::mutate` with the iterator `it`, which the loop goes
    on from the erased item or increments. The mutation is a `std::function`
    and may remember what it was called with: `seen` are these items, oldest
    first. `removed` are the items that were erased. -/
def mutateLoop (mutation : List α → α → Bool) (seen removed items : List α) (it : Nat) :
    List α × List α × List α :=
  if h : it < items.length then
    let item := items[it]
    if mutation seen item then
      mutateLoop mutation (seen ++ [item]) (removed ++ [item]) (items.eraseIdx it) it
    else mutateLoop mutation (seen ++ [item]) removed items (it + 1)
  else (items, removed, seen)
termination_by items.length - it
decreasing_by
  · rw [List.length_eraseIdx_of_lt h]
    omega
  · omega

/-- What the mutation answers for the items, when it is called once for each
    of them from the first to the last. -/
def answers (mutation : List α → α → Bool) (seen : List α) : List α → List Bool
  | [] => []
  | item :: items => mutation seen item :: answers mutation (seen ++ [item]) items

theorem extract_eq_ok {policy : IPolicy α} {items rest : List α} {item : α}
    (h : extract policy items = .ok (item, rest)) :
    items[policy items]? = some item ∧ rest = items.eraseIdx (policy items) := by
  unfold extract at h
  by_cases hnil : items = []
  · rw [if_pos hnil] at h
    injection h
  · rw [if_neg hnil] at h
    cases hget : items[policy items]? with
    | none => simp [hget] at h
    | some a =>
      simp only [hget, Except.ok.injEq, Prod.mk.injEq] at h
      exact ⟨by rw [h.1], h.2.symm⟩

/-! ### Erasing while iterating -/

theorem mutate_eq_filter (mutation : α → Bool) (items : List α) :
    mutate mutation items = items.filter fun item => !mutation item := by
  induction items with
  | nil => rfl
  | cons item items ih =>
    rw [mutate, List.filter_cons, ih]
    cases mutation item <;> rfl

/-- With the iterator between `done` and `items`, the loop calls the mutation
    once for each of `items` and erases those it answers `true` for. -/
theorem mutateLoop_eq (mutation : List α → α → Bool) (seen removed done items : List α) :
    mutateLoop mutation seen removed (done ++ items) done.length
      = (done ++ Ledger.kept (answers mutation seen items) items,
        removed ++ Ledger.taken (answers mutation seen items) items, seen ++ items) := by
  induction items generalizing seen removed done with
  | nil =>
    rw [mutateLoop, dif_neg (by simp)]
    simp [answers, Ledger.kept, Ledger.taken]
  | cons item items ih =>
    have hlt : done.length < (done ++ item :: items).length := by simp
    have hitem : (done ++ item :: items)[done.length] = item := by simp
    rw [mutateLoop, dif_pos hlt]
    simp only [hitem, answers]
    cases hanswer : mutation seen item with
    | true =>
      have herase : (done ++ item :: items).eraseIdx done.length = done ++ items := by
        simp [List.eraseIdx_append_of_length_le]
      rw [if_pos rfl, herase, ih]
      simp [Ledger.kept_cons, Ledger.taken_cons]
    | false =>
      have hnext := ih (seen ++ [item]) removed (done ++ [item])
      rw [List.append_assoc, List.singleton_append, List.length_append,
        List.length_singleton] at hnext
      rw [if_neg (by simp), hnext]
      simp [Ledger.kept_cons, Ledger.taken_cons]

/-- A mutation without a memory. -/
theorem kept_answers (mutation : α → Bool) (seen items : List α) :
    Ledger.kept (answers (fun _ => mutation) seen items) items = mutate mutation items := by
  induction items generalizing seen with
  | nil => rfl
  | cons item items ih => rw [answers, Ledger.kept_cons, mutate, ih]

end Queue

end Furrent.Policy
