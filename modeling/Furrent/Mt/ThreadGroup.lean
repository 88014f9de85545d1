import Furrent.Framework.Cpp
import Furrent.Framework.System

/-! # Thread groups

    Model of `ThreadGroup` in `src/mt/group.inl`: threads that run until a
    flag is raised. The owner launches and terminates them and destroys the
    group in the end; `terminate` raises the flag and joins the threads one
    after the other.

    `_threads` never gets shorter. So a second `terminate` joins threads that
    were joined before, which throws; and threads that are launched after the
    first one are not joined by anybody, because the destructor looks at the
    flag, and a `std::thread` that is destroyed without having been joined
    ends the program. A group that is launched once and terminated at most
    once is safe. -/

namespace Furrent.Mt

open Cpp Transition

/-! ### States -/

/-- A `std::thread` of the group. -/
inductive Life where
  | running
  /-- Its function has returned. -/
  | exited
  | joined
  deriving DecidableEq, Repr

/-- Where the owner of the group is. -/
inductive Owner where
  /-- In no call. -/
  | idle
  /-- In `terminate`, about to join thread `k`; `last` if the destructor has
      called it. -/
  | joining (k : Nat) (last : Bool)
  | destroyed
  /-- An exception, `std::terminate` or a dangling reference. -/
  | broken
  deriving DecidableEq, Repr

/-- `ThreadGroup`. -/
structure Group where
  threads : List Life
  /-- The size of `_states`. -/
  states : Nat
  shouldTerminate : Bool
  owner : Owner
  deriving DecidableEq, Repr

namespace Group

/-- `ThreadGroup()`. -/
def start : Group := ⟨[], 0, false, .idle⟩

/-- No thread uses its state while `_states` is resized to `size`. -/
def Resizable (g : Group) (size : Nat) : Prop :=
  g.states = size ∨ ∀ t ∈ g.threads, t ≠ .running

instance (g : Group) (size : Nat) : Decidable (g.Resizable size) :=
  inferInstanceAs (Decidable (_ ∨ _))

/-- The members are destroyed. -/
def dispose (g : Group) : Owner := if ∀ t ∈ g.threads, t = .joined then .destroyed else .broken

/-- `launch`, once it knows how many threads to start. -/
def launch (g : Group) (size : Nat) : Group :=
  if g.Resizable size then
    { g with threads := g.threads ++ List.replicate size .running, states := size }
  else { g with owner := .broken }

end Group

/-- How many threads `launch` starts. -/
def launchSize (hardwareConcurrency : Nat) (maxWorkerThreads : Int) : Outcome Empty Nat :=
  if maxWorkerThreads < 0 then
    .error (.throw (.invalidArgument "expected positive number of workers"))
  else if maxWorkerThreads ≠ 0 then .ok (min (hardwareConcurrency : Int) maxWorkerThreads).toNat
  else .ok hardwareConcurrency

/-! ### Steps -/

/-- What the owner and the threads do. -/
inductive GroupAction where
  | launch (size : Nat)
  | terminate
  /-- `thread.join()` of the next thread. -/
  | join
  /-- The loop of `terminate` is over. -/
  | finish
  /-- `~ThreadGroup()`. -/
  | destroy
  /-- The function of thread `k` returns. -/
  | exit (k : Nat)
  deriving DecidableEq, Repr

inductive GroupStep : Group → GroupAction → Group → Prop where
  | launch {g : Group} (size : Nat) (idle : g.owner = .idle) :
      GroupStep g (.launch size) (g.launch size)
  | terminate {g : Group} (idle : g.owner = .idle) :
      GroupStep g .terminate { g with shouldTerminate := true, owner := .joining 0 false }
  | join {g : Group} {k : Nat} {last : Bool} (joining : g.owner = .joining k last)
      (exited : g.threads[k]? = some .exited) :
      GroupStep g .join
        { g with threads := g.threads.set k .joined, owner := .joining (k + 1) last }
  -- `std::system_error`: the thread is not joinable
  | joinAgain {g : Group} {k : Nat} {last : Bool} (joining : g.owner = .joining k last)
      (joined : g.threads[k]? = some .joined) : GroupStep g .join { g with owner := .broken }
  | finish {g : Group} {last : Bool} (joining : g.owner = .joining g.threads.length last) :
      GroupStep g .finish { g with owner := if last then g.dispose else .idle }
  | destroy {g : Group} (idle : g.owner = .idle) :
      GroupStep g .destroy
        { g with
          shouldTerminate := true
          owner := if g.shouldTerminate then g.dispose else .joining 0 true }
  | exit {g : Group} {k : Nat} (running : g.threads[k]? = some .running) :
      GroupStep g (.exit k) { g with threads := g.threads.set k .exited }

def threadGroup : System Group GroupAction where
  init := fun g => g = Group.start
  step := GroupStep

/-- The group is launched once, and neither launched nor terminated after it
    has been terminated. -/
def Disciplined (g : Group) (a : GroupAction) (_ : Group) : Prop :=
  (∀ size, a = .launch size → g.shouldTerminate = false ∧ g.threads = []) ∧
    (a = .terminate → g.shouldTerminate = false)

/-! ### The threads that have been joined -/

/-- The threads up to `k` have been joined, and no other. -/
structure JoinedUpTo (threads : List Life) (k : Nat) : Prop where
  le : k ≤ threads.length
  joined_iff : ∀ i t, threads[i]? = some t → (t = .joined ↔ i < k)

variable {g g' : Group} {a : GroupAction} {threads : List Life} {k : Nat}

theorem joinedUpTo_zero_iff : JoinedUpTo threads 0 ↔ ∀ t ∈ threads, t ≠ .joined := by
  constructor
  · intro h t ht
    obtain ⟨i, hi⟩ := List.mem_iff_getElem?.mp ht
    simp [h.joined_iff i t hi]
  · intro h
    refine ⟨Nat.zero_le _, ?_⟩
    intro i t hi
    simp [h t (List.mem_of_getElem? hi)]

theorem JoinedUpTo.all (h : JoinedUpTo threads threads.length) : ∀ t ∈ threads, t = .joined := by
  intro t ht
  obtain ⟨i, hi⟩ := List.mem_iff_getElem?.mp ht
  exact (h.joined_iff i t hi).mpr (List.getElem?_eq_some_iff.mp hi).1

theorem JoinedUpTo.join (h : JoinedUpTo threads k) (hk : threads[k]? = some .exited) :
    JoinedUpTo (threads.set k .joined) (k + 1) := by
  have hlt : k < threads.length := (List.getElem?_eq_some_iff.mp hk).1
  refine ⟨by simpa using hlt, ?_⟩
  intro i t hi
  rw [List.getElem?_set] at hi
  by_cases hik : k = i
  · grind
  · rw [if_neg hik] at hi
    rw [h.joined_iff i t hi]
    omega

/-- A thread that returns was not joined. -/
theorem JoinedUpTo.exit (h : JoinedUpTo threads k) {j : Nat}
    (hj : threads[j]? = some .running) : JoinedUpTo (threads.set j .exited) k := by
  refine ⟨by simpa using h.le, ?_⟩
  intro i t hi
  rw [List.getElem?_set] at hi
  by_cases hij : j = i
  · have hrunning := h.joined_iff j _ hj
    grind
  · rw [if_neg hij] at hi
    exact h.joined_iff i t hi

/-! ### The threads that run -/

theorem length_of_step (h : GroupStep g a g') (ha : ∀ size, a ≠ .launch size) :
    g'.threads.length = g.threads.length := by
  cases h with
  | launch size idle => exact absurd rfl (ha size)
  | join joining exited => exact List.length_set
  | exit running => exact List.length_set
  | _ => rfl

/-- The owner neither starts nor stops a thread. -/
theorem running_of_step (h : GroupStep g a g') (hlaunch : ∀ size, a ≠ .launch size)
    (hexit : ∀ k, a ≠ .exit k) (i : Nat) :
    g'.threads[i]? = some .running ↔ g.threads[i]? = some .running := by
  cases h with
  | launch size idle => exact absurd rfl (hlaunch size)
  | @join k last joining exited =>
    show (g.threads.set k .joined)[i]? = some .running ↔ _
    rw [List.getElem?_set]
    by_cases hik : k = i
    · rw [← hik, exited]
      simp
    · rw [if_neg hik]
  | exit running => exact absurd rfl (hexit _)
  | _ => exact Iff.rfl

theorem running_of_exit {k : Nat} (h : GroupStep g (.exit k) g') (i : Nat) :
    g'.threads[i]? = some .running ↔ g.threads[i]? = some .running ∧ i ≠ k := by
  cases h with
  | exit running =>
    show (g.threads.set k .exited)[i]? = some .running ↔ _
    rw [List.getElem?_set]
    by_cases hik : k = i
    · simp [hik]
    · simp [hik, Ne.symm hik]

/-! ### The flag -/

theorem flag_of_join (h : GroupStep g a g') (ha : a = .join ∨ a = .finish ∨ ∃ k, a = .exit k) :
    g'.shouldTerminate = g.shouldTerminate := by
  cases h with
  | launch => simp at ha
  | terminate => simp at ha
  | destroy => simp at ha
  | _ => rfl

theorem flag_of_terminate (h : GroupStep g a g') (ha : a = .terminate ∨ a = .destroy) :
    g'.shouldTerminate = true := by
  cases h with
  | terminate => rfl
  | destroy => rfl
  | _ => simp at ha

/-- Nobody lowers the flag. -/
theorem raised_of_step (h : GroupStep g a g') (ha : ∀ size, a ≠ .launch size)
    (hflag : g.shouldTerminate = true) : g'.shouldTerminate = true := by
  cases h with
  | launch size idle => exact absurd rfl (ha size)
  | terminate => rfl
  | destroy => rfl
  | _ => exact hflag

/-- A thread that returns leaves the owner where it is. -/
theorem owner_of_exit {k : Nat} (h : GroupStep g (.exit k) g') : g'.owner = g.owner := by
  cases h with
  | exit running => rfl

/-! ### Orderly groups -/

/-- The threads are joined in the first `terminate`, each of them once. -/
structure Group.Orderly (g : Group) : Prop where
  unbroken : g.owner ≠ .broken
  launched : g.shouldTerminate = false → g.owner = .idle ∧ ∀ t ∈ g.threads, t ≠ .joined
  joining : ∀ k last, g.owner = .joining k last →
    g.shouldTerminate = true ∧ JoinedUpTo g.threads k
  joined : g.shouldTerminate = true → g.owner = .idle ∨ g.owner = .destroyed →
    ∀ t ∈ g.threads, t = .joined

theorem Group.dispose_of_joined (h : ∀ t ∈ g.threads, t = .joined) : g.dispose = .destroyed :=
  if_pos h

theorem orderly_start : Group.start.Orderly := by
  refine ⟨by simp [Group.start], ?_, by simp [Group.start], ?_⟩
  · intro _
    exact ⟨rfl, by simp [Group.start]⟩
  · intro hflag
    exact absurd hflag (by decide)

/-- The first launch. -/
theorem Group.Orderly.launch (h : g.Orderly) (hflag : g.shouldTerminate = false)
    (hnone : g.threads = []) (size : Nat) : (g.launch size).Orderly := by
  have hresizable : g.Resizable size := by simp [Group.Resizable, hnone]
  rw [Group.launch, if_pos hresizable, hnone, List.nil_append]
  obtain ⟨hidle, _⟩ := h.launched hflag
  refine ⟨h.unbroken, ?_, ?_, ?_⟩
  · intro _
    refine ⟨hidle, ?_⟩
    intro t ht
    rw [List.eq_of_mem_replicate ht]
    simp
  · intro k last howner
    have hjoining : g.owner = .joining k last := howner
    rw [hidle] at hjoining
    cases hjoining
  · intro hraised
    have hraised' : g.shouldTerminate = true := hraised
    rw [hflag] at hraised'
    cases hraised'

/-- `terminate` of a group that runs, by the owner or by the destructor. -/
theorem Group.Orderly.terminate (h : g.Orderly) (hflag : g.shouldTerminate = false)
    (last : Bool) :
    Group.Orderly { g with shouldTerminate := true, owner := .joining 0 last } := by
  obtain ⟨_, hnone⟩ := h.launched hflag
  refine ⟨by simp, by simp, ?_, by simp⟩
  intro k last' howner
  injection howner with hk _
  rw [← hk]
  exact ⟨rfl, joinedUpTo_zero_iff.mpr hnone⟩

/-- When all threads have been joined the owner goes on, or everything is
    destroyed. -/
theorem orderly_of_joined (hflag : g.shouldTerminate = true)
    (hjoined : ∀ t ∈ g.threads, t = .joined) {owner : Owner}
    (howner : owner = .idle ∨ owner = .destroyed) :
    Group.Orderly { g with owner := owner } := by
  refine ⟨?_, ?_, ?_, fun _ _ => hjoined⟩
  · rcases howner with rfl | rfl
    · simp
    · simp
  · intro hnot
    have hnot' : g.shouldTerminate = false := hnot
    rw [hflag] at hnot'
    cases hnot'
  · intro k last hjoining
    have hjoining' : owner = .joining k last := hjoining
    rcases howner with rfl | rfl
    · cases hjoining'
    · cases hjoining'

theorem GroupStep.orderly (hstep : GroupStep g a g') (hdisc : Disciplined g a g')
    (h : g.Orderly) : g'.Orderly := by
  cases hstep with
  | launch size idle =>
    obtain ⟨hflag, hnone⟩ := hdisc.1 size rfl
    exact h.launch hflag hnone size
  | terminate idle => exact h.terminate (hdisc.2 rfl) false
  | @join k last joining exited =>
    obtain ⟨hflag, hupTo⟩ := h.joining k last joining
    refine ⟨by simp, ?_, ?_, by simp⟩
    · intro hnot
      have hnot' : g.shouldTerminate = false := hnot
      rw [hflag] at hnot'
      cases hnot'
    · intro k' last' howner
      injection howner with hk _
      rw [← hk]
      exact ⟨hflag, hupTo.join exited⟩
  | @joinAgain k last joining joined =>
    -- The threads from `k` on have not been joined.
    obtain ⟨_, hupTo⟩ := h.joining k last joining
    exact absurd ((hupTo.joined_iff k _ joined).mp rfl) (lt_irrefl k)
  | @finish last joining =>
    obtain ⟨hflag, hupTo⟩ := h.joining _ last joining
    apply orderly_of_joined hflag hupTo.all
    cases last with
    | false => exact .inl rfl
    | true => exact .inr (Group.dispose_of_joined hupTo.all)
  | destroy idle =>
    cases hflag : g.shouldTerminate with
    | false => exact h.terminate hflag true
    | true =>
      have hjoined := h.joined hflag (.inl idle)
      rw [if_pos rfl, Group.dispose_of_joined hjoined]
      exact orderly_of_joined (g := { g with shouldTerminate := true }) rfl hjoined (.inr rfl)
  | @exit k running =>
    have hmem : Life.running ∈ g.threads := List.mem_of_getElem? running
    refine ⟨h.unbroken, ?_, ?_, ?_⟩
    · intro hflag
      obtain ⟨hidle, hnone⟩ := h.launched hflag
      exact ⟨hidle, joinedUpTo_zero_iff.mp ((joinedUpTo_zero_iff.mpr hnone).exit running)⟩
    · intro j last howner
      obtain ⟨hflag, hupTo⟩ := h.joining j last howner
      exact ⟨hflag, hupTo.exit running⟩
    · intro hflag howner
      exact absurd (h.joined hflag howner _ hmem) (by simp)

theorem orderly_of_reachable (h : Reachable (threadGroup.restrict Disciplined) g) : g.Orderly := by
  apply h.invariant (I := Group.Orderly)
  · intro g hg
    have hstart : g = Group.start := hg
    rw [hstart]
    exact orderly_start
  · intro g a g' _ hg hstep
    exact hstep.1.orderly hstep.2 hg

/-! ### What follows -/

/-- Threads return, and nothing else happens. -/
def Exits : Group → Group → Prop := Relation.ReflTransGen fun g g' => ∃ k, GroupStep g (.exit k) g'

/-- The owner has raised the flag, but not all threads have been joined. -/
structure Group.Abandons (g : Group) : Prop where
  raised : g.shouldTerminate = true
  unjoined : ∃ t ∈ g.threads, t ≠ .joined

/-- That a thread returns does not help. -/
theorem Group.Abandons.exits (h : g.Abandons) (hexits : Exits g g') : g'.Abandons := by
  induction hexits with
  | refl => exact h
  | tail _ hlast ih =>
    obtain ⟨k, hstep⟩ := hlast
    cases hstep with
    | exit running =>
      refine ⟨ih.raised, .exited, ?_, by simp⟩
      exact List.mem_set (List.getElem?_eq_some_iff.mp running).1 _

theorem Group.Abandons.destroy (h : g.Abandons) (hstep : GroupStep g .destroy g') :
    g'.owner = .broken := by
  cases hstep with
  | destroy idle =>
    obtain ⟨t, ht, hne⟩ := h.unjoined
    rw [h.raised]
    exact if_neg fun hall => hne (hall t ht)

/-- Threads that are launched when all others have been joined. -/
theorem abandons_of_launch (hflag : g.shouldTerminate = true)
    (hjoined : ∀ t ∈ g.threads, t = .joined) {size : Nat} (hsize : size ≠ 0)
    (hstep : GroupStep g (.launch size) g') : g'.Abandons := by
  cases hstep with
  | launch _ idle =>
    have hresizable : g.Resizable size := by
      right
      intro t ht
      rw [hjoined t ht]
      simp
    rw [Group.launch, if_pos hresizable]
    refine ⟨hflag, .running, ?_, by simp⟩
    exact List.mem_append_right _ (List.mem_replicate.mpr ⟨hsize, rfl⟩)

/-- In a second `terminate` the first `join` throws. -/
theorem broken_of_terminate (hjoined : ∀ t ∈ g.threads, t = .joined) (hne : g.threads ≠ [])
    (hstep : GroupStep g .terminate g') :
    (∃ g₁ a, GroupStep g' a g₁) ∧ ∀ g₁ a, GroupStep g' a g₁ → g₁.owner = .broken := by
  obtain ⟨t, threads, hcons⟩ := List.exists_cons_of_ne_nil hne
  have hfirst : g.threads[0]? = some .joined := by
    rw [hcons, ← hjoined t (by rw [hcons]; exact List.mem_cons_self)]
    rfl
  cases hstep with
  | terminate idle =>
    refine ⟨⟨_, _, .joinAgain rfl hfirst⟩, ?_⟩
    intro g₁ a hnext
    cases hnext with
    | launch size idle => cases idle
    | terminate idle => cases idle
    | join joining exited =>
      injection joining with hk _
      rw [← hk] at exited
      exact absurd (hfirst.symm.trans exited) (by simp)
    | joinAgain joining joined => rfl
    | finish joining =>
      injection joining with hk _
      rw [hcons] at hk
      cases hk
    | destroy idle => cases idle
    | exit running => exact absurd (hjoined _ (List.mem_of_getElem? running)) (by simp)

/-- A group that is launched once, and neither launched nor terminated after
    it has been terminated, never breaks, and is destroyed when every thread
    has been joined. The two uses that are excluded break it: a second
    `terminate` as soon as it takes a step, and threads that are launched
    after the first one when the group is destroyed, whatever they do. -/
theorem threadGroup_unbroken (h : Reachable (threadGroup.restrict Disciplined) g) :
    g.owner ≠ .broken ∧ (g.owner = .destroyed → ∀ t ∈ g.threads, t = .joined) ∧
    (g.shouldTerminate = true →
      (g.threads ≠ [] → ∀ g₁, GroupStep g .terminate g₁ →
        (∃ g₂ a, GroupStep g₁ a g₂) ∧ ∀ g₂ a, GroupStep g₁ a g₂ → g₂.owner = .broken) ∧
      ∀ size, size ≠ 0 → ∀ g₁ g₂ g₃, GroupStep g (.launch size) g₁ → Exits g₁ g₂ →
        GroupStep g₂ .destroy g₃ → g₃.owner = .broken) := by
  have horderly := orderly_of_reachable h
  refine ⟨horderly.unbroken, ?_, ?_⟩
  · intro howner
    cases hflag : g.shouldTerminate with
    | true => exact horderly.joined hflag (.inr howner)
    | false =>
      obtain ⟨hidle, _⟩ := horderly.launched hflag
      rw [howner] at hidle
      cases hidle
  · intro hflag
    constructor
    · intro hne g₁ hstep
      have hidle : g.owner = .idle := by
        cases hstep with
        | terminate idle => exact idle
      exact broken_of_terminate (horderly.joined hflag (.inl hidle)) hne hstep
    · intro size hsize g₁ g₂ g₃ hlaunch hexits hdestroy
      have hidle : g.owner = .idle := by
        cases hlaunch with
        | launch _ idle => exact idle
      have habandons := abandons_of_launch hflag (horderly.joined hflag (.inl hidle)) hsize hlaunch
      exact (habandons.exits hexits).destroy hdestroy

/-- One thread, which returns before it is joined. -/
theorem threadGroup_unbroken_one_thread : ∃ g,
    Reachable (threadGroup.restrict Disciplined) g ∧ g.threads = [.joined] ∧
    g.shouldTerminate = true ∧ g.owner ≠ .broken ∧
    ∀ g₁, GroupStep g .terminate g₁ → ∀ g₂ a, GroupStep g₁ a g₂ → g₂.owner = .broken := by
  have hlaunch : Reachable (threadGroup.restrict Disciplined) ⟨[.running], 1, false, .idle⟩ :=
    .step (.init rfl) ⟨.launch 1 rfl, by simp [Disciplined, Group.start]⟩
  have hterminate : Reachable (threadGroup.restrict Disciplined)
      ⟨[.running], 1, true, .joining 0 false⟩ :=
    hlaunch.step ⟨.terminate rfl, by simp [Disciplined]⟩
  have hexit : Reachable (threadGroup.restrict Disciplined)
      ⟨[.exited], 1, true, .joining 0 false⟩ :=
    hterminate.step ⟨.exit (k := 0) rfl, by simp [Disciplined]⟩
  have hjoin : Reachable (threadGroup.restrict Disciplined)
      ⟨[.joined], 1, true, .joining 1 false⟩ :=
    hexit.step ⟨.join (k := 0) rfl rfl, by simp [Disciplined]⟩
  have hjoined : Reachable (threadGroup.restrict Disciplined) ⟨[.joined], 1, true, .idle⟩ :=
    hjoin.step ⟨@GroupStep.finish _ false rfl, by simp [Disciplined]⟩
  obtain ⟨hunbroken, _, hmisuse⟩ := threadGroup_unbroken hjoined
  exact ⟨_, hjoined, rfl, rfl, hunbroken, fun g₁ hstep => ((hmisuse rfl).1 (by simp) g₁ hstep).2⟩

end Furrent.Mt
