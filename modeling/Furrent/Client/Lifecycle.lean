import Furrent.Framework.Tokens
import Furrent.Client.Scheduler

/-! # The life of a piece

    What the queue, the workers and the counters are for: a piece of a
    torrent is a token. It waits to be emplaced, is queued, is held by a
    worker, and ends processed or removed; a worker may put it back. The
    program refines this: its containers always agree with a map from
    pieces to places. -/

namespace Furrent.Client

open Cpp Platform Policy Transition Tokens

/-! ### The abstract model -/

/-- Where a piece can be, with `n` workers. -/
inductive Place (n : Nat) where
  /-- Not yet emplaced by the running `add_torrent`. -/
  | pending
  | queued
  | held (i : Fin n)
  | processed
  | removed
  deriving DecidableEq, Repr

variable {n m : Nat}

/-- Where the pieces of all torrents are; those that are not generated yet
    are nowhere. -/
abbrev Places (n : Nat) := Key → Option (Place n)

/-- A piece goes from one place to another. -/
inductive Moves : Place n → Place n → Prop where
  | emplace : Moves .pending .queued
  | extract (i : Fin n) : Moves .queued (.held i)
  | requeue (i : Fin n) : Moves (.held i) .queued
  | process (i : Fin n) : Moves (.held i) .processed

/-- The pieces of a torrent are generated. -/
def Places.generate (loc : Places n) (tid : TorrentID) (piecesCount : Int) : Places n := fun k =>
  if k.1 = tid ∧ 0 ≤ k.2 ∧ k.2 < piecesCount then some .pending else loc k

/-- All queued pieces of a torrent are removed. -/
def Places.remove (loc : Places n) (tid : TorrentID) : Places n := fun k =>
  if k.1 = tid ∧ loc k = some .queued then some .removed else loc k

/-- What can happen to pieces. -/
inductive Lifecycle.Step : Places n → Unit → Places n → Prop where
  | generate {loc : Places n} (tid : TorrentID) (piecesCount : Int)
      (hfresh : ∀ index, loc (tid, index) = none) : Step loc () (loc.generate tid piecesCount)
  | move {loc : Places n} (k : Key) (p q : Place n) (hk : loc k = some p) (hmoves : Moves p q) :
      Step loc () (Function.update loc k (some q))
  | remove {loc : Places n} (tid : TorrentID) : Step loc () (loc.remove tid)

def lifecycle (n : Nat) : System (Places n) Unit where
  init := fun loc => ∀ k, loc k = none
  step := Lifecycle.Step

/-! ### The containers of the program -/

/-- The pieces `add_torrent` has still to emplace. -/
def Adder.keys : Adder → List Key
  | .emplacing tid pieces => pieces.map fun piece => (tid, piece.index)
  | _ => []

/-- The piece a worker holds. -/
def Worker.key (w : Worker) : Option Key := w.task.map PieceTask.key

namespace State

/-- How often a piece is found in a place. -/
def found (s : State n m) : Place n → Key → Nat
  | .pending, k => s.adder.keys.count k
  | .queued, k => (s.tasks.map PieceTask.key).count k
  | .held i, k => if (s.workers i).key = some k then 1 else 0
  | .processed, k => s.log.processed.count k
  | .removed, k => s.log.removed.count k

/-- The pieces that have been generated. -/
def Generated (s : State n m) (k : Key) : Prop :=
  k.1 ∈ s.log.generated ∧ 0 ≤ k.2 ∧ k.2 < (s.torrent k.1).descriptor.piecesCount

/-- The map of the pieces agrees with the containers. -/
structure Agrees (s : State n m) (loc : Places n) : Prop where
  located : Located s.found loc
  generated : ∀ k, loc k ≠ none ↔ s.Generated k

/-- The numbers of torrents are not used twice. -/
structure Fresh (s : State n m) : Prop where
  generated : ∀ tid ∈ s.log.generated, tid < s.nextUid
  loading : ∀ tid, s.adder = .loading tid → tid < s.nextUid ∧ tid ∉ s.log.generated

end State

/-! ### Counting in the containers -/

variable {W : Type} {env : Peer → Download.Env W} {fuel : Nat} {s s' : State n m} {loc : Places n}
  {a : Actor n m}

theorem count_cons_key (k k' : Key) (l : List Key) :
    (k :: l).count k' = l.count k' + if k' = k then 1 else 0 := by
  rw [List.count_cons]
  by_cases h : k' = k
  · simp [h]
  · simp [h, Ne.symm h]

theorem count_append_key (l : List Key) (k k' : Key) :
    (l ++ [k]).count k' = l.count k' + if k' = k then 1 else 0 := by
  rw [List.count_append, count_cons_key, List.count_nil]
  omega

theorem found_held_setWorker (s : State n m) (i : Fin n) (w : Worker) (k : Key) :
    (s.setWorker i w).found (.held i) k = if w.key = some k then 1 else 0 := by
  rw [State.found, State.workers_setWorker_self]

theorem found_setWorker_of_ne {i : Fin n} {w : Worker} {p : Place n} (h : p ≠ .held i) :
    (s.setWorker i w).found p = s.found p := by
  funext k
  cases p with
  | held j =>
    have hj : j ≠ i := fun heq => h (by rw [heq])
    rw [State.found, State.workers_setWorker_of_ne s hj]
    rfl
  | _ => rfl

/-- A worker may go on with its piece. -/
theorem found_setWorker_of_key {i : Fin n} {w : Worker} (h : w.key = (s.workers i).key) :
    (s.setWorker i w).found = s.found := by
  funext p k
  by_cases hp : p = .held i
  · rw [hp, found_held_setWorker, h, State.found]
  · rw [found_setWorker_of_ne hp]

/-- `add_torrent` may go on without emplacing a piece. -/
theorem found_of_adder (hkeys : s'.adder.keys = s.adder.keys)
    (hrest : ({ s' with adder := s.adder } : State n m).found = s.found) :
    s'.found = s.found := by
  rw [← hrest]
  funext p k
  cases p with
  | pending => rw [State.found, State.found, hkeys]
  | _ => rfl

/-! ### Refinement -/

theorem State.Agrees.same (h : s.Agrees loc) (hfound : s'.found = s.found)
    (hgen : ∀ k, s'.Generated k ↔ s.Generated k) : s'.Agrees loc := by
  constructor
  · rw [hfound]
    exact h.located
  · intro k
    rw [hgen k]
    exact h.generated k

/-- A worker that keeps its task leaves every piece where it is. -/
theorem State.Agrees.keep (h : s.Agrees loc) {t : State n m} {i : Fin n} {w : Worker}
    (hfound : t.found = s.found) (hworkers : t.workers = s.workers)
    (hkey : w.key = (s.workers i).key)
    (hgen : ∀ k, (t.setWorker i w).Generated k ↔ s.Generated k) :
    (t.setWorker i w).Agrees loc := by
  refine h.same ?_ hgen
  rw [← hfound]
  apply found_setWorker_of_key
  rw [hkey, hworkers]

/-- So does `add_torrent` while it has no pieces to emplace. -/
theorem State.Agrees.adder (h : s.Agrees loc) (hkeys : s'.adder.keys = s.adder.keys)
    (hrest : ({ s' with adder := s.adder } : State n m).found = s.found)
    (hgen : ∀ k, s'.Generated k ↔ s.Generated k) : s'.Agrees loc :=
  h.same (found_of_adder hkeys hrest) hgen

/-- A piece that moves in the containers moves on the map. -/
theorem State.Agrees.move (h : s.Agrees loc) {k : Key} {p q : Place n} (hmoves : Moves p q)
    (hmoved : Moved s.found s'.found k p q) (hgen : ∀ k, s'.Generated k ↔ s.Generated k) :
    ∃ loc', Lifecycle.Step loc () loc' ∧ s'.Agrees loc' := by
  have hpq : p ≠ q := by
    cases hmoves <;> simp
  obtain ⟨hhere, hlocated⟩ := h.located.moved hpq hmoved
  refine ⟨_, .move k p q hhere hmoves, hlocated, ?_⟩
  intro k'
  rw [hgen k', ← h.generated k']
  by_cases hk : k' = k
  · subst hk
    simp [hhere]
  · rw [Function.update_of_ne hk]

theorem generated_congr (hlog : s'.log.generated = s.log.generated)
    (hdesc : ∀ tid ∈ s.log.generated, (s'.torrent tid).descriptor = (s.torrent tid).descriptor)
    (k : Key) : s'.Generated k ↔ s.Generated k := by
  unfold State.Generated
  rw [hlog]
  constructor
  · intro hk
    rw [hdesc k.1 hk.1] at hk
    exact hk
  · intro hk
    rw [hdesc k.1 hk.1]
    exact hk

/-- What an update of a torrent leaves as it is, it leaves as it is in every
    torrent. -/
theorem torrent_update {β : Type} (f : Torrent → β) {tid : TorrentID} {t : Torrent}
    (hs' : s'.torrents = Function.update s.torrents tid (some t))
    (h : f t = f (s.torrent tid)) (tid' : TorrentID) :
    f (s'.torrent tid') = f (s.torrent tid') := by
  by_cases heq : tid' = tid
  · subst heq
    rw [← h, State.torrent, hs', Function.update_self]
    rfl
  · rw [State.torrent, hs', Function.update_of_ne heq]
    rfl

/-- What does not depend on the atomics of a torrent does not change, but for
    the torrent that is being added. -/
theorem Step.constant {β : Type} (f : Torrent → β) (h : Step env fuel s a s') {tid : TorrentID}
    (hstate : ∀ t state, f { t with state := state } = f t)
    (hcount : ∀ t peerIndex sum,
      f { Torrent.atomicAddPeerScore t peerIndex with piecesProcessed := sum } = f t)
    (htid : s.adder ≠ .loading tid) : f (s'.torrent tid) = f (s.torrent tid) := by
  -- The three ways out of the `loading` state write the torrent being added only.
  have hemplace : ∀ tid' t, s.adder = .loading tid' →
      (s.tryEmplace tid' t).torrent tid = s.torrent tid := by
    intro tid' t ha
    rw [State.torrent_tryEmplace, if_neg (fun heq => htid (by rw [heq, ha]))]
  cases h with
  | findPaused hi hlock hpaused => exact torrent_update f rfl rfl tid
  | work hi hlock hpaused => exact torrent_update f rfl rfl tid
  | count hi hlock => exact torrent_update f rfl (hcount _ _ _) tid
  | complete hi hlast => exact torrent_update f rfl (hstate _ _) tid
  | addWithoutPeers ha hlock hs' hpeers =>
    subst hs'
    exact (torrent_update f rfl (hstate _ _) tid).trans (congrArg f (hemplace _ _ ha))
  | addThrow ha hlock hs' hpeers hpieces =>
    subst hs'
    exact congrArg f (hemplace _ _ ha)
  | addGenerate ha hlock hs' hpeers hpieces =>
    subst hs'
    exact congrArg f (hemplace _ _ ha)
  | addFinish ha => exact torrent_update f rfl (hstate _ _) tid
  | load hj hlock => exact torrent_update f rfl rfl tid
  | stop hj hrunning => exact torrent_update f rfl (hstate _ _) tid
  | store state ht =>
    refine torrent_update f rfl ?_ tid
    rw [State.torrent_of_entry ht]
    exact hstate _ _
  | _ => rfl

theorem Step.descriptor (h : Step env fuel s a s') {tid : TorrentID}
    (htid : s.adder ≠ .loading tid) :
    (s'.torrent tid).descriptor = (s.torrent tid).descriptor :=
  h.constant Torrent.descriptor (fun _ _ => rfl) (fun _ _ _ => rfl) htid

theorem Step.descriptor_of_generated (h : Step env fuel s a s') (hf : s.Fresh) (tid : TorrentID)
    (htid : tid ∈ s.log.generated) : (s'.torrent tid).descriptor = (s.torrent tid).descriptor :=
  h.descriptor fun ha => (hf.loading tid ha).2 htid

/-- The log of the generated torrents grows only in `add_torrent`. -/
theorem Step.generated (h : Step env fuel s a s') (hgen : s'.log.generated ≠ s.log.generated) :
    ∃ tid descriptor peers beyond pieces,
      s.adder = .loading tid ∧
      ((s.tryEmplace tid (.create tid descriptor peers)).torrent tid).peers ≠ [] ∧
      Torrent.pieces ((s.tryEmplace tid (.create tid descriptor peers)).torrent tid).descriptor
        beyond = .ok pieces ∧
      s' = { s.tryEmplace tid (.create tid descriptor peers) with
        adder := .emplacing tid pieces
        log := { s.log with generated := tid :: s.log.generated } } := by
  cases h with
  | @addGenerate _ tid descriptor peers beyond pieces ha hlock hs' hpeers hpieces =>
    subst hs'
    exact ⟨tid, descriptor, peers, beyond, pieces, ha, hpeers, hpieces, rfl⟩
  | addWithoutPeers ha hlock hs' hpeers =>
    subst hs'
    exact absurd rfl hgen
  | addThrow ha hlock hs' hpeers hpieces =>
    subst hs'
    exact absurd rfl hgen
  | _ => exact absurd rfl hgen

theorem Step.fresh (h : Step env fuel s a s') (hf : s.Fresh) : s'.Fresh := by
  cases h with
  | addBegin ha =>
    constructor
    · intro tid htid
      exact lt_trans (hf.generated tid htid) (Int.lt_succ _)
    · intro tid htid
      obtain rfl : s.nextUid = tid := by
        injection htid
      refine ⟨Int.lt_succ _, ?_⟩
      intro hmem
      exact absurd (hf.generated _ hmem) (lt_irrefl _)
  | addFail ha => exact ⟨hf.generated, by simp⟩
  | addWithoutPeers ha hlock hs' hpeers =>
    subst hs'
    exact ⟨hf.generated, by simp⟩
  | addThrow ha hlock hs' hpeers hpieces =>
    subst hs'
    exact ⟨hf.generated, by simp⟩
  | addGenerate ha hlock hs' hpeers hpieces =>
    subst hs'
    refine ⟨?_, by simp⟩
    intro tid htid
    rcases List.mem_cons.mp htid with rfl | htid
    · exact (hf.loading _ ha).1
    · exact hf.generated tid htid
  | addEmplace ha => exact ⟨hf.generated, by simp⟩
  | addFinish ha => exact ⟨hf.generated, by simp⟩
  | _ => exact ⟨hf.generated, hf.loading⟩

/-- A worker lets go of its piece, which turns up in another container. -/
theorem moved_from_held {t : State n m} {i : Fin n} {w : Worker} {k : Key} {q : Place n}
    (hkey : (s.workers i).key = some k) (hw : w.key = none) (hq : q ≠ .held i)
    (hput : ∀ k', t.found q k' = s.found q k' + if k' = k then 1 else 0)
    (hother : ∀ p, p ≠ q → t.found p = s.found p) :
    Moved s.found (t.setWorker i w).found k (.held i) q := by
  constructor
  · intro k'
    rw [found_held_setWorker, hw, State.found, hkey]
    simp [eq_comm]
  · intro k'
    rw [found_setWorker_of_ne hq, hput]
  · intro p hp hpq
    rw [found_setWorker_of_ne hp, hother p hpq]

/-- A worker takes the first piece of the queue. -/
theorem moved_extract {i : Fin n} {task : PieceTask} {tasks : List PieceTask}
    (hi : s.workers i = .idle) (htasks : s.tasks = task :: tasks) :
    Moved s.found ({ s with tasks := tasks }.setWorker i (.extracted task)).found task.key
      .queued (.held i) := by
  constructor
  · intro k'
    rw [found_setWorker_of_ne (by simp), State.found, htasks, List.map_cons, count_cons_key]
    rfl
  · intro k'
    have hnone : s.found (.held i) k' = 0 := by
      rw [State.found, hi]
      rfl
    rw [found_held_setWorker, hnone]
    simp [Worker.key, Worker.task, eq_comm]
  · intro p hq hp
    rw [found_setWorker_of_ne hp]
    funext k'
    cases p with
    | queued => exact absurd rfl hq
    | _ => rfl

theorem moved_emplace {tid : TorrentID} {piece : Piece} {pieces : List Piece}
    (ha : s.adder = .emplacing tid (piece :: pieces)) :
    Moved s.found
      ({ s with
        adder := .emplacing tid pieces
        tasks := Queue.emplace s.tasks ⟨none, tid, piece, (s.torrent tid).descriptor⟩ } :
          State n m).found
      (tid, piece.index) .pending .queued := by
  constructor
  · intro k'
    rw [State.found, ha, Adder.keys, List.map_cons, count_cons_key]
    rfl
  · intro k'
    simp only [State.found, Queue.emplace, List.map_append, List.map_singleton]
    exact count_append_key _ _ k'
  · intro p hp hq
    funext k'
    cases p with
    | pending => exact absurd rfl hp
    | queued => exact absurd rfl hq
    | _ => rfl

/-! ### Generating and removing -/

theorem count_filter_key (p : Key → Bool) (l : List Key) (k : Key) :
    (l.filter p).count k = if p k then l.count k else 0 := by
  by_cases hk : p k = true
  · rw [List.count_filter hk, if_pos hk]
  · rw [if_neg hk]
    exact List.count_eq_zero.mpr fun hmem => hk (List.mem_filter.mp hmem).2

/-- The keys of the tasks that refer to `tid`, or do not. -/
theorem map_key_filter (tasks : List PieceTask) (p : Key → Bool) :
    (tasks.filter fun task => p task.key).map PieceTask.key
      = (tasks.map PieceTask.key).filter p := by
  rw [List.filter_map]
  rfl

/-- `remove_torrent` takes the tasks of a torrent out of the queue. -/
theorem movedAll_purge {j : Fin m} (tid : TorrentID)
    (hs' : s' = ({ s with
      tasks := Queue.mutate (PieceTask.refersTo tid) s.tasks
      log := { s.log with
        removed := (s.tasks.filter (PieceTask.refersTo tid)).map PieceTask.key
          ++ s.log.removed } } : State n m).setRemover j (.purged tid)) :
    MovedAll s.found s'.found (fun k => k.1 = tid) .queued .removed := by
  subst hs'
  constructor
  · intro k
    have hkeys := map_key_filter s.tasks fun k => !decide (k.1 = tid)
    show ((Queue.mutate (PieceTask.refersTo tid) s.tasks).map PieceTask.key).count k = _
    rw [Queue.mutate_eq_filter]
    show ((s.tasks.filter fun task => !decide (task.key.1 = tid)).map PieceTask.key).count k = _
    rw [hkeys, count_filter_key]
    by_cases hk : k.1 = tid
    · simp [hk]
    · simp [hk, State.found]
  · intro k
    have hkeys := map_key_filter s.tasks fun k => decide (k.1 = tid)
    show ((s.tasks.filter fun task => decide (task.key.1 = tid)).map PieceTask.key
      ++ s.log.removed).count k = _
    rw [hkeys, List.count_append, count_filter_key, Nat.add_comm]
    simp [State.found]
  · intro p hq hr
    funext k
    cases p with
    | queued => exact absurd rfl hq
    | removed => exact absurd rfl hr
    | _ => rfl

theorem State.Agrees.remove (h : s.Agrees loc) {tid : TorrentID}
    (hmoved : MovedAll s.found s'.found (fun k => k.1 = tid) .queued .removed)
    (hgen : ∀ k, s'.Generated k ↔ s.Generated k) : s'.Agrees (loc.remove tid) := by
  refine ⟨h.located.movedAll (by simp) hmoved, ?_⟩
  intro k
  rw [hgen k, ← h.generated k]
  unfold Places.remove
  split
  · next hk => simp [hk.2]
  · rfl

/-- The keys of the pieces of a torrent. -/
theorem count_pieces {d : TorrentFile} {beyond : Nat → Option Int} {pieces : List Piece}
    (hpieces : Torrent.pieces d beyond = .ok pieces) (tid : TorrentID) (k : Key) :
    (pieces.map fun piece => ((tid, piece.index) : Key)).count k
      = if k.1 = tid ∧ 0 ≤ k.2 ∧ k.2 < d.piecesCount then 1 else 0 := by
  have hkeys : (pieces.map fun piece => ((tid, piece.index) : Key))
      = (Int.range 0 d.piecesCount).map (Prod.mk tid) := by
    rw [← Torrent.pieces_index hpieces, List.map_map]
    rfl
  have hnodup : ((Int.range 0 d.piecesCount).map (Prod.mk tid) : List Key).Nodup := by
    refine List.Nodup.map (Prod.mk_right_injective tid) ?_
    refine List.Nodup.map ?_ List.nodup_range
    intro x y hxy
    simpa using hxy
  rw [hkeys, hnodup.count]
  congr 1
  obtain ⟨tid', index⟩ := k
  simp [Int.mem_range_iff, eq_comm, and_comm]

theorem State.Agrees.generate (h : s.Agrees loc) {tid : TorrentID} {d : TorrentFile}
    {beyond : Nat → Option Int} {pieces : List Piece} (hadder : s.adder = .loading tid)
    (hpieces : Torrent.pieces d beyond = .ok pieces) (hfresh : tid ∉ s.log.generated)
    (hadder' : s'.adder = .emplacing tid pieces)
    (hother : ∀ p, p ≠ .pending → s'.found p = s.found p)
    (hlog : s'.log.generated = tid :: s.log.generated)
    (hdesc : (s'.torrent tid).descriptor = d)
    (hdesc' : ∀ tid' ∈ s.log.generated,
      (s'.torrent tid').descriptor = (s.torrent tid').descriptor) :
    Lifecycle.Step loc () (loc.generate tid d.piecesCount) ∧
      s'.Agrees (loc.generate tid d.piecesCount) := by
  -- Nothing of this torrent is anywhere yet, and no other torrent has pieces
  -- pending: there is one `add_torrent` at a time.
  have hnone : ∀ index, loc (tid, index) = none := by
    intro index
    by_contra hne
    exact hfresh ((h.generated _).mp hne).1
  have hpending : ∀ k, loc k ≠ some .pending := by
    intro k hk
    have hone := h.located.eq_one hk
    rw [State.found, hadder] at hone
    simp [Adder.keys] at hone
  refine ⟨.generate tid d.piecesCount hnone, ?_, ?_⟩
  · intro p k
    unfold Places.generate
    by_cases hp : p = .pending
    · rw [hp, State.found, hadder', Adder.keys, count_pieces hpieces]
      by_cases hk : k.1 = tid ∧ 0 ≤ k.2 ∧ k.2 < d.piecesCount
      · rw [if_pos hk, if_pos hk, if_pos rfl]
      · rw [if_neg hk, if_neg hk, if_neg (hpending k)]
    · rw [hother p hp, h.located p k]
      by_cases hk : k.1 = tid ∧ 0 ≤ k.2 ∧ k.2 < d.piecesCount
      · have hk' : loc k = none := by
          rw [← hk.1] at hnone
          exact hnone k.2
        rw [if_pos hk, hk', if_neg (by simp), if_neg (by simpa using Ne.symm hp)]
      · rw [if_neg hk]
  · intro k
    unfold Places.generate State.Generated
    rw [hlog]
    by_cases htid : k.1 = tid
    · rw [htid, hdesc]
      by_cases hk : 0 ≤ k.2 ∧ k.2 < d.piecesCount
      · simp [hk]
      · have hk' : loc k = none := by
          rw [← htid] at hnone
          exact hnone k.2
        simp [hk, hk']
    · rw [if_neg (by simp [htid]), h.generated k, State.Generated]
      constructor
      · rintro ⟨hmem, hrange⟩
        rw [hdesc' k.1 hmem]
        exact ⟨List.mem_cons_of_mem _ hmem, hrange⟩
      · rintro ⟨hmem, hrange⟩
        have hmem : k.1 ∈ s.log.generated := by
          rcases List.mem_cons.mp hmem with heq | hmem
          · exact absurd heq htid
          · exact hmem
        rw [hdesc' k.1 hmem] at hrange
        exact ⟨hmem, hrange⟩

/-! ### Every step -/

/-- Processing a task leaves it a task for the same piece. -/
theorem key_process {downloads : Download.Env W} {task task' : PieceTask} {w : W}
    {faults : Nat → WriteFault} {fs fs' : FileSystem} {r : Outcome Empty Bool}
    (hprocess : process downloads fuel task w faults fs = (task', fs', r)) :
    task'.key = task.key := by
  obtain ⟨data, hdata⟩ := process_task downloads fuel task w faults fs
  rw [hprocess] at hdata
  have htask : task' = { task with data := data } := hdata
  rw [htask]
  rfl

/-- A step of the program moves one piece, generates or removes the pieces
    of a torrent, or leaves all pieces where they are. -/
theorem Step.refines (h : Step env fuel s a s') (hf : s.Fresh) (hagrees : s.Agrees loc) :
    s'.Agrees loc ∨ ∃ loc', Lifecycle.Step loc () loc' ∧ s'.Agrees loc' := by
  -- `addGenerate` is the one step that adds to the log of generated torrents;
  -- for all others `Generated` stays the same, which is proved once.
  have hdesc := h.descriptor_of_generated hf
  by_cases hgen : s'.log.generated = s.log.generated
  case neg =>
    obtain ⟨tid, descriptor, peers, beyond, pieces, ha, _, hpieces, rfl⟩ := h.generated hgen
    refine Or.inr ⟨_, hagrees.generate ha hpieces (hf.loading tid ha).2 rfl ?_ rfl rfl hdesc⟩
    intro p hp
    funext k
    cases p with
    | pending => exact absurd rfl hp
    | _ => rfl
  case pos =>
    have hsame := generated_congr hgen hdesc
    cases h with
    -- Five steps move pieces.
    | extract hi htask =>
      have htasks := Queue.extract_lifo htask
      exact Or.inr (hagrees.move (.extract _) (moved_extract hi htasks) hsame)
    | @requeue i task hi =>
      refine Or.inr (hagrees.move (.requeue i) (moved_from_held (k := task.key) ?_ rfl
        (by simp) ?_ ?_) hsame)
      · rw [hi]
        rfl
      · intro k'
        simp only [State.found, Queue.emplace, List.map_append, List.map_singleton]
        exact count_append_key _ _ k'
      · intro p hp
        funext k'
        cases p with
        | queued => exact absurd rfl hp
        | _ => rfl
    | @count i task peerIndex hi hlock =>
      refine Or.inr (hagrees.move (.process i) (moved_from_held (k := task.key) ?_ rfl
        (by simp) ?_ ?_) hsame)
      · rw [hi]
        rfl
      · intro k'
        exact count_cons_key _ k' _
      · intro p hp
        funext k'
        cases p with
        | processed => exact absurd rfl hp
        | _ => rfl
    | addEmplace ha => exact Or.inr (hagrees.move .emplace (moved_emplace ha) hsame)
    | purge tid hj =>
      exact Or.inr ⟨_, .remove tid, hagrees.remove (movedAll_purge tid rfl) hsame⟩
    -- The other steps of a worker keep its piece in its hands.
    | findPaused hi hlock hstate =>
      exact Or.inl (hagrees.keep rfl rfl (by rw [hi]; rfl) hsame)
    | work hi hlock hstate =>
      exact Or.inl (hagrees.keep rfl rfl (by rw [hi]; rfl) hsame)
    | fail hi hpeer hprocess =>
      have hkey := congrArg some (key_process hprocess)
      exact Or.inl (hagrees.keep rfl rfl (by rw [hi]; exact hkey) hsame)
    | succeed hi hpeer hprocess =>
      have hkey := congrArg some (key_process hprocess)
      exact Or.inl (hagrees.keep rfl rfl (by rw [hi]; exact hkey) hsame)
    | complete hi hlast =>
      exact Or.inl (hagrees.keep rfl rfl (by rw [hi]; rfl) hsame)
    | next hi hmore =>
      exact Or.inl (hagrees.keep rfl rfl (by rw [hi]; rfl) hsame)
    | addGenerate ha hlock hs' hpeers hpieces =>
      subst hs'
      exact absurd hgen (List.cons_ne_self _ _)
    -- The other steps of `add_torrent` have no pieces to emplace.
    | addWithoutPeers ha hlock hs' hpeers =>
      subst hs'
      exact Or.inl (hagrees.adder (by rw [ha]; rfl) rfl hsame)
    | addThrow ha hlock hs' hpeers hpieces =>
      subst hs'
      exact Or.inl (hagrees.adder (by rw [ha]; rfl) rfl hsame)
    | addBegin ha =>
      exact Or.inl (hagrees.adder (by rw [ha]; rfl) rfl hsame)
    | addFail ha =>
      exact Or.inl (hagrees.adder (by rw [ha]; rfl) rfl hsame)
    | addFinish ha =>
      exact Or.inl (hagrees.adder (by rw [ha]; rfl) rfl hsame)
    | _ => exact Or.inl (hagrees.same rfl hsame)

theorem fresh_of_reachable (h : Reachable (furrent env fuel n m) s) : s.Fresh := by
  refine h.invariant ?_ ?_
  · rintro _ ⟨files, rfl⟩
    exact ⟨by simp [State.start], by simp [State.start]⟩
  · intro s a s' _ hf hstep
    exact hstep.fresh hf

/-- The program refines the life of a piece. -/
theorem furrent_simulates :
    Simulates (furrent env fuel n m) (lifecycle n) (State.Agrees (n := n) (m := m)) := by
  constructor
  · rintro _ ⟨files, rfl⟩
    refine ⟨fun _ => none, fun _ => rfl, ?_, ?_⟩
    · intro p k
      cases p <;> rfl
    · intro k
      simp [State.Generated, State.start]
  · intro s a s' loc hreach hagrees hstep
    rcases hstep.refines (fresh_of_reachable hreach) hagrees with hsame | ⟨loc', hloc', hagrees'⟩
    · exact Or.inl hsame
    · exact Or.inr ⟨(), loc', hloc', hagrees'⟩

end Furrent.Client
