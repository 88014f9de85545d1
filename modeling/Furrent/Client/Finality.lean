import Furrent.Client.Changes

/-! # Completed and Error are final

    `remove_torrent` loads the state, and unless it is `Completed` or
    `Error`, stores `Stopped`. The two accesses are made under the shared
    lock, which the workers take too: a worker that sets `Completed` between
    them is overruled. Nothing else in the program takes a final state
    back. -/

namespace Furrent.Client

open Cpp Platform Policy Transition

variable {n m : Nat} {W : Type} {env : Peer → Download.Env W} {fuel : Nat} {s s' : State n m}
  {a : Actor n m} {tid : TorrentID}

/-- The program itself takes a step. When it sets a torrent to `Completed`,
    every thread that has loaded the state of this torrent in
    `remove_torrent`, and has not acted on it, has found a final one. -/
def Undisturbed (s : State n m) (a : Actor n m) (_ : State n m) : Prop :=
  a ≠ .outside ∧ ∀ i tid processed, a = .worker i → s.workers i = .counted tid processed →
    processed = (s.torrent tid).descriptor.piecesCount →
      ∀ j state, s.removers j = .loaded tid state → state.Final

/-- What makes final states last. -/
structure Finality (s : State n m) : Prop where
  /-- An entry that is there too early was inserted by an access. -/
  unadded : ∀ tid t, s.Unadded tid → s.torrents tid = some t → t.peers = [] ∧ t.state = .error
  adding : ∀ tid pieces, s.adder = .emplacing tid pieces →
    tid ∈ s.log.generated ∧ ∃ t, s.torrents tid = some t ∧ t.state = .loading
  /-- Nobody works on a torrent in state `Error`. -/
  error : ∀ tid t, s.torrents tid = some t → t.state = .error → tid ∉ s.log.generated
  /-- Nobody is about to overwrite a final state. -/
  loaded : ∀ j tid state, s.removers j = .loaded tid state →
    ∃ t, s.torrents tid = some t ∧ (t.state.Final → state.Final)

/-- The default entry counts as one. -/
theorem Finality.torrent_unadded (hinv : Finality s) (htid : s.Unadded tid) :
    (s.torrent tid).peers = [] ∧ (s.torrent tid).state = .error := by
  cases ht : s.torrents tid with
  | none =>
    rw [State.torrent, ht]
    exact ⟨rfl, rfl⟩
  | some t =>
    rw [State.torrent_of_entry ht]
    exact hinv.unadded tid t htid ht

/-! ### A step -/

section

variable (hreach : Reachable (furrent env fuel n m) s) (hinv : Finality s)
  (h : Step env fuel s a s') (hstep : Undisturbed s a s')

include hreach hinv h hstep

/-- A final state stays. -/
theorem Finality.lasts {t : Torrent} (ht : s.torrents tid = some t) (hfinal : t.state.Final) :
    ∃ t', s'.torrents tid = some t' ∧ t'.state = t.state := by
  have htorrent := State.torrent_of_entry ht
  have hentry := h.entry tid
  generalize s'.torrents tid = entry at hentry
  cases hentry with
  | same => exact ⟨t, ht, rfl⟩
  | insert absent =>
    rw [absent] at ht
    cases ht
  | count worker tid_eq =>
    refine ⟨_, rfl, ?_⟩
    rw [← htorrent]
    rfl
  | complete actor worker last =>
    -- The torrent has tasks, so that its state is not `Error`.
    obtain ⟨hgen, _⟩ := (counted_of_reachable hreach).sum_le _ _ _ worker
    refine ⟨_, rfl, ?_⟩
    rcases hfinal with hcompleted | herror
    · rw [hcompleted]
    · exact absurd hgen (hinv.error tid t ht herror)
  | create loading lock absent leaves nextUid =>
    rw [absent] at ht
    cases ht
  | withoutPeers loading lock found peers leaves nextUid =>
    exact ⟨_, rfl, (hinv.unadded tid t (.inr loading) ht).2.symm⟩
  | finish emplacing leaves =>
    obtain ⟨_, t₁, ht₁, hloading⟩ := hinv.adding tid [] emplacing
    obtain rfl : t = t₁ := by simpa [ht] using ht₁
    simp [TorrentState.Final, hloading] at hfinal
  | stop remover running =>
    obtain ⟨t₁, ht₁, hstate⟩ := hinv.loaded _ _ _ remover
    obtain rfl : t = t₁ := by simpa [ht] using ht₁
    rcases hstate hfinal with hcompleted | herror
    · exact absurd hcompleted running.1
    · exact absurd herror running.2
  | store actor state => exact absurd actor hstep.1

theorem Finality.step_unadded {t : Torrent} (htid : s'.Unadded tid)
    (ht : s'.torrents tid = some t) : t.peers = [] ∧ t.state = .error := by
  have hold := h.unadded htid
  have hfresh := fresh_of_reachable hreach
  obtain ⟨hpeers, herror⟩ := hinv.torrent_unadded hold
  -- The torrent being added is in no case still unadded.
  have hadded : s.adder = .loading tid → s'.adder ≠ .loading tid → s'.nextUid = s.nextUid →
      False := by
    intro hload hleaves hnext
    rcases htid with hle | hload'
    · rw [hnext] at hle
      exact absurd (hfresh.loading tid hload).1 (not_lt.mpr hle)
    · exact hleaves hload'
  have hentry := h.entry tid
  rw [ht] at hentry
  generalize hnew : some t = entry at hentry
  cases hentry with
  | same => exact hinv.unadded tid t hold hnew.symm
  | insert absent =>
    cases hnew
    exact ⟨rfl, rfl⟩
  | count worker tid_eq =>
    cases hnew
    exact ⟨hpeers, herror⟩
  | complete actor worker last =>
    obtain ⟨hgen, _⟩ := (counted_of_reachable hreach).sum_le _ _ _ worker
    exact absurd hold (hfresh.not_unadded hgen)
  | create loading lock absent leaves nextUid => exact (hadded loading leaves nextUid).elim
  | withoutPeers loading lock found peers leaves nextUid =>
    exact (hadded loading (by simp [leaves]) nextUid).elim
  | finish emplacing leaves =>
    exact absurd hold (hfresh.not_unadded (hinv.adding tid [] emplacing).1)
  | stop remover running =>
    obtain ⟨t₁, ht₁, hstate⟩ := hinv.loaded _ _ _ remover
    rcases hstate (.inr (hinv.unadded tid t₁ hold ht₁).2) with hcompleted | herror
    · exact absurd hcompleted running.1
    · exact absurd herror running.2
  | store actor state => exact absurd actor hstep.1

theorem Finality.step_adding {pieces : List Piece} (ha : s'.adder = .emplacing tid pieces) :
    tid ∈ s'.log.generated ∧ ∃ t, s'.torrents tid = some t ∧ t.state = .loading := by
  rcases h.emplacing ha with ⟨pieces₀, hadder⟩ | ⟨_, _, hgen⟩
  · obtain ⟨hmem, t, ht, hloading⟩ := hinv.adding tid pieces₀ hadder
    obtain ⟨_, hcounted, hloaded⟩ := exclusive_of_reachable hreach tid pieces₀ hadder
    refine ⟨h.generated_subset hmem, ?_⟩
    -- The lock is held by `add_torrent`.
    have hentry := h.entry tid
    generalize s'.torrents tid = entry at hentry
    cases hentry with
    | same => exact ⟨t, ht, hloading⟩
    | insert absent =>
      rw [absent] at ht
      cases ht
    | count worker tid_eq =>
      refine ⟨_, rfl, ?_⟩
      rw [← hloading, ← State.torrent_of_entry ht]
      rfl
    | complete actor worker last => exact absurd worker (hcounted _ _ _)
    | create loading lock absent leaves nextUid =>
      rw [loading] at hadder
      cases hadder
    | withoutPeers loading lock found peers leaves nextUid =>
      rw [loading] at hadder
      cases hadder
    | finish emplacing leaves =>
      rw [leaves] at ha
      cases ha
    | stop remover running => exact absurd remover (hloaded _ _ _)
    | store actor state => exact absurd actor hstep.1
  · obtain ⟨tid', descriptor, peers, beyond, pieces', hload, hpeers, _, rfl⟩ := h.generated hgen
    obtain rfl : tid' = tid := by
      injection ha
    refine ⟨List.mem_cons_self, _, Function.update_self .., ?_⟩
    -- An entry that was there has no peers, so there was none.
    cases ht : s.torrents tid' with
    | none => rfl
    | some t =>
      rw [State.torrent_tryEmplace, if_pos rfl, ht, Option.getD_some] at hpeers
      exact absurd (hinv.unadded tid' t (.inr hload) ht).1 hpeers

theorem Finality.step_error {t : Torrent} (ht : s'.torrents tid = some t)
    (herror : t.state = .error) : tid ∉ s'.log.generated := by
  intro hmem
  by_cases hold : tid ∈ s.log.generated
  · obtain ⟨t₀, ht₀⟩ := entry_of_generated hreach hold
    have hentry := h.entry tid
    rw [ht] at hentry
    generalize hnew : some t = entry at hentry
    cases hentry with
    | same => exact hinv.error tid t hnew.symm herror hold
    | insert absent =>
      rw [absent] at ht₀
      cases ht₀
    | count worker tid_eq =>
      cases hnew
      refine hinv.error tid t₀ ht₀ ?_ hold
      rw [← herror, ← State.torrent_of_entry ht₀]
      rfl
    | create loading lock absent leaves nextUid =>
      rw [absent] at ht₀
      cases ht₀
    | withoutPeers loading lock found peers leaves nextUid =>
      exact ((fresh_of_reachable hreach).loading tid loading).2 hold
    | store actor state => exact absurd actor hstep.1
    | _ =>
      cases hnew
      cases herror
  · -- Its tasks have just been generated, and it is still loading.
    have hgen : s'.log.generated ≠ s.log.generated := by
      intro heq
      rw [heq] at hmem
      exact hold hmem
    obtain ⟨pieces, ha⟩ : ∃ pieces, s'.adder = .emplacing tid pieces := by
      obtain ⟨tid', _, _, _, pieces, _, _, _, rfl⟩ := h.generated hgen
      rcases List.mem_cons.mp hmem with rfl | hmem
      · exact ⟨pieces, rfl⟩
      · exact absurd hmem hold
    obtain ⟨_, t₁, ht₁, hloading⟩ := Finality.step_adding hreach hinv h hstep ha
    obtain rfl : t = t₁ := by simpa [ht] using ht₁
    rw [hloading] at herror
    cases herror

omit hreach in
theorem Finality.step_loaded {j : Fin m} {state : TorrentState}
    (hj : s'.removers j = .loaded tid state) :
    ∃ t, s'.torrents tid = some t ∧ (t.state.Final → state.Final) := by
  have hremover := h.remover j
  rw [hj] at hremover
  generalize hr : Remover.loaded tid state = r at hremover
  cases hremover with
  | same =>
    obtain ⟨t, ht, hfinal⟩ := hinv.loaded j tid state hr.symm
    have hentry := h.entry tid
    generalize s'.torrents tid = entry at hentry
    cases hentry with
    | same => exact ⟨t, ht, hfinal⟩
    | insert absent =>
      rw [absent] at ht
      cases ht
    | count worker tid_eq =>
      refine ⟨_, rfl, ?_⟩
      rw [← State.torrent_of_entry ht] at hfinal
      exact hfinal
    | complete actor worker last =>
      -- This thread has seen what the step may not overtake.
      exact ⟨_, rfl, fun _ => hstep.2 _ tid _ actor worker last j state hr.symm⟩
    | create loading lock absent leaves nextUid => exact absurd hr.symm (lock.2.2 _ _ _)
    | withoutPeers loading lock found peers leaves nextUid =>
      exact absurd hr.symm (lock.2.2 _ _ _)
    | finish emplacing leaves => exact ⟨_, rfl, by simp [TorrentState.Final]⟩
    | stop remover running => exact ⟨_, rfl, by simp [TorrentState.Final]⟩
    | store actor state => exact absurd actor hstep.1
  | load remover lock entry =>
    cases hr
    exact ⟨_, entry, id⟩
  | _ => cases hr

theorem Finality.step : Finality s' where
  unadded := fun _ _ htid ht => Finality.step_unadded hreach hinv h hstep htid ht
  adding := fun _ _ ha => Finality.step_adding hreach hinv h hstep ha
  error := fun _ _ ht herror => Finality.step_error hreach hinv h hstep ht herror
  loaded := fun _ _ _ hj => Finality.step_loaded hinv h hstep hj

end

/-! ### Runs -/

theorem finality_of_reachable
    (h : Reachable ((furrent env fuel n m).restrict Undisturbed) s) : Finality s := by
  refine h.invariant ?_ ?_
  · rintro _ ⟨files, rfl⟩
    exact ⟨by simp [State.start], by simp [State.start], by simp [State.start],
      by simp [State.start]⟩
  · intro s a s' hreach hinv hstep
    exact hinv.step hreach.of_restrict hstep.1 hstep.2

/-- In every run of the program in which no torrent is completed between the
    load and the store of a `remove_torrent` of it: once the state of a
    torrent is `Completed` or `Error`, it never changes again. -/
theorem final_state_lasts (hs : Reachable ((furrent env fuel n m).restrict Undisturbed) s)
    (hrun : Reaches ((furrent env fuel n m).restrict Undisturbed) s s') {t : Torrent}
    (ht : s.torrents tid = some t) (hfinal : t.state.Final) :
    ∃ t', s'.torrents tid = some t' ∧ t'.state = t.state := by
  refine (hrun.invariant (I := fun s =>
    Reachable ((furrent env fuel n m).restrict Undisturbed) s ∧
      ∃ t', s.torrents tid = some t' ∧ t'.state = t.state) ?_ ⟨hs, t, ht, rfl⟩).2
  rintro s₁ a s₂ ⟨hreach, t₁, ht₁, hstate⟩ hstep
  refine ⟨hreach.step hstep, ?_⟩
  rw [← hstate] at hfinal ⊢
  exact (finality_of_reachable hreach).lasts hreach.of_restrict hstep.1 hstep.2 ht₁ hfinal

open Download (listEnv)

/-- Only the completion of a torrent can disturb. -/
theorem undisturbed_remover {j : Fin m} : Undisturbed s (.remover j) s' := by
  simp [Undisturbed]

theorem undisturbed_of_idle (ha : a ≠ .outside) (hj : ∀ j, s.removers j = .idle) :
    Undisturbed s a s' := by
  refine ⟨ha, ?_⟩
  intro _ _ _ _ _ _ j state hloaded
  rw [hj j] at hloaded
  cases hloaded

/-- The torrent is removed after it has been completed. -/
theorem final_state_lasts_one_piece : ∃ s s' : State 1 1,
    Reachable ((furrent (fun _ => listEnv) 8 1 1).restrict Undisturbed) s ∧
    Reaches ((furrent (fun _ => listEnv) 8 1 1).restrict Undisturbed) s s' ∧
    (∃ t, s.torrents 0 = some t ∧ t.state = .completed) ∧ s'.removers 0 = .idle ∧
    ∃ t', s'.torrents 0 = some t' ∧ t'.state = .completed := by
  obtain ⟨s₀, h₀, hi, hj, hadder, hdesc, _, _⟩ := onePiece_counted 1
  have hreach₀ := h₀.restrict_mono (Q := Undisturbed)
    fun _ _ _ hstep => undisturbed_of_idle hstep.1 hstep.2
  obtain ⟨s, hreach, hj, hadder, ⟨t, ht, hstate⟩⟩ : ∃ s : State 1 1,
      Reachable ((furrent (fun _ => listEnv) 8 1 1).restrict Undisturbed) s ∧
      (∀ j, s.removers j = .idle) ∧ s.adder = .idle ∧
      ∃ t, s.torrents 0 = some t ∧ t.state = .completed :=
    ⟨_, hreach₀.step ⟨.complete hi (by rw [hdesc]; rfl), undisturbed_of_idle (by simp) hj⟩, hj,
      hadder, _, rfl, rfl⟩
  obtain ⟨s₁, s₂, hpurge, _, hload, hloaded, _, _⟩ := remove_begins 0 (hj 0)
    (State.sharedLock_of_idle hadder)
  rw [State.torrent_of_entry ht, hstate] at hloaded
  have hkeep : Step (fun _ => listEnv) 8 s₂ (.remover 0) _ := .keep hloaded (.inl rfl)
  have hrun : Reaches ((furrent (fun _ => listEnv) 8 1 1).restrict Undisturbed) s _ :=
    ((Relation.ReflTransGen.single ⟨_, hpurge, undisturbed_remover⟩).tail
      ⟨_, hload, undisturbed_remover⟩).tail ⟨_, hkeep, undisturbed_remover⟩
  obtain ⟨t', ht', hstate'⟩ := final_state_lasts hreach hrun ht (.inl hstate)
  exact ⟨s, _, hreach, hrun, ⟨t, ht, hstate⟩, rfl, t', ht', hstate'.trans hstate⟩

/-- The state is loaded, a worker completes the torrent, and the state is
    overwritten. -/
theorem completed_overwritten : ∃ s s' : State 1 1,
    Reachable ((furrent (fun _ => listEnv) 8 1 1).restrict OwnStep) s ∧
    Step (fun _ => listEnv) 8 s (.remover 0) s' ∧
    (∃ t, s.torrents 0 = some t ∧ t.state = .completed) ∧
    ∃ t', s'.torrents 0 = some t' ∧ t'.state = .stopped := by
  obtain ⟨s₀, h₀, hi, hj, hadder, hdesc, hstate, _⟩ := onePiece_counted 1
  have hreach₀ := h₀.restrict_mono (Q := OwnStep) fun _ _ _ hstep => hstep.1
  obtain ⟨s₁, s₂, hpurge, _, hload, hloaded, hworkers, hentry⟩ := remove_begins 0 (hj 0)
    (State.sharedLock_of_idle hadder)
  have hreach₂ := (hreach₀.step ⟨hpurge, ownStep_remover⟩).step ⟨hload, ownStep_remover⟩
  have htorrent := State.torrent_of_entry hentry
  rw [hstate] at hloaded
  -- The last piece is done in this moment.
  obtain ⟨s, hcomplete, hloaded, ht⟩ : ∃ s, Step (fun _ => listEnv) 8 s₂ (.worker 0) s ∧
      s.removers 0 = .loaded 0 .downloading ∧ ∃ t, s.torrents 0 = some t ∧ t.state = .completed :=
    ⟨_, .complete (by rw [hworkers, hi]) (by rw [htorrent, hdesc]; rfl), hloaded, _, rfl, rfl⟩
  exact ⟨s, _, hreach₂.step ⟨hcomplete, ownStep_worker⟩, .stop hloaded (by decide), ht, _,
    rfl, rfl⟩

end Furrent.Client
