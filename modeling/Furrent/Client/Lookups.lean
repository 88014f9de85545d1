import Mathlib.Data.List.Forall2
import Furrent.Client.Changes

/-! # What the workers look up

    A worker takes the torrent of its task from `_torrents` under the shared
    lock, with `operator[]`, which would insert a torrent that is not there;
    then it draws the index of a peer from a distribution made of the scores
    of that torrent, and takes this peer from a copy of the list of peers.

    Every task belongs to a torrent that has been added with peers, and
    nothing removes an entry or changes the peers. So the torrent is there,
    with as many scores as peers, and all of them positive. -/

namespace Furrent.Client

open Cpp Platform Policy Transition

variable {n m : Nat} {W : Type} {env : Peer → Download.Env W} {fuel : Nat} {s s' : State n m}
  {a : Actor n m} {i : Fin n} {tid : TorrentID} {task : PieceTask}

/-! ### Scores -/

/-- The scores can be used as weights of the peers. -/
structure Weighted (t : Torrent) : Prop where
  length : t.peersScore.length = t.peers.length
  positive : ∀ score ∈ t.peersScore, 0 < score

theorem weighted_default : Weighted {} := ⟨rfl, by simp⟩

theorem weighted_create (tid : TorrentID) (descriptor : TorrentFile) (peers : List Peer) :
    Weighted (.create tid descriptor peers) := by
  constructor
  · exact List.length_map _
  · intro score hscore
    obtain ⟨_, _, hone⟩ := List.mem_map.mp hscore
    rw [← hone]
    exact Int.one_pos

theorem Weighted.withState {t : Torrent} (h : Weighted t) (state : TorrentState) :
    Weighted { t with state := state } :=
  ⟨h.length, h.positive⟩

theorem Weighted.addScore {t : Torrent} (h : Weighted t) (peerIndex : Nat) (sum : Int) :
    Weighted { t.atomicAddPeerScore peerIndex with piecesProcessed := sum } := by
  constructor
  · exact (List.length_modify ..).trans h.length
  · intro score hscore
    obtain ⟨k, hk, hget⟩ := List.mem_iff_getElem.mp hscore
    simp only [Torrent.atomicAddPeerScore, List.getElem_modify] at hget
    rw [← hget]
    have hk' : k < t.peersScore.length := by
      rw [← List.length_modify]
      exact hk
    have hold := h.positive t.peersScore[k] (List.getElem_mem hk')
    split
    · omega
    · exact hold

/-- All torrents have weights, the default one included. -/
def State.Weighted (s : State n m) : Prop := ∀ tid, Client.Weighted (s.torrent tid)

theorem State.Weighted.setTorrent (hs : s.Weighted) {t : Torrent} (ht : Client.Weighted t) :
    (s.setTorrent tid t).Weighted := by
  intro tid'
  rw [State.torrent_setTorrent]
  split
  · exact ht
  · exact hs tid'

theorem State.Weighted.tryEmplace (hs : s.Weighted) {t : Torrent} (ht : Client.Weighted t) :
    (s.tryEmplace tid t).Weighted := by
  apply hs.setTorrent
  cases htid : s.torrents tid with
  | none => exact ht
  | some t₀ =>
    rw [Option.getD_some, ← State.torrent_of_entry htid]
    exact hs tid

theorem Step.weighted (h : Step env fuel s a s') (hs : s.Weighted) : s'.Weighted := by
  cases h with
  | findPaused hi hlock hstate => exact hs.setTorrent (hs _)
  | work hi hlock hstate => exact hs.setTorrent (hs _)
  | count hi hlock => exact State.Weighted.setTorrent hs ((hs _).addScore _ _)
  | complete hi hlast => exact State.Weighted.setTorrent hs ((hs _).withState _)
  | @addWithoutPeers _ tid descriptor peers ha hlock hs₁ hpeers =>
    subst hs₁
    have hadded : (s.tryEmplace tid (.create tid descriptor peers)).Weighted :=
      hs.tryEmplace (weighted_create _ _ _)
    exact hadded.setTorrent ((hadded _).withState _)
  | addThrow ha hlock hs₁ hpeers hpieces =>
    subst hs₁
    exact hs.tryEmplace (weighted_create _ _ _)
  | addGenerate ha hlock hs₁ hpeers hpieces =>
    subst hs₁
    exact hs.tryEmplace (weighted_create _ _ _)
  | addFinish ha => exact hs.setTorrent ((hs _).withState _)
  | load hj hlock => exact hs.setTorrent (hs _)
  | stop hj hstate => exact hs.setTorrent ((hs _).withState _)
  | store state ht =>
    rw [← State.torrent_of_entry ht]
    exact hs.setTorrent ((hs _).withState state)
  | _ => exact hs

theorem weighted_of_reachable (h : Reachable (furrent env fuel n m) s) : s.Weighted := by
  apply h.invariant (I := State.Weighted)
  · intro s hs tid
    obtain ⟨files, rfl⟩ := hs
    exact weighted_default
  · intro s a s' _ hs hstep
    exact hstep.weighted hs

/-! ### Tasks -/

theorem Step.peers (h : Step env fuel s a s') (htid : s.adder ≠ .loading tid) :
    (s'.torrent tid).peers = (s.torrent tid).peers :=
  h.constant Torrent.peers (fun _ _ => rfl) (fun _ _ _ => rfl) htid

/-- A torrent has tasks only if it has peers. -/
theorem peers_of_generated (h : Reachable (furrent env fuel n m) s)
    (htid : tid ∈ s.log.generated) : (s.torrent tid).peers ≠ [] := by
  revert htid
  apply h.invariant (I := fun s => tid ∈ s.log.generated → (s.torrent tid).peers ≠ [])
  · intro s hs htid
    obtain ⟨files, rfl⟩ := hs
    exact absurd htid List.not_mem_nil
  · intro s a s' hreach hs hstep htid
    -- The list grows by a torrent with peers only; the others keep theirs.
    have hold : tid ∈ s.log.generated → (s'.torrent tid).peers ≠ [] := by
      intro hmem
      rw [hstep.peers fun ha => ((fresh_of_reachable hreach).loading tid ha).2 hmem]
      exact hs hmem
    by_cases hgen : s'.log.generated = s.log.generated
    · rw [hgen] at htid
      exact hold htid
    · obtain ⟨tid', descriptor, peers, beyond, pieces, _, hpeers, _, hs'⟩ := hstep.generated hgen
      rw [hs'] at htid
      rcases List.mem_cons.mp htid with heq | hmem
      · rw [hs', heq]
        exact hpeers
      · exact hold hmem

/-- The task is in the queue or in the hands of a worker. -/
def State.Has (s : State n m) (task : PieceTask) : Prop :=
  task ∈ s.tasks ∨ ∃ i, (s.workers i).task = some task

theorem generated_of_has (h : Reachable (furrent env fuel n m) s) (htask : s.Has task) :
    task.tid ∈ s.log.generated := by
  obtain ⟨loc, _, hagrees⟩ := furrent_simulates.reachable h
  have hsomewhere : loc task.key ≠ none := by
    rcases htask with hqueued | ⟨i, hheld⟩
    · have hcount : 0 < s.found .queued task.key :=
        List.count_pos_iff.mpr (List.mem_map_of_mem hqueued)
      rw [hagrees.located.eq_some hcount]
      simp
    · have hcount : 0 < s.found (.held i) task.key := by
        rw [State.found, Worker.key, hheld]
        simp
      rw [hagrees.located.eq_some hcount]
      simp
  exact ((hagrees.generated task.key).mp hsomewhere).1

/-- The torrent of a task is there, with peers and with weights. -/
theorem entry_of_has (h : Reachable (furrent env fuel n m) s) (htask : s.Has task) :
    ∃ t, s.torrents task.tid = some t ∧ t.peers ≠ [] ∧ Weighted t := by
  have hgen := generated_of_has h htask
  obtain ⟨t, ht⟩ := entry_of_generated h hgen
  have hpeers := peers_of_generated h hgen
  have hweighted := weighted_of_reachable h task.tid
  rw [State.torrent_of_entry ht] at hpeers hweighted
  exact ⟨t, ht, hpeers, hweighted⟩

/-! ### Accesses -/

/-- Writing an entry that is there inserts nothing. -/
theorem keys_update {t t₀ : Torrent} {tid' : TorrentID}
    (hs' : s'.torrents = Function.update s.torrents tid' (some t))
    (hentry : s.torrents tid' = some t₀) (tid : TorrentID) :
    s'.torrents tid = none ↔ s.torrents tid = none := by
  rw [hs']
  by_cases heq : tid = tid'
  · simp [heq, hentry]
  · rw [Function.update_of_ne heq]

/-- A worker inserts nothing into the map. -/
theorem keys_of_worker_step (h : Reachable (furrent env fuel n m) s)
    (hstep : Step env fuel s (.worker i) s') (tid : TorrentID) :
    s'.torrents tid = none ↔ s.torrents tid = none := by
  have hheld : ∀ task, (s.workers i).task = some task → ∃ t, s.torrents task.tid = some t := by
    intro task htask
    obtain ⟨t, ht, _⟩ := entry_of_has h (.inr ⟨i, htask⟩)
    exact ⟨t, ht⟩
  cases hstep with
  | findPaused hi hlock hstate =>
    obtain ⟨t, ht⟩ := hheld _ (by rw [hi]; rfl)
    exact keys_update rfl ht tid
  | work hi hlock hstate =>
    obtain ⟨t, ht⟩ := hheld _ (by rw [hi]; rfl)
    exact keys_update rfl ht tid
  | count hi hlock =>
    obtain ⟨t, ht⟩ := hheld _ (by rw [hi]; rfl)
    exact keys_update rfl ht tid
  | complete hi hlast =>
    -- It holds no task any more, but its torrent has been added.
    obtain ⟨t, ht⟩ := entry_of_generated h ((counted_of_reachable h).sum_le _ _ _ hi).1
    exact keys_update rfl ht tid
  | _ => exact Iff.rfl

/-! ### Drawing a peer -/

/-- The program with the variables `peers_distribution` of the workers: the
    scores it has been made of. -/
structure Drawing (n m : Nat) where
  client : State n m
  scores : Fin n → List Int

/-- A worker that goes to work makes its distribution. The scores are loaded
    one by one after the state: meanwhile others may have raised them. -/
inductive DrawingStep (env : Peer → Download.Env W) (fuel : Nat) :
    Drawing n m → Actor n m → Drawing n m → Prop where
  | work {d : Drawing n m} {s' : State n m} {i : Fin n} {task : PieceTask} {scores : List Int}
      (step : Step env fuel d.client (.worker i) s')
      (before : d.client.workers i = .extracted task)
      (working : s'.workers i = .working task (d.client.torrent task.tid).peers)
      (loaded : List.Forall₂ (· ≤ ·) (d.client.torrent task.tid).peersScore scores) :
      DrawingStep env fuel d (.worker i) ⟨s', Function.update d.scores i scores⟩
  | other {d : Drawing n m} {a : Actor n m} {s' : State n m} (step : Step env fuel d.client a s')
      (notWork : ∀ i task peers, a = .worker i → d.client.workers i = .extracted task →
        s'.workers i ≠ .working task peers) :
      DrawingStep env fuel d a ⟨s', d.scores⟩

def drawing (env : Peer → Download.Env W) (fuel n m : Nat) : System (Drawing n m) (Actor n m) where
  init := fun d => (furrent env fuel n m).init d.client
  step := DrawingStep env fuel

variable {d d' : Drawing n m}

theorem DrawingStep.client (h : DrawingStep env fuel d a d') :
    Step env fuel d.client a d'.client := by
  cases h with
  | work step => exact step
  | other step => exact step

theorem client_of_reachable (h : Reachable (drawing env fuel n m) d) :
    Reachable (furrent env fuel n m) d.client := by
  apply h.invariant (I := fun d => Reachable (furrent env fuel n m) d.client)
  · intro d hd
    exact .init hd
  · intro d a d' _ hd hstep
    exact hd.step hstep.client

theorem Step.workers_of_ne (h : Step env fuel s a s') (ha : a ≠ .worker i) :
    s'.workers i = s.workers i := by
  have hne : ∀ i' w, a = .worker i' → (s.setWorker i' w).workers i = s.workers i := by
    intro i' w ha'
    apply State.workers_setWorker_of_ne
    intro heq
    rw [heq] at ha
    exact ha ha'
  cases h with
  | extract => exact hne _ _ rfl
  | findPaused => exact hne _ _ rfl
  | requeue => exact hne _ _ rfl
  | work => exact hne _ _ rfl
  | fail => exact hne _ _ rfl
  | succeed => exact hne _ _ rfl
  | count => exact hne _ _ rfl
  | complete => exact hne _ _ rfl
  | next => exact hne _ _ rfl
  | addWithoutPeers ha hlock hs₁ hpeers =>
    subst hs₁
    rfl
  | addThrow ha hlock hs₁ hpeers hpieces =>
    subst hs₁
    rfl
  | addGenerate ha hlock hs₁ hpeers hpieces =>
    subst hs₁
    rfl
  | _ => rfl

/-- A worker at work has peers, and a positive weight for each of them. -/
def Drawing.Ready (d : Drawing n m) : Prop :=
  ∀ i task peers, d.client.workers i = .working task peers →
    peers ≠ [] ∧ (d.scores i).length = peers.length ∧ ∀ score ∈ d.scores i, 0 < score

/-- Scores that have been raised are still weights. -/
theorem Weighted.loaded {t : Torrent} (h : Weighted t) {scores : List Int}
    (hloaded : List.Forall₂ (· ≤ ·) t.peersScore scores) :
    scores.length = t.peers.length ∧ ∀ score ∈ scores, 0 < score := by
  obtain ⟨hlength, hle⟩ := List.forall₂_iff_get.mp hloaded
  refine ⟨hlength.symm.trans h.length, ?_⟩
  intro score hscore
  obtain ⟨⟨k, hk⟩, hget⟩ := List.mem_iff_get.mp hscore
  have hk' : k < t.peersScore.length := by omega
  rw [← hget]
  exact lt_of_lt_of_le (h.positive _ (List.get_mem _ ⟨k, hk'⟩)) (hle k hk' hk)

theorem Drawing.Ready.step (h : DrawingStep env fuel d a d')
    (hreach : Reachable (furrent env fuel n m) d.client) (hd : d.Ready) : d'.Ready := by
  intro i task peers hi
  cases h with
  | @work s' i' task' scores step before working loaded =>
    by_cases heq : i = i'
    · subst heq
      rw [working] at hi
      injection hi with _ hpeers
      have hhas : d.client.Has task' := .inr ⟨i, by rw [before]; rfl⟩
      obtain ⟨t, ht, hne, hweighted⟩ := entry_of_has hreach hhas
      rw [State.torrent_of_entry ht] at hpeers loaded
      simp only [← hpeers, Function.update_self]
      exact ⟨hne, hweighted.loaded loaded⟩
    · rw [step.workers_of_ne (by simp [Ne.symm heq])] at hi
      simp only [Function.update_of_ne heq]
      exact hd i task peers hi
  | other step notWork =>
    by_cases ha : a = .worker i
    · have hworker := step.worker i
      rw [hi] at hworker
      generalize hw : Worker.working task peers = w at hworker
      cases hworker with
      | same => exact hd i task peers hw.symm
      | work worker =>
        injection hw with htask _
        rw [← htask] at worker
        exact absurd hi (notWork i task peers ha worker)
      | fail worker =>
        injection hw with _ hpeers
        rw [hpeers]
        exact hd i _ _ worker
      | _ => injection hw
    · rw [step.workers_of_ne ha] at hi
      exact hd i task peers hi

theorem ready_of_reachable (h : Reachable (drawing env fuel n m) d) : d.Ready := by
  apply h.invariant (I := Drawing.Ready)
  · intro d hd i task peers hi
    obtain ⟨files, hstart⟩ := hd
    rw [hstart] at hi
    injection hi
  · intro d a d' hreach hd hstep
    exact hd.step hstep (client_of_reachable hreach)

/-- A worker that goes to work copies the peers of its torrent. -/
theorem Step.begins_work (h : Step env fuel s (.worker i) s') (hi : s.workers i = .extracted task)
    {task' : PieceTask} {peers : List Peer} (hi' : s'.workers i = .working task' peers) :
    task' = task ∧ peers = (s.torrent task.tid).peers := by
  cases h with
  | work hi₀ hlock hstate =>
    rw [hi] at hi₀
    injection hi₀ with htask
    rw [State.workers_setWorker_self] at hi'
    injection hi' with htask' hpeers
    rw [htask]
    exact ⟨htask'.symm, hpeers.symm⟩
  | findPaused hi₀ hlock hstate =>
    rw [State.workers_setWorker_self] at hi'
    injection hi'
  | extract hi₀ htask =>
    rw [hi] at hi₀
    injection hi₀
  | requeue hi₀ =>
    rw [hi] at hi₀
    injection hi₀
  | fail hi₀ hpeer hprocess =>
    rw [hi] at hi₀
    injection hi₀
  | succeed hi₀ hpeer hprocess =>
    rw [hi] at hi₀
    injection hi₀
  | count hi₀ hlock =>
    rw [hi] at hi₀
    injection hi₀
  | complete hi₀ hlast =>
    rw [hi] at hi₀
    injection hi₀
  | next hi₀ hmore =>
    rw [hi] at hi₀
    injection hi₀

/-- The distributions are only looked at: every state of the program is
    reached with some. -/
theorem reachable_drawing (h : Reachable (furrent env fuel n m) s) :
    ∃ scores, Reachable (drawing env fuel n m) ⟨s, scores⟩ := by
  apply h.invariant (I := fun s => ∃ scores, Reachable (drawing env fuel n m) ⟨s, scores⟩)
  · intro s hs
    exact ⟨fun _ => [], .init hs⟩
  · intro s a s' _ hs hstep
    obtain ⟨scores, hdrawing⟩ := hs
    by_cases hwork : ∃ i task peers, a = .worker i ∧ s.workers i = .extracted task ∧
        s'.workers i = .working task peers
    · obtain ⟨i, task, peers, ha, hi, hi'⟩ := hwork
      subst ha
      obtain ⟨_, hpeers⟩ := Step.begins_work hstep hi hi'
      rw [hpeers] at hi'
      exact ⟨_, hdrawing.step (.work hstep hi hi' (List.forall₂_refl _))⟩
    · refine ⟨scores, hdrawing.step (.other hstep ?_)⟩
      intro i task peers ha hi hi'
      exact hwork ⟨i, task, peers, ha, hi, hi'⟩

/-! ### The workers find what they look up -/

/-- `std::discrete_distribution` draws one of `n ≥ 1` indices with positive
    weights. -/
def IsDistribution (draws : List Int → Nat → Prop) : Prop :=
  ∀ weights index, weights ≠ [] → (∀ weight ∈ weights, 0 < weight) → draws weights index →
    index < weights.length

/-- In every reachable state, with any number of workers and of threads that
    add and remove torrents: the torrent of a task in the queue or in the
    hands of a worker is in the map, with peers and as many scores; no step
    of a worker inserts an entry; and a worker draws the index of a peer. -/
theorem workers_find_torrent_and_peer {draws : List Int → Nat → Prop}
    (hdraws : IsDistribution draws) (h : Reachable (drawing env fuel n m) d) :
    (∀ task, d.client.Has task → ∃ t, d.client.torrents task.tid = some t ∧ t.peers ≠ [] ∧
      t.peersScore.length = t.peers.length) ∧
    (∀ i s', Step env fuel d.client (.worker i) s' →
      ∀ tid, s'.torrents tid = none ↔ d.client.torrents tid = none) ∧
    ∀ i task peers index, d.client.workers i = .working task peers →
      draws (d.scores i) index → index < peers.length := by
  have hclient := client_of_reachable h
  refine ⟨?_, ?_, ?_⟩
  · intro task htask
    obtain ⟨t, ht, hpeers, hweighted⟩ := entry_of_has hclient htask
    exact ⟨t, ht, hpeers, hweighted.length⟩
  · intro i s' hstep
    exact keys_of_worker_step hclient hstep
  · intro i task peers index hi hdrawn
    obtain ⟨hpeers, hlength, hpositive⟩ := ready_of_reachable h i task peers hi
    rw [← hlength]
    apply hdraws _ _ _ hpositive hdrawn
    intro hnil
    rw [hnil] at hlength
    exact hpeers (List.length_eq_zero_iff.mp hlength.symm)

/-- Of a torrent with two peers one piece has been counted, and a worker has
    the task of the other. -/
theorem workers_find_torrent_and_peer_two_peers : ∃ d : Drawing 2 0,
    Reachable (drawing (fun _ => Download.listEnv) 8 2 0) d ∧
    d.client.workers 1 = .working secondTask [⟨1, 2⟩, ⟨3, 4⟩] ∧
    (∃ t, d.client.torrents 0 = some t ∧ t.peersScore.length = t.peers.length) ∧
    ∀ index, index < (d.scores 1).length → index < 2 := by
  obtain ⟨s, hs, _, hi, _⟩ := bothPieces_held
  obtain ⟨scores, hdrawing⟩ := reachable_drawing hs.of_restrict
  have hdraws : IsDistribution fun weights index => index < weights.length := by
    intro weights index _ _ hlt
    exact hlt
  obtain ⟨hentry, _, hindex⟩ := workers_find_torrent_and_peer hdraws hdrawing
  obtain ⟨t, ht, _, hlength⟩ := hentry secondTask (.inr ⟨1, by rw [hi]; rfl⟩)
  refine ⟨⟨s, scores⟩, hdrawing, hi, ⟨t, ht, hlength⟩, ?_⟩
  intro index hlt
  exact hindex 1 _ _ index hi hlt

end Furrent.Client
