import Furrent.Download.Points
import Furrent.Download.Reassembly

/-! # The pipeline and the peer

    A peer keeps the requests it was sent until it has answered them. It
    drops them all when it chokes us, and ignores requests while it chokes
    us. `try_download` counts requests and blocks, and cannot tell a
    dropped request from one that is still to be answered: it does not send
    it again. The loop waits for something as long as nothing is dropped. -/

namespace Furrent.Download

open Cpp

/-! ### The peer -/

/-- What the other side of the connection knows: whether it chokes us, and
    the requests it has neither answered nor dropped. -/
structure RemotePeer where
  choking : Bool
  pending : List (Int × Int × Int)
  deriving DecidableEq, Repr

/-- A message is exchanged. -/
def RemotePeer.step (p : RemotePeer) : Event → RemotePeer
  | .received .choke => ⟨true, []⟩
  | .received .unchoke => { p with choking := false }
  | .received (.piece index begin block) =>
    { p with pending := p.pending.erase (index, begin, block.length) }
  | .sent (.request index begin length) =>
    if p.choking then p else { p with pending := (index, begin, length) :: p.pending }
  | _ => p

/-- The peer after the events `t`, newest first, if it had nothing to
    answer before. -/
def remotePeer (choking : Bool) : List Event → RemotePeer
  | [] => ⟨choking, []⟩
  | e :: t => (remotePeer choking t).step e

/-- No request was dropped: whenever a choke was received there was none to
    be answered. -/
def NothingDropped (choking : Bool) (t : List Event) : Prop :=
  ∀ later earlier, t = later ++ .received .choke :: earlier →
    (remotePeer choking earlier).pending = []

variable {choking : Bool} {t t₀ : List Event} {e : Event}

theorem NothingDropped.tail (h : NothingDropped choking (e :: t)) : NothingDropped choking t :=
  fun later earlier heq => h (e :: later) earlier (by rw [heq]; rfl)

theorem NothingDropped.choke (h : NothingDropped choking (.received .choke :: t)) :
    (remotePeer choking t).pending = [] :=
  h [] t rfl

theorem nothingDropped_of_not_mem (h : .received .choke ∉ t) : NothingDropped choking t := by
  intro later earlier heq
  exact absurd (by rw [heq]; simp) h

/-! ### The loop -/

variable {W : Type} {env : Env W} {torrent : TorrentFile} {fuel : Nat} {index length : Int}
  {d d' : Progress} {s s' : State W}

/-- As many requests are pending as the loop believes to be underway. -/
structure Underway (choking : Bool) (t : List Event) (d : Progress) (s : State W) : Prop where
  agree : (remotePeer choking t).choking = s.choked
  pending : d.blocksRequested - d.blocksReceived ≤ (remotePeer choking t).pending.length

/-- The same since the trace was `t₀`, unless a request was dropped. -/
def UnderwaySince (choking : Bool) (t₀ : List Event) (d : Progress) (s : State W) : Prop :=
  ∃ t, s.trace = t ++ t₀ ∧ (NothingDropped choking t → Underway choking t d s)

/-- A new request is pending. -/
theorem Underway.sent {w : W} {begin : Int} (h : Underway choking t d s)
    (hchoked : s.choked = false) :
    Underway choking (.sent (.request index begin length) :: t)
      { d with blocksRequested := d.blocksRequested + 1 }
      { s with world := w, trace := .sent (.request index begin length) :: s.trace } := by
  have hchoking : (remotePeer choking t).choking = false := by rw [h.agree, hchoked]
  have hpeer : remotePeer choking (.sent (.request index begin length) :: t)
      = { remotePeer choking t with
          pending := (index, begin, length) :: (remotePeer choking t).pending } := by
    rw [remotePeer, RemotePeer.step, if_neg (by simp [hchoking])]
  have hpending := h.pending
  constructor
  · rw [hpeer]
    exact h.agree
  · rw [hpeer]
    show d.blocksRequested + 1 - d.blocksReceived ≤ ((_ :: _ : List _).length : Nat)
    rw [List.length_cons]
    omega

/-- A block answers one request at most. -/
theorem Underway.piece {begin : Int} {block piece : Bytes} (h : Underway choking t d s)
    (hchoked : s'.choked = s.choked) :
    Underway choking (.received (.piece index begin block) :: t)
      { d with piece := piece, blocksReceived := d.blocksReceived + 1 } s' := by
  have hpending := h.pending
  constructor
  · rw [hchoked]
    exact h.agree
  · show d.blocksRequested - (d.blocksReceived + 1)
      ≤ (((remotePeer choking t).pending.erase _).length : Nat)
    have hle := List.le_length_erase (a := (index, begin, (block.length : Int)))
      (l := (remotePeer choking t).pending)
    omega

/-- A choke that drops nothing. -/
theorem Underway.choke (h : Underway choking t d s)
    (hnone : (remotePeer choking t).pending = []) (hchoked : s'.choked = true) :
    Underway choking (.received .choke :: t) d s' := by
  have hpending := h.pending
  rw [hnone] at hpending
  exact ⟨hchoked.symm, hpending⟩

theorem Underway.unchoke (h : Underway choking t d s) (hchoked : s'.choked = false) :
    Underway choking (.received .unchoke :: t) d s' :=
  ⟨hchoked.symm, h.pending⟩

/-- Other messages concern neither side. -/
theorem Underway.received {m : Message} (h : Underway choking t d s)
    (hm : m.ignored = true ∨ ∃ i, m = .haveMsg i) (hchoked : s'.choked = s.choked) :
    Underway choking (.received m :: t) d s' := by
  have hpeer : remotePeer choking (.received m :: t) = remotePeer choking t := by
    rcases hm with hm | ⟨i, rfl⟩
    · cases m with
      | _ => first | rfl | cases hm
    · rfl
  constructor
  · rw [hpeer, h.agree, hchoked]
  · rw [hpeer]
    exact h.pending

theorem wp_handleMessage_underway {m : Message} {w : W} (h : UnderwaySince choking t₀ d s) :
    (handleMessage d m).wp (UnderwaySince choking t₀) (fun _ _ => True)
      { s with world := w, trace := .received m :: s.trace } := by
  obtain ⟨t, htrace, hunderway⟩ := h
  refine Prog.wp_intro ?_ (fun _ _ _ => trivial)
  intro d' s' hrun
  have htrace' : ∀ s' : State W, s'.trace = .received m :: s.trace →
      s'.trace = (.received m :: t) ++ t₀ := fun s' hs' => by rw [hs', htrace]; rfl
  cases handleMessage_eq_ok hrun with
  | choke =>
    exact ⟨_, htrace' _ rfl, fun hnone => (hunderway hnone.tail).choke hnone.choke rfl⟩
  | unchoke => exact ⟨_, htrace' _ rfl, fun hnone => (hunderway hnone.tail).unchoke rfl⟩
  | haveMsg hbf hset =>
    exact ⟨_, htrace' _ rfl, fun hnone => (hunderway hnone.tail).received (Or.inr ⟨_, rfl⟩) rfl⟩
  | piece h0 hin => exact ⟨_, htrace' _ rfl, fun hnone => (hunderway hnone.tail).piece rfl⟩
  | ignored hm =>
    exact ⟨_, htrace' _ rfl, fun hnone => (hunderway hnone.tail).received (Or.inl hm) rfl⟩

theorem underway_invariant (torrent : TorrentFile) :
    LoopInvariant torrent index length (UnderwaySince (W := W) choking t₀)
      (fun _ _ => True) := by
  constructor
  · constructor
    · intro d s w h hchoked _
      obtain ⟨t, htrace, hunderway⟩ := h
      exact ⟨_ :: t, by rw [htrace]; rfl, fun hnone => (hunderway hnone.tail).sent hchoked⟩
    · intros
      trivial
    · intros
      trivial
  · intros
    trivial
  · intro d s m w h _
    exact wp_handleMessage_underway h

/-! ### Waiting for a message -/

/-- A call of `try_download` in state `s` has exchanged the messages `t` in
    its loop and waits in `recv_message`, with variables `d` and object
    `s'`; `choking` says whether it was choked when the loop began. -/
def Waits (env : Env W) (torrent : TorrentFile) (fuel : Nat) (task : Piece) (s : State W)
    (choking : Bool) (t : List Event) (d : Progress) (s' : State W) : Prop :=
  ∃ s₁ k d₀ s₀, Enters env torrent fuel task s s₁ ∧
    Downloads env torrent task.index k s₁ d₀ s₀ ∧
    incomplete (pieceLength torrent task.index) d₀ = true ∧
    fillPipeline env task.index (pieceLength torrent task.index) d₀ s₀ = (.ok d, s') ∧
    choking = s₁.choked ∧ s'.trace = t ++ s₁.trace

/-- Not choked and with blocks missing, the loop believes that something is
    underway once the pipeline is filled. -/
theorem underway_of_filled {n : Nat} (h : Filled length index d s d' s' n)
    (hmore : incomplete length d = true) (hchoked : s'.choked = false) :
    d'.blocksReceived < d'.blocksRequested := by
  have hmore : d.blocksReceived < blocksTotal length := by simpa [incomplete] using hmore
  have hprogress := h.progress
  obtain ⟨w, hs'⟩ := h.state
  rw [hs'] at hchoked
  have hroom : d'.blocksRequested - d'.blocksReceived < pipelineSizeMax →
      blocksTotal length ≤ d'.blocksRequested := by simpa [room] using h.full hchoked
  have hreceived : d'.blocksReceived = d.blocksReceived := by rw [hprogress]
  unfold pipelineSizeMax at hroom
  omega

/-- In every run in which no request is dropped: whenever `try_download`
    waits for a message and is not choked, a request is pending. -/
theorem pending_of_waits {task : Piece} (h : Waits env torrent fuel task s choking t d s')
    (hchoked : s'.choked = false) (hnone : NothingDropped choking t) :
    (remotePeer choking t).pending ≠ [] := by
  obtain ⟨s₁, k, d₀, s₀, henters, hrounds, hmore, hfill, hchoking, htrace⟩ := h
  have hstart : UnderwaySince choking s₁.trace (startProgress torrent task.index) s₁ :=
    ⟨[], rfl, fun _ => ⟨hchoking, le_rfl⟩⟩
  have hhead := (underway_invariant torrent).rounds hrounds hstart
  obtain ⟨t', htrace', hunderway⟩ :=
    Prog.wp_ok ((underway_invariant torrent).wp_fillPipeline hhead) hfill
  have heq : t' = t := List.append_cancel_right (htrace'.symm.trans htrace)
  rw [heq] at hunderway
  have hpending := (hunderway hnone).pending
  obtain ⟨n, hfilled⟩ := fillPipeline_eq_ok hfill
  have hlt := underway_of_filled hfilled hmore hchoked
  intro hnil
  rw [hnil, List.length_nil] at hpending
  omega

theorem threeBytes_enters {w : Bytes}
    (hconnected : (ensureConnected listEnv threeBytes 8 { world := w }).1 = .ok ())
    (hhas : (hasPiece listEnv 0 (ensureConnected listEnv threeBytes 8 { world := w }).2).1
      = .ok true) :
    Enters listEnv threeBytes 8 ⟨0, []⟩ { world := w }
      (ensureConnected listEnv threeBytes 8 { world := w }).2 :=
  enters_of_eq (by decide) hconnected hhas (by decide)

section

variable (w : Bytes)

/-- The object when a peer that sends `w` is connected, -/
def whenConnected : State Bytes := (ensureConnected listEnv threeBytes 8 { world := w }).2

/-- when the block has been requested and a message has come, -/
def afterFirst : State Bytes :=
  (downloadRound listEnv threeBytes 0 3 (startProgress threeBytes 0) (whenConnected w)).2

/-- when another one has come, -/
def afterSecond : State Bytes :=
  (downloadRound listEnv threeBytes 0 3 ⟨[0, 0, 0], 1, 0⟩ (afterFirst w)).2

/-- and when the third is awaited. -/
def atThird : State Bytes := (fillPipeline listEnv 0 3 ⟨[0, 0, 0], 1, 0⟩ (afterSecond w)).2

end

/-- Two messages have come, and none of them was the block. -/
theorem threeBytes_waits {w : Bytes} {t : List Event}
    (hconnected : (ensureConnected listEnv threeBytes 8 { world := w }).1 = .ok ())
    (hhas : (hasPiece listEnv 0 (whenConnected w)).1 = .ok true)
    (hfirst :
      (downloadRound listEnv threeBytes 0 3 (startProgress threeBytes 0) (whenConnected w)).1
        = .ok ⟨[0, 0, 0], 1, 0⟩)
    (hsecond : (downloadRound listEnv threeBytes 0 3 ⟨[0, 0, 0], 1, 0⟩ (afterFirst w)).1
      = .ok ⟨[0, 0, 0], 1, 0⟩)
    (hfill : (fillPipeline listEnv 0 3 ⟨[0, 0, 0], 1, 0⟩ (afterSecond w)).1
      = .ok ⟨[0, 0, 0], 1, 0⟩)
    (hchoked : (whenConnected w).choked = false)
    (htrace : (atThird w).trace = t ++ (whenConnected w).trace) :
    Waits listEnv threeBytes 8 ⟨0, []⟩ { world := w } false t ⟨[0, 0, 0], 1, 0⟩ (atThird w) := by
  have hrounds :
      Downloads listEnv threeBytes 0 2 (whenConnected w) ⟨[0, 0, 0], 1, 0⟩ (afterSecond w) :=
    .step (by decide) (Prod.ext hfirst rfl) (.step (by decide) (Prod.ext hsecond rfl) (.refl _ _))
  exact ⟨whenConnected w, 2, _, afterSecond w, threeBytes_enters hconnected hhas, hrounds,
    by decide, Prod.ext hfill rfl, hchoked.symm, htrace⟩

/-- The peer announces the piece again and unchokes us a second time, but does
    not answer. -/
def hesitates : Bytes := announces 128 ++ [0, 0, 0, 5, 4, 0, 0, 0, 0] ++ [0, 0, 0, 1, 1]

/-- The request is pending while the third message is awaited. -/
theorem pending_of_waits_third_message :
    ∃ d s', Waits listEnv threeBytes 8 ⟨0, []⟩ { world := hesitates } false
        [.received .unchoke, .received (.haveMsg 0), .sent (.request 0 0 3)] d s' ∧
      s'.choked = false ∧
      (remotePeer false
        [.received .unchoke, .received (.haveMsg 0), .sent (.request 0 0 3)]).pending ≠ [] := by
  have hwaits : Waits listEnv threeBytes 8 ⟨0, []⟩ { world := hesitates } false
      [.received .unchoke, .received (.haveMsg 0), .sent (.request 0 0 3)] ⟨[0, 0, 0], 1, 0⟩
      (atThird hesitates) := by
    apply threeBytes_waits
    all_goals decide +kernel
  have hchoked : (atThird hesitates).choked = false := by decide +kernel
  exact ⟨_, _, hwaits, hchoked,
    pending_of_waits hwaits hchoked (nothingDropped_of_not_mem (by simp))⟩

/-- The peer chokes us when the only block is requested, and unchokes us. -/
def drops : Bytes := announces 128 ++ [0, 0, 0, 1, 0] ++ [0, 0, 0, 1, 1]

/-- It has dropped the request, and it is not sent again. -/
theorem nothing_pending_after_choke :
    ∃ d s', Waits listEnv threeBytes 8 ⟨0, []⟩ { world := drops } false
        [.received .unchoke, .received .choke, .sent (.request 0 0 3)] d s' ∧
      s'.choked = false ∧ d.blocksReceived < blocksTotal 3 ∧
      (remotePeer false
        [.received .unchoke, .received .choke, .sent (.request 0 0 3)]).pending = [] := by
  have hwaits : Waits listEnv threeBytes 8 ⟨0, []⟩ { world := drops } false
      [.received .unchoke, .received .choke, .sent (.request 0 0 3)] ⟨[0, 0, 0], 1, 0⟩
      (atThird drops) := by
    apply threeBytes_waits
    all_goals decide +kernel
  exact ⟨_, _, hwaits, by decide +kernel, by decide, by decide⟩

end Furrent.Download
