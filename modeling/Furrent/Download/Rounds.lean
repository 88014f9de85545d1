import Furrent.Framework.Loop
import Furrent.Download.Rules

/-! # The loops of the downloader, round by round

    The three loops of `ensure_connected` and `try_download` are loops in
    the sense of the library. For each function that is called in a round
    it is said once what a call that returned has done; what holds between
    two rounds is derived from that. An invariant of the loop of
    `try_download` is shown for the messages it sends and receives. -/

namespace Furrent.Download

open Cpp

variable {W : Type} {env : Env W} {torrent : TorrentFile} {s s' : State W}

/-! ### What a call that returned has done -/

theorem useSocket_eq_ok {α : Type} {op : W → Except SocketError α × W} {a : α}
    (h : useSocket env op s = (.ok a, s')) :
    ∃ w, op s.world = (.ok a, w) ∧ s' = { s with world := w } := by
  obtain ⟨r, s₁, hcall, hr⟩ := Prog.bind_eq_ok h
  obtain ⟨hr₁, hs₁⟩ := Prod.mk.inj hcall
  injection hr₁ with hr₁
  cases r with
  | ok a' =>
    obtain ⟨ha, rfl⟩ := Prod.mk.inj hr
    injection ha with ha
    subst ha
    exact ⟨(op s.world).2, Prod.ext hr₁ rfl, hs₁.symm⟩
  | error e =>
    obtain ⟨_, _, _, hfail⟩ := Prog.bind_eq_ok hr
    cases hfail

theorem sendMessage_eq_ok {m : Message} (h : sendMessage env m s = (.ok (), s')) :
    ∃ w, s' = { s with world := w, trace := .sent m :: s.trace } := by
  unfold sendMessage at h
  cases hencode : m.encode with
  | error x =>
    simp only [hencode] at h
    cases h
  | ok bytes =>
    simp only [hencode] at h
    obtain ⟨_, s₁, hrecord, hsend⟩ := Prog.bind_eq_ok h
    obtain ⟨_, rfl⟩ := Prod.mk.inj hrecord
    obtain ⟨w, _, rfl⟩ := useSocket_eq_ok hsend
    exact ⟨w, rfl⟩

/-- Two reads and the message they decode to. -/
theorem recvMessage_eq_ok {m : Message} (h : recvMessage env torrent s = (.ok m, s')) :
    ∃ w₁ w₂ messageLenBytes rest, env.read 4 s.world = (.ok messageLenBytes, w₁) ∧
      env.read (decodeInteger messageLenBytes.val).toNat w₁ = (.ok rest, w₂) ∧
      Message.decode torrent (messageLenBytes.val ++ rest.val) = .ok m ∧
      s' = { s with world := w₂, trace := .received m :: s.trace } := by
  obtain ⟨messageLenBytes, s₁, hread₁, h⟩ := Prog.bind_eq_ok h
  obtain ⟨rest, s₂, hread₂, h⟩ := Prog.bind_eq_ok h
  obtain ⟨w₁, hw₁, rfl⟩ := useSocket_eq_ok hread₁
  obtain ⟨w₂, hw₂, rfl⟩ := useSocket_eq_ok hread₂
  cases hdecode : Message.decode torrent (messageLenBytes.val ++ rest.val) with
  | error e =>
    simp only [hdecode] at h
    obtain ⟨_, _, _, hfail⟩ := Prog.bind_eq_ok h
    cases hfail
  | ok m' =>
    simp only [hdecode] at h
    obtain ⟨hm, rfl⟩ := Prod.mk.inj h
    injection hm with hm
    exact ⟨w₁, w₂, messageLenBytes, rest, hw₁, hw₂, by rw [hdecode, hm], by rw [hm]⟩

/-- What `noteUnchoke` leaves behind. -/
theorem noteUnchoke_eq_ok {m : Message} (h : noteUnchoke m s = (.ok (), s')) :
    s' = { s with choked := if m = .unchoke then false else s.choked } := by
  unfold noteUnchoke at h
  by_cases hm : m = .unchoke
  · rw [if_pos hm] at h
    obtain ⟨_, rfl⟩ := Prod.mk.inj h
    rw [if_pos hm]
  · rw [if_neg hm] at h
    obtain ⟨_, rfl⟩ := Prod.mk.inj h
    rw [if_neg hm]

/-! ### The pipeline -/

/-- The requests for `n` blocks from block `j` on, newest first. -/
def requests (index length j : Int) : Nat → List Event
  | 0 => []
  | n + 1 => .sent (.request index (blockOffset (j + n)) (blockLength length (j + n)))
      :: requests index length j n

/-- A round of the inner loop. -/
def requestBlock (env : Env W) (index length : Int) (d : Progress) : Run W Progress := do
  sendMessage env (.request index (blockOffset d.blocksRequested)
    (blockLength length d.blocksRequested))
  pure { d with blocksRequested := d.blocksRequested + 1 }

/-- There is room in the pipeline and something to ask for. -/
def room (length : Int) (d : Progress) : Bool :=
  d.blocksRequested - d.blocksReceived < pipelineSizeMax ∧ d.blocksRequested < blocksTotal length

variable {index length : Int} {d d' : Progress}

theorem lt_total_of_room (h : room length d = true) : d.blocksRequested < blocksTotal length := by
  have hboth : d.blocksRequested - d.blocksReceived < pipelineSizeMax ∧
      d.blocksRequested < blocksTotal length := by simpa [room] using h
  exact hboth.2

theorem requestBlocks_eq_loop (n : Nat) :
    requestBlocks env index length n d
      = Prog.loop (fun d _ => room length d) (requestBlock env index length) n d := by
  induction n generalizing d with
  | zero => rfl
  | succ n ih =>
    funext s
    have hget : (Prog.get : Run W (State W)) s = (.ok s, s) := rfl
    rw [Prog.loop, Prog.bind_ok hget, requestBlock, Prog.bind_assoc, requestBlocks]
    by_cases hroom : room length d = true
    · rw [if_pos hroom, if_pos (by simpa [room] using hroom)]
      exact Prog.bind_congr rfl fun _ s' _ => congrFun ih s'
    · rw [if_neg hroom, if_neg (by simpa [room] using hroom)]

/-- Each round sends the next request. -/
theorem requestBlock_eq_ok (h : requestBlock env index length d s = (.ok d', s')) :
    d' = { d with blocksRequested := d.blocksRequested + 1 } ∧
      ∃ w, s' = { s with
        world := w
        trace := .sent (.request index (blockOffset d.blocksRequested)
          (blockLength length d.blocksRequested)) :: s.trace } := by
  obtain ⟨_, s₁, hsend, h⟩ := Prog.bind_eq_ok h
  obtain ⟨w, rfl⟩ := sendMessage_eq_ok hsend
  obtain ⟨hd, rfl⟩ := Prod.mk.inj h
  injection hd with hd
  exact ⟨hd.symm, w, rfl⟩

/-- The oldest of the requests is the one for block `j`. -/
theorem requests_succ (index length j : Int) (n : Nat) :
    requests index length j (n + 1) = requests index length (j + 1) n
      ++ [.sent (.request index (blockOffset j) (blockLength length j))] := by
  induction n with
  | zero => simp [requests]
  | succ n ih =>
    have hnext : j + (n + 1 : Nat) = j + 1 + n := by omega
    rw [requests, ih, hnext]
    rfl

/-- `k` rounds of the inner loop send `k` requests, each inside the piece. -/
theorem rounds_requestBlock {k : Nat}
    (h : Prog.Rounds (fun d _ => room length d) (requestBlock env index length) k d s d' s') :
    d' = { d with blocksRequested := d.blocksRequested + k } ∧
      (∃ w, s' = { s with
        world := w, trace := requests index length d.blocksRequested k ++ s.trace }) ∧
      (k = 0 ∨ d'.blocksRequested ≤ blocksTotal length) := by
  induction h with
  | refl d s => exact ⟨by simp, ⟨s.world, rfl⟩, Or.inl rfl⟩
  | @step k d d₁ d' s s₁ s' hroom hbody rest ih =>
    obtain ⟨rfl, w₁, rfl⟩ := requestBlock_eq_ok hbody
    obtain ⟨hd', ⟨w, rfl⟩, hle⟩ := ih
    have hlt := lt_total_of_room hroom
    refine ⟨?_, ⟨w, ?_⟩, Or.inr ?_⟩
    · rw [hd']
      simp only [Progress.mk.injEq, true_and, and_true]
      omega
    · simp only [requests_succ, List.append_assoc, List.singleton_append]
    · rcases hle with rfl | hle
      · rw [hd']
        show d.blocksRequested + 1 + (0 : Nat) ≤ blocksTotal length
        omega
      · exact hle

/-- `n` requests have been sent: a choked downloader has sent none, and
    otherwise there is no room for a further one. -/
structure Filled (length : Int) (index : Int) (d : Progress) (s : State W) (d' : Progress)
    (s' : State W) (n : Nat) : Prop where
  progress : d' = { d with blocksRequested := d.blocksRequested + n }
  state : ∃ w, s' = { s with
    world := w, trace := requests index length d.blocksRequested n ++ s.trace }
  choked : s.choked = true → n = 0
  full : s.choked = false → room length d' = false
  /-- No request leaves the piece. -/
  le_total : n = 0 ∨ d'.blocksRequested ≤ blocksTotal length

theorem fillPipeline_eq_ok (h : fillPipeline env index length d s = (.ok d', s')) :
    ∃ n, Filled length index d s d' s' n := by
  have hget : (Prog.get : Run W (State W)) s = (.ok s, s) := rfl
  rw [fillPipeline, Prog.bind_ok hget] at h
  by_cases hchoked : s.choked = true
  · rw [if_pos hchoked] at h
    obtain ⟨hd, rfl⟩ := Prod.mk.inj h
    injection hd with hd
    subst hd
    exact ⟨0, by simp, ⟨s.world, rfl⟩, fun _ => rfl, by simp [hchoked], Or.inl rfl⟩
  · rw [if_neg hchoked, requestBlocks_eq_loop] at h
    obtain ⟨k, hrounds, hroom⟩ := Prog.rounds_of_loop h
    obtain ⟨hprogress, hstate, hle⟩ := rounds_requestBlock hrounds
    exact ⟨k, hprogress, hstate, fun hc => absurd hc hchoked, fun _ => hroom, hle⟩

/-! ### The switch -/

/-- The messages `try_download` ignores. -/
def Message.ignored : Message → Bool
  | .keepAlive => true
  | .interested => true
  | .notInterested => true
  | .bitfield _ => true
  | .request _ _ _ => true
  | _ => false

/-- What the `switch` does when nothing goes wrong. -/
inductive Handled (d : Progress) (s : State W) : Message → Progress → State W → Prop where
  | choke : Handled d s .choke d { s with choked := true }
  | unchoke : Handled d s .unchoke d { s with choked := false }
  | haveMsg {i : Int} {bf bf' : Bitfield} (hbf : s.bitfield = some bf)
      (hset : bf.set i true = .ok bf') :
      Handled d s (.haveMsg i) d { s with bitfield := some bf' }
  | piece {i begin : Int} {block : Bytes} (h0 : 0 ≤ begin)
      (hin : begin + block.length ≤ d.piece.length) :
      Handled d s (.piece i begin block)
        { d with
          piece := overwrite 0 d.piece begin.toNat block
          blocksReceived := d.blocksReceived + 1 } s
  | ignored {m : Message} (hm : m.ignored = true) : Handled d s m d s

theorem handleMessage_haveMsg {i : Int} {bf : Bitfield} (hbf : s.bitfield = some bf) :
    handleMessage d (.haveMsg i) s
      = (Prog.ofOutcome (bf.set i true) >>= fun bf => do
          Prog.modify fun s => { s with bitfield := some bf }
          pure d) s := by
  have hget : (Prog.get : Run W (State W)) s = (.ok s, s) := rfl
  rw [handleMessage, Prog.bind_ok hget]
  simp only [hbf]

/-- Nothing happened on the connection. -/
structure Quiet (s s' : State W) : Prop where
  world : s'.world = s.world
  socket : s'.socket = s.socket
  trace : s'.trace = s.trace

/-- The `switch` leaves the connection alone, however it ends. -/
theorem wp_handleMessage_quiet (d : Progress) (m : Message) (s : State W) :
    (handleMessage d m).wp (fun _ s' => Quiet s s') (fun e s' => Internal e ∧ Quiet s s') s := by
  have hquiet : Quiet s s := ⟨rfl, rfl, rfl⟩
  cases m with
  | haveMsg i =>
    rw [handleMessage, Prog.wp_bind, Prog.wp_get]
    cases s.bitfield with
    | none => exact ⟨.trap, hquiet⟩
    | some bf =>
      show Prog.wp _ _ _ s
      rw [Prog.wp_bind]
      exact wp_ofOutcome_internal (fun _ _ => ⟨rfl, rfl, rfl⟩) (fun e he => ⟨he, hquiet⟩)
  | piece i begin block =>
    rw [handleMessage]
    exact Prog.wp_ite (fun _ => hquiet) (fun _ => ⟨.trap, hquiet⟩)
  | _ => exact ⟨rfl, rfl, rfl⟩

theorem handleMessage_quiet (d : Progress) (m : Message) (s : State W) :
    Quiet s (handleMessage d m s).2 :=
  Prog.wp_state (Prog.wp_mono (wp_handleMessage_quiet d m s) (fun _ _ h => h) (fun _ _ h => h.2))

theorem handleMessage_eq_ok {m : Message} (h : handleMessage d m s = (.ok d', s')) :
    Handled d s m d' s' := by
  cases m with
  | choke =>
    obtain ⟨hd, rfl⟩ := Prod.mk.inj h
    cases hd
    exact .choke
  | unchoke =>
    obtain ⟨hd, rfl⟩ := Prod.mk.inj h
    cases hd
    exact .unchoke
  | haveMsg i =>
    cases hbf : s.bitfield with
    | none =>
      have hget : (Prog.get : Run W (State W)) s = (.ok s, s) := rfl
      rw [handleMessage, Prog.bind_ok hget] at h
      simp only [hbf] at h
      cases h
    | some bf =>
      rw [handleMessage_haveMsg hbf] at h
      obtain ⟨bf', s₁, hrun, hnote⟩ := Prog.bind_eq_ok h
      obtain ⟨hset, rfl⟩ := Prog.ofOutcome_eq_ok hrun
      obtain ⟨hd, rfl⟩ := Prod.mk.inj hnote
      cases hd
      exact .haveMsg hbf hset
  | piece i begin block =>
    rw [handleMessage] at h
    by_cases hin : 0 ≤ begin ∧ begin + block.length ≤ d.piece.length
    · rw [if_pos hin] at h
      obtain ⟨hd, rfl⟩ := Prod.mk.inj h
      cases hd
      exact .piece hin.1 hin.2
    · rw [if_neg hin] at h
      cases h
  | _ =>
    obtain ⟨hd, rfl⟩ := Prod.mk.inj h
    cases hd
    exact .ignored rfl

/-- What the `switch` does to the variables of the loop. -/
theorem wp_handleMessage_progress {m : Message} {Q : Progress → State W → Prop}
    (hpiece : ∀ i begin block, m = .piece i begin block → 0 ≤ begin →
      begin + block.length ≤ d.piece.length →
      Q { d with
        piece := overwrite 0 d.piece begin.toNat block
        blocksReceived := d.blocksReceived + 1 } s)
    (hother : ∀ s', s'.trace = s.trace → (∀ i begin block, m ≠ .piece i begin block) → Q d s') :
    (handleMessage d m).wp Q (fun _ _ => True) s := by
  cases m with
  | piece i begin block =>
    rw [handleMessage]
    apply Prog.wp_ite
    · intro hin
      exact hpiece i begin block rfl hin.1 hin.2
    · intro _
      trivial
  | haveMsg i =>
    rw [handleMessage, Prog.wp_bind, Prog.wp_get]
    split
    · trivial
    · rw [Prog.wp_bind]
      refine Prog.wp_ofOutcome ?_ (fun _ => trivial)
      intro bf _
      exact hother _ rfl (by simp)
  | _ => exact hother _ rfl (by simp)

/-! ### The loops -/

/-- A round of the loop of `try_download`. -/
def downloadRound (env : Env W) (torrent : TorrentFile) (index length : Int) (d : Progress) :
    Run W Progress := do
  let d ← fillPipeline env index length d
  let message ← recvMessage env torrent
  handleMessage d message

/-- `blocks_received < blocks_total`. -/
def incomplete (length : Int) (d : Progress) : Bool := d.blocksReceived < blocksTotal length

theorem downloadLoop_eq_loop (n : Nat) :
    downloadLoop env torrent index length n d
      = Prog.loop (fun d _ => incomplete length d) (downloadRound env torrent index length) n
        d := by
  induction n generalizing d with
  | zero => rfl
  | succ n ih =>
    funext s
    have hget : (Prog.get : Run W (State W)) s = (.ok s, s) := rfl
    rw [Prog.loop, Prog.bind_ok hget, downloadLoop]
    by_cases hmore : incomplete length d = true
    · rw [if_pos hmore, if_pos (by simpa [incomplete] using hmore), downloadRound,
        Prog.bind_assoc]
      refine Prog.bind_congr rfl fun d s _ => ?_
      rw [Prog.bind_assoc]
      refine Prog.bind_congr rfl fun m s _ => ?_
      exact Prog.bind_congr rfl fun d s _ => congrFun ih s
    · rw [if_neg hmore, if_neg (by simpa [incomplete] using hmore)]

section

variable {n : Nat} {s₁ : State W} {d₁ : Progress}

theorem downloadLoop_done (hmore : incomplete length d = false) :
    downloadLoop env torrent index length (n + 1) d s = (.ok d, s) := by
  rw [downloadLoop_eq_loop]
  exact Prog.loop_done hmore

theorem downloadLoop_ok (hmore : incomplete length d = true)
    (hround : downloadRound env torrent index length d s = (.ok d₁, s₁)) :
    downloadLoop env torrent index length (n + 1) d s
      = downloadLoop env torrent index length n d₁ s₁ := by
  rw [downloadLoop_eq_loop, downloadLoop_eq_loop]
  exact Prog.loop_ok hmore hround

theorem downloadLoop_error {e : Stop DownloaderError} (hmore : incomplete length d = true)
    (hround : downloadRound env torrent index length d s = (.error e, s₁)) :
    downloadLoop env torrent index length (n + 1) d s = (.error e, s₁) := by
  rw [downloadLoop_eq_loop]
  exact Prog.loop_error hmore hround

end

/-- `I` holds of the variables and the object while requests are sent, and
    `E` of the object when sending fails. -/
structure PipelineInvariant (index length : Int) (I : Progress → State W → Prop)
    (E : Stop DownloaderError → State W → Prop) : Prop where
  sent : ∀ d s w, I d s → s.choked = false → room length d = true →
    I { d with blocksRequested := d.blocksRequested + 1 }
      { s with
        world := w
        trace := .sent (.request index (blockOffset d.blocksRequested)
          (blockLength length d.blocksRequested)) :: s.trace }
  sendError : ∀ d s e w, endsConnection e = true → I d s → s.choked = false → room length d = true →
    E (.error e)
      { s with
        world := w
        socket := false
        trace := .sent (.request index (blockOffset d.blocksRequested)
          (blockLength length d.blocksRequested)) :: s.trace }
  sendThrow : ∀ d s x, I d s → s.choked = false → room length d = true →
    (Message.request index (blockOffset d.blocksRequested)
      (blockLength length d.blocksRequested)).encode = .error x → E (.throw x) s

/-- `I` holds of the variables and the object all through the loop of
    `try_download`, and `E` of the object when the loop is left early. -/
structure LoopInvariant (torrent : TorrentFile) (index length : Int)
    (I : Progress → State W → Prop) (E : Stop DownloaderError → State W → Prop) : Prop
    extends PipelineInvariant index length I E where
  recvError : ∀ d s e w, endsConnection e = true → I d s →
    E (.error e) { s with world := w, socket := false }
  handle : ∀ d s m w, I d s → (∃ buf, Message.decode torrent buf = .ok m) →
    (handleMessage d m).wp I E { s with world := w, trace := .received m :: s.trace }

/-- `I` holds at the head of the loop of `try_download`, `J` when the pipeline
    is filled, and `E` of the object when the loop is left early. -/
structure RoundInvariant (env : Env W) (torrent : TorrentFile) (index length : Int)
    (I J : Progress → State W → Prop) (E : Stop DownloaderError → State W → Prop) : Prop where
  fill : ∀ d s, I d s → incomplete length d = true →
    (fillPipeline env index length d).wp J E s
  recvError : ∀ d s e w, endsConnection e = true → J d s →
    E (.error e) { s with world := w, socket := false }
  handle : ∀ d s m w, J d s → (∃ buf, Message.decode torrent buf = .ok m) →
    (handleMessage d m).wp I E { s with world := w, trace := .received m :: s.trace }

section

variable {I J : Progress → State W → Prop} {E : Stop DownloaderError → State W → Prop}

theorem PipelineInvariant.wp_requestBlock (h : PipelineInvariant index length I E)
    (hI : I d s) (hchoked : s.choked = false) (hroom : room length d = true) :
    (requestBlock env index length d).wp
      (fun d' s' => (I d' s' ∧ s'.choked = false) ∧ d'.blocksRequested = d.blocksRequested + 1)
      E s := by
  rw [requestBlock, Prog.wp_bind]
  apply wp_sendMessage
  · intro w
    exact ⟨⟨h.sent d s w hI hchoked hroom, hchoked⟩, rfl⟩
  · intro e w he
    exact h.sendError d s e w he hI hchoked hroom
  · intro x hx
    exact h.sendThrow d s x hI hchoked hroom hx

/-- The inner loop has as many rounds as it needs: each one leaves a block
    less to request. -/
theorem PipelineInvariant.wp_fillPipeline (h : PipelineInvariant index length I E) (hI : I d s) :
    (fillPipeline env index length d).wp I E s := by
  rw [fillPipeline, Prog.wp_bind, Prog.wp_get]
  apply Prog.wp_ite
  · intro _
    exact hI
  · intro hchoked
    show (requestBlocks env index length _ d).wp I E s
    rw [requestBlocks_eq_loop]
    apply Prog.wp_loop_rank (I := fun d s => I d s ∧ s.choked = false)
      (r := fun d _ => (blocksTotal length - d.blocksRequested).toNat)
    · intro d s hs hroom
      refine Prog.wp_mono (h.wp_requestBlock hs.1 hs.2 hroom) ?_ (fun _ _ he => he)
      intro d' s' hd'
      have hlt := lt_total_of_room hroom
      exact ⟨hd'.1, by omega⟩
    · intro d s hs _
      exact hs.1
    · exact Nat.lt_succ_self _
    · exact ⟨hI, by simpa using hchoked⟩

/-- The rule of a round: `J` holds when the pipeline is filled. -/
theorem wp_downloadRound (hfill : (fillPipeline env index length d).wp J E s)
    (hrecv : ∀ d s e w, endsConnection e = true → J d s →
      E (.error e) { s with world := w, socket := false })
    (hhandle : ∀ d s m w, J d s → (∃ buf, Message.decode torrent buf = .ok m) →
      (handleMessage d m).wp I E { s with world := w, trace := .received m :: s.trace }) :
    (downloadRound env torrent index length d).wp I E s := by
  rw [downloadRound, Prog.wp_bind]
  refine Prog.wp_mono hfill ?_ (fun _ _ he => he)
  intro d s hJ
  rw [Prog.wp_bind]
  apply wp_recvMessage
  · intro m w hm
    exact hhandle d s m w hJ hm
  · intro e w he
    exact hrecv d s e w he hJ

/-- With a bound that the loop does not meet: every round lowers a quantity
    of the object below it. -/
theorem RoundInvariant.wp_loop_rank (h : RoundInvariant env torrent index length I J E) {n : Nat}
    {r : State W → Nat} (hround : ∀ d s d' s',
      downloadRound env torrent index length d s = (.ok d', s') → r s' < r s)
    (hn : r s < n) (hI : I d s) :
    (downloadLoop env torrent index length n d).wp
      (fun d s => I d s ∧ blocksTotal length ≤ d.blocksReceived) E s := by
  rw [downloadLoop_eq_loop]
  apply Prog.wp_loop_rank (I := I) (r := fun _ s => r s)
  · intro d s hI hmore
    apply Prog.wp_intro
    · intro d' s' hrun
      exact ⟨Prog.wp_ok (wp_downloadRound (h.fill d s hI hmore) h.recvError h.handle) hrun,
        hround d s d' s' hrun⟩
    · intro e s' hrun
      exact Prog.wp_error (wp_downloadRound (h.fill d s hI hmore) h.recvError h.handle) hrun
  · intro d s hI hdone
    exact ⟨hI, by simpa [incomplete] using hdone⟩
  · exact hn
  · exact hI

theorem LoopInvariant.wp_round (h : LoopInvariant torrent index length I E) (hI : I d s) :
    (downloadRound env torrent index length d).wp I E s :=
  wp_downloadRound (h.wp_fillPipeline hI) h.recvError h.handle

theorem LoopInvariant.wp_loop (h : LoopInvariant torrent index length I E) {n : Nat}
    (hfuel : ∀ d s, I d s → E .outOfFuel s) (hI : I d s) :
    (downloadLoop env torrent index length n d).wp
      (fun d s => I d s ∧ blocksTotal length ≤ d.blocksReceived) E s := by
  rw [downloadLoop_eq_loop]
  apply Prog.wp_loop (I := I)
  · intro d s hI _
    exact h.wp_round hI
  · intro d s hI hdone
    exact ⟨hI, by simpa [incomplete] using hdone⟩
  · exact hfuel
  · exact hI

theorem LoopInvariant.rounds (h : LoopInvariant torrent index length I E) {k : Nat}
    (hrounds : Prog.Rounds (fun d _ => incomplete length d)
      (downloadRound env torrent index length) k d s d' s') (hI : I d s) : I d' s' := by
  refine hrounds.invariant ?_ hI
  intro d s d₁ s₁ hI _ hbody
  exact Prog.wp_ok (h.wp_round hI) hbody

end

/-- Within `n` rounds of the loop from variables `d` and object `s`, the
    `switch` is reached with message `m`, variables `d'` and object `s'`. -/
inductive AtSwitch (env : Env W) (torrent : TorrentFile) (index length : Int) :
    Nat → Progress → State W → Message → Progress → State W → Prop where
  | first {n : Nat} {d d' : Progress} {s s₁ s' : State W} {m : Message}
      (hmore : incomplete length d = true)
      (hfill : fillPipeline env index length d s = (.ok d', s₁))
      (hrecv : recvMessage env torrent s₁ = (.ok m, s')) :
      AtSwitch env torrent index length (n + 1) d s m d' s'
  | later {n : Nat} {d d₁ d' : Progress} {s s₁ s' : State W} {m : Message}
      (hmore : incomplete length d = true)
      (hround : downloadRound env torrent index length d s = (.ok d₁, s₁))
      (h : AtSwitch env torrent index length n d₁ s₁ m d' s') :
      AtSwitch env torrent index length (n + 1) d s m d' s'

/-- At the `switch` the invariant holds but for the newest message. -/
theorem LoopInvariant.atSwitch {I : Progress → State W → Prop}
    {E : Stop DownloaderError → State W → Prop} (h : LoopInvariant torrent index length I E)
    {n : Nat} {m : Message} (hat : AtSwitch env torrent index length n d s m d' s') (hI : I d s) :
    ∃ s₁ w, I d' s₁ ∧ (∃ buf, Message.decode torrent buf = .ok m) ∧
      s' = { s₁ with world := w, trace := .received m :: s₁.trace } := by
  induction hat with
  | first hmore hfill hrecv =>
    obtain ⟨_, w, _, _, _, _, hdecode, hs'⟩ := recvMessage_eq_ok hrecv
    exact ⟨_, w, Prog.wp_ok (h.wp_fillPipeline hI) hfill, ⟨_, hdecode⟩, hs'⟩
  | later hmore hround _ ih => exact ih (Prog.wp_ok (h.wp_round hI) hround)

/-- A round of the loop `while (choked)`. -/
def waitRound (env : Env W) (torrent : TorrentFile) (_ : Unit) : Run W Unit := do
  let message ← recvMessage env torrent
  noteUnchoke message

theorem waitUnchoke_eq_loop (n : Nat) :
    waitUnchoke env torrent n
      = Prog.loop (fun _ s => s.choked) (waitRound env torrent) n () := by
  induction n with
  | zero => rfl
  | succ n ih =>
    rw [Prog.loop, waitUnchoke]
    funext s
    refine Prog.bind_congr rfl fun s₁ s _ => ?_
    by_cases hchoked : s₁.choked = true
    · rw [if_pos hchoked, if_pos hchoked, waitRound, Prog.bind_assoc]
      refine Prog.bind_congr rfl fun m s _ => ?_
      exact Prog.bind_congr rfl fun _ s _ => congrFun ih s
    · rw [if_neg hchoked, if_neg hchoked]

end Furrent.Download
