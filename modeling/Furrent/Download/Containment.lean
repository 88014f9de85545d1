import Furrent.Download.Points

/-! # Where received blocks go

    The loop of `try_download` copies the block of every `Piece` message
    into the buffer of the piece. Neither the place nor the index in the
    message is looked at: the copy stays inside the buffer, and belongs to
    the piece, just as long as the peer sends nothing else.

    A message reaches the `switch` if and only if it was received in the
    loop, so that conditions on the peer can be put on the trace. -/

namespace Furrent.Download

open Cpp

variable {W : Type}

/-! ### The messages of the loop -/

section

variable (env : Env W) (torrent : TorrentFile)

/-- The loop from variables `d` and object `s` receives message `m` within
    `n` rounds. -/
def LoopReceives (index length : Int) (n : Nat) (d : Progress) (s : State W) (m : Message) :
    Prop :=
  ∃ t, (downloadLoop env torrent index length n d s).2.trace = t ++ s.trace ∧ .received m ∈ t

end

variable {env : Env W} {torrent : TorrentFile} {index length : Int} {d d' : Progress}
  {s s' : State W} {m : Message}

theorem recvMessage_error_trace {e : Stop DownloaderError}
    (h : recvMessage env torrent s = (.error e, s')) : s'.trace = s.trace := by
  have hwp : (recvMessage env torrent).wp (fun _ _ => True) (fun _ s' => s'.trace = s.trace) s :=
    wp_recvMessage (fun _ _ _ => trivial) (fun _ _ _ => rfl)
  exact Prog.wp_error hwp h

/-- What was received since the trace was `t₀` satisfies `P`. -/
def ReceivedSince (P : Message → Prop) (t₀ : List Event) (s : State W) : Prop :=
  ∃ t, s.trace = t ++ t₀ ∧ ∀ m, .received m ∈ t → P m

section

variable {P : Message → Prop} {t₀ : List Event}

theorem receivedSince_self (s : State W) : ReceivedSince P s.trace s :=
  ⟨[], rfl, by simp⟩

theorem ReceivedSince.sent (h : ReceivedSince P t₀ s) {w : W} {socket : Bool} :
    ReceivedSince P t₀ { s with world := w, socket := socket, trace := .sent m :: s.trace } := by
  obtain ⟨t, htrace, hall⟩ := h
  exact ⟨.sent m :: t, by simp [htrace], by simpa using hall⟩

/-- Only the newest message has to be looked at. -/
theorem ReceivedSince.received (h : ReceivedSince P t₀ s)
    (htrace : s'.trace = .received m :: s.trace) : ReceivedSince P t₀ s' ↔ P m := by
  obtain ⟨t, ht, hall⟩ := h
  rw [ht] at htrace
  constructor
  · rintro ⟨t', ht', hall'⟩
    rw [htrace] at ht'
    have heq : .received m :: t = t' := List.append_cancel_right ht'
    exact hall' m (by rw [← heq]; simp)
  · intro hm
    refine ⟨.received m :: t, by simpa using htrace, ?_⟩
    intro m' hmem
    rcases List.mem_cons.mp hmem with heq | hmem
    · injection heq with heq
      rw [heq]
      exact hm
    · exact hall m' hmem

end

/-- Filling the pipeline receives nothing. -/
theorem fillPipeline_nothing (d : Progress) (s : State W) :
    ReceivedSince (fun _ => False) s.trace (fillPipeline env index length d s).2 := by
  have hinv : PipelineInvariant index length
      (fun (_ : Progress) s' => ReceivedSince (fun _ => False) s.trace s')
      (fun _ (s' : State W) => ReceivedSince (fun _ => False) s.trace s') :=
    ⟨fun _ _ _ h _ _ => h.sent, fun _ _ _ _ _ h _ _ => h.sent, fun _ _ _ h _ _ _ => h⟩
  exact Prog.wp_state (hinv.wp_fillPipeline (receivedSince_self s))

/-- A round from variables `d` and object `s` gets to its `switch` with `m`. -/
def RoundReceives (env : Env W) (torrent : TorrentFile) (index length : Int) (d : Progress)
    (s : State W) (m : Message) : Prop :=
  ∃ d' s₁ s', fillPipeline env index length d s = (.ok d', s₁) ∧
    recvMessage env torrent s₁ = (.ok m, s')

/-- Since the trace was `t₀`, the messages of `R` and no others were received. -/
def ReceivedExactly (R : Message → Prop) (t₀ : List Event) (s : State W) : Prop :=
  ∃ t, s.trace = t ++ t₀ ∧ ∀ m, .received m ∈ t ↔ R m

theorem ReceivedExactly.received_iff {R : Message → Prop} {t₀ : List Event}
    (h : ReceivedExactly R t₀ s) : (∃ t, s.trace = t ++ t₀ ∧ .received m ∈ t) ↔ R m := by
  obtain ⟨t, htrace, hreceived⟩ := h
  constructor
  · rintro ⟨t', htrace', hmem⟩
    rw [htrace] at htrace'
    rw [List.append_cancel_right htrace'] at hreceived
    exact (hreceived m).mp hmem
  · intro hm
    exact ⟨t, htrace, (hreceived m).mpr hm⟩

theorem ReceivedExactly.since_iff {P R : Message → Prop} {t₀ : List Event}
    (h : ReceivedExactly R t₀ s) : ReceivedSince P t₀ s ↔ ∀ m, R m → P m := by
  constructor
  · rintro ⟨t, htrace, hall⟩ m hm
    obtain ⟨t', htrace', hmem⟩ := h.received_iff.mpr hm
    rw [htrace] at htrace'
    rw [← List.append_cancel_right htrace'] at hmem
    exact hall m hmem
  · intro hall
    obtain ⟨t, htrace, hreceived⟩ := h
    exact ⟨t, htrace, fun m hmem => hall m ((hreceived m).mp hmem)⟩

/-- What is received in a round is what its `switch` gets. -/
theorem round_receivedExactly (d : Progress) (s : State W) :
    ReceivedExactly (RoundReceives env torrent index length d s) s.trace
      (downloadRound env torrent index length d s).2 := by
  obtain ⟨t, htrace, hnone⟩ :
      ReceivedSince (fun _ => False) s.trace (fillPipeline env index length d s).2 :=
    fillPipeline_nothing d s
  replace hnone : ∀ m, .received m ∉ t := hnone
  unfold RoundReceives
  cases hfill : fillPipeline env index length d s with
  | mk r s₁ =>
    rw [hfill] at htrace
    cases r with
    | error e =>
      rw [downloadRound, Prog.bind_error hfill]
      exact ⟨t, htrace, by simp [hnone]⟩
    | ok d₁ =>
      rw [downloadRound, Prog.bind_ok hfill]
      cases hrecv : recvMessage env torrent s₁ with
      | mk r s₂ =>
        cases r with
        | error e =>
          rw [Prog.bind_error hrecv]
          refine ⟨t, by rw [recvMessage_error_trace hrecv]; exact htrace, ?_⟩
          simp [hnone, hrecv]
        | ok m =>
          obtain ⟨_, _, _, _, _, _, _, rfl⟩ := recvMessage_eq_ok hrecv
          rw [Prog.bind_ok hrecv]
          refine ⟨.received m :: t, ?_, ?_⟩
          · rw [(handleMessage_quiet _ _ _).trace]
            exact congrArg (.received m :: ·) htrace
          · simp [hnone, hrecv, eq_comm]

/-! The `switch` within `n + 1` rounds: in the first round, or after it. -/

theorem not_atSwitch_of_done {n : Nat} (hmore : incomplete length d = false) :
    ¬ AtSwitch env torrent index length n d s m d' s' := by
  intro h
  cases h with
  | first hmore' _ _ => simp [hmore] at hmore'
  | later hmore' _ _ => simp [hmore] at hmore'

theorem atSwitch_of_round_error {n : Nat} {e : Stop DownloaderError} {s₁ : State W}
    (hmore : incomplete length d = true)
    (hround : downloadRound env torrent index length d s = (.error e, s₁)) :
    (∃ d' s', AtSwitch env torrent index length (n + 1) d s m d' s')
      ↔ RoundReceives env torrent index length d s m := by
  constructor
  · rintro ⟨d', s', h⟩
    cases h with
    | first _ hfill hrecv => exact ⟨d', _, s', hfill, hrecv⟩
    | later _ hround' _ => simp [hround] at hround'
  · rintro ⟨d', s₂, s', hfill, hrecv⟩
    exact ⟨d', s', .first hmore hfill hrecv⟩

theorem atSwitch_of_round_ok {n : Nat} {d₁ : Progress} {s₁ : State W}
    (hmore : incomplete length d = true)
    (hround : downloadRound env torrent index length d s = (.ok d₁, s₁)) :
    (∃ d' s', AtSwitch env torrent index length (n + 1) d s m d' s')
      ↔ (∃ d' s', AtSwitch env torrent index length n d₁ s₁ m d' s') ∨
        RoundReceives env torrent index length d s m := by
  constructor
  · rintro ⟨d', s', h⟩
    cases h with
    | first _ hfill hrecv => exact Or.inr ⟨d', _, s', hfill, hrecv⟩
    | later _ hround' h =>
      rw [hround] at hround'
      obtain ⟨hd, rfl⟩ := Prod.mk.inj hround'
      cases hd
      exact Or.inl ⟨d', s', h⟩
  · rintro (⟨d', s', h⟩ | ⟨d', s₂, s', hfill, hrecv⟩)
    · exact ⟨d', s', .later hmore hround h⟩
    · exact ⟨d', s', .first hmore hfill hrecv⟩

/-- What is received in the loop is what the `switch` gets. -/
theorem loop_receivedExactly (n : Nat) (d : Progress) (s : State W) :
    ReceivedExactly (fun m => ∃ d' s', AtSwitch env torrent index length n d s m d' s') s.trace
      (downloadLoop env torrent index length n d s).2 := by
  induction n generalizing d s with
  | zero =>
    refine ⟨[], rfl, ?_⟩
    intro m
    refine iff_of_false (by simp) ?_
    rintro ⟨d', s', h⟩
    cases h
  | succ n ih =>
    cases hmore : incomplete length d with
    | false =>
      rw [downloadLoop_done hmore]
      exact ⟨[], rfl, fun m => by simp [not_atSwitch_of_done hmore]⟩
    | true =>
      obtain ⟨t, htrace, hreceived⟩ :
          ReceivedExactly (RoundReceives env torrent index length d s) s.trace
            (downloadRound env torrent index length d s).2 := round_receivedExactly d s
      cases hround : downloadRound env torrent index length d s with
      | mk r s₁ =>
        rw [hround] at htrace
        cases r with
        | error e =>
          rw [downloadLoop_error hmore hround]
          refine ⟨t, htrace, ?_⟩
          intro m
          rw [hreceived]
          exact (atSwitch_of_round_error hmore hround).symm
        | ok d₁ =>
          rw [downloadLoop_ok hmore hround]
          obtain ⟨t', htrace', hreceived'⟩ := ih d₁ s₁
          refine ⟨t' ++ t, by rw [htrace', htrace, List.append_assoc], ?_⟩
          intro m
          rw [List.mem_append, hreceived, hreceived']
          exact (atSwitch_of_round_ok hmore hround).symm

theorem loopReceives_iff {n : Nat} :
    LoopReceives env torrent index length n d s m
      ↔ ∃ d' s', AtSwitch env torrent index length n d s m d' s' :=
  (loop_receivedExactly n d s).received_iff

/-- In terms of the state the loop leaves. -/
theorem receivedSince_loop_iff {P : Message → Prop} {n : Nat} :
    ReceivedSince P s.trace (downloadLoop env torrent index length n d s).2
      ↔ ∀ m, LoopReceives env torrent index length n d s m → P m := by
  simp only [loopReceives_iff]
  exact (loop_receivedExactly n d s).since_iff

/-! ### The copies -/

/-- The call of `std::copy` the `switch` makes for a message: where in the
    buffer the block goes, and the block. -/
def blockCopy : Message → Option (Int × Bytes)
  | .piece _ begin block => some (begin, block)
  | _ => none

/-- A copy that stays inside the buffer changes the buffer, any other one
    has no meaning. -/
theorem handleMessage_of_copy {begin : Int} {block : Bytes}
    (h : blockCopy m = some (begin, block)) :
    handleMessage d m s =
      if 0 ≤ begin ∧ begin + block.length ≤ d.piece.length then
        (.ok { d with
          piece := overwrite 0 d.piece begin.toNat block
          blocksReceived := d.blocksReceived + 1 }, s)
      else (.error .trap, s) := by
  cases m with
  | piece index begin' block' =>
    obtain ⟨rfl, rfl⟩ : begin' = begin ∧ block' = block := by simpa [blockCopy] using h
    rw [handleMessage]
    split
    · rfl
    · rfl
  | _ => simp [blockCopy] at h

/-- Without a copy the buffer stays as it is. -/
theorem piece_of_no_copy (h : blockCopy m = none) (hrun : handleMessage d m s = (.ok d', s')) :
    d'.piece = d.piece := by
  cases handleMessage_eq_ok hrun with
  | piece _ _ => simp [blockCopy] at h
  | _ => rfl

/-- The buffer keeps its size. -/
theorem buffer_invariant {n : Nat} :
    LoopInvariant torrent index length
      (fun (d : Progress) (_ : State W) => d.piece.length = n) (fun _ _ => True) := by
  refine ⟨⟨fun _ _ _ h _ _ => h, ?_, ?_⟩, ?_, ?_⟩
  · intros
    trivial
  · intros
    trivial
  · intros
    trivial
  · intro d s m w hlength _
    refine Prog.wp_intro ?_ (fun _ _ _ => trivial)
    intro d' s' hrun
    cases hcopy : blockCopy m with
    | none =>
      rw [piece_of_no_copy hcopy hrun]
      exact hlength
    | some copy =>
      obtain ⟨begin, block⟩ := copy
      rw [handleMessage_of_copy hcopy] at hrun
      split at hrun
      · injection hrun with hd _
        injection hd with hd
        rw [← hd]
        show (overwrite 0 d.piece begin.toNat block).length = n
        rw [length_overwrite_of_le 0 (by omega), hlength]
      · injection hrun with hd _
        injection hd

/-- What `try_download` returns is a piece of the length and the hash that
    the torrent says, whatever was received. -/
theorem tryDownload_eq_ok {fuel : Nat} {task : Piece} {piece : Downloaded}
    (h : tryDownload env torrent fuel task s = (.ok piece, s')) :
    piece.index = task.index ∧ piece.content.length = pieceLength torrent task.index ∧
      Verifies env torrent task.index piece.content := by
  refine Prog.wp_ok (Q := fun piece _ => piece.index = task.index ∧
    piece.content.length = pieceLength torrent task.index ∧
    Verifies env torrent task.index piece.content) (E := fun _ _ => True) ?_ h
  apply wp_tryDownload_rule (C := fun _ => True)
    (L := fun d _ => d.piece.length = pieceLength torrent task.index)
  · intro _
    trivial
  · apply Prog.wp_intro
    · intros
      trivial
    · intros
      trivial
  · intros
    trivial
  · intro s₁ _ _ _ _ hpos
    refine Prog.wp_mono (buffer_invariant.wp_loop (n := fuel) (fun _ _ _ => trivial)
      List.length_replicate) ?_ (fun _ _ he => he)
    intro d s₂ hd
    omega
  · intro d s₂ hlength hverifies
    exact ⟨rfl, hlength, hverifies⟩
  · intros
    trivial

section

variable (env : Env W) (torrent : TorrentFile) (fuel : Nat)

/-- A call of `try_download` in state `s` reaches the `switch` with message
    `m`, variables `d` and object `s'`. -/
def Handles (task : Piece) (s : State W) (m : Message) (d : Progress) (s' : State W) : Prop :=
  ∃ s₁, Enters env torrent fuel task s s₁ ∧
    AtSwitch env torrent task.index (pieceLength torrent task.index) fuel
      (startProgress torrent task.index) s₁ m d s'

/-- A call of `try_download` in state `s` receives message `m` in its
    loop. -/
def Receives (task : Piece) (s : State W) (m : Message) : Prop :=
  ∃ s₁, Enters env torrent fuel task s s₁ ∧
    LoopReceives env torrent task.index (pieceLength torrent task.index) fuel
      (startProgress torrent task.index) s₁ m

/-- Every copy stays inside the buffer, which has the length of the piece,
    and no block of another piece is copied. -/
structure CopiesContained (task : Piece) (s : State W) : Prop where
  inside : ∀ m d s' begin block, Handles env torrent fuel task s m d s' →
    blockCopy m = some (begin, block) →
      d.piece.length = pieceLength torrent task.index ∧
        0 ≤ begin ∧ begin + block.length ≤ pieceLength torrent task.index
  own : ∀ index begin block d s',
    Handles env torrent fuel task s (.piece index begin block) d s' → index ≠ task.index →
      blockCopy (.piece index begin block) = none

end

variable {fuel : Nat} {task : Piece}

theorem receives_iff :
    Receives env torrent fuel task s m ↔ ∃ d s', Handles env torrent fuel task s m d s' := by
  constructor
  · rintro ⟨s₁, henters, hreceives⟩
    obtain ⟨d, s', hat⟩ := loopReceives_iff.mp hreceives
    exact ⟨d, s', s₁, henters, hat⟩
  · rintro ⟨d, s', s₁, henters, hat⟩
    exact ⟨s₁, henters, loopReceives_iff.mpr ⟨d, s', hat⟩⟩

/-- At the `switch` the buffer has the length of the piece, and the message
    is one that was decoded. -/
theorem Handles.buffer (h : Handles env torrent fuel task s m d s') :
    d.piece.length = pieceLength torrent task.index ∧
      ∃ buf, Message.decode torrent buf = .ok m := by
  obtain ⟨s₁, henters, hat⟩ := h
  obtain ⟨_, _, hlength, hdecode, _⟩ := buffer_invariant.atSwitch hat
    (List.length_replicate (n := (pieceLength torrent task.index).toNat) (a := 0))
  have hpos := henters.length_pos
  exact ⟨by omega, hdecode⟩

/-- For every torrent, piece and peer: the copies are contained in the piece
    if and only if every block received in the loop is one of the piece and
    lies inside of it. Nothing in the code sees to it. -/
theorem copiesContained_iff (env : Env W) (torrent : TorrentFile) (fuel : Nat) (task : Piece)
    (s : State W) :
    CopiesContained env torrent fuel task s ↔
      ∀ index begin block, Receives env torrent fuel task s (.piece index begin block) →
        index = task.index ∧ begin + block.length ≤ pieceLength torrent task.index := by
  constructor
  · intro h index begin block hreceives
    obtain ⟨d, s', hhandles⟩ := receives_iff.mp hreceives
    refine ⟨?_, (h.inside _ d s' begin block hhandles rfl).2.2⟩
    by_contra hindex
    exact absurd (h.own index begin block d s' hhandles hindex) (by simp [blockCopy])
  · intro h
    constructor
    · intro m d s' begin block hhandles hcopy
      obtain ⟨hlength, buf, hdecode⟩ := hhandles.buffer
      cases m with
      | piece index begin' block' =>
        obtain ⟨rfl, rfl⟩ : begin' = begin ∧ block' = block := by simpa [blockCopy] using hcopy
        exact ⟨hlength, Message.decode_piece_nonneg hdecode,
          (h index begin' block' (receives_iff.mpr ⟨d, s', hhandles⟩)).2⟩
      | _ => simp [blockCopy] at hcopy
    · intro index begin block d s' hhandles hindex
      exact absurd (h index begin block (receives_iff.mpr ⟨d, s', hhandles⟩)).1 hindex

/-- A piece of one byte, and a block of two. -/
def overflowing : Bytes :=
  announces 128 ++ [0, 0, 0, 11, 7, 0, 0, 0, 0, 0, 0, 0, 0, 1, 2]

/-- The second byte is written behind the buffer. -/
theorem copiesContained_overflowing :
    ¬ CopiesContained listEnv (unitPieces 1) 4 ⟨0, []⟩ { world := overflowing } ∧
      (tryDownload listEnv (unitPieces 1) 4 ⟨0, []⟩ { world := overflowing }).1
        = .error .trap := by
  refine ⟨?_, by decide +kernel⟩
  intro h
  have henters : Enters listEnv (unitPieces 1) 4 ⟨0, []⟩ { world := overflowing }
      (ensureConnected listEnv (unitPieces 1) 4 { world := overflowing }).2 :=
    enters_of_eq (by decide) (by decide +kernel) (by decide +kernel) (by decide)
  have hreceives : Receives listEnv (unitPieces 1) 4 ⟨0, []⟩ { world := overflowing }
      (.piece 0 0 [1, 2]) := by
    refine ⟨_, henters, [.received (.piece 0 0 [1, 2]), .sent (.request 0 0 1)], ?_, by simp⟩
    decide +kernel
  obtain ⟨d, s', hhandles⟩ := receives_iff.mp hreceives
  exact absurd (h.inside _ d s' 0 [1, 2] hhandles rfl).2.2 (by decide)

end Furrent.Download
