import Furrent.Download.Points

/-! # Requests of one call

    `try_download` asks for the blocks of the piece one after the other,
    from the first on. Whatever the peer sends, and however a send or a
    receive fails, what it has asked for is the first so many blocks; the
    count it keeps is theirs. At most five of them are not accounted for by
    a block that was received. -/

namespace Furrent.Download

open Cpp Tiling

/-! ### Blocks -/

/-- A block as it is asked for: the piece, the offset and the length. -/
structure Block where
  index : Int
  begin : Int
  length : Int
  deriving DecidableEq, Repr

/-- Block `k` of a piece. -/
def blockOf (index pieceLength : Int) (k : Nat) : Block :=
  ⟨index, 16384 * k, min 16384 (pieceLength - 16384 * k)⟩

/-- The first `n` blocks of a piece. -/
def firstBlocks (index pieceLength : Int) (n : Nat) : List Block :=
  (List.range n).map (blockOf index pieceLength)

/-- All of them: `⌈pieceLength / 16384⌉`. -/
def allBlocks (index pieceLength : Int) : List Block :=
  firstBlocks index pieceLength (blocksTotal pieceLength).toNat

/-- The bytes of a block. -/
def Block.segment (b : Block) : Segment := ⟨b.begin, b.length⟩

/-- The block an event asks for. -/
def Event.block : Event → Option Block
  | .sent (.request index begin length) => some ⟨index, begin, length⟩
  | _ => none

/-- The blocks that were asked for, oldest first. -/
def blocksAsked (t : List Event) : List Block := t.reverse.filterMap Event.block

variable {index length : Int} {n : Nat}

theorem blocksTotal_nonneg (h : 0 < length) : 0 ≤ blocksTotal length := by
  unfold blocksTotal blockSize
  omega

theorem firstBlocks_succ :
    firstBlocks index length (n + 1) = firstBlocks index length n ++ [blockOf index length n] := by
  rw [firstBlocks, List.range_succ, List.map_append]
  rfl

theorem firstBlocks_le_all (h : n ≤ (blocksTotal length).toNat) :
    firstBlocks index length n <+: allBlocks index length := by
  have hrange : List.range n <+: List.range (blocksTotal length).toNat := by
    rw [← Nat.add_sub_cancel' h, List.range_add]
    exact List.prefix_append _ _
  exact hrange.map _

/-- The last block may be shorter, the other ones are not. -/
theorem blockOf_eq {k : Int} (h0 : 0 ≤ k) (hlt : k < blocksTotal length) :
    blockOf index length k.toNat = ⟨index, blockOffset k, blockLength length k⟩ := by
  have hk : (k.toNat : Int) = k := Int.toNat_of_nonneg h0
  unfold blocksTotal blockSize at hlt
  rw [blockOf, hk, Block.mk.injEq]
  refine ⟨rfl, ?_, ?_⟩
  · unfold blockOffset blockSize
    omega
  · unfold blockLength blocksTotal blockSize
    split <;> omega

/-- The first blocks follow each other, and stay in the piece. -/
theorem tiles_firstBlocks (h : (n : Int) ≤ blocksTotal length) (hpos : 1 ≤ length) :
    Tiles 0 ((firstBlocks index length n).map Block.segment) (min (16384 * n) length) := by
  induction n with
  | zero =>
    have hzero : min (16384 * ((0 : Nat) : Int)) length = 0 := by omega
    rw [hzero]
    exact .nil 0
  | succ n ih =>
    have hbefore := ih (by omega)
    unfold blocksTotal blockSize at h
    -- Block `n` starts where the blocks before it end.
    have hstart : min (16384 * (n : Int)) length = 16384 * n := by omega
    have hstop : min (16384 * ((n + 1 : Nat) : Int)) length
        = 16384 * n + min 16384 (length - 16384 * n) := by omega
    have hlast : Tiles (16384 * n) [(blockOf index length n).segment]
        (16384 * n + min 16384 (length - 16384 * n)) :=
      .cons (s := (blockOf index length n).segment)
        (show 0 ≤ min 16384 (length - 16384 * n) by omega) (.nil _)
    rw [firstBlocks_succ, List.map_append, hstop]
    rw [hstart] at hbefore
    exact hbefore.append hlast

theorem of_mem_firstBlocks {b : Block} (h : (n : Int) ≤ blocksTotal length)
    (hb : b ∈ firstBlocks index length n) :
    b.index = index ∧ 1 ≤ b.length ∧ b.length ≤ 16384 := by
  obtain ⟨k, hk, rfl⟩ := List.mem_map.mp hb
  rw [List.mem_range] at hk
  unfold blocksTotal blockSize at h
  refine ⟨rfl, ?_⟩
  show 1 ≤ min 16384 (length - 16384 * k) ∧ min 16384 (length - 16384 * k) ≤ 16384
  omega

/-! ### What has been asked for -/

/-- Since the trace was `t₀`, these blocks were asked for. -/
def Asked (t₀ : List Event) (blocks : List Block) (t : List Event) : Prop :=
  ∃ later, t = later ++ t₀ ∧ blocksAsked later = blocks

variable {t₀ t : List Event} {blocks : List Block} {e : Event}

theorem asked_start (t₀ : List Event) : Asked t₀ [] t₀ := ⟨[], rfl, rfl⟩

theorem Asked.cons (h : Asked t₀ blocks t) (he : e.block = none) : Asked t₀ blocks (e :: t) := by
  obtain ⟨later, rfl, rfl⟩ := h
  refine ⟨e :: later, rfl, ?_⟩
  rw [blocksAsked, List.reverse_cons, List.filterMap_append]
  simp [he, blocksAsked]

theorem Asked.request (h : Asked t₀ blocks t) (index begin length : Int) :
    Asked t₀ (blocks ++ [⟨index, begin, length⟩]) (.sent (.request index begin length) :: t) := by
  obtain ⟨later, rfl, rfl⟩ := h
  refine ⟨.sent (.request index begin length) :: later, rfl, ?_⟩
  rw [blocksAsked, List.reverse_cons, List.filterMap_append]
  rfl

/-! ### Connecting -/

variable {W : Type} {env : Env W} {torrent : TorrentFile} {fuel : Nat} {s s' : State W}

/-- Nothing is asked for before the loop. -/
theorem wp_establish_asked (h : Asked t₀ blocks s.trace) :
    (establish env torrent fuel).wp (fun _ s' => Asked t₀ blocks s'.trace)
      (fun _ s' => Asked t₀ blocks s'.trace) s := by
  have hconn := h.cons (e := .connected) rfl
  unfold establish
  rw [Prog.wp_bind, Prog.wp_modify, Prog.wp_bind]
  refine wp_useSocket ?_ (fun _ _ _ => h)
  intro _ w
  rw [Prog.wp_bind, wp_record, Prog.wp_bind]
  refine wp_handshake ?_ ?_
  · intro response w _ _
    have hshaken := hconn.cons (e := .handshake response) rfl
    rw [Prog.wp_bind]
    refine wp_recvMessage ?_ (fun _ _ _ => hshaken)
    intro m w _
    have hreceived := hshaken.cons (e := .received m) rfl
    cases m with
    | bitfield bf =>
      have hunchoke := hreceived.cons (e := .sent .unchoke) rfl
      have hinterested := hunchoke.cons (e := .sent .interested) rfl
      rw [Prog.wp_bind, Prog.wp_modify, Prog.wp_bind]
      refine wp_sendMessage ?_ (fun _ _ _ => hunchoke) (fun _ _ => hreceived)
      intro w
      rw [Prog.wp_bind]
      refine wp_sendMessage ?_ (fun _ _ _ => hinterested) (fun _ _ => hunchoke)
      intro w
      rw [Prog.wp_bind, Prog.wp_modify]
      apply wp_waitUnchoke (I := fun s => Asked t₀ blocks s.trace)
      · intro s m w hs _ _
        exact hs.cons rfl
      · intro s hs _
        exact hs
      · intro s e w hs _
        exact hs
      · intro s hs
        exact hs
      · exact hinterested
    | _ => exact hreceived
  · intro e w t _ ht
    rcases ht with rfl | ⟨response, rfl⟩
    · exact hconn
    · exact hconn.cons rfl

theorem wp_ensureConnected_asked (h : Asked t₀ blocks s.trace) :
    (ensureConnected env torrent fuel).wp (fun _ s' => Asked t₀ blocks s'.trace)
      (fun _ s' => Asked t₀ blocks s'.trace) s := by
  unfold ensureConnected
  rw [Prog.wp_bind, Prog.wp_get]
  apply Prog.wp_ite
  · intro _
    rw [Prog.wp_bind, wp_call]
    exact Prog.wp_ite (fun _ => h) (fun _ => wp_establish_asked h)
  · intro _
    exact wp_establish_asked h

/-! ### The loop -/

/-- The invariant of the loop that started with the trace `t₀`: the blocks
    that are counted as requested were asked for, and there are at most five
    more of them than blocks received. -/
structure Pipelined (t₀ : List Event) (index length : Int) (d : Progress) (s : State W) : Prop where
  nonneg : 0 ≤ d.blocksRequested
  le_total : d.blocksRequested ≤ blocksTotal length
  window : d.blocksRequested - d.blocksReceived ≤ 5
  asked : Asked t₀ (firstBlocks index length d.blocksRequested.toNat) s.trace

/-- What remains of it when the variables are gone. -/
def AskedFirst (t₀ : List Event) (index length : Int) (s : State W) : Prop :=
  ∃ n, n ≤ (blocksTotal length).toNat ∧ Asked t₀ (firstBlocks index length n) s.trace

variable {d d' : Progress}

theorem Pipelined.askedFirst (h : Pipelined t₀ index length d s) : AskedFirst t₀ index length s :=
  ⟨d.blocksRequested.toNat, Int.toNat_le_toNat h.le_total, h.asked⟩

theorem pipelined_start (hpos : 0 < length) (h : Asked t₀ [] s.trace) (piece : Bytes) :
    Pipelined t₀ index length ⟨piece, 0, 0⟩ s where
  nonneg := le_rfl
  le_total := blocksTotal_nonneg hpos
  window := by
    show (0 : Int) - 0 ≤ 5
    omega
  asked := h

/-- Sending a request. -/
theorem Pipelined.request (h : Pipelined t₀ index length d s) (hroom : room length d = true)
    {s' : State W} (htrace : s'.trace = .sent (.request index (blockOffset d.blocksRequested)
      (blockLength length d.blocksRequested)) :: s.trace) :
    Pipelined t₀ index length { d with blocksRequested := d.blocksRequested + 1 } s' := by
  have hboth : d.blocksRequested - d.blocksReceived < pipelineSizeMax ∧
      d.blocksRequested < blocksTotal length := by simpa [room] using hroom
  obtain ⟨hwindow, hlt⟩ := hboth
  unfold pipelineSizeMax at hwindow
  have h0 := h.nonneg
  have hnext : (d.blocksRequested + 1).toNat = d.blocksRequested.toNat + 1 := by omega
  refine ⟨?_, ?_, ?_, ?_⟩
  · show 0 ≤ d.blocksRequested + 1
    omega
  · show d.blocksRequested + 1 ≤ blocksTotal length
    omega
  · show d.blocksRequested + 1 - d.blocksReceived ≤ 5
    omega
  · show Asked t₀ (firstBlocks index length (d.blocksRequested + 1).toNat) s'.trace
    rw [htrace, hnext, firstBlocks_succ, blockOf_eq h0 hlt]
    exact h.asked.request _ _ _

/-- Handling a message: what was asked for stays the same, and the number of
    received blocks does not get smaller. -/
theorem Pipelined.handled {m : Message} (h : Pipelined t₀ index length d s)
    (hhandled : Handled d s m d' s') : Pipelined t₀ index length d' s' := by
  cases hhandled with
  | choke => exact ⟨h.nonneg, h.le_total, h.window, h.asked⟩
  | unchoke => exact ⟨h.nonneg, h.le_total, h.window, h.asked⟩
  | haveMsg _ _ => exact ⟨h.nonneg, h.le_total, h.window, h.asked⟩
  | piece _ _ =>
    refine ⟨h.nonneg, h.le_total, ?_, h.asked⟩
    have hwindow := h.window
    show d.blocksRequested - (d.blocksReceived + 1) ≤ 5
    omega
  | ignored _ => exact h

theorem pipelined_invariant :
    LoopInvariant torrent index length (Pipelined (W := W) t₀ index length)
      (fun _ s => AskedFirst t₀ index length s) := by
  refine ⟨⟨?_, ?_, ?_⟩, ?_, ?_⟩
  · intro d s w h _ hroom
    exact h.request hroom rfl
  · intro d s e w _ h _ hroom
    exact (h.request hroom rfl).askedFirst
  · intro d s x h _ _ _
    exact h.askedFirst
  · intro d s e w _ h
    exact h.askedFirst
  · intro d s m w h _
    have hreceived : Pipelined t₀ index length d
        { s with world := w, trace := .received m :: s.trace } :=
      ⟨h.nonneg, h.le_total, h.window, h.asked.cons rfl⟩
    apply Prog.wp_intro
    · intro d' s' hrun
      exact hreceived.handled (handleMessage_eq_ok hrun)
    · intro e s' hrun
      have hquiet := handleMessage_quiet d m { s with world := w, trace := .received m :: s.trace }
      rw [hrun] at hquiet
      obtain ⟨n, hn, hasked⟩ := hreceived.askedFirst
      exact ⟨n, hn, by rw [hquiet.trace]; exact hasked⟩

theorem wp_tryDownload_asked {task : Piece} :
    (tryDownload env torrent fuel task).wp
      (fun _ s' => AskedFirst s.trace task.index (pieceLength torrent task.index) s')
      (fun _ s' => AskedFirst s.trace task.index (pieceLength torrent task.index) s') s := by
  have hfirst : ∀ s' : State W, Asked s.trace [] s'.trace →
      AskedFirst s.trace task.index (pieceLength torrent task.index) s' :=
    fun s' h => ⟨0, Nat.zero_le _, h⟩
  apply wp_tryDownload_rule (C := fun s₁ => Asked s.trace [] s₁.trace)
    (L := Pipelined s.trace task.index (pieceLength torrent task.index))
  · intro x
    exact hfirst s (asked_start _)
  · exact Prog.wp_mono (wp_ensureConnected_asked (asked_start _)) (fun _ _ h => h)
      (fun _ s' h => hfirst s' h)
  · intro s₁ e h _
    exact hfirst s₁ h
  · intro s₁ h _ _ _ hpos
    refine Prog.wp_mono (pipelined_invariant.wp_loop (fun _ _ h => h.askedFirst)
      (pipelined_start hpos h _)) (fun _ _ h => h.1) (fun _ _ h => h)
  · intro d s₂ h _
    exact h.askedFirst
  · intro d s₂ e h _
    exact h.askedFirst

/-! ### At every point -/

/-- A call from state `s` is inside of its loop, with variables `d` and state
    `s'`: at the head of the loop, or at the head of the inner loop. Nowhere
    else do the variables change. -/
inductive InLoop (env : Env W) (torrent : TorrentFile) (fuel : Nat) (task : Piece) (s : State W) :
    Progress → State W → Prop where
  | head {s₁ s' : State W} {k : Nat} {d : Progress} (henters : Enters env torrent fuel task s s₁)
      (hrounds : Downloads env torrent task.index k s₁ d s') :
      InLoop env torrent fuel task s d s'
  | inner {s₁ s' : State W} {k : Nat} {d d₁ : Progress} (h : InLoop env torrent fuel task s d₁ s₁)
      (hmore : incomplete (pieceLength torrent task.index) d₁ = true) (hchoked : s₁.choked = false)
      (hrounds : Prog.Rounds (fun d _ => room (pieceLength torrent task.index) d)
        (requestBlock env task.index (pieceLength torrent task.index)) k d₁ s₁ d s') :
      InLoop env torrent fuel task s d s'

theorem InLoop.pipelined {task : Piece} (h : InLoop env torrent fuel task s d s') :
    Pipelined s.trace task.index (pieceLength torrent task.index) d s' := by
  induction h with
  | head henters hrounds =>
    have hconnected := Prog.wp_ok (wp_ensureConnected_asked (asked_start _)) henters.connected
    exact pipelined_invariant.rounds hrounds (pipelined_start henters.length_pos hconnected _)
  | inner _ _ hchoked hrounds ih =>
    have hpipeline : LoopInvariant torrent task.index (pieceLength torrent task.index)
        (Pipelined (W := W) s.trace task.index (pieceLength torrent task.index)) _ :=
      pipelined_invariant
    have hinv := hrounds.invariant
      (I := fun d s' => Pipelined s.trace task.index (pieceLength torrent task.index) d s' ∧
        s'.choked = false)
      (fun d s₂ d₁ s₃ hI hroom hbody =>
        (Prog.wp_ok (hpipeline.wp_requestBlock hI.1 hI.2 hroom) hbody).1)
      ⟨ih, hchoked⟩
    exact hinv.1

/-- For every environment, torrent, task and state in which `try_download`
    is called: what it asks for, in order, is a prefix of the blocks of the
    piece, so that they follow each other and stay in the piece. At every
    point of its loop it has asked for the blocks it counts, not more than
    there are, and at most five more than it has received. -/
theorem tryDownload_requests (env : Env W) (torrent : TorrentFile) (fuel : Nat) (task : Piece)
    (s : State W) :
    (∃ later, (tryDownload env torrent fuel task s).2.trace = later ++ s.trace ∧
      blocksAsked later <+: allBlocks task.index (pieceLength torrent task.index) ∧
      (1 ≤ pieceLength torrent task.index → ∃ stop ≤ pieceLength torrent task.index,
        Tiles 0 ((blocksAsked later).map Block.segment) stop) ∧
      ∀ b ∈ blocksAsked later, b.index = task.index ∧ 1 ≤ b.length ∧ b.length ≤ 16384) ∧
    ∀ d s', InLoop env torrent fuel task s d s' →
      d.blocksRequested - d.blocksReceived ≤ 5 ∧
      d.blocksRequested ≤ blocksTotal (pieceLength torrent task.index) ∧
      ∃ later, s'.trace = later ++ s.trace ∧ blocksAsked later =
        firstBlocks task.index (pieceLength torrent task.index) d.blocksRequested.toNat := by
  constructor
  · obtain ⟨n, hn, later, htrace, hasked⟩ := Prog.wp_state (wp_tryDownload_asked (s := s))
    refine ⟨later, htrace, ?_⟩
    rw [hasked]
    refine ⟨firstBlocks_le_all hn, ?_, ?_⟩
    · intro hpos
      have htotal : 0 ≤ blocksTotal (pieceLength torrent task.index) :=
        blocksTotal_nonneg (by omega)
      exact ⟨_, min_le_right _ _, tiles_firstBlocks (by omega) hpos⟩
    · intro b hb
      have hsome : n ≠ 0 := by
        rintro rfl
        simp [firstBlocks] at hb
      exact of_mem_firstBlocks (by omega) hb
  · intro d s' h
    have hpipelined := h.pipelined
    exact ⟨hpipelined.window, hpipelined.le_total, hpipelined.asked⟩

end Furrent.Download
