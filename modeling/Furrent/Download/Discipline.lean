import Furrent.Download.Calls
import Furrent.Download.Connection
import Furrent.Download.Codec
import Furrent.Download.Framing

/-! # When a request may be sent

    A downloader is used for one call after the other and reconnects when
    its socket is gone. The flag `choked`, the bitfield and the socket are
    separate fields that outlive a connection. Shown here: every request
    ever written was written on a connection that had been shaken hands
    with, had announced its pieces, had not choked us, and had the piece.

    The last point rests on the storage of the bitfield. A peer that sends
    fewer bytes than there are pieces makes `get` read behind the storage,
    and a piece nobody announced can be asked for. It is therefore shown
    for connections whose bitfield has a bit for every piece. -/

namespace Furrent.Download

open Cpp

/-! ### The invariant

    Whenever the socket is engaged between two steps, the connection is
    linked: the handshake is done, and the fields of the object agree with
    what was received on this connection. -/

/-- The bitfield agrees with what the peer announced on this connection. -/
structure Tracks (torrent : TorrentFile) (c : List Event) (bf : Bitfield) : Prop where
  first : ∃ bf₀, FirstMessage c (.bitfield bf₀) ∧ bf.storage.length = bf₀.storage.length
  len : bf.len = torrent.piecesCount
  bits : ∀ i, 0 ≤ i → bf.bit i = true → Advertised c i

variable {W : Type} {env : Env W} {torrent : TorrentFile} {s : State W}

structure Linked (torrent : TorrentFile) (s : State W) : Prop where
  handshake : HandshakeDone torrent (thisConnection s.trace)
  bitfield : ∃ bf, s.bitfield = some bf ∧ Tracks torrent (thisConnection s.trace) bf
  unchoked : s.choked = false → Unchoked (thisConnection s.trace)

structure Inv (torrent : TorrentFile) (s : State W) : Prop where
  linked : s.socket = true → Linked torrent s
  guarded : RequestsMeet (Guarded torrent) s.trace

theorem Tracks.cons {c : List Event} {bf : Bitfield} {e : Event} (h : Tracks torrent c bf) :
    Tracks torrent (e :: c) bf := by
  obtain ⟨⟨bf₀, hfirst, hlen⟩, hpieces, hbits⟩ := h
  exact ⟨⟨bf₀, hfirst.cons, hlen⟩, hpieces, fun i h0 hi => (hbits i h0 hi).cons⟩

theorem Linked.world (h : Linked torrent s) (w : W) : Linked torrent { s with world := w } :=
  ⟨h.handshake, h.bitfield, h.unchoked⟩

/-- An event on the connection, unless it is a choke that is not noted. -/
theorem Linked.event (h : Linked torrent s) {e : Event} (he : e ≠ .connected) (w : W)
    (hchoke : s.choked = false → e ≠ .received .choke) :
    Linked torrent { s with world := w, trace := e :: s.trace } := by
  have hconn : thisConnection (e :: s.trace) = e :: thisConnection s.trace :=
    thisConnection_cons he s.trace
  obtain ⟨bf, hbf, htracks⟩ := h.bitfield
  refine ⟨?_, ⟨bf, hbf, ?_⟩, ?_⟩
  · show HandshakeDone torrent (thisConnection (e :: s.trace))
    rw [hconn]
    exact h.handshake.cons
  · show Tracks torrent (thisConnection (e :: s.trace)) bf
    rw [hconn]
    exact htracks.cons
  · intro hchoked
    show Unchoked (thisConnection (e :: s.trace))
    rw [hconn]
    exact (h.unchoked hchoked).cons (hchoke hchoked)

theorem Inv.of_socket_false {t : List Event} {w : W} {choked : Bool} {bf : Option Bitfield}
    (h : RequestsMeet (Guarded torrent) t) :
    Inv torrent (⟨w, false, choked, bf, t⟩ : State W) :=
  ⟨fun hsocket => absurd hsocket (by simp), h⟩

theorem Inv.event (h : Inv torrent s) {e : Event} (he : e ≠ .connected) (w : W)
    (hchoke : s.choked = false → e ≠ .received .choke)
    (hreq : ∀ index begin length, e ≠ .sent (.request index begin length)) :
    Inv torrent { s with world := w, trace := e :: s.trace } :=
  ⟨fun hsocket => (h.linked hsocket).event he w hchoke, h.guarded.cons_of_ne hreq⟩

/-! ### Connecting -/

/-- Right after the bitfield was received. -/
theorem linked_of_bitfield {t : List Event} {response : Bytes} {bf : Bitfield} {w : W}
    {socket : Bool} (hlen : response.length = 68)
    (hhash : responseInfoHash response = torrent.infoHash)
    (hbf : bf.len = torrent.piecesCount) :
    Linked torrent (⟨w, socket, true, some bf,
      .received (.bitfield bf) :: .handshake response :: .connected :: t⟩ : State W) := by
  have hconn : thisConnection
      (.received (.bitfield bf) :: .handshake response :: .connected :: t)
        = [.received (.bitfield bf), .handshake response] := by
    rw [thisConnection_cons (by simp), thisConnection_cons (by simp), thisConnection_connected]
  have hfirst : FirstMessage [.received (.bitfield bf), .handshake response] (.bitfield bf) :=
    ⟨[], [.handshake response], rfl, by simp⟩
  refine ⟨?_, ⟨bf, rfl, ?_⟩, fun hchoked => absurd hchoked (by simp)⟩
  · rw [hconn]
    exact ⟨response, by simp, hlen, hhash⟩
  · rw [hconn]
    exact ⟨⟨bf, hfirst, rfl⟩, hbf, fun i _ hi => Or.inl ⟨bf, hfirst, hi⟩⟩

theorem wp_waitUnchoke_inv {n : Nat} (h : Inv torrent s) (hsocket : s.socket = true) :
    (waitUnchoke env torrent n).wp (fun _ s' => Inv torrent s' ∧ s'.socket = true)
      (fun _ s' => Inv torrent s') s := by
  refine wp_waitUnchoke (I := fun s' => Inv torrent s' ∧ s'.socket = true) ?_ ?_ ?_ ?_
    ⟨h, hsocket⟩
  · intro s m w hs hchoked _
    obtain ⟨hinv, hsocket⟩ := hs
    have hlinked := (hinv.linked hsocket).event (e := .received m) (by simp) w
      (fun hfalse => absurd hfalse (by simp [hchoked]))
    refine ⟨⟨fun _ => ?_, hinv.guarded.cons_of_ne (by simp)⟩, hsocket⟩
    refine ⟨hlinked.handshake, hlinked.bitfield, ?_⟩
    -- The loop is left on an unchoke, the newest event.
    intro hleft
    have hm : m = .unchoke := by simpa using hleft
    rw [hm]
    show Unchoked (thisConnection (.received .unchoke :: s.trace))
    rw [thisConnection_cons (by simp)]
    exact unchoked_cons_unchoke _
  · intro s hs _
    exact hs
  · intro s e w hs _
    exact Inv.of_socket_false hs.1.guarded
  · intro s hs
    exact hs.1

theorem wp_establish {fuel : Nat} (h : Inv torrent s) :
    (establish env torrent fuel).wp (fun _ s' => Inv torrent s' ∧ s'.socket = true)
      (fun _ s' => Inv torrent s') s := by
  -- Every exit destroys the socket, so past it only the trace matters. With
  -- the bitfield in hand the connection is linked, and stays so.
  have hconn := h.guarded.cons_of_ne (e := .connected) (by simp)
  unfold establish
  rw [Prog.wp_bind, Prog.wp_modify, Prog.wp_bind]
  refine wp_useSocket ?_ (fun e w _ => Inv.of_socket_false h.guarded)
  intro _ w
  rw [Prog.wp_bind, wp_record, Prog.wp_bind]
  refine wp_handshake ?_ ?_
  · intro response w hlen hhash
    have hshaken := hconn.cons_of_ne (e := .handshake response) (by simp)
    rw [Prog.wp_bind]
    refine wp_recvMessage ?_ (fun e w _ => Inv.of_socket_false hshaken)
    intro m w hm
    have hreceived := hshaken.cons_of_ne (e := .received m) (by simp)
    cases m with
    | bitfield bf =>
      -- Old bits are gone: the storage is the one just received.
      obtain ⟨buf, hbuf⟩ := hm
      have hlinked : Inv torrent (⟨w, true, true, some bf, .received (.bitfield bf)
          :: .handshake response :: .connected :: s.trace⟩ : State W) :=
        ⟨fun _ => linked_of_bitfield hlen hhash (Message.decode_bitfield hbuf), hreceived⟩
      rw [Prog.wp_bind, Prog.wp_modify, Prog.wp_bind]
      refine wp_sendMessage ?_ ?_ (fun x _ => hlinked)
      · intro w
        have hunchoke := hlinked.event (e := .sent .unchoke) (by simp) w (by simp) (by simp)
        rw [Prog.wp_bind]
        refine wp_sendMessage ?_ ?_ (fun x _ => hunchoke)
        · intro w
          have hinterested := hunchoke.event (e := .sent .interested) (by simp) w (by simp)
            (by simp)
          rw [Prog.wp_bind, Prog.wp_modify]
          exact wp_waitUnchoke_inv hinterested rfl
        · intro e w _
          exact Inv.of_socket_false (hunchoke.guarded.cons_of_ne (by simp))
      · intro e w _
        exact Inv.of_socket_false (hlinked.guarded.cons_of_ne (by simp))
    | _ => exact Inv.of_socket_false hreceived
  · intro e w t _ ht
    rcases ht with rfl | ⟨response, rfl⟩
    · exact Inv.of_socket_false hconn
    · exact Inv.of_socket_false (hconn.cons_of_ne (by simp))

theorem wp_ensureConnected {fuel : Nat} (h : Inv torrent s) :
    (ensureConnected env torrent fuel).wp (fun _ s' => Inv torrent s' ∧ s'.socket = true)
      (fun _ s' => Inv torrent s') s := by
  unfold ensureConnected
  rw [Prog.wp_bind, Prog.wp_get]
  apply Prog.wp_ite
  · intro hsocket
    -- An open socket was left linked by the call before.
    have hw : Inv torrent { s with world := (env.isOpen s.world).2 } :=
      ⟨fun _ => (h.linked hsocket).world _, h.guarded⟩
    rw [Prog.wp_bind, wp_call]
    apply Prog.wp_ite
    · intro _
      exact ⟨hw, hsocket⟩
    · intro _
      exact wp_establish hw
  · intro _
    exact wp_establish h

/-! ### Downloading -/

/-- The invariant of the loop of `try_download`. -/
structure Downloading (torrent : TorrentFile) (index : Int) (s : State W) : Prop where
  inv : Inv torrent s
  socket : s.socket = true
  advertised :
    Covered torrent (thisConnection s.trace) → Advertised (thisConnection s.trace) index

variable {index : Int}

theorem Downloading.linked (h : Downloading torrent index s) : Linked torrent s :=
  h.inv.linked h.socket

/-- An event on the connection keeps the invariant of the loop. -/
theorem Downloading.event (h : Downloading torrent index s) {e : Event} (he : e ≠ .connected)
    (w : W) (hchoke : s.choked = false → e ≠ .received .choke)
    (hreq : ∀ i begin length, e = .sent (.request i begin length) →
      Guarded torrent (thisConnection s.trace) i) :
    Downloading torrent index { s with world := w, trace := e :: s.trace } := by
  refine ⟨⟨fun _ => h.linked.event he w hchoke, h.inv.guarded.cons hreq⟩, h.socket, ?_⟩
  show Covered torrent (thisConnection (e :: s.trace))
    → Advertised (thisConnection (e :: s.trace)) index
  rw [thisConnection_cons he]
  intro hcov
  exact (h.advertised (hcov.mono (List.subset_cons_self _ _))).cons

/-- The piece may be requested when not choked. -/
theorem Downloading.mayRequest (h : Downloading torrent index s) (hchoked : s.choked = false) :
    Guarded torrent (thisConnection s.trace) index := by
  obtain ⟨bf, _, ⟨⟨bf₀, hfirst, _⟩, _, _⟩⟩ := h.linked.bitfield
  exact ⟨⟨h.linked.handshake, ⟨bf₀, hfirst⟩, h.linked.unchoked hchoked⟩, h.advertised⟩

/-- A bit is set only for a have message. -/
theorem Tracks.set {c : List Event} {bf bf' : Bitfield} {i : Int}
    (h : Tracks torrent (.received (.haveMsg i) :: c) bf) (hset : bf.set i true = .ok bf') :
    Tracks torrent (.received (.haveMsg i) :: c) bf' := by
  obtain ⟨hlen, hstorage, _, hbits⟩ := Bitfield.set_eq_ok hset
  obtain ⟨bf₀, hfirst, hsize⟩ := h.first
  refine ⟨⟨bf₀, hfirst, by rw [hstorage, hsize]⟩, by rw [hlen, h.len], ?_⟩
  intro j h0 hj
  rcases hbits j h0 hj with hold | hnew
  · exact h.bits j h0 hold
  · rw [hnew]
    exact Or.inr (by simp)

/-- The message was received in a state of the loop; what is done with it
    leads back to such a state. -/
theorem wp_handleMessage {d : Progress} {m : Message} {w : W} (h : Downloading torrent index s) :
    (handleMessage d m).wp (fun _ s' => Downloading torrent index s')
      (fun _ s' => Inv torrent s') { s with world := w, trace := .received m :: s.trace } := by
  by_cases hchoke : m = .choke
  · -- Between receiving and noting a choke the flag is out of date.
    subst hchoke
    rw [handleMessage, Prog.wp_bind, Prog.wp_modify, Prog.wp_pure]
    have hnoted : Downloading torrent index { s with choked := true } :=
      ⟨⟨fun _ => ⟨h.linked.handshake, h.linked.bitfield, fun hfalse => absurd hfalse (by simp)⟩,
        h.inv.guarded⟩, h.socket, h.advertised⟩
    exact hnoted.event (e := .received .choke) (by simp) w (by simp) (by simp)
  · have hnext := h.event (e := .received m) (by simp) w (fun _ => by simpa using hchoke) (by simp)
    cases m with
    | choke => exact absurd rfl hchoke
    | unchoke =>
      rw [handleMessage, Prog.wp_bind, Prog.wp_modify, Prog.wp_pure]
      refine ⟨⟨fun _ => ⟨hnext.linked.handshake, hnext.linked.bitfield, ?_⟩,
        hnext.inv.guarded⟩, hnext.socket, hnext.advertised⟩
      intro _
      show Unchoked (thisConnection (.received .unchoke :: s.trace))
      rw [thisConnection_cons (by simp)]
      exact unchoked_cons_unchoke _
    | haveMsg i =>
      obtain ⟨bf, hbf, htracks⟩ := hnext.linked.bitfield
      refine wp_handleMessage_haveMsg hbf ?_ (fun _ _ => hnext.inv) (fun _ => hnext.inv)
      intro bf' hset
      have htracks' : Tracks torrent (thisConnection (.received (.haveMsg i) :: s.trace)) bf' := by
        have hconn := thisConnection_cons (e := .received (.haveMsg i)) (by simp) s.trace
        have htracks : Tracks torrent (thisConnection (.received (.haveMsg i) :: s.trace)) bf :=
          htracks
        rw [hconn] at htracks ⊢
        exact htracks.set hset
      exact ⟨⟨fun _ => ⟨hnext.linked.handshake, ⟨bf', rfl, htracks'⟩, hnext.linked.unchoked⟩,
        hnext.inv.guarded⟩, hnext.socket, hnext.advertised⟩
    | piece i begin block =>
      rw [handleMessage]
      apply Prog.wp_ite
      · intro _
        exact hnext
      · intro _
        exact hnext.inv
    | _ => exact hnext

theorem downloading_invariant {length : Int} :
    LoopInvariant torrent index length
      (fun (_ : Progress) (s : State W) => Downloading torrent index s)
      (fun _ s => Inv torrent s) := by
  have hrequest : ∀ (d : Progress) (s : State W) (w : W), Downloading torrent index s →
      s.choked = false →
      Downloading torrent index
        { s with
          world := w
          trace := .sent (.request index (blockOffset d.blocksRequested)
            (blockLength length d.blocksRequested)) :: s.trace } := by
    intro d s w h hchoked
    -- A request is the one event that has something to show.
    apply h.event (by simp) w (by simp)
    intro i begin length heq
    injection heq with heq
    injection heq with hi _ _
    rw [← hi]
    exact h.mayRequest hchoked
  refine ⟨⟨?_, ?_, ?_⟩, ?_, ?_⟩
  · intro d s w h hchoked _
    exact hrequest d s w h hchoked
  · intro d s e w _ h hchoked _
    exact Inv.of_socket_false (hrequest d s w h hchoked).inv.guarded
  · intro d s x h _ _ _
    exact h.inv
  · intro d s e w _ h
    exact Inv.of_socket_false h.inv.guarded
  · intro d s m w h _
    exact wp_handleMessage h

/-- The bitfield says that the peer has the piece, and as long as it has a
    bit for every piece it tells the truth. -/
theorem wp_hasPiece (h : Inv torrent s) (hsocket : s.socket = true) (h0 : 0 ≤ index)
    (hlt : index < torrent.piecesCount) :
    (hasPiece env index).wp (fun has s' => s' = s ∧ (has = true → Downloading torrent index s))
      (fun _ s' => Inv torrent s') s := by
  obtain ⟨bf, hbf, htracks⟩ := (h.linked hsocket).bitfield
  rw [hasPiece, Prog.wp_bind, Prog.wp_get]
  simp only [hbf]
  refine Prog.wp_ofOutcome ?_ (fun _ => h)
  intro has hget
  refine ⟨rfl, fun hhas => ⟨h, hsocket, fun hcov => ?_⟩⟩
  obtain ⟨bf₀, hfirst, hsize⟩ := htracks.first
  -- Only here is the length of the storage needed: inside of it, the bit
  -- that is read is one the peer has set.
  have hspans : bf.Spans := by
    rw [Bitfield.Spans, htracks.len, hsize]
    exact hcov bf₀ hfirst.mem
  rw [Bitfield.get_of_spans hspans _ h0 (by rw [htracks.len]; exact hlt)] at hget
  injection hget with hbit
  exact htracks.bits index h0 (by rw [hbit, hhas])

theorem wp_tryDownload {fuel : Nat} {task : Piece} (h : Inv torrent s) :
    (tryDownload env torrent fuel task).wp (fun _ s' => Inv torrent s')
      (fun _ s' => Inv torrent s') s := by
  apply wp_tryDownload_rule (C := fun s₁ => Inv torrent s₁ ∧ s₁.socket = true)
    (L := fun _ s₂ => Inv torrent s₂)
  · intro _
    exact h
  · exact wp_ensureConnected h
  · intro s₁ e hs₁ _
    exact hs₁.1
  · intro s₁ hs₁ h0 hlt hhas _
    have hdownloading := (Prog.wp_ok (wp_hasPiece hs₁.1 hs₁.2 h0 hlt) hhas).2 rfl
    exact Prog.wp_mono (downloading_invariant.wp_loop (fun _ _ h => h.inv) hdownloading)
      (fun _ _ hs₂ => hs₂.1.inv) (fun _ _ hinv => hinv)
  · intro d s₂ hs₂ _
    exact hs₂
  · intro d s₂ e hs₂ _
    exact hs₂

/-! ### Whole runs -/

/-- What is called on a downloader. -/
inductive Call where
  | ensureConnected
  | tryDownload (task : Piece)
  deriving DecidableEq, Repr

/-- Whether the caller gets the control back. -/
def goesOn {α : Type} : Outcome DownloaderError α → Bool
  | .ok _ => true
  | .error (.error _) => true
  | .error (.throw _) => true
  | .error .trap => false
  | .error .outOfFuel => false

/-- One call: whether it gave the control back, and the object then. -/
def Call.run (env : Env W) (torrent : TorrentFile) (fuel : Nat) (s : State W) :
    Call → Bool × State W
  | .ensureConnected =>
    let r := Download.ensureConnected env torrent fuel s
    (goesOn r.1, r.2)
  | .tryDownload task =>
    let r := Download.tryDownload env torrent fuel task s
    (goesOn r.1, r.2)

/-- A sequence of calls on one object, up to one that does not return. -/
def runCalls (env : Env W) (torrent : TorrentFile) (fuel : Nat) : List Call → State W → State W
  | [], s => s
  | call :: calls, s =>
    let r := call.run env torrent fuel s
    if r.1 then runCalls env torrent fuel calls r.2 else r.2

section

variable {I : State W → Prop} {fuel : Nat}
  (hconnect : ∀ s, I s →
    (ensureConnected env torrent fuel).wp (fun _ s' => I s') (fun _ s' => I s') s)
  (hdownload : ∀ s task, I s →
    (tryDownload env torrent fuel task).wp (fun _ s' => I s') (fun _ s' => I s') s)

include hconnect hdownload

/-- What both calls keep, however they end, is kept by a call. -/
theorem callRun_of_wp (call : Call) (h : I s) : I (call.run env torrent fuel s).2 := by
  cases call with
  | ensureConnected => exact Prog.wp_state (hconnect s h)
  | tryDownload task => exact Prog.wp_state (hdownload s task h)

theorem runCalls_of_wp {calls : List Call} (h : I s) :
    I (runCalls env torrent fuel calls s) := by
  induction calls generalizing s with
  | nil => exact h
  | cons call calls ih =>
    have hcall := callRun_of_wp hconnect hdownload call h
    rw [runCalls]
    split
    · exact ih hcall
    · exact hcall

end

theorem wp_ensureConnected_inv {fuel : Nat} (h : Inv torrent s) :
    (ensureConnected env torrent fuel).wp (fun _ s' => Inv torrent s')
      (fun _ s' => Inv torrent s') s :=
  Prog.wp_mono (wp_ensureConnected h) (fun _ _ hs => hs.1) (fun _ _ hs => hs)

/-- In every run, for every environment: a request is written only on a
    connection that was shaken hands with, sent a bitfield first, and has
    unchoked us. It asks for a piece the peer announced unless the bitfield
    was short. -/
theorem runCalls_requests (env : Env W) (torrent : TorrentFile) (fuel : Nat) (calls : List Call)
    (w : W) :
    RequestsMeet (Guarded torrent) (runCalls env torrent fuel calls { world := w }).trace ∧
      (Covered torrent (runCalls env torrent fuel calls { world := w }).trace →
        RequestsMeet (MayRequest torrent)
          (runCalls env torrent fuel calls { world := w }).trace) := by
  have hstart : Inv torrent ({ world := w } : State W) := Inv.of_socket_false requestsMeet_nil
  have hinv : Inv torrent (runCalls env torrent fuel calls { world := w }) :=
    runCalls_of_wp (fun _ hs => wp_ensureConnected_inv hs) (fun _ _ hs => wp_tryDownload hs) hstart
  refine ⟨hinv.guarded, fun hcov => hinv.guarded.mono ?_⟩
  intro c index hsub hguarded
  exact ⟨hguarded.toReady, hguarded.advertised (hcov.mono hsub)⟩

/-- A torrent with pieces of one byte. -/
def unitPieces (piecesCount : Int) : TorrentFile :=
  { pieceLength := 1, length := piecesCount, piecesCount := piecesCount }

/-- The only piece of a torrent is requested from a peer that has it. -/
theorem runCalls_requests_one_piece :
    .sent (.request 0 0 1)
        ∈ (runCalls listEnv (unitPieces 1) 4 [.tryDownload ⟨0, []⟩]
          { world := announces 128 }).trace ∧
      RequestsMeet (MayRequest (unitPieces 1))
        (runCalls listEnv (unitPieces 1) 4 [.tryDownload ⟨0, []⟩]
          { world := announces 128 }).trace := by
  have htrace : (runCalls listEnv (unitPieces 1) 4 [.tryDownload ⟨0, []⟩]
      { world := announces 128 }).trace
        = [.sent (.request 0 0 1), .received .unchoke, .sent .interested, .sent .unchoke,
          .received (.bitfield ⟨[128], 1⟩), .handshake (List.replicate 68 0), .connected] := by
    decide +kernel
  refine ⟨by rw [htrace]; simp, ?_⟩
  refine (runCalls_requests listEnv (unitPieces 1) 4 [.tryDownload ⟨0, []⟩] (announces 128)).2 ?_
  rw [htrace]
  intro bf hbf
  have hbf : bf = ⟨[128], 1⟩ := by simpa using hbf
  rw [hbf]
  decide

/-- Sixteen pieces, but a bitfield of a single byte without a bit set. The
    byte behind it happens to be `0x80`: the ninth piece is requested, which
    the peer never announced. -/
theorem runCalls_requests_short_bitfield :
    ¬ RequestsMeet (MayRequest (unitPieces 16))
      (runCalls { listEnv with beyond := fun _ _ => some 128 } (unitPieces 16) 4
        [.tryDownload ⟨8, []⟩] { world := announces 0 }).trace := by
  have htrace : (runCalls { listEnv with beyond := fun _ _ => some 128 } (unitPieces 16) 4
      [.tryDownload ⟨8, []⟩] { world := announces 0 }).trace
        = [.sent (.request 8 0 1), .received .unchoke, .sent .interested, .sent .unchoke,
          .received (.bitfield ⟨[0], 16⟩), .handshake (List.replicate 68 0), .connected] := by
    decide +kernel
  rw [htrace]
  intro hmeet
  have hadvertised := (hmeet [] _ 8 0 1 rfl).advertised
  rcases hadvertised with ⟨bf, hfirst, hbit⟩ | hhave
  · have hbf : bf = ⟨[0], 16⟩ := by simpa [thisConnection] using hfirst.mem
    rw [hbf] at hbit
    exact absurd hbit (by decide)
  · exact absurd hhave (by simp [thisConnection])

end Furrent.Download
