import Furrent.Download.Rounds

/-! # The two calls

    `ensure_connected` finds an open socket, or greets the peer and waits;
    every other way out of it destroys the socket. `try_download` connects,
    looks at the bitfield, runs its loop and verifies the piece; what is
    true of a call is put together from what is true of these parts. -/

namespace Furrent.Download

open Cpp

variable {W : Type} {env : Env W} {torrent : TorrentFile} {s s' : State W} {index : Int}

/-! ### Connecting -/

theorem handshake_eq_ok (h : handshake env torrent s = (.ok (), s')) :
    ∃ response w, response.length = 68 ∧ responseInfoHash response = torrent.infoHash ∧
      s' = { s with world := w, trace := .handshake response :: s.trace } := by
  obtain ⟨_, s₁, hwrite, h₁⟩ := Prog.bind_eq_ok h
  obtain ⟨w₁, _, rfl⟩ := useSocket_eq_ok hwrite
  obtain ⟨response, s₂, hread, h₂⟩ := Prog.bind_eq_ok h₁
  obtain ⟨w₂, _, rfl⟩ := useSocket_eq_ok hread
  obtain ⟨_, s₃, hrecord, h₃⟩ := Prog.bind_eq_ok h₂
  obtain ⟨_, rfl⟩ := Prod.mk.inj hrecord
  by_cases hhash : torrent.infoHash ≠ responseInfoHash response.val
  · rw [if_pos hhash] at h₃
    obtain ⟨_, _, _, hfail⟩ := Prog.bind_eq_ok h₃
    cases hfail
  · rw [if_neg hhash] at h₃
    obtain ⟨_, rfl⟩ := Prod.mk.inj h₃
    exact ⟨response.val, w₂, response.property, (not_not.mp hhash).symm, rfl⟩

/-- At the head of the loop `while (choked)` for the first time, on a new
    connection. -/
def greeted (w : W) (t : List Event) (response : Bytes) (bf : Bitfield) : State W where
  world := w
  socket := true
  choked := true
  bitfield := some bf
  trace := .sent .interested :: .sent .unchoke :: .received (.bitfield bf)
    :: .handshake response :: .connected :: t

/-- The handshake was answered as it should be and a bitfield decoded. -/
structure Greeting (torrent : TorrentFile) (response : Bytes) (bf : Bitfield) : Prop where
  length : response.length = 68
  infoHash : responseInfoHash response = torrent.infoHash
  decoded : ∃ buf, Message.decode torrent buf = .ok (.bitfield bf)

/-- Everything `ensure_connected` does before it waits to be unchoked. -/
def greet (env : Env W) (torrent : TorrentFile) : Run W Unit := do
  Prog.modify fun s => { s with socket := true, choked := true }
  useSocket env env.connect
  record .connected
  handshake env torrent
  let message ← recvMessage env torrent
  match message with
  | .bitfield bf => do
    Prog.modify fun s => { s with bitfield := some ⟨bf.storage, bf.len⟩ }
    sendMessage env .unchoke
    sendMessage env .interested
    Prog.modify fun s => { s with choked := true }
  | _ => do
    destroySocket env
    fail .noBitfield

theorem establish_eq (fuel : Nat) :
    establish env torrent fuel = greet env torrent >>= fun _ => waitUnchoke env torrent fuel := by
  funext s
  rw [establish, greet]
  simp only [Prog.bind_assoc]
  -- Up to the first message the two are the same.
  refine Prog.bind_congr rfl fun _ s _ => ?_
  refine Prog.bind_congr rfl fun _ s _ => ?_
  refine Prog.bind_congr rfl fun _ s _ => ?_
  refine Prog.bind_congr rfl fun _ s _ => ?_
  refine Prog.bind_congr rfl fun m s _ => ?_
  cases m with
  | bitfield bf => simp only [Prog.bind_assoc]
  | _ => rfl

theorem greet_eq_ok (h : greet env torrent s = (.ok (), s')) :
    ∃ response bf w, Greeting torrent response bf ∧ s' = greeted w s.trace response bf := by
  obtain ⟨_, s₁, hreset, h₁⟩ := Prog.bind_eq_ok h
  obtain ⟨_, rfl⟩ := Prod.mk.inj hreset
  obtain ⟨_, s₂, hconnect, h₂⟩ := Prog.bind_eq_ok h₁
  obtain ⟨w₁, _, rfl⟩ := useSocket_eq_ok hconnect
  obtain ⟨_, s₃, hrecord, h₃⟩ := Prog.bind_eq_ok h₂
  obtain ⟨_, rfl⟩ := Prod.mk.inj hrecord
  obtain ⟨_, s₄, hshake, h₄⟩ := Prog.bind_eq_ok h₃
  obtain ⟨response, w₂, hlength, hhash, rfl⟩ := handshake_eq_ok hshake
  obtain ⟨m, s₅, hrecv, h₅⟩ := Prog.bind_eq_ok h₄
  obtain ⟨_, w₃, _, _, _, _, hdecode, rfl⟩ := recvMessage_eq_ok hrecv
  cases m with
  | bitfield bf =>
    obtain ⟨_, s₆, hbf, h₆⟩ := Prog.bind_eq_ok h₅
    obtain ⟨_, rfl⟩ := Prod.mk.inj hbf
    obtain ⟨_, s₇, hunchoke, h₇⟩ := Prog.bind_eq_ok h₆
    obtain ⟨w₄, rfl⟩ := sendMessage_eq_ok hunchoke
    obtain ⟨_, s₈, hinterested, h₈⟩ := Prog.bind_eq_ok h₇
    obtain ⟨w₅, rfl⟩ := sendMessage_eq_ok hinterested
    obtain ⟨_, rfl⟩ := Prod.mk.inj h₈
    exact ⟨response, bf, w₅, ⟨hlength, hhash, _, hdecode⟩, rfl⟩
  | _ =>
    obtain ⟨_, _, _, hfail⟩ := Prog.bind_eq_ok h₅
    cases hfail

theorem waitUnchoke_eq_ok {n : Nat} (h : waitUnchoke env torrent n s = (.ok (), s')) :
    ∃ k, Prog.Rounds (fun _ s => s.choked) (waitRound env torrent) k () s () s' ∧
      s'.choked = false := by
  rw [waitUnchoke_eq_loop] at h
  exact Prog.rounds_of_loop h

/-- What a round of waiting does. -/
theorem waitRound_eq_ok (h : waitRound env torrent () s = (.ok (), s')) :
    ∃ m w, (∃ buf, Message.decode torrent buf = .ok m) ∧
      s' = { s with
        world := w
        trace := .received m :: s.trace
        choked := if m = .unchoke then false else s.choked } := by
  obtain ⟨m, s₁, hrecv, hnote⟩ := Prog.bind_eq_ok h
  obtain ⟨_, w, _, _, _, _, hdecode, rfl⟩ := recvMessage_eq_ok hrecv
  rw [noteUnchoke_eq_ok hnote]
  exact ⟨m, w, ⟨_, hdecode⟩, rfl⟩

/-- `ensure_connected` has found an open socket, or it has made a connection
    and waited. -/
theorem ensureConnected_eq_ok {fuel : Nat}
    (h : ensureConnected env torrent fuel s = (.ok (), s')) :
    (s.socket = true ∧ ∃ w, s' = { s with world := w }) ∨
      ∃ response bf w k, Greeting torrent response bf ∧
        Prog.Rounds (fun _ s => s.choked) (waitRound env torrent) k ()
          (greeted w s.trace response bf) () s' ∧ s'.choked = false := by
  have hestablish : ∀ s₁ : State W, s₁.trace = s.trace →
      establish env torrent fuel s₁ = (.ok (), s') →
      ∃ response bf w k, Greeting torrent response bf ∧
        Prog.Rounds (fun _ s => s.choked) (waitRound env torrent) k ()
          (greeted w s.trace response bf) () s' ∧ s'.choked = false := by
    intro s₁ htrace h
    rw [establish_eq] at h
    obtain ⟨_, s₂, hgreet, hwait⟩ := Prog.bind_eq_ok h
    obtain ⟨response, bf, w, hgreeting, rfl⟩ := greet_eq_ok hgreet
    obtain ⟨k, hrounds, hchoked⟩ := waitUnchoke_eq_ok hwait
    rw [htrace] at hrounds
    exact ⟨response, bf, w, k, hgreeting, hrounds, hchoked⟩
  have hget : (Prog.get : Run W (State W)) s = (.ok s, s) := rfl
  rw [ensureConnected, Prog.bind_ok hget] at h
  by_cases hsocket : s.socket = true
  · rw [if_pos hsocket] at h
    obtain ⟨isOpen, s₁, hcall, h₁⟩ := Prog.bind_eq_ok h
    obtain ⟨_, rfl⟩ := Prod.mk.inj hcall
    by_cases hopen : isOpen = true
    · rw [if_pos hopen] at h₁
      obtain ⟨_, rfl⟩ := Prod.mk.inj h₁
      exact Or.inl ⟨hsocket, _, rfl⟩
    · rw [if_neg hopen] at h₁
      exact Or.inr (hestablish { s with world := (env.isOpen s.world).2 } rfl h₁)
  · rw [if_neg hsocket] at h
    exact Or.inr (hestablish s rfl h)

/-! ### What a call can stop with -/

/-- The call reports an error. -/
def Reported (e : Stop DownloaderError) : Prop := ∃ x, e = .error x

/-- The call reports an error of the connection and has destroyed the
    socket. -/
structure Closed (e : Stop DownloaderError) (s : State W) : Prop where
  error : ∃ x, e = .error x ∧ endsConnection x = true
  socket : s.socket = false

theorem Closed.reported {e : Stop DownloaderError} (h : Closed e s) : Reported e := by
  obtain ⟨x, he, _⟩ := h.error
  exact ⟨x, he⟩

theorem wp_waitRound_closed :
    (waitRound env torrent ()).wp (fun _ _ => True)
      Closed s := by
  rw [waitRound, Prog.wp_bind]
  refine wp_recvMessage ?_ (fun x _ hx => ⟨⟨x, rfl, hx⟩, rfl⟩)
  intro m w _
  rw [noteUnchoke]
  exact Prog.wp_ite (fun _ => trivial) (fun _ => trivial)

/-- Every way out of `ensure_connected` destroys the socket. -/
theorem wp_greet_closed :
    (greet env torrent).wp (fun _ _ => True) Closed s := by
  rw [greet, Prog.wp_bind, Prog.wp_modify, Prog.wp_bind]
  refine wp_useSocket ?_ (fun x _ hx => ⟨⟨x, rfl, hx⟩, rfl⟩)
  intro _ w
  rw [Prog.wp_bind, wp_record, Prog.wp_bind]
  refine wp_handshake ?_ (fun x _ _ hx _ => ⟨⟨x, rfl, hx⟩, rfl⟩)
  intro response w _ _
  rw [Prog.wp_bind]
  refine wp_recvMessage ?_ (fun x _ hx => ⟨⟨x, rfl, hx⟩, rfl⟩)
  intro m w _
  cases m with
  | bitfield bf =>
    rw [Prog.wp_bind, Prog.wp_modify, Prog.wp_bind]
    -- Both messages are of a fixed length, and always encoded.
    refine wp_sendMessage ?_ (fun x _ hx => ⟨⟨x, rfl, hx⟩, rfl⟩) (fun x hx => nomatch hx)
    intro w
    rw [Prog.wp_bind]
    exact wp_sendMessage (fun _ => trivial) (fun x _ hx => ⟨⟨x, rfl, hx⟩, rfl⟩)
      (fun x hx => nomatch hx)
  | _ => exact ⟨⟨.noBitfield, rfl, rfl⟩, rfl⟩

theorem wp_establish_closed {fuel : Nat} :
    (establish env torrent fuel).wp (fun _ _ => True)
      (fun e s' => e = .outOfFuel ∨ Closed e s') s := by
  rw [establish_eq, Prog.wp_bind]
  refine Prog.wp_mono wp_greet_closed ?_ (fun _ _ he => Or.inr he)
  intro _ s₁ _
  rw [waitUnchoke_eq_loop]
  apply Prog.wp_loop (I := fun _ _ => True)
  · intro _ s₂ _ _
    exact Prog.wp_mono wp_waitRound_closed (fun _ _ h => h) (fun _ _ he => Or.inr he)
  · intros
    trivial
  · intros
    exact Or.inl rfl
  · trivial

theorem wp_ensureConnected_closed {fuel : Nat} :
    (ensureConnected env torrent fuel).wp (fun _ _ => True)
      (fun e s' => e = .outOfFuel ∨ Closed e s') s := by
  rw [ensureConnected, Prog.wp_bind, Prog.wp_get]
  apply Prog.wp_ite
  · intro _
    rw [Prog.wp_bind, wp_call]
    exact Prog.wp_ite (fun _ => trivial) (fun _ => wp_establish_closed)
  · intro _
    exact wp_establish_closed

/-! ### The whole of `try_download` -/

theorem hasPiece_state (s : State W) : (hasPiece env index s).2 = s := by
  have hget : (Prog.get : Run W (State W)) s = (.ok s, s) := rfl
  rw [hasPiece, Prog.bind_ok hget]
  cases s.bitfield with
  | none => rfl
  | some bf => exact Prog.ofOutcome_state _ s

theorem wp_hasPiece_internal {Q : Bool → State W → Prop}
    {E : Stop DownloaderError → State W → Prop}
    (hok : ∀ has, hasPiece env index s = (.ok has, s) → Q has s)
    (hstop : ∀ e, Internal e → E e s) : (hasPiece env index).wp Q E s := by
  rw [hasPiece, Prog.wp_bind, Prog.wp_get]
  cases hbf : s.bitfield with
  | none => exact hstop _ .trap
  | some bf =>
    apply wp_ofOutcome_internal
    · intro has hget
      apply hok
      have hs : (Prog.get : Run W (State W)) s = (.ok s, s) := rfl
      rw [hasPiece, Prog.bind_ok hs]
      simp only [hbf, hget]
      rfl
    · exact hstop

/-- `verify_piece` computes the hash of a piece below `2 ^ 29` bytes. -/
theorem verifyPiece_eq_ok_iff {piece hash : Bytes} {verified : Bool} :
    verifyPiece env piece hash = .ok verified ↔
      piece.length < 2 ^ 29 ∧ verified = decide (env.sha1 piece = hash) := by
  have hmax : Torrent.INT_MAX = 2147483647 := rfl
  unfold verifyPiece
  by_cases hlarge : Torrent.INT_MAX < piece.length
  · rw [if_pos hlarge]
    refine iff_of_false (by simp) ?_
    rintro ⟨hlt, _⟩
    omega
  · rw [if_neg hlarge, bind_eq_ok]
    constructor
    · rintro ⟨buffer, hcalc, h⟩
      obtain ⟨hlt, rfl⟩ := Torrent.calcSha1_eq_ok_iff.mp hcalc
      injection h with h
      exact ⟨hlt, h.symm⟩
    · rintro ⟨hlt, rfl⟩
      exact ⟨_, Torrent.calcSha1_eq_ok_iff.mpr ⟨hlt, rfl⟩, rfl⟩

/-- The piece has the hash the torrent says. -/
def Verifies (env : Env W) (torrent : TorrentFile) (index : Int) (piece : Bytes) : Prop :=
  ∃ hash, torrent.pieceHashes[index.toNat]? = some hash ∧ env.sha1 piece = hash

theorem wp_finishPiece_internal {piece : Bytes} {Q : Downloaded → State W → Prop}
    {E : Stop DownloaderError → State W → Prop}
    (hok : Verifies env torrent index piece → Q ⟨index, piece⟩ s)
    (hstop : ∀ e, Internal e → E e s) : (finishPiece env torrent index piece).wp Q E s := by
  unfold finishPiece
  split
  · exact hstop _ .trap
  · next hash hhash =>
    rw [Prog.wp_bind]
    refine wp_ofOutcome_internal ?_ hstop
    intro verified hverify
    apply Prog.wp_ite
    · intro htrue
      rw [htrue] at hverify
      obtain ⟨_, hsha1⟩ := verifyPiece_eq_ok_iff.mp hverify
      exact hok ⟨hash, hhash, of_decide_eq_true hsha1.symm⟩
    · intro _
      exact hstop _ .corruptPiece

/-- The rule of `try_download`: `C` holds when connected, `L` after the
    loop. -/
theorem wp_tryDownload_rule {fuel : Nat} {task : Piece} {C : State W → Prop}
    {L : Progress → State W → Prop} {Q : Downloaded → State W → Prop}
    {E : Stop DownloaderError → State W → Prop} (hthrow : ∀ x, E (.throw x) s)
    (hconnect : (ensureConnected env torrent fuel).wp (fun _ s₁ => C s₁) E s)
    (hC : ∀ s₁ e, C s₁ → Internal e → E e s₁)
    (hloop : ∀ s₁, C s₁ → 0 ≤ task.index → task.index < torrent.piecesCount →
      hasPiece env task.index s₁ = (.ok true, s₁) → 0 < pieceLength torrent task.index →
      (downloadLoop env torrent task.index (pieceLength torrent task.index) fuel
        ⟨List.replicate (pieceLength torrent task.index).toNat 0, 0, 0⟩).wp L E s₁)
    (hok : ∀ d s₂, L d s₂ → Verifies env torrent task.index d.piece →
      Q ⟨task.index, d.piece⟩ s₂)
    (hL : ∀ d s₂ e, L d s₂ → Internal e → E e s₂) :
    (tryDownload env torrent fuel task).wp Q E s := by
  unfold tryDownload
  apply Prog.wp_ite
  · intro _
    exact hthrow _
  · intro _
    apply Prog.wp_ite
    · intro _
      exact hthrow _
    · intro hindex
      rw [Prog.wp_bind]
      refine Prog.wp_mono hconnect ?_ (fun _ _ he => he)
      intro _ s₁ hs₁
      rw [Prog.wp_bind]
      apply wp_hasPiece_internal
      · intro has hhas
        apply Prog.wp_ite
        · intro _
          exact hC s₁ _ hs₁ .missingPiece
        · intro htrue
          rw [Bool.not_eq_false] at htrue
          subst htrue
          apply Prog.wp_ite
          · intro _
            exact hC s₁ _ hs₁ (.throw _)
          · intro hpos
            rw [Prog.wp_bind]
            refine Prog.wp_mono (hloop s₁ hs₁ (by omega) (by omega) hhas (by omega)) ?_
              (fun _ _ he => he)
            intro d s₂ hd
            exact wp_finishPiece_internal (hok d s₂ hd) fun e he => hL d s₂ e hd he
      · intro e he
        exact hC s₁ e hs₁ he

end Furrent.Download
