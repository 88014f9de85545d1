import Furrent.Download.Calls

/-! # What the calls do to the socket

    The environment sees a downloader as a sequence of operations on a
    socket. A property of the world that every operation keeps while there
    is a socket, and one that is left when it is closed, are kept by every
    call: the calls use a socket only when they have one. -/

namespace Furrent.Download

open Cpp

variable {W : Type} {env : Env W} {torrent : TorrentFile} {fuel : Nat} {s : State W}

/-- `I` holds of the world while there is a socket, `C` when there is
    none. -/
structure SocketRule (env : Env W) (I C : W → Prop) : Prop where
  connect : ∀ w, I w ∨ C w → I (env.connect w).2
  isOpen : ∀ w, I w → I (env.isOpen w).2
  write : ∀ bytes w, I w → I (env.write bytes w).2
  read : ∀ n w, I w → I (env.read n w).2
  close : ∀ w, I w → C (env.close w)

/-- What holds between two calls. -/
structure Settled (I C : W → Prop) (s : State W) : Prop where
  engaged : s.socket = true → I s.world
  empty : s.socket = false → C s.world

/-- What holds while a call uses the socket. Whether there is one does not
    matter if `C` says no more than `I`. -/
structure Using (I C : W → Prop) (s : State W) : Prop where
  world : I s.world
  socket : s.socket = true ∨ ∀ w, I w → C w

/-- Run with a socket, the call has a socket when it returns. -/
def Keeps {α : Type} (I C : W → Prop) (p : Run W α) : Prop :=
  ∀ s, Using I C s → p.wp (fun _ s' => Using I C s') (fun _ s' => Settled I C s') s

section

variable {I C : W → Prop} {α β : Type}

theorem Keeps.bind {p : Run W α} {f : α → Run W β} (hp : Keeps I C p)
    (hf : ∀ a, Keeps I C (f a)) : Keeps I C (p >>= f) := by
  intro s hs
  rw [Prog.wp_bind]
  exact Prog.wp_mono (hp s hs) (fun a s' hs' => hf a s' hs') (fun _ _ he => he)

theorem Keeps.ite {c : Prop} [Decidable c] {p q : Run W α} (hp : Keeps I C p)
    (hq : Keeps I C q) : Keeps I C (if c then p else q) := by
  intro s hs
  exact Prog.wp_ite (fun _ => hp s hs) (fun _ => hq s hs)

theorem Using.settled (h : Using I C s) : Settled I C s := by
  refine ⟨fun _ => h.world, fun hsocket => ?_⟩
  rcases h.socket with hengaged | hC
  · rw [hsocket] at hengaged
    cases hengaged
  · exact hC _ h.world

/-- What touches neither the world nor the socket. -/
theorem keeps_of_world {p : Run W α}
    (hp : ∀ s, (p s).2.world = s.world ∧ (p s).2.socket = s.socket) : Keeps I C p := by
  intro s hs
  have husing : ∀ r s', p s = (r, s') → Using I C s' := by
    intro r s' hrun
    obtain ⟨hworld, hsocket⟩ := hp s
    rw [hrun] at hworld hsocket
    constructor
    · rw [hworld]
      exact hs.world
    · rw [hsocket]
      exact hs.socket
  apply Prog.wp_intro
  · intro a s' hrun
    exact husing _ s' hrun
  · intro e s' hrun
    exact (husing _ s' hrun).settled

variable (h : SocketRule env I C)

include h

theorem SocketRule.destroyed {w : W} (hw : I w) :
    Settled I C { s with world := env.close w, socket := false } := by
  refine ⟨fun hsocket => ?_, fun _ => h.close w hw⟩
  cases hsocket

theorem SocketRule.wp_useSocket {op : W → Except SocketError α × W} (hop : I (op s.world).2)
    (hsocket : s.socket = true ∨ ∀ w, I w → C w) :
    (useSocket env op).wp (fun _ s' => Using I C s') (fun _ s' => Settled I C s') s := by
  rw [useSocket, Prog.wp_bind, wp_call]
  cases (op s.world).1 with
  | ok a => exact ⟨hop, hsocket⟩
  | error e => exact h.destroyed hop

theorem SocketRule.keeps_destroy {e : DownloaderError} :
    Keeps I C (do destroySocket env; fail e : Run W α) := by
  intro s hs
  exact h.destroyed hs.world

theorem SocketRule.keeps_sendMessage (m : Message) : Keeps I C (sendMessage env m) := by
  unfold sendMessage
  split
  · exact keeps_of_world fun _ => ⟨rfl, rfl⟩
  · apply Keeps.bind
    · exact keeps_of_world fun _ => ⟨rfl, rfl⟩
    · intro _ s hs
      exact h.wp_useSocket (h.write _ _ hs.world) hs.socket

theorem SocketRule.keeps_recvMessage : Keeps I C (recvMessage env torrent) := by
  unfold recvMessage
  apply Keeps.bind
  · intro s hs
    exact h.wp_useSocket (h.read 4 _ hs.world) hs.socket
  intro messageLenBytes
  apply Keeps.bind
  · intro s hs
    exact h.wp_useSocket (h.read _ _ hs.world) hs.socket
  intro rest
  split
  · exact h.keeps_destroy
  · exact keeps_of_world fun _ => ⟨rfl, rfl⟩

theorem SocketRule.keeps_handshake : Keeps I C (handshake env torrent) := by
  unfold handshake
  apply Keeps.bind
  · intro s hs
    exact h.wp_useSocket (h.write _ _ hs.world) hs.socket
  intro _
  apply Keeps.bind
  · intro s hs
    exact h.wp_useSocket (h.read 68 _ hs.world) hs.socket
  intro response
  apply Keeps.bind
  · exact keeps_of_world fun _ => ⟨rfl, rfl⟩
  intro _
  exact h.keeps_destroy.ite (keeps_of_world fun _ => ⟨rfl, rfl⟩)

/-! ### Connecting -/

theorem SocketRule.wp_greet (hs : I s.world ∨ C s.world) :
    (greet env torrent).wp (fun _ s' => Using I C s') (fun _ s' => Settled I C s') s := by
  rw [greet, Prog.wp_bind, Prog.wp_modify, Prog.wp_bind]
  refine Prog.wp_mono (h.wp_useSocket (h.connect _ hs) (Or.inl rfl)) ?_ (fun _ _ he => he)
  intro _ s₁ hs₁
  refine Keeps.bind (keeps_of_world fun _ => ⟨rfl, rfl⟩) (fun _ => ?_) s₁ hs₁
  apply h.keeps_handshake.bind
  intro _
  apply h.keeps_recvMessage.bind
  intro m
  cases m with
  | bitfield bf =>
    apply Keeps.bind
    · exact keeps_of_world fun _ => ⟨rfl, rfl⟩
    intro _
    apply (h.keeps_sendMessage _).bind
    intro _
    apply (h.keeps_sendMessage _).bind
    intro _
    exact keeps_of_world fun _ => ⟨rfl, rfl⟩
  | _ => exact h.keeps_destroy

theorem SocketRule.keeps_waitRound : Keeps I C (waitRound env torrent ()) := by
  apply h.keeps_recvMessage.bind
  intro m
  exact Keeps.ite (keeps_of_world fun _ => ⟨rfl, rfl⟩) (keeps_of_world fun _ => ⟨rfl, rfl⟩)

theorem SocketRule.wp_establish (hs : I s.world ∨ C s.world) :
    (establish env torrent fuel).wp (fun _ s' => Using I C s') (fun _ s' => Settled I C s') s := by
  rw [establish_eq, Prog.wp_bind]
  refine Prog.wp_mono (h.wp_greet hs) ?_ (fun _ _ he => he)
  intro _ s₁ hs₁
  rw [waitUnchoke_eq_loop]
  apply Prog.wp_loop (I := fun _ s => Using I C s)
  · intro _ s hs _
    exact h.keeps_waitRound s hs
  · intro _ s hs _
    exact hs
  · intro _ s hs
    exact hs.settled
  · exact hs₁

theorem SocketRule.wp_ensureConnected (hs : Settled I C s) :
    (ensureConnected env torrent fuel).wp (fun _ s' => Using I C s')
      (fun _ s' => Settled I C s') s := by
  rw [ensureConnected, Prog.wp_bind, Prog.wp_get]
  apply Prog.wp_ite
  · intro hsocket
    have hopen := h.isOpen _ (hs.engaged hsocket)
    rw [Prog.wp_bind, wp_call]
    exact Prog.wp_ite (fun _ => ⟨hopen, Or.inl hsocket⟩)
      (fun _ => h.wp_establish (Or.inl hopen))
  · intro hsocket
    exact h.wp_establish (Or.inr (hs.empty (by simpa using hsocket)))

/-! ### Downloading -/

theorem SocketRule.keeps_requestBlocks (index length : Int) (n : Nat) (d : Progress) :
    Keeps I C (requestBlocks env index length n d) := by
  induction n generalizing d with
  | zero => exact keeps_of_world fun _ => ⟨rfl, rfl⟩
  | succ n ih =>
    rw [requestBlocks]
    exact ((h.keeps_sendMessage _).bind fun _ => ih _).ite (keeps_of_world fun _ => ⟨rfl, rfl⟩)

theorem SocketRule.keeps_fillPipeline (index length : Int) (d : Progress) :
    Keeps I C (fillPipeline env index length d) := by
  refine Keeps.bind (keeps_of_world fun _ => ⟨rfl, rfl⟩) (fun s => ?_)
  exact Keeps.ite (keeps_of_world fun _ => ⟨rfl, rfl⟩) (h.keeps_requestBlocks _ _ _ _)

theorem SocketRule.keeps_downloadRound (index length : Int) (d : Progress) :
    Keeps I C (downloadRound env torrent index length d) := by
  apply (h.keeps_fillPipeline _ _ _).bind
  intro d
  apply h.keeps_recvMessage.bind
  intro m
  exact keeps_of_world fun s =>
    ⟨(handleMessage_quiet d m s).world, (handleMessage_quiet d m s).socket⟩

theorem SocketRule.keeps_downloadLoop (index length : Int) (n : Nat) (d : Progress) :
    Keeps I C (downloadLoop env torrent index length n d) := by
  intro s hs
  rw [downloadLoop_eq_loop]
  apply Prog.wp_loop (I := fun _ s => Using I C s)
  · intro d s hs _
    exact h.keeps_downloadRound index length d s hs
  · intro d s hs _
    exact hs
  · intro d s hs
    exact hs.settled
  · exact hs

theorem SocketRule.wp_tryDownload {task : Piece} (hs : Settled I C s) :
    (tryDownload env torrent fuel task).wp (fun _ s' => Using I C s')
      (fun _ s' => Settled I C s') s := by
  apply wp_tryDownload_rule (C := fun s₁ => Using I C s₁) (L := fun _ s₂ => Using I C s₂)
  · intro _
    exact hs
  · exact h.wp_ensureConnected hs
  · intro s₁ e hs₁ _
    exact hs₁.settled
  · intro s₁ hs₁ _ _ _ _
    exact h.keeps_downloadLoop _ _ _ _ s₁ hs₁
  · intro d s₂ hs₂ _
    exact hs₂
  · intro d s₂ e hs₂ _
    exact hs₂.settled

end

end Furrent.Download
