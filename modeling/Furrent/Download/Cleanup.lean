import Furrent.Download.Announced
import Furrent.Download.Containment
import Furrent.Download.Sockets

/-! # What a call leaves behind

    `ensure_connected` skips the whole set-up when it finds an open socket.
    It may, because every early return of the four functions that use the
    socket tears it down: after an error of the connection there is no
    socket, and after anything else the one there is has been set up in
    full. -/

namespace Furrent.Download

open Cpp

variable {W : Type} {env : Env W} {torrent : TorrentFile} {fuel : Nat} {s s' : State W}

/-! ### Sockets that do not exist

    A monitor next to the world sees the operations on the socket. -/

/-- Whether there is a socket, and whether one was used when there was
    none. -/
structure Monitored (W : Type) where
  world : W
  live : Bool
  misused : Bool

/-- An operation on the socket. -/
def Monitored.use {α : Type} (op : W → α × W) (m : Monitored W) : α × Monitored W :=
  ((op m.world).1, ⟨(op m.world).2, m.live, m.misused || !m.live⟩)

/-- `env` under a monitor. A socket is constructed when it is connected;
    `close` is called by `destroy_socket`. -/
def monitor (env : Env W) : Env (Monitored W) where
  connect m := ((env.connect m.world).1, ⟨(env.connect m.world).2, true, m.misused⟩)
  isOpen := Monitored.use env.isOpen
  write bytes := Monitored.use (env.write bytes)
  read n := Monitored.use (env.read n)
  close m := ⟨env.close m.world, false, m.misused || !m.live⟩
  beyond m := env.beyond m.world
  sha1 := env.sha1

/-- There is a socket, and none was misused. -/
def Monitored.Engaged (m : Monitored W) : Prop := m.live = true ∧ m.misused = false

/-- There is no socket, and none was misused. -/
def Monitored.Empty (m : Monitored W) : Prop := m.live = false ∧ m.misused = false

theorem Monitored.Engaged.use {α : Type} {m : Monitored W} (h : m.Engaged) (op : W → α × W) :
    (m.use op).2.Engaged := by
  obtain ⟨hlive, hmisused⟩ := h
  exact ⟨hlive, by simp [Monitored.use, hlive, hmisused]⟩

theorem monitor_socketRule (env : Env W) :
    SocketRule (monitor env) Monitored.Engaged Monitored.Empty where
  connect _ h := ⟨rfl, h.elim And.right And.right⟩
  isOpen _ h := h.use env.isOpen
  write bytes _ h := h.use (env.write bytes)
  read n _ h := h.use (env.read n)
  close m h := by
    obtain ⟨hlive, hmisused⟩ := h
    exact ⟨rfl, by simp [monitor, hlive, hmisused]⟩

theorem runCalls_monitor (env : Env W) (torrent : TorrentFile) (fuel : Nat) (calls : List Call)
    (w : W) :
    Settled Monitored.Engaged Monitored.Empty
      (runCalls (monitor env) torrent fuel calls { world := ⟨w, false, false⟩ }) := by
  have hrule := monitor_socketRule env
  apply runCalls_of_wp
  · intro s hs
    exact Prog.wp_mono (hrule.wp_ensureConnected hs) (fun _ _ h => h.settled) (fun _ _ h => h)
  · intro s task hs
    exact Prog.wp_mono (hrule.wp_tryDownload hs) (fun _ _ h => h.settled) (fun _ _ h => h)
  · exact ⟨fun hsocket => (nomatch hsocket), fun _ => ⟨rfl, rfl⟩⟩

/-! ### Connections that are set up -/

/-- The socket is there, the handshake was answered on it, and the bitfield
    is the one that was received on it, with the bits of the `Have` messages
    since. -/
structure SetUp (torrent : TorrentFile) (s : State W) : Prop where
  socket : s.socket = true
  handshake : HandshakeDone torrent (thisConnection s.trace)
  heard : Heard torrent s

theorem Between.setUp (h : Between env torrent fuel s) (hsocket : s.socket = true) :
    SetUp torrent s :=
  ⟨hsocket, (h.inv.linked hsocket).handshake, (h.known hsocket).toHeard⟩

/-- A reported error ends the connection, or leaves it alone. -/
def SocketFits (e : Stop DownloaderError) (s : State W) : Prop :=
  ∀ x, e = .error x → s.socket = !endsConnection x

theorem Internal.socketFits {e : Stop DownloaderError} (h : Internal e)
    (hsocket : s.socket = true) : SocketFits e s := by
  intro x hx
  cases h with
  | missingPiece =>
    injection hx with hx
    rw [← hx, hsocket]
    rfl
  | corruptPiece =>
    injection hx with hx
    rw [← hx, hsocket]
    rfl
  | _ => cases hx

theorem Closed.socketFits {e : Stop DownloaderError} (h : Closed e s) : SocketFits e s := by
  intro x hx
  obtain ⟨x', hx', hends⟩ := h.error
  rw [hx] at hx'
  injection hx' with hx'
  rw [hx', hends, h.socket]
  rfl

theorem wp_ensureConnected_socket (h : Known torrent s) :
    (ensureConnected env torrent fuel).wp (fun _ s' => s'.socket = true) SocketFits s := by
  apply Prog.wp_intro
  · intro _ s' hrun
    exact (Prog.wp_ok h.wp_ensureConnected hrun).2
  · intro e s' hrun
    rcases Prog.wp_error wp_ensureConnected_closed hrun with rfl | hclosed
    · intro x hx
      cases hx
    · exact hclosed.socketFits

theorem socket_invariant {index length : Int} :
    LoopInvariant torrent index length (fun (_ : Progress) (s : State W) => s.socket = true)
      SocketFits := by
  have hlost : ∀ (e : DownloaderError) (s : State W), endsConnection e = true →
      s.socket = false → SocketFits (.error e) s := by
    intro e s hends hsocket
    exact Closed.socketFits ⟨⟨e, rfl, hends⟩, hsocket⟩
  constructor
  · constructor
    · intro d s w h _ _
      exact h
    · intro d s e w hends _ _ _
      exact hlost e _ hends rfl
    · intro d s x h _ _ _
      exact (Internal.throw x).socketFits h
  · intro d s e w hends _
    exact hlost e _ hends rfl
  · intro d s m w h _
    apply Prog.wp_mono (wp_handleMessage_quiet d m _)
    · intro d' s' hquiet
      exact hquiet.socket.trans h
    · intro e s' hstop
      exact hstop.1.socketFits (hstop.2.socket.trans h)

theorem wp_tryDownload_socket {task : Piece} (h : Known torrent s) :
    (tryDownload env torrent fuel task).wp (fun _ s' => s'.socket = true) SocketFits s := by
  apply wp_tryDownload_rule (C := fun s₁ => s₁.socket = true) (L := fun _ s₂ => s₂.socket = true)
  · intro x y hy
    cases hy
  · exact wp_ensureConnected_socket h
  · intro s₁ e hs₁ he
    exact he.socketFits hs₁
  · intro s₁ hs₁ _ _ _ _
    exact Prog.wp_mono (socket_invariant.wp_loop (fun _ _ hs => Internal.outOfFuel.socketFits hs)
      hs₁) (fun _ _ hs => hs.1) (fun _ _ he => he)
  · intro d s₂ hs₂ _
    exact hs₂
  · intro d s₂ e hs₂ he
    exact he.socketFits hs₂

/-! ### Whole runs -/

/-- What is true of a downloader in state `s` between two calls, and of the
    call that comes next. -/
structure Clean (env : Env W) (torrent : TorrentFile) (fuel : Nat) (s : State W) : Prop where
  /-- A socket that is found has been set up. -/
  found : s.socket = true → SetUp torrent s
  connected : ∀ s', ensureConnected env torrent fuel s = (.ok (), s') → SetUp torrent s'
  notConnected : ∀ e s', ensureConnected env torrent fuel s = (.error (.error e), s') →
    if endsConnection e then s'.socket = false else SetUp torrent s'
  downloaded : ∀ task a s', tryDownload env torrent fuel task s = (.ok a, s') → SetUp torrent s'
  notDownloaded : ∀ task e s', tryDownload env torrent fuel task s = (.error (.error e), s') →
    if endsConnection e then s'.socket = false else SetUp torrent s'
  /-- `bitfield->get(task.index)`. -/
  getBitfield : ∀ s', ensureConnected env torrent fuel s = (.ok (), s') → s'.bitfield ≠ none
  /-- `bitfield->set(have.index)`. -/
  setBitfield : ∀ task i d s', Handles env torrent fuel task s (.haveMsg i) d s' →
    s'.bitfield ≠ none

theorem SocketFits.cases {x : DownloaderError} (h : SocketFits (.error x) s)
    (hbetween : Between env torrent fuel s) :
    if endsConnection x then s.socket = false else SetUp torrent s := by
  have hsocket := h x rfl
  cases hends : endsConnection x with
  | true =>
    rw [if_pos rfl, hsocket, hends]
    rfl
  | false =>
    rw [if_neg (by simp)]
    exact hbetween.setUp (by rw [hsocket, hends]; rfl)

theorem Between.clean (h : Between env torrent fuel s) : Clean env torrent fuel s := by
  have hconnect : ∀ {r s'}, ensureConnected env torrent fuel s = (r, s') → goesOn r = true →
      Between env torrent fuel s' := by
    intro r s' hrun hreturns
    have hs' := h.connect (by rw [hrun]; exact hreturns)
    rw [hrun] at hs'
    exact hs'
  have hdownload : ∀ {task r s'}, tryDownload env torrent fuel task s = (r, s') →
      goesOn r = true → Between env torrent fuel s' := by
    intro task r s' hrun hreturns
    have hs' := h.download task (by rw [hrun]; exact hreturns)
    rw [hrun] at hs'
    exact hs'
  have hknown : Known torrent s := h.known
  constructor
  · exact h.setUp
  · intro s' hrun
    exact (hconnect hrun rfl).setUp
      (Prog.wp_ok (Q := fun _ s' => s'.socket = true) (wp_ensureConnected_socket hknown) hrun)
  · intro e s' hrun
    exact (Prog.wp_error (wp_ensureConnected_socket hknown) hrun).cases (hconnect hrun rfl)
  · intro task a s' hrun
    exact (hdownload hrun rfl).setUp
      (Prog.wp_ok (Q := fun _ s' => s'.socket = true) (wp_tryDownload_socket hknown) hrun)
  · intro task e s' hrun
    exact (Prog.wp_error (wp_tryDownload_socket hknown) hrun).cases (hdownload hrun rfl)
  · intro s' hrun
    obtain ⟨bf, hbf, _⟩ := (Prog.wp_ok hknown.wp_ensureConnected hrun).1.bitfield
    rw [hbf]
    simp
  · intro task i d s' hhandles
    obtain ⟨s₁, henters, hat⟩ := hhandles
    obtain ⟨s₂, w, hannouncing, _, rfl⟩ :=
      announcing_invariant.atSwitch hat (henters.announcing hknown)
    obtain ⟨bf, hbf, _⟩ := hannouncing.bitfield
    simp [hbf]

/-- For every torrent, every environment and every sequence of calls: a
    call that reports an error of the connection leaves no socket, any other
    one that returns leaves a connection that is set up; and neither a
    socket nor a bitfield is used when there is none. -/
theorem every_call_leaves_clean_state (env : Env W) (torrent : TorrentFile) (fuel : Nat) :
    (∀ s, Between env torrent fuel s → Clean env torrent fuel s) ∧
      ∀ calls w, Settled Monitored.Engaged Monitored.Empty
        (runCalls (monitor env) torrent fuel calls { world := ⟨w, false, false⟩ }) :=
  ⟨fun _ h => h.clean, fun calls w => runCalls_monitor env torrent fuel calls w⟩

end Furrent.Download
