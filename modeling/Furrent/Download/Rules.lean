import Furrent.Download.Downloader
import Furrent.Download.Bitfield

/-! # What each call can do

    One rule for each member function of the downloader: the states in
    which it can return and the states in which it can stop. The rules hold
    for every environment and are all that the proofs about whole runs use
    of these functions. -/

namespace Furrent.Download

open Cpp

variable {W : Type} {env : Env W} {torrent : TorrentFile} {s : State W}
  {E : Stop DownloaderError → State W → Prop}

/-- The errors after which there is no connection any more. -/
def endsConnection : DownloaderError → Bool
  | .missingPiece => false
  | .corruptPiece => false
  | _ => true

theorem endsConnection_fromSocketError (e : SocketError) :
    endsConnection (fromSocketError e) = true := by
  cases e with
  | timeout => rfl
  | other => rfl

theorem wp_call {α : Type} {op : W → α × W} {Q : α → State W → Prop} :
    (call op).wp Q E s ↔ Q (op s.world).1 { s with world := (op s.world).2 } := Iff.rfl

theorem wp_record {e : Event} {Q : Unit → State W → Prop} :
    (record e : Run W Unit).wp Q E s ↔ Q () { s with trace := e :: s.trace } := Iff.rfl

/-- The socket does something, or it is destroyed. -/
theorem wp_useSocket {α : Type} {op : W → Except SocketError α × W} {Q : α → State W → Prop}
    (hok : ∀ a w, Q a { s with world := w })
    (herr : ∀ e w, endsConnection e = true →
      E (.error e) { s with world := w, socket := false }) :
    (useSocket env op).wp Q E s := by
  unfold useSocket
  rw [Prog.wp_bind, wp_call]
  cases (op s.world).1 with
  | ok a => exact hok a _
  | error e => exact herr (fromSocketError e) _ (endsConnection_fromSocketError e)

/-- The same for what the socket does in the state it is in. -/
theorem wp_useSocket_run {α : Type} {op : W → Except SocketError α × W} {Q : α → State W → Prop}
    (hok : ∀ a w, op s.world = (.ok a, w) → Q a { s with world := w })
    (herr : ∀ e w, op s.world = (.error e, w) →
      E (.error (fromSocketError e)) { s with world := env.close w, socket := false }) :
    (useSocket env op).wp Q E s := by
  unfold useSocket
  rw [Prog.wp_bind, wp_call]
  cases hrun : op s.world with
  | mk r w =>
    cases r with
    | ok a => exact hok a w hrun
    | error e => exact herr e w hrun

theorem wp_sendMessage {m : Message} {Q : Unit → State W → Prop}
    (hok : ∀ w, Q () { s with world := w, trace := .sent m :: s.trace })
    (herr : ∀ e w, endsConnection e = true → E (.error e)
      { s with world := w, socket := false, trace := .sent m :: s.trace })
    (hthrow : ∀ x, m.encode = .error x → E (.throw x) s) : (sendMessage env m).wp Q E s := by
  unfold sendMessage
  cases hencode : m.encode with
  | error x => exact hthrow x hencode
  | ok bytes =>
    rw [Prog.wp_bind, wp_record]
    exact wp_useSocket (fun _ w => hok w) herr

/-- A message that is received was decoded. -/
theorem wp_recvMessage {Q : Message → State W → Prop}
    (hok : ∀ m w, (∃ buf, Message.decode torrent buf = .ok m) →
      Q m { s with world := w, trace := .received m :: s.trace })
    (herr : ∀ e w, endsConnection e = true →
      E (.error e) { s with world := w, socket := false }) :
    (recvMessage env torrent).wp Q E s := by
  unfold recvMessage
  rw [Prog.wp_bind]
  refine wp_useSocket ?_ herr
  intro messageLenBytes w
  rw [Prog.wp_bind]
  refine wp_useSocket ?_ (fun e w he => herr e w he)
  intro rest w
  cases hdecode : Message.decode torrent (messageLenBytes.val ++ rest.val) with
  | error e => exact herr .invalidMessage _ rfl
  | ok m => exact hok m w ⟨_, hdecode⟩

/-- The handshake was answered with the info hash, or the socket is
    destroyed. -/
theorem wp_handshake {Q : Unit → State W → Prop}
    (hok : ∀ response w, response.length = 68 → responseInfoHash response = torrent.infoHash →
      Q () { s with world := w, trace := .handshake response :: s.trace })
    (herr : ∀ e w t, endsConnection e = true →
      t = s.trace ∨ (∃ response, t = .handshake response :: s.trace) →
      E (.error e) { s with world := w, socket := false, trace := t }) :
    (handshake env torrent).wp Q E s := by
  unfold handshake
  rw [Prog.wp_bind]
  refine wp_useSocket ?_ (fun e w he => herr e w _ he (Or.inl rfl))
  intro _ w
  rw [Prog.wp_bind]
  refine wp_useSocket ?_ (fun e w he => herr e w _ he (Or.inl rfl))
  intro response w
  rw [Prog.wp_bind, wp_record]
  apply Prog.wp_ite
  · intro _
    exact herr .differentInfoHash _ _ rfl (Or.inr ⟨_, rfl⟩)
  · intro hhash
    exact hok response.val w response.property (not_not.mp hhash).symm

/-- The stops of `try_download` that leave the socket alone. -/
inductive Internal : Stop DownloaderError → Prop where
  | missingPiece : Internal (.error .missingPiece)
  | corruptPiece : Internal (.error .corruptPiece)
  | throw (x : StdException) : Internal (.throw x)
  | trap : Internal .trap
  | outOfFuel : Internal .outOfFuel

theorem wp_ofOutcome_internal {α : Type} {o : Outcome Empty α} {Q : α → State W → Prop}
    (hok : ∀ a, o = .ok a → Q a s)
    (hstop : ∀ e, Internal e → E e s) : (Prog.ofOutcome o : Run W α).wp Q E s := by
  cases o with
  | ok a => exact hok a rfl
  | error e =>
    cases e with
    | error x => exact x.elim
    | throw x => exact hstop _ (.throw x)
    | trap => exact hstop _ .trap
    | outOfFuel => exact hstop _ .outOfFuel

/-- A `Have` message sets a bit, if it is in the bitfield. -/
theorem wp_handleMessage_haveMsg {d : Progress} {i : Int} {bf : Bitfield}
    {Q : Progress → State W → Prop} (hbf : s.bitfield = some bf)
    (hok : ∀ bf', bf.set i true = .ok bf' → Q d { s with bitfield := some bf' })
    (hthrow : ∀ x, bf.set i true = .error (.throw x) → E (.throw x) s)
    (htrap : bf.set i true = .error .trap → E .trap s) :
    (handleMessage d (.haveMsg i)).wp Q E s := by
  rw [handleMessage, Prog.wp_bind, Prog.wp_get]
  simp only [hbf]
  rw [Prog.wp_bind]
  cases hset : bf.set i true with
  | ok bf' => exact hok bf' hset
  | error e =>
    cases e with
    | error x => exact x.elim
    | throw x => exact hthrow x hset
    | trap => exact htrap hset
    | outOfFuel => exact absurd hset Bitfield.set_ne_outOfFuel

/-- Waiting for an unchoke: an invariant that every received message keeps
    holds at the end. -/
theorem wp_waitUnchoke {I : State W → Prop} {Q : Unit → State W → Prop} {n : Nat}
    (hrecv : ∀ s m w, I s → s.choked = true → (∃ buf, Message.decode torrent buf = .ok m) →
      I { s with
        world := w, trace := .received m :: s.trace, choked := decide (m ≠ .unchoke) })
    (hdone : ∀ s, I s → s.choked = false → Q () s)
    (herr : ∀ s e w, I s → endsConnection e = true →
      E (.error e) { s with world := w, socket := false })
    (hfuel : ∀ s, I s → E .outOfFuel s) (hs : I s) :
    (waitUnchoke env torrent n).wp Q E s := by
  induction n generalizing s with
  | zero => exact hfuel s hs
  | succ n ih =>
    rw [waitUnchoke, Prog.wp_bind, Prog.wp_get]
    apply Prog.wp_ite
    · intro hchoked
      rw [Prog.wp_bind]
      refine wp_recvMessage ?_ (fun e w he => herr s e w hs he)
      intro m w hm
      have hnext := hrecv s m w hs hchoked hm
      rw [Prog.wp_bind, noteUnchoke]
      apply Prog.wp_ite
      · intro hunchoke
        rw [Prog.wp_modify]
        apply ih
        rw [decide_eq_false (by simpa using hunchoke)] at hnext
        exact hnext
      · intro hother
        -- The flag was set and stays set.
        rw [Prog.wp_pure]
        apply ih
        rw [decide_eq_true hother, ← hchoked] at hnext
        exact hnext
    · intro hunchoked
      exact hdone s hs (by simpa using hunchoked)

end Furrent.Download
