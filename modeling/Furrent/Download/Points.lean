import Furrent.Download.Discipline

/-! # Points of a run

    A downloader is in one of three situations that matter to the outside:
    between two calls, waiting to be unchoked, or at the head of the loop of
    `try_download`. All three are points of a run; at each of them the
    invariant of the connection holds. -/

namespace Furrent.Download

open Cpp

variable {W : Type}

section

variable (env : Env W) (torrent : TorrentFile) (fuel : Nat)

/-- The states between two calls on one object. -/
inductive Between : State W → Prop where
  | start (w : W) : Between { world := w }
  | call {s : State W} (h : Between s) (call : Call)
      (hreturns : (call.run env torrent fuel s).1 = true) :
      Between (call.run env torrent fuel s).2

/-- `ensure_connected` makes a new connection from state `s`. -/
inductive Reconnects : State W → State W → Prop where
  | unconnected {s : State W} (hsocket : s.socket = false) : Reconnects s s
  | closed {s : State W} (hsocket : s.socket = true) (hclosed : (env.isOpen s.world).1 = false) :
      Reconnects s { s with world := (env.isOpen s.world).2 }

/-- The loop of `try_download` before its first round. -/
def startProgress (index : Int) : Progress :=
  ⟨List.replicate (pieceLength torrent index).toNat 0, 0, 0⟩

/-- A call of `try_download` in state `s` gets to its loop in state `s₁`. -/
structure Enters (task : Piece) (s s₁ : State W) : Prop where
  nonneg : 0 ≤ task.index
  lt_count : task.index < torrent.piecesCount
  connected : ensureConnected env torrent fuel s = (.ok (), s₁)
  has : hasPiece env task.index s₁ = (.ok true, s₁)
  length_pos : 0 < pieceLength torrent task.index

/-- `k` rounds of the loop of `try_download`. -/
abbrev Downloads (index : Int) (k : Nat) (s : State W) (d' : Progress) (s' : State W) : Prop :=
  Prog.Rounds (fun d _ => incomplete (pieceLength torrent index) d)
    (downloadRound env torrent index (pieceLength torrent index)) k (startProgress torrent index) s
    d' s'

/-- The points of a run. -/
inductive Point : State W → Prop where
  | between {s : State W} (h : Between env torrent fuel s) : Point s
  | waiting {s s₀ s₁ s' : State W} {k : Nat} (h : Between env torrent fuel s)
      (hconnects : Reconnects env s s₀) (hgreet : greet env torrent s₀ = (.ok (), s₁))
      (hrounds : Prog.Rounds (fun _ s => s.choked) (waitRound env torrent) k () s₁ () s') :
      Point s'
  | downloading {s s₁ s' : State W} {task : Piece} {k : Nat} {d : Progress}
      (h : Between env torrent fuel s) (henters : Enters env torrent fuel task s s₁)
      (hrounds : Downloads env torrent task.index k s₁ d s') : Point s'

end

variable {env : Env W} {torrent : TorrentFile} {fuel : Nat} {s s' : State W}

theorem Between.connect (h : Between env torrent fuel s)
    (hreturns : goesOn (ensureConnected env torrent fuel s).1 = true) :
    Between env torrent fuel (ensureConnected env torrent fuel s).2 :=
  .call h .ensureConnected hreturns

theorem Between.download (h : Between env torrent fuel s) (task : Piece)
    (hreturns : goesOn (tryDownload env torrent fuel task s).1 = true) :
    Between env torrent fuel (tryDownload env torrent fuel task s).2 :=
  .call h (.tryDownload task) hreturns

theorem enters_of_eq {task : Piece} (hindex : 0 ≤ task.index ∧ task.index < torrent.piecesCount)
    (hconnected : (ensureConnected env torrent fuel s).1 = .ok ())
    (hhas : (hasPiece env task.index (ensureConnected env torrent fuel s).2).1 = .ok true)
    (hlength : 0 < pieceLength torrent task.index) :
    Enters env torrent fuel task s (ensureConnected env torrent fuel s).2 :=
  ⟨hindex.1, hindex.2, Prod.ext hconnected rfl, Prod.ext hhas (hasPiece_state _), hlength⟩

/-- A call that gets to its loop is the loop and what comes after it. -/
theorem Enters.tryDownload_eq {task : Piece} {s₁ : State W}
    (h : Enters env torrent fuel task s s₁) :
    tryDownload env torrent fuel task s
      = (downloadLoop env torrent task.index (pieceLength torrent task.index) fuel
          (startProgress torrent task.index) >>= fun d =>
            finishPiece env torrent task.index d.piece) s₁ := by
  have h0 := h.nonneg
  have hlt := h.lt_count
  have hpos := h.length_pos
  rw [tryDownload, if_neg (by omega), if_neg (by omega), Prog.bind_ok h.connected,
    Prog.bind_ok h.has, if_neg (by simp)]
  simp only [if_neg (show ¬ pieceLength torrent task.index ≤ 0 by omega)]
  rfl

/-! ### The invariant at a point -/

theorem of_goesOn {α : Type} {I : State W → Prop} {p : Run W α}
    (h : p.wp (fun _ s' => I s') (fun e s' => e = .outOfFuel ∨ I s') s)
    (hreturns : goesOn (p s).1 = true) : I (p s).2 := by
  cases hrun : p s with
  | mk r s' =>
    cases r with
    | ok a => exact Prog.wp_ok (Q := fun _ s' => I s') h hrun
    | error e =>
      rcases Prog.wp_error h hrun with rfl | hI
      · rw [hrun] at hreturns
        cases hreturns
      · exact hI

/-- What both calls keep holds between two calls. -/
theorem Between.invariant {I : State W → Prop} (hstart : ∀ w, I { world := w })
    (hconnect : ∀ s, I s → (ensureConnected env torrent fuel).wp (fun _ s' => I s')
      (fun e s' => e = .outOfFuel ∨ I s') s)
    (hdownload : ∀ s task, I s → (tryDownload env torrent fuel task).wp (fun _ s' => I s')
      (fun e s' => e = .outOfFuel ∨ I s') s)
    (h : Between env torrent fuel s) : I s := by
  induction h with
  | start w => exact hstart w
  | @call s h call hreturns ih =>
    cases call with
    | ensureConnected => exact of_goesOn (hconnect s ih) hreturns
    | tryDownload task => exact of_goesOn (hdownload s task ih) hreturns

theorem Between.inv (h : Between env torrent fuel s) : Inv torrent s := by
  apply h.invariant
  · intro w
    exact Inv.of_socket_false requestsMeet_nil
  · intro s hs
    exact Prog.wp_mono (wp_ensureConnected_inv hs) (fun _ _ h => h) (fun _ _ h => Or.inr h)
  · intro s task hs
    exact Prog.wp_mono (wp_tryDownload hs) (fun _ _ h => h) (fun _ _ h => Or.inr h)

/-- The head of the loop of `try_download`: the connection is set up. -/
theorem Enters.downloading {task : Piece} {s₁ : State W} (h : Enters env torrent fuel task s s₁)
    (hinv : Inv torrent s) : Downloading torrent task.index s₁ := by
  obtain ⟨hinv₁, hsocket⟩ := Prog.wp_ok (wp_ensureConnected hinv) h.connected
  exact (Prog.wp_ok (wp_hasPiece hinv₁ hsocket h.nonneg h.lt_count) h.has).2 rfl

end Furrent.Download
