import Furrent.Download.Announced
import Furrent.Download.Containment

/-! # The representation of a bitfield

    `get` and `set` check the index against `len`, which comes from the
    torrent, and use it on `storage`, which comes from the peer. They stay
    inside as long as the storage has the bytes that `len` calls for.
    `BitfieldMessage::decode` takes a payload of any size; once the size is
    right it stays right. -/

namespace Furrent.Download

open Cpp

variable {bf bf₀ : Bitfield} {i : Int} {torrent : TorrentFile}

/-- `storage.size()` is `len / 8`, rounded up. -/
def Bitfield.Fits (bf : Bitfield) : Prop := (bf.storage.length : Int) = (bf.len + 7) / 8

/-- What passes the check has its byte in the storage. -/
theorem Bitfield.Fits.byte (h : bf.Fits) (hbounds : assertWithinBounds bf.len i = .ok ()) :
    (i / 8).toNat < bf.storage.length := by
  obtain ⟨h0, hlt⟩ := assertWithinBounds_eq_ok hbounds
  unfold Fits at h
  omega

/-- The first message on the connection was a bitfield with as many bytes
    as the torrent calls for. -/
def FirstFits (torrent : TorrentFile) (c : List Event) : Prop :=
  ∃ bf₀, FirstMessage c (.bitfield bf₀) ∧
    (bf₀.storage.length : Int) = (torrent.piecesCount + 7) / 8

/-- A decoded bitfield fits when the payload had the right size. -/
theorem fits_iff_of_decode {buf : Bytes} (h : Message.decode torrent buf = .ok (.bitfield bf)) :
    bf.len = torrent.piecesCount ∧
      (bf.Fits ↔ (buf.length : Int) = 5 + (torrent.piecesCount + 7) / 8) := by
  obtain ⟨hlen, hbf⟩ := Message.decode_bitfield_eq h
  rw [hbf, Bitfield.Fits]
  refine ⟨rfl, ?_⟩
  show ((buf.drop 5).length : Int) = (torrent.piecesCount + 7) / 8 ↔ _
  rw [List.length_drop]
  omega

/-! ### The object -/

variable {W : Type} {env : Env W} {fuel : Nat} {s s' : State W}

/-- The bitfield has the size of the one received on the connection. -/
structure Sized (torrent : TorrentFile) (s : State W) (bf : Bitfield) : Prop where
  bitfield : s.bitfield = some bf
  len : bf.len = torrent.piecesCount
  first : ∃ bf₀, FirstMessage (thisConnection s.trace) (.bitfield bf₀) ∧
    bf.storage.length = bf₀.storage.length

theorem Heard.sized (h : Heard torrent s) : ∃ bf, Sized torrent s bf := by
  obtain ⟨bf₀, hfirst, hlen⟩ := h.first
  obtain ⟨bf, hbf, hannounced⟩ := h.bitfield
  obtain ⟨bf', hbf', hmarks⟩ := announced_marks hfirst
  have heq : bf' = bf := Option.some.inj (hbf'.symm.trans hannounced)
  rw [heq] at hmarks
  exact ⟨bf, hbf, by rw [hmarks.len, hlen], bf₀, hfirst, hmarks.size⟩

/-- A message that is not handled yet. -/
theorem Sized.received {m : Message} {w : W} (h : Sized torrent s bf) :
    Sized torrent { s with world := w, trace := .received m :: s.trace } bf := by
  obtain ⟨bf₀, hfirst, hsize⟩ := h.first
  refine ⟨h.bitfield, h.len, bf₀, ?_, hsize⟩
  show FirstMessage (thisConnection (.received m :: s.trace)) _
  rw [thisConnection_cons (by simp)]
  exact hfirst.cons

theorem Sized.fits_iff (h : Sized torrent s bf) :
    bf.Fits ↔ FirstFits torrent (thisConnection s.trace) := by
  obtain ⟨bf₀, hfirst, hsize⟩ := h.first
  rw [Bitfield.Fits, h.len, hsize]
  constructor
  · intro hfits
    exact ⟨bf₀, hfirst, hfits⟩
  · intro ⟨bf₁, hfirst₁, hfits⟩
    have heq : bf₀ = bf₁ := Message.bitfield.inj (hfirst.unique hfirst₁)
    rw [heq]
    exact hfits

/-! ### Where the bitfield is used -/

section

variable (env : Env W) (torrent : TorrentFile) (fuel : Nat)

/-- In state `s` the bitfield `bf` is used with index `i`. -/
inductive Accesses : State W → Bitfield → Int → Prop where
  /-- `bitfield->get(task.index)`. -/
  | get {s s₁ : State W} {task : Piece} {bf : Bitfield} (h : Between env torrent fuel s)
      (hindex : 0 ≤ task.index ∧ task.index < torrent.piecesCount)
      (hconnected : ensureConnected env torrent fuel s = (.ok (), s₁))
      (hbf : s₁.bitfield = some bf) : Accesses s₁ bf task.index
  /-- `bitfield->set(have.index)`. -/
  | set {s s' : State W} {task : Piece} {d : Progress} {bf : Bitfield} {i : Int}
      (h : Between env torrent fuel s)
      (hhandles : Handles env torrent fuel task s (.haveMsg i) d s')
      (hbf : s'.bitfield = some bf) : Accesses s' bf i

end

theorem Accesses.sized (h : Accesses env torrent fuel s bf i) : Sized torrent s bf := by
  cases h with
  | get h hindex hconnected hbf =>
    have hannouncing := (Prog.wp_ok h.known.wp_ensureConnected hconnected).1
    obtain ⟨bf', hsized⟩ := hannouncing.sized
    have heq : bf' = bf := Option.some.inj (hsized.bitfield.symm.trans hbf)
    rw [← heq]
    exact hsized
  | set h hhandles hbf =>
    obtain ⟨s₁, henters, hat⟩ := hhandles
    obtain ⟨s₂, w, hannouncing, _, rfl⟩ :=
      announcing_invariant.atSwitch hat (henters.announcing h.known)
    obtain ⟨bf', hsized⟩ := hannouncing.sized
    have heq : bf' = bf := Option.some.inj (hsized.bitfield.symm.trans hbf)
    rw [← heq]
    exact hsized.received

/-- A decoded bitfield has the size its length calls for if and only if its
    payload had. At every point of a run the bitfield of the object does if
    and only if the one received on the connection did; and then every
    access that passes the check has its byte in the storage. -/
theorem bitfield_fits_iff (env : Env W) (torrent : TorrentFile) (fuel : Nat) :
    (∀ buf bf, Message.decode torrent buf = .ok (.bitfield bf) →
      bf.len = torrent.piecesCount ∧
        (bf.Fits ↔ (buf.length : Int) = 5 + (torrent.piecesCount + 7) / 8)) ∧
    (∀ s, Point env torrent fuel s → s.socket = true →
      ∃ bf, s.bitfield = some bf ∧ bf.len = torrent.piecesCount ∧
        (bf.Fits ↔ FirstFits torrent (thisConnection s.trace))) ∧
    (∀ s bf i, Accesses env torrent fuel s bf i → FirstFits torrent (thisConnection s.trace) →
      assertWithinBounds bf.len i = .ok () → (i / 8).toNat < bf.storage.length) := by
  refine ⟨fun buf bf h => fits_iff_of_decode h, ?_, ?_⟩
  · intro s hpoint hsocket
    obtain ⟨bf, hsized⟩ := (hpoint.heard hsocket).sized
    exact ⟨bf, hsized.bitfield, hsized.len, hsized.fits_iff⟩
  · intro s bf i haccess hfirst hbounds
    exact (haccess.sized.fits_iff.mpr hfirst).byte hbounds

/-- Sixteen pieces and a bitfield of one byte: index 8 passes the check and
    has no byte. -/
theorem decode_short_bitfield :
    Message.decode (unitPieces 16) [0, 0, 0, 2, 5, 0] = .ok (.bitfield ⟨[0], 16⟩) ∧
      ¬ (⟨[0], 16⟩ : Bitfield).Fits ∧
      assertWithinBounds 16 8 = .ok () ∧
      (⟨[0], 16⟩ : Bitfield).get (fun _ => none) 8 = .error .trap := by
  unfold Bitfield.Fits
  decide

end Furrent.Download
