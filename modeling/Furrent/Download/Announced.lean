import Furrent.Download.Points

/-! # What the bitfield knows

    The bitfield of the object is a function of what was received on the
    connection: the peer's `Bitfield` message, and a bit for each `Have`
    that arrived after the first `Unchoke`. The loop that waits for the
    `Unchoke` drops the `Have` messages it reads. So a piece is known if
    and only if the peer announced it and not only while we waited. -/

namespace Furrent.Download

open Cpp

/-! ### The bitfield of a connection -/

/-- `set(index)` where it returns. -/
def Bitfield.mark (bf : Bitfield) (i : Int) : Bitfield :=
  match bf.set i true with
  | .ok bf' => bf'
  | .error _ => bf

/-- The bitfield after the events of a connection, newest first. -/
def announced : List Event → Option Bitfield
  | [] => none
  | .received (.bitfield bf) :: c => some ((announced c).getD bf)
  | .received (.haveMsg i) :: c =>
    if .received .unchoke ∈ c then (announced c).map (·.mark i) else announced c
  | _ :: c => announced c

/-- A `Have` arrived when the first `Unchoke` had been received. -/
def HaveAfter (c : List Event) (i : Int) : Prop :=
  ∃ later earlier, c = later ++ .received (.haveMsg i) :: earlier ∧ .received .unchoke ∈ earlier

/-- A `Have` arrived while we waited for the first `Unchoke`. -/
def HaveWaiting (c : List Event) (i : Int) : Prop :=
  ∃ later earlier, c = later ++ .received (.haveMsg i) :: earlier ∧ .received .unchoke ∉ earlier

variable {c : List Event} {e : Event} {bf bf₀ bf' : Bitfield} {i j : Int} {m : Message}

/-- Events other than these two messages change nothing. -/
theorem announced_cons (hbitfield : ∀ bf, e ≠ .received (.bitfield bf))
    (hhave : ∀ i, e ≠ .received (.haveMsg i)) : announced (e :: c) = announced c := by
  cases e with
  | received m =>
    cases m with
    | bitfield bf => exact absurd rfl (hbitfield bf)
    | haveMsg i => exact absurd rfl (hhave i)
    | _ => rfl
  | _ => rfl

theorem haveAfter_cons :
    HaveAfter (e :: c) i ↔
      (e = .received (.haveMsg i) ∧ .received .unchoke ∈ c) ∨ HaveAfter c i := by
  constructor
  · intro ⟨later, earlier, heq, hmem⟩
    cases later with
    | nil =>
      injection heq with he hc
      rw [hc]
      exact Or.inl ⟨he, hmem⟩
    | cons _ later =>
      injection heq with _ hc
      exact Or.inr ⟨later, earlier, hc, hmem⟩
  · intro h
    rcases h with ⟨he, hmem⟩ | ⟨later, earlier, hc, hmem⟩
    · exact ⟨[], c, by rw [he]; rfl, hmem⟩
    · exact ⟨e :: later, earlier, by rw [hc]; rfl, hmem⟩

/-- Every `Have` arrived in one phase or the other. -/
theorem have_mem_iff : .received (.haveMsg i) ∈ c ↔ HaveWaiting c i ∨ HaveAfter c i := by
  constructor
  · intro h
    obtain ⟨later, earlier, hc⟩ := List.append_of_mem h
    by_cases hmem : .received .unchoke ∈ earlier
    · exact Or.inr ⟨later, earlier, hc, hmem⟩
    · exact Or.inl ⟨later, earlier, hc, hmem⟩
  · intro h
    rcases h with ⟨later, earlier, hc, _⟩ | ⟨later, earlier, hc, _⟩
    · rw [hc]
      simp
    · rw [hc]
      simp

/-! ### Its bits -/

/-- `bf` has the bits of `bf₀` and those of the messages in `c` that count. -/
structure Marks (c : List Event) (bf₀ bf : Bitfield) : Prop where
  len : bf.len = bf₀.len
  size : bf.storage.length = bf₀.storage.length
  bits : ∀ i, 0 ≤ i → i < bf₀.len → i / 8 < bf₀.storage.length →
    (bf.bit i = true ↔ bf₀.bit i = true ∨ HaveAfter c i)

theorem Marks.cons (h : Marks c bf₀ bf) (he : ∀ i, e ≠ .received (.haveMsg i)) :
    Marks (e :: c) bf₀ bf := by
  refine ⟨h.len, h.size, ?_⟩
  intro i h0 hlt hbyte
  rw [h.bits i h0 hlt hbyte, haveAfter_cons]
  simp [he i]

/-- A `Have` that arrives too early changes neither side. -/
theorem Marks.haveEarly (h : Marks c bf₀ bf) (hmem : .received .unchoke ∉ c) :
    Marks (.received (.haveMsg j) :: c) bf₀ bf := by
  refine ⟨h.len, h.size, ?_⟩
  intro i h0 hlt hbyte
  rw [h.bits i h0 hlt hbyte, haveAfter_cons]
  simp [hmem]

theorem Marks.mark (h : Marks c bf₀ bf) (hmem : .received .unchoke ∈ c) :
    Marks (.received (.haveMsg j) :: c) bf₀ (bf.mark j) := by
  unfold Bitfield.mark
  split
  · next bf' hset =>
    obtain ⟨hlen, hsize, _⟩ := Bitfield.set_eq_ok hset
    refine ⟨by rw [hlen, h.len], by rw [hsize, h.size], ?_⟩
    intro i h0 hlt hbyte
    rw [Bitfield.bit_set hset h0, h.bits i h0 hlt hbyte, haveAfter_cons]
    simp only [hmem, and_true, Event.received.injEq, Message.haveMsg.injEq]
    rw [or_assoc, or_comm (a := HaveAfter c i), eq_comm (a := i)]
  · next stop hset =>
    -- `set` does not return: the index has no bit, so it is none of those
    -- that are looked at.
    refine ⟨h.len, h.size, ?_⟩
    intro i h0 hlt hbyte
    rw [h.bits i h0 hlt hbyte, haveAfter_cons]
    have hne : j ≠ i := by
      intro hji
      have hlen := h.len
      have hsize := h.size
      obtain ⟨bf', hok⟩ : ∃ bf', bf.set j true = .ok bf' :=
        Bitfield.set_of_byte (by omega) (by omega) (by omega)
      rw [hok] at hset
      cases hset
    simp [hne]

theorem firstMessage_cons (h : FirstMessage (e :: c) m) :
    (e = .received m ∧ ∀ m', .received m' ∉ c) ∨ FirstMessage c m := by
  obtain ⟨later, earlier, heq, hnone⟩ := h
  cases later with
  | nil =>
    injection heq with he hc
    rw [hc]
    exact Or.inl ⟨he, hnone⟩
  | cons _ later =>
    injection heq with _ hc
    exact Or.inr ⟨later, earlier, hc, hnone⟩

theorem FirstMessage.unique {m' : Message} (h : FirstMessage c m) (h' : FirstMessage c m') :
    m = m' := by
  induction c with
  | nil =>
    obtain ⟨later, earlier, heq, _⟩ := h
    simp at heq
  | cons e c ih =>
    rcases firstMessage_cons h with ⟨he, hnone⟩ | hfirst
    · rcases firstMessage_cons h' with ⟨he', _⟩ | hfirst'
      · rw [he] at he'
        exact Event.received.inj he'
      · exact absurd hfirst'.mem (hnone m')
    · rcases firstMessage_cons h' with ⟨_, hnone'⟩ | hfirst'
      · exact absurd hfirst.mem (hnone' m)
      · exact ih hfirst hfirst'

theorem announced_of_nothing (h : ∀ m, .received m ∉ c) : announced c = none := by
  induction c with
  | nil => rfl
  | cons e c ih =>
    have hc : ∀ m, .received m ∉ c := fun m hm => h m (List.mem_cons_of_mem e hm)
    rw [announced_cons, ih hc]
    · intro bf he
      exact h (.bitfield bf) (by simp [he])
    · intro i he
      exact h (.haveMsg i) (by simp [he])

/-- On a connection that starts with a bitfield, these are the bits. -/
theorem announced_marks (h : FirstMessage c (.bitfield bf₀)) :
    ∃ bf, announced c = some bf ∧ Marks c bf₀ bf := by
  induction c with
  | nil =>
    obtain ⟨later, earlier, heq, _⟩ := h
    simp at heq
  | cons e c ih =>
    rcases firstMessage_cons h with ⟨rfl, hnone⟩ | hfirst
    · -- The newest event is the bitfield, and the only message.
      refine ⟨bf₀, by rw [announced, announced_of_nothing hnone]; rfl, rfl, rfl, ?_⟩
      intro i _ _ _
      rw [haveAfter_cons]
      have hnot : ¬ HaveAfter c i := fun hafter =>
        hnone (.haveMsg i) (have_mem_iff.mpr (Or.inr hafter))
      simp [hnot]
    · obtain ⟨bf, hbf, hmarks⟩ := ih hfirst
      cases e with
      | received m =>
        cases m with
        | bitfield bf' =>
          exact ⟨bf, by rw [announced, hbf]; rfl, hmarks.cons (by simp)⟩
        | haveMsg j =>
          by_cases hmem : .received .unchoke ∈ c
          · exact ⟨bf.mark j, by rw [announced, if_pos hmem, hbf]; rfl, hmarks.mark hmem⟩
          · exact ⟨bf, by rw [announced, if_neg hmem, hbf], hmarks.haveEarly hmem⟩
        | _ => exact ⟨bf, hbf, hmarks.cons (by simp)⟩
      | _ => exact ⟨bf, hbf, hmarks.cons (by simp)⟩

/-! ### The object -/

variable {W : Type} {env : Env W} {torrent : TorrentFile} {fuel : Nat} {s s' : State W}

/-- The bitfield of the object is the one of its connection, which started
    with a bitfield of the torrent. -/
structure Heard (torrent : TorrentFile) (s : State W) : Prop where
  first : ∃ bf₀, FirstMessage (thisConnection s.trace) (.bitfield bf₀) ∧
    bf₀.len = torrent.piecesCount
  bitfield : ∃ bf, s.bitfield = some bf ∧ announced (thisConnection s.trace) = some bf

/-- While waiting: the flag says whether an `Unchoke` was received. -/
structure Awaiting (torrent : TorrentFile) (s : State W) : Prop extends Heard torrent s where
  socket : s.socket = true
  unchoked : .received .unchoke ∈ thisConnection s.trace ↔ s.choked = false

/-- Ever after: an `Unchoke` was received. -/
structure Announcing (torrent : TorrentFile) (s : State W) : Prop extends Heard torrent s where
  unchoked : .received .unchoke ∈ thisConnection s.trace

/-- The bitfield is up to date whenever there is a connection. -/
def Known (torrent : TorrentFile) (s : State W) : Prop :=
  s.socket = true → Announcing torrent s

theorem known_of_socket_false (h : s.socket = false) : Known torrent s := by
  intro hsocket
  rw [h] at hsocket
  cases hsocket

/-- Events that leave the bitfield of the connection as it is. -/
theorem Heard.event (h : Heard torrent s) (he : e ≠ .connected)
    (hsame : ∀ bf, announced (thisConnection s.trace) = some bf →
      announced (e :: thisConnection s.trace) = some bf)
    (hbitfield : s'.bitfield = s.bitfield) (htrace : s'.trace = e :: s.trace) :
    Heard torrent s' := by
  obtain ⟨bf₀, hfirst, hlen⟩ := h.first
  obtain ⟨bf, hbf, hannounced⟩ := h.bitfield
  have hconn : thisConnection s'.trace = e :: thisConnection s.trace := by
    rw [htrace, thisConnection_cons he]
  refine ⟨⟨bf₀, ?_, hlen⟩, bf, by rw [hbitfield, hbf], ?_⟩
  · rw [hconn]
    exact hfirst.cons
  · rw [hconn]
    exact hsame bf hannounced

theorem announced_sent (hbf : announced c = some bf) : announced (.sent m :: c) = some bf := by
  rw [announced_cons (by simp) (by simp), hbf]

/-- A message other than a `Have`. -/
theorem announced_received (hm : ∀ i, m ≠ .haveMsg i) (hbf : announced c = some bf) :
    announced (.received m :: c) = some bf := by
  cases m with
  | bitfield bf' =>
    rw [announced, hbf]
    rfl
  | haveMsg i => exact absurd rfl (hm i)
  | _ => exact hbf

/-! ### Waiting -/

theorem awaiting_greeted {w : W} {t : List Event} {response : Bytes}
    (hlen : bf.len = torrent.piecesCount) : Awaiting torrent (greeted w t response bf) := by
  have hconn : thisConnection (greeted w t response bf).trace
      = [.sent .interested, .sent .unchoke, .received (.bitfield bf), .handshake response] := by
    simp [greeted, thisConnection]
  have hfirst : FirstMessage (thisConnection (greeted w t response bf).trace) (.bitfield bf) :=
    ⟨[.sent .interested, .sent .unchoke], [.handshake response], hconn, by simp⟩
  refine ⟨⟨⟨bf, hfirst, hlen⟩, bf, rfl, by rw [hconn]; rfl⟩, rfl, ?_⟩
  rw [hconn]
  simp [greeted]

/-- Before the first `Unchoke` a `Have` is not noted by either side. -/
theorem Awaiting.received {w : W} (h : Awaiting torrent s) (hchoked : s.choked = true) :
    Awaiting torrent
      { s with
        world := w
        trace := .received m :: s.trace
        choked := if m = .unchoke then false else s.choked } := by
  have hnot : .received .unchoke ∉ thisConnection s.trace := by
    rw [h.unchoked, hchoked]
    simp
  refine ⟨h.toHeard.event (e := .received m) (by simp) ?_ rfl rfl, h.socket, ?_⟩
  · intro bf hbf
    by_cases hhave : ∃ i, m = .haveMsg i
    · obtain ⟨i, rfl⟩ := hhave
      rw [announced, if_neg hnot, hbf]
    · exact announced_received (fun i hi => hhave ⟨i, hi⟩) hbf
  · show .received .unchoke ∈ thisConnection (.received m :: s.trace) ↔ _
    rw [thisConnection_cons (by simp), List.mem_cons]
    by_cases hm : m = .unchoke
    · simp [hm]
    · simp [hm, hnot, hchoked, eq_comm]

theorem Awaiting.rounds {k : Nat} (h : Awaiting torrent s)
    (hrounds : Prog.Rounds (fun _ s => s.choked) (waitRound env torrent) k () s () s') :
    Awaiting torrent s' := by
  refine hrounds.invariant (I := fun _ s => Awaiting torrent s) ?_ h
  intro _ s _ s₁ h hchoked hbody
  obtain ⟨m, w, _, rfl⟩ := waitRound_eq_ok hbody
  exact h.received hchoked

theorem Known.wp_ensureConnected (h : Known torrent s) :
    (ensureConnected env torrent fuel).wp
      (fun _ s' => Announcing torrent s' ∧ s'.socket = true)
      (fun e s' => e = .outOfFuel ∨ Known torrent s') s := by
  apply Prog.wp_intro
  · intro _ s' hrun
    rcases ensureConnected_eq_ok hrun with ⟨hsocket, w, rfl⟩ | hnew
    · have hs := h hsocket
      exact ⟨⟨⟨hs.first, hs.bitfield⟩, hs.unchoked⟩, hsocket⟩
    · obtain ⟨response, bf, w, k, hgreeting, hrounds, hchoked⟩ := hnew
      obtain ⟨buf, hdecode⟩ := hgreeting.decoded
      have hs := (awaiting_greeted (Message.decode_bitfield hdecode)).rounds hrounds
      exact ⟨⟨hs.toHeard, hs.unchoked.mpr hchoked⟩, hs.socket⟩
  · intro e s' hrun
    rcases Prog.wp_error wp_ensureConnected_closed hrun with hfuel | hclosed
    · exact Or.inl hfuel
    · exact Or.inr (known_of_socket_false hclosed.socket)

/-! ### Downloading -/

theorem Announcing.event (h : Announcing torrent s) (he : e ≠ .connected)
    (hsame : ∀ bf, announced (thisConnection s.trace) = some bf →
      announced (e :: thisConnection s.trace) = some bf)
    (hbitfield : s'.bitfield = s.bitfield) (htrace : s'.trace = e :: s.trace) :
    Announcing torrent s' := by
  refine ⟨h.toHeard.event he hsame hbitfield htrace, ?_⟩
  rw [htrace, thisConnection_cons he]
  exact List.mem_cons_of_mem e h.unchoked

/-- After the first `Unchoke` a `Have` is noted by both sides. -/
theorem Announcing.mark (h : Announcing torrent s) (hbf : s.bitfield = some bf)
    (hbitfield : s'.bitfield = some (bf.mark i))
    (htrace : s'.trace = .received (.haveMsg i) :: s.trace) : Announcing torrent s' := by
  have hconn : thisConnection s'.trace = .received (.haveMsg i) :: thisConnection s.trace := by
    rw [htrace, thisConnection_cons (by simp)]
  obtain ⟨bf₀, hfirst, hlen⟩ := h.first
  obtain ⟨bf', hbf', hannounced⟩ := h.bitfield
  have heq : bf' = bf := Option.some.inj (hbf'.symm.trans hbf)
  refine ⟨⟨⟨bf₀, ?_, hlen⟩, bf.mark i, hbitfield, ?_⟩, ?_⟩
  · rw [hconn]
    exact hfirst.cons
  · rw [hconn, announced, if_pos h.unchoked, hannounced, heq]
    rfl
  · rw [hconn]
    exact List.mem_cons_of_mem _ h.unchoked

theorem Bitfield.mark_of_ok (h : bf.set i true = .ok bf') : bf.mark i = bf' := by
  rw [mark, h]

theorem Bitfield.mark_of_error {stop : Stop Empty} (h : bf.set i true = .error stop) :
    bf.mark i = bf := by
  rw [mark, h]

theorem announcing_invariant {index length : Int} :
    LoopInvariant torrent index length
      (fun (_ : Progress) (s : State W) => Announcing torrent s)
      (fun _ s => Known torrent s) := by
  constructor
  · constructor
    · intro d s w h _ _
      exact h.event (by simp) (fun _ => announced_sent) rfl rfl
    · intro d s e w _ h _ _
      exact known_of_socket_false rfl
    · intro d s x h _ _ _ _
      exact h
  · intro d s e w _ h
    exact known_of_socket_false rfl
  · intro d s m w h _
    cases m with
    | haveMsg i =>
      obtain ⟨bf, hbf, _⟩ := h.bitfield
      refine wp_handleMessage_haveMsg hbf ?_ ?_ ?_
      · intro bf' hset
        exact h.mark hbf (by rw [Bitfield.mark_of_ok hset]) rfl
      · intro x hset _
        exact h.mark hbf (by rw [Bitfield.mark_of_error hset]; exact hbf) rfl
      · intro hset _
        exact h.mark hbf (by rw [Bitfield.mark_of_error hset]; exact hbf) rfl
    | piece index begin block =>
      have hnext : Announcing torrent
          { s with world := w, trace := .received (.piece index begin block) :: s.trace } :=
        h.event (by simp) (fun _ => announced_received (by simp)) rfl rfl
      rw [handleMessage]
      exact Prog.wp_ite (fun _ => hnext) (fun _ _ => hnext)
    | _ => exact h.event (by simp) (fun _ => announced_received (by simp)) rfl rfl

theorem Known.wp_tryDownload {task : Piece} (h : Known torrent s) :
    (tryDownload env torrent fuel task).wp (fun _ s' => Known torrent s')
      (fun e s' => e = .outOfFuel ∨ Known torrent s') s := by
  apply wp_tryDownload_rule (C := fun s₁ => Announcing torrent s₁)
    (L := fun _ s₂ => Announcing torrent s₂)
  · intro x
    exact Or.inr h
  · exact Prog.wp_mono h.wp_ensureConnected (fun _ _ hs => hs.1) (fun _ _ he => he)
  · intro s₁ e hs₁ _
    exact Or.inr fun _ => hs₁
  · intro s₁ hs₁ _ _ _ _
    exact Prog.wp_mono (announcing_invariant.wp_loop (fun _ _ hs _ => hs) hs₁)
      (fun _ _ hs => hs.1) (fun _ _ he => Or.inr he)
  · intro d s₂ hs₂ _ _
    exact hs₂
  · intro d s₂ e hs₂ _
    exact Or.inr fun _ => hs₂

/-! ### Whole runs -/

theorem Between.known (h : Between env torrent fuel s) : Known torrent s := by
  apply h.invariant
  · intro w
    exact known_of_socket_false rfl
  · intro s hs
    exact Prog.wp_mono hs.wp_ensureConnected (fun _ _ hs' _ => hs'.1) (fun _ _ he => he)
  · intro s task hs
    exact hs.wp_tryDownload

theorem Enters.announcing {task : Piece} {s₁ : State W} (h : Enters env torrent fuel task s s₁)
    (hs : Known torrent s) : Announcing torrent s₁ :=
  (Prog.wp_ok hs.wp_ensureConnected h.connected).1

/-- At every point of a run the bitfield is the one of the connection. -/
theorem Point.heard (h : Point env torrent fuel s) (hsocket : s.socket = true) :
    Heard torrent s := by
  cases h with
  | between h => exact (h.known hsocket).toHeard
  | waiting h hconnects hgreet hrounds =>
    obtain ⟨response, bf, w, hgreeting, rfl⟩ := greet_eq_ok hgreet
    obtain ⟨buf, hdecode⟩ := hgreeting.decoded
    exact ((awaiting_greeted (Message.decode_bitfield hdecode)).rounds hrounds).toHeard
  | downloading h henters hrounds =>
    exact (announcing_invariant.rounds hrounds (henters.announcing h.known)).toHeard

theorem advertised_iff (h : FirstMessage c (.bitfield bf₀)) :
    Advertised c i ↔ bf₀.bit i = true ∨ HaveWaiting c i ∨ HaveAfter c i := by
  rw [Advertised, have_mem_iff]
  constructor
  · intro hadvertised
    rcases hadvertised with ⟨bf, hfirst, hbit⟩ | hhave
    · have heq : bf₀ = bf := Message.bitfield.inj (h.unique hfirst)
      rw [heq]
      exact Or.inl hbit
    · exact Or.inr hhave
  · intro hor
    rcases hor with hbit | hhave
    · exact Or.inl ⟨bf₀, h, hbit⟩
    · exact Or.inr hhave

/-- At every point of a run on a connection, for every piece with a bit in
    the bitfield the peer sent: `get` tells whether the peer announced the
    piece if and only if the peer did not announce it only while we waited
    for the first `Unchoke`. -/
theorem get_iff_advertised (h : Point env torrent fuel s) (hsocket : s.socket = true) :
    ∃ bf₀ bf, FirstMessage (thisConnection s.trace) (.bitfield bf₀) ∧ s.bitfield = some bf ∧
      ∀ i, 0 ≤ i → i < torrent.piecesCount → i / 8 < bf₀.storage.length →
        ((bf.get (env.beyond s.world) i = .ok true ↔ Advertised (thisConnection s.trace) i) ↔
          (HaveWaiting (thisConnection s.trace) i →
            bf₀.bit i = true ∨ HaveAfter (thisConnection s.trace) i)) := by
  have hheard := h.heard hsocket
  obtain ⟨bf₀, hfirst, hlen⟩ := hheard.first
  obtain ⟨bf, hbf, hannounced⟩ := hheard.bitfield
  obtain ⟨bf', hbf', hmarks⟩ := announced_marks hfirst
  have heq : bf' = bf := Option.some.inj (hbf'.symm.trans hannounced)
  rw [heq] at hmarks
  refine ⟨bf₀, bf, hfirst, hbf, ?_⟩
  intro i h0 hlt hbyte
  have hlen' := hmarks.len
  have hsize := hmarks.size
  have hget : bf.get (env.beyond s.world) i = .ok true ↔
      bf₀.bit i = true ∨ HaveAfter (thisConnection s.trace) i := by
    rw [Bitfield.get_of_byte _ h0 (by omega) (by omega), ← hmarks.bits i h0 (by omega) hbyte]
    simp
  rw [hget, advertised_iff hfirst]
  constructor
  · intro hiff hwaiting
    exact hiff.mpr (Or.inr (Or.inl hwaiting))
  · intro hmarked
    constructor
    · rintro (hbit | hafter)
      · exact Or.inl hbit
      · exact Or.inr (Or.inr hafter)
    · rintro (hbit | hwaiting | hafter)
      · exact Or.inl hbit
      · exact hmarked hwaiting
      · exact Or.inr hafter

/-- A peer that has the only piece. -/
theorem get_iff_advertised_one_piece :
    ∃ s : State Bytes, .received (.bitfield ⟨[128], 1⟩) ∈ s.trace ∧
      ∃ bf₀ bf, FirstMessage (thisConnection s.trace) (.bitfield bf₀) ∧ s.bitfield = some bf ∧
        ∀ i, 0 ≤ i → i < (unitPieces 1).piecesCount → i / 8 < bf₀.storage.length →
          ((bf.get (listEnv.beyond s.world) i = .ok true ↔
              Advertised (thisConnection s.trace) i) ↔
            (HaveWaiting (thisConnection s.trace) i →
              bf₀.bit i = true ∨ HaveAfter (thisConnection s.trace) i)) := by
  obtain ⟨s, hs⟩ :
    ∃ s, s = (ensureConnected listEnv (unitPieces 1) 4 { world := announces 128 }).2 := ⟨_, rfl⟩
  have hpoint : Point listEnv (unitPieces 1) 4 s := by
    rw [hs]
    exact .between ((Between.start _).connect (by decide +kernel))
  refine ⟨s, ?_, get_iff_advertised hpoint ?_⟩
  · rw [hs]
    decide +kernel
  · rw [hs]
    decide +kernel

/-- A peer without pieces, which gets one while we wait for the unchoke. -/
def announcesWaiting : Bytes :=
  List.replicate 68 0 ++ [0, 0, 0, 2, 5, 0] ++ [0, 0, 0, 5, 4, 0, 0, 0, 0] ++ [0, 0, 0, 1, 1]

/-- The piece is announced, and not in the bitfield. -/
theorem get_of_have_waiting :
    ∃ s, Point listEnv (unitPieces 1) 4 s ∧ s.socket = true ∧
      Advertised (thisConnection s.trace) 0 ∧
      ∃ bf, s.bitfield = some bf ∧ bf.get (listEnv.beyond s.world) 0 = .ok false := by
  obtain ⟨s, hs⟩ :
    ∃ s, s = (ensureConnected listEnv (unitPieces 1) 4 { world := announcesWaiting }).2 :=
      ⟨_, rfl⟩
  have hpoint : Point listEnv (unitPieces 1) 4 s := by
    rw [hs]
    exact .between ((Between.start _).connect (by decide +kernel))
  have htrace : thisConnection s.trace = [.received .unchoke, .received (.haveMsg 0),
      .sent .interested, .sent .unchoke, .received (.bitfield ⟨[0], 1⟩),
      .handshake (List.replicate 68 0)] := by
    rw [hs]
    decide +kernel
  have hbitfield : s.bitfield = some ⟨[0], 1⟩ := by
    rw [hs]
    decide +kernel
  refine ⟨s, hpoint, by rw [hs]; decide +kernel, ?_, _, hbitfield, rfl⟩
  rw [htrace]
  exact Or.inr (by simp)

end Furrent.Download
