import Furrent.Download.Downloader
import Furrent.Download.Bitfield

/-! # Connections

    What can be said about the events of one connection: the handshake was
    answered, the peer announced its pieces, it has not choked us, it has a
    piece. Traces are newest first, so that the events before an event are
    behind it; what later events keep is said by a `cons` lemma for each
    notion. -/

namespace Furrent.Download

/-- The events since the connection was made. -/
def thisConnection (t : List Event) : List Event := t.takeWhile fun e => decide (e ≠ .connected)

theorem thisConnection_cons {e : Event} (h : e ≠ .connected) (t : List Event) :
    thisConnection (e :: t) = e :: thisConnection t := by
  rw [thisConnection, List.takeWhile_cons_of_pos (by simpa using h)]
  rfl

theorem thisConnection_connected (t : List Event) : thisConnection (.connected :: t) = [] := by
  rw [thisConnection, List.takeWhile_cons_of_neg (by simp)]

theorem thisConnection_subset (t : List Event) : thisConnection t ⊆ t :=
  (List.takeWhile_sublist _).subset

section

variable (torrent : TorrentFile) (c : List Event)

/-- A handshake response with the info hash was read. -/
def HandshakeDone : Prop :=
  ∃ response, .handshake response ∈ c ∧ response.length = 68 ∧
    responseInfoHash response = torrent.infoHash

/-- The first message received is `m`. -/
def FirstMessage (m : Message) : Prop :=
  ∃ later earlier, c = later ++ .received m :: earlier ∧ ∀ m', .received m' ∉ earlier

/-- An unchoke was received and no choke since. -/
def Unchoked : Prop :=
  ∃ later earlier, c = later ++ .received .unchoke :: earlier ∧ .received .choke ∉ later

/-- The piece is in the bitfield the peer sent or in a have message. -/
def Advertised (index : Int) : Prop :=
  (∃ bf, FirstMessage c (.bitfield bf) ∧ bf.bit index = true) ∨ .received (.haveMsg index) ∈ c

/-- The received bitfields have a bit for every piece. -/
def Covered : Prop :=
  ∀ bf, .received (.bitfield bf) ∈ c → torrent.piecesCount ≤ 8 * bf.storage.length

/-- What has to have happened before anything is requested. -/
structure Ready : Prop where
  handshake : HandshakeDone torrent c
  bitfield : ∃ bf, FirstMessage c (.bitfield bf)
  unchoked : Unchoked c

/-- What has to have happened before piece `index` is requested. -/
structure MayRequest (index : Int) : Prop extends Ready torrent c where
  advertised : Advertised c index

/-- The same, but a peer that sent a short bitfield need not have the
    piece. -/
structure Guarded (index : Int) : Prop extends Ready torrent c where
  advertised : Covered torrent c → Advertised c index

end

/-- Every request in the trace was sent when `P` held of the connection and
    the index of the piece. -/
def RequestsMeet (P : List Event → Int → Prop) (t : List Event) : Prop :=
  ∀ later earlier index begin length,
    t = later ++ .sent (.request index begin length) :: earlier → P (thisConnection earlier) index

/-! ### What later events keep -/

variable {torrent : TorrentFile} {c t : List Event} {e : Event} {index : Int}

theorem HandshakeDone.cons (h : HandshakeDone torrent c) : HandshakeDone torrent (e :: c) := by
  obtain ⟨response, hmem, hlen, hhash⟩ := h
  exact ⟨response, List.mem_cons_of_mem e hmem, hlen, hhash⟩

theorem FirstMessage.cons {m : Message} (h : FirstMessage c m) : FirstMessage (e :: c) m := by
  obtain ⟨later, earlier, rfl, hnone⟩ := h
  exact ⟨e :: later, earlier, rfl, hnone⟩

theorem FirstMessage.mem {m : Message} (h : FirstMessage c m) : .received m ∈ c := by
  obtain ⟨later, earlier, rfl, _⟩ := h
  simp

theorem Unchoked.cons (h : Unchoked c) (he : e ≠ .received .choke) : Unchoked (e :: c) := by
  obtain ⟨later, earlier, rfl, hnone⟩ := h
  refine ⟨e :: later, earlier, rfl, ?_⟩
  intro hmem
  rcases List.mem_cons.mp hmem with heq | hmem
  · exact he heq.symm
  · exact hnone hmem

theorem unchoked_cons_unchoke (c : List Event) : Unchoked (.received .unchoke :: c) :=
  ⟨[], c, rfl, by simp⟩

theorem Advertised.cons (h : Advertised c index) : Advertised (e :: c) index := by
  rcases h with ⟨bf, hfirst, hbit⟩ | hhave
  · exact Or.inl ⟨bf, hfirst.cons, hbit⟩
  · exact Or.inr (List.mem_cons_of_mem e hhave)

theorem Covered.mono (h : Covered torrent t) (hsub : c ⊆ t) : Covered torrent c :=
  fun bf hbf => h bf (hsub hbf)

/-! ### Requests in a trace -/

section

variable {P P' : List Event → Int → Prop}

theorem requestsMeet_nil : RequestsMeet P [] := by
  intro later earlier index begin length h
  simp at h

/-- Only a new request has to be looked at. -/
theorem RequestsMeet.cons (h : RequestsMeet P t)
    (hreq : ∀ index begin length, e = .sent (.request index begin length) →
      P (thisConnection t) index) : RequestsMeet P (e :: t) := by
  -- A request is the newest event, or one of `t`.
  intro later earlier index begin length heq
  cases later with
  | nil =>
    injection heq with he ht
    rw [← ht]
    exact hreq index begin length he
  | cons e' later =>
    injection heq with _ ht
    exact h later earlier index begin length ht

/-- An event that is no request changes nothing. -/
theorem RequestsMeet.cons_of_ne (h : RequestsMeet P t)
    (he : ∀ index begin length, e ≠ .sent (.request index begin length)) :
    RequestsMeet P (e :: t) :=
  h.cons fun index begin length heq => absurd heq (he index begin length)

theorem RequestsMeet.mono (h : RequestsMeet P t)
    (himp : ∀ c index, c ⊆ t → P c index → P' c index) : RequestsMeet P' t := by
  intro later earlier index begin length heq
  refine himp _ _ ?_ (h later earlier index begin length heq)
  intro e he
  rw [heq]
  have := thisConnection_subset earlier he
  simp [this]

end

end Furrent.Download
