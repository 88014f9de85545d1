import Furrent.Torrent.Responses

/-! # Announcing to the tracker

    Model of `peer::announce` in `src/peer.cpp` and of `Torrent::announce`
    in `src/torrent.cpp`, which the constructor of `Torrent` calls. A
    request that fails is the same to a torrent as a response that is not
    bencode: it has no peers. A response that makes the parser throw leaves
    the constructor with the exception. -/

namespace Furrent

open Cpp Bencode Numeral Torrent

/-! ### The request -/

/-- What `cpr::Get` is given. The parameters are not yet percent-encoded. -/
structure Request where
  url : Bytes
  parameters : List (String × Bytes)
  deriving DecidableEq, Repr

/-- `cpr::Response`. The status code is zero if there is no response. -/
structure Response where
  statusCode : Int
  text : Bytes
  deriving DecidableEq, Repr

/-- The network, with the memory behind the texts that come from it and
    behind the strings of peers in them. -/
structure Network where
  get : Request → Response
  beyondText : Nat → Option UInt8
  beyondPeers : Nat → Option UInt8

namespace Peer

/-- `"FUR-----------------"`. -/
def peerId : Bytes := [70, 85, 82] ++ List.replicate 17 45

def announceRequest (torrentF : TorrentFile) : Request where
  url := torrentF.announceUrl
  parameters := [("info_hash", torrentF.infoHash), ("peer_id", peerId), ("port", decimal 6881),
    ("uploaded", decimal 0), ("downloaded", decimal 0), ("compact", decimal 0),
    ("left", signedDecimal torrentF.length)]

/-- `peer::announce`. -/
def announce (network : Network) (torrentF : TorrentFile) : Outcome PeerError Announce :=
  let res := network.get (announceRequest torrentF)
  if res.statusCode = 0 ∨ 400 ≤ res.statusCode then .error (.error .announceError)
  else parseTrackerResponse network.beyondText network.beyondPeers res.text

end Peer

namespace Torrent

/-- `Torrent::announce()`. -/
def announce (network : Network) (t : Torrent) : Outcome Empty Torrent :=
  match Peer.announce network t.descriptor with
  | .error (.error _) => .ok t
  | .error (.throw x) => .error (.throw x)
  | .error .trap => .error .trap
  | .error .outOfFuel => .error .outOfFuel
  | .ok response =>
    if INT64_MAX < response.peers.length then .error (.throw (.outOfRange "too many peers"))
    else .ok { t with peers := response.peers, peersScore := response.peers.map fun _ => 1 }

/-- `Torrent(tid, descriptor)`. -/
def construct (network : Network) (tid : TorrentID) (descriptor : TorrentFile) :
    Outcome Empty Torrent :=
  announce network { tid, descriptor, state := .loading }

/-! ### The answer -/

/-- There is no response, or one that is not bencode. -/
def Silent (network : Network) (request : Request) : Prop :=
  (network.get request).statusCode = 0 ∨
    400 ≤ (network.get request).statusCode ∨
    ∃ e, decode network.beyondText (network.get request).text = .error (.error e)

/-- There is a response of the right shape with the string `value` for the
    peers, and all its rounds can be read. -/
structure Answers (network : Network) (request : Request) (value : Bytes) : Prop where
  ok : (network.get request).statusCode ≠ 0
  good : (network.get request).statusCode < 400
  shaped : ∃ tree interval, decode network.beyondText
    (network.get request).text = .ok tree ∧ Shaped tree interval value
  readable : Readable value network.beyondPeers
  few : (value.length + 11) / 12 ≤ INT64_MAX

variable {network : Network} {request : Request} {d : TorrentFile} {tree : BencodeValue}
  {value value' : Bytes}

theorem Answers.shaped_of_decode (h : Answers network request value)
    (hdecode : decode network.beyondText (network.get request).text = .ok tree) :
    ∃ interval, Shaped tree interval value := by
  obtain ⟨tree', interval, hdecode', hshaped⟩ := h.shaped
  rw [hdecode] at hdecode'
  injection hdecode' with htree
  rw [htree]
  exact ⟨interval, hshaped⟩

/-- Once there is a response, the text decides. -/
theorem silent_iff (hok : (network.get request).statusCode ≠ 0)
    (hgood : (network.get request).statusCode < 400) :
    Silent network request ↔ ∃ e, decode network.beyondText
      (network.get request).text = .error (.error e) := by
  unfold Silent
  simp [hok, not_le.mpr hgood]

theorem Answers.not_silent (h : Answers network request value) : ¬ Silent network request := by
  obtain ⟨tree, interval, hdecode, _⟩ := h.shaped
  rw [silent_iff h.ok h.good, hdecode]
  simp

theorem Answers.unique (h : Answers network request value) (h' : Answers network request value') :
    value = value' := by
  obtain ⟨tree, interval, hdecode, hshaped⟩ := h.shaped
  obtain ⟨interval', hshaped'⟩ := h'.shaped_of_decode hdecode
  exact hshaped.value_eq hshaped'

theorem construct_of_error {e : PeerError} (h : Peer.announce network d = .error (.error e))
    (tid : TorrentID) : construct network tid d = .ok (create tid d []) := by
  unfold construct announce
  simp only [h]
  rfl

theorem construct_of_stop {stop : Stop PeerError} (h : Peer.announce network d = .error stop)
    (hstop : ∀ e, stop ≠ .error e) (tid : TorrentID) :
    ∃ stop', construct network tid d = .error stop' := by
  unfold construct announce
  simp only [h]
  cases stop with
  | error e => exact absurd rfl (hstop e)
  | throw x => exact ⟨_, rfl⟩
  | trap => exact ⟨_, rfl⟩
  | outOfFuel => exact ⟨_, rfl⟩

theorem construct_of_response {response : Announce} (h : Peer.announce network d = .ok response)
    (tid : TorrentID) :
    construct network tid d =
      if INT64_MAX < response.peers.length then .error (.throw (.outOfRange "too many peers"))
      else .ok (create tid d response.peers) := by
  unfold construct announce
  simp only [h]
  rfl

/-- What comes of an announcement: a torrent without peers, one with those
    that are read from the response, or none. -/
inductive Announced (network : Network) (tid : TorrentID) (d : TorrentFile) : Prop where
  | silent (silent : Silent network (Peer.announceRequest d))
      (eq : construct network tid d = .ok (create tid d []))
  | answered {value : Bytes} {peers : List Peer}
      (answers : Answers network (Peer.announceRequest d) value)
      (count : peers.length = (value.length + 11) / 12)
      (eq : construct network tid d = .ok (create tid d peers))
  | stopped {stop : Stop Empty} (silent : ¬ Silent network (Peer.announceRequest d))
      (answers : ∀ value, ¬ Answers network (Peer.announceRequest d) value)
      (eq : construct network tid d = .error stop)

/-- A response that is bencode: it depends on its tree. -/
theorem announced_of_decode
    (hok : (network.get (Peer.announceRequest d)).statusCode ≠ 0)
    (hgood : (network.get (Peer.announceRequest d)).statusCode < 400)
    (hdecode : decode network.beyondText (network.get (Peer.announceRequest d)).text = .ok tree)
    (tid : TorrentID) : Announced network tid d := by
  have hsilent : ¬ Silent network (Peer.announceRequest d) := by
    rw [silent_iff hok hgood, hdecode]
    simp
  have hread : Peer.announce network d = readResponse network.beyondPeers tree := by
    unfold Peer.announce parseTrackerResponse
    simp only [hdecode]
    exact if_neg (by omega)
  cases reading network.beyondPeers tree with
  | @returns interval value result shaped readable eq count =>
    have hconstruct := construct_of_response (hread.trans eq) tid
    by_cases hfew : (value.length + 11) / 12 ≤ INT64_MAX
    · rw [count, if_neg (Nat.not_lt.mpr hfew)] at hconstruct
      exact .answered ⟨hok, hgood, ⟨tree, interval, hdecode, shaped⟩, readable, hfew⟩ count
        hconstruct
    · rw [count, if_pos (Nat.lt_of_not_le hfew)] at hconstruct
      refine .stopped hsilent (fun value' h => ?_) hconstruct
      obtain ⟨interval', hshaped⟩ := h.shaped_of_decode hdecode
      rw [shaped.value_eq hshaped] at hfew
      exact hfew h.few
  | overruns shaped cut eq =>
    obtain ⟨stop, hconstruct⟩ := construct_of_stop (hread.trans eq) (by simp) tid
    refine .stopped hsilent (fun value' h => ?_) hconstruct
    obtain ⟨interval', hshaped⟩ := h.shaped_of_decode hdecode
    rw [shaped.value_eq hshaped] at cut
    exact cut h.readable
  | throws unshaped eq =>
    obtain ⟨stop, hconstruct⟩ := construct_of_stop (hread.trans eq) (by simp) tid
    refine .stopped hsilent (fun value' h => ?_) hconstruct
    obtain ⟨interval', hshaped⟩ := h.shaped_of_decode hdecode
    exact unshaped _ _ hshaped

theorem announced (network : Network) (tid : TorrentID) (d : TorrentFile) :
    Announced network tid d := by
  by_cases hstatus : (network.get (Peer.announceRequest d)).statusCode = 0 ∨
      400 ≤ (network.get (Peer.announceRequest d)).statusCode
  · have hannounce : Peer.announce network d = .error (.error .announceError) := if_pos hstatus
    exact .silent (hstatus.imp_right .inl) (construct_of_error hannounce tid)
  · obtain ⟨hok, hgood⟩ := not_or.mp hstatus
    have hannounce : Peer.announce network d = parseTrackerResponse network.beyondText
        network.beyondPeers (network.get (Peer.announceRequest d)).text := if_neg hstatus
    unfold parseTrackerResponse at hannounce
    cases hdecode : decode network.beyondText (network.get (Peer.announceRequest d)).text with
    | ok tree => exact announced_of_decode hok (not_le.mp hgood) hdecode tid
    | error stop =>
      have hanswers : ∀ value, ¬ Answers network (Peer.announceRequest d) value := by
        intro value h
        obtain ⟨tree, interval, htree, _⟩ := h.shaped
        rw [hdecode] at htree
        injection htree
      have hsilent := silent_iff hok (not_le.mp hgood)
      simp only [hdecode] at hannounce hsilent
      cases stop with
      | error e => exact .silent (hsilent.mpr ⟨e, rfl⟩) (construct_of_error hannounce tid)
      | throw x =>
        obtain ⟨stop, hconstruct⟩ := construct_of_stop hannounce (by simp) tid
        exact .stopped (by simp [hsilent]) hanswers hconstruct
      | trap =>
        obtain ⟨stop, hconstruct⟩ := construct_of_stop hannounce (by simp) tid
        exact .stopped (by simp [hsilent]) hanswers hconstruct
      | outOfFuel => exact absurd hdecode (decode_ne_outOfFuel _ _)

/-- All that the network decides is which peers there are. -/
theorem construct_eq_create {tid : TorrentID} {t : Torrent} (h : construct network tid d = .ok t) :
    ∃ peers, t = create tid d peers := by
  cases announced network tid d with
  | silent silent eq => exact ⟨[], Except.ok.inj (h.symm.trans eq)⟩
  | answered answers count eq => exact ⟨_, Except.ok.inj (h.symm.trans eq)⟩
  | stopped silent answers eq =>
    rw [h] at eq
    injection eq

end Torrent

end Furrent
