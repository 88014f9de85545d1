import Furrent.Bencode.Access
import Furrent.Bencode.RoundTrip
import Furrent.Torrent.Torrent

/-! # The response of the tracker

    Model of `parse_tracker_response` in `src/peer.cpp`. The peers come as
    one string, with six bytes for each: four for the address and two for
    the port, both big-endian. `char` is unsigned.

    A round of the loop takes its six bytes with `*(it++)`, and then the
    loop header adds six to the same iterator. So every second peer is
    skipped. -/

namespace Furrent.Torrent

open Cpp Bencode Numeral

/-- `Announce`. -/
structure Announce where
  interval : Int64
  peers : List Peer
  deriving DecidableEq, Repr

/-- `PeerError`. -/
inductive PeerError where
  | parserError
  | announceError
  deriving DecidableEq, Repr

/-! ### The code -/

/-- `"interval"`. -/
def intervalKey : Bytes := [105, 110, 116, 101, 114, 118, 97, 108]

/-- `"peers"`. -/
def peersKey : Bytes := [112, 101, 101, 114, 115]

/-- `*it`, for an iterator into the string. -/
def deref (value : Bytes) (beyond : Nat → Option UInt8) (it : Nat) : Outcome PeerError UInt8 :=
  match uncheckedGet value beyond it with
  | some b => .ok b
  | none => .error .trap

/-- The body of the loop; it moves the iterator on by six. -/
def readPeer (value : Bytes) (beyond : Nat → Option UInt8) (it : Nat) :
    Outcome PeerError (Peer × Nat) := do
  let b₀ ← deref value beyond it
  let b₁ ← deref value beyond (it + 1)
  let b₂ ← deref value beyond (it + 2)
  let b₃ ← deref value beyond (it + 3)
  let ip := b₀.toUInt32 <<< 24 ||| b₁.toUInt32 <<< 16 ||| b₂.toUInt32 <<< 8 ||| b₃.toUInt32
  let b₄ ← deref value beyond (it + 4)
  let b₅ ← deref value beyond (it + 5)
  let port := b₄.toUInt16 <<< 8 ||| b₅.toUInt16
  .ok (⟨ip, port⟩, it + 6)

/-- The loop. Each round moves the iterator on, so there are at most as many
    rounds as bytes. -/
def peersLoop (value : Bytes) (beyond : Nat → Option UInt8) :
    Nat → Nat → List Peer → Outcome PeerError (List Peer)
  | 0, _, _ => .error .outOfFuel
  | fuel + 1, it, peers =>
    if it < value.length then do
      let (peer, it) ← readPeer value beyond it
      peersLoop value beyond fuel (it + 6) (peers ++ [peer])
    else .ok peers

/-- What follows when the text has been decoded. -/
def readResponse (beyond : Nat → Option UInt8) (tree : BencodeValue) :
    Outcome PeerError Announce := do
  let dict ← tree.asDict
  let interval ← intAt dict intervalKey
  let value ← stringAt dict peersKey
  let peers ← peersLoop value beyond (value.length + 1) 0 []
  .ok ⟨interval, peers⟩

/-- `parse_tracker_response`. The memory after `text` and that after the
    string of the peers hold `beyondText` and `beyond`. -/
def parseTrackerResponse (beyondText beyond : Nat → Option UInt8) (text : Bytes) :
    Outcome PeerError Announce :=
  match decode beyondText text with
  | .ok tree => readResponse beyond tree
  | .error (.error _) => .error (.error .parserError)
  | .error (.throw x) => .error (.throw x)
  | .error .trap => .error .trap
  | .error .outOfFuel => .error .outOfFuel

/-! ### Compact lists of peers -/

/-- What a string of `k` compact entries stands for. -/
structure CompactList (value : Bytes) (k : Nat) (peers : List Peer) : Prop where
  length : peers.length = k
  ip : ∀ i peer, peers[i]? = some peer →
    peer.ip.toNat = bigEndianValue ((value.drop (6 * i)).take 4)
  port : ∀ i peer, peers[i]? = some peer →
    peer.port.toNat = bigEndianValue ((value.drop (6 * i + 4)).take 2)

/-- The entry at byte `it`. -/
def compactPeer (value : Bytes) (it : Nat) : Peer where
  ip := UInt32.ofNat (bigEndianValue ((value.drop it).take 4))
  port := UInt16.ofNat (bigEndianValue ((value.drop (it + 4)).take 2))

variable {value : Bytes} {it : Nat}

/-! ### Octets -/

theorem or_eq_add {x y : Nat} (k : Nat) (hx : 2 ^ k ∣ x) (hy : y < 2 ^ k) : x ||| y = x + y := by
  obtain ⟨a, rfl⟩ := hx
  exact (Nat.two_pow_add_eq_or_of_lt hy a).symm

theorem toNat_shifted (b : UInt8) {k : UInt32} (hk : k.toNat + 8 ≤ 32) :
    (b.toUInt32 <<< k).toNat = b.toNat * 2 ^ k.toNat := by
  have hb := b.toNat_lt
  have hword : b.toNat * 2 ^ k.toNat < 2 ^ 32 :=
    calc b.toNat * 2 ^ k.toNat < 2 ^ 8 * 2 ^ k.toNat :=
          Nat.mul_lt_mul_of_pos_right hb (Nat.two_pow_pos _)
      _ = 2 ^ (k.toNat + 8) := by rw [pow_add, Nat.mul_comm]
      _ ≤ 2 ^ 32 := Nat.pow_le_pow_right (by omega) hk
  rw [UInt32.toNat_shiftLeft, UInt8.toNat_toUInt32, Nat.shiftLeft_eq,
    Nat.mod_eq_of_lt (by omega : k.toNat < 32), Nat.mod_eq_of_lt hword]

/-- The octets lie in different bits, so `|=` adds them up. -/
theorem toNat_ip (b₀ b₁ b₂ b₃ : UInt8) :
    (b₀.toUInt32 <<< 24 ||| b₁.toUInt32 <<< 16 ||| b₂.toUInt32 <<< 8 ||| b₃.toUInt32).toNat
      = bigEndianValue [b₀, b₁, b₂, b₃] := by
  have h₀ := b₀.toNat_lt
  have h₁ := b₁.toNat_lt
  have h₂ := b₂.toNat_lt
  have h₃ := b₃.toNat_lt
  have h24 : (24 : UInt32).toNat = 24 := rfl
  have h16 : (16 : UInt32).toNat = 16 := rfl
  have h8 : (8 : UInt32).toNat = 8 := rfl
  have hfirst : b₀.toNat * 2 ^ 24 ||| b₁.toNat * 2 ^ 16 = b₀.toNat * 2 ^ 24 + b₁.toNat * 2 ^ 16 :=
    or_eq_add 24 (by omega) (by omega)
  have hsecond : b₀.toNat * 2 ^ 24 + b₁.toNat * 2 ^ 16 ||| b₂.toNat * 2 ^ 8
      = b₀.toNat * 2 ^ 24 + b₁.toNat * 2 ^ 16 + b₂.toNat * 2 ^ 8 :=
    or_eq_add 16 (by omega) (by omega)
  rw [UInt32.toNat_or, UInt32.toNat_or, UInt32.toNat_or, toNat_shifted b₀ (by decide),
    toNat_shifted b₁ (by decide), toNat_shifted b₂ (by decide), UInt8.toNat_toUInt32, h24, h16, h8,
    hfirst, hsecond, or_eq_add 8 (by omega) (by omega)]
  simp only [bigEndianValue, List.foldl_cons, List.foldl_nil]
  omega

theorem toNat_port (b₀ b₁ : UInt8) :
    (b₀.toUInt16 <<< 8 ||| b₁.toUInt16).toNat = bigEndianValue [b₀, b₁] := by
  have h₀ := b₀.toNat_lt
  have h₁ := b₁.toNat_lt
  have h8 : (8 : UInt16).toNat % 16 = 8 := rfl
  rw [UInt16.toNat_or, UInt16.toNat_shiftLeft, UInt8.toNat_toUInt16, UInt8.toNat_toUInt16,
    Nat.shiftLeft_eq, h8, Nat.mod_eq_of_lt (by omega), or_eq_add 8 (by omega) (by omega)]
  simp only [bigEndianValue, List.foldl_cons, List.foldl_nil]
  omega

theorem toNat_compactPeer_ip (value : Bytes) (it : Nat) :
    (compactPeer value it).ip.toNat = bigEndianValue ((value.drop it).take 4) := by
  have hlt := bigEndianValue_lt ((value.drop it).take 4)
  have hword : 256 ^ ((value.drop it).take 4).length ≤ 256 ^ 4 :=
    Nat.pow_le_pow_right (by omega) (List.length_take_le _ _)
  rw [compactPeer, UInt32.toNat_ofNat', Nat.mod_eq_of_lt (by omega)]

theorem toNat_compactPeer_port (value : Bytes) (it : Nat) :
    (compactPeer value it).port.toNat = bigEndianValue ((value.drop (it + 4)).take 2) := by
  have hlt := bigEndianValue_lt ((value.drop (it + 4)).take 2)
  have hword : 256 ^ ((value.drop (it + 4)).take 2).length ≤ 256 ^ 2 :=
    Nat.pow_le_pow_right (by omega) (List.length_take_le _ _)
  rw [compactPeer, UInt16.toNat_ofNat', Nat.mod_eq_of_lt (by omega)]

/-! ### The loop -/

theorem exists_six {l : Bytes} (h : 6 ≤ l.length) :
    ∃ b₀ b₁ b₂ b₃ b₄ b₅ rest, l = b₀ :: b₁ :: b₂ :: b₃ :: b₄ :: b₅ :: rest := by
  match l, h with
  | b₀ :: b₁ :: b₂ :: b₃ :: b₄ :: b₅ :: rest, _ => exact ⟨b₀, b₁, b₂, b₃, b₄, b₅, rest, rfl⟩

theorem deref_of_drop (beyond : Nat → Option UInt8) {k : Nat} {b : UInt8}
    (h : (value.drop it)[k]? = some b) : deref value beyond (it + k) = .ok b := by
  rw [List.getElem?_drop] at h
  rw [deref, uncheckedGet, h]

/-- Inside of the string a round reads one entry. -/
theorem readPeer_of_le (beyond : Nat → Option UInt8) (h : it + 6 ≤ value.length) :
    readPeer value beyond it = .ok (compactPeer value it, it + 6) := by
  obtain ⟨b₀, b₁, b₂, b₃, b₄, b₅, rest, hdrop⟩ := exists_six (l := value.drop it)
    (by rw [List.length_drop]; omega)
  have hderef : ∀ k b, (b₀ :: b₁ :: b₂ :: b₃ :: b₄ :: b₅ :: rest)[k]? = some b →
      deref value beyond (it + k) = .ok b := by
    intro k b hb
    rw [← hdrop] at hb
    exact deref_of_drop beyond hb
  have hpeer : compactPeer value it
      = ⟨b₀.toUInt32 <<< 24 ||| b₁.toUInt32 <<< 16 ||| b₂.toUInt32 <<< 8 ||| b₃.toUInt32,
        b₄.toUInt16 <<< 8 ||| b₅.toUInt16⟩ := by
    have hip : (value.drop it).take 4 = [b₀, b₁, b₂, b₃] := by
      rw [hdrop]
      rfl
    have hport : (value.drop (it + 4)).take 2 = [b₄, b₅] := by
      rw [← List.drop_drop, hdrop]
      rfl
    rw [compactPeer, hip, hport, ← toNat_ip, ← toNat_port, UInt32.ofNat_toNat, UInt16.ofNat_toNat]
  have hfirst := hderef 0 b₀ rfl
  rw [Nat.add_zero] at hfirst
  rw [readPeer, hfirst, hderef 1 b₁ rfl, hderef 2 b₂ rfl, hderef 3 b₃ rfl, hderef 4 b₄ rfl,
    hderef 5 b₅ rfl, hpeer]
  rfl

/-- A string of `k` entries is read in `(k + 1) / 2` rounds, of which round
    `j` reads entry `2 * j`. -/
theorem peersLoop_eq (beyond : Nat → Option UInt8) {k : Nat} (hlength : value.length = 6 * k)
    (fuel : Nat) {j : Nat} (hj : j ≤ (k + 1) / 2) (hfuel : (k + 1) / 2 < j + fuel)
    (peers : List Peer) :
    peersLoop value beyond fuel (12 * j) peers
      = .ok (peers ++
        (List.range' j ((k + 1) / 2 - j)).map fun j => compactPeer value (12 * j)) := by
  induction fuel generalizing j peers with
  | zero => omega
  | succ fuel ih =>
    rw [peersLoop]
    by_cases hmore : j < (k + 1) / 2
    · rw [if_pos (by omega), readPeer_of_le beyond (by omega), ok_bind]
      have hrounds : (k + 1) / 2 - j = (k + 1) / 2 - (j + 1) + 1 := by omega
      have hnext := ih (j := j + 1) (by omega) (by omega) (peers ++ [compactPeer value (12 * j)])
      rw [Nat.mul_add] at hnext
      rw [hrounds, List.range'_succ, List.map_cons, ← List.singleton_append, ← List.append_assoc]
      exact hnext
    · have hdone : (k + 1) / 2 - j = 0 := by omega
      rw [if_neg (by omega), hdone, List.range'_zero, List.map_nil, List.append_nil]

/-- The peers of a response whose string has `k` entries. -/
theorem readResponse_eq (beyond : Nat → Option UInt8) {dict : List (Bytes × BencodeValue)}
    {interval : Int64} {k : Nat}
    (hinterval : OrderedMap.find intervalKey dict = some (.int interval))
    (hpeers : OrderedMap.find peersKey dict = some (.string value))
    (hlength : value.length = 6 * k) :
    readResponse beyond (.dict dict) = .ok ⟨interval,
      (List.range' 0 ((k + 1) / 2)).map fun j => compactPeer value (12 * j)⟩ := by
  have hloop := peersLoop_eq beyond hlength (value.length + 1) (Nat.zero_le _) (by omega) []
  rw [Nat.mul_zero] at hloop
  rw [readResponse, asDict_eq_ok.mpr rfl, ok_bind, intAt_eq_ok.mpr hinterval, ok_bind,
    stringAt_eq_ok.mpr hpeers, ok_bind, hloop]
  rfl

variable {text : Bytes} {dict : List (Bytes × BencodeValue)} {interval : Int64} {k : Nat}
  {beyondText : Nat → Option UInt8}

/-- Whatever the memory holds, for every response with an integer
    `"interval"` and a string of `k` entries as `"peers"`: the entries at
    even positions are returned, in order. This is the list only if it has
    one entry at most. -/
theorem parseTrackerResponse_compact (beyond : Nat → Option UInt8)
    (hdecode : decode beyondText text = .ok (.dict dict))
    (hinterval : OrderedMap.find intervalKey dict = some (.int interval))
    (hpeers : OrderedMap.find peersKey dict = some (.string value))
    (hlength : value.length = 6 * k) :
    ∃ peers, parseTrackerResponse beyondText beyond text = .ok ⟨interval, peers⟩ ∧
      peers = (List.range' 0 ((k + 1) / 2)).map (fun j => compactPeer value (12 * j)) ∧
      (CompactList value k peers ↔ k ≤ 1) := by
  refine ⟨_, ?_, rfl, ?_⟩
  · rw [parseTrackerResponse, hdecode]
    exact readResponse_eq beyond hinterval hpeers hlength
  · constructor
    · intro hcompact
      have hcount := hcompact.length
      rw [List.length_map, List.length_range'] at hcount
      omega
    · intro hk
      -- There is no entry, or the first one.
      have hentry : ∀ i peer, ((List.range' 0 ((k + 1) / 2)).map
          fun j => compactPeer value (12 * j))[i]? = some peer →
            peer = compactPeer value (6 * i) := by
        intro i peer hpeer
        obtain ⟨hi, heq⟩ := List.getElem?_eq_some_iff.mp hpeer
        rw [List.length_map, List.length_range'] at hi
        have hzero : i = 0 := by omega
        subst hzero
        rw [← heq, List.getElem_map, List.getElem_range']
      constructor
      · rw [List.length_map, List.length_range']
        omega
      · intro i peer hpeer
        rw [hentry i peer hpeer, toNat_compactPeer_ip]
      · intro i peer hpeer
        rw [hentry i peer hpeer, toNat_compactPeer_port]

/-- A response: its interval is 900 seconds. -/
def response (value : Bytes) : BencodeValue :=
  .dict [(intervalKey, .int 900), (peersKey, .string value)]

theorem decode_response (beyond : Nat → Option UInt8) (value : Bytes)
    (hsize : (encode (response value)).length ≤ INT64_MAX) :
    decode beyond (encode (response value)) = .ok (response value) := by
  apply decode_encode _ beyond _ hsize
  · apply BencodeValue.WellFormed.dict
    · intro entry hentry
      rcases List.mem_cons.mp hentry with heq | hentry
      · rw [heq]
        exact .int 900
      · rw [List.mem_singleton.mp hentry]
        exact .string value
    · show List.Pairwise (· < ·) [intervalKey, peersKey]
      decide
  · simp [response]

/-- One peer, 192.0.2.123:6881. -/
theorem parseTrackerResponse_one_peer : ∃ peers,
    parseTrackerResponse (fun _ => none) (fun _ => none)
      (encode (response [192, 0, 2, 123, 26, 225])) = .ok ⟨900, peers⟩ ∧
    CompactList [192, 0, 2, 123, 26, 225] 1 peers := by
  obtain ⟨peers, hparse, _, hiff⟩ := parseTrackerResponse_compact (k := 1) (fun _ => none)
    (decode_response (fun _ => none) [192, 0, 2, 123, 26, 225] (by decide)) rfl rfl rfl
  exact ⟨peers, hparse, hiff.mpr (le_refl 1)⟩

/-- Of two peers, 192.0.2.123:6881 and 192.0.2.124:6882, the second is lost. -/
theorem parseTrackerResponse_two_peers :
    parseTrackerResponse (fun _ => none) (fun _ => none)
      (encode (response [192, 0, 2, 123, 26, 225, 192, 0, 2, 124, 26, 226]))
        = .ok ⟨900, [⟨0xC000027B, 6881⟩]⟩ ∧
    ¬ CompactList [192, 0, 2, 123, 26, 225, 192, 0, 2, 124, 26, 226] 2 [⟨0xC000027B, 6881⟩] := by
  constructor
  · rw [parseTrackerResponse, decode_response _ _ (by decide)]
    decide +kernel
  · intro hcompact
    exact absurd hcompact.length (by decide)

end Furrent.Torrent
