import Furrent.Bencode.Reports
import Furrent.Torrent.Tracker

/-! # Responses of every shape

    What a tracker sends is untrusted. `parse_tracker_response` checks only
    that the text is bencode: a cast or a lookup that fails throws, and a
    list of peers that ends inside of an entry is read past its end. Since
    the loop takes twelve bytes a round and looks at six of them, it gets
    away with a ragged end of six bytes and more. -/

namespace Furrent.Torrent

open Cpp Bencode

/-- The tree has what the reader asks for: an integer `"interval"` and a
    string `"peers"`. -/
def Shaped (tree : BencodeValue) (interval : Int64) (value : Bytes) : Prop :=
  ∃ dict, tree = .dict dict ∧ OrderedMap.find intervalKey dict = some (.int interval) ∧
    OrderedMap.find peersKey dict = some (.string value)

/-- The last round of the loop finds its six bytes. -/
def Whole (value : Bytes) : Prop := value.length % 12 = 0 ∨ 6 ≤ value.length % 12

instance : DecidablePred Whole := fun _ => inferInstanceAs (Decidable (_ ∨ _))

/-- Nothing can be read behind the string of the peers. -/
def nothing : Nat → Option UInt8 := fun _ => none

/-- The rounds of the loop can read the bytes they look at, in the string or
    behind it. -/
def Readable (value : Bytes) (beyond : Nat → Option UInt8) : Prop :=
  ∀ j i, 12 * j < value.length → i < 6 → uncheckedGet value beyond (12 * j + i) ≠ none

variable {value text : Bytes} {it : Nat} {tree : BencodeValue} {interval : Int64}
  {beyond : Nat → Option UInt8}

theorem readable_nothing_iff : Readable value nothing ↔ Whole value := by
  have hget : ∀ it, uncheckedGet value nothing it ≠ none ↔ it < value.length := by
    intro it
    simp [uncheckedGet, nothing]
    cases hit : value[it]? with
    | none => simpa using List.getElem?_eq_none_iff.mp hit
    | some b => simpa using (List.getElem?_eq_some_iff.mp hit).1
  unfold Readable Whole
  simp only [hget]
  constructor
  · intro h
    by_cases hzero : value.length % 12 = 0
    · exact .inl hzero
    · have hlast := h (value.length / 12) 5 (by omega) (by omega)
      omega
  · intro h j i hj hi
    omega

/-! ### The loop -/

theorem deref_of_some {b : UInt8} (h : uncheckedGet value beyond it = some b) :
    deref value beyond it = .ok b := by
  rw [deref, h]

theorem deref_of_none (h : uncheckedGet value beyond it = none) :
    deref value beyond it = .error .trap := by
  rw [deref, h]

/-- An access returns or traps, so what follows it is to blame for anything
    else. -/
theorem deref_bind_trap {α : Type} {f : UInt8 → Outcome PeerError α}
    (h : ∀ b, f b = .error .trap) : (deref value beyond it >>= f) = .error .trap := by
  cases hget : uncheckedGet value beyond it with
  | some b => rw [deref_of_some hget, ok_bind, h]
  | none => rw [deref_of_none hget, error_bind]

/-- A round that can read its six bytes returns. -/
theorem readPeer_of_readable (h : ∀ i < 6, uncheckedGet value beyond (it + i) ≠ none) :
    ∃ peer, readPeer value beyond it = .ok (peer, it + 6) := by
  have hderef : ∀ i < 6, ∃ b, deref value beyond (it + i) = .ok b := by
    intro i hi
    obtain ⟨b, hb⟩ := Option.ne_none_iff_exists'.mp (h i hi)
    exact ⟨b, deref_of_some hb⟩
  obtain ⟨b₀, h₀⟩ := hderef 0 (by omega)
  obtain ⟨b₁, h₁⟩ := hderef 1 (by omega)
  obtain ⟨b₂, h₂⟩ := hderef 2 (by omega)
  obtain ⟨b₃, h₃⟩ := hderef 3 (by omega)
  obtain ⟨b₄, h₄⟩ := hderef 4 (by omega)
  obtain ⟨b₅, h₅⟩ := hderef 5 (by omega)
  rw [Nat.add_zero] at h₀
  rw [readPeer, h₀, h₁, h₂, h₃, h₄, h₅]
  exact ⟨_, rfl⟩

/-- A round that cannot traps. -/
theorem readPeer_of_not_readable {i : Nat} (hi : i < 6)
    (h : uncheckedGet value beyond (it + i) = none) : readPeer value beyond it = .error .trap := by
  have htrap := deref_of_none h
  unfold readPeer
  rcases Nat.lt_or_ge i 3 with hlow | hhigh
  · obtain rfl | rfl | rfl : i = 0 ∨ i = 1 ∨ i = 2 := by omega
    · rw [Nat.add_zero] at htrap
      rw [htrap, error_bind]
    · exact deref_bind_trap fun _ => by rw [htrap, error_bind]
    · exact deref_bind_trap fun _ => deref_bind_trap fun _ => by rw [htrap, error_bind]
  · obtain rfl | rfl | rfl : i = 3 ∨ i = 4 ∨ i = 5 := by omega
    · exact deref_bind_trap fun _ => deref_bind_trap fun _ => deref_bind_trap fun _ => by
        rw [htrap, error_bind]
    · exact deref_bind_trap fun _ => deref_bind_trap fun _ => deref_bind_trap fun _ =>
        deref_bind_trap fun _ => by rw [htrap, error_bind]
    · exact deref_bind_trap fun _ => deref_bind_trap fun _ => deref_bind_trap fun _ =>
        deref_bind_trap fun _ => deref_bind_trap fun _ => by rw [htrap, error_bind]

/-- The loop returns if its rounds find their bytes. -/
theorem peersLoop_of_readable (h : Readable value beyond) (fuel : Nat) {j : Nat}
    (hj : j ≤ (value.length + 11) / 12) (hfuel : (value.length + 11) / 12 < j + fuel)
    (peers : List Peer) :
    ∃ peers', peersLoop value beyond fuel (12 * j) peers = .ok peers' ∧
      peers'.length + j = peers.length + (value.length + 11) / 12 := by
  induction fuel generalizing j peers with
  | zero => omega
  | succ fuel ih =>
    rw [peersLoop]
    by_cases hmore : 12 * j < value.length
    · obtain ⟨peer, hpeer⟩ := readPeer_of_readable fun i hi => h j i hmore hi
      obtain ⟨peers', hloop, hlength⟩ := ih (j := j + 1) (by omega) (by omega) (peers ++ [peer])
      rw [if_pos hmore, hpeer, ok_bind]
      refine ⟨peers', hloop, ?_⟩
      rw [List.length_append, List.length_singleton] at hlength
      omega
    · rw [if_neg hmore]
      exact ⟨peers, rfl, by omega⟩

/-- Otherwise it traps, in the first round that does not. -/
theorem peersLoop_of_not_readable {i k : Nat} (hk : 12 * k < value.length) (hi : i < 6)
    (h : uncheckedGet value beyond (12 * k + i) = none) (fuel : Nat) {j : Nat} (hj : j ≤ k)
    (hfuel : (value.length + 11) / 12 < j + fuel) (peers : List Peer) :
    peersLoop value beyond fuel (12 * j) peers = .error .trap := by
  induction fuel generalizing j peers with
  | zero => omega
  | succ fuel ih =>
    rw [peersLoop, if_pos (by omega)]
    by_cases hround : ∀ i < 6, uncheckedGet value beyond (12 * j + i) ≠ none
    · obtain ⟨peer, hpeer⟩ := readPeer_of_readable hround
      have hne : j ≠ k := by
        rintro rfl
        exact hround i hi h
      rw [hpeer, ok_bind]
      exact ih (j := j + 1) (by omega) (by omega) _
    · push Not at hround
      obtain ⟨i', hi', hnone⟩ := hround
      rw [readPeer_of_not_readable hi' hnone, error_bind]

/-! ### The tree -/

theorem readResponse_of_shaped (h : Shaped tree interval value) :
    readResponse beyond tree = (do
      let peers ← peersLoop value beyond (value.length + 1) 0 []
      .ok ⟨interval, peers⟩) := by
  obtain ⟨dict, rfl, hinterval, hpeers⟩ := h
  rw [readResponse, asDict_eq_ok.mpr rfl, ok_bind, intAt_eq_ok.mpr hinterval, ok_bind,
    stringAt_eq_ok.mpr hpeers, ok_bind]

/-- Every lookup and every cast that fails throws. -/
theorem readResponse_of_not_shaped (h : ∀ interval value, ¬ Shaped tree interval value) :
    ∃ x, readResponse beyond tree = .error (.throw x) := by
  have hthrows : ReturnsOrThrows (fun _ => False) (readResponse beyond tree) := by
    unfold readResponse
    apply asDict_throws.bind
    intro dict hdict _
    apply intAt_throws.bind
    intro interval hinterval _
    apply stringAt_throws.bind
    intro value hpeers _
    have hshaped : Shaped tree interval value :=
      ⟨dict, asDict_eq_ok.mp hdict, intAt_eq_ok.mp hinterval, stringAt_eq_ok.mp hpeers⟩
    exact absurd hshaped (h interval value)
  rcases hthrows.cases with ⟨_, _, hfalse⟩ | hthrow
  · exact hfalse.elim
  · exact hthrow

/-- What comes of a tree. -/
inductive Reading (beyond : Nat → Option UInt8) (tree : BencodeValue) : Prop where
  | returns {interval : Int64} {value : Bytes} {result : Announce}
      (shaped : Shaped tree interval value) (readable : Readable value beyond)
      (eq : readResponse beyond tree = .ok result)
      (count : result.peers.length = (value.length + 11) / 12)
  | overruns {interval : Int64} {value : Bytes} (shaped : Shaped tree interval value)
      (cut : ¬ Readable value beyond) (eq : readResponse beyond tree = .error .trap)
  | throws {x : StdException} (unshaped : ∀ interval value, ¬ Shaped tree interval value)
      (eq : readResponse beyond tree = .error (.throw x))

theorem reading (beyond : Nat → Option UInt8) (tree : BencodeValue) : Reading beyond tree := by
  by_cases hshaped : ∃ interval value, Shaped tree interval value
  · obtain ⟨interval, value, hshaped⟩ := hshaped
    have heq : readResponse beyond tree = _ := readResponse_of_shaped hshaped
    by_cases hreadable : Readable value beyond
    · obtain ⟨peers, hloop, hcount⟩ :=
        peersLoop_of_readable hreadable (value.length + 1) (Nat.zero_le _) (by omega) []
      rw [Nat.mul_zero] at hloop
      rw [hloop, ok_bind] at heq
      exact .returns hshaped hreadable heq (by simpa using hcount)
    · have hcut := hreadable
      unfold Readable at hcut
      push Not at hcut
      obtain ⟨k, i, hk, hi, hnone⟩ := hcut
      have hloop := peersLoop_of_not_readable hk hi hnone (value.length + 1) (Nat.zero_le k)
        (by omega) []
      rw [Nat.mul_zero] at hloop
      rw [hloop, error_bind] at heq
      exact .overruns hshaped hreadable heq
  · simp only [not_exists] at hshaped
    obtain ⟨x, heq⟩ : ∃ x, readResponse beyond tree = .error (.throw x) :=
      readResponse_of_not_shaped hshaped
    exact .throws hshaped heq

theorem Shaped.value_eq {interval' : Int64} {value' : Bytes} (h : Shaped tree interval value)
    (h' : Shaped tree interval' value') : value = value' := by
  obtain ⟨dict, rfl, _, hpeers⟩ := h
  obtain ⟨dict', hdict, _, hpeers'⟩ := h'
  injection hdict with hdict
  rw [← hdict, hpeers] at hpeers'
  injection hpeers' with hvalue
  injection hvalue

theorem readResponse_throws_iff :
    (∃ x, readResponse nothing tree = .error (.throw x)) ↔
      ∀ interval value, ¬ Shaped tree interval value := by
  cases reading nothing tree with
  | returns shaped readable eq count => simpa [eq] using ⟨_, _, shaped⟩
  | overruns shaped cut eq => simpa [eq] using ⟨_, _, shaped⟩
  | throws unshaped eq => simpa [eq] using unshaped

theorem readResponse_traps_iff :
    readResponse nothing tree = .error .trap ↔
      ∃ interval value, Shaped tree interval value ∧ ¬ Whole value := by
  simp only [← readable_nothing_iff]
  cases reading nothing tree with
  | returns shaped readable eq count =>
    rw [eq]
    refine ⟨fun h => by injection h, ?_⟩
    rintro ⟨interval, value, hshaped, hcut⟩
    rw [← shaped.value_eq hshaped] at hcut
    exact absurd readable hcut
  | overruns shaped cut eq => exact ⟨fun _ => ⟨_, _, shaped, cut⟩, fun _ => eq⟩
  | throws unshaped eq => simp [eq, unshaped]

theorem readResponse_reports_iff :
    Reports (readResponse nothing tree) ↔
      ∃ interval value, Shaped tree interval value ∧ Whole value := by
  simp only [← readable_nothing_iff]
  cases reading nothing tree with
  | returns shaped readable eq count =>
    rw [eq]
    exact ⟨fun _ => ⟨_, _, shaped, readable⟩, fun _ => .inl ⟨_, rfl⟩⟩
  | overruns shaped cut eq =>
    rw [eq]
    refine ⟨by simp [Reports], ?_⟩
    rintro ⟨interval, value, hshaped, hreadable⟩
    rw [← shaped.value_eq hshaped] at hreadable
    exact absurd hreadable cut
  | throws unshaped eq => simp [eq, unshaped, Reports]

/-! ### The text -/

/-- For every text and whatever lies behind it in memory. An exception
    escapes when the parser throws, and when the tree is not of the shape
    that is asked for; the string of the peers is left when its last round
    is cut off. Only in what remains is the response handled as data. -/
theorem parseTrackerResponse_reports_iff (beyondText : Nat → Option UInt8) (text : Bytes) :
    ((∃ x, parseTrackerResponse beyondText nothing text = .error (.throw x)) ↔
      (∃ x, decode beyondText text = .error (.throw x)) ∨
      ∃ tree, decode beyondText text = .ok tree ∧ ∀ interval value, ¬ Shaped tree interval value) ∧
    (parseTrackerResponse beyondText nothing text = .error .trap ↔
      decode beyondText text = .error .trap ∨
      ∃ tree interval value, decode beyondText text = .ok tree ∧ Shaped tree interval value ∧
        ¬ Whole value) ∧
    (Reports (parseTrackerResponse beyondText nothing text) ↔
      (∃ e, decode beyondText text = .error (.error e)) ∨
      ∃ tree interval value, decode beyondText text = .ok tree ∧ Shaped tree interval value ∧
        Whole value) := by
  have hfuel := decode_ne_outOfFuel beyondText text
  unfold parseTrackerResponse
  cases hdecode : decode beyondText text with
  | ok tree =>
    simp only [Except.ok.injEq, reduceCtorEq, exists_false, false_or, exists_eq_left',
      exists_and_left]
    exact ⟨readResponse_throws_iff, readResponse_traps_iff, readResponse_reports_iff⟩
  | error stop =>
    cases stop with
    | error e => simp [Reports]
    | throw x => simp [Reports]
    | trap => simp [Reports]
    | outOfFuel => exact absurd hdecode hfuel

/-- `i1e` is not a dictionary; `de` has no `"interval"`; in
    `d8:intervali9223372036854775808ee` it is too large; and a list of peers
    of one byte is read past its end. -/
theorem parseTrackerResponse_malformed :
    parseTrackerResponse nothing nothing [105, 49, 101] = .error (.throw .badCast) ∧
    parseTrackerResponse nothing nothing [100, 101] = .error (.throw (.outOfRange "map::at")) ∧
    parseTrackerResponse nothing nothing [100, 56, 58, 105, 110, 116, 101, 114, 118, 97, 108, 105,
      57, 50, 50, 51, 51, 55, 50, 48, 51, 54, 56, 53, 52, 55, 55, 53, 56, 48, 56, 101, 101]
        = .error (.throw (.outOfRange "stol")) ∧
    parseTrackerResponse nothing nothing (encode (response [192])) = .error .trap := by
  refine ⟨rfl, rfl, rfl, ?_⟩
  rw [parseTrackerResponse, decode_response _ _ (by decide)]
  rfl

end Furrent.Torrent
