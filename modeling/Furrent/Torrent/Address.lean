import Furrent.Framework.Pattern
import Furrent.Torrent.Tracker

/-! # Addresses

    Model of `Peer::address` and of the constructor of `Peer` from a string
    in `src/peer.cpp`. The regular expression asks for four numerals, of any
    length. `std::stoi` throws when one of them does not fit an `int`, and
    whatever it returns is shifted into place: a number over 255 spills into
    the octets in front of it, or out of the word. -/

namespace Furrent.Peer

open Cpp Bencode Numeral Pattern Torrent

/-! ### The code -/

/-- `'.'`. -/
def charDot : UInt8 := 46

/-- `Peer::address`. -/
def address (p : Peer) : Bytes :=
  decimal ((p.ip >>> 24) &&& 0xFF).toNat ++ charDot :: (decimal ((p.ip >>> 16) &&& 0xFF).toNat ++
    charDot :: (decimal ((p.ip >>> 8) &&& 0xFF).toNat ++
    charDot :: (decimal (p.ip &&& 0xFF).toNat ++ charColon :: decimal p.port.toNat)))

/-- `\s*(\d+)\.(\d+)\.(\d+)\.(\d+)\s*` -/
def ipRegex : List (Atom UInt8) :=
  [.star isSpace, .plus isDigit, .symbol charDot, .plus isDigit, .symbol charDot, .plus isDigit,
    .symbol charDot, .plus isDigit, .star isSpace]

/-- The loop over the groups of the match, from the `i`-th on. -/
def octetsLoop : Nat → List Bytes → UInt32 → Outcome Empty UInt32
  | _, [], ip => .ok ip
  | i, group :: groups, ip =>
    match stoi group with
    | .ok octet => octetsLoop (i + 1) groups (ip ||| octet.toUInt32 <<< UInt32.ofNat (8 * (4 - i)))
    | .error x => .error (.throw x)

/-- `Peer(ip_s, port)`. -/
def ofString (s : Bytes) (port : UInt16) : Outcome Empty Peer :=
  match run ipRegex s with
  | some [_, g₁, _, g₂, _, g₃, _, g₄, _] => do
    let ip ← octetsLoop 1 [g₁, g₂, g₃, g₄] 0
    .ok ⟨ip, port⟩
  | _ => .error (.throw (.invalidArgument "not a valid ip"))

/-! ### Dotted quads -/

/-- Four numerals separated by dots, between white space. -/
structure Numerals (s n₁ n₂ n₃ n₄ : Bytes) : Prop where
  text : ∃ before after,
    s = before ++ (n₁ ++ charDot :: (n₂ ++ charDot :: (n₃ ++ charDot :: (n₄ ++ after)))) ∧
    (∀ b ∈ before, isSpace b = true) ∧ ∀ b ∈ after, isSpace b = true
  first : IsNumeral n₁
  second : IsNumeral n₂
  third : IsNumeral n₃
  fourth : IsNumeral n₄

/-- The values of the four numerals. -/
def DottedQuad (s : Bytes) (a b c d : Nat) : Prop :=
  ∃ n₁ n₂ n₃ n₄, Numerals s n₁ n₂ n₃ n₄ ∧
    value n₁ = a ∧ value n₂ = b ∧ value n₃ = c ∧ value n₄ = d

/-- The address of the four octets, and the port. -/
def dotted (a b c d : Nat) (port : UInt16) : Bytes :=
  decimal a ++ charDot :: (decimal b ++ charDot :: (decimal c ++ charDot :: (decimal d ++
    charColon :: decimal port.toNat)))

/-- What stands in front of the colon. -/
def ipPart (address : Bytes) : Bytes := address.takeWhile (· ≠ charColon)

variable {s n₁ n₂ n₃ n₄ : Bytes} {a b c d a' b' c' d' : Nat} {port : UInt16}

/-! ### The match -/

theorem ipRegex_deterministic : Deterministic ipRegex := by
  have hdot : ∀ b : UInt8, isDigit b = true → b ≠ charDot := by
    rintro b hb rfl
    exact absurd hb (by decide)
  refine ⟨?_, hdot, hdot, hdot, ?_, ?_, trivial⟩
  · intro b hspace hdigit
    rw [isSpace_of_isDigit hdigit] at hspace
    exact Bool.false_ne_true hspace
  · intro b hdigit hspace
    rcases hspace with hspace | hnone
    · rw [isSpace_of_isDigit hdigit] at hspace
      exact Bool.false_ne_true hspace
    · exact hnone
  · intro b _ hnone
    exact hnone

theorem matches_iff {parts : List Bytes} :
    Matches ipRegex s parts ↔ ∃ before n₁ n₂ n₃ n₄ after,
      parts = [before, n₁, [charDot], n₂, [charDot], n₃, [charDot], n₄, after] ∧
      s = before ++ (n₁ ++ charDot :: (n₂ ++ charDot :: (n₃ ++ charDot :: (n₄ ++ after)))) ∧
      (∀ b ∈ before, isSpace b = true) ∧ (∀ b ∈ after, isSpace b = true) ∧
      IsNumeral n₁ ∧ IsNumeral n₂ ∧ IsNumeral n₃ ∧ IsNumeral n₄ := by
  constructor
  · rintro ⟨rfl, haccepts⟩
    simp only [ipRegex, List.forall₂_cons_left_iff, List.forall₂_nil_left_iff] at haccepts
    obtain ⟨before, _, hbefore, ⟨n₁, _, h₁, ⟨_, _, rfl, ⟨n₂, _, h₂, ⟨_, _, rfl, ⟨n₃, _, h₃,
      ⟨_, _, rfl, ⟨n₄, _, h₄, ⟨after, _, hafter, rfl, rfl⟩, rfl⟩, rfl⟩, rfl⟩, rfl⟩, rfl⟩, rfl⟩,
      rfl⟩, rfl⟩ := haccepts
    exact ⟨before, n₁, n₂, n₃, n₄, after, rfl, by simp, hbefore, hafter, h₁, h₂, h₃, h₄⟩
  · rintro ⟨before, n₁, n₂, n₃, n₄, after, rfl, rfl, hbefore, hafter, h₁, h₂, h₃, h₄⟩
    refine ⟨by simp, ?_⟩
    exact .cons hbefore (.cons h₁ (.cons rfl (.cons h₂ (.cons rfl (.cons h₃ (.cons rfl
      (.cons h₄ (.cons hafter .nil))))))))

theorem Numerals.run (h : Numerals s n₁ n₂ n₃ n₄) :
    ∃ before after, Pattern.run ipRegex s =
      some [before, n₁, [charDot], n₂, [charDot], n₃, [charDot], n₄, after] := by
  obtain ⟨before, after, hs, hbefore, hafter⟩ := h.text
  refine ⟨before, after, (run_eq_some_iff ipRegex_deterministic).mpr (matches_iff.mpr ?_)⟩
  exact ⟨before, n₁, n₂, n₃, n₄, after, rfl, hs, hbefore, hafter, h.first, h.second, h.third,
    h.fourth⟩

theorem numerals_of_run {parts : List Bytes} (h : Pattern.run ipRegex s = some parts) :
    ∃ n₁ n₂ n₃ n₄, Numerals s n₁ n₂ n₃ n₄ := by
  obtain ⟨before, n₁, n₂, n₃, n₄, after, _, hs, hbefore, hafter, h₁, h₂, h₃, h₄⟩ :=
    matches_iff.mp ((run_eq_some_iff ipRegex_deterministic).mp h)
  exact ⟨n₁, n₂, n₃, n₄, ⟨before, after, hs, hbefore, hafter⟩, h₁, h₂, h₃, h₄⟩

/-- A string is a dotted quad in one way at most. -/
theorem DottedQuad.unique (h : DottedQuad s a b c d) (h' : DottedQuad s a' b' c' d') :
    a = a' ∧ b = b' ∧ c = c' ∧ d = d' := by
  obtain ⟨n₁, n₂, n₃, n₄, hn, rfl, rfl, rfl, rfl⟩ := h
  obtain ⟨m₁, m₂, m₃, m₄, hm, rfl, rfl, rfl, rfl⟩ := h'
  obtain ⟨before, after, hrun⟩ := hn.run
  obtain ⟨before', after', hrun'⟩ := hm.run
  rw [hrun] at hrun'
  simp only [Option.some.injEq, List.cons.injEq] at hrun'
  obtain ⟨_, rfl, _, rfl, _, rfl, _, rfl, _⟩ := hrun'
  exact ⟨rfl, rfl, rfl, rfl⟩

/-! ### The constructor -/

/-- The loop over the numbers, from the `i`-th on. -/
def assemble : Nat → List Nat → UInt32 → UInt32
  | _, [], ip => ip
  | i, o :: octets, ip =>
    assemble (i + 1) octets (ip ||| UInt32.ofNat o <<< UInt32.ofNat (8 * (4 - i)))

/-- Of numerals that fit an `int`, the word is made; otherwise `std::stoi`
    throws. -/
theorem octetsLoop_eq {groups : List Bytes} (h : ∀ g ∈ groups, IsNumeral g) (i : Nat)
    (ip : UInt32) :
    octetsLoop i groups ip = if ∀ o ∈ groups.map value, o < 2 ^ 31
      then .ok (assemble i (groups.map value) ip) else .error (.throw (.outOfRange "stoi")) := by
  induction groups generalizing i ip with
  | nil => simp [octetsLoop, assemble]
  | cons g groups ih =>
    rw [octetsLoop, stoi_of_isNumeral (h g (by simp))]
    by_cases hfits : value g < 2 ^ 31
    · simp only [List.map_cons, List.forall_mem_cons, hfits, if_true, true_and, assemble,
        Int32.toUInt32_ofNat']
      exact ih (fun g' hg' => h g' (by simp [hg'])) _ _
    · simp only [List.map_cons, List.forall_mem_cons, hfits, if_false, false_and]

theorem ofString_of_quad (h : DottedQuad s a b c d) (port : UInt16) :
    ofString s port = if ∀ o ∈ [a, b, c, d], o < 2 ^ 31
      then .ok ⟨assemble 1 [a, b, c, d] 0, port⟩ else .error (.throw (.outOfRange "stoi")) := by
  obtain ⟨n₁, n₂, n₃, n₄, hn, rfl, rfl, rfl, rfl⟩ := h
  obtain ⟨before, after, hrun⟩ := hn.run
  have hgroups : ∀ g ∈ [n₁, n₂, n₃, n₄], IsNumeral g := by
    simp [hn.first, hn.second, hn.third, hn.fourth]
  simp only [ofString, hrun, octetsLoop_eq hgroups, List.map_cons, List.map_nil]
  split
  · rfl
  · rfl

theorem ofString_of_not_quad (h : ∀ a b c d, ¬ DottedQuad s a b c d) (port : UInt16) :
    ofString s port = .error (.throw (.invalidArgument "not a valid ip")) := by
  have hrun : Pattern.run ipRegex s = none := by
    cases hrun : Pattern.run ipRegex s with
    | none => rfl
    | some parts =>
      obtain ⟨n₁, n₂, n₃, n₄, hn⟩ := numerals_of_run hrun
      exact absurd ⟨n₁, n₂, n₃, n₄, hn, rfl, rfl, rfl, rfl⟩ (h _ _ _ _)
  rw [ofString, hrun]

theorem ofString_ok_iff :
    (∃ p, ofString s port = .ok p) ↔
      ∃ a b c d, DottedQuad s a b c d ∧ ∀ o ∈ [a, b, c, d], o < 2 ^ 31 := by
  constructor
  · rintro ⟨p, hp⟩
    by_cases hquad : ∃ a b c d, DottedQuad s a b c d
    · obtain ⟨a, b, c, d, hquad⟩ := hquad
      refine ⟨a, b, c, d, hquad, ?_⟩
      by_contra hlarge
      rw [ofString_of_quad hquad, if_neg hlarge] at hp
      injection hp
    · simp only [not_exists] at hquad
      rw [ofString_of_not_quad hquad] at hp
      injection hp
  · rintro ⟨a, b, c, d, hquad, hfits⟩
    rw [ofString_of_quad hquad, if_pos hfits]
    exact ⟨_, rfl⟩

/-! ### Octets -/

theorem forall_mem_four {P : Nat → Prop} :
    (∀ o ∈ [a, b, c, d], P o) ↔ P a ∧ P b ∧ P c ∧ P d := by
  simp

theorem ofNat_octet (h : a ≤ 255) : UInt32.ofNat a = (UInt8.ofNat a).toUInt32 := by
  apply UInt32.toNat_inj.mp
  rw [UInt8.toNat_toUInt32, UInt32.toNat_ofNat', UInt8.toNat_ofNat', Nat.mod_eq_of_lt (by omega),
    Nat.mod_eq_of_lt (by omega)]

theorem toNat_octet (h : a ≤ 255) : (UInt8.ofNat a).toNat = a := by
  rw [UInt8.toNat_ofNat', Nat.mod_eq_of_lt (by omega)]

/-- Octets do not overlap. -/
theorem toNat_assemble (h : ∀ o ∈ [a, b, c, d], o ≤ 255) :
    (assemble 1 [a, b, c, d] 0).toNat = a * 2 ^ 24 + b * 2 ^ 16 + c * 2 ^ 8 + d := by
  rw [forall_mem_four] at h
  obtain ⟨ha, hb, hc, hd⟩ := h
  have hword : assemble 1 [a, b, c, d] 0 = (UInt8.ofNat a).toUInt32 <<< 24 |||
      (UInt8.ofNat b).toUInt32 <<< 16 ||| (UInt8.ofNat c).toUInt32 <<< 8 |||
      (UInt8.ofNat d).toUInt32 := by
    simp [assemble, ofNat_octet ha, ofNat_octet hb, ofNat_octet hc, ofNat_octet hd]
  rw [hword, toNat_ip]
  simp only [bigEndianValue, List.foldl_cons, List.foldl_nil, toNat_octet ha, toNat_octet hb,
    toNat_octet hc, toNat_octet hd]
  omega

theorem toNat_byte (ip k : UInt32) :
    ((ip >>> k) &&& 0xFF).toNat = ip.toNat / 2 ^ (k.toNat % 32) % 256 := by
  rw [UInt32.toNat_and, UInt32.toNat_shiftRight, Nat.shiftRight_eq_div_pow]
  exact Nat.and_two_pow_sub_one_eq_mod _ 8

/-- The four octets of a word. -/
theorem address_eq (p : Peer) :
    p.address = dotted (p.ip.toNat / 2 ^ 24 % 256) (p.ip.toNat / 2 ^ 16 % 256)
      (p.ip.toNat / 2 ^ 8 % 256) (p.ip.toNat % 256) p.port := by
  have hlast : (p.ip &&& 0xFF).toNat = p.ip.toNat % 256 := by
    rw [UInt32.toNat_and]
    exact Nat.and_two_pow_sub_one_eq_mod _ 8
  rw [address, toNat_byte, toNat_byte, toNat_byte, hlast]
  rfl

theorem address_of_toNat {p : Peer} (h : ∀ o ∈ [a, b, c, d], o ≤ 255)
    (hip : p.ip.toNat = a * 2 ^ 24 + b * 2 ^ 16 + c * 2 ^ 8 + d) :
    p.address = dotted a b c d p.port := by
  rw [forall_mem_four] at h
  have h₁ : p.ip.toNat / 2 ^ 24 % 256 = a := by omega
  have h₂ : p.ip.toNat / 2 ^ 16 % 256 = b := by omega
  have h₃ : p.ip.toNat / 2 ^ 8 % 256 = c := by omega
  have h₄ : p.ip.toNat % 256 = d := by omega
  rw [address_eq, h₁, h₂, h₃, h₄]

/-! ### Round trip -/

theorem ne_charColon_of_mem_decimal {n : Nat} {x : UInt8} (hx : x ∈ decimal n) : x ≠ charColon := by
  have hdigit := (isNumeral_decimal n).2 x hx
  rintro rfl
  exact absurd hdigit (by decide)

/-- Neither digits nor dots are colons. -/
theorem ipPart_dotted (a b c d : Nat) (port : UInt16) :
    ipPart (dotted a b c d port) = decimal a ++ charDot :: (decimal b ++ charDot ::
      (decimal c ++ charDot :: decimal d)) := by
  have hdotted : dotted a b c d port = (decimal a ++ charDot :: (decimal b ++ charDot ::
      (decimal c ++ charDot :: decimal d))) ++ charColon :: decimal port.toNat := by
    simp [dotted]
  have hdot : charDot ≠ charColon := by decide
  rw [ipPart, hdotted]
  refine (span_eq ?_ ?_).1
  · intro x hx
    simp only [List.mem_append, List.mem_cons] at hx
    simp only [ne_eq, decide_not, Bool.not_eq_eq_eq_not, Bool.not_true, decide_eq_false_iff_not]
    rcases hx with hx | rfl | hx | rfl | hx | rfl | hx
    all_goals first | exact hdot | exact ne_charColon_of_mem_decimal hx
  · intro x w hw
    rw [← (List.cons.inj hw).1]
    simp

theorem dottedQuad_ipPart (a b c d : Nat) (port : UInt16) :
    DottedQuad (ipPart (dotted a b c d port)) a b c d := by
  refine ⟨decimal a, decimal b, decimal c, decimal d, ?_, value_decimal a, value_decimal b,
    value_decimal c, value_decimal d⟩
  refine ⟨⟨[], [], ?_, by simp, by simp⟩, isNumeral_decimal a, isNumeral_decimal b,
    isNumeral_decimal c, isNumeral_decimal d⟩
  rw [ipPart_dotted, List.append_nil, List.nil_append]

theorem ofString_octets (h : DottedQuad s a b c d) (hoctets : ∀ o ∈ [a, b, c, d], o ≤ 255)
    (port : UInt16) : ofString s port = .ok ⟨assemble 1 [a, b, c, d] 0, port⟩ := by
  rw [ofString_of_quad h, if_pos]
  intro o ho
  have := hoctets o ho
  omega

theorem ofString_ipPart (p : Peer) (port : UInt16) :
    ofString (ipPart p.address) port = .ok ⟨p.ip, port⟩ := by
  have hlt := p.ip.toNat_lt
  have hoctets : ∀ o ∈ [p.ip.toNat / 2 ^ 24 % 256, p.ip.toNat / 2 ^ 16 % 256,
      p.ip.toNat / 2 ^ 8 % 256, p.ip.toNat % 256], o ≤ 255 := by
    rw [forall_mem_four]
    omega
  rw [address_eq, ofString_octets (dottedQuad_ipPart _ _ _ _ _) hoctets]
  have hip : assemble 1 [p.ip.toNat / 2 ^ 24 % 256, p.ip.toNat / 2 ^ 16 % 256,
      p.ip.toNat / 2 ^ 8 % 256, p.ip.toNat % 256] 0 = p.ip := by
    apply UInt32.toNat_inj.mp
    rw [toNat_assemble hoctets]
    omega
  rw [hip]

/-! ### Which strings are taken for addresses -/

/-- Some of the four numbers is not an octet, but all of them fit an `int`. -/
def Spills (s : Bytes) : Prop :=
  ∃ a b c d, DottedQuad s a b c d ∧ (∀ o ∈ [a, b, c, d], o < 2 ^ 31) ∧ ¬ ∀ o ∈ [a, b, c, d], o ≤ 255

/-- For every string and port. The constructor succeeds just on the dotted
    quads if and only if the string is not one with a number over 255 that
    fits an `int`. On a dotted quad it makes the word of the four octets,
    which `address` prints; and it reads what `address` prints. -/
theorem ofString_iff (s : Bytes) (port : UInt16) :
    (((∃ p, ofString s port = .ok p) ↔
        ∃ a b c d, DottedQuad s a b c d ∧ ∀ o ∈ [a, b, c, d], o ≤ 255) ↔ ¬ Spills s) ∧
    (∀ a b c d, DottedQuad s a b c d → (∀ o ∈ [a, b, c, d], o ≤ 255) →
      ∃ p, ofString s port = .ok p ∧ p.ip.toNat = a * 2 ^ 24 + b * 2 ^ 16 + c * 2 ^ 8 + d ∧
        p.address = dotted a b c d port) ∧
    ∀ p : Peer, ofString (ipPart p.address) port = .ok ⟨p.ip, port⟩ := by
  refine ⟨?_, ?_, fun p => ofString_ipPart p port⟩
  · rw [ofString_ok_iff]
    constructor
    · rintro hiff ⟨a, b, c, d, hquad, hfits, hlarge⟩
      obtain ⟨a', b', c', d', hquad', hoctets⟩ := hiff.mp ⟨a, b, c, d, hquad, hfits⟩
      obtain ⟨rfl, rfl, rfl, rfl⟩ := hquad.unique hquad'
      exact hlarge hoctets
    · intro hspills
      constructor
      · rintro ⟨a, b, c, d, hquad, hfits⟩
        refine ⟨a, b, c, d, hquad, ?_⟩
        by_contra hlarge
        exact hspills ⟨a, b, c, d, hquad, hfits, hlarge⟩
      · rintro ⟨a, b, c, d, hquad, hoctets⟩
        refine ⟨a, b, c, d, hquad, ?_⟩
        intro o ho
        have := hoctets o ho
        omega
  · intro a b c d hquad hoctets
    have hip := toNat_assemble hoctets
    exact ⟨_, ofString_octets hquad hoctets port, hip, address_of_toNat hoctets hip⟩

/-- `1.2.2.256` is taken for 1.2.3.0, and `256.0.0.1` for 0.0.0.1. -/
theorem ofString_spills :
    ofString [49, 46, 50, 46, 50, 46, 50, 53, 54] 6881 = .ok ⟨0x01020300, 6881⟩ ∧
    ofString [50, 53, 54, 46, 48, 46, 48, 46, 49] 6881 = .ok ⟨1, 6881⟩ ∧
    ¬ ∃ a b c d, DottedQuad [50, 53, 54, 46, 48, 46, 48, 46, 49] a b c d ∧
      ∀ o ∈ [a, b, c, d], o ≤ 255 := by
  refine ⟨by decide +kernel, by decide +kernel, ?_⟩
  rintro ⟨a, b, c, d, hquad, hoctets⟩
  have hother : DottedQuad [50, 53, 54, 46, 48, 46, 48, 46, 49] 256 0 0 1 :=
    ⟨[50, 53, 54], [48], [48], [49], ⟨⟨[], [], by decide, by simp, by simp⟩, by decide, by decide,
      by decide, by decide⟩, by decide, by decide, by decide, by decide⟩
  obtain ⟨rfl, _⟩ := hquad.unique hother
  exact absurd (hoctets 256 (by simp)) (by decide)

end Furrent.Peer
