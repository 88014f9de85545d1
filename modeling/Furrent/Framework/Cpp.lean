import Mathlib.Data.List.TakeWhile
import Furrent.Framework.Numeral

/-! # C++ conventions

    What the models of C++ functions share:

    * how a call can end (`Outcome`): with a value, with an error value that
      the callers pass on, with an exception, or not at all;
    * arithmetic on `int64_t`, where overflow is undefined;
    * unchecked accesses to a contiguous sequence, whose result past the end
      the language leaves open;
    * overwriting a range of a sequence, as `std::copy` and a positioned file
      write do;
    * `std::stol` and `std::stoi`. -/

namespace Cpp

/-! ## Outcomes -/

/-- Exceptions of the standard library, with their `what()`. -/
inductive StdException where
  | invalidArgument (what : String)
  | outOfRange (what : String)
  | lengthError (what : String)
  | logicError (what : String)
  | badOptionalAccess
  | badCast
  deriving DecidableEq, Repr

/-- The ways a call can fail to return its value. -/
inductive Stop (ε : Type u) where
  /-- The function returns `Result::ERROR(e)`. -/
  | error (e : ε)
  /-- An exception leaves the function. -/
  | throw (x : StdException)
  /-- Undefined behaviour: nothing is known about what follows. -/
  | trap
  /-- The bound the model puts on a loop or a recursion ran out. -/
  | outOfFuel
  deriving DecidableEq, Repr

/-- A call that returns an `α`, reports an error of type `ε` or stops. -/
abbrev Outcome (ε : Type u) (α : Type v) := Except (Stop ε) α

/-- A sequence of two calls returns if both do. -/
theorem bind_eq_ok {ε : Type u} {α β : Type v} {x : Outcome ε α} {f : α → Outcome ε β} {b : β} :
    (x >>= f) = .ok b ↔ ∃ a, x = .ok a ∧ f a = .ok b := by
  constructor
  · intro h
    cases x with
    | error e => cases h
    | ok a => exact ⟨a, rfl, h⟩
  · rintro ⟨a, rfl, h⟩
    exact h

/-- A call behind a check returns if the check lets it pass and it does. -/
theorem guard_eq_ok {ε : Type u} {α : Type v} {c : Prop} [Decidable c] {e : ε} {x : Except ε α}
    {a : α} : (if c then .error e else x) = .ok a ↔ ¬ c ∧ x = .ok a := by
  split
  · next hc => simp [hc]
  · next hc => simp [hc]

/-- The same for a call that leaves a state behind. -/
theorem guard_mk_eq_ok {ε : Type u} {α σ : Type v} {c : Prop} [Decidable c] {e : ε} {s s' : σ}
    {x : σ × Except ε α} {a : α} :
    (if c then (s, .error e) else x) = (s', .ok a) ↔ ¬ c ∧ x = (s', .ok a) := by
  split
  · next hc => simp [hc]
  · next hc => simp [hc]

@[simp] theorem ok_bind {ε : Type u} {α β : Type v} (a : α) (f : α → Outcome ε β) :
    ((Except.ok a : Outcome ε α) >>= f) = f a := rfl

@[simp] theorem error_bind {ε : Type u} {α β : Type v} (e : Stop ε) (f : α → Outcome ε β) :
    ((Except.error e : Outcome ε α) >>= f) = .error e := rfl

/-- A sequence of two calls stops where the first or the second does. -/
theorem bind_ne_error {ε : Type u} {α β : Type v} {x : Outcome ε α} {f : α → Outcome ε β}
    {e : Stop ε} (hx : x ≠ .error e) (hf : ∀ a, x = .ok a → f a ≠ .error e) :
    (x >>= f) ≠ .error e := by
  cases x with
  | error e' =>
    intro h
    rw [error_bind] at h
    injection h with h
    exact hx (by rw [h])
  | ok a => exact hf a rfl

/-- `std::numeric_limits<int64_t>::max()`. -/
def INT64_MAX : Nat := 2 ^ 63 - 1

/-! ## Calls that return or throw -/

/-- The call returns a value for which `Q` holds, or throws. -/
def ReturnsOrThrows {ε : Type u} {α : Type v} (Q : α → Prop) : Outcome ε α → Prop
  | .ok a => Q a
  | .error (.throw _) => True
  | .error _ => False

section

variable {ε : Type u} {α β : Type v} {Q : α → Prop} {x : Outcome ε α}

theorem ReturnsOrThrows.cases (h : ReturnsOrThrows Q x) :
    (∃ a, x = .ok a ∧ Q a) ∨ ∃ e, x = .error (.throw e) := by
  match x, h with
  | .ok a, h => exact .inl ⟨a, rfl, h⟩
  | .error (.throw e), _ => exact .inr ⟨e, rfl⟩

theorem ReturnsOrThrows.bind {R : β → Prop} {f : α → Outcome ε β} (h : ReturnsOrThrows Q x)
    (hf : ∀ a, x = .ok a → Q a → ReturnsOrThrows R (f a)) : ReturnsOrThrows R (x >>= f) := by
  rcases h.cases with ⟨a, hx, ha⟩ | ⟨e, hx⟩
  · rw [hx, ok_bind]
    exact hf a hx ha
  · rw [hx, error_bind]
    trivial

/-- The call throws. -/
def Throws {ε : Type u} {α : Type v} (x : Outcome ε α) : Prop := ∃ e, x = .error (.throw e)

theorem throws_bind {f : α → Outcome ε β} :
    Throws (x >>= f) ↔ Throws x ∨ ∃ a, x = .ok a ∧ Throws (f a) := by
  cases x with
  | ok a => simp [Throws]
  | error e =>
    rw [error_bind]
    simp [Throws]

theorem ReturnsOrThrows.throws_iff (h : ReturnsOrThrows Q x) : Throws x ↔ ∀ a, x ≠ .ok a := by
  rcases h.cases with ⟨a, hx, _⟩ | ⟨e, hx⟩
  · simp [Throws, hx]
  · simp [Throws, hx]

/-- If the first call can only return or throw, both together throw just when
    the second one does after every return of the first. -/
theorem ReturnsOrThrows.throws_bind_iff {f : α → Outcome ε β} (h : ReturnsOrThrows Q x) :
    Throws (x >>= f) ↔ ∀ a, x = .ok a → Throws (f a) := by
  rcases h.cases with ⟨a, hx, _⟩ | ⟨e, hx⟩
  · rw [hx, ok_bind]
    simp
  · rw [hx, error_bind]
    simp [Throws]

end

/-! ## Calls that return or report -/

/-- The call returns a value or reports an error. -/
def Reports {ε : Type u} {α : Type v} (x : Outcome ε α) : Prop :=
  (∃ a, x = .ok a) ∨ ∃ e, x = .error (.error e)

/-- Every other way to end is an exception, undefined behaviour or the end of
    the fuel. -/
theorem reports_iff {ε : Type u} {α : Type v} {x : Outcome ε α} :
    Reports x ↔ (∀ y, x ≠ .error (.throw y)) ∧ x ≠ .error .trap ∧ x ≠ .error .outOfFuel := by
  unfold Reports
  cases x with
  | ok a => simp
  | error e =>
    cases e with
    | error e => simp
    | throw y => simp
    | trap => simp
    | outOfFuel => simp

/-- How a call ends that has been left by an exception, or has trapped, for a
    caller with its own error values. -/
def Stop.widen {ε : Type u} : Stop Empty → Stop ε
  | .throw x => .throw x
  | .trap => .trap
  | .outOfFuel => .outOfFuel

theorem widen_ne_error {ε : Type u} (stop : Stop Empty) (e : ε) : stop.widen ≠ .error e := by
  cases stop with
  | error e => exact e.elim
  | throw x => simp [Stop.widen]
  | trap => simp [Stop.widen]
  | outOfFuel => simp [Stop.widen]

theorem not_reports_widen {ε : Type u} {α : Type v} (stop : Stop Empty) :
    ¬ Reports (.error stop.widen : Outcome ε α) := by
  simp [Reports, widen_ne_error]

/-! ## Arithmetic on `int64_t` -/

/-- The range of `int64_t`. -/
def FitsInt64 (n : Int) : Prop := -2 ^ 63 ≤ n ∧ n < 2 ^ 63

instance : DecidablePred FitsInt64 := fun _ => inferInstanceAs (Decidable (_ ∧ _))

/-- The value of an expression of type `int64_t`; overflow is undefined. -/
def int64 {ε : Type u} (n : Int) : Outcome ε Int := if FitsInt64 n then .ok n else .error .trap

/-- `a / b`. -/
def divInt64 {ε : Type u} (a b : Int) : Outcome ε Int :=
  if b = 0 then .error .trap else int64 (a.tdiv b)

@[simp] theorem int64_eq_ok {ε : Type u} {n n' : Int} :
    (int64 n : Outcome ε Int) = .ok n' ↔ n = n' ∧ FitsInt64 n := by
  unfold int64
  by_cases h : FitsInt64 n
  · simp [h]
  · simp [h]

@[simp] theorem divInt64_eq_ok {ε : Type u} {a b n : Int} :
    (divInt64 a b : Outcome ε Int) = .ok n ↔ b ≠ 0 ∧ a.tdiv b = n ∧ FitsInt64 (a.tdiv b) := by
  unfold divInt64
  by_cases h : b = 0
  · simp [h]
  · simp [h]

/-! ## Unchecked accesses -/

/-- `l[i]` without a bounds check. Past the end it yields whatever `beyond`
    says is found there; `none` stands for an access that traps. -/
def uncheckedGet {α : Type u} (l : List α) (beyond : Nat → Option α) (i : Nat) : Option α :=
  match l[i]? with
  | some a => some a
  | none => beyond i

theorem uncheckedGet_of_lt {α : Type u} {l : List α} {beyond : Nat → Option α} {i : Nat}
    (h : i < l.length) : uncheckedGet l beyond i = some l[i] := by
  simp [uncheckedGet, h]

/-! ## Overwriting a range -/

/-- Write `bs` at offset `off` of `l`. A gap between the end of `l` and `off`
    is filled with `zero`; writing nothing changes nothing. -/
def overwrite {α : Type u} (zero : α) (l : List α) (off : Nat) (bs : List α) : List α :=
  if bs = [] then l
  else l.take off ++ List.replicate (off - l.length) zero ++ bs ++ l.drop (off + bs.length)

theorem length_overwrite {α : Type u} (zero : α) (l : List α) (off : Nat) {bs : List α}
    (h : bs ≠ []) : (overwrite zero l off bs).length = max l.length (off + bs.length) := by
  simp [overwrite, h]
  omega

/-- A write that stays inside the sequence keeps its length. -/
theorem length_overwrite_of_le {α : Type u} (zero : α) {l : List α} {off : Nat} {bs : List α}
    (h : off + bs.length ≤ l.length) : (overwrite zero l off bs).length = l.length := by
  by_cases hbs : bs = []
  · simp [overwrite, hbs]
  · rw [length_overwrite zero l off hbs]
    omega

/-- Inside the written range the new elements are found. -/
theorem getElem?_overwrite_inside {α : Type u} (zero : α) {l : List α} {off i : Nat}
    {bs : List α} (hle : off ≤ i) (hlt : i < off + bs.length) :
    (overwrite zero l off bs)[i]? = bs[i - off]? := by
  have hbs : bs ≠ [] := by
    intro h
    simp [h] at hlt
    omega
  -- In front of the written range stand `off` elements, old ones or padding.
  have hpre : (l.take off ++ List.replicate (off - l.length) zero).length = off := by
    simp
    omega
  rw [overwrite, if_neg hbs, List.append_assoc _ bs, List.getElem?_append_right (by omega),
    hpre, List.getElem?_append_left (by omega)]

/-- Outside the written range the old elements are found. -/
theorem getElem?_overwrite_outside {α : Type u} (zero : α) {l : List α} {off i : Nat}
    {bs : List α} (hin : off + bs.length ≤ l.length) (h : i < off ∨ off + bs.length ≤ i) :
    (overwrite zero l off bs)[i]? = l[i]? := by
  by_cases hbs : bs = []
  · simp [overwrite, hbs]
  · have hpad : off - l.length = 0 := by omega
    have htake : (l.take off).length = off := by
      simp
      omega
    rw [overwrite, if_neg hbs, hpad, List.replicate_zero, List.append_nil]
    rcases h with h | h
    · rw [List.append_assoc, List.getElem?_append_left (by omega), List.getElem?_take_of_lt h]
    · rw [List.getElem?_append_right (by simp; omega), List.getElem?_drop]
      congr 1
      simp
      omega

/-! ## `std::stol` -/

/-- `std::isspace` in the C locale. -/
def isSpace (b : UInt8) : Bool := b = 32 || (9 ≤ b && b ≤ 13)

/-- The sign of a number and what follows it. -/
def splitSign : Bytes → Bool × Bytes
  | 45 :: ds => (true, ds)
  | 43 :: ds => (false, ds)
  | ds => (false, ds)

/-- `std::stol`: white space, a sign, digits; what follows them is ignored. -/
def stol (t : Bytes) : Except StdException Int64 :=
  let (negative, t) := splitSign (t.dropWhile isSpace)
  let digits := t.takeWhile Numeral.isDigit
  if digits = [] then .error (.invalidArgument "stol")
  else
    let n : Int := if negative then -(Numeral.value digits) else Numeral.value digits
    if -2 ^ 63 ≤ n ∧ n < 2 ^ 63 then .ok (Int64.ofInt n) else .error (.outOfRange "stol")

theorem isSpace_of_isDigit {b : UInt8} (h : Numeral.isDigit b = true) : isSpace b = false := by
  rw [Numeral.isDigit_iff] at h
  simp only [isSpace, Bool.or_eq_false_iff, Bool.and_eq_false_iff, decide_eq_false_iff_not]
  refine ⟨?_, Or.inr ?_⟩
  · intro hb
    rw [hb] at h
    exact absurd h.1 (by decide)
  · intro hb
    have := UInt8.le_iff_toNat_le.mp hb
    have h13 : (13 : UInt8).toNat = 13 := rfl
    omega

/-- A numeral has no white space and no sign in front. -/
theorem splitSign_of_isNumeral {t : Bytes} (h : Numeral.IsNumeral t) :
    splitSign (t.dropWhile isSpace) = (false, t) := by
  obtain ⟨b, ds, rfl, hb⟩ := Numeral.isNumeral_cases h
  have hdig : Numeral.isDigit b = true := h.2 b (by simp)
  have hdrop : (b :: ds).dropWhile isSpace = b :: ds := by
    simp [isSpace_of_isDigit hdig]
  have hb' : b ≠ 43 := by
    intro hb'
    rw [hb'] at hdig
    exact absurd hdig (by decide)
  rw [hdrop]
  unfold splitSign
  split
  · next heq => exact absurd (List.cons.inj heq).1 hb
  · next heq => exact absurd (List.cons.inj heq).1 hb'
  · rfl

/-- On a signed numeral `stol` gives its value or reports that it does not
    fit. -/
theorem stol_of_isSigned {t : Bytes} (h : Numeral.IsSigned t) :
    stol t = if -2 ^ 63 ≤ Numeral.signedValue t ∧ Numeral.signedValue t < 2 ^ 63
      then .ok (Int64.ofInt (Numeral.signedValue t)) else .error (.outOfRange "stol") := by
  have htake : ∀ ds, Numeral.IsNumeral ds → ds.takeWhile Numeral.isDigit = ds :=
    fun ds hds => List.takeWhile_eq_self_iff.mpr hds.2
  -- No white space in front, and nothing behind the digits.
  rcases Numeral.isSigned_cases h with hnum | ⟨ds, rfl, hnum⟩
  · rw [Numeral.signedValue_of_isNumeral hnum]
    unfold stol
    simp [splitSign_of_isNumeral hnum, htake t hnum, hnum.1]
  · have hdrop : (45 :: ds).dropWhile isSpace = 45 :: ds := by
      have : isSpace 45 = false := by decide
      simp [this]
    have hval : Numeral.signedValue (45 :: ds) = -(Numeral.value ds) := rfl
    unfold stol
    simp [hdrop, splitSign, htake ds hnum, hnum.1, hval]

/-- On a signed numeral `stol` returns the number it stands for, when there
    is such a number. -/
theorem stol_eq_ok_iff {t : Bytes} (h : Numeral.IsSigned t) (n : Int64) :
    stol t = .ok n ↔ n.toInt = Numeral.signedValue t := by
  rw [stol_of_isSigned h]
  constructor
  · intro hn
    split at hn
    · next hrange =>
      cases hn
      exact Int64.toInt_ofInt_of_le hrange.1 hrange.2
    · cases hn
  · intro hn
    rw [← hn, if_pos ⟨n.le_toInt, n.toInt_lt⟩, Int64.ofInt_toInt]

/-- Otherwise it throws. -/
theorem stol_eq_error_iff {t : Bytes} (h : Numeral.IsSigned t) {x : StdException} :
    stol t = .error x ↔ x = .outOfRange "stol" ∧ ¬ FitsInt64 (Numeral.signedValue t) := by
  rw [stol_of_isSigned h]
  constructor
  · intro hx
    split at hx
    · injection hx
    · next hfits =>
      injection hx with hx
      exact ⟨hx.symm, hfits⟩
  · rintro ⟨rfl, hfits⟩
    exact if_neg hfits

/-! ## `std::stoi` -/

/-- `std::stoi`: as `std::stol`, with the range of an `int`. -/
def stoi (t : Bytes) : Except StdException Int32 :=
  match stol t with
  | .ok n =>
    if -2 ^ 31 ≤ n.toInt ∧ n.toInt < 2 ^ 31 then .ok n.toInt32 else .error (.outOfRange "stoi")
  | .error (.invalidArgument _) => .error (.invalidArgument "stoi")
  | .error _ => .error (.outOfRange "stoi")

/-- On a numeral `stoi` gives its value or reports that it does not fit. -/
theorem stoi_of_isNumeral {t : Bytes} (h : Numeral.IsNumeral t) :
    stoi t = if Numeral.value t < 2 ^ 31 then .ok (Int32.ofNat (Numeral.value t))
      else .error (.outOfRange "stoi") := by
  have hsigned := Numeral.isSigned_of_isNumeral h
  have hvalue := Numeral.signedValue_of_isNumeral h
  unfold stoi
  cases hstol : stol t with
  | ok n =>
    have hn : n.toInt = Numeral.value t := by
      rw [← hvalue]
      exact (stol_eq_ok_iff hsigned n).mp hstol
    have hint : n.toInt32 = Int32.ofNat (Numeral.value t) := by
      rw [← Int64.ofInt_toInt n, hn, Int64.toInt32_ofInt, Int32.ofInt_eq_ofNat]
    simp only [hn, hint]
    by_cases hrange : Numeral.value t < 2 ^ 31
    · rw [if_pos hrange, if_pos (by omega)]
    · rw [if_neg hrange, if_neg (by omega)]
  | error x =>
    obtain ⟨rfl, hfits⟩ := (stol_eq_error_iff hsigned).mp hstol
    rw [hvalue] at hfits
    unfold FitsInt64 at hfits
    rw [if_neg (by omega)]

end Cpp
