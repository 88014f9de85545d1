import Furrent.Framework.Numeral
import Mathlib.Data.List.Infix
import Mathlib.Data.List.TakeWhile
import Mathlib.Data.Set.Insert

/-! # Path names

    A location in a file system is the list of names on the way to it from
    the root. A path name is a string: it is cut at the first NUL and split
    at the slashes, and each segment is a step from one location to the
    next. Without symbolic links the location a path leads to does not
    depend on what is in the file system (`resolve`).

    A walk that starts `n` levels below some location stays below it as long
    as it does not take more steps up than it has taken down, and `depth`
    says how far below it ends. -/

namespace Path

/-! ### Steps -/

/-- What a segment of a path asks for. -/
inductive Step (ν : Type*) where
  | stay
  | up
  | down (name : ν)
  deriving DecidableEq, Repr

section

variable {ν : Type*}

/-- The location a step leads to. The root is its own parent. -/
def Step.apply (loc : List ν) : Step ν → List ν
  | .stay => loc
  | .up => loc.dropLast
  | .down name => loc ++ [name]

/-- The location a walk from `loc` leads to. -/
def resolve (loc : List ν) (steps : List (Step ν)) : List ν := steps.foldl Step.apply loc

theorem resolve_cons (loc : List ν) (s : Step ν) (steps : List (Step ν)) :
    resolve loc (s :: steps) = resolve (s.apply loc) steps := rfl

theorem resolve_append (loc : List ν) (steps steps' : List (Step ν)) :
    resolve loc (steps ++ steps') = resolve (resolve loc steps) steps' := List.foldl_append

/-- The locations on the way of a walk, with both of its ends. -/
def way (loc : List ν) (steps : List (Step ν)) : Set (List ν) :=
  {l | ∃ pre, pre <+: steps ∧ l = resolve loc pre}

theorem mem_way_self (loc : List ν) (steps : List (Step ν)) : loc ∈ way loc steps :=
  ⟨[], List.nil_prefix, rfl⟩

theorem way_nil (loc : List ν) : way loc [] = {loc} := by
  ext l
  constructor
  · intro ⟨pre, hpre, hl⟩
    rw [List.prefix_nil.mp hpre] at hl
    exact hl
  · intro hl
    rw [Set.mem_singleton_iff.mp hl]
    exact mem_way_self loc []

theorem way_cons (loc : List ν) (s : Step ν) (steps : List (Step ν)) :
    way loc (s :: steps) = insert loc (way (s.apply loc) steps) := by
  ext l
  constructor
  · intro ⟨pre, hpre, hl⟩
    cases pre with
    | nil => exact .inl hl
    | cons s' pre =>
      obtain ⟨rfl, htail⟩ := List.cons_prefix_cons.mp hpre
      exact .inr ⟨pre, htail, hl⟩
  · intro hl
    rcases hl with rfl | ⟨pre, hpre, rfl⟩
    · exact mem_way_self _ _
    · exact ⟨s :: pre, List.cons_prefix_cons.mpr ⟨rfl, hpre⟩, rfl⟩

/-- How far below its base a walk ends that starts `n` levels below it;
    `none` if it leaves the base. -/
def depth : Nat → List (Step ν) → Option Nat
  | n, [] => some n
  | n, .stay :: steps => depth n steps
  | 0, .up :: _ => none
  | n + 1, .up :: steps => depth n steps
  | n, .down _ :: steps => depth (n + 1) steps

theorem depth_append (n : Nat) (steps steps' : List (Step ν)) :
    depth n (steps ++ steps') = (depth n steps).bind fun m => depth m steps' := by
  induction steps generalizing n with
  | nil => rfl
  | cons s steps ih =>
    cases s with
    | stay => exact ih n
    | up =>
      cases n with
      | zero => rfl
      | succ n => exact ih n
    | down name => exact ih (n + 1)

/-- A walk that starts lower ends lower. -/
theorem depth_add {n m : Nat} {steps : List (Step ν)} (h : depth n steps = some m) (k : Nat) :
    depth (n + k) steps = some (m + k) := by
  induction steps generalizing n with
  | nil =>
    injection h with h
    rw [depth, h]
  | cons s steps ih =>
    cases s with
    | stay => exact ih h
    | up =>
      cases n with
      | zero => injection h
      | succ n =>
        rw [Nat.add_right_comm]
        exact ih h
    | down name =>
      have hdown := ih (n := n + 1) h
      rw [Nat.add_right_comm] at hdown
      exact hdown

/-- What comes first on a walk that does not leave the base does not leave
    it. -/
theorem depth_of_append {n m : Nat} {steps steps' : List (Step ν)}
    (h : depth n (steps ++ steps') = some m) :
    ∃ k, depth n steps = some k ∧ depth k steps' = some m := by
  rw [depth_append] at h
  exact Option.bind_eq_some_iff.mp h

/-- Where a walk ends that does not leave its base. -/
theorem resolve_of_depth {n m : Nat} {steps : List (Step ν)} (h : depth n steps = some m)
    {base loc : List ν} (hbase : base <+: loc) (hn : loc.length = base.length + n) :
    base <+: resolve loc steps ∧ (resolve loc steps).length = base.length + m := by
  induction steps generalizing n loc with
  | nil =>
    injection h with h
    rw [← h]
    exact ⟨hbase, hn⟩
  | cons s steps ih =>
    rw [resolve_cons]
    cases s with
    | stay => exact ih h hbase hn
    | up =>
      cases n with
      | zero => injection h
      | succ n =>
        have hlength : loc.dropLast.length = base.length + n := by
          rw [List.length_dropLast, hn]
          omega
        have hunder : base <+: loc.dropLast :=
          List.prefix_of_prefix_length_le hbase loc.dropLast_prefix (by omega)
        exact ih h hunder hlength
    | down name =>
      refine ih h (hbase.trans (List.prefix_append loc [name])) ?_
      change (loc ++ [name]).length = _
      rw [List.length_append, hn, List.length_singleton, Nat.add_assoc]

end

/-! ### Strings -/

/-- What the operating system is given of a string. -/
def cString (path : Bytes) : Bytes := path.takeWhile (· ≠ 0)

/-- The step a segment stands for: nothing and `"."`, `".."`, a name. -/
def Step.ofSegment (segment : Bytes) : Step Bytes :=
  if segment = [] ∨ segment = [46] then .stay
  else if segment = [46, 46] then .up
  else .down segment

/-- The segments between the slashes. -/
def steps (path : Bytes) : List (Step Bytes) :=
  ((cString path).splitOn 47).map Step.ofSegment

/-- Where a path starts: at the root or in the working directory. -/
def start (cwd : List Bytes) (path : Bytes) : List Bytes :=
  if path.head? = some 47 then [] else cwd

/-- The location a path leads to. -/
def location (cwd : List Bytes) (path : Bytes) : List Bytes :=
  resolve (start cwd path) (steps path)

/-- What stands before the last slash. -/
def dirname (path : Bytes) : Option Bytes :=
  match path.reverse.dropWhile (· ≠ 47) with
  | [] => none
  | _ :: front => some front.reverse

theorem cString_append {path : Bytes} (h : 0 ∉ path) (rest : Bytes) :
    cString (path ++ rest) = path ++ cString rest := by
  apply List.takeWhile_append_of_pos
  intro b hb
  have hne : b ≠ 0 := fun h0 => h (h0 ▸ hb)
  simpa using hne

theorem cString_append_of_mem {path : Bytes} (h : 0 ∈ path) (rest : Bytes) :
    cString (path ++ rest) = cString path := by
  unfold cString
  rw [List.takeWhile_append, if_neg]
  intro hlength
  have hfront : path.takeWhile (· ≠ 0) <+: path := List.takeWhile_prefix _
  have hall := List.takeWhile_eq_self_iff.mp (hfront.eq_of_length hlength)
  exact absurd (hall 0 h) (by decide)

theorem cString_of_not_mem {path : Bytes} (h : 0 ∉ path) : cString path = path := by
  have hnil := cString_append h []
  rwa [List.append_nil, show cString [] = [] from rfl, List.append_nil] at hnil

/-- What follows a slash is walked after what stands before it. -/
theorem steps_append {path : Bytes} (h : 0 ∉ path) (rest : Bytes) :
    steps (path ++ 47 :: rest) = steps path ++ steps rest := by
  have hrest : cString (47 :: rest) = 47 :: cString rest := rfl
  unfold steps
  rw [cString_append h, hrest, cString_of_not_mem h, List.splitOn,
    List.splitOnP_append_cons _ _ (by decide), List.map_append]
  rfl

/-- What follows a NUL is not seen. -/
theorem steps_append_of_mem {path : Bytes} (h : 0 ∈ path) (rest : Bytes) :
    steps (path ++ rest) = steps path := by
  rw [steps, steps, cString_append_of_mem h]

theorem start_append {path : Bytes} (h : path ≠ []) (cwd : List Bytes) (rest : Bytes) :
    start cwd (path ++ rest) = start cwd path := by
  rw [start, start, List.head?_append_of_ne_nil path h]

theorem dirname_append (path rest : Bytes) :
    dirname (path ++ 47 :: rest) =
      some (match dirname rest with
        | none => path
        | some front => path ++ 47 :: front) := by
  unfold dirname
  rw [List.reverse_append, List.reverse_cons, List.append_assoc, List.singleton_append,
    List.dropWhile_append]
  -- The last slash is the one in between, or one behind it.
  cases hback : rest.reverse.dropWhile (· ≠ 47) with
  | nil => simp
  | cons b front => simp

/-! ### Longer names -/

theorem steps_of_not_mem {segment : Bytes} (hnul : 0 ∉ segment) (hslash : 47 ∉ segment) :
    steps segment = [Step.ofSegment segment] := by
  rw [steps, cString_of_not_mem hnul, List.splitOn_eq_singleton hslash, List.map_singleton]

/-- A segment with more than two bytes is a name. -/
theorem ofSegment_of_length {segment : Bytes} (h : 2 < segment.length) :
    Step.ofSegment segment = .down segment := by
  have hstay : ¬ (segment = [] ∨ segment = [46]) := by
    rintro (rfl | rfl) <;> simp at h
  have hup : segment ≠ [46, 46] := by
    intro hup
    simp [hup] at h
  rw [Step.ofSegment, if_neg hstay, if_neg hup]

theorem depth_singleton_le {n m : Nat} {s : Step Bytes} (h : depth n [s] = some m) :
    m ≤ n + 1 := by
  cases s with
  | stay =>
    injection h with h
    omega
  | up =>
    cases n with
    | zero => injection h
    | succ n =>
      injection h with h
      omega
  | down name =>
    injection h with h
    omega

/-- A string that can be added to a name. -/
structure Extension (w : Bytes) : Prop where
  nul : 0 ∉ w
  slash : 47 ∉ w
  long : 2 < w.length

/-- A string that names an entry of a directory. -/
structure Plain (segment : Bytes) : Prop where
  nul : 0 ∉ segment
  slash : 47 ∉ segment
  name : Step.ofSegment segment = .down segment

theorem Plain.steps {segment : Bytes} (h : Plain segment) : steps segment = [.down segment] := by
  rw [steps_of_not_mem h.nul h.slash, h.name]

variable {w : Bytes}

theorem Extension.plain (hw : Extension w) {segment : Bytes} (hnul : 0 ∉ segment)
    (hslash : 47 ∉ segment) : Plain (segment ++ w) where
  nul := by simp [hnul, hw.nul]
  slash := by simp [hslash, hw.slash]
  name := by
    apply ofSegment_of_length
    have := hw.long
    rw [List.length_append]
    omega

theorem depth_extended_segment (hw : Extension w) {segment : Bytes} (hnul : 0 ∉ segment)
    (hslash : 47 ∉ segment) {n m : Nat} (h : depth n (steps segment) = some m) :
    ∃ k, depth n (steps (segment ++ w)) = some (m + k) := by
  rw [steps_of_not_mem hnul hslash] at h
  have hle := depth_singleton_le h
  rw [(hw.plain hnul hslash).steps]
  exact ⟨n + 1 - m, congrArg some (by omega)⟩

/-- With a longer name a path does not lead further up. -/
theorem depth_extended (hw : Extension w) {path : Bytes} {n m : Nat}
    (h : depth n (steps path) = some m) : ∃ k, depth n (steps (path ++ w)) = some (m + k) := by
  by_cases hnul : 0 ∈ path
  · rw [steps_append_of_mem hnul]
    exact ⟨0, h⟩
  by_cases hslash : 47 ∈ path
  · -- Only what stands behind the last slash changes.
    obtain ⟨back, front, hpath, hback⟩ :=
      List.eq_append_cons_of_mem (List.mem_reverse.mpr hslash)
    have hsplit : path = front.reverse ++ 47 :: back.reverse := by
      rw [← List.reverse_inj, hpath]
      simp
    have hfront : 0 ∉ front.reverse := fun h0 => hnul (by simp [hsplit, List.mem_reverse.mp h0])
    have hseg : 0 ∉ back.reverse := fun h0 => hnul (by simp [hsplit, List.mem_reverse.mp h0])
    rw [hsplit, steps_append hfront] at h
    obtain ⟨j, hj, h⟩ := depth_of_append h
    obtain ⟨k, hk⟩ := depth_extended_segment hw hseg (by simpa using hback) h
    rw [hsplit, List.append_assoc, List.cons_append, steps_append hfront, depth_append, hj]
    exact ⟨k, hk⟩
  · exact depth_extended_segment hw hnul hslash h

/-- The same for what is reached from there. -/
theorem depth_extended_append (hw : Extension w) {path rest : Bytes} {n m : Nat}
    (h : depth n (steps (path ++ 47 :: rest)) = some m) :
    ∃ k, depth n (steps ((path ++ w) ++ 47 :: rest)) = some (m + k) := by
  by_cases hnul : 0 ∈ path
  · rw [steps_append_of_mem hnul] at h
    rw [List.append_assoc, steps_append_of_mem hnul]
    exact ⟨0, h⟩
  · have hnul' : 0 ∉ path ++ w := by simp [hnul, hw.nul]
    rw [steps_append hnul] at h
    obtain ⟨j, hj, h⟩ := depth_of_append h
    obtain ⟨k, hk⟩ := depth_extended hw hj
    rw [steps_append hnul', depth_append, hk]
    exact ⟨k, depth_add h k⟩

/-! ### Paths without a step up -/

theorem depth_of_not_mem_up {ν : Type*} {steps : List (Step ν)} (h : .up ∉ steps) (n : Nat) :
    ∃ k, depth n steps = some (n + k) := by
  induction steps generalizing n with
  | nil => exact ⟨0, rfl⟩
  | cons s steps ih =>
    rw [List.mem_cons, not_or] at h
    cases s with
    | stay => exact ih h.2 n
    | up => exact absurd rfl h.1
    | down name =>
      obtain ⟨k, hk⟩ := ih h.2 (n + 1)
      exact ⟨k + 1, by rw [depth, hk, Nat.add_assoc, Nat.add_comm 1 k]⟩

theorem mem_steps_append {path rest : Bytes} {s : Step Bytes}
    (h : s ∈ steps (path ++ 47 :: rest)) : s ∈ steps path ∨ s ∈ steps rest := by
  by_cases hnul : 0 ∈ path
  · rw [steps_append_of_mem hnul] at h
    exact .inl h
  · rw [steps_append hnul] at h
    exact List.mem_append.mp h

theorem mem_steps_of_mem {path rest : Bytes} {s : Step Bytes} (h : s ∈ steps path) :
    s ∈ steps (path ++ 47 :: rest) := by
  by_cases hnul : 0 ∈ path
  · rwa [steps_append_of_mem hnul]
  · rw [steps_append hnul]
    exact List.mem_append_left _ h

theorem mem_steps_intercalate {segments : List Bytes} {s : Step Bytes}
    (h : s ∈ steps ([47].intercalate segments)) :
    s = .stay ∨ ∃ segment ∈ segments, s ∈ steps segment := by
  induction segments with
  | nil => exact .inl (List.mem_singleton.mp h)
  | cons segment segments ih =>
    cases segments with
    | nil =>
      rw [List.intercalate_singleton] at h
      exact .inr ⟨segment, List.mem_singleton_self _, h⟩
    | cons segment' segments =>
      rw [List.intercalate_cons_cons, List.append_assoc, List.singleton_append] at h
      rcases mem_steps_append h with h | h
      · exact .inr ⟨segment, List.mem_cons_self .., h⟩
      · rcases ih h with h | ⟨segment'', hmem, h⟩
        · exact .inl h
        · exact .inr ⟨segment'', List.mem_cons_of_mem _ hmem, h⟩

theorem dirname_eq_some {path front : Bytes} (h : dirname path = some front) :
    ∃ rest, path = front ++ 47 :: rest := by
  unfold dirname at h
  split at h
  · injection h
  · next b back hdrop =>
    injection h with h
    have hslash : b = 47 := by
      have hhead := List.head?_dropWhile_not (· ≠ 47) path.reverse
      simp only [hdrop, List.head?_cons] at hhead
      simpa using hhead
    refine ⟨(path.reverse.takeWhile (· ≠ 47)).reverse, ?_⟩
    have hsplit := List.takeWhile_append_dropWhile (p := (· ≠ (47 : UInt8))) (l := path.reverse)
    rw [hdrop, hslash] at hsplit
    calc path = (path.reverse.takeWhile (· ≠ 47) ++ 47 :: back).reverse := by
          rw [hsplit, List.reverse_reverse]
      _ = front ++ 47 :: (path.reverse.takeWhile (· ≠ 47)).reverse := by
          rw [List.reverse_append, List.reverse_cons, h, List.append_assoc, List.singleton_append]

/-- A path that goes on without a step up leads as far down at least. -/
theorem depth_append_of_not_mem_up {path rest : Bytes} {n m : Nat}
    (h : depth n (steps path) = some m) (hrest : .up ∉ steps rest) :
    ∃ k, depth n (steps (path ++ 47 :: rest)) = some (m + k) := by
  by_cases hnul : 0 ∈ path
  · rw [steps_append_of_mem hnul]
    exact ⟨0, h⟩
  · rw [steps_append hnul, depth_append, h]
    exact depth_of_not_mem_up hrest m

end Path
