import Furrent.Framework.Path
import Mathlib.Order.Basic

/-! # File trees

    A file system is a tree of directories and files, given by the node at
    each location. Whatever exists lies in a directory; a tree carries the
    proof of this, so that nothing lies below a location where there is
    nothing (`node_eq_none_of_below`).

    Trees are ordered by what they have: `t ≤ t'` when everything in `t` is
    in `t'` as it was. Operations that add a node go up in this order, and a
    path that leads somewhere still leads there in a larger tree. -/

open Path

/-- What is at a location. -/
inductive Node (β : Type*) where
  | dir
  | file (content : β)
  deriving DecidableEq, Repr

/-- A file system with names in `ν` and files in `β`. -/
structure FileTree (ν β : Type*) where
  node : List ν → Option (Node β)
  root : node [] = some .dir
  parent : ∀ loc name, node (loc ++ [name]) ≠ none → node loc = some .dir

namespace FileTree

variable {ν β ε : Type*}

/-- The tree with nothing but the root. -/
def bare [DecidableEq ν] : FileTree ν β where
  node loc := if loc = [] then some .dir else none
  root := if_pos rfl
  parent loc name h := by simp at h

instance : Preorder (FileTree ν β) where
  le t t' := ∀ loc n, t.node loc = some n → t'.node loc = some n
  le_refl _ _ _ h := h
  le_trans _ _ _ h h' loc n hn := h' loc n (h loc n hn)

variable {t t' : FileTree ν β} {loc loc' : List ν}

theorem node_of_le (h : t ≤ t') {n : Node β} (hn : t.node loc = some n) :
    t'.node loc = some n := h loc n hn

/-- Below a location where there is nothing there is nothing. -/
theorem node_eq_none_of_below (h : t.node loc = none) (hunder : loc <+: loc') :
    t.node loc' = none := by
  obtain ⟨names, rfl⟩ := hunder
  induction names using List.reverseRecOn with
  | nil => rw [List.append_nil, h]
  | append_singleton names name ih =>
    by_contra hne
    rw [← List.append_assoc] at hne
    rw [t.parent _ _ hne] at ih
    injection ih

/-- What is above a directory is a directory. -/
theorem node_dropLast (h : t.node loc = some .dir) : t.node loc.dropLast = some .dir := by
  induction loc using List.reverseRecOn with
  | nil => exact h
  | append_singleton loc name _ =>
    rw [List.dropLast_concat]
    apply t.parent loc name
    rw [h]
    exact Option.some_ne_none _

/-! ### Walks -/

/-- Follow a path; all but the end of it must be directories. -/
def walk (t : FileTree ν β) (loc : List ν) : List (Step ν) → Option (List ν)
  | [] => (t.node loc).map fun _ => loc
  | s :: steps =>
    match t.node loc with
    | some .dir => t.walk (s.apply loc) steps
    | _ => none

theorem walk_cons_eq_some {s : Step ν} {steps : List (Step ν)}
    (h : t.walk loc (s :: steps) = some loc') :
    t.node loc = some .dir ∧ t.walk (s.apply loc) steps = some loc' := by
  unfold walk at h
  split at h
  · next hdir => exact ⟨hdir, h⟩
  · injection h

/-- Everything on the way of a successful walk exists. -/
theorem walk_visits {steps pre : List (Step ν)} (h : t.walk loc steps = some loc')
    (hpre : pre <+: steps) : t.node (resolve loc pre) ≠ none := by
  induction steps generalizing loc pre with
  | nil =>
    obtain ⟨n, hn, _⟩ := Option.map_eq_some_iff.mp h
    rw [List.prefix_nil.mp hpre]
    change t.node loc ≠ none
    rw [hn]
    exact Option.some_ne_none n
  | cons s steps ih =>
    obtain ⟨hdir, h⟩ := walk_cons_eq_some h
    cases pre with
    | nil =>
      change t.node loc ≠ none
      rw [hdir]
      exact Option.some_ne_none _
    | cons s' pre =>
      obtain ⟨rfl, htail⟩ := List.cons_prefix_cons.mp hpre
      rw [resolve_cons]
      exact ih h htail

theorem walk_eq_some {steps : List (Step ν)} (h : t.walk loc steps = some loc') :
    loc' = resolve loc steps := by
  induction steps generalizing loc with
  | nil =>
    obtain ⟨n, _, hloc⟩ := Option.map_eq_some_iff.mp h
    exact hloc.symm
  | cons s steps ih => exact ih (walk_cons_eq_some h).2

/-- In a larger tree a path leads where it led. -/
theorem walk_of_le (hle : t ≤ t') {steps : List (Step ν)} (h : t.walk loc steps = some loc') :
    t'.walk loc steps = some loc' := by
  induction steps generalizing loc with
  | nil =>
    obtain ⟨n, hn, hloc⟩ := Option.map_eq_some_iff.mp h
    exact Option.map_eq_some_iff.mpr ⟨n, node_of_le hle hn, hloc⟩
  | cons s steps ih =>
    obtain ⟨hdir, h⟩ := walk_cons_eq_some h
    simp only [walk, node_of_le hle hdir]
    exact ih h

theorem walk_append {steps steps' : List (Step ν)} (h : t.walk loc steps = some loc') :
    t.walk loc (steps ++ steps') = t.walk loc' steps' := by
  induction steps generalizing loc with
  | nil =>
    obtain ⟨n, _, hloc⟩ := Option.map_eq_some_iff.mp h
    rw [hloc, List.nil_append]
  | cons s steps ih =>
    obtain ⟨hdir, h⟩ := walk_cons_eq_some h
    simp only [List.cons_append, walk, hdir]
    exact ih h

/-- The directory and the name for a new file at the end of a path. -/
def place (t : FileTree ν β) (loc : List ν) (steps : List (Step ν)) : Option (List ν × ν) :=
  match steps.getLast? with
  | some (.down name) =>
    match t.walk loc steps.dropLast with
    | some dir =>
      match t.node dir with
      | some .dir => some (dir, name)
      | _ => none
    | none => none
  | _ => none

theorem place_eq_some_iff {steps : List (Step ν)} {name : ν} :
    t.place loc steps = some (loc', name) ↔
      ∃ pre, steps = pre ++ [.down name] ∧ t.walk loc pre = some loc' ∧
        t.node loc' = some .dir := by
  constructor
  · intro h
    unfold place at h
    split at h
    · next name' hlast =>
      split at h
      · next dir hwalk =>
        split at h
        · next hdir =>
          injection h with h
          injection h with hloc hname
          rw [← hloc, ← hname]
          exact ⟨steps.dropLast, (List.dropLast_append_getLast? _ hlast).symm, hwalk, hdir⟩
        · injection h
      · injection h
    · injection h
  · rintro ⟨pre, rfl, hwalk, hdir⟩
    simp only [place, List.getLast?_concat, List.dropLast_concat, hwalk, hdir]

/-- What is at the end of a path, once the directory is known. -/
theorem walk_of_place {steps : List (Step ν)} {name : ν}
    (h : t.place loc steps = some (loc', name)) :
    t.walk loc steps = (t.node (loc' ++ [name])).map fun _ => loc' ++ [name] := by
  obtain ⟨pre, rfl, hwalk, hdir⟩ := place_eq_some_iff.mp h
  rw [walk_append hwalk]
  simp only [walk, hdir]
  rfl

/-! ### What making directories does -/

/-- Why a directory was not made. -/
inductive MakeError (ε : Type*) where
  | notADirectory
  | refused (e : ε)
  deriving DecidableEq, Repr

variable {r : Except (MakeError ε) (List ν)}

/-- Nothing was lost, and if all directories were made, the path leads
    somewhere. -/
structure Made (t : FileTree ν β) (loc : List ν) (steps : List (Step ν)) (t' : FileTree ν β)
    (r : Except (MakeError ε) (List ν)) : Prop where
  le : t ≤ t'
  ok : ∀ loc', r = .ok loc' → t'.walk loc steps = some loc'

theorem Made.nothing {steps : List (Step ν)} {e : MakeError ε} :
    Made t loc steps t (.error e) where
  le := le_rfl
  ok _ h := by injection h

/-- A step in front. -/
theorem Made.cons {s : Step ν} {steps : List (Step ν)} (hdir : t.node loc = some .dir)
    (h : Made t (s.apply loc) steps t' r) : Made t loc (s :: steps) t' r where
  le := h.le
  ok loc' hr := by
    simp only [walk, node_of_le h.le hdir]
    exact h.ok loc' hr

variable [DecidableEq ν]

/-! ### New nodes -/

section

variable [DecidableEq β]

/-- Make a node, in a directory and where there is none. -/
def add (t : FileTree ν β) (loc : List ν) (name : ν) (n : Node β) : FileTree ν β :=
  if h : t.node loc = some .dir ∧ t.node (loc ++ [name]) = none then
    { node := Function.update t.node (loc ++ [name]) (some n)
      root := by
        rw [Function.update_of_ne (by simp)]
        exact t.root
      parent := by
        intro l x hx
        by_cases hnew : l ++ [x] = loc ++ [name]
        · obtain ⟨rfl, _⟩ := List.append_inj' hnew rfl
          rw [Function.update_of_ne (by simp)]
          exact h.1
        · rw [Function.update_of_ne hnew] at hx
          have hdir := t.parent l x hx
          -- what had a child before is not the new node
          have hne : l ≠ loc ++ [name] := by
            intro heq
            rw [heq, h.2] at hdir
            injection hdir
          rw [Function.update_of_ne hne]
          exact hdir }
  else t

theorem node_add_of_ne {name : ν} {n : Node β} (h : loc' ≠ loc ++ [name]) :
    (t.add loc name n).node loc' = t.node loc' := by
  unfold add
  split
  · exact Function.update_of_ne h ..
  · rfl

theorem node_add_self {name : ν} {n : Node β} (hdir : t.node loc = some .dir)
    (hnone : t.node (loc ++ [name]) = none) :
    (t.add loc name n).node (loc ++ [name]) = some n := by
  rw [add, dif_pos ⟨hdir, hnone⟩]
  exact Function.update_self ..

theorem le_add (t : FileTree ν β) (loc : List ν) (name : ν) (n : Node β) :
    t ≤ t.add loc name n := by
  intro loc' n' hn'
  by_cases hnew : loc' = loc ++ [name]
  · have hnone : t.node (loc ++ [name]) ≠ none := by
      rw [← hnew, hn']
      exact Option.some_ne_none n'
    rw [add, dif_neg fun h => hnone h.2]
    exact hn'
  · rw [node_add_of_ne hnew]
    exact hn'

/-! ### Making directories -/

/-- Follow a path, making the directories that are missing. The system may
    refuse to make one. -/
def makeDirs (refused : List ν → Option ε) (t : FileTree ν β) (loc : List ν) :
    List (Step ν) → FileTree ν β × Except (MakeError ε) (List ν)
  | [] => (t, .ok loc)
  | .stay :: steps => makeDirs refused t loc steps
  | .up :: steps => makeDirs refused t loc.dropLast steps
  | .down name :: steps =>
    match t.node (loc ++ [name]) with
    | some .dir => makeDirs refused t (loc ++ [name]) steps
    | some (.file _) => (t, .error .notADirectory)
    | none =>
      match refused (loc ++ [name]) with
      | some e => (t, .error (.refused e))
      | none => makeDirs refused (t.add loc name .dir) (loc ++ [name]) steps

/-- A directory was made first. -/
theorem Made.of_add {name : ν} {steps : List (Step ν)}
    (h : Made (t.add loc name .dir) loc (.down name :: steps) t' r) :
    Made t loc (.down name :: steps) t' r where
  le := (t.le_add loc name .dir).trans h.le
  ok := h.ok

theorem makeDirs_made {refused : List ν → Option ε} {steps : List (Step ν)}
    (hdir : t.node loc = some .dir) (h : makeDirs refused t loc steps = (t', r)) :
    Made t loc steps t' r := by
  induction steps generalizing t loc with
  | nil =>
    injection h with ht hr
    subst ht hr
    refine ⟨le_rfl, ?_⟩
    intro loc' hloc
    injection hloc with hloc
    rw [walk, hdir, Option.map_some, hloc]
  | cons s steps ih =>
    cases s with
    | stay => exact .cons hdir (ih hdir h)
    | up => exact .cons hdir (ih (node_dropLast hdir) h)
    | down name =>
      unfold makeDirs at h
      split at h
      · next hnext => exact .cons hdir (ih hnext h)
      · injection h with ht hr
        subst ht hr
        exact .nothing
      · next hnone =>
        split at h
        · injection h with ht hr
          subst ht hr
          exact .nothing
        · have hdir' := node_of_le (t.le_add loc name .dir) hdir
          exact .of_add (.cons hdir' (ih (node_add_self hdir hnone) h))

end

/-! ### Removal -/

/-- Remove what is at and below a location, but for what lies on the way to
    one of the locations `kept`. The root stays. -/
def prune (kept : List (List ν)) (t : FileTree ν β) (loc : List ν) : FileTree ν β where
  node l := if loc <+: l ∧ l ≠ [] ∧ ∀ k ∈ kept, ¬ l <+: k then none else t.node l
  root := by
    rw [if_neg (by simp)]
    exact t.root
  parent := by
    intro l x hx
    split at hx
    · exact absurd rfl hx
    · next hstays =>
      rw [if_neg]
      · exact t.parent l x hx
      · -- what is below a removed node would be removed
        intro hgone
        apply hstays
        refine ⟨hgone.1.trans (List.prefix_append l [x]), by simp, ?_⟩
        intro k hk hunder
        exact hgone.2.2 k hk ((List.prefix_append l [x]).trans hunder)

theorem node_prune_of_below {kept : List (List ν)} (hunder : loc <+: loc') (hne : loc' ≠ [])
    (hkept : ∀ k ∈ kept, ¬ loc' <+: k) : (t.prune kept loc).node loc' = none :=
  if_pos ⟨hunder, hne, hkept⟩

theorem node_prune_of_kept {kept : List (List ν)}
    (h : loc <+: loc' → loc' = [] ∨ ∃ k ∈ kept, loc' <+: k) :
    (t.prune kept loc).node loc' = t.node loc' := by
  apply if_neg
  intro hgone
  rcases h hgone.1 with hroot | ⟨k, hk, hunder⟩
  · exact hgone.2.1 hroot
  · exact hgone.2.2 k hk hunder

end FileTree
