import Furrent.Framework.FileTree
import Mathlib.Data.Set.Insert

/-! # Shapes of file trees

    Whether a path or a file can be made depends on a tree only through the
    places of its directories and files. A `Shape` is these two sets of
    locations. The operations on trees that add something are described
    here as operations on shapes: when they succeed, and which locations are
    there afterwards (`makeDirs_shape`, `shape_add_file`). So what a sequence
    of calls needs can be stated without running them. -/

open Path

/-- Where the directories and the files of a tree are. -/
@[ext]
structure Shape (ν : Type*) where
  dirs : Set (List ν)
  files : Set (List ν)

namespace Shape

variable {ν ε : Type*}

/-- There is something. -/
def Present (σ : Shape ν) (loc : List ν) : Prop := loc ∈ σ.dirs ∨ loc ∈ σ.files

/-- There is a directory, or one can be made. -/
def Passable (σ : Shape ν) (refused : List ν → Option ε) (loc : List ν) : Prop :=
  loc ∈ σ.dirs ∨ ¬ σ.Present loc ∧ refused loc = none

/-- Nothing is in the way of a path. -/
def Clear (σ : Shape ν) (refused : List ν → Option ε) (loc : List ν) (steps : List (Step ν)) :
    Prop :=
  ∀ l ∈ way loc steps, σ.Passable refused l

/-- The locations on the way of a path that come before the first
    obstacle. -/
def reach (σ : Shape ν) (refused : List ν → Option ε) (loc : List ν) (steps : List (Step ν)) :
    Set (List ν) :=
  {l | ∃ pre, pre <+: steps ∧ σ.Clear refused loc pre ∧ l = resolve loc pre}

/-- The shape with more directories. -/
def addDirs (σ : Shape ν) (locs : Set (List ν)) : Shape ν := ⟨σ.dirs ∪ locs, σ.files⟩

/-- The shape with one more file. -/
def addFile (σ : Shape ν) (loc : List ν) : Shape ν := ⟨σ.dirs, σ.files ∪ {loc}⟩

variable {σ : Shape ν} {refused : List ν → Option ε} {loc l : List ν} {s : Step ν}
  {steps : List (Step ν)} {locs locs' : Set (List ν)}

/-! ### Adding -/

theorem present_addDirs : (σ.addDirs locs).Present l ↔ σ.Present l ∨ l ∈ locs := by
  simp only [Present, addDirs, Set.mem_union]
  exact or_right_comm

theorem present_addFile : (σ.addFile loc).Present l ↔ σ.Present l ∨ l = loc := by
  simp only [Present, addFile, Set.mem_union, Set.mem_singleton_iff]
  exact or_assoc.symm

theorem addDirs_addDirs : (σ.addDirs locs).addDirs locs' = σ.addDirs (locs ∪ locs') :=
  Shape.ext (Set.union_assoc ..) rfl

theorem addDirs_empty : σ.addDirs ∅ = σ := Shape.ext (Set.union_empty _) rfl

/-- A directory that is there already. -/
theorem addDirs_insert (h : loc ∈ σ.dirs) : σ.addDirs (insert loc locs) = σ.addDirs locs := by
  refine Shape.ext ?_ rfl
  change σ.dirs ∪ insert loc locs = σ.dirs ∪ locs
  rw [Set.union_insert, Set.insert_eq_of_mem (Set.mem_union_left _ h)]

/-- Making one of the directories that can be made is no obstacle. -/
theorem passable_addDirs (h : σ.Passable refused loc) :
    (σ.addDirs {loc}).Passable refused l ↔ σ.Passable refused l := by
  by_cases hl : l = loc
  · rw [hl]
    exact iff_of_true (.inl (.inr rfl)) h
  · have hdirs : l ∈ (σ.addDirs {loc}).dirs ↔ l ∈ σ.dirs := or_iff_left hl
    rw [Passable, Passable, hdirs, present_addDirs, Set.mem_singleton_iff, or_iff_left hl]

/-! ### Paths -/

theorem clear_nil : σ.Clear refused loc [] ↔ σ.Passable refused loc := by
  simp [Clear, way_nil]

theorem clear_cons : σ.Clear refused loc (s :: steps) ↔
    σ.Passable refused loc ∧ σ.Clear refused (s.apply loc) steps := by
  simp [Clear, way_cons]

theorem clear_addDirs (h : σ.Passable refused loc) :
    (σ.addDirs {loc}).Clear refused l steps ↔ σ.Clear refused l steps :=
  forall₂_congr fun _ _ => passable_addDirs h

theorem reach_addDirs (h : σ.Passable refused loc) :
    (σ.addDirs {loc}).reach refused l steps = σ.reach refused l steps := by
  simp only [reach, clear_addDirs h]

/-- An obstacle at the very start. -/
theorem reach_of_not_passable (h : ¬ σ.Passable refused loc) : σ.reach refused loc steps = ∅ := by
  rw [Set.eq_empty_iff_forall_notMem]
  rintro l ⟨pre, _, hclear, _⟩
  exact h (hclear loc (mem_way_self loc pre))

theorem mem_reach_self (h : σ.Passable refused loc) (steps : List (Step ν)) :
    loc ∈ σ.reach refused loc steps :=
  ⟨[], List.nil_prefix, clear_nil.mpr h, rfl⟩

theorem reach_nil (h : σ.Passable refused loc) : σ.reach refused loc [] = {loc} := by
  ext l
  constructor
  · rintro ⟨pre, hpre, _, rfl⟩
    rw [List.prefix_nil.mp hpre]
    rfl
  · rintro rfl
    exact mem_reach_self h []

theorem reach_cons (h : σ.Passable refused loc) :
    σ.reach refused loc (s :: steps) = insert loc (σ.reach refused (s.apply loc) steps) := by
  ext l
  constructor
  · rintro ⟨pre, hpre, hclear, rfl⟩
    cases pre with
    | nil => exact .inl rfl
    | cons s' pre =>
      obtain ⟨rfl, htail⟩ := List.cons_prefix_cons.mp hpre
      exact .inr ⟨pre, htail, (clear_cons.mp hclear).2, rfl⟩
  · rintro (rfl | ⟨pre, hpre, hclear, rfl⟩)
    · exact mem_reach_self h _
    · exact ⟨s :: pre, List.cons_prefix_cons.mpr ⟨rfl, hpre⟩, clear_cons.mpr ⟨h, hclear⟩, rfl⟩

theorem reach_subset_way : σ.reach refused loc steps ⊆ way loc steps := by
  rintro l ⟨pre, hpre, _, rfl⟩
  exact ⟨pre, hpre, rfl⟩

/-- Without an obstacle all of the path is reached. -/
theorem reach_of_clear (h : σ.Clear refused loc steps) :
    σ.reach refused loc steps = way loc steps := by
  refine Set.Subset.antisymm reach_subset_way ?_
  rintro l ⟨pre, hpre, rfl⟩
  refine ⟨pre, hpre, ?_, rfl⟩
  rintro l ⟨pre', hpre', rfl⟩
  exact h _ ⟨pre', hpre'.trans hpre, rfl⟩

end Shape

namespace FileTree

open Shape (Passable)

variable {ν β ε : Type*} {t : FileTree ν β} {loc l : List ν} {steps : List (Step ν)} {name : ν}

/-- The shape of a tree. -/
def shape (t : FileTree ν β) : Shape ν where
  dirs := {loc | t.node loc = some .dir}
  files := {loc | ∃ content, t.node loc = some (.file content)}

theorem mem_dirs : loc ∈ t.shape.dirs ↔ t.node loc = some .dir := Iff.rfl

theorem present_iff : t.shape.Present loc ↔ t.node loc ≠ none := by
  cases hnode : t.node loc with
  | none => simp [Shape.Present, shape, hnode]
  | some n => cases n <;> simp [Shape.Present, shape, hnode]

/-- The end of a walk is a directory when everything on the way is one. -/
theorem walk_dir_iff : t.walk loc steps = some l ∧ t.node l = some .dir ↔
    l = resolve loc steps ∧ way loc steps ⊆ t.shape.dirs := by
  induction steps generalizing loc with
  | nil =>
    rw [walk, way_nil, Set.singleton_subset_iff, mem_dirs, Option.map_eq_some_iff]
    constructor
    · rintro ⟨⟨n, _, rfl⟩, hdir⟩
      exact ⟨rfl, hdir⟩
    · rintro ⟨rfl, hdir⟩
      exact ⟨⟨_, hdir, rfl⟩, hdir⟩
  | cons s steps ih =>
    rw [way_cons, Set.insert_subset_iff, resolve_cons, and_left_comm, ← ih]
    constructor
    · rintro ⟨hwalk, hend⟩
      obtain ⟨hdir, hrest⟩ := walk_cons_eq_some hwalk
      exact ⟨hdir, hrest, hend⟩
    · rintro ⟨hdir, hrest, hend⟩
      refine ⟨?_, hend⟩
      simp only [walk, mem_dirs.mp hdir]
      exact hrest

/-- There is a place for a new file when the path ends with a name and all
    that comes before it are directories. -/
theorem place_iff : t.place loc steps = some (l, name) ↔
    ∃ pre, steps = pre ++ [.down name] ∧ l = resolve loc pre ∧ way loc pre ⊆ t.shape.dirs := by
  rw [place_eq_some_iff]
  exact exists_congr fun pre => and_congr_right fun _ => walk_dir_iff

/-! ### Operations on trees as operations on shapes -/

/-- Nothing is made behind an obstacle. -/
theorem makeDirs_blocked {refused : List ν → Option ε}
    {made : FileTree ν β × Except (MakeError ε) (List ν)}
    (hblocked : ¬ t.shape.Passable refused l) (hmade : ∃ e, made = (t, .error e)) :
    made.1.shape = t.shape.addDirs (t.shape.reach refused l steps) ∧
      ((∃ l, made.2 = .ok l) ↔ t.shape.Clear refused l steps) := by
  obtain ⟨e, rfl⟩ := hmade
  rw [Shape.reach_of_not_passable hblocked, Shape.addDirs_empty]
  exact ⟨rfl, iff_of_false (by simp) fun hclear => hblocked (hclear l (mem_way_self l steps))⟩

variable [DecidableEq ν] [DecidableEq β]

theorem shape_add_dir (hdir : t.node loc = some .dir) (hnone : t.node (loc ++ [name]) = none) :
    (t.add loc name .dir).shape = t.shape.addDirs {loc ++ [name]} := by
  have hnew : (t.add loc name .dir).node (loc ++ [name]) = some .dir := node_add_self hdir hnone
  refine Shape.ext ?_ ?_ <;> ext l <;> by_cases hl : l = loc ++ [name]
  · rw [hl]
    exact iff_of_true hnew (.inr rfl)
  · simp [shape, Shape.addDirs, node_add_of_ne hl, hl]
  · simp [shape, Shape.addDirs, hl, hnew, hnone]
  · simp [shape, Shape.addDirs, node_add_of_ne hl]

theorem shape_add_file {content : β} (hdir : t.node loc = some .dir)
    (hnone : t.node (loc ++ [name]) = none) :
    (t.add loc name (.file content)).shape = t.shape.addFile (loc ++ [name]) := by
  have hnew : (t.add loc name (.file content)).node (loc ++ [name]) = some (.file content) :=
    node_add_self hdir hnone
  refine Shape.ext ?_ ?_ <;> ext l <;> by_cases hl : l = loc ++ [name]
  · simp [shape, Shape.addFile, hl, hnew, hnone]
  · simp [shape, Shape.addFile, node_add_of_ne hl]
  · rw [hl]
    exact iff_of_true ⟨content, hnew⟩ (.inr rfl)
  · simp [shape, Shape.addFile, node_add_of_ne hl, hl]

/-- Making a path gets as far as nothing is in the way. -/
theorem makeDirs_shape (refused : List ν → Option ε) (steps : List (Step ν))
    (hdir : t.node loc = some .dir) :
    (makeDirs refused t loc steps).1.shape = t.shape.addDirs (t.shape.reach refused loc steps) ∧
      ((∃ l, (makeDirs refused t loc steps).2 = .ok l) ↔ t.shape.Clear refused loc steps) := by
  induction steps generalizing t loc with
  | nil =>
    have hpass : t.shape.Passable refused loc := .inl hdir
    rw [Shape.reach_nil hpass, ← insert_empty_eq, Shape.addDirs_insert (mem_dirs.mpr hdir),
      Shape.addDirs_empty, Shape.clear_nil]
    exact ⟨rfl, iff_of_true ⟨loc, rfl⟩ hpass⟩
  | cons s steps ih =>
    have hpass : t.shape.Passable refused loc := .inl hdir
    rw [Shape.reach_cons hpass, Shape.addDirs_insert (mem_dirs.mpr hdir), Shape.clear_cons,
      and_iff_right hpass]
    cases s with
    | stay => exact ih hdir
    | up => exact ih (node_dropLast hdir)
    | down name =>
      -- Here the tree may grow before the rest of the path is made.
      change (makeDirs refused t loc (.down name :: steps)).1.shape =
        t.shape.addDirs (t.shape.reach refused (loc ++ [name]) steps) ∧
          (_ ↔ t.shape.Clear refused (loc ++ [name]) steps)
      cases hnode : t.node (loc ++ [name]) with
      | some n =>
        cases n with
        | dir =>
          -- already there
          simp only [makeDirs, hnode]
          exact ih hnode
        | file content =>
          -- a file in the way
          have hblocked : ¬ t.shape.Passable refused (loc ++ [name]) := by
            simp [Passable, mem_dirs, present_iff, hnode]
          exact makeDirs_blocked hblocked (by simp [makeDirs, hnode])
      | none =>
        cases hrefused : refused (loc ++ [name]) with
        | some e =>
          have hblocked : ¬ t.shape.Passable refused (loc ++ [name]) := by
            simp [Passable, mem_dirs, hnode, hrefused]
          exact makeDirs_blocked hblocked (by simp [makeDirs, hnode, hrefused])
        | none =>
          -- The rest is made in a tree with one more directory, which is on the way anyway.
          have hnext : t.shape.Passable refused (loc ++ [name]) :=
            .inr ⟨by simp [present_iff, hnode], hrefused⟩
          have hmade := ih (node_add_self hdir hnode : (t.add loc name .dir).node _ = _)
          rw [shape_add_dir hdir hnode, Shape.reach_addDirs hnext, Shape.clear_addDirs hnext,
            Shape.addDirs_addDirs, Set.singleton_union,
            Set.insert_eq_of_mem (Shape.mem_reach_self hnext steps)] at hmade
          simp only [makeDirs, hnode, hrefused]
          exact hmade

end FileTree
