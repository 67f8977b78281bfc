import Mathlib.Data.List.Basic
import Mathlib.Data.List.Perm.Subperm
import Mathlib.Logic.Relation
import Workplan.Proofs.Rows

/-!
# The nesting is a forest

Looking up containers level by level finds everything that contains a task, although the
number of levels is bounded, because no task contains itself.

- `Project.Inside`: one task lies, directly or not, inside another.
- `Project.Nested`: the placements of a project form a forest over its tasks.
- `Project.Nested.mem_ancestors`: the way up meets exactly what contains a task.
- `Project.Nested.mem_descendants`: the levels below a task hold exactly what lies inside it.
-/

namespace Workplan

namespace Project

variable {p q : Project} {a b x y id : TaskId}

/-- The first task lies inside the second one. -/
def Inside (p : Project) : TaskId → TaskId → Prop :=
  Relation.TransGen fun child parent => p.parent? child = some parent

/-- The placements put every task in one place, and no task inside itself. -/
structure Nested (p : Project) : Prop where
  ids_nodup : (p.tasks.map Task.id).Nodup
  id_ne_root : ∀ t ∈ p.tasks, t.id ≠ .root
  placed : (p.placements.map Placement.child).Perm (p.tasks.map Task.id)
  parent_mem : ∀ s ∈ p.placements, s.parent = .root ∨ s.parent ∈ p.tasks.map Task.id
  acyclic : ∀ x, ¬ p.Inside x x

/-! ## Placements -/

theorem exists_task? (h : id ∈ p.tasks.map Task.id) : ∃ t, p.task? id = some t := by
  obtain ⟨t, ht, rfl⟩ := List.mem_map.mp h
  exact Option.isSome_iff_exists.mp (contains_iff.mpr ⟨t, ht, rfl⟩)

theorem mem_children : a ∈ p.children b ↔ ⟨a, b⟩ ∈ p.placements := by
  simp only [children, List.mem_map, List.mem_filter, decide_eq_true_eq]
  constructor
  · rintro ⟨s, ⟨hs, rfl⟩, rfl⟩
    exact hs
  · intro h
    exact ⟨⟨a, b⟩, ⟨h, rfl⟩, rfl⟩

theorem hasChildren_iff : p.hasChildren a ↔ ∃ x, x ∈ p.children a := by
  rw [hasChildren, Bool.not_eq_true', List.isEmpty_eq_false_iff_exists_mem]

theorem mem_placements_of_parent? (h : p.parent? a = some b) :
    ⟨a, b⟩ ∈ p.placements ∧ b ≠ .root := by
  obtain ⟨hholder, hb⟩ := Option.filter_eq_some_iff.mp h
  obtain ⟨s, hs, rfl⟩ := Option.map_eq_some_iff.mp hholder
  refine ⟨?_, by simpa using hb⟩
  have hchild : s.child = a := by simpa using List.find?_some hs
  rw [← hchild]
  exact List.mem_of_find?_eq_some hs

theorem mem_children_of_parent? (h : p.parent? a = some b) : a ∈ p.children b :=
  mem_children.mpr (mem_placements_of_parent? h).1

theorem hasChildren_of_parent? (h : p.parent? a = some b) : p.hasChildren b :=
  hasChildren_iff.mpr ⟨a, mem_children_of_parent? h⟩

/-- Whatever is inside a task makes it a container. -/
theorem hasChildren_of_inside (h : p.Inside a b) : p.hasChildren b := by
  obtain ⟨x, -, hx⟩ := Relation.TransGen.tail'_iff.mp h
  exact hasChildren_of_parent? hx

namespace Nested

variable (hp : p.Nested)
include hp

theorem children_nodup : (p.placements.map Placement.child).Nodup :=
  hp.placed.nodup_iff.mpr hp.ids_nodup

/-- What holds a task is what the placements say, since each task is placed once. -/
theorem holder?_eq_some_iff : p.holder? a = some b ↔ ⟨a, b⟩ ∈ p.placements := by
  constructor
  · intro h
    obtain ⟨s, hs, rfl⟩ := Option.map_eq_some_iff.mp h
    have hchild : s.child = a := by simpa using List.find?_some hs
    rw [← hchild]
    exact List.mem_of_find?_eq_some hs
  · intro h
    cases hfind : p.placements.find? fun s => s.child = a with
    | none => exact absurd (List.find?_eq_none.mp hfind _ h) (by simp)
    | some s =>
      have hchild : s.child = a := by simpa using List.find?_some hfind
      have hs := List.inj_on_of_nodup_map hp.children_nodup
        (List.mem_of_find?_eq_some hfind) h hchild
      rw [holder?, hfind, hs]
      rfl

theorem parent?_eq_some_iff : p.parent? a = some b ↔ ⟨a, b⟩ ∈ p.placements ∧ b ≠ .root := by
  rw [← hp.holder?_eq_some_iff]
  simp [parent?, Option.filter_eq_some_iff]

/-- Up and down agree. -/
theorem parent?_iff_mem_children (hb : b ≠ .root) : p.parent? a = some b ↔ a ∈ p.children b := by
  rw [hp.parent?_eq_some_iff, mem_children]
  exact and_iff_left hb

theorem child_mem (h : ⟨a, b⟩ ∈ p.placements) : a ∈ p.tasks.map Task.id :=
  hp.placed.subset (List.mem_map_of_mem (f := Placement.child) h)

theorem mem_of_parent? (h : p.parent? a = some b) :
    a ∈ p.tasks.map Task.id ∧ b ∈ p.tasks.map Task.id := by
  obtain ⟨hplace, hb⟩ := mem_placements_of_parent? h
  exact ⟨hp.child_mem hplace, (hp.parent_mem _ hplace).resolve_left hb⟩

theorem mem_of_inside (h : p.Inside a b) :
    a ∈ p.tasks.map Task.id ∧ b ∈ p.tasks.map Task.id := by
  induction h with
  | single h => exact hp.mem_of_parent? h
  | tail _ h ih => exact ⟨ih.1, (hp.mem_of_parent? h).2⟩

/-- No task has the key of the root. -/
theorem ne_root (h : id ∈ p.tasks.map Task.id) : id ≠ .root := by
  obtain ⟨t, ht, rfl⟩ := List.mem_map.mp h
  exact hp.id_ne_root t ht

theorem ne_root_of_task? {t : Task} (h : p.task? id = some t) : id ≠ .root :=
  hp.ne_root (mem_ids_of_task? h)

end Nested

/-! ## The way up -/

/-- What a task is inside of is its parent and what its parent is inside of. -/
theorem inside_of_parent? {parent : TaskId} (h : p.parent? x = some parent) :
    p.Inside x a ↔ a = parent ∨ p.Inside parent a := by
  constructor
  · intro hin
    rcases Relation.TransGen.head'_iff.mp hin with ⟨y, hy, hrest⟩
    rw [h] at hy
    cases hy
    rcases Relation.reflTransGen_iff_eq_or_transGen.mp hrest with rfl | hrest
    · exact .inl rfl
    · exact .inr hrest
  · rintro (rfl | hin)
    · exact .single h
    · exact .head h hin

/-- Climbing one level more starts at the parent. -/
theorem climb_succ (n : Nat) (id : TaskId) :
    p.climb (n + 1) id = match p.parent? id with
      | none => []
      | some parent => parent :: p.climb n parent := rfl

/-- Everything climbed past encloses the task. -/
theorem inside_of_mem_climb {n : Nat} (h : a ∈ p.climb n id) : p.Inside id a := by
  induction n generalizing id with
  | zero => cases h
  | succ n ih =>
    rw [climb_succ] at h
    cases hparent : p.parent? id with
    | none =>
      rw [hparent] at h
      cases h
    | some parent =>
      rw [hparent] at h
      rcases List.mem_cons.mp h with rfl | h
      · exact .single hparent
      · exact .head hparent (ih h)

/-- One level more adds what directly contains something met so far. -/
theorem mem_climb_succ {n : Nat} :
    a ∈ p.climb (n + 1) id ↔ p.parent? id = some a ∨ ∃ y ∈ p.climb n id, p.parent? y = some a := by
  induction n generalizing id with
  | zero =>
    rw [climb_succ]
    cases p.parent? id with
    | none => simp [climb]
    | some parent => simp [climb, eq_comm]
  | succ n ih =>
    rw [climb_succ, climb_succ]
    cases p.parent? id with
    | none => simp
    | some parent => simp [ih, eq_comm]

/-- Everything that encloses the task is climbed past, given room enough. -/
theorem mem_climb_of_inside (h : p.Inside id a) : ∃ n, a ∈ p.climb n id := by
  induction h with
  | single h => exact ⟨1, mem_climb_succ.mpr (.inl h)⟩
  | tail _ h ih =>
    obtain ⟨n, hn⟩ := ih
    exact ⟨n + 1, mem_climb_succ.mpr (.inr ⟨_, hn, h⟩)⟩

/-- A shorter climb is the beginning of a longer one. -/
theorem climb_eq_take (n k : Nat) (id : TaskId) : p.climb n id = (p.climb (n + k) id).take n := by
  induction n generalizing id with
  | zero => simp [climb]
  | succ n ih =>
    rw [climb_succ, Nat.succ_add, climb_succ]
    cases p.parent? id with
    | none => simp
    | some parent => simp [← ih]

namespace Nested

variable (hp : p.Nested)
include hp

/-- No climb meets a container twice: the tree has no cycle. -/
theorem climb_nodup (n : Nat) (id : TaskId) : (p.climb n id).Nodup := by
  induction n generalizing id with
  | zero => exact List.nodup_nil
  | succ n ih =>
    rw [climb_succ]
    cases p.parent? id with
    | none => exact List.nodup_nil
    | some parent =>
      exact List.nodup_cons.mpr ⟨fun h => hp.acyclic parent (inside_of_mem_climb h), ih parent⟩

/-- There are not more levels than tasks. -/
theorem length_climb_le (n : Nat) (id : TaskId) : (p.climb n id).length ≤ p.placements.length := by
  have hsub : p.climb n id ⊆ p.tasks.map Task.id :=
    fun a h => (hp.mem_of_inside (inside_of_mem_climb h)).2
  have hlen := ((hp.climb_nodup n id).subperm hsub).length_le
  have hplaced := hp.placed.length_eq
  rw [List.length_map] at hplaced
  omega

/-- **The way up from a task meets exactly what contains it.** -/
theorem mem_ancestors : a ∈ p.ancestors id ↔ p.Inside id a := by
  constructor
  · exact inside_of_mem_climb
  · intro h
    obtain ⟨n, hn⟩ := mem_climb_of_inside h
    have hall : p.ancestors id = p.climb (p.placements.length + n) id := by
      rw [ancestors, climb_eq_take p.placements.length n id]
      exact List.take_of_length_le (hp.length_climb_le _ id)
    rw [Nat.add_comm] at hall
    rw [hall]
    rw [climb_eq_take n p.placements.length id] at hn
    exact List.mem_of_mem_take hn

/-- The ancestor query answers whether the task is inside. -/
theorem isAncestor_iff (ha : a ≠ .root) : p.isAncestor a id ↔ p.Inside id a := by
  rw [← hp.mem_ancestors]
  simp [isAncestor, ha]

/-! ## The way down -/

/-- A level below some tasks holds what meets them on a short way up. -/
theorem mem_levels {n : Nat} {level : List TaskId} (hlevel : .root ∉ level) :
    x ∈ p.levels (n + 1) level ↔ x ∈ level ∨ ∃ y ∈ p.climb n x, y ∈ level := by
  induction n generalizing level with
  | zero => cases level <;> simp [levels, climb]
  | succ n ih =>
    have hflat : ∀ y, y ∈ level.flatMap p.children ↔ ∃ z ∈ level, p.parent? y = some z := by
      intro y
      rw [List.mem_flatMap]
      refine exists_congr fun z => and_congr_right fun hz => ?_
      exact (hp.parent?_iff_mem_children fun e => hlevel (e ▸ hz)).symm
    -- the root is nobody's child, so the next level is free of it as well
    have hroot : .root ∉ level.flatMap p.children := by
      intro h
      obtain ⟨z, hz, hparent⟩ := (hflat .root).mp h
      exact hp.ne_root (hp.mem_of_parent? hparent).1 rfl
    cases level with
    | nil => simp [levels]
    | cons first rest =>
      rw [levels, List.mem_append, ih hroot]
      · refine or_congr_right ?_
        rw [hflat]
        constructor
        · rintro (⟨z, hz, hparent⟩ | ⟨y, hy, hyflat⟩)
          · exact ⟨z, mem_climb_succ.mpr (.inl hparent), hz⟩
          · obtain ⟨z, hz, hparent⟩ := (hflat y).mp hyflat
            exact ⟨z, mem_climb_succ.mpr (.inr ⟨y, hy, hparent⟩), hz⟩
        · rintro ⟨z, hclimb, hz⟩
          rcases mem_climb_succ.mp hclimb with hparent | ⟨y, hy, hparent⟩
          · exact .inl ⟨z, hz, hparent⟩
          · exact .inr ⟨y, hy, (hflat y).mpr ⟨z, hz, hparent⟩⟩
      · exact List.cons_ne_nil first rest

/-- **The levels below a task hold exactly what lies inside it.** -/
theorem mem_descendants (ha : a ≠ .root) : x ∈ p.descendants a ↔ p.Inside x a := by
  rw [← hp.mem_ancestors, descendants, ancestors]
  have hchild : ∀ y, y ∈ p.children a ↔ p.parent? y = some a :=
    fun y => (hp.parent?_iff_mem_children ha).symm
  cases hn : p.placements.length with
  | zero => simp [levels, climb]
  | succ n =>
    have hroot : .root ∉ p.children a := by
      intro h
      exact hp.ne_root (hp.mem_of_parent? ((hchild .root).mp h)).1 rfl
    rw [hp.mem_levels hroot, mem_climb_succ]
    simp only [hchild]

end Nested

end Project

end Workplan
