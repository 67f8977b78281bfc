import Workplan.Project.Basic

/-!
# Nesting (specification §G)

Every task lies under another task or under the root.  The functions of this module read the
forest off the placements of a project.

* `Project.parent?`, `Project.children` — one level up and down.
* `Project.ancestors` — everything that contains a task, innermost first.
* `Project.descendants` — everything that a task contains, level by level.
* `Project.depth` — the level of a task.
-/

namespace Workplan.Project

/-- What contains a task directly, the root included. -/
def holder? (p : Project) (id : TaskId) : Option TaskId :=
  (p.placements.find? fun q => q.child = id).map Placement.parent

/-- The task that contains a task directly; `none` for top-level tasks. -/
def parent? (p : Project) (id : TaskId) : Option TaskId :=
  (p.holder? id).filter fun parent => parent ≠ .root

/-- The tasks directly inside a task or the root, in the order in which they got there. -/
def children (p : Project) (id : TaskId) : List TaskId :=
  (p.placements.filter fun q => q.parent = id).map Placement.child

/-- The task contains others. -/
def hasChildren (p : Project) (id : TaskId) : Bool := !(p.children id).isEmpty

/-- The tasks met on the way up from a task, for at most `n` levels. -/
def climb (p : Project) : (n : Nat) → (id : TaskId) → List TaskId
  | 0, _ => []
  | n + 1, id =>
    match p.parent? id with
    | none => []
    | some parent => parent :: p.climb n parent

/-- The tasks that contain a task, innermost first. -/
def ancestors (p : Project) (id : TaskId) : List TaskId := p.climb p.placements.length id

/-- The first task or the root strictly contains the second one. -/
def isAncestor (p : Project) (ancestor id : TaskId) : Bool :=
  (p.ancestors id).contains ancestor || (ancestor = .root && id ≠ .root && p.contains id)

/-- The level of a task; top-level tasks have 1. -/
def depth (p : Project) (id : TaskId) : Nat := (p.ancestors id).length + 1

/-- The given tasks and all tasks inside them, level by level, for at most `n` levels. -/
def levels (p : Project) : (n : Nat) → (level : List TaskId) → List TaskId
  | 0, _ => []
  | _, [] => []
  | n + 1, level => level ++ p.levels n (level.flatMap p.children)

/-- The tasks inside a task, containers before what they contain. -/
def descendants (p : Project) (id : TaskId) : List TaskId :=
  p.levels p.placements.length (p.children id)

end Workplan.Project
