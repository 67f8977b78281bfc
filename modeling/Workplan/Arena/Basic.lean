import Mathlib.Data.List.ReduceOption
import Workplan.Project.Basic

/-!
# Arenas (specification §G)

A `Project` lists what is alive.  An `Arena` keeps the same things in tables of slots.  The number
of a task is its slot in five of them: the tasks, the containers, the contents, and the dependencies
at either end.  Nothing but the operations makes these tables agree.  A slot is never given out
again: what is removed leaves an empty slot behind, and among the containers a stale one.

* `Arena` — the tables.
* `Arena.task?`, `Arena.parent?`, `Arena.children`, `Arena.dependency?` — single slots.
* `loop` — a loop, round by round.
* `Arena.isAncestor`, `Arena.depth`, `Arena.descendants` — the loops that go up and down.
-/

namespace Workplan

/-- Goes on from round to round until one of them ends the loop.  If none of the first `n` rounds
does, there is no answer. -/
def loop {σ β : Type} (round : σ → σ ⊕ β) : (n : Nat) → σ → Option β
  | 0, _ => none
  | n + 1, s =>
    match round s with
    | .inl s => loop round n s
    | .inr b => some b

/-- Tasks, their nesting and their dependencies, in tables of slots. -/
structure Arena where
  /-- The days of work. -/
  calendar : Calendar
  /-- The tasks.  The first slot stands for the root and stays empty. -/
  taskSlots : List (Option Task)
  /-- The container of each task, or the root.  The slot of a removed task keeps what it held. -/
  parentSlots : List TaskId
  /-- What lies directly inside each task and the root, in the order in which it got there. -/
  childSlots : List (List TaskId)
  /-- The dependencies that wait for each task, oldest first. -/
  outgoingSlots : List (List DependencyId)
  /-- The dependencies that bound each task itself, oldest first. -/
  incomingSlots : List (List DependencyId)
  /-- The dependencies. -/
  dependencySlots : List (Option Dependency)
  /-- The names of the tasks. -/
  keys : KeyTable

namespace Arena

/-- An arena without tasks: just the slots of the root. -/
def empty (calendar : Calendar) : Arena := ⟨calendar, [none], [.root], [[]], [[]], [[]], [], .empty⟩

instance : Inhabited Arena := ⟨empty .standard⟩

/-- The list in the slot of a task; there is nothing beyond the table. -/
def row {α : Type} (slots : List (List α)) (id : TaskId) : List α := slots[id.number]?.getD []

/-! ## Tasks -/

/-- The task with a number. -/
def task? (a : Arena) (id : TaskId) : Option Task := a.taskSlots[id.number]?.join

/-- The task with a number, which has to exist. -/
def get (a : Arena) (id : TaskId) : Except Fault Task :=
  match a.task? id with
  | some t => .ok t
  | none => .error (.taskNotFound id)

/-- There is a task with this number. -/
def contains (a : Arena) (id : TaskId) : Bool := (a.task? id).isSome

/-- The task with a name. -/
def lookup? (a : Arena) (name : String) : Option TaskId := a.keys.get? name

/-- The tasks, oldest first. -/
def tasks (a : Arena) : List Task := a.taskSlots.reduceOption

/-- Number of tasks. -/
def size (a : Arena) : Nat := a.keys.size

/-- There are no tasks. -/
def isEmpty (a : Arena) : Bool := a.keys.isEmpty

/-! ## Nesting -/

/-- The task that contains a task directly; `none` for top-level tasks, and for removed ones,
whatever their slot still holds. -/
def parent? (a : Arena) (id : TaskId) : Option TaskId :=
  a.parentSlots[id.number]?.filter fun parent => parent ≠ .root && a.contains id

/-- The tasks directly inside a task or the root, in the order in which they got there. -/
def children (a : Arena) (id : TaskId) : List TaskId := row a.childSlots id

/-- The task contains others. -/
def hasChildren (a : Arena) (id : TaskId) : Bool := !(a.children id).isEmpty

/-- More rounds than there are slots. -/
def room (a : Arena) : Nat := a.taskSlots.length + 1

/-- One round of looking for a task further up: the present one is it, or its container is next. -/
def seek (a : Arena) (ancestor : TaskId) : (current? : Option TaskId) → Option TaskId ⊕ Bool
  | none => .inr false
  | some current => if current = ancestor then .inr true else .inl (a.parent? current)

/-- The first task or the root strictly contains the second one. -/
def isAncestor (a : Arena) (ancestor id : TaskId) : Bool :=
  (loop (a.seek ancestor) a.room (a.parent? id)).getD false
    || (ancestor = .root && id ≠ .root && a.contains id)

/-- One round of counting the levels above a task, with those that are counted so far. -/
def ascend (a : Arena) : (state : Nat × Option TaskId) → (Nat × Option TaskId) ⊕ Nat
  | (depth, none) => .inr depth
  | (depth, some current) => .inl (depth + 1, a.parent? current)

/-- The level of a task; top-level tasks have 1. -/
def depth (a : Arena) (id : TaskId) : Nat := (loop a.ascend a.room (0, some id)).getD 0

/-- One round of listing the tasks below, with those that are listed and the queue of those that are
met: the first of the queue is listed, and what lies inside it queues up. -/
def sweep (a : Arena) : (state : List TaskId × List TaskId) →
    (List TaskId × List TaskId) ⊕ List TaskId
  | (listed, []) => .inr listed
  | (listed, next :: queue) => .inl (listed ++ [next], queue ++ a.children next)

/-- The tasks inside a task, containers before what they contain. -/
def descendants (a : Arena) (id : TaskId) : List TaskId :=
  (loop a.sweep a.room ([], a.children id)).getD []

/-! ## Dependencies -/

/-- The dependency with a number. -/
def dependency? (a : Arena) (id : DependencyId) : Option Dependency :=
  a.dependencySlots[id.number]?.join

/-- The dependencies, oldest first. -/
def dependencies (a : Arena) : List Dependency := a.dependencySlots.reduceOption

/-- The dependencies that wait for a task, oldest first. -/
def outgoing (a : Arena) (id : TaskId) : List Dependency :=
  (row a.outgoingSlots id).filterMap a.dependency?

/-- The dependencies that bound a task itself, oldest first. -/
def incoming (a : Arena) (id : TaskId) : List Dependency :=
  (row a.incomingSlots id).filterMap a.dependency?

end Arena

end Workplan
