import Workplan.Identity

/-!
# Keys of tasks

A `KeyTable` finds tasks by their key and keys by their task.  A taken key is refused; a task
that gets a second key is from then on found under both, and known by the second.

* `KeyTable.bind`, `KeyTable.unbind` — giving a key to a task and taking it away.
* `KeyTable.get?`, `KeyTable.resolve?` — the two directions.
-/

namespace Workplan

/-- Keys and the tasks that they stand for. -/
structure KeyTable where
  /-- The task of every taken key; each key occurs once. -/
  taskOf : List (String × TaskId)
  /-- The present key of every task that has one; each task occurs once. -/
  keyOf : List (TaskId × String)
deriving DecidableEq

namespace KeyTable

/-- No keys. -/
def empty : KeyTable := ⟨[], []⟩

instance : Inhabited KeyTable := ⟨empty⟩

/-- The task that a key stands for. -/
def get? (t : KeyTable) (key : String) : Option TaskId := t.taskOf.lookup key

/-- The present key of a task. -/
def resolve? (t : KeyTable) (id : TaskId) : Option String := t.keyOf.lookup id

/-- Number of taken keys. -/
def size (t : KeyTable) : Nat := t.taskOf.length

/-- No key is taken. -/
def isEmpty (t : KeyTable) : Bool := t.taskOf.isEmpty

/-- Gives a key to a task; `none` if the key is taken. -/
def bind? (t : KeyTable) (key : String) (id : TaskId) : Option KeyTable :=
  if (t.get? key).isSome then none
  else some ⟨(key, id) :: t.taskOf, (id, key) :: t.keyOf.filter fun entry => entry.1 != id⟩

/-- Takes away the present key of a task. -/
def unbind (t : KeyTable) (id : TaskId) : KeyTable :=
  match t.resolve? id with
  | none => t
  | some key =>
    ⟨t.taskOf.filter fun entry => entry.1 != key, t.keyOf.filter fun entry => entry.1 != id⟩

end KeyTable

end Workplan
