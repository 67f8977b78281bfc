/-!
# Identities

Tasks and dependencies are known by number; a number is never given to a second one.

* `TaskId` — a task, or the root that all top-level tasks hang from.
* `DependencyId` — a dependency.
* `idLimit` — how many numbers there are.
-/

namespace Workplan

/-- Numbers have 32 bits. -/
def idLimit : Nat := UInt32.size

/-- The number of a task. -/
@[ext]
structure TaskId where
  /-- The number itself. -/
  number : Nat
deriving DecidableEq, Hashable

/-- The number of a dependency. -/
@[ext]
structure DependencyId where
  /-- The number itself. -/
  number : Nat
deriving DecidableEq, Hashable

namespace TaskId

/-- The root of the hierarchy.  It holds the top-level tasks and is no task itself. -/
def root : TaskId := ⟨0⟩

instance : Inhabited TaskId := ⟨root⟩

/-- Short form, as in sentences. -/
def render (id : TaskId) : String := "#" ++ toString id.number

instance : ToString TaskId := ⟨render⟩

/-- Long form, as in lists. -/
def renderTagged (id : TaskId) : String := "TaskId(" ++ toString id.number ++ ")"

end TaskId

/-- Long form, as in lists. -/
def DependencyId.renderTagged (id : DependencyId) : String :=
  "DependencyId(" ++ toString id.number ++ ")"

/-- Items between square brackets, with commas between them. -/
def renderList (items : List String) : String := "[" ++ ", ".intercalate items ++ "]"

end Workplan
