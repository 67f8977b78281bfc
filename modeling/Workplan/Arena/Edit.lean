import Workplan.Arena.Basic
import Workplan.Project.Edit

/-!
# Edits of an arena

Every edit writes the tables that it touches, and no others.  A removed task takes out what is
inside it, one task after the other, and with each of them its dependencies, which leave the lists
at both of their ends.

* `Arena.insertTask`, `Arena.removeTask`, `Arena.place` — tasks and their nesting.
* `Arena.addDependency`, `Arena.removeDependency` — dependencies.
* `Arena.write` — the one place where dates are written.
* `Arena.edit` — all edits.
-/

namespace Workplan.Arena

/-- A list without one of its members. -/
def drop {α : Type} [DecidableEq α] (x : α) (xs : List α) : List α := xs.filter fun y => y ≠ x

/-- A list with one more member. -/
def push {α : Type} (x : α) (xs : List α) : List α := xs ++ [x]

/-! ## Tasks -/

/-- Adds a top-level task: every table of tasks gets a slot more, and the contents of the root a
member. -/
def insertTask (a : Arena) (name : String) (start finish : Day) (duration : Duration)
    (milestone : Bool) : Except Fault (TaskId × Arena) :=
  let id : TaskId := ⟨a.taskSlots.length⟩
  if idLimit ≤ id.number then .error (.capacityExceeded .tasks)
  else match a.keys.bind? name id with
    | none => .error (.duplicateTask name)
    | some keys =>
      .ok (id, { a with
        taskSlots := a.taskSlots ++ [some ⟨id, name, start, finish, duration, milestone, .absent⟩]
        parentSlots := a.parentSlots ++ [.root]
        childSlots := (a.childSlots ++ [[]]).modify TaskId.root.number (push id)
        outgoingSlots := a.outgoingSlots ++ [[]]
        incomingSlots := a.incomingSlots ++ [[]]
        keys })

/-- Adds a top-level task; its end follows from start and duration (`add_task`,
specification §G). -/
def addTask (a : Arena) (name : String) (start : Day) (duration : Duration) :
    Except Fault (TaskId × Arena) := do
  let finish ← a.calendar.shift start duration
  a.insertTask name start finish duration false

/-- Adds a top-level task without length. -/
def addMilestone (a : Arena) (name : String) (day : Day) : Except Fault (TaskId × Arena) :=
  a.insertTask name day day (.days 0) true

/-- Empties the slot of a dependency and takes it out of the lists at both of its ends. -/
def detach (a : Arena) (id : DependencyId) : Arena :=
  match a.dependency? id with
  | none => a
  | some d => { a with
      dependencySlots := a.dependencySlots.set id.number none
      outgoingSlots := a.outgoingSlots.modify d.dependee.number (drop id)
      incomingSlots := a.incomingSlots.modify d.dependant.number (drop id) }

/-- Takes a task out of the contents of its container. -/
def unhook (a : Arena) (id : TaskId) : Arena :=
  let parent := a.parentSlots[id.number]?.getD .root
  { a with childSlots := a.childSlots.modify parent.number (drop id) }

/-- Detaches every dependency at either end of a task, empties its slot and its contents, and
forgets its name. -/
def discard (a : Arena) (id : TaskId) : Arena :=
  let touching := row a.outgoingSlots id ++ row a.incomingSlots id
  let a := touching.foldl detach a
  { a with
    taskSlots := a.taskSlots.set id.number none
    childSlots := a.childSlots.modify id.number fun _ => []
    keys := a.keys.unbind id }

/-- Removes a task with everything inside it and every dependency that touches any of it
(`remove_task`, specification §G). -/
def removeTask (a : Arena) (id : TaskId) : Except Fault Arena := do
  let _ ← a.get id
  let doomed := a.descendants id ++ [id]
  return doomed.foldl discard (a.unhook id)

/-- Moves a task from its container to another one, behind what is there, unless it would lie inside
itself. -/
def nest (a : Arena) (child parent : TaskId) : Except Fault Arena := do
  if child = parent ∨ a.isAncestor child parent then
    throw (.invalidHierarchy child parent .insideItself)
  let a := a.unhook child
  return { a with
    childSlots := a.childSlots.modify parent.number (push child)
    parentSlots := a.parentSlots.set child.number parent }

/-- Puts a task under another one, or under the root (`set_parent`, specification §G). -/
def place (a : Arena) (child parent : TaskId) : Except Fault Arena := do
  let _ ← a.get child
  if parent ≠ .root then let _ ← a.get parent
  a.nest child parent

/-! ## Dependencies -/

/-- Adds a dependency between two tasks, neither of which contains the other and which are not
linked in this direction yet (`add_dependency`, specification §G). -/
def addDependency (a : Arena) (dependee dependant : TaskId) (kind : LinkKind)
    (hardness : Hardness) (lag : Int) : Except Fault (DependencyId × Arena) := do
  let _ ← a.get dependee
  let _ ← a.get dependant
  if dependee = dependant then throw (.invalidDependency dependee dependant .sameTask)
  if a.isAncestor dependee dependant || a.isAncestor dependant dependee then
    throw (.invalidDependency dependee dependant .sameBranch)
  if (a.incoming dependant).any fun d => d.dependee = dependee then
    throw (.invalidDependency dependee dependant .duplicate)
  let id : DependencyId := ⟨a.dependencySlots.length⟩
  if idLimit ≤ id.number then throw (.capacityExceeded .dependencies)
  return (id, { a with
    dependencySlots := a.dependencySlots ++ [some ⟨id, dependee, dependant, kind, hardness, lag⟩]
    outgoingSlots := a.outgoingSlots.modify dependee.number (push id)
    incomingSlots := a.incomingSlots.modify dependant.number (push id) })

/-- Removes a dependency. -/
def removeDependency (a : Arena) (id : DependencyId) : Except Fault Arena :=
  if (a.dependency? id).isNone then .error (.invalidDependency .root .root (.unknown id))
  else .ok (a.detach id)

/-! ## Changes of one task -/

/-- What a change has done: whether some field of the task is different now, what is announced, and
the arena afterwards. -/
abbrev Written := (Bool × Option Event) × Arena

/-- Gives a task new dates, a new duration and possibly a new anchor, unless it would end before it
starts.  Only its own slot is written. -/
def write (a : Arena) (id : TaskId) (start finish : Day) (duration : Duration)
    (anchor? : Option Anchor) : Except Fault Written :=
  if finish < start then .error (.invalidDates id start finish)
  else do
    let old ← a.get id
    let new := { old with start, finish, duration, anchor := anchor?.getD old.anchor }
    let moved := old.start ≠ start ∨ old.finish ≠ finish
    return ((decide (new ≠ old),
        if moved then some (.datesChanged id old.start old.finish start finish) else none),
      { a with taskSlots := a.taskSlots.set id.number (some new) })

/-- End and duration that follow from a revision.  A milestone ends where it starts; a new
duration gives the end; otherwise the duration is the working time between the dates. -/
def revisedSpan (a : Arena) (old : Task) (start : Day) (r : Revision) :
    Except Fault (Day × Duration) :=
  if old.milestone then
    .ok (start, ⟨0, (r.duration?.getD old.duration).grain⟩)
  else match r.duration? with
    | some duration => do return (← a.calendar.shift start duration, duration)
    | none =>
      let finish := r.finish?.getD old.finish
      .ok (finish, a.calendar.workingLength old.grain start finish)

/-- Carries out a revision. -/
def revise (a : Arena) (id : TaskId) (r : Revision) : Except Fault Written := do
  let old ← a.get id
  let start := r.start?.getD old.start
  let (finish, duration) ← a.revisedSpan old start r
  a.write id start finish duration r.anchor?

/-- Moves a task by working time and keeps its duration.  A move forward that ends on a
non-working day goes on to the next working unit. -/
def slide (a : Arena) (id : TaskId) (lengths : List Duration) : Except Fault Written := do
  let old ← a.get id
  let total : Duration := ⟨← Project.totalCount 0 lengths, old.grain⟩
  let landing ← a.calendar.shift old.start total
  let start := if 0 < total.count then a.calendar.onOrAfter old.grain landing else landing
  let finish ← if old.milestone then pure start else a.calendar.shift start old.duration
  a.write id start finish old.duration none

/-- Moves a task to a start.  A container takes the start and keeps its end.  Another task
keeps its duration and moves by the working time between the two starts; a non-working day
gives way to the next working unit. -/
def startAt (a : Arena) (id : TaskId) (start : Day) : Except Fault Written := do
  let old ← a.get id
  if a.hasChildren id then a.revise id { start? := some start }
  else
    let target := a.calendar.onOrAfter old.grain start
    let way := a.calendar.workingLength old.grain old.start target
    if target = old.start then return ((false, none), a)
    else if way.isZero then a.revise id { start? := some target, duration? := some old.duration }
    else a.slide id [way]

/-- Carries out a change. -/
def change (a : Arena) : Change → Except Fault Written
  | .revise id r => a.revise id r
  | .slide id lengths => a.slide id lengths
  | .startAt id start => a.startAt id start

/-! ## Edits -/

/-- Carries out an edit.  The answer is the reply, what is announced, and the arena afterwards. -/
def edit (a : Arena) : Edit → Except Fault ((Reply × Option Event) × Arena)
  | .addTask name start duration =>
    (a.addTask name start duration).map fun (id, a) => ((.task id, none), a)
  | .addMilestone name day => (a.addMilestone name day).map fun (id, a) => ((.task id, none), a)
  | .removeTask id => (a.removeTask id).map fun a => ((.done, some .graphChanged), a)
  | .place child parent => (a.place child parent).map fun a => ((.done, some .graphChanged), a)
  | .addDependency dependee dependant kind hardness lag =>
    (a.addDependency dependee dependant kind hardness lag).map
      fun (id, a) => ((.dependency id, some .graphChanged), a)
  | .removeDependency id =>
    (a.removeDependency id).map fun a => ((.done, some .graphChanged), a)
  | .change c => (a.change c).map fun ((changed, event?), a) => ((.changed changed, event?), a)

end Workplan.Arena
