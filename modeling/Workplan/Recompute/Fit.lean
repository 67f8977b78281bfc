import Workplan.Host

/-!
# Fitting containers (specification §6, the bounds adjuster)

After dates have moved, every container of a moved task is fitted to its children, from the
innermost containers outwards.

* `Project.childSpan?` — from the earliest start to the latest end of the children.
* `Project.containersOf` — the containers of some tasks, in the order of fitting.
* `fit` — fits the containers of some tasks, over any host.
* `Project.fit` — the same on a project that nobody watches.
-/

namespace Workplan

namespace Project

/-- From the earliest start to the latest end of the children of a container. -/
def childSpan? (p : Project) (container : TaskId) : Option (Day × Day) :=
  match (p.children container).filterMap p.task? with
  | [] => none
  | t :: ts => some ((ts.map Task.start).foldl min t.start, (ts.map Task.finish).foldl max t.finish)

/-- Deeper containers come first, and older ones among those of one level. -/
def fitsBefore (p : Project) (a b : TaskId) : Bool :=
  p.depth b < p.depth a || (p.depth a = p.depth b && a.number ≤ b.number)

/-- Everything that contains one of the given tasks, in the order of fitting (the batch of
specification §6).  Climbing from one task after the other and turning back at a container that is
known already collects the same, see `Project.collectAll`. -/
def containersOf (p : Project) (tasks : List TaskId) : List TaskId :=
  (tasks.flatMap p.ancestors).eraseDups.mergeSort p.fitsBefore

end Project

variable {σ : Type}

/-- Fits one container to its children.  The answer is whether it is different now (specification
§6). -/
def fitContainer (h : Host σ) (container : TaskId) : Act σ Bool := do
  match ← h.read fun p => p.childSpan? container with
  | none => return false
  | some (start, finish) =>
    let t ← h.ask fun p => p.get container
    if t.start = start ∧ t.finish = finish then return false
    else
      h.tell (.fitting t start finish)
      h.change (.revise container { start? := some start, finish? := some finish })

/-- Fits containers one after the other; the answer is those that are different now. -/
def fitAll (h : Host σ) : List TaskId → Act σ (List TaskId)
  | [] => return []
  | container :: rest => do
    let changed ← fitContainer h container
    let others ← fitAll h rest
    return if changed then container :: others else others

/-- Fits everything that contains one of the given tasks. -/
def fit (h : Host σ) (tasks : List TaskId) : Act σ (List TaskId) := do
  fitAll h (← h.read fun p => p.containersOf tasks)

/-- Fits containers of a project that nobody watches. -/
def Project.fit (p : Project) (tasks : List TaskId) : Except Fault (List TaskId) × Project :=
  (Workplan.fit Host.alone tasks).run p

end Workplan
