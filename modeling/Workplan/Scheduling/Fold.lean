import Workplan.Network.Edge

/-!
# Ranges from edges (specification §4.4, steps 1 to 7)

The contributions of the edges into a task are folded into strict ranges, advisory ranges and
the dates of the children.  From these follow the ranges in which start and end of the task
may lie.

* `Fold` — what the edges seen so far leave.
* `Fold.add` — one more contribution.
* `Fold.isStuck` — nothing is left, whatever else is added.
* `combine` — strict ranges win over advice.
* `Fold.ranges` — the ranges of a task, or the reason why there are none.
-/

namespace Workplan

/-- What the edges seen so far leave. -/
structure Fold where
  /-- Where the start has to lie. -/
  start : Interval
  /-- Where the start had better lie. -/
  weakStart : Interval
  /-- Where the end has to lie. -/
  finish : Interval
  /-- Where the end had better lie. -/
  weakFinish : Interval
  /-- Starts and ends of the children. -/
  boundaries : List Day
deriving DecidableEq

namespace Fold

/-- No edges yet. -/
def empty : Fold := ⟨.all, .all, .all, .all, []⟩

instance : Inhabited Fold := ⟨empty⟩

/-- Adds a contribution.  Children only give their dates; of the others, advice narrows the
advisory ranges and the rest narrows the strict ones (step 2 of specification §4.4). -/
def add (f : Fold) (k : Contribution) : Fold :=
  match k.boundaries? with
  | some (start, finish) => { f with boundaries := f.boundaries ++ [start, finish] }
  | none =>
    if k.weak then
      { f with weakStart := f.weakStart.inter k.start, weakFinish := f.weakFinish.inter k.finish }
    else { f with start := f.start.inter k.start, finish := f.finish.inter k.finish }

/-- A strict range is empty, and stays so: the early exit of step 2. -/
def isStuck (f : Fold) : Bool := f.start.isEmpty || f.finish.isEmpty

end Fold

/-- Step 5: strict bounds win, narrowed by advice.  Advice on its own is held within the days that
the task and its children extend to (specification §4.4). -/
def combine (strong weak extent : Interval) : Interval :=
  if !strong.isAll then strong.inter weak
  else if !weak.isAll then weak.inter extent
  else strong

/-- Where start and end of a task may lie. -/
structure Ranges where
  /-- Where the start may lie. -/
  start : Interval
  /-- Where the end may lie. -/
  finish : Interval
deriving DecidableEq

namespace Fold

/-- Step 3: the days from the earliest start to the latest end of the children; without children
those of the task itself. -/
def extent (f : Fold) (t : Task) : Interval :=
  (Interval.enclosing? f.boundaries).getD (.closed t.start t.finish)

/-- Where the edges let the task start. -/
def combinedStart (f : Fold) (t : Task) : Interval :=
  combine f.start f.weakStart ((f.extent t).hull (.atLeast t.start))

/-- Where the edges let the task end. -/
def combinedFinish (f : Fold) (t : Task) : Interval :=
  combine f.finish f.weakFinish ((f.extent t).hull (.atMost t.finish))

/-- Step 6: where edges and anchor let the task start. -/
def anchoredStart (f : Fold) (t : Task) : Interval :=
  match t.earliestBegin with
  | none => f.combinedStart t
  | some anchor => (f.combinedStart t).inter (.atLeast anchor)

/-- Step 7: a range of a container lies within the extent of its children. -/
def confined (f : Fold) (t : Task) (r : Interval) : Interval :=
  if f.boundaries.isEmpty then r else r.inter (f.extent t)

/-- Where start and end of the task may lie. -/
def ranges (f : Fold) (t : Task) : Except Fault Ranges :=
  let start := f.confined t (f.anchoredStart t)
  let finish := f.confined t (f.combinedFinish t)
  if start.isEmpty then .error (.unsatisfiable t.id (.noStart start))
  else if finish.isEmpty then .error (.unsatisfiable t.id (.noEnd finish))
  else .ok ⟨start, finish⟩

end Fold

end Workplan
