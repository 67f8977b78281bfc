/-!
# Runs inside runs (specification §5)

An engine that changes dates can be asked to run again by whoever watches the dates.  Its
`RunState` tells how many runs are open, so that such a request can be refused.

* `RunState` — idle, or running at some depth.
* `RunState.tryEnter` — opens the outermost run, and only that.
* `ScopeLedger` — scopes by number, each open until it is left.
-/

namespace Workplan

/-- How many runs are open. -/
inductive RunState
  /-- None. -/
  | idle
  /-- So many, one inside the other. -/
  | running (depth : Nat)
deriving DecidableEq, Repr

namespace RunState

/-- Some run is open. -/
def isRunning : RunState → Bool
  | idle => false
  | running _ => true

/-- Number of open runs. -/
def depth : RunState → Nat
  | idle => 0
  | running n => n

/-- Opens a run inside those that are open (specification §I). -/
def enter (s : RunState) : RunState := running (s.depth + 1)

/-- Opens a run if none is open (specification §4.4). -/
def tryEnter (s : RunState) : Option RunState := if s.isRunning then none else some s.enter

/-- Closes a run. -/
def leave (s : RunState) : RunState :=
  if s.depth ≤ 1 then idle else running (s.depth - 1)

end RunState

/-- Scopes over one run state.  Each is known by the number it got, from 0. -/
structure ScopeLedger where
  /-- The state that all scopes share. -/
  state : RunState
  /-- For each scope, whether it is still open. -/
  scopes : List Bool
deriving DecidableEq

namespace ScopeLedger

/-- Idle, without scopes. -/
def empty : ScopeLedger := ⟨.idle, []⟩

/-- The scope is open. -/
def isOpen (l : ScopeLedger) (scope : Nat) : Bool := l.scopes.getD scope false

/-- Opens a scope. -/
def enter (l : ScopeLedger) : ScopeLedger := ⟨l.state.enter, l.scopes ++ [true]⟩

/-- Opens a scope if nothing runs. -/
def tryEnter (l : ScopeLedger) : Option ScopeLedger :=
  l.state.tryEnter.map fun state => ⟨state, l.scopes ++ [true]⟩

/-- Closes a scope; `none` if it is not open. -/
def leave? (l : ScopeLedger) (scope : Nat) : Option ScopeLedger :=
  if l.isOpen scope then some ⟨l.state.leave, l.scopes.set scope false⟩ else none

/-- Depth of the runs as an open scope sees it. -/
def depth? (l : ScopeLedger) (scope : Nat) : Option Nat :=
  if l.isOpen scope then some l.state.depth else none

end ScopeLedger

end Workplan
