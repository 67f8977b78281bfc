import Workplan.Project.Basic

/-!
# Dependencies by distance (specification §4.5)

From some tasks, dependencies are reached in waves: first those that leave the tasks, then
those that leave their dependants, and so on.  The distance of a dependency is the last wave
in which it occurs.  A wave beyond the number of dependencies can only come from a cycle.

* `Project.waves` — the waves.
* `Project.reach` — the reached dependencies by distance.
-/

namespace Workplan

/-- Dependencies by distance, in ascending order of both. -/
abbrev Reach := List (Nat × List DependencyId)

namespace Project

/-- The dependencies that leave some tasks, each once. -/
def leaving (p : Project) (sources : List TaskId) : List Dependency :=
  sources.eraseDups.flatMap p.outgoing

/-- A wave and those after it, as long as they hold anything; `n` waves are allowed.  A distance
beyond that reports a cycle (specification §J). -/
def waves (p : Project) : (n : Nat) → (wave : List Dependency) →
    Except Cycle (List (List Dependency))
  | _, [] => .ok []
  | 0, d :: _ => .error ⟨[d.dependee, d.dependant]⟩
  | n + 1, wave =>
    (p.waves n (p.leaving (wave.map Dependency.dependant))).map fun rest => wave :: rest

/-- The dependencies of each wave that occur in no later one, with the number of the wave: the
longest distance, as a worklist that relaxes distances finds it. -/
def lastOccurrences (p : Project) : (distance : Nat) → List (List Dependency) → Reach
  | _, [] => []
  | distance, wave :: later =>
    let final := p.dependencies.filter fun d =>
      wave.contains d && !later.any fun w => w.contains d
    let rest := p.lastOccurrences (distance + 1) later
    if final.isEmpty then rest else (distance, final.map Dependency.id) :: rest

/-- The dependencies reached from some tasks, by distance (specification §4.5). -/
def reach (p : Project) (sources : List TaskId) : Except Cycle Reach :=
  (p.waves p.dependencies.length (p.leaving sources)).map (p.lastOccurrences 1)

end Project

end Workplan
