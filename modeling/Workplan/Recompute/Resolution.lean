import Workplan.Dependency

/-!
# One start for several collisions (specification §4.5, steps 1 to 5)

The collisions of a task leave a window for its start: from the latest start that some of them
demand to the earliest that others demand.

* `Collision.window?` — the window of a list of collisions.
* `resolveStart` — the start that suits all of them, or the reason why none does.
-/

namespace Workplan

namespace Collision

/-- The accepted starts of the collisions with a given variation, in order. -/
def starts (variation : Variation) (collisions : List Collision) : List Day :=
  (collisions.filter fun k => k.variation = variation).map acceptableStart

/-- The latest of some days. -/
def latest? : List Day → Option Day
  | [] => none
  | d :: ds => some (ds.foldl max d)

/-- The earliest of some days. -/
def earliest? : List Day → Option Day
  | [] => none
  | d :: ds => some (ds.foldl min d)

/-- Step 4: floor and cap of the start.  A side on which no collision lets the start move takes the
day of the other. -/
def window? (collisions : List Collision) : Option (Day × Day) :=
  match latest? (starts .later collisions), earliest? (starts .earlier collisions) with
  | none, none => none
  | none, some cap => some (cap, cap)
  | some floor, none => some (floor, floor)
  | some floor, some cap => some (floor, cap)

end Collision

/-- Steps 3 to 5: the start that suits every collision: the fixed one, which has to lie in the
window, or else the floor of the window.  Without a window the current start stands (specification
§J). -/
def resolveStart (task : TaskId) (current : Day) (collisions : List Collision) :
    Except Fault Day :=
  let fixed := Collision.starts .fixed collisions
  if 1 < fixed.length then .error (.unsatisfiable task (.severalFixed fixed))
  else match Collision.window? collisions with
    | none => .ok current
    | some (floor, cap) =>
      if cap < floor then .error (.unsatisfiable task (.floorAboveCap cap floor))
      else match fixed.head? with
        | none => .ok floor
        | some start =>
          if start < floor ∨ cap < start then
            .error (.unsatisfiable task (.fixedOutside start floor cap))
          else .ok start

end Workplan
