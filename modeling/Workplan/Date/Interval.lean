import Workplan.Date.Day
import Workplan.Date.Civil

/-!
# Intervals of days (specification §4.1)

An `Interval` bounds a day from below and from above; each end is closed, open or absent.
Two disjoint intervals still have an intersection, an empty one, so narrowing never fails.

* `Bound` — one end, with its two tightness orders `Bound.looserBelow`, `Bound.looserAbove`.
* `Interval.inter` — the tightest interval inside both.
* `Interval.hull` — the smallest interval around both.
* `Interval.isEmpty` — the two ends exclude each other.
-/

namespace Workplan

/-- One end of an interval. -/
inductive Bound
  /-- No day is excluded on this side. -/
  | unbounded
  /-- The interval reaches up to this day and holds it. -/
  | included (day : Day)
  /-- The interval reaches up to this day without holding it. -/
  | excluded (day : Day)
deriving DecidableEq

namespace Bound

/-- As a lower end, `a` lets in every day that `b` lets in. -/
def looserBelow : Bound → Bound → Bool
  | unbounded, _ => true
  | _, unbounded => false
  | included a, included b => a ≤ b
  | excluded a, excluded b => a ≤ b
  | included a, excluded b => a ≤ b
  | excluded a, included b => a < b

/-- As an upper end, `a` lets in every day that `b` lets in. -/
def looserAbove : Bound → Bound → Bool
  | unbounded, _ => true
  | _, unbounded => false
  | included a, included b => b ≤ a
  | excluded a, excluded b => b ≤ a
  | included a, excluded b => b ≤ a
  | excluded a, included b => b < a

/-- The day at the end, held or not. -/
def endpoint : Bound → Option Day
  | unbounded => none
  | included d => some d
  | excluded d => some d

/-- Some day is excluded on this side. -/
def isBounded (b : Bound) : Bool := b.endpoint.isSome

/-- As a lower end, lets `d` in. -/
def admitsAbove : Bound → Day → Bool
  | unbounded, _ => true
  | included l, d => l ≤ d
  | excluded l, d => l < d

/-- As an upper end, lets `d` in. -/
def admitsBelow : Bound → Day → Bool
  | unbounded, _ => true
  | included u, d => d ≤ u
  | excluded u, d => d < u

end Bound

/-- The days between two ends. -/
structure Interval where
  /-- The end towards the past. -/
  lower : Bound
  /-- The end towards the future. -/
  upper : Bound
deriving DecidableEq

namespace Interval

/-! ## Making intervals -/

/-- Every day. -/
def all : Interval := ⟨.unbounded, .unbounded⟩

/-- The days from `a` to `b`, both held. -/
def closed (a b : Day) : Interval := ⟨.included a, .included b⟩

/-- The one day `d`. -/
def singleton (d : Day) : Interval := closed d d

/-- The days from `d` on. -/
def atLeast (d : Day) : Interval := ⟨.included d, .unbounded⟩

/-- The days after `d`. -/
def after (d : Day) : Interval := ⟨.excluded d, .unbounded⟩

/-- The days up to `d`. -/
def atMost (d : Day) : Interval := ⟨.unbounded, .included d⟩

/-- The days before `d`. -/
def before (d : Day) : Interval := ⟨.unbounded, .excluded d⟩

/-- The smallest closed interval that holds every listed day. -/
def enclosing? : List Day → Option Interval
  | [] => none
  | d :: ds => some (closed (ds.foldl min d) (ds.foldl max d))

/-! ## Questions -/

/-- Neither end is bounded. -/
def isAll (r : Interval) : Bool := !r.lower.isBounded && !r.upper.isBounded

/-- The two ends exclude each other (`isEmpty`, specification §4.1). -/
def isEmpty (r : Interval) : Bool :=
  match r.lower, r.upper with
  | .unbounded, _ => false
  | _, .unbounded => false
  | .included l, .included u => u < l
  | .included l, .excluded u => u ≤ l
  | .excluded l, .included u => u ≤ l
  | .excluded l, .excluded u => u ≤ l

/-- The day lies between the ends. -/
def contains (r : Interval) (d : Day) : Bool := r.lower.admitsAbove d && r.upper.admitsBelow d

/-! ## Narrowing and widening -/

/-- The tightest interval inside both (`intersect`, specification §4.1). -/
def inter (r s : Interval) : Interval where
  lower := if r.lower.looserBelow s.lower then s.lower else r.lower
  upper := if r.upper.looserAbove s.upper then s.upper else r.upper

/-- The smallest interval around both (`span`, specification §4.1). -/
def hull (r s : Interval) : Interval where
  lower := if r.lower.looserBelow s.lower then r.lower else s.lower
  upper := if r.upper.looserAbove s.upper then r.upper else s.upper

/-! ## Text -/

/-- Square brackets stand at held ends, round ones at all others. -/
def render (r : Interval) : String :=
  let low := match r.lower with
    | .unbounded => "(-∞"
    | .included d => "[" ++ d.render
    | .excluded d => "(" ++ d.render
  let high := match r.upper with
    | .unbounded => "+∞)"
    | .included d => d.render ++ "]"
    | .excluded d => d.render ++ ")"
  low ++ ".." ++ high

instance : ToString Interval := ⟨render⟩

end Interval

end Workplan
