/-!
# Days on a bounded line

The supported days form one finite line without gaps.  A `Day` is its position on that
line, so the order, the stepping and the distances of days are those of natural numbers.

* `Day` — a position below `Day.count`.
* `Day.plus?`, `Day.minus?` — steps that answer `none` past either end.
* `Day.advance`, `Day.retreat`, `Day.next`, `Day.prev` — steps that stay at the end instead.
-/

namespace Workplan

/-- Number of supported days: every day of the years -262143 to 262142. -/
def Day.count : Nat := 191491529

/-- A supported day, as its position counted from the first one. -/
@[ext]
structure Day where
  /-- Days that lie before this one. -/
  ordinal : Nat
  /-- The position lies on the line. -/
  ordinal_lt : ordinal < Day.count
deriving DecidableEq

namespace Day

instance : LE Day := ⟨fun a b => a.ordinal ≤ b.ordinal⟩
instance : LT Day := ⟨fun a b => a.ordinal < b.ordinal⟩
instance (a b : Day) : Decidable (a ≤ b) := inferInstanceAs (Decidable (a.ordinal ≤ b.ordinal))
instance (a b : Day) : Decidable (a < b) := inferInstanceAs (Decidable (a.ordinal < b.ordinal))
instance : Min Day := ⟨fun a b => if a ≤ b then a else b⟩
instance : Max Day := ⟨fun a b => if a ≤ b then b else a⟩

theorem le_def {a b : Day} : a ≤ b ↔ a.ordinal ≤ b.ordinal := Iff.rfl

theorem lt_def {a b : Day} : a < b ↔ a.ordinal < b.ordinal := Iff.rfl

/-- The earliest supported day. -/
def first : Day := ⟨0, by decide⟩

/-- The latest supported day. -/
def last : Day := ⟨count - 1, by decide⟩

instance : Inhabited Day := ⟨first⟩

/-! ## Steps -/

/-- The day at a position, if the line reaches that far. -/
def ofOrdinal? (n : Nat) : Option Day :=
  if h : n < count then some ⟨n, h⟩ else none

/-- The day `n` days later, if there is one. -/
def plus? (d : Day) (n : Nat) : Option Day :=
  ofOrdinal? (d.ordinal + n)

/-- The day `n` days earlier, if there is one. -/
def minus? (d : Day) (n : Nat) : Option Day :=
  if n ≤ d.ordinal then some ⟨d.ordinal - n, by have := d.ordinal_lt; omega⟩ else none

/-- The day `n` days later, or the last day where the line ends before that. -/
def advance (d : Day) (n : Nat) : Day :=
  (d.plus? n).getD last

/-- The day `n` days earlier, or the first day where the line ends before that. -/
def retreat (d : Day) (n : Nat) : Day :=
  ⟨d.ordinal - n, by have := d.ordinal_lt; omega⟩

/-- The following day; the last day follows itself. -/
def next (d : Day) : Day := (d.plus? 1).getD d

/-- The preceding day; the first day precedes itself. -/
def prev (d : Day) : Day := d.retreat 1

/-- Days from `a` up to `b`, zero when `b` does not come later. -/
def distance (a b : Day) : Nat := b.ordinal - a.ordinal

/-- The next day is one day on, save at the end of the range. -/
theorem ordinal_next (d : Day) : d.next.ordinal = min (d.ordinal + 1) (count - 1) := by
  have := d.ordinal_lt
  unfold next plus? ofOrdinal?
  split <;> simp <;> omega

@[simp]
theorem ordinal_prev (d : Day) : d.prev.ordinal = d.ordinal - 1 := rfl

/-- Going back stops at the first day of the range. -/
@[simp]
theorem ordinal_retreat (d : Day) (n : Nat) : (d.retreat n).ordinal = d.ordinal - n := rfl

/-- Going on stops at the last day of the range. -/
theorem ordinal_advance (d : Day) (n : Nat) :
    (d.advance n).ordinal = min (d.ordinal + n) (count - 1) := by
  have := d.ordinal_lt
  unfold advance plus? ofOrdinal? last
  split <;> simp <;> omega

end Day

end Workplan
