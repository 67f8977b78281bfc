import Mathlib.Order.Lattice
import Mathlib.Tactic.Common
import Workplan.Date.Day

/-!
# The line of days as an order

Days are ordered by their positions, so they form a linear order with a first and a last
element, on which one can go up and down one day at a time.

- `Day.lt_next`, `Day.prev_lt`: a step moves, except at the end of the line.
- `Day.upward`, `Day.downward`: induction along the days between two days.
-/

namespace Workplan.Day

instance : LinearOrder Day where
  le_refl a := Nat.le_refl a.ordinal
  le_trans a b c := Nat.le_trans (n := a.ordinal) (m := b.ordinal) (k := c.ordinal)
  lt_iff_le_not_ge a b := Nat.lt_iff_le_and_not_ge (m := a.ordinal) (n := b.ordinal)
  le_antisymm _ _ h h' := Day.ext (Nat.le_antisymm h h')
  le_total a b := Nat.le_total a.ordinal b.ordinal
  toDecidableLE := inferInstance
  toDecidableEq := inferInstance
  toDecidableLT := inferInstance
  min_def _ _ := rfl
  max_def _ _ := rfl

theorem eq_iff {a b : Day} : a = b ↔ a.ordinal = b.ordinal := Day.ext_iff

theorem first_le (d : Day) : first ≤ d := Nat.zero_le d.ordinal

theorem le_last (d : Day) : d ≤ last := Nat.le_sub_one_of_lt d.ordinal_lt

/-! ## Steps between two days -/

/-- Below another day, the step forward is not cut off. -/
theorem ordinal_next_of_lt {d e : Day} (h : d < e) : d.next.ordinal = d.ordinal + 1 := by
  have := e.ordinal_lt
  rw [lt_def] at h
  rw [ordinal_next]
  omega

theorem le_next (d : Day) : d ≤ d.next := by
  have := d.ordinal_lt
  rw [le_def, ordinal_next]
  omega

theorem next_mono {a b : Day} (h : a ≤ b) : a.next ≤ b.next := by
  rw [le_def] at h
  rw [le_def, ordinal_next, ordinal_next]
  omega

theorem prev_le (d : Day) : d.prev ≤ d := Nat.sub_le d.ordinal 1

/-- The days from `d.next` on are the days after `d`. -/
theorem next_le_iff {d e : Day} (h : d < e) (x : Day) : d.next ≤ x ↔ d < x := by
  rw [le_def, lt_def, ordinal_next_of_lt h]
  omega

/-- The days up to `e.prev` are the days before `e`. -/
theorem le_prev_iff {d e : Day} (h : d < e) (x : Day) : x ≤ e.prev ↔ x < e := by
  rw [lt_def] at h
  rw [le_def, lt_def, ordinal_prev]
  omega

theorem lt_next {d e : Day} (h : d < e) : d < d.next := (next_le_iff h d.next).mp le_rfl

theorem prev_lt {d e : Day} (h : d < e) : e.prev < e := (le_prev_iff h e.prev).mp le_rfl

/-- Only the first day has no day before it. -/
theorem prev_lt_of_ne_first {d : Day} (h : d ≠ first) : d.prev < d :=
  prev_lt (lt_of_le_of_ne (first_le d) (Ne.symm h))

/-- Stepping on and back returns to every day but the last. -/
@[simp] theorem prev_next {d e : Day} (h : d < e) : d.next.prev = d := by
  rw [eq_iff, ordinal_prev, ordinal_next_of_lt h]
  omega

@[simp] theorem next_prev {d e : Day} (h : d < e) : e.prev.next = e := by
  have hp := prev_lt h
  rw [lt_def] at h
  rw [eq_iff, ordinal_next_of_lt hp, ordinal_prev]
  omega

/-! ## Several steps -/

theorem advance_zero (d : Day) : d.advance 0 = d := by
  have := d.ordinal_lt
  rw [eq_iff, ordinal_advance]
  omega

/-- Several steps from the next day are one more from the day itself, cut off at the same end. -/
theorem advance_next (d : Day) (k : Nat) : d.next.advance k = d.advance (k + 1) := by
  rw [eq_iff, ordinal_advance, ordinal_advance, ordinal_next]
  omega

/-- One step back may come before the others. -/
theorem retreat_prev (d : Day) (k : Nat) : d.prev.retreat k = d.retreat (k + 1) := by
  rw [eq_iff, ordinal_retreat, ordinal_retreat, ordinal_prev]
  omega

/-- What holds of `b`, and of a day as soon as it holds of the next one, holds of all days up
to `b`. -/
theorem upward {P : Day → Prop} {b : Day} (hb : P b)
    (step : ∀ a, a < b → P a.next → P a) {a : Day} (h : a ≤ b) : P a := by
  generalize hn : b.ordinal - a.ordinal = n
  induction n generalizing a with
  | zero =>
    have : a = b := by
      rw [le_def] at h
      rw [eq_iff]
      omega
    exact this ▸ hb
  | succ n ih =>
    have hlt : a < b := by
      rw [lt_def]
      omega
    refine step a hlt (ih ((next_le_iff hlt b).mpr hlt) ?_)
    rw [ordinal_next_of_lt hlt]
    omega

/-- What holds of `a`, and of a day as soon as it holds of the day before, holds of all days
from `a` on. -/
theorem downward {P : Day → Prop} {a : Day} (ha : P a)
    (step : ∀ b, a < b → P b.prev → P b) {b : Day} (h : a ≤ b) : P b := by
  generalize hn : b.ordinal - a.ordinal = n
  induction n generalizing b with
  | zero =>
    have : a = b := by
      rw [le_def] at h
      rw [eq_iff]
      omega
    exact this ▸ ha
  | succ n ih =>
    have hlt : a < b := by
      rw [lt_def]
      omega
    refine step b hlt (ih ((le_prev_iff hlt a).mpr hlt) ?_)
    rw [ordinal_prev]
    omega

/-- A day with some property has a least day with it from any earlier day on. -/
theorem exists_least {P : Day → Prop} {d w : Day} (hdw : d ≤ w) (hw : P w) :
    ∃ m, d ≤ m ∧ P m ∧ ∀ x, d ≤ x → x < m → ¬ P x := by
  refine upward (P := fun d => ∃ m, d ≤ m ∧ P m ∧ ∀ x, d ≤ x → x < m → ¬ P x)
    ⟨w, le_rfl, hw, fun x hx hxw => absurd hxw (not_lt.mpr hx)⟩ (fun a ha ih => ?_) hdw
  by_cases hP : P a
  · exact ⟨a, le_rfl, hP, fun x hx hxa => absurd hxa (not_lt.mpr hx)⟩
  · obtain ⟨m, hm, hPm, hmin⟩ := ih
    refine ⟨m, (lt_next ha).le.trans hm, hPm, fun x hx hxm => ?_⟩
    rcases eq_or_lt_of_le hx with rfl | hlt
    · exact hP
    · exact hmin x ((next_le_iff ha x).mpr hlt) hxm

/-- A day with some property has a greatest day with it up to any later day. -/
theorem exists_greatest {P : Day → Prop} {d w : Day} (hwd : w < d) (hw : P w) :
    ∃ m, m < d ∧ P m ∧ ∀ x, m < x → x < d → ¬ P x := by
  refine downward (P := fun d => w < d → ∃ m, m < d ∧ P m ∧ ∀ x, m < x → x < d → ¬ P x)
    (fun h => absurd h (lt_irrefl w)) (fun b hb ih _ => ?_) hwd.le hwd
  by_cases hP : P b.prev
  · refine ⟨b.prev, prev_lt hb, hP, fun x hx hxb => ?_⟩
    exact absurd hx (not_lt.mpr ((le_prev_iff hb x).mpr hxb))
  · have hwp : w < b.prev := by
      refine lt_of_le_of_ne ((le_prev_iff hb w).mpr hb) fun h => hP (h ▸ hw)
    obtain ⟨m, hm, hPm, hmax⟩ := ih hwp
    refine ⟨m, hm.trans (prev_lt hb), hPm, fun x hx hxb => ?_⟩
    rcases eq_or_lt_of_le ((le_prev_iff hb x).mpr hxb) with rfl | hlt
    · exact hP
    · exact hmax x hx hlt

end Workplan.Day
