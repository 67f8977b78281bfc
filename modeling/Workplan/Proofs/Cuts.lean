import Mathlib.Order.BoundedOrder.Basic
import Mathlib.Order.Lattice
import Mathlib.Tactic.Common
import Workplan.Date.Interval
import Workplan.Proofs.Days

/-!
# Ends of intervals as cuts

The line of days can be cut right before a day and right after it.  Each end of an interval is such
a cut, and an absent end lies outside the line.  So ends compare as numbers do: narrowing takes the
greater of two lower cuts and the smaller of two upper ones, widening the other ones, and an
interval is empty as soon as its two cuts have met.

- `Bound.lowerCut`, `Bound.upperCut`: the cut of an end, as a number.
- `Interval.cuts`: an interval is known from its two cuts, which makes the intervals a distributive
  lattice, with every day at the top.
- `Interval.inter_comm`, `Interval.inter_assoc`: an interval can be narrowed in any order.
- `Interval.isEmpty_inter`: an empty interval stays empty.
-/

namespace Workplan

/-! ## Cuts -/

namespace Bound

variable {a b : Bound}

/-- Where a lower end cuts the line.  Right before a day it is twice the position of the day, and
right after it one more. -/
def lowerCut : Bound → Int
  | unbounded => -1
  | included d => 2 * d.ordinal
  | excluded d => 2 * d.ordinal + 1

/-- Where an upper end cuts the line. -/
def upperCut : Bound → Int
  | unbounded => 2 * Day.count
  | included d => 2 * d.ordinal + 1
  | excluded d => 2 * d.ordinal

theorem lt_upperCut_unbounded (d : Day) : 2 * (d.ordinal : Int) + 1 < 2 * Day.count := by
  have := d.ordinal_lt
  omega

/-- Comparing lower ends is comparing their cuts. -/
theorem looserBelow_iff : a.looserBelow b ↔ a.lowerCut ≤ b.lowerCut := by
  cases a <;> cases b <;> simp [looserBelow, lowerCut, Day.le_def, Day.lt_def] <;> omega

theorem looserAbove_iff : a.looserAbove b ↔ b.upperCut ≤ a.upperCut := by
  have hend := lt_upperCut_unbounded
  cases a <;> cases b <;> grind [looserAbove, upperCut, Day.le_def, Day.lt_def]

/-- Different lower ends make different cuts. -/
theorem lowerCut_injective : Function.Injective lowerCut := by
  intro a b h
  cases a <;> cases b <;> simp [lowerCut, Day.eq_iff] at h ⊢ <;> omega

theorem upperCut_injective : Function.Injective upperCut := by
  have hend := lt_upperCut_unbounded
  intro a b h
  cases a <;> cases b <;> grind [upperCut, Day.eq_iff]

theorem neg_one_le_lowerCut (b : Bound) : -1 ≤ b.lowerCut := by
  cases b <;> simp only [lowerCut] <;> omega

theorem upperCut_le (b : Bound) : b.upperCut ≤ 2 * Day.count := by
  have hend := lt_upperCut_unbounded
  cases b with
  | unbounded => exact le_rfl
  | included d => exact (hend d).le
  | excluded d => exact (Int.le_add_one le_rfl).trans (hend d).le

end Bound

/-! ## Intervals between two cuts -/

namespace Interval

variable {r s : Interval}

/-- The two cuts of an interval.  The earlier the lower one, the more days are held. -/
def cuts (r : Interval) : Intᵒᵈ × Int := (OrderDual.toDual r.lower.lowerCut, r.upper.upperCut)

/-- Intervals with the same cuts are equal. -/
theorem cuts_injective : Function.Injective cuts := by
  rintro ⟨lower, upper⟩ ⟨lower', upper'⟩ h
  obtain ⟨hlower, hupper⟩ := Prod.mk.inj h
  rw [mk.injEq]
  exact ⟨Bound.lowerCut_injective hlower, Bound.upperCut_injective hupper⟩

/-- Intersecting takes the later of the lower cuts. -/
@[simp] theorem lowerCut_inter (r s : Interval) :
    (r.inter s).lower.lowerCut = max r.lower.lowerCut s.lower.lowerCut := by
  show (if r.lower.looserBelow s.lower then s.lower else r.lower).lowerCut = _
  simp only [apply_ite Bound.lowerCut, Bound.looserBelow_iff, max_def]

@[simp] theorem upperCut_inter (r s : Interval) :
    (r.inter s).upper.upperCut = min r.upper.upperCut s.upper.upperCut := by
  show (if r.upper.looserAbove s.upper then s.upper else r.upper).upperCut = _
  simp only [apply_ite Bound.upperCut, Bound.looserAbove_iff, min_def']

/-- The hull takes the earlier of the lower cuts. -/
@[simp] theorem lowerCut_hull (r s : Interval) :
    (r.hull s).lower.lowerCut = min r.lower.lowerCut s.lower.lowerCut := by
  show (if r.lower.looserBelow s.lower then r.lower else s.lower).lowerCut = _
  simp only [apply_ite Bound.lowerCut, Bound.looserBelow_iff, min_def]

@[simp] theorem upperCut_hull (r s : Interval) :
    (r.hull s).upper.upperCut = max r.upper.upperCut s.upper.upperCut := by
  show (if r.upper.looserAbove s.upper then r.upper else s.upper).upperCut = _
  simp only [apply_ite Bound.upperCut, Bound.looserAbove_iff, max_def']

/-! ## The lattice of intervals -/

/-- One interval lies in another if its cuts lie between those of the other. -/
instance : LE Interval := ⟨fun r s => r.cuts ≤ s.cuts⟩

instance : LT Interval := ⟨fun r s => r ≤ s ∧ ¬ s ≤ r⟩
instance : Min Interval := ⟨inter⟩
instance : Max Interval := ⟨hull⟩

/-- Narrowing is the meet and widening the join. -/
instance : DistribLattice Interval :=
  cuts_injective.distribLattice cuts Iff.rfl lt_iff_le_not_ge
    (fun r s => Prod.ext (lowerCut_hull r s) (upperCut_hull r s))
    (fun r s => Prod.ext (lowerCut_inter r s) (upperCut_inter r s))

instance : OrderTop Interval where
  top := all
  le_top r := ⟨r.lower.neg_one_le_lowerCut, r.upper.upperCut_le⟩

theorem inter_comm (r s : Interval) : r.inter s = s.inter r := inf_comm r s

theorem inter_assoc (r s u : Interval) : (r.inter s).inter u = r.inter (s.inter u) :=
  inf_assoc r s u

/-- Of two intervals that narrow a third one, either can come first. -/
theorem inter_right_comm (r s u : Interval) : (r.inter s).inter u = (r.inter u).inter s := by
  rw [inter_assoc, inter_comm s u, inter_assoc]

/-! ## Empty intervals -/

/-- An interval is empty if its upper cut does not lie behind the lower one. -/
theorem isEmpty_iff : r.isEmpty ↔ r.upper.upperCut ≤ r.lower.lowerCut := by
  have hend := Bound.lt_upperCut_unbounded
  obtain ⟨lower, upper⟩ := r
  cases lower <;> cases upper <;>
    grind [isEmpty, Bound.lowerCut, Bound.upperCut, Day.le_def, Day.lt_def]

/-- **An empty interval stays empty**, whatever narrows it. -/
theorem isEmpty_inter (h : r.isEmpty) (s : Interval) : (r.inter s).isEmpty := by
  rw [isEmpty_iff] at h
  rw [isEmpty_iff, lowerCut_inter, upperCut_inter]
  calc min r.upper.upperCut s.upper.upperCut
      ≤ r.upper.upperCut := min_le_left _ _
    _ ≤ r.lower.lowerCut := h
    _ ≤ max r.lower.lowerCut s.lower.lowerCut := le_max_left _ _

/-- Where both ends are absent, no day is excluded. -/
theorem not_isAll_of_isEmpty (h : r.isEmpty) : ¬ r.isAll := by
  obtain ⟨lower, upper⟩ := r
  cases lower with
  | unbounded => exact absurd h Bool.false_ne_true
  | included d => simp [isAll, Bound.isBounded, Bound.endpoint]
  | excluded d => simp [isAll, Bound.isBounded, Bound.endpoint]

end Interval

end Workplan
