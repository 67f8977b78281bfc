import Mathlib.Order.BoundedOrder.Lattice
import Mathlib.Order.MinMax
import Workplan.Proofs.Cuts

/-!
# Days in intervals

A day lies in an interval if the lower cut comes before it and the upper one behind it.  So what
narrowing and widening do to the cuts says which days they keep, and the laws of the lattice of
intervals are laws about days as well.

- `Interval.contains_iff`: a day lies between the two cuts.
- `Interval.contains_inter_iff`: narrowing keeps the days of both.
- `Interval.contains_hull_iff`: widening fills what is between days of one or the other.
- `Interval.isEmpty_iff_of_holdsEnds`: an interval that holds its ends is empty exactly if it holds
  no day.
- `Interval.inter_hull_laws`: all of these, together with the laws of the lattice.
-/

namespace Workplan

/-! ## Days and ends -/

namespace Bound

variable {b : Bound} {d : Day}

theorem admitsAbove_iff : b.admitsAbove d ↔ b.lowerCut ≤ 2 * d.ordinal := by
  cases b with
  | unbounded => exact iff_of_true rfl (by simp only [lowerCut]; omega)
  | included l => simp [admitsAbove, lowerCut, Day.le_def]
  | excluded l =>
    simp only [admitsAbove, lowerCut, Day.lt_def, decide_eq_true_eq]
    omega

theorem admitsBelow_iff : b.admitsBelow d ↔ 2 * d.ordinal < b.upperCut := by
  cases b with
  | unbounded =>
    have hend := lt_upperCut_unbounded d
    exact iff_of_true rfl (by simp only [upperCut]; omega)
  | included u =>
    simp only [admitsBelow, upperCut, Day.le_def, decide_eq_true_eq]
    omega
  | excluded u => simp [admitsBelow, upperCut, Day.lt_def]

end Bound

namespace Interval

variable {r s : Interval} {a b d : Day}

/-! ## Days between two cuts -/

theorem contains_iff :
    r.contains d ↔ r.lower.lowerCut ≤ 2 * d.ordinal ∧ 2 * d.ordinal < r.upper.upperCut := by
  rw [contains, Bool.and_eq_true, Bound.admitsAbove_iff, Bound.admitsBelow_iff]

/-- **A narrowed interval holds the days of both.** -/
theorem contains_inter_iff : (r.inter s).contains d ↔ r.contains d ∧ s.contains d := by
  simp only [contains_iff, lowerCut_inter, upperCut_inter, max_le_iff, lt_min_iff]
  exact and_and_and_comm

/-- A day after the lower end comes after some day that is held, or is one. -/
theorem exists_contains_le (ha : r.contains a) (hd : r.lower.lowerCut ≤ 2 * d.ordinal) :
    ∃ x, r.contains x ∧ x ≤ d := by
  rw [contains_iff] at ha
  rcases le_total a d with h | h
  · exact ⟨a, contains_iff.mpr ha, h⟩
  · rw [Day.le_def] at h
    exact ⟨d, contains_iff.mpr ⟨hd, by omega⟩, le_rfl⟩

/-- A day before the upper end comes before some day that is held, or is one. -/
theorem exists_contains_ge (ha : r.contains a) (hd : 2 * d.ordinal < r.upper.upperCut) :
    ∃ x, r.contains x ∧ d ≤ x := by
  rw [contains_iff] at ha
  rcases le_total a d with h | h
  · rw [Day.le_def] at h
    exact ⟨d, contains_iff.mpr ⟨by omega, hd⟩, le_rfl⟩
  · exact ⟨a, contains_iff.mpr ha, h⟩

/-- **A widened interval holds the days between those of one or the other**, as far as each of the
two holds some day. -/
theorem contains_hull_iff (hr : r.contains a) (hs : s.contains b) :
    (r.hull s).contains d ↔ ∃ x y, (r.contains x ∨ s.contains x) ∧ (r.contains y ∨ s.contains y) ∧
      x ≤ d ∧ d ≤ y := by
  rw [contains_iff, lowerCut_hull, upperCut_hull, min_le_iff, lt_max_iff]
  constructor
  · rintro ⟨hlower, hupper⟩
    obtain ⟨x, hx, hxd⟩ : ∃ x, (r.contains x ∨ s.contains x) ∧ x ≤ d := by
      rcases hlower with h | h
      · exact (exists_contains_le hr h).imp fun x hx => hx.imp_left .inl
      · exact (exists_contains_le hs h).imp fun x hx => hx.imp_left .inr
    obtain ⟨y, hy, hdy⟩ : ∃ y, (r.contains y ∨ s.contains y) ∧ d ≤ y := by
      rcases hupper with h | h
      · exact (exists_contains_ge hr h).imp fun y hy => hy.imp_left .inl
      · exact (exists_contains_ge hs h).imp fun y hy => hy.imp_left .inr
    exact ⟨x, y, hx, hy, hxd, hdy⟩
  · rintro ⟨x, y, hx, hy, hxd, hdy⟩
    rw [Day.le_def] at hxd hdy
    simp only [contains_iff] at hx hy
    exact ⟨hx.imp (fun h => by omega) fun h => by omega,
      hy.imp (fun h => by omega) fun h => by omega⟩

/-! ## Intervals without days -/

/-- An empty interval holds no day, whatever its ends. -/
theorem not_contains_of_isEmpty (h : r.isEmpty) (d : Day) : ¬ r.contains d := by
  rw [isEmpty_iff] at h
  rw [contains_iff]
  omega

/-- Each end is absent or holds its day. -/
def HoldsEnds (r : Interval) : Prop := (∀ d, r.lower ≠ .excluded d) ∧ ∀ d, r.upper ≠ .excluded d

/-- Between two ends that hold their days, there is one of these days, or any day if both ends are
absent. -/
theorem HoldsEnds.exists_contains (hr : r.HoldsEnds) (h : ¬ r.isEmpty) : ∃ d, r.contains d := by
  obtain ⟨lower, upper⟩ := r
  cases lower with
  | excluded l => exact absurd rfl (hr.1 l)
  | unbounded =>
    cases upper with
    | excluded u => exact absurd rfl (hr.2 u)
    | unbounded => exact ⟨.first, rfl⟩
    | included u => exact ⟨u, by simp [contains, Bound.admitsAbove, Bound.admitsBelow]⟩
  | included l =>
    cases upper with
    | excluded u => exact absurd rfl (hr.2 u)
    | unbounded => exact ⟨l, by simp [contains, Bound.admitsAbove, Bound.admitsBelow]⟩
    | included u =>
      have hle : l ≤ u := by simpa [isEmpty] using h
      exact ⟨l, by simp [contains, Bound.admitsAbove, Bound.admitsBelow, hle]⟩

/-- **An interval that holds its ends is empty exactly if it holds no day.** -/
theorem isEmpty_iff_of_holdsEnds (hr : r.HoldsEnds) : r.isEmpty ↔ ∀ d, ¬ r.contains d := by
  refine ⟨not_contains_of_isEmpty, fun hnone => ?_⟩
  by_contra hempty
  obtain ⟨d, hd⟩ := hr.exists_contains hempty
  exact hnone d hd

/-- Two open ends on neighbouring days leave no day between them, and the interval does not count as
empty. -/
example : (⟨.excluded .first, .excluded Day.first.next⟩ : Interval).isEmpty = false := by
  decide +kernel

/-! ## All laws -/

/-- **The algebra of intervals.**  Narrowing and widening form a distributive lattice with every day
at the top.  A narrowed interval holds the days of both and stays empty, a widened one holds what is
between days of one or the other, and where both ends hold their days, only an empty interval has
none. -/
theorem inter_hull_laws (r s u : Interval) :
    (r.inter s = s.inter r ∧ r.hull s = s.hull r) ∧
    ((r.inter s).inter u = r.inter (s.inter u) ∧ (r.hull s).hull u = r.hull (s.hull u)) ∧
    (r.inter r = r ∧ r.hull r = r) ∧
    (r.inter (r.hull s) = r ∧ r.hull (r.inter s) = r) ∧
    (r.inter (s.hull u) = (r.inter s).hull (r.inter u) ∧
      r.hull (s.inter u) = (r.hull s).inter (r.hull u)) ∧
    (r.inter .all = r ∧ r.hull .all = .all) ∧
    (∀ d, (r.inter s).contains d ↔ r.contains d ∧ s.contains d) ∧
    (r.isEmpty ∨ s.isEmpty → (r.inter s).isEmpty) ∧
    ((∃ a, r.contains a) → (∃ b, s.contains b) → ∀ d, (r.hull s).contains d ↔
      ∃ x y, (r.contains x ∨ s.contains x) ∧ (r.contains y ∨ s.contains y) ∧ x ≤ d ∧ d ≤ y) ∧
    (r.HoldsEnds → (r.isEmpty ↔ ∀ d, ¬ r.contains d)) := by
  refine ⟨⟨inf_comm r s, sup_comm r s⟩, ⟨inf_assoc r s u, sup_assoc r s u⟩,
    ⟨inf_idem r, sup_idem r⟩, ⟨inf_sup_self, sup_inf_self⟩,
    ⟨inf_sup_left r s u, sup_inf_left r s u⟩, ⟨inf_top_eq r, sup_top_eq r⟩,
    fun d => contains_inter_iff, ?_, ?_, isEmpty_iff_of_holdsEnds⟩
  · rintro (hr | hs)
    · exact isEmpty_inter hr s
    · rw [inter_comm]
      exact isEmpty_inter hs r
  · rintro ⟨a, ha⟩ ⟨b, hb⟩ d
    exact contains_hull_iff ha hb

end Interval

end Workplan
