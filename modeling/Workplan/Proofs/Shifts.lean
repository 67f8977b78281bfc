import Workplan.Proofs.Walks

/-!
# Walks from different days

A walk that starts later does not end earlier, in either direction, also where walks are cut off at
an end of the line.

- `Calendar.ahead_eq_last`, `Calendar.behind_eq_first`: walks without a working day left.
- `Calendar.ahead_mono`, `Calendar.behind_mono`: the two directions.
- `Calendar.shiftDays_mono`: any walk.
-/

namespace Workplan.Calendar

variable {c : Calendar} {a b v w : Day}

/-! ## The next and the last working day -/

/-- Later days have later next workdays. -/
theorem IsNextWorkday.mono (ha : c.IsNextWorkday a v) (hb : c.IsNextWorkday b w) (hab : a ≤ b) :
    v ≤ w := by
  by_contra hlt
  exact ha.idle w (hab.trans hb.le) (not_le.mp hlt) hb.working

theorem IsLastWorkday.mono (ha : c.IsLastWorkday a v) (hb : c.IsLastWorkday b w) (hab : a ≤ b) :
    v ≤ w := by
  by_contra hlt
  exact hb.idle v (not_le.mp hlt) (ha.lt.trans_le hab) ha.working

/-! ## Walks forward -/

theorem workdayFrom?_spec {n : Nat} {d w : Day} (h : c.workdayFrom? n d = some w) :
    d ≤ w ∧ c.isWorking w := by
  induction n generalizing d with
  | zero => cases h
  | succ n ih =>
    simp only [workdayFrom?] at h
    split at h
    · next hd =>
      cases h
      exact ⟨le_rfl, hd⟩
    · obtain ⟨hle, hw⟩ := ih h
      exact ⟨(Day.le_next d).trans hle, hw⟩

/-- Without a working day left, a walk forward goes to the end of the line. -/
theorem ahead_eq_last (hc : c.GapsBelowHorizon) {d : Day} (h : ¬ c.ReachesWork d) (n : Nat) :
    c.ahead (n + 1) d = Day.last := by
  have hnone : c.workdayFrom? horizon d = none := by
    rw [Option.eq_none_iff_forall_ne_some]
    intro w hw
    obtain ⟨hle, hwork⟩ := workdayFrom?_spec hw
    exact h ⟨w, hle, hwork⟩
  have hlate : Day.count < d.ordinal + horizon := by
    by_contra hroom
    exact h (hc.reachesWork (by omega))
  simp only [ahead, hnone]
  rw [Day.eq_iff, Day.ordinal_advance]
  show min (d.ordinal + horizon) (Day.count - 1) = Day.count - 1
  omega

/-- **A walk forward from a later day does not end earlier.** -/
theorem ahead_mono (hc : c.GapsBelowHorizon) (n : Nat) (hab : a ≤ b) :
    c.ahead n a ≤ c.ahead n b := by
  induction n generalizing a b with
  | zero => exact hab
  | succ n ih =>
    by_cases hb : c.ReachesWork b
    · obtain ⟨v, hv⟩ := (hb.of_le hab).exists_next
      obtain ⟨w, hw⟩ := hb.exists_next
      rw [ahead_succ hc hv, ahead_succ hc hw]
      exact ih (Day.next_mono (hv.mono hw hab))
    · rw [ahead_eq_last hc hb n]
      exact Day.le_last _

/-! ## Walks backward -/

theorem working_of_workdayBefore? {n : Nat} {d w : Day} (h : c.workdayBefore? n d = some w) :
    c.isWorking w := by
  induction n generalizing d with
  | zero => cases h
  | succ n ih =>
    simp only [workdayBefore?] at h
    split at h
    · next hd =>
      cases h
      exact hd
    · exact ih h

/-- Without a working day behind it, a walk backward goes to the beginning of the line. -/
theorem behind_eq_first (hc : c.GapsBelowHorizon) {d : Day} (h : ∀ w, w < d → ¬ c.isWorking w)
    (n : Nat) : c.behind (n + 1) d = Day.first := by
  rcases eq_or_ne d Day.first with rfl | hd
  · -- the first day precedes itself, so it may be a working day
    exact le_antisymm ((behind_succ_le n _).trans (Day.prev_le _)) (Day.first_le _)
  have hnone : c.workdayBefore? horizon d = none := by
    rw [Option.eq_none_iff_forall_ne_some]
    intro w hw
    exact h w ((workdayBefore?_le hw).trans_lt (Day.prev_lt_of_ne_first hd))
      (working_of_workdayBefore? hw)
  have hearly : d.ordinal < horizon := by
    have hidle : c.IdleBetween Day.first d := fun w _ hw => h w hw
    have := hc.idle_lt hidle
    rwa [show Day.first.ordinal = 0 from rfl, Nat.zero_add] at this
  simp only [behind, hnone]
  rw [Day.eq_iff, Day.ordinal_retreat]
  show d.ordinal - horizon = 0
  omega

/-- **A walk backward from a later day does not end earlier.** -/
theorem behind_mono (hc : c.GapsBelowHorizon) (n : Nat) (hab : a ≤ b) :
    c.behind n a ≤ c.behind n b := by
  induction n generalizing a b with
  | zero => exact hab
  | succ n ih =>
    by_cases ha : ∃ u, u < a ∧ c.isWorking u
    · obtain ⟨u, hua, hu⟩ := ha
      obtain ⟨v, hv⟩ := exists_isLastWorkday hua hu
      obtain ⟨w, hw⟩ := exists_isLastWorkday (hua.trans_le hab) hu
      rw [behind_succ hc hv, behind_succ hc hw]
      exact ih (hv.mono hw hab)
    · push Not at ha
      rw [behind_eq_first hc ha n]
      exact Day.first_le _

/-! ## Walks of either direction -/

/-- **A walk over any number of working days from a later day does not end earlier.** -/
theorem shiftDays_mono (hc : c.GapsBelowHorizon) (n : Int) (hab : a ≤ b) :
    c.shiftDays a n ≤ c.shiftDays b n := by
  cases n with
  | ofNat n => exact ahead_mono hc n hab
  | negSucc n => exact behind_mono hc (n + 1) hab

end Workplan.Calendar
