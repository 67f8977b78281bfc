import Workplan.Proofs.Lengths
import Workplan.Proofs.Shifts

/-!
# Laws of walks and lengths

Walks over working days in one direction add up, also where the line of days cuts them off, and a
walk that starts later or goes further does not end earlier.  Walking and measuring undo each other:
what was walked is measured, and what was measured is walked, but for days off at the end.

- `Calendar.ahead_add`, `Calendar.behind_add`: one walk after another.
- `Calendar.shift_add_mono`: sums and order, for walks of either direction.
- `Calendar.working_prev_ahead`, `Calendar.working_behind`: where a walk ends.
- `Calendar.Approaches`: how near the walk over a measured length gets to the day it was measured
  to.
- `Calendar.shift_workingLength`: walking and measuring, in both orders.
-/

namespace Workplan.Calendar

variable {c : Calendar} {a b d : Day} {k n : Nat}

/-! ## One walk after another -/

theorem ahead_last (n : Nat) : c.ahead n Day.last = Day.last :=
  le_antisymm (Day.le_last _) (le_ahead n _)

theorem behind_first (n : Nat) : c.behind n Day.first = Day.first :=
  le_antisymm (behind_le n _) (Day.first_le _)

/-- **A walk forward can be made in two parts**, also where it runs into the end of the line. -/
theorem ahead_add (hc : c.GapsBelowHorizon) (k n : Nat) (d : Day) :
    c.ahead (k + n) d = c.ahead n (c.ahead k d) := by
  induction k generalizing d with
  | zero =>
    rw [Nat.zero_add]
    rfl
  | succ k ih =>
    rw [Nat.succ_add]
    by_cases hd : c.ReachesWork d
    · obtain ⟨w, hw⟩ := hd.exists_next
      rw [ahead_succ hc hw, ahead_succ hc hw]
      exact ih w.next
    · rw [ahead_eq_last hc hd, ahead_eq_last hc hd, ahead_last]

/-- **A walk backward can be made in two parts**, also where it runs into the beginning of the
line. -/
theorem behind_add (hc : c.GapsBelowHorizon) (k n : Nat) (d : Day) :
    c.behind (k + n) d = c.behind n (c.behind k d) := by
  induction k generalizing d with
  | zero =>
    rw [Nat.zero_add]
    rfl
  | succ k ih =>
    rw [Nat.succ_add]
    by_cases hd : ∃ u, u < d ∧ c.isWorking u
    · obtain ⟨u, hud, hu⟩ := hd
      obtain ⟨w, hw⟩ := exists_isLastWorkday hud hu
      rw [behind_succ hc hw, behind_succ hc hw]
      exact ih w
    · push Not at hd
      rw [behind_eq_first hc hd, behind_eq_first hc hd, behind_first]

/-- A walk forward over more working days does not end earlier. -/
theorem ahead_le_ahead (hc : c.GapsBelowHorizon) (h : k ≤ n) (d : Day) :
    c.ahead k d ≤ c.ahead n d := by
  obtain ⟨m, rfl⟩ := Nat.exists_eq_add_of_le h
  rw [ahead_add hc]
  exact le_ahead m _

/-- A walk backward over more working days does not end later. -/
theorem behind_le_behind (hc : c.GapsBelowHorizon) (h : k ≤ n) (d : Day) :
    c.behind n d ≤ c.behind k d := by
  obtain ⟨m, rfl⟩ := Nat.exists_eq_add_of_le h
  rw [behind_add hc]
  exact behind_le m _

/-! ## Walks of either direction -/

/-- Two walks in the same direction come to one over the sum of their lengths. -/
theorem shiftDays_add (hc : c.GapsBelowHorizon) {m n : Int}
    (h : 0 ≤ m ∧ 0 ≤ n ∨ m ≤ 0 ∧ n ≤ 0) (d : Day) :
    c.shiftDays (c.shiftDays d m) n = c.shiftDays d (m + n) := by
  rcases h with ⟨hm, hn⟩ | ⟨hm, hn⟩
  · obtain ⟨i, rfl⟩ := Int.eq_ofNat_of_zero_le hm
    obtain ⟨j, rfl⟩ := Int.eq_ofNat_of_zero_le hn
    rw [← Int.natCast_add, shiftDays_natCast, shiftDays_natCast, shiftDays_natCast, ahead_add hc]
  · obtain ⟨i, rfl⟩ := Int.exists_eq_neg_ofNat hm
    obtain ⟨j, rfl⟩ := Int.exists_eq_neg_ofNat hn
    rw [← Int.neg_add, ← Int.natCast_add, shiftDays_neg_natCast, shiftDays_neg_natCast,
      shiftDays_neg_natCast, behind_add hc]

theorem shiftDays_le {n : Int} (h : n ≤ 0) (d : Day) : c.shiftDays d n ≤ d := by
  obtain ⟨k, rfl⟩ := Int.exists_eq_neg_ofNat h
  rw [shiftDays_neg_natCast]
  exact behind_le k d

/-- A walk over a greater number of working days does not end earlier. -/
theorem shiftDays_le_shiftDays (hc : c.GapsBelowHorizon) {m n : Int} (h : m ≤ n) (d : Day) :
    c.shiftDays d m ≤ c.shiftDays d n := by
  rcases le_total 0 m with hm | hm
  · obtain ⟨i, rfl⟩ := Int.eq_ofNat_of_zero_le hm
    obtain ⟨j, rfl⟩ := Int.eq_ofNat_of_zero_le (hm.trans h)
    exact ahead_le_ahead hc (Int.ofNat_le.mp h) d
  rcases le_total 0 n with hn | hn
  · exact (shiftDays_le hm d).trans (le_shiftDays hn d)
  · obtain ⟨i, rfl⟩ := Int.exists_eq_neg_ofNat hm
    obtain ⟨j, rfl⟩ := Int.exists_eq_neg_ofNat hn
    rw [shiftDays_neg_natCast, shiftDays_neg_natCast]
    exact behind_le_behind hc (by omega) d

/-- **Walks in one direction add up, and walks keep their order.**  A walk over a sum of lengths of
the same sign is a walk over the one and then over the other.  A walk that starts no earlier, and
goes at least as far, does not end earlier, whichever way either of them leads. -/
theorem shift_add_mono (hc : c.GapsBelowHorizon) :
    (∀ d m n, 0 ≤ m ∧ 0 ≤ n ∨ m ≤ 0 ∧ n ≤ 0 →
      ∃ stop, c.shift d (.days m) = .ok stop ∧
        c.shift stop (.days n) = c.shift d (.days (m + n))) ∧
    (∀ d₁ d₂ n₁ n₂, d₁ ≤ d₂ → n₁ ≤ n₂ →
      ∃ stop₁ stop₂, c.shift d₁ (.days n₁) = .ok stop₁ ∧ c.shift d₂ (.days n₂) = .ok stop₂ ∧
        stop₁ ≤ stop₂) := by
  constructor
  · intro d m n hsigns
    refine ⟨c.shiftDays d m, rfl, ?_⟩
    show Except.ok (c.shiftDays (c.shiftDays d m) n) = .ok (c.shiftDays d (m + n))
    rw [shiftDays_add hc hsigns]
  · intro d₁ d₂ n₁ n₂ hd hn
    refine ⟨_, _, rfl, rfl, ?_⟩
    show c.shiftDays d₁ n₁ ≤ c.shiftDays d₂ n₂
    calc c.shiftDays d₁ n₁ ≤ c.shiftDays d₂ n₁ := shiftDays_mono hc n₁ hd
      _ ≤ c.shiftDays d₂ n₂ := shiftDays_le_shiftDays hc hn d₂

/-- The standard calendar with a holiday on the second Monday, the twelfth day of the line. -/
def longWeekend : Calendar := .withHolidays .standard [Day.first.advance 11]

theorem gapsBelowHorizon_longWeekend : longWeekend.GapsBelowHorizon := gapsBelowHorizon_holiday _

/-- Back over the long weekend two days and then three are five, and a walk back from the Friday
before it does not end later than a walk forward from its Sunday. -/
theorem shift_add_mono_longWeekend :
    longWeekend.GapsBelowHorizon ∧
      (longWeekend.shift (Day.first.advance 14) (.days (-2)) = .ok (Day.first.advance 12) ∧
        longWeekend.shift (Day.first.advance 12) (.days (-3)) =
          longWeekend.shift (Day.first.advance 14) (.days (-5))) ∧
      ∃ stop₁ stop₂, longWeekend.shift (Day.first.advance 8) (.days (-4)) = .ok stop₁ ∧
        longWeekend.shift (Day.first.advance 10) (.days 2) = .ok stop₂ ∧ stop₁ ≤ stop₂ := by
  have hc := gapsBelowHorizon_longWeekend
  obtain ⟨hadd, hmono⟩ := shift_add_mono hc
  have hfirst : longWeekend.shift (Day.first.advance 14) (.days (-2)) =
      .ok (Day.first.advance 12) := by decide +kernel
  obtain ⟨stop, hstop, hsum⟩ :=
    hadd (Day.first.advance 14) (-2) (-3) (.inr ⟨by decide, by decide⟩)
  cases hstop.symm.trans hfirst
  exact ⟨hc, ⟨hfirst, hsum⟩, hmono _ _ _ _ (by decide) (by decide)⟩

/-! ## Where a walk ends -/

/-- Only days off lie between two days exactly if no working day is counted there. -/
theorem idleBetween_iff : c.IdleBetween a b ↔ c.workdaysBetween a b = 0 := by
  refine ⟨workdaysBetween_eq_zero, fun hnone x hax hxb hwork => ?_⟩
  have hcount := workdaysBetween_anti (c := c) hax b
  have hpos := workdaysBetween_pos hxb hwork
  omega

/-- **A walk forward that is not cut off ends after a working day.** -/
theorem working_prev_ahead (hc : c.GapsBelowHorizon)
    (h : n + 1 ≤ c.workdaysBetween d Day.last) : c.isWorking (c.ahead (n + 1) d).prev := by
  have hleft : c.workdaysBetween (c.ahead n d) Day.last ≠ 0 := by
    have hpassed : c.workdaysBetween d (c.ahead n d) = n :=
      workdaysBetween_ahead hc (Nat.le_of_succ_le h)
    rw [workdaysBetween_add (b := c.ahead n d) (le_ahead n d) (Day.le_last _), hpassed] at h
    omega
  obtain ⟨v, hv, hlast, hwork⟩ := exists_working_of_workdaysBetween hleft
  obtain ⟨w, hw⟩ := ReachesWork.exists_next ⟨v, hv, hwork⟩
  have hwv : w ≤ v := not_lt.mp fun hvw => hw.idle v hv hvw hwork
  have hend : c.ahead (n + 1) d = w.next := by
    rw [ahead_add hc, ahead_succ hc hw]
    rfl
  rw [hend, Day.prev_next (hwv.trans_lt hlast)]
  exact hw.working

/-- **A walk backward that is not cut off ends with a working day.** -/
theorem working_behind (hc : c.GapsBelowHorizon) (h : n + 1 ≤ c.workdaysBetween Day.first d) :
    c.isWorking (c.behind (n + 1) d) := by
  have hleft : c.workdaysBetween Day.first (c.behind n d) ≠ 0 := by
    have hpassed : c.workdaysBetween (c.behind n d) d = n :=
      workdaysBetween_behind hc (Nat.le_of_succ_le h)
    rw [workdaysBetween_add (b := c.behind n d) (Day.first_le _) (behind_le n d), hpassed] at h
    omega
  obtain ⟨v, -, hv, hwork⟩ := exists_working_of_workdaysBetween hleft
  obtain ⟨w, hw⟩ := exists_isLastWorkday hv hwork
  have hend : c.behind (n + 1) d = w := by
    rw [behind_add hc, behind_succ hc hw]
    rfl
  rw [hend]
  exact hw.working

/-- The walk backward over the working days from `b` on does not get past `b`, and leaves only days
off after it. -/
theorem le_behind_workdaysBetween (hc : c.GapsBelowHorizon) (h : b ≤ a) :
    b ≤ c.behind (c.workdaysBetween b a) a ∧
      c.IdleBetween b (c.behind (c.workdaysBetween b a) a) := by
  have hinside : c.workdaysBetween b a ≤ c.workdaysBetween Day.first a :=
    workdaysBetween_anti (Day.first_le b) a
  have hpassed := workdaysBetween_behind hc hinside
  have hle : b ≤ c.behind (c.workdaysBetween b a) a := by
    by_contra hlt
    rw [not_le] at hlt
    cases hcount : c.workdaysBetween b a with
    | zero =>
      rw [hcount] at hlt
      exact absurd h (not_le.mpr hlt)
    | succ k =>
      -- the walk would pass `b` and one more working day, the one with which it ends
      have hwork : c.isWorking (c.behind (k + 1) a) := working_behind hc (hcount ▸ hinside)
      rw [hcount] at hlt hpassed
      rw [workdaysBetween_add hlt.le h, hcount] at hpassed
      have hpos := workdaysBetween_pos hlt hwork
      omega
  refine ⟨hle, idleBetween_iff.mpr ?_⟩
  have hsplit := workdaysBetween_add (c := c) hle (behind_le _ a)
  omega

/-! ## Walking and measuring -/

/-- Whoever goes from `a` to `b` has come to `stop`, and has only days off left to go. -/
structure Approaches (c : Calendar) (a b stop : Day) : Prop where
  onward : a ≤ b → a ≤ stop ∧ stop ≤ b ∧ c.IdleBetween stop b
  back : b ≤ a → b ≤ stop ∧ stop ≤ a ∧ c.IdleBetween b stop

/-- The walk over the working days between two days gets from one to the other, but for days off. -/
theorem approaches_walk (hc : c.GapsBelowHorizon) (a b : Day) :
    c.Approaches a b (c.shiftDays a (c.workingLength .day a b).count) where
  onward h := by
    rw [workingLength_of_le h, shiftDays_natCast]
    exact ⟨le_ahead _ a, ahead_workdaysBetween hc h⟩
  back h := by
    rcases eq_or_lt_of_le h with rfl | hlt
    · rw [workingLength_of_le le_rfl, workdaysBetween_of_le le_rfl]
      exact ⟨le_rfl, le_rfl, idleBetween_of_le le_rfl⟩
    · rw [workingLength_of_lt hlt, shiftDays_neg_natCast]
      obtain ⟨hle, hidle⟩ := le_behind_workdaysBetween hc h
      exact ⟨hle, behind_le _ a, hidle⟩

/-- The walk forward arrives exactly if there is work on the day before. -/
theorem ahead_workdaysBetween_eq_iff (hc : c.GapsBelowHorizon) (h : a < b) :
    c.ahead (c.workdaysBetween a b) a = b ↔ c.isWorking b.prev := by
  constructor
  · intro harrives
    cases hcount : c.workdaysBetween a b with
    | zero =>
      rw [hcount] at harrives
      exact absurd harrives h.ne
    | succ k =>
      rw [hcount] at harrives
      rw [← harrives]
      refine working_prev_ahead hc (hcount ▸ ?_)
      exact workdaysBetween_mono (Day.le_last b) a
  · intro hwork
    obtain ⟨hle, hidle⟩ := ahead_workdaysBetween hc h.le
    refine hle.eq_of_not_lt fun hlt => ?_
    exact hidle b.prev ((Day.le_prev_iff h _).mpr hlt) (Day.prev_lt h) hwork

/-- The walk backward arrives exactly at a working day. -/
theorem behind_workdaysBetween_eq_iff (hc : c.GapsBelowHorizon) (h : b < a) :
    c.behind (c.workdaysBetween b a) a = b ↔ c.isWorking b := by
  refine ⟨fun harrives => ?_, behind_workdaysBetween hc h.le⟩
  cases hcount : c.workdaysBetween b a with
  | zero =>
    rw [hcount] at harrives
    exact absurd harrives h.ne'
  | succ k =>
    rw [hcount] at harrives
    rw [← harrives]
    refine working_behind hc (hcount ▸ ?_)
    exact workdaysBetween_anti (Day.first_le b) a

/-- Where a walk over a measured length arrives, in either direction. -/
theorem walk_eq_iff (hc : c.GapsBelowHorizon) (a b : Day) :
    c.shiftDays a (c.workingLength .day a b).count = b ↔
      a = b ∨ a < b ∧ c.isWorking b.prev ∨ b < a ∧ c.isWorking b := by
  rcases lt_trichotomy a b with hab | rfl | hba
  · rw [workingLength_of_le hab.le, shiftDays_natCast, ahead_workdaysBetween_eq_iff hc hab]
    simp [hab, hab.ne, hab.not_gt]
  · rw [workingLength_of_le le_rfl, workdaysBetween_of_le le_rfl]
    simp
  · rw [workingLength_of_lt hba, shiftDays_neg_natCast, behind_workdaysBetween_eq_iff hc hba]
    simp [hba, hba.ne', hba.not_gt]

/-- **Walking and measuring undo each other, as far as there are working days.**  A walk of so many
working days is measured as what it was exactly if the line does not cut it off.  The walk over the
length from one day to another ends between the two and leaves only days off.  It arrives exactly
if there is no way to go, if the last day on the way forward is a working day, or if the day to get
back to is one. -/
theorem shift_workingLength (hc : c.GapsBelowHorizon) :
    (∀ d n, ∃ stop, c.shift d (.days n) = .ok stop ∧
      (c.workingLength .day d stop = .days n ↔ c.WalkStaysInside d n)) ∧
    (∀ a b, ∃ stop, c.shift a (c.workingLength .day a b) = .ok stop ∧ c.Approaches a b stop ∧
      (stop = b ↔ a = b ∨ a < b ∧ c.isWorking b.prev ∨ b < a ∧ c.isWorking b)) := by
  constructor
  · intro d n
    refine ⟨c.shiftDays d n, rfl, fun hmeasured => ?_, fun hinside => ?_⟩
    · have hinside := staysInside_workingLength (c := c) .day d (c.shiftDays d n)
      rw [hmeasured] at hinside
      exact hinside
    · have hlength : c.StaysInside d (.days n) := hinside
      exact workingLength_of_shift hc hlength rfl
  · intro a b
    exact ⟨_, Project.shift_day _ (grain_workingLength .day a b) a, approaches_walk hc a b,
      walk_eq_iff hc a b⟩

/-- Back three days over the long weekend is three days.  From the Thursday before it there are two
days of work to its Monday, which lead to Saturday; from the Thursday after it there are three days
back to Friday, which lead there. -/
theorem shift_workingLength_longWeekend :
    longWeekend.GapsBelowHorizon ∧ longWeekend.WalkStaysInside (Day.first.advance 14) (-3) ∧
      (∃ stop, longWeekend.shift (Day.first.advance 14) (.days (-3)) = .ok stop ∧
        longWeekend.workingLength .day (Day.first.advance 14) stop = .days (-3)) ∧
      (longWeekend.Approaches (Day.first.advance 7) (Day.first.advance 11) (Day.first.advance 9) ∧
        longWeekend.shift (Day.first.advance 7)
            (longWeekend.workingLength .day (Day.first.advance 7) (Day.first.advance 11)) =
          .ok (Day.first.advance 9)) ∧
      longWeekend.shift (Day.first.advance 14)
          (longWeekend.workingLength .day (Day.first.advance 14) (Day.first.advance 8)) =
        .ok (Day.first.advance 8) := by
  have hc := gapsBelowHorizon_longWeekend
  have hinside : longWeekend.WalkStaysInside (Day.first.advance 14) (-3) := by
    show 3 ≤ longWeekend.workdaysBetween Day.first (Day.first.advance 14)
    decide +kernel
  obtain ⟨hmeasure, hwalk⟩ := shift_workingLength hc
  obtain ⟨stop, hstop, hlength⟩ := hmeasure (Day.first.advance 14) (-3)
  obtain ⟨onward, honward, hnear, -⟩ := hwalk (Day.first.advance 7) (Day.first.advance 11)
  obtain ⟨back, hback, -, harrives⟩ := hwalk (Day.first.advance 14) (Day.first.advance 8)
  have hsaturday : longWeekend.shift (Day.first.advance 7)
      (longWeekend.workingLength .day (Day.first.advance 7) (Day.first.advance 11)) =
        .ok (Day.first.advance 9) := by decide +kernel
  cases honward.symm.trans hsaturday
  have hfriday : back = Day.first.advance 8 :=
    harrives.mpr (.inr (.inr ⟨by decide +kernel, by decide +kernel⟩))
  exact ⟨hc, hinside, ⟨stop, hstop, hlength.mpr hinside⟩, ⟨hnear, hsaturday⟩, hfriday ▸ hback⟩

end Workplan.Calendar
