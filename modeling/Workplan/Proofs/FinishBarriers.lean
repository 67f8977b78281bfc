import Workplan.Proofs.Schedulable
import Workplan.Proofs.ShiftLaws

/-!
# Barriers for ends

A dependency on the end of a task accepts the start that lies the duration before its barrier.  From
there or from the next working day, the duration leads to the barrier, but for days off before it.
Counted in days, no earlier working day would do.

- `Calendar.idleBetween_ahead_iff`: a walk leaves only days off before a day exactly if it passes
  all working days up to there.
- `Calendar.isLeast_onOrAfter_behind`: the earliest working day from which it does.
- `Calendar.idleBetween_shift`: a duration back and forward again.
- `Dependency.end_meets_barrier`: what a dependency on the end of a task accepts.
-/

namespace Workplan

namespace Calendar

variable {c : Calendar} {a b : Day} {n : Nat}

/-! ## Walks to a day -/

/-- **A walk leaves only days off before a day exactly if it is as long as there are working days up
to there.** -/
theorem idleBetween_ahead_iff (hc : c.GapsBelowHorizon) :
    c.IdleBetween (c.ahead n a) b ↔ c.workdaysBetween a b ≤ n := by
  constructor
  · intro hidle
    by_contra hmore
    rw [not_le] at hmore
    have hpassed : c.workdaysBetween a (c.ahead n a) = n := by
      refine workdaysBetween_ahead hc (hmore.le.trans ?_)
      exact workdaysBetween_mono (Day.le_last b) a
    rcases le_total b (c.ahead n a) with hle | hle
    · have := workdaysBetween_mono (c := c) hle a
      omega
    · rw [workdaysBetween_add (le_ahead n a) hle, hpassed, workdaysBetween_eq_zero hidle] at hmore
      omega
  · intro hcount x hx hxb
    have hab : a ≤ b := (le_ahead n a).trans (hx.trans hxb.le)
    obtain ⟨-, hidle⟩ := ahead_workdaysBetween hc hab
    exact hidle x ((ahead_le_ahead hc hcount a).trans hx) hxb

theorem WalkStaysInside.le_workdaysBetween (h : c.WalkStaysInside b (-(n : Int))) :
    n ≤ c.workdaysBetween Day.first b := by
  cases n with
  | zero => exact Nat.zero_le _
  | succ n => exact h

/-- Forward again from where a walk back ended or from later on, a walk leaves only days off. -/
theorem idleBetween_ahead_of_behind_le (hc : c.GapsBelowHorizon)
    (hinside : n ≤ c.workdaysBetween Day.first b) (h : c.behind n b ≤ a) :
    c.IdleBetween (c.ahead n a) b := by
  rw [idleBetween_ahead_iff hc]
  exact (workdaysBetween_anti h b).trans (workdaysBetween_behind hc hinside).le

/-- **The earliest working day from which a walk leaves only days off before a day** is found by the
walk back from there and then on to a working day. -/
theorem isLeast_onOrAfter_behind (hc : c.GapsBelowHorizon)
    (hinside : n ≤ c.workdaysBetween Day.first b) (hreach : c.ReachesWork (c.behind n b)) :
    IsLeast {x | c.isWorking x ∧ c.IdleBetween (c.ahead n x) b}
      (c.onOrAfter .day (c.behind n b)) := by
  have hnext := hreach.isNextWorkday hc
  refine ⟨⟨hnext.working, idleBetween_ahead_of_behind_le hc hinside hnext.le⟩, ?_⟩
  rintro x ⟨hwork, hidle⟩
  have hcount : c.workdaysBetween x b ≤ n := (idleBetween_ahead_iff hc).mp hidle
  refine not_lt.mp fun hlt => ?_
  rcases lt_or_ge x (c.behind n b) with hxs | hsx
  · -- from `x` on there is one more working day than the walk passes
    rw [workdaysBetween_add hxs.le (behind_le n b), workdaysBetween_behind hc hinside] at hcount
    have := workdaysBetween_pos hxs hwork
    omega
  · exact hnext.idle x hsx hlt hwork

/-- Whole weeks forward again from where they led back or from later on lead to the day or
beyond. -/
theorem le_shiftWeeks_of_back {n : Int} (hn : 0 ≤ n) (hback : 0 ≤ b.ordinal + 7 * -n)
    (hba : shiftWeeks b (-n) ≤ a) (hinside : a.ordinal + 7 * n < Day.count) :
    b ≤ shiftWeeks a n := by
  have hb := b.ordinal_lt
  have hstop := ordinal_shiftWeeks (a := b) (n := -n) hback (by omega)
  have hthere := ordinal_shiftWeeks (a := a) (n := n) (by omega) hinside
  rw [Day.le_def] at hba ⊢
  omega

/-- **Forward again from where a duration led back or from later on, it leaves only days off.**  In
weeks it must not leave the line. -/
theorem idleBetween_shift (hc : c.GapsBelowHorizon) {length : Duration} (hcount : 0 ≤ length.count)
    (hback : c.StaysInside b ⟨-length.count, length.grain⟩)
    (hba : c.walk length.grain b (-length.count) ≤ a)
    (hinside : length.grain = .day ∨ c.StaysInside a length) :
    ∃ finish, c.shift a length = .ok finish ∧ c.IdleBetween finish b := by
  obtain ⟨count, grain⟩ := length
  cases grain with
  | day =>
    obtain ⟨n, rfl⟩ := Int.eq_ofNat_of_zero_le hcount
    replace hback : n ≤ c.workdaysBetween Day.first b := WalkStaysInside.le_workdaysBetween hback
    replace hba : c.behind n b ≤ a := (shiftDays_neg_natCast b n).symm.trans_le hba
    exact ⟨c.ahead n a, rfl, idleBetween_ahead_of_behind_le hc hback hba⟩
  | week =>
    replace hinside := hinside.resolve_left fun h => by cases h
    have hreached : b ≤ shiftWeeks a count := le_shiftWeeks_of_back hcount hback.1 hba hinside.2
    exact ⟨_, shift_of_staysInside hinside, idleBetween_of_le hreached⟩

end Calendar

/-! ## Dependencies on ends -/

namespace Dependency

variable {c : Calendar} {d : Dependency} {dependee dependant : Task}

/-- The start accepted by a dependency on an end lies the duration before the barrier. -/
theorem collision_of_bindsFinish (hkind : d.kind.bindsFinish)
    (hcount : 0 ≤ dependant.duration.count)
    (hback : c.StaysInside (d.barrier c dependee)
      ⟨-dependant.duration.count, dependant.grain⟩) :
    ∃ active, d.collision c dependee dependant = .ok
      ⟨c.walk dependant.grain (d.barrier c dependee) (-dependant.duration.count), .later,
        active⟩ := by
  have hlt := hback.natAbs_lt_count
  dsimp only at hlt
  have haccept : d.acceptableStart c dependee dependant =
      .ok (c.walk dependant.grain (d.barrier c dependee) (-dependant.duration.count)) := by
    rw [acceptableStart_eq, if_pos hkind, Duration.negate_of_lt hcount (by omega)]
    exact Calendar.shift_of_staysInside hback
  rw [collision_eq, haccept]
  exact ⟨_, rfl⟩

/-- **A dependency on an end holds that end at its barrier.**  From the start that it accepts, put
on a working day, the duration leads to the barrier or beyond, but for days off before the
barrier.  Counted in days, that start is the earliest working day from which it does. -/
theorem end_meets_barrier (hc : c.GapsBelowHorizon) (hkind : d.kind.bindsFinish)
    (hcount : 0 ≤ dependant.duration.count)
    (hback : c.StaysInside (d.barrier c dependee)
      ⟨-dependant.duration.count, dependant.grain⟩) :
    ∃ k a, d.collision c dependee dependant = .ok k ∧
      (k.startRange c dependant.grain).lower.endpoint = some a ∧
      (dependant.grain = .day ∨ c.StaysInside a dependant.duration →
        ∃ finish, c.shift a dependant.duration = .ok finish ∧
          c.IdleBetween finish (d.barrier c dependee)) ∧
      (dependant.grain = .day → c.ReachesWork k.acceptableStart →
        IsLeast {x | c.isWorking x ∧ ∃ finish, c.shift x dependant.duration = .ok finish ∧
          c.IdleBetween finish (d.barrier c dependee)} a) := by
  obtain ⟨active, hcollision⟩ := collision_of_bindsFinish hkind hcount hback
  refine ⟨_, _, hcollision, rfl, Calendar.idleBetween_shift hc hcount hback
    (Calendar.le_snap_forward _ _), fun hday hreach => ?_⟩
  obtain ⟨n, hn⟩ := Int.eq_ofNat_of_zero_le hcount
  rw [hn, hday] at hback hreach ⊢
  have hwalk :
      c.walk .day (d.barrier c dependee) (-(n : Int)) = c.behind n (d.barrier c dependee) :=
    Calendar.shiftDays_neg_natCast _ n
  have hend : ∀ x, c.shift x dependant.duration = .ok (c.ahead n x) := fun x => by
    rw [Project.shift_day _ hday, hn]
    rfl
  dsimp only at hreach ⊢
  rw [hwalk] at hreach ⊢
  simp only [hend, Except.ok.injEq, exists_eq_left']
  exact Calendar.isLeast_onOrAfter_behind hc
    (Calendar.WalkStaysInside.le_workdaysBetween hback) hreach

/-- A roof of a week from a Monday on. -/
def roof : Task :=
  ⟨⟨1⟩, "roof", Day.first.advance 4, Day.first.advance 9, .days 5, false, .absent⟩

/-- Paint of three days that is to end a day after the roof. -/
def paint : Task :=
  ⟨⟨2⟩, "paint", Day.first.advance 4, Day.first.advance 7, .days 3, false, .absent⟩

/-- The paint waits for the end of the roof. -/
def drying : Dependency := ⟨⟨1⟩, ⟨1⟩, ⟨2⟩, .finishFinish, .rubber, 1⟩

/-- The roof ends on a Saturday, so the paint is to end with the Monday after it, and has to start
on the Thursday before. -/
theorem end_meets_barrier_drying : Calendar.standard.GapsBelowHorizon ∧
    drying.kind.bindsFinish ∧ 0 ≤ paint.duration.count ∧
    drying.barrier .standard roof = Day.first.advance 12 ∧
    Calendar.standard.StaysInside (drying.barrier .standard roof)
      ⟨-paint.duration.count, paint.grain⟩ ∧
    ∃ k, drying.collision .standard roof paint = .ok k ∧
      (k.startRange .standard paint.grain).lower.endpoint = some (Day.first.advance 7) ∧
      Calendar.standard.ReachesWork k.acceptableStart ∧
      (∃ finish, Calendar.standard.shift (Day.first.advance 7) paint.duration = .ok finish ∧
        Calendar.standard.IdleBetween finish (drying.barrier .standard roof)) ∧
      IsLeast {x | Calendar.standard.isWorking x ∧
        ∃ finish, Calendar.standard.shift x paint.duration = .ok finish ∧
          Calendar.standard.IdleBetween finish (drying.barrier .standard roof)}
        (Day.first.advance 7) := by
  have hbarrier : drying.barrier .standard roof = Day.first.advance 12 := by decide +kernel
  have hback : Calendar.standard.StaysInside (drying.barrier .standard roof)
      ⟨-paint.duration.count, paint.grain⟩ := by
    show 3 ≤ Calendar.standard.workdaysBetween Day.first (drying.barrier .standard roof)
    rw [hbarrier]
    decide +kernel
  have hcollision : drying.collision .standard roof paint =
      .ok ⟨Day.first.advance 7, .later, true⟩ := by decide +kernel
  obtain ⟨k, a, hk, ha, hend, hleast⟩ :=
    end_meets_barrier Calendar.gapsBelowHorizon_standard (by decide) (by decide) hback
  cases hk.symm.trans hcollision
  have hstart : (Collision.startRange ⟨Day.first.advance 7, .later, true⟩ .standard
      paint.grain).lower.endpoint = some (Day.first.advance 7) := by decide +kernel
  cases ha.symm.trans hstart
  have hreach : Calendar.standard.ReachesWork (Day.first.advance 7) :=
    Calendar.reachesWork_of_working (by decide +kernel)
  exact ⟨Calendar.gapsBelowHorizon_standard, by decide, by decide, hbarrier, hback, _, hcollision,
    hstart, hreach, hend (.inl rfl), hleast rfl hreach⟩

end Dependency

end Workplan
