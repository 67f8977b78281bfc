import Workplan.Host
import Workplan.Proofs.Rows
import Workplan.Proofs.Walks

/-!
# Giving a task new dates

The engines change a project in two ways only: a container is given dates as they are, and a
task without children is moved to a start.  Both come down to `Project.redate`.

- `Calendar.destination`: where a slide over some units ends.
- `Calendar.landing`: where a move over working days ends.
- `Calendar.landing_eq`: on the day aimed at, if that is a working day.
- `Task.movedTo`: a task at another start, with the end that follows.
- `Project.commit_revise`, `Project.commit_startAt`: the two ways, as `Project.redate`.
-/

namespace Workplan

/-! ## Where a move ends -/

namespace Calendar

variable {c : Calendar}

/-- The day so many units of a grain away. -/
def walk (c : Calendar) : Grain → Day → Int → Day
  | .day => c.shiftDays
  | .week => shiftWeeks

/-- Where a start ends up that slides over so many units: a way forward goes on to a working day. -/
def destination (c : Calendar) (g : Grain) (start : Day) (n : Int) : Day :=
  let stop := c.walk g start n
  if 0 < n then c.onOrAfter g stop else stop

/-- Where a start ends up that is moved by the working time up to another day. -/
def landing (c : Calendar) (start target : Day) : Day :=
  let way := c.workingLength .day start target
  if way.isZero then target
  else
    let stop := c.shiftDays start way.count
    if 0 < way.count then c.onOrAfter .day stop else stop

theorem workingLength_of_le {a b : Day} (h : a ≤ b) :
    c.workingLength .day a b = ⟨c.workdaysBetween a b, .day⟩ := if_pos h

theorem workingLength_of_lt {a b : Day} (h : b < a) :
    c.workingLength .day a b = ⟨-(c.workdaysBetween b a : Int), .day⟩ :=
  if_neg (not_le.mpr h)

/-- A move onwards lands on the workday that many workdays on, or on the target itself where no
workday lies between. -/
theorem landing_of_le {a b : Day} (h : a ≤ b) :
    c.landing a b = if c.workdaysBetween a b = 0 then b
      else c.onOrAfter .day (c.ahead (c.workdaysBetween a b) a) := by
  rw [landing, workingLength_of_le h]
  cases hk : c.workdaysBetween a b with
  | zero => rfl
  | succ k =>
    have hpos : (0 : Int) < (k + 1 : Nat) := by omega
    simp only [Duration.isZero]
    rw [if_neg (by simp only [decide_eq_true_eq]; omega), if_pos hpos, shiftDays_natCast,
      if_neg (Nat.succ_ne_zero k)]

/-- A move back lands that many workdays back, or on the target itself where no workday lies
between. -/
theorem landing_of_lt {a b : Day} (h : b < a) :
    c.landing a b =
      if c.workdaysBetween b a = 0 then b else c.behind (c.workdaysBetween b a) a := by
  rw [landing, workingLength_of_lt h]
  cases hk : c.workdaysBetween b a with
  | zero => rfl
  | succ k =>
    have hneg : ¬ (0 : Int) < -((k + 1 : Nat) : Int) := by omega
    simp only [Duration.isZero]
    rw [if_neg (by simp only [decide_eq_true_eq]; omega), if_neg hneg, shiftDays_neg_natCast,
      if_neg (Nat.succ_ne_zero k)]

/-- **A move to a working day lands on it.** -/
theorem landing_eq (hc : c.GapsBelowHorizon) {a b : Day} (hb : c.isWorking b) :
    c.landing a b = b := by
  rcases le_or_gt a b with hab | hab
  · rw [landing_of_le hab]
    split
    · rfl
    · obtain ⟨hle, hidle⟩ := ahead_workdaysBetween hc hab
      exact onOrAfter_eq hc ⟨hle, hb, hidle⟩
  · rw [landing_of_lt hab, if_neg (workdaysBetween_pos hab hb).ne']
    exact behind_workdaysBetween hc hab.le hb

/-- A move to a day without working days after it ends on such a day. -/
theorem not_reachesWork_landing (hc : c.GapsBelowHorizon) {a b : Day} (hb : ¬ c.ReachesWork b) :
    ¬ c.ReachesWork (c.landing a b) := by
  rcases le_or_gt a b with hab | hab
  · rw [landing_of_le hab]
    split
    · exact hb
    · obtain ⟨-, hidle⟩ := ahead_workdaysBetween hc hab
      rw [reachesWork_onOrAfter hc]
      rintro ⟨w, hw, hwork⟩
      rcases lt_or_ge w b with hwb | hbw
      · exact hidle w hw hwb hwork
      · exact hb ⟨w, hbw, hwork⟩
  · have hidle : c.IdleBetween b a := fun x hx _ hwork => hb ⟨x, hx, hwork⟩
    rw [landing_of_lt hab, if_pos (workdaysBetween_eq_zero hidle)]
    exact hb

/-- A move to another day does move. -/
theorem landing_ne (hc : c.GapsBelowHorizon) {a b : Day} (h : b ≠ a) : c.landing a b ≠ a := by
  rcases lt_or_gt_of_ne h with hba | hab
  · rw [landing_of_lt hba]
    split
    · exact h
    · next hzero =>
      obtain ⟨n, hn⟩ := Nat.exists_eq_succ_of_ne_zero hzero
      rw [hn]
      exact ((behind_succ_le n a).trans_lt (Day.prev_lt hba)).ne
  · rw [landing_of_le hab.le]
    split
    · exact h
    · next hzero =>
      -- some working day is passed, and with it the next one from `a` on
      have hwork : ∃ w, a ≤ w ∧ w < b ∧ c.isWorking w := by
        by_contra hnone
        exact hzero (workdaysBetween_eq_zero fun x hx hxb hwork => hnone ⟨x, hx, hxb, hwork⟩)
      obtain ⟨v, hav, hvb, hv⟩ := hwork
      obtain ⟨w, hw⟩ := ReachesWork.exists_next ⟨v, hav, hv⟩
      have hwb : w < b := lt_of_not_ge fun hbw => hw.idle v hav (hvb.trans_le hbw) hv
      obtain ⟨n, hn⟩ := Nat.exists_eq_succ_of_ne_zero hzero
      rw [hn, ahead_succ hc hw]
      have hpast : a < c.ahead n w.next :=
        hw.le.trans_lt ((Day.lt_next hwb).trans_le (le_ahead n w.next))
      exact (hpast.trans_le (le_onOrAfter hc _)).ne'

/-- Moving towards the first workday from a day lands where work is to come exactly when work is
to come from that day. -/
theorem reachesWork_landing_onOrAfter (hc : c.GapsBelowHorizon) {a b : Day} :
    c.ReachesWork (c.landing a (c.onOrAfter .day b)) ↔ c.ReachesWork b := by
  constructor
  · intro h
    by_contra hb
    rw [onOrAfter_of_not_reachesWork hb] at h
    exact not_reachesWork_landing hc hb h
  · intro h
    have hnext := h.isNextWorkday hc
    rw [landing_eq hc hnext.working]
    exact reachesWork_of_working hnext.working

end Calendar

/-! ## Committed dates -/

/-- The task at another start, with the end that its duration gives. -/
def Task.movedTo (t : Task) (c : Calendar) (start : Day) : Task :=
  { t with start, finish := c.shiftDays start t.duration.count }

@[simp]
theorem Task.start_movedTo (t : Task) (c : Calendar) (start : Day) :
    (t.movedTo c start).start = start := rfl

namespace Project

variable {p : Project} {id : TaskId} {t : Task}

/-- The attempt to give a task new dates, and the answer to it. -/
def redate (p : Project) (t : Task) (start finish : Day) (duration : Duration) :
    Except Fault Bool × Project :=
  if finish < start then (.error (.invalidDates t.id start finish), p)
  else
    let new : Task := { t with start, finish, duration }
    (.ok (decide (new ≠ t)), p.replace new)

/-- Without listeners a commit is the change itself. -/
theorem commit_of_ok {k : Change} {r : Changed} (h : p.change k = .ok r) :
    Host.alone.commit k p = (.ok r.changed, r.project) := by
  simp only [Host.alone, h]

theorem commit_of_error {k : Change} {fault : Fault} (h : p.change k = .error fault) :
    Host.alone.commit k p = (.error fault, p) := by
  simp only [Host.alone, h]

/-- A change that comes down to one write commits as a redating of the row. -/
theorem commit_of_change {k : Change} {start finish : Day} {duration : Duration}
    (ht : p.task? id = some t) (h : p.change k = p.write id start finish duration none) :
    Host.alone.commit k p = p.redate t start finish duration := by
  have hid := id_of_task? ht
  by_cases hlt : finish < start
  · rw [commit_of_error (h.trans (write_of_lt duration none hlt)), redate, if_pos hlt, hid]
  · obtain ⟨event?, hw⟩ := write_of_le duration ht hlt
    rw [commit_of_ok (h.trans hw), redate, if_neg hlt]

/-- The end that a task gets along with a start and possibly an end of its own. -/
def revisedFinish (t : Task) (start : Day) (finish? : Option Day) : Day :=
  if t.milestone then start else finish?.getD t.finish

/-- The duration that a task gets along with its dates. -/
def revisedDuration (c : Calendar) (t : Task) (start finish : Day) : Duration :=
  if t.milestone then ⟨0, t.grain⟩ else c.workingLength t.grain start finish

theorem grain_revisedDuration (c : Calendar) (t : Task) (start finish : Day) :
    (revisedDuration c t start finish).grain = t.grain := by
  rw [revisedDuration, Calendar.workingLength]
  split
  · rfl
  · split <;> rfl

/-- Dates are given to a task as they are, but a milestone ends where it starts. -/
theorem revise_eq_write (ht : p.task? id = some t) (start? finish? : Option Day) :
    p.revise id { start?, finish? } =
      p.write id (start?.getD t.start) (revisedFinish t (start?.getD t.start) finish?)
        (revisedDuration p.calendar t (start?.getD t.start)
          (revisedFinish t (start?.getD t.start) finish?)) none := by
  have hspan : p.revisedSpan t (start?.getD t.start) { start?, finish? } =
      .ok (revisedFinish t (start?.getD t.start) finish?,
        revisedDuration p.calendar t (start?.getD t.start)
          (revisedFinish t (start?.getD t.start) finish?)) := by
    unfold revisedSpan revisedFinish revisedDuration
    cases t.milestone <;> rfl
  rw [revise, get_of_task? ht]
  show (p.revisedSpan t (start?.getD t.start) _ >>= _) = _
  rw [hspan]
  rfl

/-- A revision of the dates commits as a redating, with the finish and the duration that follow
from it. -/
theorem commit_revise (ht : p.task? id = some t) (start? finish? : Option Day) :
    Host.alone.commit (.revise id { start?, finish? }) p =
      p.redate t (start?.getD t.start) (revisedFinish t (start?.getD t.start) finish?)
        (revisedDuration p.calendar t (start?.getD t.start)
          (revisedFinish t (start?.getD t.start) finish?)) :=
  commit_of_change ht (revise_eq_write ht start? finish?)

/-- A length in days shifts by single workdays. -/
theorem shift_day {c : Calendar} (length : Duration) (h : length.grain = .day) (d : Day) :
    c.shift d length = .ok (c.shiftDays d length.count) := by
  rw [Calendar.shift, h]

/-- The end that follows from a start and the duration of a task; a milestone has none. -/
theorem finish_of_milestone {c : Calendar} (hpoint : t.milestone → t.duration.count = 0)
    (start : Day) :
    (if t.milestone then start else c.shiftDays start t.duration.count) =
      c.shiftDays start t.duration.count := by
  split
  · next h => rw [hpoint h, Calendar.shiftDays_zero]
  · rfl

/-- A number of days on the line fits in 64 bits. -/
theorem checkedCount_of_lt_count {n : Int} (h : n.natAbs < Day.count) :
    Duration.checkedCount n = .ok n := by
  rw [Day.count] at h
  rw [Duration.checkedCount, Duration.leastCount, Duration.greatestCount, if_pos (by omega)]

/-- No two dates are farther apart than the range of dates is long. -/
theorem natAbs_workingLength_lt (c : Calendar) (a b : Day) :
    (c.workingLength .day a b).count.natAbs < Day.count := by
  have hab := c.workdaysBetween_le_distance a b
  have hba := c.workdaysBetween_le_distance b a
  have ha := a.ordinal_lt
  have hb := b.ordinal_lt
  rw [Day.distance] at hab hba
  rcases le_or_gt a b with h | h
  · rw [Calendar.workingLength_of_le h]
    dsimp only
    omega
  · rw [Calendar.workingLength_of_lt h]
    dsimp only
    omega

/-- **A task counted in days that slides keeps its duration.** -/
theorem slide_eq_write (ht : p.task? id = some t) (hday : t.grain = .day)
    (hpoint : t.milestone → t.duration.count = 0) {way : Duration}
    (hcount : way.count.natAbs < Day.count) {start : Day}
    (hstart : p.calendar.destination .day t.start way.count = start) :
    p.slide id [way] =
      p.write id start (p.calendar.shiftDays start t.duration.count) t.duration none := by
  have htotal : totalCount 0 [way] = .ok way.count := by
    show (Duration.checkedCount (0 + way.count) >>= fun n => pure n) = _
    rw [Int.zero_add, checkedCount_of_lt_count hcount]
    rfl
  have hwalk : p.calendar.shift t.start ⟨way.count, t.grain⟩ =
      .ok (p.calendar.walk .day t.start way.count) := shift_day ⟨way.count, t.grain⟩ hday t.start
  rw [slide, get_of_task? ht, ← finish_of_milestone hpoint]
  show (totalCount 0 [way] >>= _) = _
  rw [htotal]
  show (p.calendar.shift t.start ⟨way.count, t.grain⟩ >>= _) = _
  rw [hwalk, hday]
  dsimp only [bind, Except.bind, pure, Except.pure]
  dsimp only [Calendar.destination] at hstart
  rw [hstart, shift_day t.duration hday]
  split <;> rfl

/-- A task without children keeps its duration when it is moved. -/
theorem commit_startAt (ht : p.task? id = some t) (hleaf : p.hasChildren id = false)
    (hday : t.grain = .day) (hpoint : t.milestone → t.duration.count = 0) (day : Day) :
    Host.alone.commit (.startAt id day) p =
      if p.calendar.onOrAfter .day day = t.start then (.ok false, p)
      else
        let start := p.calendar.landing t.start (p.calendar.onOrAfter .day day)
        p.redate t start (p.calendar.shiftDays start t.duration.count) t.duration := by
  have hmove : p.startAt id day =
      if p.calendar.onOrAfter .day day = t.start then .ok ⟨p, false, none⟩
      else if (p.calendar.workingLength .day t.start (p.calendar.onOrAfter .day day)).isZero then
        p.revise id { start? := some (p.calendar.onOrAfter .day day), duration? := some t.duration }
      else p.slide id [p.calendar.workingLength .day t.start (p.calendar.onOrAfter .day day)] := by
    rw [startAt, get_of_task? ht]
    show (if p.hasChildren id = true then _ else _) = _
    rw [hleaf, hday]
    rfl
  generalize htarget : p.calendar.onOrAfter .day day = target at hmove ⊢
  by_cases hsame : target = t.start
  · rw [if_pos hsame]
    rw [if_pos hsame] at hmove
    exact commit_of_ok (k := .startAt id day) hmove
  rw [if_neg hsame]
  rw [if_neg hsame] at hmove
  dsimp only
  refine commit_of_change ht ?_
  show p.startAt id day = _
  rw [hmove]
  split
  · -- no working time in between: the start is set, with the end that the duration gives
    next hzero =>
    have hland : p.calendar.landing t.start target = target := by
      rw [Calendar.landing, if_pos hzero]
    rw [hland, revise, get_of_task? ht]
    show (p.revisedSpan t target _ >>= _) = _
    rw [← finish_of_milestone hpoint, revisedSpan]
    split
    · next hms =>
      have hduration : (⟨0, t.duration.grain⟩ : Duration) = t.duration := by
        rw [← hpoint hms]
      show p.write id target target ⟨0, t.duration.grain⟩ none = _
      rw [hduration]
    · show (p.calendar.shift target t.duration >>= _ ) >>= _ = _
      rw [shift_day t.duration hday]
      rfl
  · -- the way to the target is walked in working days, and the end follows the start
    next hzero =>
    refine slide_eq_write ht hday hpoint (natAbs_workingLength_lt _ _ _) ?_
    rw [Calendar.landing, if_neg hzero]
    rfl

end Project

end Workplan
