import Workplan.Proofs.Lengths

/-!
# Where a move to a day ends

A task without children is moved to a day by the working time on the way there.  Counted in days
this leads to the working day aimed at.  Counted in weeks it leads there if the way is shorter than
a week or made of whole weeks.  Otherwise the rest of the way is lost: the task stops less than a
week short of the day aimed at.

- `Calendar.arrival`: where a move by the working time on the way to a day ends.
- `Calendar.arrival_of_day`, `Calendar.arrival_of_wholeWeeks`: on that day.
- `Calendar.exists_stop`: or at the last whole week before it.
- `Project.exists_of_startAt`: what a move to a day does to a task without children.
- `Project.lands_of_startAt`: where the task is then.
- `Project.startAt_quarryPlan`: a move of nine days that ends after seven.
-/

namespace Workplan

namespace Day

variable {a b : Day}

/-- Days between two days, whichever comes first. -/
def apart (a b : Day) : Nat := a.distance b + b.distance a

theorem apart_of_le (h : a ≤ b) : a.apart b = b.ordinal - a.ordinal := by
  rw [le_def] at h
  rw [apart, distance, distance]
  omega

theorem apart_of_ge (h : b ≤ a) : a.apart b = a.ordinal - b.ordinal := by
  rw [le_def] at h
  rw [apart, distance, distance]
  omega

end Day

namespace Calendar

variable {c : Calendar} {g : Grain} {a b d : Day}

/-! ## Where a move ends -/

/-- A shift that succeeds is the walk, by days or by whole weeks. -/
theorem walk_of_shift {length : Duration} (h : c.shift a length = .ok b) :
    c.walk length.grain a length.count = b := by
  obtain ⟨count, grain⟩ := length
  cases grain with
  | day => exact Except.ok.inj h
  | week =>
    rw [shift] at h
    split_ifs at h
    exact Except.ok.inj h

/-- Where a start ends up that is moved by the working time up to another day, counted in a
grain. -/
def arrival (c : Calendar) (g : Grain) (start target : Day) : Day :=
  let way := c.workingLength g start target
  if way.isZero then target
  else
    let stop := c.walk g start way.count
    if 0 < way.count then c.onOrAfter g stop else stop

/-- **Counted in days, a move to a working day ends on it.** -/
theorem arrival_of_day (hc : c.GapsBelowHorizon) (hb : c.isWorking b) : c.arrival .day a b = b :=
  landing_eq hc hb

/-- A length in weeks counts the whole weeks between two days and drops the rest. -/
theorem workingLength_week_of_le (h : a ≤ b) :
    c.workingLength .week a b = ⟨(a.apart b / 7 : Nat), .week⟩ := by
  rw [workingLength, if_pos h, Day.apart_of_le h]
  rfl

/-- Backwards too the rest of a week is dropped, so lengths are rounded towards zero. -/
theorem workingLength_week_of_ge (h : b ≤ a) :
    c.workingLength .week a b = ⟨-((a.apart b / 7 : Nat) : Int), .week⟩ := by
  rcases eq_or_lt_of_le h with rfl | hlt
  · rw [workingLength_week_of_le le_rfl, Day.apart_of_le le_rfl, Nat.sub_self]
    rfl
  · rw [workingLength, if_neg (not_le.mpr hlt), Day.apart_of_ge h]
    rfl

/-- Counted in weeks, a move over less than a week ends on the day aimed at. -/
theorem arrival_of_lt_week (h : a.apart b < 7) : c.arrival .week a b = b := by
  have hzero : a.apart b / 7 = 0 := Nat.div_eq_of_lt h
  rcases le_total a b with hab | hba
  · rw [arrival, workingLength_week_of_le hab, hzero]
    rfl
  · rw [arrival, workingLength_week_of_ge hba, hzero]
    rfl

/-- A move onwards by at least a week goes whole weeks and, from a day off, on to the next Monday
that is worked. -/
theorem arrival_week_of_le (hab : a ≤ b) (h : 7 ≤ a.apart b) :
    c.arrival .week a b = c.onOrAfter .week (shiftWeeks a (a.apart b / 7 : Nat)) := by
  rw [arrival, workingLength_week_of_le hab]
  dsimp only
  rw [if_neg (by simp only [Duration.isZero, decide_eq_true_eq]; omega), if_pos (by omega)]
  rfl

/-- A move back by at least a week goes whole weeks and stays where it lands. -/
theorem arrival_week_of_ge (hba : b ≤ a) (h : 7 ≤ a.apart b) :
    c.arrival .week a b = shiftWeeks a (-((a.apart b / 7 : Nat) : Int)) := by
  rw [arrival, workingLength_week_of_ge hba]
  dsimp only
  rw [if_neg (by simp only [Duration.isZero, decide_eq_true_eq]; omega), if_neg (by omega)]
  rfl

/-- **Counted in weeks, a longer move first stops at the last whole week on the way.**  From there
a move forward goes on to a working day, and a move backward does not go on. -/
theorem exists_stop (c : Calendar) (h : 7 ≤ a.apart b) :
    ∃ stop, 7 ∣ a.apart stop ∧ stop.apart b = a.apart b % 7 ∧
      (a < b → a < stop ∧ stop ≤ b ∧ c.arrival .week a b = c.onOrAfter .week stop) ∧
      (b < a → b ≤ stop ∧ stop < a ∧ c.arrival .week a b = stop) := by
  have ha := a.ordinal_lt
  have hb := b.ordinal_lt
  simp only [Day.lt_def, Day.le_def]
  rcases le_total a b with hab | hba
  · have harrival := arrival_week_of_le (c := c) hab h
    have hdays := Day.apart_of_le hab
    rw [Day.le_def] at hab
    have hstop : ((shiftWeeks a (a.apart b / 7 : Nat)).ordinal : Int) =
        a.ordinal + 7 * (a.apart b / 7 : Nat) := ordinal_shiftWeeks (by omega) (by omega)
    generalize shiftWeeks a (a.apart b / 7 : Nat) = stop at hstop harrival
    refine ⟨stop, ?_, ?_, fun _ => ⟨by omega, by omega, harrival⟩, fun hlt => by omega⟩ <;>
      simp only [Day.apart, Day.distance] at * <;> omega
  · have harrival := arrival_week_of_ge (c := c) hba h
    have hdays := Day.apart_of_ge hba
    rw [Day.le_def] at hba
    have hstop : ((shiftWeeks a (-((a.apart b / 7 : Nat) : Int))).ordinal : Int) =
        a.ordinal + 7 * (-((a.apart b / 7 : Nat) : Int)) :=
      ordinal_shiftWeeks (by omega) (by omega)
    generalize shiftWeeks a (-((a.apart b / 7 : Nat) : Int)) = stop at hstop harrival
    refine ⟨stop, ?_, ?_, fun hlt => by omega, fun _ => ⟨by omega, by omega, harrival⟩⟩ <;>
      simp only [Day.apart, Day.distance] at * <;> omega

/-- **Counted in weeks, a move over whole weeks ends on the day aimed at**, if a search has found
that day. -/
theorem arrival_of_wholeWeeks (hb : c.onOrAfter .week d = b) (h : 7 ∣ a.apart b) :
    c.arrival .week a b = b := by
  rcases Nat.lt_or_ge (a.apart b) 7 with hshort | hlong
  · exact arrival_of_lt_week hshort
  obtain ⟨stop, -, hrest, hforward, hbackward⟩ := exists_stop c hlong
  have hstop : stop = b := by
    rw [Nat.mod_eq_zero_of_dvd h, Day.apart, Day.distance, Day.distance] at hrest
    rw [Day.eq_iff]
    omega
  rcases lt_trichotomy a b with hab | hab | hba
  · rw [(hforward hab).2.2, hstop, ← hb, onOrAfter_idem]
  · rw [hab, Day.apart_of_le le_rfl] at hlong
    omega
  · rw [(hbackward hba).2.2, hstop]

/-- A move to another day does move, in either grain. -/
theorem arrival_ne (hc : c.GapsBelowHorizon) (h : b ≠ a) : c.arrival g a b ≠ a := by
  cases g with
  | day => exact landing_ne hc h
  | week =>
    rcases Nat.lt_or_ge (a.apart b) 7 with hshort | hlong
    · rwa [arrival_of_lt_week hshort]
    obtain ⟨stop, -, -, hforward, hbackward⟩ := exists_stop c hlong
    rcases lt_or_gt_of_ne h with hba | hab
    · obtain ⟨-, hlt, harrival⟩ := hbackward hba
      exact harrival ▸ hlt.ne
    · obtain ⟨hlt, -, harrival⟩ := hforward hab
      exact harrival ▸ (hlt.trans_le (le_snap_forward .week stop)).ne'

end Calendar

/-! ## Moves of tasks -/

namespace Project

variable {p : Project} {id : TaskId} {t : Task} {day target start finish : Day} {done : Changed}

/-- A write that leaves length and anchor alone changes the two dates of its row, and reports a
change exactly when a date is new. -/
theorem exists_of_write (ht : p.task? id = some t)
    (h : p.write id start finish t.duration none = .ok done) :
    done.project.task? id = some { t with start, finish } ∧
      done.changed = decide ({ t with start, finish } ≠ t) := by
  rw [write, get_of_task? ht] at h
  split at h
  · cases h
  cases h
  exact ⟨task?_replace_self ht rfl, rfl⟩

/-- The end that a task gets with a start lies its duration away, also for a milestone. -/
theorem shift_of_finishFrom {c : Calendar} (hpoint : t.milestone → t.duration.count = 0)
    (h : t.finishFrom c start = .ok finish) : c.shift start t.duration = .ok finish := by
  rw [Task.finishFrom] at h
  split at h
  · next hms =>
    have hduration : t.duration = ⟨0, t.grain⟩ := by
      rw [← hpoint hms]
      rfl
    rw [hduration, Calendar.shift_zero]
    exact h
  · exact h

/-- A task that is given a start and its own duration gets the end that follows. -/
theorem exists_of_revise_start (ht : p.task? id = some t)
    (hpoint : t.milestone → t.duration.count = 0)
    (h : p.revise id { start? := some start, duration? := some t.duration } = .ok done) :
    ∃ finish, t.finishFrom p.calendar start = .ok finish ∧
      p.write id start finish t.duration none = .ok done := by
  rw [revise] at h
  obtain ⟨old, hold, h⟩ := exists_of_bind_eq_ok h
  cases (get_eq_ok_iff.mp hold).symm.trans ht
  obtain ⟨⟨finish, duration⟩, hspan, hwrite⟩ := exists_of_bind_eq_ok h
  have hfinish := revisedSpan_duration (p := p) (t := t) start
  have hkept : duration = t.duration := by
    rw [revisedSpan] at hspan
    split at hspan
    · next hms =>
      cases hspan
      exact congrArg (Duration.mk · t.grain) (hpoint hms).symm
    · obtain ⟨_, -, hpair⟩ := exists_of_bind_eq_ok hspan
      cases hpair
      rfl
  rw [hkept] at hwrite
  exact ⟨finish, by rw [← hfinish]; exact congrArg (Except.map Prod.fst) hspan, hwrite⟩

/-- The total of a list of lengths adds their counts and nothing of their units. -/
theorem eq_of_totalCount {lengths : List Duration} {start total : Int}
    (h : totalCount start lengths = .ok total) :
    total = start + (lengths.map Duration.count).sum := by
  induction lengths generalizing start with
  | nil =>
    cases h
    rw [List.map_nil, List.sum_nil, Int.add_zero]
  | cons length lengths ih =>
    rw [totalCount, List.foldlM_cons] at h
    obtain ⟨sum, hsum, h⟩ := exists_of_bind_eq_ok h
    rw [Duration.checkedCount] at hsum
    split_ifs at hsum
    cases hsum
    rw [ih h, List.map_cons, List.sum_cons, Int.add_assoc]

/-- **A task that slides goes where the sum of the counts leads, in its own grain**, and on to a
working day if that is forward. -/
theorem exists_of_slide (ht : p.task? id = some t) {lengths : List Duration} {total : Int}
    (htotal : (lengths.map Duration.count).sum = total) (h : p.slide id lengths = .ok done) :
    p.calendar.shift t.start ⟨total, t.grain⟩ = .ok (p.calendar.walk t.grain t.start total) ∧
      ∃ finish, t.finishFrom p.calendar (p.calendar.destination t.grain t.start total) =
          .ok finish ∧
        p.write id (p.calendar.destination t.grain t.start total) finish t.duration none =
          .ok done := by
  rw [slide] at h
  obtain ⟨old, hold, h⟩ := exists_of_bind_eq_ok h
  cases (get_eq_ok_iff.mp hold).symm.trans ht
  obtain ⟨sum, hsum, h⟩ := exists_of_bind_eq_ok h
  obtain ⟨stop, hstop, h⟩ := exists_of_bind_eq_ok h
  obtain rfl : sum = total := by rw [eq_of_totalCount hsum, htotal, Int.zero_add]
  obtain rfl := Calendar.walk_of_shift hstop
  refine ⟨hstop, ?_⟩
  dsimp only at h
  split at h
  · next hms => exact ⟨_, if_pos hms, h⟩
  · next hms =>
    obtain ⟨finish, hfinish, hwrite⟩ := exists_of_bind_eq_ok h
    exact ⟨finish, (if_neg hms).trans hfinish, hwrite⟩

/-- **A task without children that is moved to a day stays if it starts there, and otherwise goes
where the working time on the way leads**, with the end that its duration gives. -/
theorem exists_of_startAt (ht : p.task? id = some t) (hleaf : p.hasChildren id = false)
    (hpoint : t.milestone → t.duration.count = 0)
    (htarget : p.calendar.onOrAfter t.grain day = target) (h : p.startAt id day = .ok done) :
    (target = t.start ∧ done = ⟨p, false, none⟩) ∨
      ∃ start finish, target ≠ t.start ∧ start = p.calendar.arrival t.grain t.start target ∧
        p.calendar.shift start t.duration = .ok finish ∧
        p.write id start finish t.duration none = .ok done := by
  rw [startAt, get_of_task? ht] at h
  dsimp only [bind, Except.bind] at h
  rw [hleaf, if_neg (by decide), htarget] at h
  split at h
  · next hsame =>
    cases h
    exact .inl ⟨hsame, rfl⟩
  next hother =>
  right
  split at h
  · -- no unit on the way: the start is set
    next hzero =>
    obtain ⟨finish, hfinish, hwrite⟩ := exists_of_revise_start ht hpoint h
    have harrival : p.calendar.arrival t.grain t.start target = target := by
      rw [Calendar.arrival, if_pos hzero]
    exact ⟨target, finish, hother, harrival.symm, shift_of_finishFrom hpoint hfinish, hwrite⟩
  · next hzero =>
    have htotal : ∀ way : Duration, ([way].map Duration.count).sum = way.count :=
      fun _ => List.sum_singleton
    obtain ⟨-, finish, hfinish, hwrite⟩ := exists_of_slide ht (htotal _) h
    refine ⟨_, finish, hother, ?_, shift_of_finishFrom hpoint hfinish, hwrite⟩
    rw [Calendar.arrival, if_neg hzero]
    rfl

/-- **A task without children that is moved to a day keeps its duration, has the end that follows
from it, and is different exactly if its start is.**  It starts on the working day aimed at if it is
counted in days, or if the way there is shorter than a week or made of whole weeks.  If it is
counted in weeks and the way is neither, it stops at the last whole week on the way: from there a
move forward goes on to a working day, and a move backward ends there, days before it has reached
the day aimed at. -/
theorem lands_of_startAt (hp : p.Reachable) (hc : p.calendar.GapsBelowHorizon)
    (ht : p.task? id = some t) (hleaf : p.hasChildren id = false)
    (hwork : p.calendar.ReachesWork day) (htarget : p.calendar.onOrAfter t.grain day = target)
    (h : p.startAt id day = .ok done) :
    ∃ new, done.project.task? id = some new ∧ new.duration = t.duration ∧
      (done.changed = true ↔ new.start ≠ t.start) ∧
      (done.changed = true → p.calendar.shift new.start t.duration = .ok new.finish) ∧
      (t.grain = .day ∨ t.start.apart target < 7 ∨ 7 ∣ t.start.apart target →
        new.start = target) ∧
      (t.grain = .week → 7 ≤ t.start.apart target → ∃ stop, 7 ∣ t.start.apart stop ∧
        stop.apart target = t.start.apart target % 7 ∧
        (t.start < target → stop ≤ target ∧ new.start = p.calendar.onOrAfter .week stop) ∧
        (target < t.start → target ≤ stop ∧ new.start = stop)) := by
  have hregular := hp.sound.regular_of_task? ht
  rcases exists_of_startAt ht hleaf hregular.point htarget h with
    ⟨hsame, rfl⟩ | ⟨start, finish, hother, harrival, hshift, hwrite⟩
  · refine ⟨t, ht, rfl, iff_of_false Bool.false_ne_true fun hne => hne rfl,
      fun hchanged => absurd hchanged Bool.false_ne_true, fun _ => hsame.symm, fun _ hlong => ?_⟩
    rw [hsame, Day.apart_of_le le_rfl] at hlong
    omega
  obtain ⟨hrow, hchanged⟩ := exists_of_write ht hwrite
  -- a move to another day never comes back to the start, so the row is new
  have hmoved : start ≠ t.start := harrival ▸ Calendar.arrival_ne hc hother
  have hnew : ({ t with start, finish } : Task) ≠ t := fun heq => hmoved (congrArg Task.start heq)
  rw [decide_eq_true hnew] at hchanged
  refine ⟨_, hrow, rfl, iff_of_true hchanged hmoved, fun _ => hshift, fun hexact => ?_,
    fun hweek hlong => ?_⟩
  · show start = target
    rw [harrival]
    cases hgrain : t.grain with
    | day =>
      rw [hgrain] at htarget
      have hnext := hwork.isNextWorkday hc
      rw [htarget] at hnext
      exact Calendar.arrival_of_day hc hnext.working
    | week =>
      rw [hgrain] at htarget
      rcases hexact with hday | hshort | hwhole
      · rw [hgrain] at hday
        cases hday
      · exact Calendar.arrival_of_lt_week hshort
      · exact Calendar.arrival_of_wholeWeeks htarget hwhole
  · -- whole weeks are gone, and what is left of the way is lost
    obtain ⟨stop, hweeks, hrest, hforward, hbackward⟩ :=
      Calendar.exists_stop p.calendar hlong
    rw [hweek] at harrival
    refine ⟨stop, hweeks, hrest, fun hlt => ?_, fun hlt => ?_⟩
    · obtain ⟨-, hle, hstop⟩ := hforward hlt
      exact ⟨hle, harrival.trans hstop⟩
    · obtain ⟨hle, -, hstop⟩ := hbackward hlt
      exact ⟨hle, harrival.trans hstop⟩

/-- A quarry of two weeks from a Monday on. -/
def quarryPlan : Project :=
  (empty .standard).after [.addTask "quarry" (Day.first.advance 18) (.weeks 2)]

/-- Sent back to the Friday ten days earlier, the quarry goes back by one week. -/
theorem lands_of_startAt_quarryPlan : quarryPlan.Reachable ∧
    quarryPlan.calendar.GapsBelowHorizon ∧ quarryPlan.hasChildren ⟨1⟩ = false ∧
    quarryPlan.calendar.ReachesWork (Day.first.advance 8) ∧
    ∃ t done new, quarryPlan.task? ⟨1⟩ = some t ∧ t.start = Day.first.advance 18 ∧
      quarryPlan.startAt ⟨1⟩ (Day.first.advance 8) = .ok done ∧
      done.project.task? ⟨1⟩ = some new ∧ done.changed = true ∧
      new.duration = .weeks 2 ∧ new.start ≠ t.start ∧
      quarryPlan.calendar.shift new.start (.weeks 2) = .ok new.finish ∧
      7 ∣ t.start.apart new.start ∧ new.start.apart (Day.first.advance 8) = 3 := by
  have hp : quarryPlan.Reachable := (Reachable.empty _).after _
  have hcalendar : quarryPlan.calendar = .standard := by decide +kernel
  have hc : quarryPlan.calendar.GapsBelowHorizon := hcalendar ▸ Calendar.gapsBelowHorizon_standard
  have hwork : quarryPlan.calendar.ReachesWork (Day.first.advance 8) :=
    Calendar.reachesWork_of_working (by decide +kernel)
  have hleaf : quarryPlan.hasChildren ⟨1⟩ = false := by decide +kernel
  have hrow : (quarryPlan.task? ⟨1⟩).map (fun t => (t.start, t.duration)) =
      some (Day.first.advance 18, .weeks 2) := by decide +kernel
  obtain ⟨t, ht, hpair⟩ := Option.map_eq_some_iff.mp hrow
  obtain ⟨hstart, hduration⟩ := Prod.mk.inj hpair
  have hmove : (quarryPlan.startAt ⟨1⟩ (Day.first.advance 8)).map Changed.changed = .ok true := by
    decide +kernel
  obtain ⟨done, hdone, hchanged⟩ := exists_of_map_eq_ok hmove
  have hgrain : t.grain = .week := congrArg Duration.grain hduration
  have htarget : quarryPlan.calendar.onOrAfter t.grain (Day.first.advance 8) =
      Day.first.advance 8 := by
    rw [hgrain]
    decide +kernel
  obtain ⟨new, hnew, hkept, hiff, hshift, -, hweek⟩ :=
    lands_of_startAt hp hc ht hleaf hwork htarget hdone
  rw [hstart] at hweek
  obtain ⟨stop, hweeks, hrest, -, hbackward⟩ := hweek hgrain (by decide +kernel)
  obtain ⟨-, hstop⟩ := hbackward (by decide +kernel)
  rw [hduration] at hkept hshift
  rw [← hstop] at hweeks hrest
  refine ⟨hp, hc, hleaf, hwork, t, done, new, ht, hstart, hdone, hnew, hchanged, hkept,
    hiff.mp hchanged, hshift hchanged, hstart ▸ hweeks, hrest.trans ?_⟩
  decide +kernel

/-- Sent to the Wednesday of the week after next, the quarry starts on the Monday before it,
although that Wednesday is a working day. -/
theorem startAt_quarryPlan : quarryPlan.Reachable ∧ quarryPlan.calendar.GapsBelowHorizon ∧
    quarryPlan.hasChildren ⟨1⟩ = false ∧
    quarryPlan.calendar.isWorking (Day.first.advance 27) ∧
    ∃ t done new, quarryPlan.task? ⟨1⟩ = some t ∧
      quarryPlan.startAt ⟨1⟩ (Day.first.advance 27) = .ok done ∧
      done.project.task? ⟨1⟩ = some new ∧ new.start = Day.first.advance 25 ∧
      new.start ≠ quarryPlan.calendar.onOrAfter t.grain (Day.first.advance 27) := by
  have hcalendar : quarryPlan.calendar = .standard := by decide +kernel
  have hrow : (quarryPlan.task? ⟨1⟩).map Task.grain = some .week := by decide +kernel
  have hmove : (quarryPlan.startAt ⟨1⟩ (Day.first.advance 27)).map
      (fun r => (r.project.task? ⟨1⟩).map Task.start) = .ok (some (Day.first.advance 25)) := by
    decide +kernel
  obtain ⟨t, ht, hgrain⟩ := Option.map_eq_some_iff.mp hrow
  obtain ⟨done, hdone, hlanded⟩ := exists_of_map_eq_ok hmove
  obtain ⟨new, hnew, hstart⟩ := Option.map_eq_some_iff.mp hlanded
  refine ⟨(Reachable.empty _).after _, hcalendar ▸ Calendar.gapsBelowHorizon_standard,
    by decide +kernel, by decide +kernel, t, done, new, ht, hdone, hnew, hstart, ?_⟩
  rw [hstart, hgrain]
  decide +kernel

end Project

end Workplan
