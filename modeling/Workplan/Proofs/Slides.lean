import Workplan.Proofs.Landings

/-!
# Slides

A task slides by working time and keeps its duration.  Of the lengths to slide by only the counts
matter: their sum is taken in the grain of the task.  A slide forward that ends on a day off goes on
to a working day.  A slide back does not go on, and all the same every slide over working days is
undone by the slide over as many days the other way.

- `Project.lands_of_slide`: where a task is after a slide.
- `Project.slide_quayPlan`: a slide of a week that ends after a day.
- `Calendar.behind_destination`, `Calendar.destination_behind`: from where a slide ends back to
  where it began.
- `Project.slide_undone`: a slide and the slide back restore a task.
-/

namespace Workplan

/-! ## Where slides end -/

namespace Calendar

variable {c : Calendar} {g : Grain} {s : Day} {n : Int} {k : Nat}

/-- A slide back, or onto a working day, ends where its count leads. -/
theorem destination_eq_walk (h : n ≤ 0 ∨ c.isWorking (c.walk g s n)) :
    c.destination g s n = c.walk g s n := by
  rw [destination]
  split
  · next hpos => exact onOrAfter_of_working (h.resolve_left (not_le.mpr hpos))
  · rfl

/-- A slide forward onto a day off goes on. -/
theorem destination_of_pos (h : 0 < n) :
    c.destination g s n = c.onOrAfter g (c.walk g s n) := if_pos h

/-- A slide forward by working days, from one of them, ends behind as many and some days off. -/
theorem destination_natCast (hs : c.isWorking s) (k : Nat) :
    c.destination .day s k = c.onOrAfter .day (c.ahead k s) := by
  cases k with
  | zero => exact (onOrAfter_of_working hs).symm
  | succ k => exact destination_of_pos (by omega)

theorem destination_neg_natCast (k : Nat) : c.destination .day s (-(k : Int)) = c.behind k s := by
  rw [destination_eq_walk (.inl (by omega))]
  exact shiftDays_neg_natCast s k

/-- **A walk back undoes a slide forward**, although the slide went on over days off. -/
theorem behind_destination (hc : c.GapsBelowHorizon) (hs : c.isWorking s)
    (hinside : k ≤ c.workdaysBetween s Day.last) :
    c.behind k (c.destination .day s k) = s := by
  rw [destination_natCast hs]
  have hpassed : c.workdaysBetween s (c.ahead k s) = k := workdaysBetween_ahead hc hinside
  have hahead : s ≤ c.ahead k s := le_ahead k s
  generalize c.ahead k s = stop at *
  have hon : stop ≤ c.onOrAfter .day stop := le_snap_forward .day stop
  have hcount : c.workdaysBetween s (c.onOrAfter .day stop) = k := by
    rw [workdaysBetween_add hahead hon, hpassed,
      workdaysBetween_eq_zero (idle_onOrAfter hc stop), Nat.add_zero]
  calc c.behind k (c.onOrAfter .day stop)
      = c.behind (c.workdaysBetween s (c.onOrAfter .day stop)) (c.onOrAfter .day stop) := by
        rw [hcount]
    _ = s := behind_workdaysBetween hc (hahead.trans hon) hs

/-- **A slide forward undoes a walk back**: it may stop on days off, but then it goes on to where
the walk began. -/
theorem destination_behind (hc : c.GapsBelowHorizon) (hs : c.isWorking s)
    (hinside : k ≤ c.workdaysBetween Day.first s) :
    c.destination .day (c.behind k s) k = s := by
  cases k with
  | zero => rfl
  | succ k =>
    have hpassed : c.workdaysBetween (c.behind (k + 1) s) s = k + 1 :=
      workdaysBetween_behind hc hinside
    have hbehind : c.behind (k + 1) s ≤ s := behind_le (k + 1) s
    generalize c.behind (k + 1) s = stop at *
    obtain ⟨hle, hidle⟩ := ahead_workdaysBetween hc hbehind
    rw [hpassed] at hle hidle
    rw [destination_of_pos (by omega)]
    exact onOrAfter_eq hc ⟨hle, hs, hidle⟩

/-- **From a working day, a slide over working days and the slide back end where they began.** -/
theorem destination_neg (hc : c.GapsBelowHorizon) (hs : c.isWorking s)
    (hinside : c.WalkStaysInside s n) :
    c.destination .day (c.destination .day s n) (-n) = s := by
  cases n with
  | ofNat k =>
    show c.destination .day (c.destination .day s k) (-(k : Int)) = s
    rw [destination_neg_natCast, behind_destination hc hs hinside]
  | negSucc k =>
    show c.destination .day (c.destination .day s (-((k + 1 : Nat) : Int)))
      ((k + 1 : Nat) : Int) = s
    rw [destination_neg_natCast, destination_behind hc hs hinside]

end Calendar

/-! ## Tasks that slide -/

namespace Project

variable {p : Project} {id : TaskId} {t : Task} {done : Changed} {lengths : List Duration}

/-- **A task that slides keeps its duration and moves by the sum of the counts, in its own grain**,
so by the length itself if that is a single one in the grain of the task.  It starts there if the
sum is not positive or the day is a working day.  Otherwise it starts on the nearest start of a
unit behind that day that is a working day, or on the day itself if there is none within the
horizon. -/
theorem lands_of_slide {total : Int} (ht : p.task? id = some t)
    (htotal : (lengths.map Duration.count).sum = total) (h : p.slide id lengths = .ok done) :
    ∃ landing new, p.calendar.shift t.start ⟨total, t.grain⟩ = .ok landing ∧
      (∀ length, lengths = [length] → length.grain = t.grain →
        p.calendar.shift t.start length = .ok landing) ∧
      done.project.task? id = some new ∧ new.duration = t.duration ∧
      t.finishFrom p.calendar new.start = .ok new.finish ∧ done.changed = decide (new ≠ t) ∧
      (total ≤ 0 ∨ p.calendar.isWorking landing → new.start = landing) ∧
      (0 < total → ¬ p.calendar.isWorking landing →
        p.calendar.IsNearest t.grain .forward .working landing new.start ∧
            landing.Within (Calendar.horizon * t.grain.span) new.start ∨
          new.start = landing ∧ ∀ r, t.grain.IsStart r → landing < r →
            landing.Within (Calendar.horizon * t.grain.span) r → ¬ p.calendar.isWorking r) := by
  obtain ⟨hlanding, finish, hfinish, hwrite⟩ := exists_of_slide ht htotal h
  obtain ⟨hrow, hchanged⟩ := exists_of_write ht hwrite
  refine ⟨_, _, hlanding, fun length hone hgrain => ?_, hrow, rfl, hfinish, hchanged,
    fun hstop => Calendar.destination_eq_walk hstop, fun hpos hoff => ?_⟩
  · have hcount : length.count = total := by
      rw [← htotal, hone]
      exact List.sum_singleton.symm
    rw [← hlanding, ← hcount, ← hgrain]
  · rw [Calendar.destination_of_pos hpos]
    exact Calendar.onOrAfter_cases t.grain hoff

/-- A survey of two weeks that begins on a Saturday, and a quay of three days from a Monday on. -/
def quayPlan : Project :=
  (empty .standard).after [
    .addTask "survey" (Day.first.advance 9) (.weeks 2),
    .addTask "quay" (Day.first.advance 11) (.days 3)]

/-- Put off by three weeks and brought forward by two, the survey starts on the Monday after the
Saturday one week later. -/
theorem lands_of_slide_quayPlan : ∃ t done new, quayPlan.task? ⟨1⟩ = some t ∧
    ([.weeks 3, .weeks (-2)].map Duration.count).sum = 1 ∧
    quayPlan.slide ⟨1⟩ [.weeks 3, .weeks (-2)] = .ok done ∧ done.changed = true ∧
    quayPlan.calendar.shift t.start ⟨1, t.grain⟩ = .ok (Day.first.advance 16) ∧
    ¬ quayPlan.calendar.isWorking (Day.first.advance 16) ∧
    done.project.task? ⟨1⟩ = some new ∧ new.duration = t.duration ∧
    quayPlan.calendar.IsNearest t.grain .forward .working (Day.first.advance 16) new.start := by
  have hrow : (quayPlan.task? ⟨1⟩).map (fun t => (t.start, t.duration)) =
      some (Day.first.advance 9, .weeks 2) := by decide +kernel
  have hslide : (quayPlan.slide ⟨1⟩ [.weeks 3, .weeks (-2)]).map Changed.changed = .ok true := by
    decide +kernel
  have htotal : ([.weeks 3, .weeks (-2)].map Duration.count).sum = 1 := by decide
  obtain ⟨t, ht, hpair⟩ := Option.map_eq_some_iff.mp hrow
  obtain ⟨hstart, hduration⟩ := Prod.mk.inj hpair
  have hgrain : t.grain = .week := congrArg Duration.grain hduration
  obtain ⟨done, hdone, hchanged⟩ := exists_of_map_eq_ok hslide
  obtain ⟨landing, new, hlanding, -, hnew, hkept, -, -, -, hon⟩ := lands_of_slide ht htotal hdone
  have hsaturday : quayPlan.calendar.shift t.start ⟨1, t.grain⟩ = .ok (Day.first.advance 16) := by
    rw [hstart, hgrain]
    decide +kernel
  cases hlanding.symm.trans hsaturday
  have hoff : ¬ quayPlan.calendar.isWorking (Day.first.advance 16) := by decide +kernel
  refine ⟨t, done, new, ht, htotal, hdone, hchanged, hsaturday, hoff, hnew, hkept,
    ((hon (by decide) hoff).resolve_right fun hnone => ?_).1⟩
  rw [hgrain] at hnone
  refine hnone.2 (Day.first.advance 18) ?_ ?_ ?_ ?_ <;> decide +kernel

/-- Put off by a week, the quay starts one day later, although the Monday a week later is a working
day. -/
theorem slide_quayPlan : quayPlan.Reachable ∧ ∃ t done new, quayPlan.task? ⟨2⟩ = some t ∧
    quayPlan.slide ⟨2⟩ [.weeks 1] = .ok done ∧ done.project.task? ⟨2⟩ = some new ∧
    quayPlan.calendar.shift t.start (.weeks 1) = .ok (Day.first.advance 18) ∧
    quayPlan.calendar.isWorking (Day.first.advance 18) ∧
    new.start = Day.first.advance 12 := by
  have hrow : (quayPlan.task? ⟨2⟩).map Task.start = some (Day.first.advance 11) := by decide +kernel
  have hslide : (quayPlan.slide ⟨2⟩ [.weeks 1]).map
      (fun r => (r.project.task? ⟨2⟩).map Task.start) = .ok (some (Day.first.advance 12)) := by
    decide +kernel
  obtain ⟨t, ht, hstart⟩ := Option.map_eq_some_iff.mp hrow
  obtain ⟨done, hdone, hlanded⟩ := exists_of_map_eq_ok hslide
  obtain ⟨new, hnew, hmoved⟩ := Option.map_eq_some_iff.mp hlanded
  refine ⟨(Reachable.empty _).after _, t, done, new, ht, hdone, hnew, ?_, by decide +kernel, hmoved⟩
  rw [hstart]
  decide +kernel

/-! ## Sliding back -/

variable {n : Int}

/-- A task counted in days that reaches forward slides, as far as the line goes. -/
theorem slide_days (ht : p.task? id = some t) (hday : t.grain = .day)
    (hpoint : t.milestone → t.duration.count = 0) (hcount : 0 ≤ t.duration.count)
    (hn : n.natAbs < Day.count) : ∃ done, p.slide id [.days n] = .ok done ∧
      done.project = p.replace (t.movedTo p.calendar (p.calendar.destination .day t.start n)) := by
  have hordered := Calendar.le_shiftDays (c := p.calendar) hcount
    (p.calendar.destination .day t.start n)
  obtain ⟨event?, hwrite⟩ := write_of_le t.duration ht (not_lt.mpr hordered)
  exact ⟨_, (slide_eq_write ht hday hpoint hn rfl).trans hwrite, rfl⟩

/-- **A slide over working days is undone by the slide back.**  A task counted in days that reaches
forward from a working day has its start and its duration again, and the end that follows from them.
If that was its end before, the whole project is as it was. -/
theorem slide_undone (hp : p.Reachable) (hc : p.calendar.GapsBelowHorizon)
    (ht : p.task? id = some t) (hday : t.grain = .day) (hcount : 0 ≤ t.duration.count)
    (hwork : p.calendar.isWorking t.start) (hinside : p.calendar.WalkStaysInside t.start n) :
    ∃ moved back finish, p.slide id [.days n] = .ok moved ∧
      moved.project.slide id [.days (-n)] = .ok back ∧
      p.calendar.shift t.start t.duration = .ok finish ∧
      back.project.task? id = some { t with finish } ∧
      back.project = p.replace { t with finish } ∧
      (t.finish = finish → back.project = p) := by
  have hpoint := (hp.sound.regular_of_task? ht).point
  have hn : n.natAbs < Day.count := hinside.natAbs_lt_count
  obtain ⟨moved, hslide, hmoved⟩ := slide_days ht hday hpoint hcount hn
  have hcalendar : moved.project.calendar = p.calendar := by
    rw [hmoved]
    rfl
  have hrow : moved.project.task? id =
      some (t.movedTo p.calendar (p.calendar.destination .day t.start n)) := by
    rw [hmoved]
    exact task?_replace_self ht rfl
  obtain ⟨back, hreturn, hback⟩ := slide_days (n := -n) hrow hday hpoint hcount (by omega)
  have hrestored : back.project = p.replace (t.movedTo p.calendar t.start) := by
    rw [hback, hcalendar, Task.start_movedTo, Calendar.destination_neg hc hwork hinside, hmoved]
    exact replace_replace rfl
  refine ⟨moved, back, _, hslide, hreturn, shift_day _ hday _, ?_, hrestored, fun hsame => ?_⟩
  · rw [hrestored]
    exact task?_replace_self ht rfl
  · rw [hrestored, Task.movedTo, ← hsame]
    exact replace_self hp.sound.ids_nodup (hp.sound.task?_of_mem (mem_of_task? ht))

/-- Put off by five days, the quay starts after the weekend.  Brought forward by as many, it is
where it was, and so is the whole project. -/
theorem slide_undone_quayPlan : quayPlan.Reachable ∧ quayPlan.calendar.GapsBelowHorizon ∧
    ∃ t moved back, quayPlan.task? ⟨2⟩ = some t ∧ t.grain = .day ∧ 0 ≤ t.duration.count ∧
      quayPlan.calendar.isWorking t.start ∧ quayPlan.calendar.WalkStaysInside t.start 5 ∧
      quayPlan.slide ⟨2⟩ [.days 5] = .ok moved ∧
      (moved.project.task? ⟨2⟩).map Task.start = some (Day.first.advance 18) ∧
      moved.project.slide ⟨2⟩ [.days (-5)] = .ok back ∧ back.project = quayPlan := by
  have hp : quayPlan.Reachable := (Reachable.empty _).after _
  have hcalendar : quayPlan.calendar = .standard := by decide +kernel
  have hc : quayPlan.calendar.GapsBelowHorizon := hcalendar ▸ Calendar.gapsBelowHorizon_standard
  have hrow : (quayPlan.task? ⟨2⟩).map (fun t => (t.start, t.finish, t.duration)) =
      some (Day.first.advance 11, Day.first.advance 14, .days 3) := by decide +kernel
  have hslide : (quayPlan.slide ⟨2⟩ [.days 5]).map
      (fun r => (r.project.task? ⟨2⟩).map Task.start) = .ok (some (Day.first.advance 18)) := by
    decide +kernel
  have hweek : ∀ k < 5, quayPlan.calendar.isWorking ((Day.first.advance 11).advance k) ∧
      (Day.first.advance 11).advance k < Day.last := by decide +kernel
  have hend : quayPlan.calendar.shift (Day.first.advance 11) (.days 3) =
      .ok (Day.first.advance 14) := by decide +kernel
  obtain ⟨t, ht, hpair⟩ := Option.map_eq_some_iff.mp hrow
  obtain ⟨hstart, hpair⟩ := Prod.mk.inj hpair
  obtain ⟨hfinish, hduration⟩ := Prod.mk.inj hpair
  have hday : t.grain = .day := congrArg Duration.grain hduration
  have hcount : 0 ≤ t.duration.count := by
    rw [hduration]
    decide
  have hwork : quayPlan.calendar.isWorking t.start := by
    rw [hstart]
    exact (hweek 0 (by decide)).1
  have hinside : quayPlan.calendar.WalkStaysInside t.start 5 := by
    rw [hstart]
    exact Calendar.walkStaysInside_of_successive hweek
  obtain ⟨moved, back, finish, hmoved, hback, hspan, -, -, hsame⟩ :=
    slide_undone hp hc ht hday hcount hwork hinside
  rw [hstart, hduration, hend] at hspan
  cases hspan
  obtain ⟨_, hdone, hlanded⟩ := exists_of_map_eq_ok hslide
  cases hmoved.symm.trans hdone
  exact ⟨hp, hc, t, moved, back, ht, hday, hcount, hwork, hinside, hmoved, hlanded, hback,
    hsame hfinish⟩

end Project

end Workplan
