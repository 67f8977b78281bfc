import Workplan.Proofs.Ordered

/-!
# Durations are working times

The working time between two days undoes a walk, for days and for weeks, forward and backward, as
long as the walk does not leave the line of days.  An end is given by a walk or measured, so the
duration of a task is the working time between its dates, unless its end is where a walk was cut
off.

- `Calendar.workdaysBetween_ahead`, `Calendar.workdaysBetween_behind`: so many days are counted as
  were walked.
- `Calendar.StaysInside`: a walk over a duration does not leave the line.
- `Calendar.workingLength_of_shift`: such a walk is undone by measuring it.
- `Task.Measured`, `Project.Reachable.measured`: where the duration of a task comes from.
- `Project.duration_eq_workingLength_iff`: when it is the working time, and why setting the dates
  that a task has changes nothing.
-/

namespace Workplan

namespace Calendar

variable {c : Calendar} {a b d w : Day} {n : Nat}

/-! ## Counting what was walked -/

/-- Working days are counted up to a day, and from there on. -/
theorem workdaysBetween_add (hab : a ≤ b) (hbd : b ≤ d) :
    c.workdaysBetween a d = c.workdaysBetween a b + c.workdaysBetween b d := by
  refine Day.upward (P := fun a => c.workdaysBetween a d =
    c.workdaysBetween a b + c.workdaysBetween b d) ?_ (fun a ha ih => ?_) hab
  · rw [workdaysBetween_of_le (le_refl b), Nat.zero_add]
  · rw [workdaysBetween_next (ha.trans_le hbd), workdaysBetween_next ha, ih, Nat.add_assoc]

/-- From a later day on there are not more working days. -/
theorem workdaysBetween_anti (h : a ≤ b) (d : Day) :
    c.workdaysBetween b d ≤ c.workdaysBetween a d := by
  rcases le_total b d with hbd | hdb
  · rw [workdaysBetween_add h hbd]
    exact Nat.le_add_left _ _
  · rw [workdaysBetween_of_le hdb]
    exact Nat.zero_le _

/-- Up to a later day there are not fewer working days. -/
theorem workdaysBetween_mono (h : b ≤ d) (a : Day) :
    c.workdaysBetween a b ≤ c.workdaysBetween a d := by
  rcases le_total a b with hab | hba
  · rw [workdaysBetween_add hab h]
    exact Nat.le_add_right _ _
  · rw [workdaysBetween_of_le hba]
    exact Nat.zero_le _

/-- The next workday is the first that is counted. -/
theorem IsNextWorkday.workdaysBetween_eq (h : c.IsNextWorkday a w) (hwb : w < b) :
    c.workdaysBetween a b = 1 + c.workdaysBetween w.next b := by
  rw [workdaysBetween_add h.le hwb.le, workdaysBetween_eq_zero h.idle, Nat.zero_add,
    workdaysBetween_next hwb, if_pos h.working]

/-- The last workday before is the last that is counted. -/
theorem IsLastWorkday.workdaysBetween_eq (h : c.IsLastWorkday b w) (haw : a ≤ w) :
    c.workdaysBetween a b = c.workdaysBetween a w + 1 := by
  have hidle : c.IdleBetween w.next b :=
    fun x hx hxb => h.idle x ((Day.next_le_iff h.lt x).mp hx) hxb
  rw [workdaysBetween_add haw h.lt.le, workdaysBetween_next h.lt, if_pos h.working,
    workdaysBetween_eq_zero hidle]

/-- Where working days are counted, there is one. -/
theorem exists_working_of_workdaysBetween (h : c.workdaysBetween a b ≠ 0) :
    ∃ v, a ≤ v ∧ v < b ∧ c.isWorking v := by
  by_contra hnone
  exact h (workdaysBetween_eq_zero fun x hx hxb hwork => hnone ⟨x, hx, hxb, hwork⟩)

/-- **A walk forward passes as many working days as it is long**, if there are so many. -/
theorem workdaysBetween_ahead (hc : c.GapsBelowHorizon) (h : n ≤ c.workdaysBetween d Day.last) :
    c.workdaysBetween d (c.ahead n d) = n := by
  induction n generalizing d with
  | zero => exact workdaysBetween_of_le le_rfl
  | succ n ih =>
    obtain ⟨v, hdv, hlast, hv⟩ := exists_working_of_workdaysBetween (Nat.ne_zero_of_lt h)
    obtain ⟨w, hw⟩ := ReachesWork.exists_next ⟨v, hdv, hv⟩
    have hwlast : w < Day.last := by
      refine lt_of_le_of_lt ?_ hlast
      exact not_lt.mp fun hvw => hw.idle v hdv hvw hv
    have hpast : w < c.ahead n w.next := (Day.lt_next hwlast).trans_le (le_ahead n w.next)
    rw [hw.workdaysBetween_eq hwlast] at h
    rw [ahead_succ hc hw, hw.workdaysBetween_eq hpast, ih (by omega)]
    omega

theorem behind_le (n : Nat) (d : Day) : c.behind n d ≤ d := by
  cases n with
  | zero => exact le_rfl
  | succ n => exact (behind_succ_le n d).trans (Day.prev_le d)

/-- **A walk backward passes as many working days as it is long**, if there are so many. -/
theorem workdaysBetween_behind (hc : c.GapsBelowHorizon) (h : n ≤ c.workdaysBetween Day.first d) :
    c.workdaysBetween (c.behind n d) d = n := by
  induction n generalizing d with
  | zero => exact workdaysBetween_of_le le_rfl
  | succ n ih =>
    obtain ⟨v, -, hvd, hv⟩ := exists_working_of_workdaysBetween (Nat.ne_zero_of_lt h)
    obtain ⟨w, hw⟩ := exists_isLastWorkday hvd hv
    rw [hw.workdaysBetween_eq (Day.first_le w)] at h
    rw [behind_succ hc hw, hw.workdaysBetween_eq (behind_le n w), ih (by omega)]

/-! ## Walks over a duration -/

/-- A walk over a duration does not leave the line of days. -/
def StaysInside (c : Calendar) (d : Day) (length : Duration) : Prop :=
  match length.grain with
  | .day => c.WalkStaysInside d length.count
  | .week => 0 ≤ d.ordinal + 7 * length.count ∧ d.ordinal + 7 * length.count < Day.count

/-- A walk inside the range of dates has fewer steps than the range has days. -/
theorem StaysInside.natAbs_lt_count {length : Duration} (h : c.StaysInside d length) :
    length.count.natAbs < Day.count := by
  have hd := d.ordinal_lt
  obtain ⟨count, grain⟩ := length
  cases grain with
  | day => exact WalkStaysInside.natAbs_lt_count h
  | week =>
    replace h : 0 ≤ d.ordinal + 7 * count ∧ d.ordinal + 7 * count < Day.count := h
    dsimp only
    omega

/-- A walk over a duration that does not leave the line is possible. -/
theorem shift_of_staysInside {length : Duration} (h : c.StaysInside d length) :
    c.shift d length = .ok (c.walk length.grain d length.count) := by
  have hlt := h.natAbs_lt_count
  obtain ⟨count, grain⟩ := length
  cases grain with
  | day => rfl
  | week =>
    rw [Day.count] at hlt
    have hdays : count.natAbs * 7 < UInt64.size := by
      rw [UInt64.size]
      dsimp only at hlt
      omega
    exact if_pos hdays

/-- Inside the range of dates whole weeks are seven days each. -/
theorem ordinal_shiftWeeks {n : Int} (hlow : 0 ≤ a.ordinal + 7 * n)
    (hhigh : a.ordinal + 7 * n < Day.count) :
    ((shiftWeeks a n).ordinal : Int) = a.ordinal + 7 * n := by
  rw [shiftWeeks]
  split
  · have hlt : a.ordinal + n.natAbs * 7 < Day.count := by omega
    rw [Day.plus?, Day.ofOrdinal?, dif_pos hlt]
    dsimp only [Option.getD_some]
    omega
  · have hle : n.natAbs * 7 ≤ a.ordinal := by omega
    rw [Day.minus?, if_pos hle]
    dsimp only [Option.getD_some]
    omega

/-- Inside the range of dates whole weeks are counted back in full. -/
theorem workingLength_shiftWeeks {n : Int} (hlow : 0 ≤ a.ordinal + 7 * n)
    (hhigh : a.ordinal + 7 * n < Day.count) :
    c.workingLength .week a (shiftWeeks a n) = ⟨n, .week⟩ := by
  have hland := ordinal_shiftWeeks hlow hhigh
  generalize shiftWeeks a n = b at hland
  rw [workingLength]
  split
  · next hab =>
    rw [Day.le_def] at hab
    rw [unitsBetween, Day.distance, Duration.mk.injEq]
    exact ⟨by omega, rfl⟩
  · next hba =>
    rw [Day.le_def] at hba
    rw [unitsBetween, Day.distance, Duration.mk.injEq]
    exact ⟨by omega, rfl⟩

/-- **Measuring undoes a walk that stays inside.** -/
theorem workingLength_of_shift (hc : c.GapsBelowHorizon) {length : Duration}
    (hinside : c.StaysInside a length) (hwalk : c.shift a length = .ok b) :
    c.workingLength length.grain a b = length := by
  obtain ⟨count, grain⟩ := length
  cases grain with
  | day =>
    replace hinside : c.WalkStaysInside a count := hinside
    replace hwalk : c.shiftDays a count = b := Except.ok.inj hwalk
    subst hwalk
    cases count with
    | ofNat n =>
      have hcount : c.workdaysBetween a (c.ahead n a) = n := workdaysBetween_ahead hc hinside
      show c.workingLength .day a (c.ahead n a) = _
      rw [workingLength_of_le (le_ahead n a), hcount]
      rfl
    | negSucc n =>
      have hcount := workdaysBetween_behind hc (n := n + 1) hinside
      have hback : c.behind (n + 1) a < a :=
        shiftDays_lt (Int.negSucc_lt_zero n) (hinside.ne_first (Int.negSucc_lt_zero n))
      show c.workingLength .day a (c.behind (n + 1) a) = _
      rw [workingLength_of_lt hback, hcount]
      rfl
  | week =>
    rw [shift] at hwalk
    split_ifs at hwalk
    cases hwalk
    exact workingLength_shiftWeeks hinside.1 hinside.2

/-- A walk over the working time between two days stays inside. -/
theorem staysInside_workingLength (grain : Grain) (a b : Day) :
    c.StaysInside a (c.workingLength grain a b) := by
  have ha := a.ordinal_lt
  have hb := b.ordinal_lt
  rcases le_or_gt a b with hab | hba
  · rw [workingLength, if_pos hab]
    rw [Day.le_def] at hab
    cases grain with
    | day =>
      show c.workdaysBetween a b ≤ c.workdaysBetween a Day.last
      exact workdaysBetween_mono (Day.le_last b) a
    | week =>
      simp only [StaysInside, unitsBetween, Day.distance]
      omega
  · rw [workingLength, if_neg (not_le.mpr hba)]
    cases grain with
    | day =>
      show c.WalkStaysInside a (-(c.workdaysBetween b a : Int))
      cases hcount : c.workdaysBetween b a with
      | zero => exact Nat.zero_le _
      | succ n =>
        show n + 1 ≤ c.workdaysBetween Day.first a
        rw [workdaysBetween_add (Day.first_le b) hba.le, hcount]
        exact Nat.le_add_left _ _
    | week =>
      rw [Day.lt_def] at hba
      simp only [StaysInside, unitsBetween, Day.distance]
      omega

end Calendar

/-! ## Durations of tasks -/

variable {p : Project} {c : Calendar} {t old new : Task}

/-- The end lies where the duration leads from the start, or the duration was measured. -/
def Task.Measured (c : Calendar) (t : Task) : Prop :=
  c.shift t.start t.duration = .ok t.finish ∨
    t.duration = c.workingLength t.grain t.start t.finish

theorem Calendar.shift_zero (grain : Grain) (d : Day) : c.shift d ⟨0, grain⟩ = .ok d := by
  cases grain with
  | day => rfl
  | week =>
    have hland : shiftWeeks d 0 = d := by
      rw [shiftWeeks, Day.eq_iff]
      simp [Day.plus?, Day.ofOrdinal?, d.ordinal_lt]
    show Except.ok (shiftWeeks d 0) = _
    rw [hland]

/-- The end of a task without length lies where its duration leads. -/
theorem Task.measured_of_point (hfinish : t.finish = t.start) (hcount : t.duration.count = 0) :
    t.Measured c := by
  have hduration : t.duration = ⟨0, t.grain⟩ := by
    rw [← hcount]
    rfl
  left
  rw [hfinish, hduration]
  exact Calendar.shift_zero _ _

theorem Calendar.grain_workingLength (grain : Grain) (a b : Day) :
    (c.workingLength grain a b).grain = grain := by
  rw [workingLength]
  split <;> rfl

/-- A task with length is given an end by a walk, or a duration by measuring. -/
theorem Task.Spans.walked_or_measured {start finish : Day} {duration : Duration}
    (h : old.Spans c start finish duration) (hextended : old.milestone = false) :
    c.shift start duration = .ok finish ∨
      duration = c.workingLength duration.grain start finish := by
  cases h with
  | point hpoint => exact absurd hpoint (Bool.eq_false_iff.mp hextended)
  | moved hpoint => exact absurd hpoint (Bool.eq_false_iff.mp hextended)
  | walked _ hwalk => exact .inl hwalk
  | measured => exact .inr (by rw [Calendar.grain_workingLength])

/-- A renewed row keeps the length that its dates measure. -/
theorem Task.Renewed.measured (h : old.Renewed c new) (hold : old.IsPoint) : new.Measured c := by
  cases hpoint : new.milestone with
  | true =>
    obtain ⟨hfinish, hcount⟩ := h.isPoint hold hpoint
    exact Task.measured_of_point hfinish hcount
  | false =>
    rw [h.milestone] at hpoint
    exact h.spans.walked_or_measured hpoint

namespace Project

/-- **The duration of a task was measured, or its end is where the duration leads.** -/
theorem Reachable.measured (hp : p.Reachable) : ∀ t ∈ p.tasks, t.Measured p.calendar := by
  induction hp with
  | empty c => exact fun _ ht => absurd ht List.not_mem_nil
  | edit hp h ih =>
    obtain ⟨hcalendar, horigin⟩ := origin_of_edit h
    intro t ht
    rw [hcalendar]
    cases horigin t ht with
    | kept ht => exact ih t ht
    | added hwalk => exact .inl hwalk
    | addedPoint => exact Task.measured_of_point rfl rfl
    | renewed ht hnew => exact hnew.measured (hp.isPoint _ ht)

/-- A task whose duration is the working time is left alone by setting the dates that it has. -/
theorem eq_of_revise_dates (hp : p.Reachable) (ht : t ∈ p.tasks)
    (h : t.duration = p.calendar.workingLength t.grain t.start t.finish) :
    (Host.alone.commit (.revise t.id { start? := some t.start, finish? := some t.finish }) p).2 =
      p := by
  have hfound := hp.sound.task?_of_mem ht
  have hspan : revisedFinish t t.start (some t.finish) = t.finish ∧
      revisedDuration p.calendar t t.start t.finish = t.duration := by
    rw [revisedFinish, revisedDuration, Option.getD_some]
    cases hpoint : t.milestone with
    | true =>
      obtain ⟨hfinish, hcount⟩ := hp.isPoint t ht hpoint
      exact ⟨hfinish.symm, by rw [← hcount]; rfl⟩
    | false => exact ⟨rfl, h.symm⟩
  rw [commit_revise hfound, Option.getD_some, hspan.1, hspan.2, redate]
  split
  · rfl
  · exact replace_self hp.sound.ids_nodup hfound

/-- **The duration of a task is the working time between its dates exactly if the walk over it
stays inside the line of days**, for tasks of every kind, in days and in weeks, and with lengths
of either sign.  A walk that would leave the line is cut off at its last day, and then the task
ends where that happened.  Where the duration is the working time, setting the start and the end
that a task has changes nothing. -/
theorem duration_eq_workingLength_iff (hp : p.Reachable) (hc : p.calendar.GapsBelowHorizon)
    (ht : t ∈ p.tasks) :
    (t.duration = p.calendar.workingLength t.grain t.start t.finish ↔
        p.calendar.StaysInside t.start t.duration) ∧
      (¬ p.calendar.StaysInside t.start t.duration →
        p.calendar.shift t.start t.duration = .ok t.finish) ∧
      (p.calendar.StaysInside t.start t.duration →
        (Host.alone.commit
          (.revise t.id { start? := some t.start, finish? := some t.finish }) p).2 = p) := by
  have hinside : t.duration = p.calendar.workingLength t.grain t.start t.finish →
      p.calendar.StaysInside t.start t.duration := by
    intro h
    rw [h]
    exact Calendar.staysInside_workingLength _ _ _
  have hmeasured : p.calendar.StaysInside t.start t.duration →
      t.duration = p.calendar.workingLength t.grain t.start t.finish := by
    intro h
    rcases hp.measured t ht with hwalk | hlength
    · exact (Calendar.workingLength_of_shift hc h hwalk).symm
    · exact hlength
  refine ⟨⟨hinside, hmeasured⟩, fun hout => ?_, fun h => eq_of_revise_dates hp ht (hmeasured h)⟩
  exact (hp.measured t ht).resolve_right fun hlength => hout (hinside hlength)

/-- A survey of two weeks, walls that reach three days back, and a handover. -/
def spreadPlan : Project :=
  (empty .standard).after [
    .addTask "survey" (Day.first.advance 4) (.weeks 2),
    .addTask "walls" (Day.first.advance 12) (.days (-3)),
    .addMilestone "handover" (Day.first.advance 20)]

/-- Weeks, a negative length and a milestone are the working times between their dates. -/
theorem duration_eq_workingLength_spreadPlan :
    spreadPlan.tasks.map Task.duration = [.weeks 2, .days (-3), .days 0] ∧
      ∀ t ∈ spreadPlan.tasks,
        t.duration = spreadPlan.calendar.workingLength t.grain t.start t.finish ∧
          spreadPlan.calendar.StaysInside t.start t.duration ∧
          (Host.alone.commit (.revise t.id { start? := some t.start, finish? := some t.finish })
            spreadPlan).2 = spreadPlan := by
  have hcalendar : spreadPlan.calendar = .standard := by decide +kernel
  have hc : spreadPlan.calendar.GapsBelowHorizon := hcalendar ▸ Calendar.gapsBelowHorizon_standard
  have hlengths : ∀ t ∈ spreadPlan.tasks,
      t.duration = spreadPlan.calendar.workingLength t.grain t.start t.finish := by decide +kernel
  refine ⟨by decide +kernel, fun t ht => ?_⟩
  obtain ⟨hiff, -, hsame⟩ := duration_eq_workingLength_iff ((Reachable.empty _).after _) hc ht
  have hinside := hiff.mp (hlengths t ht)
  exact ⟨hlengths t ht, hinside, hsame hinside⟩

end Project

end Workplan
