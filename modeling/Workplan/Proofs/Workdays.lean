import Workplan.Calendar.Shift
import Workplan.Proofs.UnitStarts

/-!
# Finding and counting working days

A calendar whose runs of days off are shorter than its horizon finds the next working day
wherever there is one left on the line.

- `Calendar.GapsBelowHorizon`, `Calendar.ReachesWork`: the calendar has working days often
  enough, and has one left from a day on.
- `Calendar.onOrAfter_eq`, `Calendar.onOrAfter_mono`: the next working day is found, and a
  later day has a later one.
- `Calendar.workdaysBetween_next`, `Calendar.workdaysBetween_prev`: counting from either end.
-/

namespace Workplan.Calendar

variable {c : Calendar}

/-! ## Working days and days off -/

/-- Every stretch of `horizon` successive days holds a working day. -/
def GapsBelowHorizon (c : Calendar) : Prop :=
  ∀ d : Day, d.ordinal + horizon ≤ Day.count →
    ∃ w : Day, d ≤ w ∧ w.ordinal < d.ordinal + horizon ∧ c.isWorking w

/-- The line of days does not end before there is a working day at `d` or later. -/
def ReachesWork (c : Calendar) (d : Day) : Prop := ∃ w, d ≤ w ∧ c.isWorking w

/-- No working day from `a` on and before `b`. -/
def IdleBetween (c : Calendar) (a b : Day) : Prop := ∀ x, a ≤ x → x < b → ¬ c.isWorking x

theorem idleBetween_of_le {a b : Day} (h : b ≤ a) : c.IdleBetween a b :=
  fun _ hax hxb => absurd (h.trans hax) (not_le.mpr hxb)

/-- The earliest working day from `d` on is `w`. -/
structure IsNextWorkday (c : Calendar) (d w : Day) : Prop where
  le : d ≤ w
  working : c.isWorking w
  idle : c.IdleBetween d w

/-- The latest working day before `d` is `w`. -/
structure IsLastWorkday (c : Calendar) (d w : Day) : Prop where
  lt : w < d
  working : c.isWorking w
  idle : ∀ x, w < x → x < d → ¬ c.isWorking x

/-- Work to come from a day on is to come from every earlier day on. -/
theorem ReachesWork.of_le {a b : Day} (h : a ≤ b) (hb : c.ReachesWork b) : c.ReachesWork a := by
  obtain ⟨w, hw, hwork⟩ := hb
  exact ⟨w, h.trans hw, hwork⟩

theorem reachesWork_of_working {d : Day} (h : c.isWorking d) : c.ReachesWork d :=
  ⟨d, le_rfl, h⟩

/-- Where work is to come there is a next workday. -/
theorem ReachesWork.exists_next {d : Day} (h : c.ReachesWork d) : ∃ w, c.IsNextWorkday d w := by
  obtain ⟨w, hdw, hw⟩ := h
  obtain ⟨m, hdm, hm, hmin⟩ := Day.exists_least (P := fun x => c.isWorking x) hdw hw
  exact ⟨m, hdm, hm, hmin⟩

theorem exists_isLastWorkday {d w : Day} (hwd : w < d) (hw : c.isWorking w) :
    ∃ m, c.IsLastWorkday d m := by
  obtain ⟨m, hmd, hm, hmax⟩ := Day.exists_greatest (P := fun x => c.isWorking x) hwd hw
  exact ⟨m, hmd, hm, hmax⟩

theorem isNextWorkday_self {d : Day} (h : c.isWorking d) : c.IsNextWorkday d d :=
  ⟨le_rfl, h, idleBetween_of_le le_rfl⟩

theorem IsNextWorkday.eq {d w w' : Day} (h : c.IsNextWorkday d w) (h' : c.IsNextWorkday d w') :
    w = w' := by
  refine le_antisymm ?_ ?_
  · exact not_lt.mp fun hlt => h.idle w' h'.le hlt h'.working
  · exact not_lt.mp fun hlt => h'.idle w h.le hlt h.working

/-- After a day off, the next working day is that of the following day. -/
theorem IsNextWorkday.next {d w : Day} (h : c.IsNextWorkday d w) (hd : ¬ c.isWorking d) :
    d < w ∧ c.IsNextWorkday d.next w := by
  have hlt : d < w := lt_of_le_of_ne h.le fun e => hd (e ▸ h.working)
  refine ⟨hlt, (Day.next_le_iff hlt w).mpr hlt, h.working, fun x hx hxw => ?_⟩
  exact h.idle x ((Day.le_next d).trans hx) hxw

/-- Before a day off, the last working day is that of the preceding day. -/
theorem IsLastWorkday.prev {d w : Day} (h : c.IsLastWorkday d w) (hd : ¬ c.isWorking d.prev) :
    c.IsLastWorkday d.prev w := by
  refine ⟨?_, h.working, fun x hx hxd => h.idle x hx (hxd.trans_le (Day.prev_le d))⟩
  exact lt_of_le_of_ne ((Day.le_prev_iff h.lt w).mpr h.lt) fun e => hd (e ▸ h.working)

/-- An idle stretch is shorter than the horizon. -/
theorem GapsBelowHorizon.idle_lt (hc : c.GapsBelowHorizon) {a b : Day} (h : c.IdleBetween a b) :
    b.ordinal < a.ordinal + horizon := by
  by_contra hle
  have hb := b.ordinal_lt
  obtain ⟨w, haw, hw, hwork⟩ := hc a (by omega)
  exact h w haw (by rw [Day.lt_def]; omega) hwork

/-! ## The next working day -/

/-- The search for a working day finds the next one. -/
theorem onOrAfter_eq (hc : c.GapsBelowHorizon) {d w : Day} (h : c.IsNextWorkday d w) :
    c.onOrAfter .day d = w := by
  by_cases hd : c.isWorking d
  · rw [onOrAfter_of_working hd]
    exact (isNextWorkday_self hd).eq h
  obtain ⟨hlt, -⟩ := h.next hd
  have hgap := hc.idle_lt h.idle
  have hkind : ¬ c.isOfKind .working d := hd
  have hfound : c.closest d .day .forward .working none = some w := by
    refine (closest_eq_some_iff (.inr hkind)).mpr
      ⟨⟨trivial, hlt, h.working, fun x _ hx => h.idle x (le_of_lt hx)⟩,
        by simp, ?_⟩
    rw [Day.lt_def] at hlt
    rw [Day.Within, Grain.span]
    omega
  rw [onOrAfter, snap, if_neg hd, hfound]
  rfl

/-- Where no working day is left, the search stays where it began. -/
theorem onOrAfter_of_not_reachesWork {d : Day} (h : ¬ c.ReachesWork d) :
    c.onOrAfter .day d = d := by
  have hd : ¬ c.isWorking d := fun hw => h (reachesWork_of_working hw)
  rcases onOrAfter_cases .day hd with ⟨hnear, -⟩ | ⟨hstay, -⟩
  · exact absurd ⟨_, le_of_lt hnear.before, hnear.isOfKind⟩ h
  · exact hstay

/-- Unless no working day is left, the day found is the next working day. -/
theorem ReachesWork.isNextWorkday (hc : c.GapsBelowHorizon) {d : Day} (h : c.ReachesWork d) :
    c.IsNextWorkday d (c.onOrAfter .day d) := by
  obtain ⟨w, hw⟩ := h.exists_next
  rw [onOrAfter_eq hc hw]
  exact hw

/-- The days on the way to the day found are off. -/
theorem idle_onOrAfter (hc : c.GapsBelowHorizon) (d : Day) :
    c.IdleBetween d (c.onOrAfter .day d) := by
  by_cases h : c.ReachesWork d
  · exact (h.isNextWorkday hc).idle
  · exact fun x hx _ hwork => h ⟨x, hx, hwork⟩

theorem le_onOrAfter (hc : c.GapsBelowHorizon) (d : Day) : d ≤ c.onOrAfter .day d := by
  by_cases h : c.ReachesWork d
  · exact (h.isNextWorkday hc).le
  · rw [onOrAfter_of_not_reachesWork h]

/-- Going to the first workday loses no work to come. -/
theorem reachesWork_onOrAfter (hc : c.GapsBelowHorizon) {d : Day} :
    c.ReachesWork (c.onOrAfter .day d) ↔ c.ReachesWork d := by
  refine ⟨fun h => h.of_le (le_onOrAfter hc d), fun h => ?_⟩
  exact reachesWork_of_working (h.isNextWorkday hc).working

/-- Later days have later next working days. -/
theorem onOrAfter_mono (hc : c.GapsBelowHorizon) {a b : Day} (hab : a ≤ b) :
    c.onOrAfter .day a ≤ c.onOrAfter .day b := by
  by_cases hb : c.ReachesWork b
  · have ha := (hb.of_le hab).isNextWorkday hc
    have hb := hb.isNextWorkday hc
    exact not_lt.mp fun hlt => ha.idle _ (hab.trans hb.le) hlt hb.working
  · by_cases ha : c.ReachesWork a
    · rw [onOrAfter_of_not_reachesWork hb]
      have ha := ha.isNextWorkday hc
      exact not_lt.mp fun hlt => hb ⟨_, hlt.le, ha.working⟩
    · rw [onOrAfter_of_not_reachesWork hb, onOrAfter_of_not_reachesWork ha]
      exact hab

/-! ## Counting working days -/

/-- Counting workdays from a number on adds the workdays counted from zero. -/
theorem countFrom_eq_add (n : Nat) (d : Day) (k : Nat) :
    c.countFrom n d k = k + c.countFrom n d 0 := by
  induction n generalizing d k with
  | zero => rfl
  | succ n ih =>
    simp only [countFrom]
    rw [ih d.next (if c.isWorking d then k + 1 else k),
      ih d.next (if c.isWorking d then 0 + 1 else 0)]
    split <;> omega

theorem workdaysBetween_of_le {a b : Day} (h : b ≤ a) : c.workdaysBetween a b = 0 := by
  rw [Day.le_def] at h
  rw [workdaysBetween, Day.distance, Nat.sub_eq_zero_of_le h]
  rfl

/-- The working days from `a` on are `a` itself, if it is one, and those from the day after. -/
theorem workdaysBetween_next {a b : Day} (h : a < b) :
    c.workdaysBetween a b = (if c.isWorking a then 1 else 0) + c.workdaysBetween a.next b := by
  have hn := Day.ordinal_next_of_lt h
  rw [Day.lt_def] at h
  obtain ⟨n, hn'⟩ : ∃ n, b.ordinal - a.ordinal = n + 1 := ⟨b.ordinal - a.ordinal - 1, by omega⟩
  have hd : a.next.distance b = n := by
    rw [Day.distance, hn]
    omega
  rw [workdaysBetween, workdaysBetween, hd, Day.distance, hn', countFrom, countFrom_eq_add]

/-- The working days before `b` are those before the day before, and that day, if it is one. -/
theorem workdaysBetween_prev {a b : Day} (h : a < b) :
    c.workdaysBetween a b = c.workdaysBetween a b.prev + (if c.isWorking b.prev then 1 else 0) := by
  refine Day.upward (P := fun a => a < b → c.workdaysBetween a b =
    c.workdaysBetween a b.prev + (if c.isWorking b.prev then 1 else 0))
    (a := a) (b := b.prev) (fun hlt => ?_) (fun a ha ih hab => ?_)
    ((Day.le_prev_iff h a).mpr h) h
  · rw [workdaysBetween_next hlt, Day.next_prev hlt, workdaysBetween_of_le le_rfl,
      workdaysBetween_of_le le_rfl, Nat.add_comm]
  · have hnext : a.next < b := lt_of_le_of_lt ((Day.next_le_iff ha b.prev).mpr ha) (Day.prev_lt hab)
    rw [workdaysBetween_next hab, ih hnext, workdaysBetween_next ha, Nat.add_assoc]

/-- A working day is counted if any later day ends the count. -/
theorem workdaysBetween_pos {a b : Day} (h : a < b) (ha : c.isWorking a) :
    0 < c.workdaysBetween a b := by
  rw [workdaysBetween_next h, if_pos ha]
  omega

/-- Without working days in between, none are counted. -/
theorem workdaysBetween_eq_zero {a b : Day} (h : c.IdleBetween a b) :
    c.workdaysBetween a b = 0 := by
  by_cases hab : a ≤ b
  · refine Day.upward (P := fun a => c.IdleBetween a b → c.workdaysBetween a b = 0)
      (fun _ => workdaysBetween_of_le le_rfl) (fun a ha ih hidle => ?_) hab h
    rw [workdaysBetween_next ha, if_neg (hidle a le_rfl ha),
      ih fun x hx hxb => hidle x ((Day.le_next a).trans hx) hxb]
  · exact workdaysBetween_of_le (le_of_not_ge hab)

/-! ## The standard calendar -/

/-- Work is done from Monday to Friday. -/
theorem isWorking_standard {d : Day} (h : (d.ordinal + 3) % 7 ≤ 4) : standard.isWorking d := by
  have hweekday : d.weekday ∉ standard.weekend := by
    have hcases : (d.ordinal + 3) % 7 = 0 ∨ (d.ordinal + 3) % 7 = 1 ∨ (d.ordinal + 3) % 7 = 2 ∨
        (d.ordinal + 3) % 7 = 3 ∨ (d.ordinal + 3) % 7 = 4 := by omega
    rw [Day.weekday, Weekday.ofSinceMonday]
    rcases hcases with h | h | h | h | h <;> rw [h] <;> decide
  simp only [isWorking, mask, DayMask.isWorking, List.contains_eq_mem, hweekday]
  rfl

/-- Of three successive days, one is from Monday to Friday. -/
theorem exists_weekday (n : Nat) : ∃ k < 3, (n + k + 3) % 7 ≤ 4 := by
  by_cases h : (n + 3) % 7 ≤ 4
  · exact ⟨0, by omega, h⟩
  · exact ⟨7 - (n + 3) % 7, by omega, by omega⟩

/-- **The standard calendar has a working day in every three successive days.** -/
theorem gapsBelowHorizon_standard : standard.GapsBelowHorizon := by
  intro d hd
  rw [horizon] at hd ⊢
  obtain ⟨k, hk, hday⟩ := exists_weekday d.ordinal
  refine ⟨⟨d.ordinal + k, by omega⟩, ?_, ?_, isWorking_standard hday⟩
  · rw [Day.le_def]
    exact Nat.le_add_right _ _
  · dsimp only
    omega

/-- Holidays take their own days off and no others. -/
theorem isWorking_withHolidays {days : List Day} {d : Day} :
    (c.withHolidays days).isWorking d ↔ c.isWorking d ∧ d ∉ days := by
  simp [isWorking, mask, withHolidays, DayMask.isWorking, and_assoc]

/-- With a holiday, the standard calendar still has a working day in every ten successive days. -/
theorem gapsBelowHorizon_holiday (holiday : Day) :
    (standard.withHolidays [holiday]).GapsBelowHorizon := by
  intro d hd
  rw [horizon] at hd ⊢
  obtain ⟨k, hk, hday⟩ := exists_weekday d.ordinal
  -- the same weekday one week later is another day
  obtain ⟨n, hn, hworks, hother⟩ : ∃ n, n < 10 ∧ (d.ordinal + n + 3) % 7 ≤ 4 ∧
      d.ordinal + n ≠ holiday.ordinal := by
    by_cases heq : d.ordinal + k = holiday.ordinal
    · exact ⟨k + 7, by omega, by omega, by omega⟩
    · exact ⟨k, by omega, hday, heq⟩
  refine ⟨⟨d.ordinal + n, by omega⟩, ?_, ?_, isWorking_withHolidays.mpr
    ⟨isWorking_standard hworks, ?_⟩⟩
  · rw [Day.le_def]
    exact Nat.le_add_right _ _
  · dsimp only
    omega
  · rw [List.mem_singleton, Day.eq_iff]
    exact hother

/-- With gaps below the horizon work is to come from every day that far from the end of the
range. -/
theorem GapsBelowHorizon.reachesWork (hc : c.GapsBelowHorizon) {d : Day}
    (h : d.ordinal + horizon ≤ Day.count) : c.ReachesWork d := by
  obtain ⟨w, hw, -, hwork⟩ := hc d h
  exact ⟨w, hw, hwork⟩

end Workplan.Calendar
