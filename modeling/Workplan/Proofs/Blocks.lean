import Workplan.Proofs.Dating

/-!
# Days off before an end

The end of a container that falls on a working day right after units that start on days off is
pulled back to the first of these, unless the container starts there or later.

- `Calendar.IsBreakBefore`: the units that start on days off before a working day.
- `Calendar.pulledBack?_eq_some_iff_isBreakBefore`: an end is pulled back to where they begin.
- `Calendar.end_pulledBack`: where ends are put, and what is dropped of them.
- `Project.end_pulledBack_terracePlan`: in weeks, working days may be dropped.
- `Calendar.IsBlockBefore`: the days off right before a working day.
- `Calendar.pulledBack?_eq_some_iff`: counted in days, an end is pulled back to the first of them.
-/

namespace Workplan

variable {c : Calendar} {g : Grain} {b d w finish start : Day}

/-! ## Units -/

namespace Calendar

/-- The units from `b` up to the working day `d` start on days off, and the unit before them, which
lies within the horizon of `d`, on a working day. -/
structure IsBreakBefore (c : Calendar) (g : Grain) (b d : Day) : Prop where
  working : c.isWorking d
  isStart : g.IsStart b
  lt : b < d
  idle : ∀ x, g.IsStart x → b ≤ x → x < d → ¬ c.isWorking x
  after : ∃ w, g.IsStart w ∧ c.isWorking w ∧ w < b ∧ (∀ x, g.IsStart x → w < x → b ≤ x) ∧
    d.Within (horizon * g.span) w

/-- **An end right after units that start on days off is pulled back to the first of them**, if that
comes after the start. -/
theorem pulledBack?_eq_some_iff_isBreakBefore :
    c.pulledBack? g finish start = some b ↔ c.IsBreakBefore g b finish ∧ start < b := by
  rw [Project.pulledBack?_eq_some_iff]
  constructor
  · rintro ⟨hwork, workday, hlast, dayOff, hoff, ⟨hlt, hstart⟩, rfl⟩
    have hkind : ¬ c.isOfKind .nonWorking finish := by simp [isOfKind, hwork]
    obtain ⟨hdayOff, -, -⟩ := (closest_eq_some_iff (.inr hkind)).mp hoff
    have hmoves := Grain.step_ne hdayOff.isStart hdayOff.before
    obtain ⟨hworkday, -, hwithin⟩ := (closest_eq_some_iff (.inl hmoves)).mp hlast
    have hgoesOn : g.step .forward workday ≠ workday := Grain.step_ne hdayOff.isStart hlt
    obtain ⟨hb, hafter, hnext⟩ := Grain.step_spec hgoesOn
    refine ⟨⟨hwork, hb, ?_, fun x hx hbx hxf => ?_, workday, hworkday.isStart,
      hworkday.isOfKind, hafter, fun x hx hlt => not_lt.mp (hnext x hx hlt), hwithin⟩, hstart⟩
    · exact lt_of_le_of_lt (not_lt.mp (hnext dayOff hdayOff.isStart hlt)) hdayOff.before
    · exact hworkday.nearest x hx hxf (lt_of_lt_of_le (b := g.nextStart workday) hafter hbx)
  · rintro ⟨⟨hwork, hb, hlt, hidle, w, hw, hworking, hwb, hnext, hwithin⟩, hstart⟩
    have hwf : w < finish := hwb.trans hlt
    have hmoves : g.step .backward finish ≠ finish := Grain.step_ne hw hwf
    -- of the starts from `b` up to the end, the search for a day off finds the last one
    have hoff : c.isOfKind .nonWorking b := by simpa [isOfKind] using hidle b hb le_rfl hlt
    obtain ⟨s, hs, hsb⟩ : ∃ s, c.IsNearest g .backward .nonWorking finish s ∧ ¬ s < b :=
      exists_isNearest hb hlt hoff
    have hws : w < s := lt_of_lt_of_le hwb (not_lt.mp hsb)
    have hlast : c.closest finish g .backward .working none = some w := by
      refine (closest_eq_some_iff (.inl hmoves)).mpr
        ⟨⟨hw, hwf, hworking, fun x hx hxf hwx => hidle x hx (hnext x hx hwx) hxf⟩,
          by simp, hwithin⟩
    have hfound : c.closest finish g .backward .nonWorking (some w) = some s := by
      refine (closest_eq_some_iff (.inl hmoves)).mpr ⟨hs, fun limit hlimit => ?_,
        hwithin.of_not_before hs.before (not_lt.mpr hws.le)⟩
      cases hlimit
      exact hws
    have hstep : g.nextStart w = b := by
      have hgoesOn : g.step .forward w ≠ w := Grain.step_ne hb hwb
      obtain ⟨hn, hwn, hleast⟩ := Grain.step_spec hgoesOn
      exact le_antisymm (not_lt.mp (hleast b hb hwb)) (hnext _ hn hwn)
    exact ⟨hwork, w, hlast, s, hfound, ⟨hws, hstep ▸ hstart⟩, hstep⟩

/-- An end stays, or it is pulled back. -/
theorem pulledBack?_cases {r : Day} (h : (c.pulledBack? g finish start).getD finish = r) :
    r = finish ∧ (∀ b, c.IsBreakBefore g b finish → ¬ start < b) ∨
      c.IsBreakBefore g r finish ∧ start < r := by
  cases hpull : c.pulledBack? g finish start with
  | none =>
    rw [hpull] at h
    refine .inl ⟨h.symm, fun b hb hlt => ?_⟩
    rw [pulledBack?_eq_some_iff_isBreakBefore.mpr ⟨hb, hlt⟩] at hpull
    cases hpull
  | some b =>
    rw [hpull] at h
    cases h
    exact .inr (pulledBack?_eq_some_iff_isBreakBefore.mp hpull)

/-- A day off is not pulled back. -/
theorem pulledBack?_of_not_working (h : ¬ c.isWorking finish) :
    c.pulledBack? g finish start = none :=
  Option.eq_none_iff_forall_ne_some.mpr fun _ hb =>
    h (pulledBack?_eq_some_iff_isBreakBefore.mp hb).1.working

/-- **What becomes of an end.**  It stays, unless units that start on days off come right before it,
the first of them after the start; then it is pulled back to where they begin.  That is behind the
start, and there it stays.  The working days that are dropped lie in units that start on days off,
so there are none if units are days. -/
theorem end_pulledBack (c : Calendar) (g : Grain) (finish start : Day) :
    let r := (c.pulledBack? g finish start).getD finish
    (r = finish ∧ (∀ b, c.IsBreakBefore g b finish → ¬ start < b) ∨
        c.IsBreakBefore g r finish ∧ start < r) ∧
      r ≤ finish ∧ (r ≠ finish → start < r) ∧
      (c.pulledBack? g r start).getD r = r ∧
      (∀ x, r ≤ x → x < finish → c.isWorking x →
        ∃ m, g.IsStart m ∧ r ≤ m ∧ m < x ∧ x.ordinal < m.ordinal + g.span ∧ ¬ c.isWorking m) ∧
      (g = .day → c.IdleBetween r finish) := by
  intro r
  have hr : (c.pulledBack? g finish start).getD finish = r := rfl
  clear_value r
  rcases pulledBack?_cases hr with ⟨rfl, hnone⟩ | ⟨hbreak, hlt⟩
  · have hempty : c.IdleBetween r r := fun x hrx hxr => absurd hxr (not_lt.mpr hrx)
    exact ⟨.inl ⟨rfl, hnone⟩, le_rfl, fun hne => absurd rfl hne, hr,
      fun x hrx hxr => absurd hxr (not_lt.mpr hrx), fun _ => hempty⟩
  have hoff : ¬ c.isWorking r := hbreak.idle r hbreak.isStart le_rfl hbreak.lt
  have hdropped : ∀ x, r ≤ x → x < finish → c.isWorking x →
      ∃ m, g.IsStart m ∧ r ≤ m ∧ m < x ∧ x.ordinal < m.ordinal + g.span ∧ ¬ c.isWorking m := by
    intro x hrx hxf hwork
    obtain ⟨m, hm, hrm, hmx, hunit⟩ := Grain.exists_isStart hbreak.isStart hrx
    have hm' := hbreak.idle m hm hrm (hmx.trans_lt hxf)
    exact ⟨m, hm, hrm, lt_of_le_of_ne hmx fun heq => hm' (heq ▸ hwork), hunit, hm'⟩
  refine ⟨.inr ⟨hbreak, hlt⟩, hbreak.lt.le, fun _ => hlt, ?_, hdropped, ?_⟩
  · rw [pulledBack?_of_not_working hoff]
    rfl
  · rintro rfl x hrx hxf hwork
    obtain ⟨m, -, -, hmx, hunit, -⟩ := hdropped x hrx hxf hwork
    rw [Day.lt_def] at hmx
    rw [Grain.span] at hunit
    omega

end Calendar

namespace Project

/-- A terrace counted in weeks, with walls of six days, and a holiday on the second Monday. -/
def terracePlan : Project :=
  (empty (.withHolidays .standard [Day.first.advance 11])).after [
    .addTask "terrace" (Day.first.advance 4) (.weeks 2),
    .addTask "walls" (Day.first.advance 4) (.days 6),
    .place ⟨2⟩ ⟨1⟩]

/-- The terrace ends on the holiday, although work on its walls is done on the day after. -/
theorem end_pulledBack_terracePlan : terracePlan.Reachable ∧
    terracePlan.calendar.GapsBelowHorizon ∧
    terracePlan.schedule.1.map RunReport.errors = .ok [] ∧
    (terracePlan.schedule.2.task? ⟨2⟩).map Task.finish = some (Day.first.advance 13) ∧
    (terracePlan.schedule.2.task? ⟨1⟩).map (fun t => (t.grain, t.start, t.finish)) =
      some (.week, Day.first.advance 4, Day.first.advance 11) ∧
    terracePlan.calendar.pulledBack? .week (Day.first.advance 13) (Day.first.advance 4) =
      some (Day.first.advance 11) ∧
    Day.first.advance 11 ≤ Day.first.advance 12 ∧ Day.first.advance 12 < Day.first.advance 13 ∧
    terracePlan.calendar.isWorking (Day.first.advance 12) := by
  have hcalendar : terracePlan.calendar = .withHolidays .standard [Day.first.advance 11] := by
    decide +kernel
  refine ⟨(Reachable.empty _).after _, hcalendar ▸ Calendar.gapsBelowHorizon_holiday _, ?_, ?_, ?_,
    ?_, ?_, ?_, ?_⟩ <;> decide +kernel

end Project

/-! ## Days -/

namespace Calendar

/-- The days from `b` up to the working day `d` are off, and work is done on the day before. -/
structure IsBlockBefore (c : Calendar) (b d : Day) : Prop where
  working : c.isWorking d
  lt : b < d
  idle : c.IdleBetween b d
  first_lt : Day.first < b
  prev_working : c.isWorking b.prev

theorem isBreakBefore_day_iff (hc : c.GapsBelowHorizon) :
    c.IsBreakBefore .day b d ↔ c.IsBlockBefore b d := by
  constructor
  · rintro ⟨hwork, -, hlt, hidle, w, -, hworking, hwb, hnext, -⟩
    have hfirst : Day.first < b := (Day.first_le w).trans_lt hwb
    have hprev : b.prev = w := by
      refine le_antisymm (not_lt.mp fun hwp => ?_) ((Day.le_prev_iff hfirst w).mpr hwb)
      exact absurd (hnext b.prev trivial hwp) (not_le.mpr (Day.prev_lt hfirst))
    exact ⟨hwork, hlt, fun x => hidle x trivial, hfirst, hprev ▸ hworking⟩
  · rintro ⟨hwork, hlt, hidle, hfirst, hprev⟩
    have hgap := hc.idle_lt hidle
    have hpb := Day.prev_lt hfirst
    refine ⟨hwork, trivial, hlt, fun x _ => hidle x, b.prev, trivial, hprev, hpb,
      fun x _ hx => ?_, ?_⟩
    · exact not_lt.mp fun hxb => absurd hx (not_lt.mpr ((Day.le_prev_iff hfirst x).mpr hxb))
    · rw [Day.lt_def] at hlt hpb
      rw [Day.Within, Grain.span, Day.ordinal_prev]
      omega

/-- **An end on the first working day after days off is pulled back to the first of these**, if
that comes after the start. -/
theorem pulledBack?_eq_some_iff (hc : c.GapsBelowHorizon) :
    c.pulledBack? .day finish start = some b ↔ c.IsBlockBefore b finish ∧ start < b := by
  rw [pulledBack?_eq_some_iff_isBreakBefore, isBreakBefore_day_iff hc]

end Calendar

end Workplan
