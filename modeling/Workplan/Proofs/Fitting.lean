import Workplan.Proofs.Blocks
import Workplan.Proofs.Schedulable

/-!
# Containers fit their children

After a run on a project in which every task can be dated, a container reaches from the first
start to the last end among its children, but for days off at its end.

- `Project.startsOf`, `Project.finishesOf`: the dates of the children of a container.
- `Calendar.getD_pulledBack?`: where an end is put.
- `container_fit`: the run has no errors, and all containers fit.
-/

namespace Workplan

open Collision

variable {p q : Project} {x : TaskId} {t : Task} {c : Calendar}

/-- The starts of the tasks directly inside a task. -/
def Project.startsOf (p : Project) (x : TaskId) : Set Day :=
  {day | ∃ y ∈ p.children x, ∃ u, p.task? y = some u ∧ u.start = day}

/-- The ends of the tasks directly inside a task. -/
def Project.finishesOf (p : Project) (x : TaskId) : Set Day :=
  {day | ∃ y ∈ p.children x, ∃ u, p.task? y = some u ∧ u.finish = day}

namespace Project

/-- The earliest of the child days is the least start, since children finish after they start. -/
theorem isLeast_startsOf {first : Day}
    (hdates : ∀ y ∈ p.children x, ∀ u, p.task? y = some u → u.start ≤ u.finish)
    (h : earliest? (p.childDays x) = some first) : IsLeast (p.startsOf x) first := by
  obtain ⟨hmem, hmin⟩ := earliest?_eq_some_iff.mp h
  have hlower : ∀ y ∈ p.children x, ∀ u, p.task? y = some u → first ≤ u.start := fun y hy u hu =>
    hmin u.start (mem_childDays.mpr ⟨y, hy, u, hu, .inl rfl⟩)
  constructor
  · obtain ⟨y, hy, u, hu, hday⟩ := mem_childDays.mp hmem
    refine ⟨y, hy, u, hu, ?_⟩
    rcases hday with rfl | rfl
    · rfl
    · exact le_antisymm (hdates y hy u hu) (hlower y hy u hu)
  · rintro day ⟨y, hy, u, hu, rfl⟩
    exact hlower y hy u hu

theorem isGreatest_finishesOf {last : Day}
    (hdates : ∀ y ∈ p.children x, ∀ u, p.task? y = some u → u.start ≤ u.finish)
    (h : latest? (p.childDays x) = some last) : IsGreatest (p.finishesOf x) last := by
  obtain ⟨hmem, hmax⟩ := latest?_eq_some_iff.mp h
  have hupper : ∀ y ∈ p.children x, ∀ u, p.task? y = some u → u.finish ≤ last := fun y hy u hu =>
    hmax u.finish (mem_childDays.mpr ⟨y, hy, u, hu, .inr rfl⟩)
  constructor
  · obtain ⟨y, hy, u, hu, hday⟩ := mem_childDays.mp hmem
    refine ⟨y, hy, u, hu, ?_⟩
    rcases hday with rfl | rfl
    · exact le_antisymm (hupper y hy u hu) (hdates y hy u hu)
    · rfl
  · rintro day ⟨y, hy, u, hu, rfl⟩
    exact hupper y hy u hu

end Project

/-- An end stays, or goes back over the days off right before it. -/
theorem Calendar.getD_pulledBack? (hc : c.GapsBelowHorizon) (last start : Day) :
    let finish := (c.pulledBack? .day last start).getD last
    (∀ b, c.IsBlockBefore b last → start < b → finish = b) ∧
      ((¬ ∃ b, c.IsBlockBefore b last ∧ start < b) → finish = last) ∧
      c.IdleBetween finish last := by
  intro finish
  have hcases := pulledBack?_cases (rfl : _ = finish)
  rw [isBreakBefore_day_iff hc] at hcases
  refine ⟨fun b hb hlt => ?_, fun hnone => ?_, ?_⟩
  · show (c.pulledBack? .day last start).getD last = b
    rw [(pulledBack?_eq_some_iff hc).mpr ⟨hb, hlt⟩]
    rfl
  · exact hcases.elim And.left fun hblock => absurd ⟨finish, hblock⟩ hnone
  · rcases hcases with ⟨hstay, -⟩ | ⟨hblock, -⟩
    · rw [hstay]
      exact fun x hx hxl => absurd hxl (not_lt.mpr hx)
    · exact hblock.idle

/-- **Everything can be dated, and containers fit exactly.**  A container starts with its first
child.  Unless it is a milestone, it ends with its last child, except that it ends where the
days off before that end begin, if these come right before a working day and after the start
of the container. -/
theorem container_fit (hp : p.Reachable) (hc : p.calendar.GapsBelowHorizon)
    (hdays : ∀ t ∈ p.tasks, t.grain = .day) (hdates : ∀ t ∈ p.tasks, t.start ≤ t.finish)
    (hanchor : ∀ t ∈ p.tasks, p.hasChildren t.id → t.earliestBegin = none)
    (hchildless : ∀ d ∈ p.dependencies, d.kind.bindsFinish → p.hasChildren d.dependant = false)
    (hacyclic : p.network.Acyclic)
    (hroom : ∀ t ∈ p.tasks, p.hasChildren t.id = false → p.HasRoom t.id)
    (hwalks : ∀ t ∈ p.tasks, p.hasChildren t.id = false →
      p.calendar.WalkStaysInside t.start t.duration.count) :
    ∃ report, p.schedule.1 = .ok report ∧ report.errors = [] ∧
      ∀ x t, p.hasChildren x → p.schedule.2.task? x = some t →
        IsLeast (p.schedule.2.startsOf x) t.start ∧
        (t.milestone = false → ∃ last, IsGreatest (p.schedule.2.finishesOf x) last ∧
          (∀ b, p.calendar.IsBlockBefore b last → t.start < b → t.finish = b) ∧
          ((¬ ∃ b, p.calendar.IsBlockBefore b last ∧ t.start < b) → t.finish = last) ∧
          p.calendar.IdleBetween t.finish last) := by
  have hsound := hp.sound
  -- a negative length would put the end before the start, or walk off the line of days
  have hlengths : ∀ t ∈ p.tasks, p.hasChildren t.id = false →
      0 ≤ t.duration.count ∧ t.duration.count < Day.count := by
    intro t ht hleaf
    have hwalk := hwalks t ht hleaf
    refine ⟨not_lt.mp fun hneg => ?_, hwalk.lt_count⟩
    rcases (hsound.regular t ht).backward (hdays t ht) hneg with hlt | hfirst
    · exact absurd (hdates t ht) (not_le.mpr hlt)
    · exact hwalk.ne_first hneg hfirst
  have hs : p.Schedulable :=
    ⟨hc, hdays, hdates, hanchor, hchildless, hacyclic, hlengths, hroom⟩
  obtain ⟨report, hreport, herrors⟩ := hs.exists_report_without_errors hsound
  refine ⟨report, hreport, herrors, fun x t hparent ht => ?_⟩
  have hframe := frame_schedule hsound
  obtain ⟨old, hold, -⟩ := hframe.symm.exists_task? ht
  obtain ⟨t', last, ht', hfirst, hlast, hfinish⟩ := hs.fitted hsound hold hparent
  cases ht'.symm.trans ht
  have hroot := hsound.ne_root_of_task? hold
  -- with dates in order, the children alone give the first start and the last end
  have hordered : ∀ y ∈ p.schedule.2.children x, ∀ u, p.schedule.2.task? y = some u →
      u.start ≤ u.finish := by
    intro y hy u hu
    rw [hframe.children] at hy
    have hy' := (hsound.mem_of_parent? ((hsound.parent?_iff_mem_children hroot).mpr hy)).1
    exact ((hs.placed hsound hy').1 u hu).1
  refine ⟨Project.isLeast_startsOf hordered hfirst, fun hms => ?_⟩
  obtain ⟨hblock, hstay, hidle⟩ := Calendar.getD_pulledBack? hc last t.start
  rw [← hfinish hms] at hblock hstay hidle
  exact ⟨last, Project.isGreatest_finishesOf hordered hlast, hblock, hstay, hidle⟩

/-- A house of walls that end on a Friday, handed over on the Monday after. -/
def handoverPlan : Project :=
  (Project.empty .standard).after [
    .addTask "walls" (Day.first.advance 4) (.days 5),
    .addMilestone "handover" (Day.first.advance 11),
    .addTask "house" (Day.first.advance 6) (.days 3),
    .place ⟨1⟩ ⟨3⟩,
    .place ⟨2⟩ ⟨3⟩]

/-- The house ends with its walls, because only days off lie between them and the handover. -/
theorem container_fit_handoverPlan : ∃ house, handoverPlan.schedule.2.task? ⟨3⟩ = some house ∧
    IsLeast (handoverPlan.schedule.2.startsOf ⟨3⟩) house.start ∧ house.finish = ⟨9, by decide⟩ ∧
    ∃ last, IsGreatest (handoverPlan.schedule.2.finishesOf ⟨3⟩) last ∧
      handoverPlan.calendar.IdleBetween house.finish last := by
  have hcalendar : handoverPlan.calendar = .standard := by decide +kernel
  have hc : handoverPlan.calendar.GapsBelowHorizon := hcalendar ▸ Calendar.gapsBelowHorizon_standard
  have hp : handoverPlan.Reachable := (Project.Reachable.empty _).after _
  have hlayers : handoverPlan.network.layers = .ok [[⟨1⟩, ⟨2⟩], [⟨3⟩]] := by decide +kernel
  have hacyclic : handoverPlan.network.Acyclic :=
    (Network.isOrder_of_layers hlayers).acyclic (by decide +kernel)
  have hwalks : ∀ t ∈ handoverPlan.tasks, handoverPlan.hasChildren t.id = false →
      handoverPlan.calendar.WalkStaysInside t.start t.duration.count := by
    intro t ht hleaf
    obtain ⟨hpos, hwork⟩ : 0 ≤ t.duration.count ∧ ∀ k < t.duration.count.toNat,
        handoverPlan.calendar.isWorking (t.start.advance k) ∧ t.start.advance k < Day.last := by
      revert t
      decide +kernel
    rw [← Int.toNat_of_nonneg hpos]
    exact Calendar.walkStaysInside_of_successive hwork
  have hhouse : handoverPlan.schedule.2.task? ⟨3⟩ = some ⟨⟨3⟩, "house", ⟨4, by decide⟩,
      ⟨9, by decide⟩, .days 5, false, .absent⟩ := by
    decide +kernel
  obtain ⟨report, -, -, hfit⟩ := container_fit hp hc (by decide +kernel) (by decide +kernel)
    (by decide +kernel) (by decide +kernel) hacyclic
    (fun t _ _ => Project.hasRoom_of_early hc (by decide +kernel) t.id) hwalks
  obtain ⟨hleast, hend⟩ := hfit ⟨3⟩ _ (by decide +kernel) hhouse
  obtain ⟨last, hlast, -, -, hidle⟩ := hend rfl
  exact ⟨_, hhouse, hleast, rfl, last, hlast, hidle⟩

end Workplan
