import Mathlib.Order.Bounds.Defs
import Workplan.Proofs.Outcomes

/-!
# Where a task without children starts

On the final dates, the start of a task without children is determined by the dependencies
that bind it, by its anchor, and sometimes by its old start.

- `Fault.task?`: the task that a fault names.
- `LeafOutcome.start_eq`: a task goes to the next working day from the latest day that bounds it.
- `leaf_start`: the start of every task without children that no fault names.
-/

namespace Workplan

open Collision

variable {p : Project} {x : TaskId} {t t' : Task} {result : Except Fault Bool}
  {accept : Dependency → Day} {c : Calendar} {ds : List Dependency} {floors : List Day}

/-- The task that could not be dated. -/
def Fault.task? : Fault → Option TaskId
  | .unsatisfiable task _ => some task
  | .taskNotFound task => some task
  | .invalidDates task _ _ => some task
  | .invalidHierarchy task _ _ => some task
  | .cyclic _ => none
  | .invalidDependency _ _ _ => none
  | .duplicateTask _ => none
  | .capacityExceeded _ => none
  | .overflow => none

namespace LeafOutcome

/-- Without a fault, and with a working day left, the start is the next working day from the
latest of the days that bound the task. -/
theorem start_eq (hc : c.GapsBelowHorizon) (h : LeafOutcome c t floors t' result)
    (hfine : ∀ fault, result ≠ .error fault) (hroom : t' ≠ t → c.ReachesWork t'.start) :
    (floors = [] ∧ t' = t) ∨
      ∃ floor, latest? floors = some floor ∧ t'.start = c.onOrAfter .day floor := by
  cases h with
  | free h => exact .inl ⟨h, rfl⟩
  | still floor h hstay => exact .inr ⟨floor, h, hstay.symm⟩
  | refused floor start finish => exact absurd rfl (hfine _)
  | moved floor start finish h hmove hstart hfinish hle =>
    have hne : start ≠ t.start := hstart ▸ Calendar.landing_ne hc hmove
    have hreach : c.ReachesWork start := hroom fun heq => hne (congrArg Task.start heq)
    rw [hstart, Calendar.reachesWork_landing_onOrAfter hc] at hreach
    rw [Calendar.landing_eq hc (hreach.isNextWorkday hc).working] at hstart
    exact .inr ⟨floor, h, hstart⟩

/-- A task that is moved keeps its duration, and its end follows. -/
theorem finish_eq (h : LeafOutcome c t floors t' result) (hne : t'.start ≠ t.start) :
    t'.finish = c.shiftDays t'.start t.duration.count ∧ t'.duration = t.duration := by
  cases h with
  | free => exact absurd rfl hne
  | still => exact absurd rfl hne
  | refused => exact absurd rfl hne
  | moved floor start finish h hmove hstart hfinish hle => exact ⟨hfinish, rfl⟩

/-- Only the task itself is named by a fault. -/
theorem task?_of_error {fault : Fault} (h : LeafOutcome c t floors t' (.error fault)) :
    fault.task? = some t.id := by
  cases h
  rfl

end LeafOutcome

/-- **The start of a task without children, exactly.**  With the starts `accept` that the
dependencies binding it accept on the final dates: without any such dependency and without an
anchor the task stays as it is; otherwise it starts on the next working day from the latest of
these starts, each put on a working day, of the anchor, and of its old start, if there are
dependencies and all of them are loose and kept by that.  So no dependency is left violated,
and a task that is moved keeps its duration. -/
theorem leaf_start {report : RunReport} (hp : p.Reachable) (hc : p.calendar.GapsBelowHorizon)
    (hrun : p.schedule.1 = .ok report) (ht : p.task? x = some t) (hleaf : p.hasChildren x = false)
    (hday : t.grain = .day) (hroom : p.HasRoom x)
    (hfine : ∀ fault ∈ report.errors, fault.task? ≠ some x) :
    ∃ (t' : Task) (accept : Dependency → Day), p.schedule.2.task? x = some t' ∧
      (∀ d ∈ p.binding x, ∃ k, p.schedule.2.collision d x = .ok k ∧ k.acceptableStart = accept d) ∧
      (p.binding x = [] → t.earliestBegin = none → t' = t) ∧
      (p.binding x ≠ [] ∨ t.earliestBegin ≠ none → ∃ floor,
        IsGreatest {day | (∃ d ∈ p.binding x, day = p.calendar.onOrAfter .day (accept d)) ∨
          t.earliestBegin = some day ∨
          (day = t.start ∧ p.binding x ≠ [] ∧
            ∀ d ∈ p.binding x, d.hardness = .rubber ∧ accept d ≤ t.start)} floor ∧
        t'.start = p.calendar.onOrAfter .day floor) ∧
      (∀ d ∈ p.binding x, accept d ≤ t'.start) ∧
      (t'.start ≠ t.start →
        p.calendar.shift t'.start t'.duration = .ok t'.finish ∧ t'.duration = t.duration) := by
  have hsound := hp.sound
  obtain ⟨result, before, after, hdated, herrors⟩ := exists_datedAt hsound hrun ht
  obtain ⟨accept, t', haccept, ht', hout⟩ := hdated.leaf hsound hc ht hleaf hday
  -- a fault would name the task
  have hgood : ∀ fault, result ≠ .error fault := by
    rintro fault rfl
    refine hfine fault (herrors fault rfl) ?_
    rw [hout.task?_of_error, Project.id_of_task? ht]
  have hstart := hout.start_eq hc hgood fun hne =>
    hroom t' ht' fun heq => hne (Option.some.inj (heq.symm.trans ht))
  -- the set of the statement is the list of the model
  have hmem : ∀ {day}, day ∈ t.floors p.calendar (p.binding x) accept ↔
      (∃ d ∈ p.binding x, day = p.calendar.onOrAfter .day (accept d)) ∨ t.earliestBegin = some day ∨
        (day = t.start ∧ p.binding x ≠ [] ∧
          ∀ d ∈ p.binding x, d.hardness = .rubber ∧ accept d ≤ t.start) := by
    intro day
    rw [Task.mem_floors, hday]
  refine ⟨t', accept, ht', ?_, ?_, ?_, ?_, ?_⟩
  · intro d hd
    rw [← hdated.finalFrame.binding] at hd
    obtain ⟨k, hk, hkd⟩ := exists_of_map_eq_ok (haccept d hd)
    exact ⟨k, hk, hkd⟩
  · intro hnone hanchor
    rcases hstart with ⟨-, heq⟩ | ⟨floor, hfloor, -⟩
    · exact heq
    · have := hmem.mp (latest?_eq_some_iff.mp hfloor).1
      simp [hnone, hanchor] at this
  · intro hsome
    rcases hstart with ⟨hnil, -⟩ | ⟨floor, hfloor, heq⟩
    · exfalso
      rcases hsome with hne | hanchor
      · obtain ⟨d, hd⟩ := List.exists_mem_of_ne_nil _ hne
        have := hmem.mpr (.inl ⟨d, hd, rfl⟩)
        rw [hnil] at this
        exact List.not_mem_nil this
      · obtain ⟨day, hday'⟩ := Option.ne_none_iff_exists'.mp hanchor
        have := hmem.mpr (.inr (.inl hday'))
        rw [hnil] at this
        exact List.not_mem_nil this
    · refine ⟨floor, ?_, heq⟩
      rw [latest?_eq_some_iff] at hfloor
      exact ⟨hmem.mp hfloor.1, fun day hd => hfloor.2 day (hmem.mpr hd)⟩
  · intro d hd
    have hd' := hmem.mpr (.inl ⟨d, hd, rfl⟩)
    rcases hstart with ⟨hnil, -⟩ | ⟨floor, hfloor, heq⟩
    · rw [hnil] at hd'
      exact absurd hd' List.not_mem_nil
    · rw [heq]
      calc accept d ≤ p.calendar.onOrAfter .day (accept d) := Calendar.le_onOrAfter hc _
        _ ≤ floor := (latest?_eq_some_iff.mp hfloor).2 _ hd'
        _ ≤ p.calendar.onOrAfter .day floor := Calendar.le_onOrAfter hc _
  · intro hne
    obtain ⟨hfinish, hduration⟩ := hout.finish_eq hne
    refine ⟨?_, hduration⟩
    rw [hduration, Project.shift_day t.duration hday, hfinish]

/-- The walls of the house inherit that it waits for the survey. -/
theorem leaf_start_walls : ∃ t', Project.housePlan.schedule.2.task? ⟨2⟩ = some t' ∧
    t'.start = ⟨12, by decide⟩ ∧
    Project.housePlan.calendar.shift t'.start t'.duration = .ok t'.finish := by
  have hcalendar : Project.housePlan.calendar = .standard := by decide +kernel
  have hc : Project.housePlan.calendar.GapsBelowHorizon :=
    hcalendar ▸ Calendar.gapsBelowHorizon_standard
  have hrun : Project.housePlan.schedule.1 = .ok ⟨3, [⟨2⟩, ⟨4⟩, ⟨3⟩], [], false⟩ := by
    decide +kernel
  have hwalls : Project.housePlan.task? ⟨2⟩ = some ⟨⟨2⟩, "walls", ⟨6, by decide⟩, ⟨8, by decide⟩,
      .days 2, false, .absent⟩ := by
    decide +kernel
  obtain ⟨t', -, ht', -, -, -, -, hmoved⟩ := leaf_start Project.reachable_housePlan hc hrun hwalls
    (by decide +kernel) rfl (Project.hasRoom_of_early hc (by decide +kernel) ⟨2⟩)
    fun fault hfault => absurd hfault List.not_mem_nil
  have hfinal : Project.housePlan.schedule.2.task? ⟨2⟩ = some ⟨⟨2⟩, "walls", ⟨12, by decide⟩,
      ⟨14, by decide⟩, .days 2, false, .absent⟩ := by
    decide +kernel
  have hstart : t'.start = ⟨12, by decide⟩ := by
    rw [hfinal] at ht'
    rw [← Option.some.inj ht']
  refine ⟨t', ht', hstart, (hmoved ?_).1⟩
  rw [hstart]
  decide

end Workplan
