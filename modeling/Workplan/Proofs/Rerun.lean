import Workplan.Proofs.Outcomes

/-!
# A second run changes nothing

Dating a task leaves it where dating it again leaves it alone, and every fault comes back.
So a run right after a run is its own fixed point.

- `LeafOutcome.again`, `ContainerOutcome.again`: one task, dated again on the final dates.
- `DatedAt.again`: so the step of the second run changes nothing.
- `schedule_idempotent`: neither does the whole second run, with the same faults.
-/

namespace Workplan

open Collision

variable {p q before after : Project} {x : TaskId} {t t' : Task} {result : Except Fault Bool}
  {accept : Dependency → Day} {c : Calendar} {ds : List Dependency}

/-! ## One task, dated again -/

/-- The days that bounded a task that was moved to `start` still lead there. -/
theorem floors_again (hc : c.GapsBelowHorizon) (finish : Day) {floor start : Day}
    (hfloor : latest? (t.floors c ds accept) = some floor) (hstart : c.onOrAfter .day floor = start)
    (hwork : c.isWorking start) :
    ∃ floor', latest? (({ t with start, finish } : Task).floors c ds accept) = some floor' ∧
      c.onOrAfter .day floor' = start := by
  have hle : floor ≤ start := hstart ▸ Calendar.le_onOrAfter hc floor
  rw [latest?_eq_some_iff, Task.floors] at hfloor
  obtain ⟨hmem, hmax⟩ := hfloor
  rw [Task.floors]
  show ∃ floor', latest? (t.snaps c ds accept ++ t.earliestBegin.toList ++ _) = _ ∧ _
  by_cases hease : ({ t with start, finish } : Task).IsAtEase ds accept
  · -- the start itself bounds the task now
    rw [if_pos hease]
    refine ⟨start, latest?_eq_some_iff.mpr ⟨?_, fun d hd => ?_⟩,
      Calendar.onOrAfter_of_working hwork⟩
    · exact List.mem_append_right _ List.mem_cons_self
    · rcases List.mem_append.mp hd with hd | hd
      · exact (hmax d (List.mem_append_left _ hd)).trans hle
      · exact (List.mem_singleton.mp hd).le
  · rw [if_neg hease, List.append_nil]
    refine ⟨floor, latest?_eq_some_iff.mpr ⟨?_, fun d hd => hmax d (List.mem_append_left _ hd)⟩,
      hstart⟩
    rcases List.mem_append.mp hmem with hmem | hmem
    · exact hmem
    · -- a task at ease stays so when it starts later
      split at hmem
      · next hold =>
        have hfloor := List.mem_singleton.mp hmem
        refine absurd ⟨hold.1, fun d hd => ?_⟩ hease
        have hslack := hold.2 d hd
        simp only [Dependency.isSlack, Bool.and_eq_true, decide_eq_true_eq] at hslack ⊢
        exact ⟨hslack.1, (hslack.2.trans hfloor.symm.le).trans hle⟩
      · exact absurd hmem List.not_mem_nil

/-- **A task without children is left alone the second time.** -/
theorem LeafOutcome.again (hc : q.calendar.GapsBelowHorizon)
    (h : LeafOutcome q.calendar t (t.floors q.calendar ds accept) t' result)
    (hroom : t' ≠ t → q.calendar.ReachesWork t'.start) :
    q.dateLeaf t' (t'.floors q.calendar ds accept) = (result.map fun _ => false, q) := by
  rw [Project.dateLeaf]
  cases h with
  | free h =>
    rw [h]
    rfl
  | still floor h hstay =>
    rw [h]
    dsimp only
    rw [if_pos hstay]
    rfl
  | refused floor start finish h hmove hstart hfinish hlt =>
    rw [h]
    dsimp only
    rw [if_neg hmove, ← hstart, ← hfinish, Project.redate, if_pos hlt]
    rfl
  -- a leaf that has moved stands on a workday, to which the floors lead once more
  | moved floor start finish h hmove hstart hfinish hle =>
    have hne : start ≠ t.start := hstart ▸ Calendar.landing_ne hc hmove
    have hreach : q.calendar.ReachesWork start := hroom fun heq => hne (congrArg Task.start heq)
    rw [hstart, Calendar.reachesWork_landing_onOrAfter hc] at hreach
    have hnext := hreach.isNextWorkday hc
    rw [Calendar.landing_eq hc hnext.working] at hstart
    obtain ⟨floor', hfloor', hstay⟩ := floors_again hc finish h hstart.symm
      (hstart ▸ hnext.working)
    rw [hfloor']
    dsimp only
    rw [if_pos hstay]
    rfl

/-- **A container is left alone the second time.** -/
theorem ContainerOutcome.again {start last : Day} (hq : q.Sound) (ht' : q.task? x = some t')
    (h : ContainerOutcome q.calendar t start last t' result) :
    q.dateContainer t' start last = (result.map fun _ => false, q) := by
  rw [Project.dateContainer]
  cases h with
  | refused hlt =>
    rw [if_pos hlt]
    rfl
  | still hle hstart hfinish =>
    rw [if_neg (not_lt.mpr hle), if_pos ⟨hstart, hfinish⟩]
    rfl
  | fitted finish duration hle hfinish hduration =>
    rw [if_neg (not_lt.mpr hle)]
    split
    · rfl
    · -- the same dates are written again
      have hgrain : duration.grain = t.grain := by rw [hduration, Project.grain_revisedDuration]
      generalize ht'' : ({ t with start, finish, duration } : Task) = u at ht'
      have hu : u.grain = t.grain := by rw [← ht'']; exact hgrain
      have hms : u.milestone = t.milestone := by rw [← ht'']
      have hfinish' : Project.containerFinish q.calendar u start last = finish := by
        rw [hfinish, Project.containerFinish, Project.containerFinish, hu, hms]
      have hduration' : Project.revisedDuration q.calendar u start finish = duration := by
        rw [hduration, Project.revisedDuration, Project.revisedDuration, hu, hms]
      have hsame : ({ u with start, finish, duration } : Task) = u := by rw [← ht'']
      have hid := Project.id_of_task? ht'
      rw [← hid] at ht'
      dsimp only
      rw [hfinish', hduration', Project.redate, if_neg]
      · dsimp only
        rw [hsame, Project.replace_self hq.ids_nodup ht']
        simp [Except.map]
      · rw [hfinish]
        exact not_lt.mpr (Project.start_le_containerFinish hle)

namespace DatedAt

variable (h : DatedAt p q x result before after) (hp : p.Sound) (hq : q.Sound)
include h hp hq

/-- **The step of the second run changes nothing, and fails if the first one did.** -/
theorem again (hc : p.calendar.GapsBelowHorizon) (ht : p.task? x = some t) (hday : t.grain = .day)
    (hchildless : ∀ d ∈ p.dependencies, d.kind.bindsFinish → p.hasChildren d.dependant = false)
    (hroom : p.hasChildren x = false → ∀ t', q.task? x = some t' → t' ≠ t →
      p.calendar.ReachesWork t'.start) :
    Host.attempt (scheduleTask Host.alone p.network x) q =
      (.ok (result.map fun _ => false), q) := by
  have hcal := h.finalFrame.calendar
  rw [← h.finalFrame.network]
  cases hparent : p.hasChildren x with
  | false =>
    obtain ⟨accept, t', haccept, ht', hout⟩ := h.leaf hp hc ht hparent hday
    have hday' : t'.grain = .day :=
      (Task.grain_of_undated (h.finalFrame.undated_eq ht ht')).trans hday
    rw [← hcal] at hout hc hroom
    rw [Project.attempt_leaf hq ht' (by rwa [h.finalFrame.hasChildren]) hday' haccept,
      h.finalFrame.binding, hout.again hc (hroom hparent t' ht')]
  | true =>
    have hstarts := Project.not_bindsFinish hp hchildless hparent
    obtain ⟨accept, t', first, last, start, haccept, ht', hfirst, hlast, hstart, hout⟩ :=
      h.container hp ht hparent hstarts
    have hundated := h.finalFrame.undated_eq ht ht'
    have hstart' : latest? (t'.snaps q.calendar (q.binding x) accept ++ t'.earliestBegin.toList ++
        [first]) = some start := by
      rw [hcal, h.finalFrame.binding, Task.earliestBegin_of_undated hundated, Task.snaps,
        Task.grain_of_undated hundated]
      exact hstart
    rw [← hcal] at hout
    rw [Project.attempt_container hq ht' (by rwa [h.finalFrame.hasChildren]) haccept hfirst hlast
      hstart',
      hout.again hq ht']

end DatedAt

/-! ## The second run -/

theorem Runs.of_steps {n : Network} {trace : List (TaskId × Except Fault Bool)}
    (h : ∀ step ∈ trace, Host.attempt (scheduleTask Host.alone n step.1) q = (.ok step.2, q)) :
    Runs n q trace q := by
  induction trace with
  | nil => exact .done q
  | cons step trace ih =>
    exact .step (h step List.mem_cons_self) (ih fun s hs => h s (List.mem_cons_of_mem step hs))

theorem RunReport.recordAll_again (r : RunReport) (trace : List (TaskId × Except Fault Bool)) :
    ({ r with modified := [] } : RunReport).recordAll
      (trace.map fun step => (step.1, step.2.map fun _ => false)) =
      { r.recordAll trace with modified := [] } := by
  induction trace generalizing r with
  | nil => rfl
  | cons step trace ih =>
    have hfirst :
        ({ r with modified := [] } : RunReport).record step.1 (step.2.map fun _ => false) =
        { r.record step.1 step.2 with modified := [] } := by
      rcases step with ⟨id, fault | _ | _⟩ <;> rfl
    rw [List.map_cons, recordAll, List.foldl_cons, hfirst]
    exact ih (r.record step.1 step.2)

/-- **A run right after a run changes nothing**, and reports the same faults. -/
theorem schedule_idempotent {report : RunReport} (hp : p.Reachable)
    (hc : p.calendar.GapsBelowHorizon)
    (hdays : ∀ t ∈ p.tasks, t.grain = .day)
    (hchildless : ∀ d ∈ p.dependencies, d.kind.bindsFinish → p.hasChildren d.dependant = false)
    (hroom : ∀ t ∈ p.tasks, p.hasChildren t.id = false → p.HasRoom t.id)
    (h : p.schedule.1 = .ok report) :
    p.schedule.2.schedule = (.ok { report with modified := [] }, p.schedule.2) := by
  have hsound := hp.sound
  obtain ⟨layers, trace, hlayers, htrace, hrun, rfl⟩ := schedule_eq_ok_iff.mp (Prod.ext h rfl)
  have horder := Network.isOrder_of_layers hlayers
  rw [← htrace] at horder
  have hframe := (hrun.redates hsound).frame
  rw [schedule_eq_ok_iff, hframe.network]
  refine ⟨layers, trace.map fun step => (step.1, step.2.map fun _ => false), hlayers, ?_, ?_, ?_⟩
  · rw [List.map_map, ← htrace]
    rfl
  · -- each step of the first run is a step of the second one that leaves the final dates alone
    refine Runs.of_steps fun step hstep => ?_
    obtain ⟨⟨x, result⟩, hmem, rfl⟩ := List.mem_map.mp hstep
    obtain ⟨before, after, hdated⟩ := hrun.exists_datedAt hsound horder hmem
    have hx : x ∈ p.tasks.map Task.id := horder.perm.subset (List.mem_map_of_mem hmem)
    obtain ⟨t, ht⟩ := Project.exists_task? hx
    refine hdated.again hsound (hrun.sound hsound) hc ht (hdays t (Project.mem_of_task? ht))
      hchildless fun hleaf t' ht' hne => ?_
    have hid := Project.id_of_task? ht
    refine hroom t (Project.mem_of_task? ht) (by rwa [hid]) t' ?_ ?_
    · rw [hid]
      exact ht'
    · rw [hid, ht]
      exact fun heq => hne (Option.some.inj heq).symm
  · exact (RunReport.recordAll_again _ trace).symm

/-- A house that has to wait until after the days of its walls. -/
def latePlan : Project :=
  Project.housePlan.after [.change
    (.revise ⟨3⟩ { anchor? := some ⟨some .earliestBegin, some (Day.first.advance 20)⟩ })]

/-- The house cannot be fitted, and the second run says so again. -/
theorem schedule_idempotent_latePlan :
    latePlan.schedule.2.schedule =
      (.ok ⟨3, [], [.unsatisfiable ⟨3⟩ (.noStart (.closed ⟨20, by decide⟩ ⟨14, by decide⟩))],
        false⟩,
        latePlan.schedule.2) := by
  have hcalendar : latePlan.calendar = .standard := by decide +kernel
  have hc : latePlan.calendar.GapsBelowHorizon := hcalendar ▸ Calendar.gapsBelowHorizon_standard
  have hrun : latePlan.schedule.1 = .ok ⟨3, [⟨2⟩, ⟨4⟩],
      [.unsatisfiable ⟨3⟩ (.noStart (.closed ⟨20, by decide⟩ ⟨14, by decide⟩))], false⟩ := by
    decide +kernel
  exact schedule_idempotent (Project.reachable_housePlan.after _) hc (by decide +kernel)
    (by decide +kernel)
    (fun t _ _ => Project.hasRoom_of_early hc (by decide +kernel) t.id) hrun

end Workplan
