import Workplan.Proofs.Settled

/-!
# The two engines agree

Resolving strong dependencies one by one, a recomputation may send a task to a start that is
out of date before long.  By distance, the last dependency on a task comes when everything it
waits for is final.  Then the task either is on its final start already or gets it.

- `Swept`: what holds after some dependencies of a sweep have been resolved.
- `Swept.step`: resolving one more.
- `recomputeAll_eq_schedule`: both engines leave the same project.
-/

namespace Workplan

open Collision

variable {p q r r' : Project} {x : TaskId} {t : Task} {d : Dependency}
  {done rest : List Dependency} {accept : Dependency → Day} {start start' : Day}

/-- A recomputation of `p` is at `r` and has resolved the first part of a sweep.  The final dates
are those in `q`.  Tasks on which no dependency is left have them.  Other tasks may be elsewhere,
but the dependencies resolved so far are kept, as far as working days reach. -/
structure Swept (p q : Project) (done rest : List Dependency) (r : Project) : Prop where
  sweep : p.IsSweep (done ++ rest)
  sound : r.Sound
  frame : p.SameFrame r
  row : ∀ x t, p.task? x = some t → ∃ start, r.task? x = some (t.movedTo p.calendar start) ∧
    (p.calendar.isWorking start ∨ ¬ p.calendar.ReachesWork start)
  final : ∀ x, (∀ d ∈ rest, d.dependant ≠ x) → r.task? x = q.task? x
  kept : ∀ d ∈ done, ∀ t, r.task? d.dependant = some t → p.calendar.ReachesWork t.start →
    ∃ day, r.acceptable d d.dependant = .ok day ∧ day ≤ t.start

/-- A dependency is resolved on the way from `r` to `r'`, where the dependant is moved from one
start to another: it meets its accepted start exactly, or it is sent to the latest of those that
the dependencies on it accept. -/
structure Resolved (p : Project) (d : Dependency) (t : Task) (accept : Dependency → Day)
    (r : Project) (start : Day) (r' : Project) (start' : Day) : Prop where
  redates : Project.Redates (fun y => y = d.dependant) r r'
  old : r.task? d.dependant = some (t.movedTo p.calendar start)
  accepts : ∀ e ∈ p.incoming d.dependant, r.acceptable e d.dependant = .ok (accept e)
  new : r'.task? d.dependant = some (t.movedTo p.calendar start')
  landed : (start' = start ∧ start' = accept d) ∨
    ∃ floor, latest? ((p.incoming d.dependant).map accept) = some floor ∧
      p.calendar.LandsAt floor start'

namespace Swept

variable (hs : p.FlatStrong) (hp : p.Sound) (hq : p.Settled q)

include hs hp in
/-- On the way, the project is still without nesting, and tasks are as long as before. -/
theorem plain (h : Swept p q done rest r) : r.Plain := by
  have hplain : p.Plain := ⟨hp, hs.gaps, hs.flat, hs.days, hs.lengths⟩
  refine hplain.of_sameLengths h.sound ⟨h.frame, fun x t u ht hu => ?_⟩
  obtain ⟨start, hrow, -⟩ := h.row x t ht
  cases hu.symm.trans hrow
  rfl

include hs hp hq

/-- Before anything is resolved, the tasks that wait for nothing are where they stay. -/
theorem initial {ds : List Dependency} (hsweep : p.IsSweep ds) : Swept p q [] ds p where
  sweep := hsweep
  sound := hp
  frame := .refl p
  row x t ht := by
    have hmem := Project.mem_of_task? ht
    refine ⟨t.start, ?_, .inl (hs.working t hmem)⟩
    rw [hs.spans t hmem]
    exact ht
  final x hnone := by
    cases ht : p.task? x with
    | none =>
      have := hq.frame.task? x
      rw [ht, Option.map_none, Option.map_eq_none_iff] at this
      exact this.symm
    | some t =>
      have hfree : p.incoming x = [] := by
        rw [List.eq_nil_iff_forall_not_mem]
        intro d hd
        obtain ⟨hd, hx⟩ := Project.mem_incoming.mp hd
        exact hnone d ((hsweep.mem_iff d).mpr hd) hx
      obtain ⟨start, hrow, -, hstay, -⟩ := hq.row x t ht
      rw [hrow, hstay hfree, hs.spans t (Project.mem_of_task? ht)]
  kept d hd := absurd hd List.not_mem_nil

/-! ### One more dependency -/

variable (h : Swept p q done (d :: rest) r) (hstep : Resolved p d t accept r start r' start')
include h

omit hs hp hq in
theorem mem_incoming : d ∈ p.incoming d.dependant := by
  refine Project.mem_incoming.mpr ⟨(h.sweep.mem_iff d).mp ?_, rfl⟩
  exact List.mem_append_right _ List.mem_cons_self

omit hs hp hq in
theorem mem_dependencies {e : Dependency} (he : e ∈ done ++ [d]) : e ∈ r.dependencies := by
  rw [h.frame.dependencies]
  refine (h.sweep.mem_iff e).mp (List.mem_append.mpr ((List.mem_append.mp he).imp_right ?_))
  exact fun hd => List.mem_cons.mpr (.inl (List.mem_singleton.mp hd))

include hstep

omit hs hp hq in
/-- The dependees of what has been resolved are final, and not the task that is moved. -/
theorem source {e : Dependency} (he : e ∈ done ++ [d]) :
    r.task? e.dependee = q.task? e.dependee ∧ r'.task? e.dependee = r.task? e.dependee := by
  have hne := h.sweep.isCascade.dependee_ne he
  exact ⟨h.final _ hne, hstep.redates.others _ (hne d List.mem_cons_self).symm⟩

omit hp hq in
/-- What has been resolved is kept by the dependant. -/
theorem bound (hreach : p.calendar.ReachesWork start') {e : Dependency}
    (he : e ∈ p.incoming d.dependant) (hdone : e ∈ done ++ [d]) : accept e ≤ start' := by
  rcases hstep.landed with ⟨rfl, hmet⟩ | ⟨floor, hfloor, hlands⟩
  · rcases List.mem_append.mp hdone with hdone | hdone
    · have hx := (Project.mem_incoming.mp he).2
      obtain ⟨day, hday, hle⟩ := h.kept e hdone _ (hx ▸ hstep.old) hreach
      rw [hx, hstep.accepts e he] at hday
      cases hday
      exact hle
    · rw [List.mem_singleton.mp hdone, ← hmet]
  · have hle := (latest?_eq_some_iff.mp hfloor).2 _ (List.mem_map_of_mem he)
    exact hle.trans (hlands.le hs.gaps hreach)

omit hp in
/-- **The last dependency on a task brings it to its final start.** -/
theorem dependant_final (ht : p.task? d.dependant = some t)
    (hwork : p.calendar.isWorking start' ∨ ¬ p.calendar.ReachesWork start')
    (hlast : ∀ e ∈ rest, e.dependant ≠ d.dependant) :
    r'.task? d.dependant = q.task? d.dependant := by
  -- nothing on this task is left, so every dependency on it has been resolved on final dates
  have hall : ∀ e ∈ p.incoming d.dependant, e ∈ done ++ [d] := by
    intro e he
    obtain ⟨he, hx⟩ := Project.mem_incoming.mp he
    rcases List.mem_append.mp ((h.sweep.mem_iff e).mpr he) with he | he
    · exact List.mem_append_left _ he
    · rcases List.mem_cons.mp he with rfl | he
      · exact List.mem_append_right _ List.mem_cons_self
      · exact absurd hx (hlast e he)
  obtain ⟨s, hrow, hreach, -, hdemand⟩ := hq.row _ t ht
  have haccept : ∀ e ∈ p.incoming d.dependant, q.acceptable e d.dependant = .ok (accept e) := by
    intro e he
    rw [← hstep.accepts e he]
    exact (h.frame.symm.trans hq.frame).acceptable h.sound (h.mem_dependencies (hall e he))
      (h.source hstep (hall e he)).1.symm hstep.old hrow fun _ => rfl
  obtain ⟨floor, hfloor⟩ := exists_latest? (List.ne_nil_of_mem (List.mem_map_of_mem h.mem_incoming))
  have hs' := hdemand accept floor haccept hfloor
  rw [hs', Calendar.reachesWork_onOrAfter hs.gaps] at hreach
  have hstart' : start' = p.calendar.onOrAfter .day floor := by
    rcases hstep.landed with ⟨-, hmet⟩ | ⟨floor', hfloor', hlands⟩
    · -- what is met exactly is the latest of all demands, since the others are kept
      obtain ⟨hmem, hmax⟩ := latest?_eq_some_iff.mp hfloor
      have hle : start' ≤ floor := by
        rw [hmet]
        exact hmax _ (List.mem_map_of_mem h.mem_incoming)
      have hreach' := hreach.of_le hle
      obtain ⟨e, he, rfl⟩ := List.mem_map.mp hmem
      rw [le_antisymm (h.bound hs hstep hreach' he (hall e he)) hle]
      exact (Calendar.onOrAfter_of_working (hwork.resolve_right fun h => h hreach')).symm
    · cases hfloor.symm.trans hfloor'
      exact hlands.eq hreach
  rw [hstep.new, hrow, hs', hstart']

omit hp in
/-- The state after one more dependency has been resolved. -/
theorem advance (hsound : r'.Sound) (ht : p.task? d.dependant = some t)
    (hwork : p.calendar.isWorking start ∨ ¬ p.calendar.ReachesWork start) :
    Swept p q (done ++ [d]) rest r' := by
  have hwork' : p.calendar.isWorking start' ∨ ¬ p.calendar.ReachesWork start' := by
    rcases hstep.landed with ⟨rfl, -⟩ | ⟨floor, -, hlands⟩
    · exact hwork
    · exact hlands.working_or hs.gaps
  refine ⟨?_, hsound, h.frame.trans hstep.redates.frame, fun y u hu => ?_, fun y hy => ?_,
    fun e he u hu hreach => ?_⟩
  · rw [List.append_assoc, List.singleton_append]
    exact h.sweep
  · -- each task is still at a start of its own, with the end that belongs to it
    by_cases hyx : y = d.dependant
    · subst hyx
      cases hu.symm.trans ht
      exact ⟨start', hstep.new, hwork'⟩
    · obtain ⟨s, hrow, hsw⟩ := h.row y u hu
      exact ⟨s, (hstep.redates.others y hyx).trans hrow, hsw⟩
  · -- a task that nothing is left for was final before, or is the dependant, brought there now
    by_cases hyx : y = d.dependant
    · subst hyx
      exact h.dependant_final hs hq hstep ht hwork' hy
    · rw [hstep.redates.others y hyx]
      refine h.final y fun f hf => ?_
      rcases List.mem_cons.mp hf with rfl | hf
      · exact fun heq => hyx heq.symm
      · exact hy f hf
  · -- the dependencies on the dependant are read on its new start, the others as before
    have hmem := h.mem_dependencies he
    have hsource := (h.source hstep he).2
    by_cases hex : e.dependant = d.dependant
    · have hin : e ∈ p.incoming d.dependant := by
        rw [h.frame.dependencies] at hmem
        exact Project.mem_incoming.mpr ⟨hmem, hex⟩
      rw [hex] at hu ⊢
      cases hu.symm.trans hstep.new
      refine ⟨accept e, ?_, h.bound hs hstep hreach hin he⟩
      rw [← hstep.accepts e hin]
      exact hstep.redates.frame.acceptable h.sound hmem hsource hstep.old hstep.new fun _ => rfl
    · have hold : e ∈ done := by
        refine (List.mem_append.mp he).resolve_right fun hd => hex ?_
        rw [List.mem_singleton.mp hd]
      have hsame := hstep.redates.others _ hex
      rw [hsame] at hu
      obtain ⟨day, hday, hle⟩ := h.kept e hold u hu hreach
      refine ⟨day, ?_, hle⟩
      rw [← hday]
      exact hstep.redates.frame.acceptable h.sound hmem hsource hu (hsame.trans hu) fun _ => rfl

omit hstep in
/-- **One step of a sweep**: the next dependency is resolved, and nothing is given up. -/
theorem step (report : RecomputeReport) : ∃ report' r',
    resolveDependency Host.alone d.id report [] r = (.ok (report', []), r') ∧
      Swept p q (done ++ [d]) rest r' := by
  have hplain := h.plain hs hp
  obtain ⟨hd, -⟩ := Project.mem_incoming.mp h.mem_incoming
  obtain ⟨t, ht⟩ := Project.exists_task? (hp.dependant_mem d hd)
  obtain ⟨start, hrow, hwork⟩ := h.row _ t ht
  have haccepts : ∀ e ∈ p.incoming d.dependant, r.acceptable e d.dependant = .ok (r.demand e) := by
    intro e he
    obtain ⟨he, hx⟩ := Project.mem_incoming.mp he
    rw [← hx]
    exact hplain.acceptable (h.frame.dependencies ▸ he)
  obtain ⟨floor, hfloor, hrun⟩ :=
    hplain.resolveDependency (h.frame.dependencies ▸ hd) hrow report
  have hsound := keeps_resolveDependency Project.keptByCommits_sound d.id report [] r h.sound
  rw [h.frame.calendar, Task.start_movedTo] at hrun
  rw [h.frame.incoming] at hfloor
  -- the dependant stays if the dependency is kept or its floor is where it starts already
  by_cases hstill : d.isKept (r.demand d) start ∨ p.calendar.onOrAfter .day floor = start
  · rw [if_pos hstill] at hrun
    refine ⟨report, r, hrun,
      h.advance hs hq ⟨.refl _ r, hrow, haccepts, hrow, ?_⟩ h.sound ht hwork⟩
    rcases hstill with hkept | hsame
    · rw [Dependency.isKept_of_strong (hs.strong d hd), decide_eq_true_eq] at hkept
      exact .inl ⟨rfl, hkept⟩
    · refine .inr ⟨floor, hfloor, ?_⟩
      rw [← hsame]
      exact Calendar.landsAt_onOrAfter hs.gaps floor
  · rw [if_neg hstill] at hrun
    rw [hrun] at hsound
    have hlanded := Calendar.landsAt_landing hs.gaps start floor
    set moved := (t.movedTo p.calendar start).sentTo p.calendar floor
    have hredates : Project.Redates (fun y => y = d.dependant) r (r.replace moved) :=
      (Project.Redates.refl _ r).replace h.sound.ids_nodup rfl hrow rfl
    exact ⟨_, _, hrun, h.advance hs hq ⟨hredates, hrow, haccepts,
      Project.task?_replace_self hrow rfl, .inr ⟨floor, hfloor, hlanded⟩⟩ hsound ht hwork⟩

end Swept

/-- A recomputation of the whole project gets through, and ends on the dates of a settled
project. -/
theorem exists_recomputeAll (hs : p.FlatStrong) (hp : p.Sound) (hq : p.Settled q) :
    ∃ report, p.recomputeAll.1 = .ok report ∧ p.recomputeAll.2 = q := by
  obtain ⟨rank, hrank⟩ := hs.flat.rises hp hs.acyclic
  obtain ⟨reach, ds, hreach, hids, hsweep⟩ := Project.exists_sweep hrank p.independent
    fun d hd hnone => hp.mem_independent.mpr ⟨hp.dependee_mem d hd, hnone⟩
  obtain ⟨report, r, hrun, hswept⟩ :=
    exists_resolveAll (fun done rest _ r => Swept p q done rest r)
      (fun h => h.step hs hp hq _) .empty (Swept.initial hs hp hq hsweep)
  rw [← hids] at hrun
  have hplain := hswept.plain hs hp
  have hrq : r = q := by
    have hnodup : (q.tasks.map Task.id).Nodup := by
      rw [hq.frame.ids]
      exact hp.ids_nodup
    exact (hq.frame.symm.trans hswept.frame).eq hnodup fun x =>
      hswept.final x fun d hd => absurd hd List.not_mem_nil
  -- no container is there to be fitted afterwards
  have hall : p.recomputeAll = (.ok { report with adjusted := [] }, r) := by
    rw [Project.recomputeAll_eq, hreach]
    dsimp only
    rw [Act.bind_of_ok (resolveReach_of_resolveAll hrun),
      Act.bind_of_ok (hplain.flat.fit_alone hplain.sound report.modified)]
    rfl
  rw [hall]
  exact ⟨_, rfl, hrq⟩

/-- **The two engines agree** where nothing is nested and all dependencies are strong: both get
through, and give every task the same dates and duration. -/
theorem recomputeAll_eq_schedule (hp : p.Reachable) (hc : p.calendar.GapsBelowHorizon)
    (hflat : ∀ t ∈ p.tasks, p.hasChildren t.id = false)
    (hdays : ∀ t ∈ p.tasks, t.grain = .day) (hpos : ∀ t ∈ p.tasks, 0 ≤ t.duration.count)
    (hwork : ∀ t ∈ p.tasks, p.calendar.isWorking t.start)
    (hspans : ∀ t ∈ p.tasks, p.calendar.shift t.start t.duration = .ok t.finish)
    (hanchor : ∀ t ∈ p.tasks, t.earliestBegin = none)
    (hstrong : ∀ d ∈ p.dependencies, d.hardness = .strong)
    (hacyclic : ∀ x, ¬ Relation.TransGen p.WaitsFor x x)
    (hroom : ∀ t ∈ p.tasks, p.HasRoom t.id)
    (hwalks : ∀ t ∈ p.tasks, p.calendar.WalkStaysInside t.start t.duration.count) :
    (∃ report, p.schedule.1 = .ok report) ∧ (∃ report, p.recomputeAll.1 = .ok report) ∧
      p.recomputeAll.2 = p.schedule.2 := by
  have hs : p.FlatStrong := by
    refine ⟨hc, hflat, hdays, fun t ht => ⟨hpos t ht, (hwalks t ht).lt_count⟩, hwork,
      fun t ht => ?_, hanchor, hstrong, hacyclic, hroom⟩
    have hfinish := hspans t ht
    rw [Project.shift_day t.duration (hdays t ht), Except.ok.injEq] at hfinish
    rw [Task.movedTo, hfinish]
  obtain ⟨report, hrun, hagree⟩ := exists_recomputeAll hs hp.sound (settled_schedule hs hp.sound)
  exact ⟨(hs.schedulable hp.sound).exists_report hp.sound, ⟨report, hrun⟩, hagree⟩

/-- A roof that follows a survey and walls.  The walls are to be put up earlier than planned, so
that a recomputation first sends the roof to a start that is out of date. -/
def roofPlan : Project :=
  (Project.empty .standard).after [
    .addTask "survey" (Day.first.advance 4) (.days 5),
    .addTask "walls" (Day.first.advance 25) (.days 3),
    .addTask "roof" (Day.first.advance 4) (.days 2),
    .addDependency ⟨1⟩ ⟨3⟩ .startStart .strong 10,
    .addDependency ⟨1⟩ ⟨2⟩ .finishStart .strong 0,
    .addDependency ⟨2⟩ ⟨3⟩ .finishStart .strong 0]

/-- In the end the roof waits for the survey only. -/
theorem recomputeAll_eq_schedule_roofPlan : roofPlan.recomputeAll.2.task? ⟨3⟩ =
    some ⟨⟨3⟩, "roof", ⟨18, by decide⟩, ⟨20, by decide⟩, .days 2, false, .absent⟩ := by
  have hcalendar : roofPlan.calendar = .standard := by decide +kernel
  have hc : roofPlan.calendar.GapsBelowHorizon := hcalendar ▸ Calendar.gapsBelowHorizon_standard
  have hp : roofPlan.Reachable := (Project.Reachable.empty _).after _
  have hrises : roofPlan.Rises TaskId.number := by
    unfold Project.Rises
    decide +kernel
  have hwalks : ∀ t ∈ roofPlan.tasks,
      roofPlan.calendar.WalkStaysInside t.start t.duration.count := by
    intro t ht
    obtain ⟨hpos, hwork⟩ : 0 ≤ t.duration.count ∧ ∀ k < t.duration.count.toNat,
        roofPlan.calendar.isWorking (t.start.advance k) ∧ t.start.advance k < Day.last := by
      revert t
      decide +kernel
    rw [← Int.toNat_of_nonneg hpos]
    exact Calendar.walkStaysInside_of_successive hwork
  obtain ⟨-, -, hagree⟩ := recomputeAll_eq_schedule hp hc (by decide +kernel) (by decide +kernel)
    (by decide +kernel) (by decide +kernel) (by decide +kernel) (by decide +kernel)
    (by decide +kernel) hrises.acyclic
    (fun t _ => Project.hasRoom_of_early hc (by decide +kernel) t.id) hwalks
  rw [hagree]
  decide +kernel

end Workplan
