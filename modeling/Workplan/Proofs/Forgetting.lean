import Workplan.Proofs.Anchored
import Workplan.Proofs.AnyOrder
import Workplan.Proofs.Lengths

/-!
# Containers forget their dates

Two projects that differ in the dates of one container are scheduled alike.  Whatever does not come
after the container is given the same rows, the container gets its start and its end from these
rows, and then everything else follows.  Only the old length of the container can come back, through
dependencies that link its end.

- `DatedAt.transfer`: equal rows of what leads to a task make equal rows of the task.
- `unaffected`: so two runs agree on everything that the container does not lead to.
- `contained_alike`: what leads to the container decides about its dates.
- `schedule_forgets`: so they agree on the container, and on everything.
- `schedule_beamPlan`: where they do not.
-/

namespace Workplan

open Collision

variable {p p' q q' before before' after after' : Project} {x y : TaskId} {t t' u u' : Task}
  {result result' : Except Fault Bool} {c : Calendar} {start last : Day}
  {report report' : RunReport}

/-! ## Two runs -/

/-- **A task with the same row is given the same row**, if what leads to it was. -/
theorem DatedAt.transfer (hp : p.Sound) (h : DatedAt p q y result before after)
    (h' : DatedAt p' q' y result' before' after') (hframe : p.SameFrame p')
    (ht : p.task? y = some t) (hown : p'.task? y = p.task? y)
    (hsources : ∀ z ∈ p.network.nodes, p.network.Leads z y → q'.task? z = q.task? z) :
    q'.task? y = q.task? y := by
  have hagree : Project.AgreeAt y before before' := by
    refine ⟨h.frame.symm.trans (hframe.trans h'.frame), ?_, fun z hlead => ?_⟩
    · rw [h'.own, hown, h.own]
    · rw [h.frame.network] at hlead
      have hz := (hp.closed_network.mem_of_leads hlead).1
      rw [h.sources z hz hlead, ← hsources z hz hlead]
      refine h'.sources z ?_ (by rwa [hframe.network])
      rw [hframe.ids]
      exact hz
  have hstep := h.step
  rw [← h.frame.network] at hstep
  obtain ⟨after'', hstep', hrow⟩ := hagree.attempt h.sound (h.own.trans ht) hstep
  rw [h.frame.network, ← hframe.network, h'.step] at hstep'
  rw [h'.final, h.final, ← hrow, (Prod.mk.inj hstep').2]

/-- **Two runs agree on everything that does not come after the task in which they differ**, and
on everything else if they come to agree on that task. -/
theorem unaffected (hp : p.Sound) (hp' : p'.Sound) (hdiffer : p.Redates (fun y => y = x) p')
    (hrun : p.schedule.1 = .ok report) (hrun' : p'.schedule.1 = .ok report') :
    ∀ y ∈ p.network.nodes, y ≠ x → (Relation.TransGen p.network.Leads x y →
        p'.schedule.2.task? x = p.schedule.2.task? x) →
      p'.schedule.2.task? y = p.schedule.2.task? y := by
  obtain ⟨layers, -, hlayers, -⟩ := schedule_eq_ok_iff.mp (Prod.ext hrun rfl)
  refine (Network.isOrder_of_layers hlayers).induction fun y hy ih hne hafter => ?_
  obtain ⟨t, ht⟩ := Project.exists_task? hy
  have hown := hdiffer.others y hne
  obtain ⟨result, before, after, hdated, -⟩ := exists_datedAt hp hrun ht
  obtain ⟨result', before', after', hdated', -⟩ := exists_datedAt hp' hrun' (hown.trans ht)
  refine hdated.transfer hp hdated' hdiffer.frame ht hown fun z hz hlead => ?_
  by_cases hzx : z = x
  · subst hzx
    exact hafter (.single hlead)
  · exact ih z hz hlead hzx fun hxz => hafter (hxz.tail hlead)

/-! ## The container -/

/-- What bounds a container does not see its dates, except for its length. -/
theorem snaps_eq (hdated : DatedAt p q x result before after)
    (hdated' : DatedAt p' q' x result' before' after') (hp : p.Sound) (hp' : p'.Sound)
    (hframe : p.SameFrame p') (ht : p.task? x = some t) (ht' : p'.task? x = some t')
    (hlength : ∀ d ∈ p.binding x, d.kind.bindsFinish → t'.duration = t.duration)
    (hsources : ∀ z ∈ p.network.nodes, p.network.Leads z x → q'.task? z = q.task? z)
    {accept accept' : Dependency → Day} (haccept : before.Accepts x accept)
    (haccept' : before'.Accepts x accept') :
    t'.snaps p'.calendar (p'.binding x) accept' = t.snaps p.calendar (p.binding x) accept := by
  have hbefore := hdated.frame.symm.trans (hframe.trans hdated'.frame)
  rw [Task.snaps, Task.snaps, hframe.binding, hframe.calendar,
    Task.grain_of_undated (hframe.undated_eq ht ht')]
  refine List.map_congr_left fun d hd => congrArg _ ?_
  have hmem : d ∈ before.dependencies := by
    rw [hdated.frame.dependencies]
    exact (Project.mem_binding.mp hd).1
  have hdependee : before'.task? d.dependee = before.task? d.dependee := by
    rw [hdated.source hp hd, hdated'.source hp' (by rwa [hframe.binding])]
    refine hsources d.dependee (hp.dependee_mem d (Project.mem_binding.mp hd).1) ?_
    exact Network.leads_iff.mpr ⟨_, (Project.mem_incoming_network hp).mpr (.inr ⟨d, hd, rfl⟩), rfl⟩
  have hsame := hbefore.acceptable hdated.sound hmem hdependee (hdated.own.trans ht)
    (hdated'.own.trans ht') (hlength d hd)
  have hd' := haccept' d (by rwa [hdated'.frame.binding, hframe.binding])
  rw [hsame, haccept d (by rwa [hdated.frame.binding])] at hd'
  exact (Except.ok.inj hd').symm

/-- **Two runs take a container between the same two days**, from its last bound to the end of its
children. -/
theorem contained_alike (hdated : DatedAt p q x result before after)
    (hdated' : DatedAt p' q' x result' before' after') (hp : p.Sound) (hp' : p'.Sound)
    (hframe : p.SameFrame p') (ht : p.task? x = some t) (ht' : p'.task? x = some t')
    (hparent : p.hasChildren x)
    (hlength : ∀ d ∈ p.binding x, d.kind.bindsFinish → t'.duration = t.duration)
    (hsources : ∀ z ∈ p.network.nodes, p.network.Leads z x → q'.task? z = q.task? z) :
    ∃ u u' start last, q.task? x = some u ∧ q'.task? x = some u' ∧
      ContainerOutcome p.calendar t start last u result ∧
      ContainerOutcome p.calendar t' start last u' result' := by
  obtain ⟨accept, u, first, last, start, haccept, hu, hfirst, hlast, hstart, hout⟩ :=
    hdated.contained hp ht hparent
  obtain ⟨accept', u', first', last', start', haccept', hu', hfirst', hlast', hstart', hout'⟩ :=
    hdated'.contained hp' ht' (by rwa [hframe.hasChildren])
  have hroot := hp.ne_root_of_task? ht
  have hdays : q'.childDays x = q.childDays x := by
    rw [Project.childDays, Project.childDays, hdated.finalFrame.children,
      hdated'.finalFrame.children, hframe.children]
    refine congrArg (List.flatMap _) (List.filterMap_congr fun y hy => ?_)
    have hchild := (hp.parent?_iff_mem_children hroot).mpr hy
    refine hsources y (hp.mem_of_parent? hchild).1 (Network.leads_iff.mpr ?_)
    exact ⟨_, (Project.mem_incoming_network hp).mpr (.inl ⟨y, hchild, rfl⟩), rfl⟩
  rw [hdays] at hfirst' hlast'
  cases hfirst.symm.trans hfirst'
  cases hlast.symm.trans hlast'
  rw [snaps_eq hdated hdated' hp hp' hframe ht ht' hlength hsources haccept haccept',
    Task.earliestBegin_of_undated (hframe.undated_eq ht ht')] at hstart'
  cases hstart.symm.trans hstart'
  rw [hframe.calendar] at hout'
  exact ⟨u, u', start, last, hu, hu', hout, hout'⟩

namespace ContainerOutcome

variable (h : ContainerOutcome c t start last u result)
include h

theorem milestone : u.milestone = t.milestone := by
  cases h <;> rfl

/-- Between the same two days, it gets the same dates. -/
theorem alike (h' : ContainerOutcome c t' start last u' result') (hle : start ≤ last)
    (hundated : t'.undated = t.undated) (hspan : t.milestone = false) :
    u'.start = u.start ∧ u'.finish = u.finish := by
  have hspan' : t'.milestone = false := (Task.milestone_of_undated hundated).trans hspan
  obtain ⟨-, hstart, hfinish, -⟩ := h.of_le hle
  obtain ⟨-, hstart', hfinish', -⟩ := h'.of_le hle
  refine ⟨hstart'.trans hstart.symm, ?_⟩
  rw [hfinish (h.milestone.trans hspan), hfinish' (h'.milestone.trans hspan'),
    Task.grain_of_undated hundated]

/-- A length that is the working time between the dates stays so. -/
theorem measured (hspan : t.milestone = false)
    (hmeasured : t.duration = c.workingLength t.grain t.start t.finish) :
    u.duration = c.workingLength t.grain u.start u.finish := by
  cases h with
  | refused => exact hmeasured
  | still => exact hmeasured
  | fitted finish duration _ _ hduration =>
    rw [Project.revisedDuration, hspan] at hduration
    exact hduration

end ContainerOutcome

/-! ## The whole project -/

/-- Two runs that agree on the task in which they differ end with the same project. -/
theorem schedule_eq_of_agree (hp : p.Sound) (hp' : p'.Sound)
    (hdiffer : p.Redates (fun y => y = x) p') (hrun : p.schedule.1 = .ok report)
    (hrun' : p'.schedule.1 = .ok report')
    (hsame : p'.schedule.2.task? x = p.schedule.2.task? x) : p'.schedule.2 = p.schedule.2 := by
  have hframe := frame_schedule hp
  have hfinal := hframe.symm.trans (hdiffer.frame.trans (frame_schedule hp'))
  refine hfinal.eq (hframe.ids ▸ hp.ids_nodup) fun y => ?_
  by_cases hyx : y = x
  · rw [hyx, hsame]
  cases hy : p.schedule.2.task? y with
  | none =>
    have hnone := hfinal.task? y
    rw [hy] at hnone
    exact Option.map_eq_none_iff.mp hnone
  | some v =>
    have hmem := Project.mem_ids_of_task? hy
    rw [hframe.ids] at hmem
    rw [← hy]
    exact unaffected hp hp' hdiffer hrun hrun' y hmem hyx fun _ => hsame

/-- **A container forgets its dates.**  Take two projects that differ in the dates of one container,
and let its old lengths be the same if a dependency links its end.  Then both runs give it the same
start and the same end.  If moreover its lengths are the working times between its dates, then both
runs end with the same project. -/
theorem schedule_forgets (hp : p.Reachable) (hp' : p'.Reachable)
    (hdiffer : p.Redates (fun y => y = x) p') (hrun : p.schedule.1 = .ok report)
    (hrun' : p'.schedule.1 = .ok report') (ht : p.task? x = some t) (ht' : p'.task? x = some t')
    (hparent : p.hasChildren x) (hspan : t.milestone = false)
    (hlength : ∀ d ∈ p.binding x, d.kind.bindsFinish → t'.duration = t.duration)
    (hfine : ∀ fault ∈ report.errors, fault.task? ≠ some x) :
    ∃ u u', p.schedule.2.task? x = some u ∧ p'.schedule.2.task? x = some u' ∧
      u'.start = u.start ∧ u'.finish = u.finish ∧
      (t.duration = p.calendar.workingLength t.grain t.start t.finish →
        t'.duration = p.calendar.workingLength t'.grain t'.start t'.finish →
          u'.duration = u.duration ∧ p'.schedule.2 = p.schedule.2) := by
  have hsound := hp.sound
  have hsound' := hp'.sound
  obtain ⟨layers, -, hlayers, -⟩ := schedule_eq_ok_iff.mp (Prod.ext hrun rfl)
  have hacyclic := (Network.isOrder_of_layers hlayers).acyclic hsound.closed_network
  -- what leads to the container does not come after it
  have hsources : ∀ z ∈ p.network.nodes, p.network.Leads z x →
      p'.schedule.2.task? z = p.schedule.2.task? z := by
    intro z hz hlead
    refine unaffected hsound hsound' hdiffer hrun hrun' z hz ?_ fun hafter =>
      absurd (hafter.tail hlead) (hacyclic x)
    rintro rfl
    exact hacyclic z (.single hlead)
  obtain ⟨result, before, after, hdated, herrors⟩ := exists_datedAt hsound hrun ht
  obtain ⟨result', before', after', hdated', -⟩ := exists_datedAt hsound' hrun' ht'
  obtain ⟨u, u', start, last, hu, hu', hout, hout'⟩ := contained_alike hdated hdated' hsound
    hsound' hdiffer.frame ht ht' hparent hlength hsources
  -- a fault would name the container
  obtain ⟨hle, -⟩ := hout.start_eq fun fault hfault => by
    subst hfault
    refine hfine fault (herrors fault rfl) ?_
    rw [hout.task?_of_error, Project.id_of_task? ht]
  have hundated := hdiffer.frame.undated_eq ht ht'
  obtain ⟨hstart, hfinish⟩ := hout.alike hout' hle hundated hspan
  refine ⟨u, u', hu, hu', hstart, hfinish, fun hmeasured hmeasured' => ?_⟩
  have hspan' : t'.milestone = false := (Task.milestone_of_undated hundated).trans hspan
  have hduration : u'.duration = u.duration := by
    rw [hout.measured hspan hmeasured, hout'.measured hspan' hmeasured',
      Task.grain_of_undated hundated, hstart, hfinish]
  have hrow := hdated.finalFrame.symm.trans (hdiffer.frame.trans hdated'.finalFrame)
  refine ⟨hduration, schedule_eq_of_agree hsound hsound' hdiffer hrun hrun' ?_⟩
  rw [hu, hu', Task.eq_of_undated (hrow.undated_eq hu hu') hstart hfinish hduration]

/-- A run changes the dates of the tasks that it reports only. -/
theorem redates_of_schedule (hp : p.Sound) (hrun : p.schedule.1 = .ok report) :
    p.Redates (· ∈ report.modified) p.schedule.2 := by
  obtain ⟨layers, trace, hlayers, htrace, hruns, rfl⟩ := schedule_eq_ok_iff.mp (Prod.ext hrun rfl)
  have horder := Network.isOrder_of_layers hlayers
  rw [← htrace] at horder
  have haccounts := hruns.accounts hp horder layers.length
  exact ⟨haccounts.frame, fun y hy => not_not.mp fun hne => hy ((haccounts.mem_modified y).mpr hne)⟩

/-- A house of one day with walls of three days that do not begin before a day.  The house is linked
to a survey that has been made. -/
def beamPlan (kind : LinkKind) : Project :=
  (Project.empty .standard).after [
    .addTask "survey" (Day.first.advance 4) (.days 5),
    .addTask "walls" (Day.first.advance 6) (.days 3),
    .addTask "house" (Day.first.advance 4) (.days 1),
    .change (.revise ⟨2⟩ { anchor? := some ⟨some .earliestBegin, some (Day.first.advance 6)⟩ }),
    .place ⟨2⟩ ⟨3⟩,
    .addDependency ⟨1⟩ ⟨3⟩ kind .strong (-1)]

/-- The house with its old dates and the house with those of a run are given the same dates, since
its start is linked. -/
theorem schedule_forgets_beamPlan : ∃ house,
    (beamPlan .startStart).schedule.2.task? ⟨3⟩ = some house ∧
      (beamPlan .startStart).task? ⟨3⟩ ≠ some house ∧
      (beamPlan .startStart).schedule.2.schedule.2 = (beamPlan .startStart).schedule.2 := by
  have hp : (beamPlan .startStart).Reachable := (Project.Reachable.empty _).after _
  have hrun : (beamPlan .startStart).schedule.1 = .ok ⟨3, [⟨3⟩], [], false⟩ := by decide +kernel
  have hrun' : (beamPlan .startStart).schedule.2.schedule.1 = .ok ⟨3, [], [], false⟩ := by
    decide +kernel
  have hhouse : (beamPlan .startStart).task? ⟨3⟩ = some ⟨⟨3⟩, "house", ⟨4, by decide⟩,
      ⟨5, by decide⟩, .days 1, false, .absent⟩ := by
    decide +kernel
  have hhouse' : (beamPlan .startStart).schedule.2.task? ⟨3⟩ = some ⟨⟨3⟩, "house", ⟨6, by decide⟩,
      ⟨9, by decide⟩, .days 3, false, .absent⟩ := by
    decide +kernel
  have hdiffer : (beamPlan .startStart).Redates (fun y => y = ⟨3⟩)
      (beamPlan .startStart).schedule.2 :=
    (redates_of_schedule hp.sound hrun).mono fun y hy => List.mem_singleton.mp hy
  obtain ⟨u, u', -, -, -, -, hsame⟩ := schedule_forgets hp hp.schedule hdiffer hrun hrun' hhouse
    hhouse' (by decide +kernel) rfl (by decide +kernel) fun _ h => absurd h List.not_mem_nil
  refine ⟨_, hhouse', ?_, (hsame ?_ ?_).2⟩
  · rw [hhouse]
    decide
  · decide +kernel
  · decide +kernel

/-- The house with its old dates and the house with those of a run are given different dates, since
its end is linked. -/
theorem schedule_beamPlan : ∃ house house' : Task,
    (beamPlan .finishFinish).Reachable ∧
      (beamPlan .finishFinish).Redates (fun y => y = ⟨3⟩) (beamPlan .finishFinish).schedule.2 ∧
      (beamPlan .finishFinish).schedule.1 = .ok ⟨3, [⟨3⟩], [], false⟩ ∧
      (beamPlan .finishFinish).schedule.2.schedule.1 = .ok ⟨3, [⟨3⟩], [], false⟩ ∧
      (beamPlan .finishFinish).hasChildren ⟨3⟩ ∧ house.milestone = false ∧
      (beamPlan .finishFinish).schedule.2.task? ⟨3⟩ = some house ∧
      (beamPlan .finishFinish).schedule.2.schedule.2.task? ⟨3⟩ = some house' ∧
      house'.start < house.start := by
  have hp : (beamPlan .finishFinish).Reachable := (Project.Reachable.empty _).after _
  have hrun : (beamPlan .finishFinish).schedule.1 = .ok ⟨3, [⟨3⟩], [], false⟩ := by decide +kernel
  have hhouse : (beamPlan .finishFinish).schedule.2.task? ⟨3⟩ = some ⟨⟨3⟩, "house",
      ⟨7, by decide⟩, ⟨9, by decide⟩, .days 2, false, .absent⟩ := by
    decide +kernel
  have hhouse' : (beamPlan .finishFinish).schedule.2.schedule.2.task? ⟨3⟩ = some ⟨⟨3⟩, "house",
      ⟨6, by decide⟩, ⟨9, by decide⟩, .days 3, false, .absent⟩ := by
    decide +kernel
  exact ⟨_, _, hp, (redates_of_schedule hp.sound hrun).mono fun y hy => List.mem_singleton.mp hy,
    hrun, by decide +kernel, by decide +kernel, rfl, hhouse, hhouse', by decide⟩

end Workplan
