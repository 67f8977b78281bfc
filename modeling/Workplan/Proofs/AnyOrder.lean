import Workplan.Proofs.Isolation
import Workplan.Proofs.Layering

/-!
# The order of a run does not matter

What dating a task does depends on the row of that task and on the rows of the tasks that lead to
it, and it touches the row of that task only.  So every order in which a task comes after what
leads to it ends with the same rows.

- `Project.AgreeAt`: two projects differ in dates, and say the same about a task and about what
  leads to it.
- `Project.Alike`: what dating a task reads is the same in both.
- `Project.Alike.plan`, `Project.Alike.change`: then the plan for the task is the same, and so is
  what a change makes of it.
- `Runs.follow`: a run in another order takes the same steps.
- `schedule_anyOrder`: a run in any such order comes to the same as a run over the layers.
-/

namespace Workplan

variable {p q q' r : Project} {x : TaskId} {t : Task} {n : Network} {order : List TaskId}
  {trace : List (TaskId × Except Fault Bool)}

namespace Project

/-- The two projects differ in dates only, and not in those of a task and of what leads to it. -/
structure AgreeAt (x : TaskId) (q q' : Project) : Prop where
  frame : q.SameFrame q'
  own : q'.task? x = q.task? x
  sources : ∀ y, q.network.Leads y x → q'.task? y = q.task? y

/-- What the edges of a network make of a task is told by the same things in both projects, and so
is what a change makes of it. -/
structure Alike (n : Network) (x : TaskId) (q q' : Project) : Prop where
  calendar : q'.calendar = q.calendar
  parent? : q'.parent? = q.parent?
  dependency? : q'.dependency? = q.dependency?
  hasChildren : q'.hasChildren x = q.hasChildren x
  own : q'.task? x = q.task? x
  sources : ∀ e ∈ n.incoming x, q'.task? e.source = q.task? e.source

/-- Projects that agree at a task look alike to all that its network edges read. -/
theorem AgreeAt.alike (h : AgreeAt x q q') : Alike q.network x q q' where
  calendar := h.frame.calendar
  parent? := h.frame.parent?
  dependency? := h.frame.dependency?
  hasChildren := congrFun h.frame.hasChildren x
  own := h.own
  sources e he := h.sources e.source (Network.leads_iff.mpr ⟨e, he, rfl⟩)

namespace Alike

variable (h : Alike n x q q')
include h

/-! ## What is read -/

/-- Agreement at the sources of the edges is agreement on what they contribute. -/
theorem contribution? {e : Edge} (he : e ∈ n.incoming x) :
    q'.contribution? e = q.contribution? e := by
  have hown := h.own
  rw [← (Network.mem_incoming.mp he).2] at hown
  rw [Project.contribution?, Project.contribution?, h.sources e he, hown, h.parent?,
    h.dependency?, h.calendar]

theorem gather {edges : List Edge} (hedges : ∀ e ∈ edges, e ∈ n.incoming x) (f : Fold) :
    (q'.gather f edges).outcome = (q.gather f edges).outcome := by
  induction edges generalizing f with
  | nil => rfl
  | cons e edges ih =>
    have hrest := fun f => ih (fun e' he' => hedges e' (List.mem_cons_of_mem e he')) f
    rw [gather_cons, gather_cons, h.contribution? (hedges e List.mem_cons_self)]
    simp only [hrest]

/-- **The plan for the task is the same.** -/
theorem plan (ht : q.task? x = some t) :
    (q'.plan x (n.incoming x)).outcome = (q.plan x (n.incoming x)).outcome := by
  have hdraft : q'.draft t = q.draft t := by
    funext r
    rw [draft, draft, newStart?, newStart?, draftFinish?, draftFinish?, id_of_task? ht,
      h.hasChildren, h.calendar]
  rw [plan_outcome ht, plan_outcome (h.own.trans ht), rangesFor_outcome, rangesFor_outcome,
    h.gather (fun e he => he), hdraft]

end Alike

/-! ## What is written -/

/-- What a change reports, and the row that it leaves to a task. -/
def effectOn (x : TaskId) (done : Changed) : Bool × Option Task :=
  (done.changed, done.project.task? x)

namespace Alike

variable (h : Alike n x q q')
include h

theorem get : q'.get x = q.get x := by
  rw [Project.get, Project.get, h.own]

/-- A write looks at its own row only. -/
theorem write (start finish : Day) (duration : Duration) (anchor? : Option Anchor) :
    (q'.write x start finish duration anchor?).map (effectOn x) =
      (q.write x start finish duration anchor?).map (effectOn x) := by
  rw [Project.write, Project.write, h.get]
  split
  · rfl
  · refine map_bind_congr fun old => congrArg (fun row => Except.ok (_, row)) ?_
    rw [task?_replace, task?_replace, h.own]

theorem revise (revision : Revision) :
    (q'.revise x revision).map (effectOn x) = (q.revise x revision).map (effectOn x) := by
  rw [Project.revise, Project.revise, h.get]
  refine map_bind_congr fun old => ?_
  dsimp only
  rw [revisedSpan, revisedSpan, h.calendar]
  exact map_bind_congr fun span => h.write _ _ _ _

theorem slide (lengths : List Duration) :
    (q'.slide x lengths).map (effectOn x) = (q.slide x lengths).map (effectOn x) := by
  rw [Project.slide, Project.slide, h.get, h.calendar]
  refine map_bind_congr fun old => map_bind_congr fun total => map_bind_congr fun landing => ?_
  dsimp only
  split
  · exact h.write _ _ _ _
  · exact map_bind_congr fun finish => h.write _ _ _ _

theorem startAt (day : Day) :
    (q'.startAt x day).map (effectOn x) = (q.startAt x day).map (effectOn x) := by
  rw [Project.startAt, Project.startAt, h.get, h.calendar, h.hasChildren]
  refine map_bind_congr fun old => ?_
  dsimp only
  split
  · exact h.revise _
  split
  · exact congrArg (fun row => Except.ok (false, row)) h.own
  split
  · exact h.revise _
  · exact h.slide _

/-- **A change of the task makes the same of it.** -/
theorem change {k : Change} (hk : k.task = x) :
    (q'.change k).map (effectOn x) = (q.change k).map (effectOn x) := by
  subst hk
  cases k with
  | revise id revision => exact h.revise revision
  | slide id lengths => exact h.slide lengths
  | startAt id day => exact h.startAt day

/-- A change of the task answers alike and leaves the task alike in both projects. -/
theorem commit {k : Change} (hk : k.task = x) :
    (Host.alone.change k q').1 = (Host.alone.change k q).1 ∧
      (Host.alone.change k q').2.task? x = (Host.alone.change k q).2.task? x := by
  have hsame := h.change hk
  show (Host.alone.commit k q').1 = (Host.alone.commit k q).1 ∧
    (Host.alone.commit k q').2.task? x = (Host.alone.commit k q).2.task? x
  cases hq : q.change k with
  | error fault =>
    rw [hq] at hsame
    rw [commit_of_error hq, commit_of_error (map_eq_error_iff.mp hsame)]
    exact ⟨rfl, h.own⟩
  | ok done =>
    rw [hq] at hsame
    obtain ⟨done', hq', heffect⟩ := exists_of_map_eq_ok hsame
    obtain ⟨hchanged, hrow⟩ := Prod.mk.inj heffect
    rw [commit_of_ok hq, commit_of_ok hq']
    exact ⟨congrArg Except.ok hchanged, hrow⟩

/-! ## One step -/

/-- Scheduling a task answers alike and leaves the task alike in both projects. -/
theorem scheduleTask {n' : Network} (hn : n'.incoming x = n.incoming x)
    (hn' : n.incoming x = q.network.incoming x) (hq : q.Sound) (ht : q.task? x = some t) :
    (scheduleTask Host.alone n' x q').1 = (scheduleTask Host.alone n x q).1 ∧
      (scheduleTask Host.alone n' x q').2.task? x =
        (scheduleTask Host.alone n x q).2.task? x := by
  rw [scheduleTask_alone, scheduleTask_alone, hn, h.plan ht]
  rcases hplan : (q.plan x (n.incoming x)).outcome with fault | _ | plan
  · exact ⟨rfl, h.own⟩
  · exact ⟨rfl, h.own⟩
  · obtain ⟨k, hk, hcommit⟩ := exists_change_of_plan hq (hn' ▸ hplan)
    dsimp only
    rw [hcommit]
    exact h.commit hk

end Alike

namespace AgreeAt

variable (h : AgreeAt x q q')
include h

/-- **Dating the task has the same result, and leaves it with the same row.** -/
theorem attempt (hq : q.Sound) (ht : q.task? x = some t) {result : Except Fault Bool}
    (hstep : Host.attempt (Workplan.scheduleTask Host.alone q.network x) q = (.ok result, r)) :
    ∃ r', Host.attempt (Workplan.scheduleTask Host.alone q.network x) q' = (.ok result, r') ∧
      r'.task? x = r.task? x := by
  obtain ⟨hfine, rfl, rfl⟩ := run_of_attempt hstep
  obtain ⟨hresult, hrow⟩ := h.alike.scheduleTask rfl rfl hq ht
  rw [← hresult] at hfine ⊢
  exact ⟨_, attempt_of_ne_overflow hfine, hrow⟩

end AgreeAt

end Project

/-! ## Whole runs -/

/-- A run has dated some tasks in an order of its own, each with the result and the row that
another run gives it. -/
structure Follows (p q : Project) (trace : List (TaskId × Except Fault Bool))
    (done : List TaskId) (trace' : List (TaskId × Except Fault Bool)) (r : Project) : Prop where
  order : trace'.map Prod.fst = done
  steps : trace' ⊆ trace
  run : Runs p.network p trace' r
  rows : ∀ y ∈ done, r.task? y = q.task? y

namespace Follows

variable {done : List TaskId} {trace' : List (TaskId × Except Fault Bool)}
  {result : Except Fault Bool} {before after : Project}

/-- What leads to a task being dated, the task is found as the other run found it. -/
theorem agreeAt (hp : p.Sound) (h : Follows p q trace done trace' r)
    (hdated : DatedAt p q x result before after) (hfresh : x ∉ done)
    (hearlier : ∀ y ∈ p.network.nodes, p.network.Leads y x → y ∈ done) :
    Project.AgreeAt x before r := by
  have hredates := h.run.redates hp
  rw [h.order] at hredates
  refine ⟨hdated.frame.symm.trans hredates.frame, ?_, fun y hlead => ?_⟩
  · rw [hredates.others x hfresh, hdated.own]
  · rw [hdated.frame.network] at hlead
    have hy := (hp.closed_network.mem_of_leads hlead).1
    rw [h.rows y (hearlier y hy hlead), hdated.sources y hy hlead]

/-- So the task is dated as in the other run. -/
theorem step (hp : p.Sound) (h : Follows p q trace done trace' r)
    (hrun : Runs p.network p trace q) (htrace : p.network.IsOrder (trace.map Prod.fst))
    (hx : x ∈ p.network.nodes) (hfresh : x ∉ done)
    (hearlier : ∀ y ∈ p.network.nodes, p.network.Leads y x → y ∈ done) :
    ∃ trace'' r', Follows p q trace (done ++ [x]) trace'' r' := by
  obtain ⟨⟨y, result⟩, hstep, rfl⟩ := List.mem_map.mp (htrace.perm.symm.subset hx)
  obtain ⟨before, after, hdated⟩ := hrun.exists_datedAt hp htrace hstep
  obtain ⟨t, ht⟩ := Project.exists_task? hx
  have hagree := h.agreeAt hp hdated hfresh hearlier
  have hdating := hdated.step
  rw [← hdated.frame.network] at hdating
  obtain ⟨r', hnext, hrow⟩ := hagree.attempt hdated.sound (hdated.own.trans ht) hdating
  rw [hdated.frame.network] at hnext
  have hlast := step_redates (h.run.sound hp) hnext
  refine ⟨trace' ++ [(y, result)], r', ?_, ?_, ?_, fun z hz => ?_⟩
  · rw [List.map_append, h.order]
    rfl
  · exact List.append_subset.mpr ⟨h.steps, List.cons_subset.mpr ⟨hstep, List.nil_subset _⟩⟩
  · exact Runs.append_iff.mpr ⟨r, h.run, .step hnext (.done r')⟩
  · rcases List.mem_append.mp hz with hz | hz
    · rw [hlast.others z fun e => hfresh (e ▸ hz)]
      exact h.rows z hz
    · rw [List.mem_singleton.mp hz, hrow, hdated.final]

end Follows

/-- **A run in another order takes the same steps**, and ends with the same project. -/
theorem Runs.follow (hp : p.Sound) (h : Runs p.network p trace q)
    (htrace : p.network.IsOrder (trace.map Prod.fst)) (horder : p.network.IsOrder order) :
    ∃ trace', trace'.map Prod.fst = order ∧ trace'.Perm trace ∧ Runs p.network p trace' q := by
  have hnodup : order.Nodup := horder.perm.nodup_iff.mpr hp.ids_nodup
  -- from one task of the order to the next
  have hprefix : ∀ done rest, order = done ++ rest →
      ∃ trace' r, Follows p q trace done trace' r := by
    intro done
    induction done using List.reverseRecOn with
    | nil =>
      exact fun _ _ => ⟨[], p, rfl, List.nil_subset _, .done p,
        fun _ hy => absurd hy List.not_mem_nil⟩
    | append_singleton done x ih =>
      intro rest hsplit
      rw [List.append_assoc, List.singleton_append] at hsplit
      obtain ⟨trace', r, hfollows⟩ := ih (x :: rest) hsplit
      refine hfollows.step hp h htrace ?_ ?_ (horder.earlier done x rest hsplit)
      · exact horder.perm.subset (hsplit ▸ List.mem_append_right _ List.mem_cons_self)
      · rw [hsplit] at hnodup
        exact fun hmem => (List.nodup_append.mp hnodup).2.2 x hmem x List.mem_cons_self rfl
  obtain ⟨trace', r, hfollows⟩ := hprefix order [] (List.append_nil order).symm
  have hperm : order.Perm (trace.map Prod.fst) := horder.perm.trans htrace.perm.symm
  have hsame : r = q := by
    have hr := hfollows.run.redates hp
    have hq := h.redates hp
    refine (hq.frame.symm.trans hr.frame).eq (h.sound hp).ids_nodup fun x => ?_
    by_cases hx : x ∈ order
    · exact hfollows.rows x hx
    · rw [hr.others x (hfollows.order ▸ hx), hq.others x fun hmem => hx (hperm.symm.subset hmem)]
  have hdistinct : trace'.Nodup := .of_map Prod.fst (hfollows.order ▸ hnodup)
  have hlength : trace.length ≤ trace'.length := by
    have hcount := hperm.length_eq
    rw [← hfollows.order, List.length_map, List.length_map] at hcount
    exact hcount.ge
  refine ⟨trace', hfollows.order, ?_, hsame ▸ hfollows.run⟩
  exact (List.subperm_of_subset hdistinct hfollows.steps).perm_of_length_le hlength

/-- Two runs come to the same: both break off at a length that is too large, or they end with the
same project and report the same tasks and the same faults, in whatever order. -/
inductive SameOutcome : Except Fault RunReport × Project → Except Fault RunReport × Project → Prop
  | broken {q q' : Project} : SameOutcome (.error .overflow, q) (.error .overflow, q')
  | done {report report' : RunReport} {q : Project}
    (hmodified : report.modified.Perm report'.modified)
    (herrors : report.errors.Perm report'.errors) : SameOutcome (.ok report, q) (.ok report', q)

/-- What steps report does not depend on their order. -/
theorem RunReport.perm_recordAll {trace trace' : List (TaskId × Except Fault Bool)}
    (h : trace.Perm trace') (layers layers' : Nat) :
    (recordAll ⟨layers, [], [], false⟩ trace).modified.Perm
        (recordAll ⟨layers', [], [], false⟩ trace').modified ∧
      (recordAll ⟨layers, [], [], false⟩ trace).errors.Perm
        (recordAll ⟨layers', [], [], false⟩ trace').errors := by
  rw [modified_recordAll, modified_recordAll, errors_recordAll, errors_recordAll]
  exact ⟨h.filterMap _, h.filterMap _⟩

/-- Two orders of one network lead to the same project and to reports that differ in order
only. -/
theorem sameOutcome_of_isOrder (hp : p.Sound) {order' : List TaskId}
    (horder : p.network.IsOrder order) (horder' : p.network.IsOrder order') (layers layers' : Nat) :
    SameOutcome (scheduleAll Host.alone p.network order ⟨layers, [], [], false⟩ p)
      (scheduleAll Host.alone p.network order' ⟨layers', [], [], false⟩ p) := by
  -- a run that gets through takes the other one along
  have hother : ∀ {order order' : List TaskId} {layers layers' : Nat} {report q},
      p.network.IsOrder order → p.network.IsOrder order' →
      scheduleAll Host.alone p.network order ⟨layers, [], [], false⟩ p = (.ok report, q) →
      ∃ report', scheduleAll Host.alone p.network order' ⟨layers', [], [], false⟩ p =
        (.ok report', q) ∧ report.modified.Perm report'.modified ∧
          report.errors.Perm report'.errors := by
    intro order order' layers layers' report q horder horder' hrun
    obtain ⟨trace, rfl, hruns, rfl⟩ := scheduleAll_eq_ok_iff.mp hrun
    obtain ⟨trace', htrace', hperm, hruns'⟩ := hruns.follow hp horder horder'
    exact ⟨_, scheduleAll_eq_ok_iff.mpr ⟨trace', htrace', hruns', rfl⟩,
      RunReport.perm_recordAll hperm.symm layers layers'⟩
  rcases hrun : scheduleAll Host.alone p.network order ⟨layers, [], [], false⟩ p with
    ⟨fault | report, q⟩
  · rcases hrun' : scheduleAll Host.alone p.network order' ⟨layers', [], [], false⟩ p with
      ⟨fault' | report', q'⟩
    · rw [scheduleAll_error (congrArg Prod.fst hrun), scheduleAll_error (congrArg Prod.fst hrun')]
      exact .broken
    · obtain ⟨report, hdone, -⟩ := hother horder' horder hrun'
      rw [hdone] at hrun
      cases hrun
  · obtain ⟨report', hdone, hmodified, herrors⟩ := hother horder horder' hrun
    rw [hdone]
    exact .done hmodified herrors

/-- **Any order gives the same schedule.**  Take a list of all tasks in which each one comes after
the sources of the edges into it.  Then there are layers, and to date the tasks one by one as they
are listed comes to the same as a run of the scheduler: the same row for every task, the same
modified tasks and the same faults. -/
theorem schedule_anyOrder (hp : p.Reachable) (horder : p.network.IsOrder order) :
    SameOutcome p.schedule (scheduleAll Host.alone p.network order ⟨0, [], [], false⟩ p) := by
  have hclosed := hp.sound.closed_network
  obtain ⟨layers, hlayers⟩ := Network.exists_layers (horder.acyclic hclosed)
  rw [schedule_of_layers hlayers]
  exact sameOutcome_of_isOrder hp.sound (Network.isOrder_of_layers hlayers) horder layers.length 0

instance (n : Network) (x y : TaskId) : Decidable (n.Leads x y) :=
  inferInstanceAs (Decidable (∃ e ∈ n.edges, _))

/-- A list of all tasks is an order if no edge leads back in it. -/
theorem Network.isOrder_of_pairwise (hperm : order.Perm n.nodes)
    (hself : ∀ x ∈ order, ¬ n.Leads x x)
    (hback : order.Pairwise fun x y => ¬ n.Leads y x) : n.IsOrder order where
  perm := hperm
  earlier done x rest hsplit y hy hlead := by
    rw [hsplit] at hself hback hperm
    rcases List.mem_append.mp (hperm.symm.subset hy) with hdone | hrest
    · exact hdone
    · have hlater := (List.pairwise_append.mp hback).2.1
      rcases List.mem_cons.mp hrest with rfl | hrest
      · exact absurd hlead (hself y (List.mem_append_right _ List.mem_cons_self))
      · exact absurd hlead ((List.pairwise_cons.mp hlater).1 y hrest)

/-- The late house, with the handover dated before the walls. -/
theorem schedule_anyOrder_latePlan :
    latePlan.network.IsOrder [⟨1⟩, ⟨4⟩, ⟨2⟩, ⟨3⟩] ∧
      SameOutcome latePlan.schedule (scheduleAll Host.alone latePlan.network
        [⟨1⟩, ⟨4⟩, ⟨2⟩, ⟨3⟩] ⟨0, [], [], false⟩ latePlan) := by
  have horder : latePlan.network.IsOrder [⟨1⟩, ⟨4⟩, ⟨2⟩, ⟨3⟩] :=
    Network.isOrder_of_pairwise (by decide +kernel) (by decide +kernel) (by decide +kernel)
  exact ⟨horder, schedule_anyOrder (Project.reachable_housePlan.after _) horder⟩

end Workplan
