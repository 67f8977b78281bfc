import Workplan.Proofs.Isolation
import Workplan.Session.Desk

/-!
# Plans and what comes of them

A plan is told before it is carried out.  So everything that is carried out has been told, but a
plan can come to nothing, or to other dates: a milestone has no end of its own, and a walk can stop
short or lead back.

- `Project.planned_of_plan`: planning a task tells its plan, if it gets one.
- `Project.planned`, `Project.plannedAll`: what is recorded when tasks are dated.
- `Project.TakesDates`: plans for the task are carried out as they are.
- `DatedAt.fulfilled`: such a plan comes true.
- `records_of_run`: what is recorded in a run, and what comes of it.
-/

namespace Workplan

open Act

variable {p q : Project} {x id : TaskId} {t : Task} {n : Network} {α : Type}

/-! ## What a diagnostic takes -/

/-- The fault in a note, if it tells of one. -/
def Note.fault? : Note → Option Fault
  | .failed fault => some fault
  | _ => none

/-- The plan in a note, if it tells of one. -/
def Note.planned? : Note → Option PlannedDates
  | .planned task start? finish? => some ⟨task, start?, finish?⟩
  | _ => none

namespace Project

/-- What is recorded when a task is dated: its plan, if it gets one. -/
def planned (p : Project) (n : Network) (id : TaskId) : List PlannedDates :=
  match (p.plan id (n.incoming id)).outcome with
  | .ok (some plan) => [⟨id, plan.newStart?, plan.newFinish?⟩]
  | _ => []

/-- What is recorded when tasks are dated one after the other. -/
def plannedAll (n : Network) : List TaskId → Project → List PlannedDates
  | [], _ => []
  | id :: ids, p => p.planned n id ++
      plannedAll n ids (Host.attempt (scheduleTask Host.alone n id) p).2

end Project

namespace Traced

variable {β γ : Type} {Q : Note → Prop}

/-- All notes of a reckoning are of some kind. -/
def Tells (Q : Note → Prop) (x : Traced α) : Prop := ∀ note ∈ x.notes, Q note

/-- The notes of a sequence are those of its parts, the second's only if the first succeeds. -/
theorem notes_bind (x : Traced α) (f : α → Traced β) :
    (x >>= f).notes = x.notes ++ match x.outcome with
      | .ok a => (f a).notes
      | .error _ => [] := by
  change (andThen x f).notes = _
  unfold andThen
  cases x.outcome <;> simp

theorem tells_pure (a : α) : Tells Q (pure a : Traced α) := fun _ h => absurd h List.not_mem_nil

theorem tells_lift (outcome : Except Fault α) : Tells Q (lift outcome) :=
  fun _ h => absurd h List.not_mem_nil

theorem tells_tell {note : Note} (h : Q note) : Tells Q (tell note) :=
  fun _ hnote => List.mem_singleton.mp hnote ▸ h

theorem Tells.bind {x : Traced α} {f : α → Traced β} (hx : Tells Q x) (hf : ∀ a, Tells Q (f a)) :
    Tells Q (x >>= f) := by
  intro note hnote
  rw [notes_bind, List.mem_append] at hnote
  rcases hnote with hnote | hnote
  · exact hx note hnote
  · cases hout : x.outcome with
    | ok a =>
      rw [hout] at hnote
      exact hf a note hnote
    | error fault =>
      rw [hout] at hnote
      exact absurd hnote List.not_mem_nil

/-- Notes that are left out do not matter. -/
theorem filterMap_bind {g : Note → Option γ} {x : Traced α} (f : α → Traced β)
    (hx : Tells (fun note => g note = none) x) :
    (x >>= f).notes.filterMap g = match x.outcome with
      | .ok a => (f a).notes.filterMap g
      | .error _ => [] := by
  rw [notes_bind, List.filterMap_append, List.filterMap_eq_nil_iff.mpr hx, List.nil_append]
  cases x.outcome <;> rfl

end Traced

/-- A note is nothing for a diagnostic. -/
def Note.IsIdle (note : Note) : Prop := note.fault? = none ∧ note.planned? = none

namespace Project

open Traced

/-- Gathering ranges tells of idle dependencies only. -/
theorem tells_gather (edges : List Edge) (f : Fold) : Tells Note.IsIdle (p.gather f edges) := by
  induction edges generalizing f with
  | nil => exact tells_pure _
  | cons e edges ih =>
    refine (tells_lift _).bind fun k? => ?_
    cases k? with
    | none => exact (tells_tell ⟨rfl, rfl⟩).bind fun _ => ih f
    | some k =>
      dsimp only
      split
      · exact (tells_tell ⟨rfl, rfl⟩).bind fun _ => tells_pure _
      · exact ih _

theorem tells_rangesFor (edges : List Edge) : Tells Note.IsIdle (p.rangesFor t edges) := by
  refine (tells_gather edges _).bind fun f => (tells_tell ⟨rfl, rfl⟩).bind fun _ => ?_
  cases t.earliestBegin with
  | none => exact (tells_pure _).bind fun _ => tells_lift _
  | some anchor => exact (tells_tell ⟨rfl, rfl⟩).bind fun _ => tells_lift _

theorem tells_newFinish? (start : Day) (r : Interval) :
    Tells Note.IsIdle (p.newFinish? t start r) := by
  rw [newFinish?]
  cases r.upper.endpoint with
  | none => exact tells_pure _
  | some finish =>
    dsimp only
    cases p.calendar.pulledBack? t.grain finish start with
    | none => exact (tells_pure _).bind fun _ => tells_pure _
    | some pulled => exact (tells_tell ⟨rfl, rfl⟩).bind fun _ => tells_pure _

/-- The notes of a settled plan: one record where the plan moves the task, none where it
is void. -/
theorem notes_settle (id : TaskId) (plan : Plan) :
    (Traced.notes (do
      if plan.isVoid then return none
      else
        if let some finish := plan.newFinish? then
          if finish < plan.start then
            .lift (.error (.invalidDates id plan.start finish))
        .tell (.planned id plan.newStart? plan.newFinish?)
        .tell (.redated plan.task.name plan.task.start plan.start plan.task.finish plan.finish)
        return some plan)).filterMap Note.planned? = match plan.settled with
      | .ok (some plan) => [⟨id, plan.newStart?, plan.newFinish?⟩]
      | _ => [] := by
  rw [Plan.settled]
  by_cases hvoid : plan.isVoid
  · rw [if_pos hvoid, if_pos hvoid]
    rfl
  · rw [if_neg hvoid, if_neg hvoid]
    cases hfinish : plan.newFinish? with
    | none =>
      rw [Option.any_none, if_neg Bool.false_ne_true]
      show _ = [PlannedDates.mk id plan.newStart? plan.newFinish?]
      rw [hfinish]
      rfl
    | some finish =>
      rw [Option.any_some]
      by_cases hlt : finish < plan.start
      · simp only [hlt, decide_true, if_true]
        rfl
      · simp only [hlt, decide_false, if_false, Bool.false_eq_true]
        show _ = [PlannedDates.mk id plan.newStart? plan.newFinish?]
        rw [hfinish]
        rfl

/-- **Planning a task tells its plan, if it gets one.** -/
theorem planned_of_plan (n : Network) (id : TaskId) :
    (p.plan id (n.incoming id)).notes.filterMap Note.planned? = p.planned n id := by
  have hidle : ∀ {β : Type} {x : Traced β}, Tells Note.IsIdle x →
      Tells (fun note => note.planned? = none) x := fun h note hnote => (h note hnote).2
  cases ht : p.task? id with
  | none =>
    have hget : p.get id = .error (.taskNotFound id) := by rw [Project.get, ht]
    have hnone : (p.plan id (n.incoming id)).outcome = .error (.taskNotFound id) := by
      rw [Project.plan, Traced.outcome_bind, Traced.outcome_lift, hget]
      rfl
    rw [planned, hnone, Project.plan, filterMap_bind _ (tells_lift _), Traced.outcome_lift, hget]
  | some t =>
    have hid := id_of_task? ht
    rw [planned, plan_outcome ht, Project.plan, filterMap_bind _ (tells_lift _),
      Traced.outcome_lift, get_of_task? ht]
    dsimp only
    rw [filterMap_bind _ (tells_tell rfl), Traced.outcome_tell]
    dsimp only
    rw [filterMap_bind _ (hidle (tells_rangesFor _))]
    cases (p.rangesFor t (n.incoming id)).outcome with
    | error fault => rfl
    | ok r =>
      dsimp only [Except.bind]
      rw [filterMap_bind _ (tells_tell rfl), Traced.outcome_tell]
      dsimp only
      rw [filterMap_bind _ (hidle (tells_newFinish? _ _)), newFinish?_outcome]
      dsimp only
      rw [← hid]
      exact notes_settle t.id (p.draft t r)

/-- **It tells of no fault**; who carries out the plan does. -/
theorem faultless_of_plan (n : Network) (id : TaskId) :
    (p.plan id (n.incoming id)).notes.filterMap Note.fault? = [] := by
  have hfine : ∀ {β : Type} {x : Traced β}, Tells Note.IsIdle x →
      Tells (fun note => note.fault? = none) x := fun h note hnote => (h note hnote).1
  have htell : ∀ {note : Note}, note.fault? = none →
      Tells (fun note => note.fault? = none) (tell note) := fun h => tells_tell h
  have htold : ∀ plan : Plan, Tells (fun note => note.fault? = none) (do
      tell (.planned id plan.newStart? plan.newFinish?)
      tell (.redated plan.task.name plan.task.start plan.start plan.task.finish plan.finish)
      return some plan) := fun plan =>
    (htell rfl).bind fun _ => (htell rfl).bind fun _ => tells_pure _
  refine List.filterMap_eq_nil_iff.mpr ?_
  show Tells (fun note => note.fault? = none) (p.plan id (n.incoming id))
  refine (tells_lift _).bind fun t => (htell rfl).bind fun _ =>
    (hfine (tells_rangesFor _)).bind fun r => (htell rfl).bind fun _ =>
    (hfine (tells_newFinish? _ _)).bind fun finish? => ?_
  dsimp only
  split
  · exact tells_pure _
  · cases finish? with
    | none => exact htold ⟨t, p.hasChildren id, p.newStart? t r.start, none⟩
    | some finish =>
      have hplan := htold ⟨t, p.hasChildren id, p.newStart? t r.start, some finish⟩
      dsimp only
      split
      · exact (tells_lift _).bind fun _ => hplan
      · exact hplan

end Project

/-! ## Records of a run -/

variable {result : Except Fault Bool} {trace : List (TaskId × Except Fault Bool)}
  {record : PlannedDates}

namespace Project

/-- A record planned for a task names that task. -/
theorem task_of_planned (h : record ∈ p.planned n id) : record.task = id := by
  rw [planned] at h
  split at h
  · rw [List.mem_singleton.mp h]
  · exact absurd h List.not_mem_nil

/-- A task that is different now has been recorded. -/
theorem exists_planned (h : Host.attempt (scheduleTask Host.alone n id) p = (.ok (.ok true), q)) :
    ∃ start? finish?, p.planned n id = [⟨id, start?, finish?⟩] := by
  obtain ⟨-, htrue, -⟩ := run_of_attempt h
  rw [scheduleTask_alone] at htrue
  rw [planned]
  rcases hplan : (p.plan id (n.incoming id)).outcome with fault | _ | plan
  · rw [hplan] at htrue
    cases htrue
  · rw [hplan] at htrue
    cases htrue
  · exact ⟨_, _, rfl⟩

/-- No task is recorded twice, and the records are in the order of dating. -/
theorem tasks_plannedAll_sublist (n : Network) (ids : List TaskId) (p : Project) :
    ((plannedAll n ids p).map PlannedDates.task).Sublist ids := by
  induction ids generalizing p with
  | nil => exact .slnil
  | cons id ids ih =>
    rw [plannedAll, List.map_append]
    have hone : ((p.planned n id).map PlannedDates.task).Sublist [id] := by
      rw [planned]
      split
      · exact .refl _
      · exact List.nil_sublist _
    exact hone.append (ih _)

end Project

/-- **Everything that a run has changed was recorded**, in this order. -/
theorem Runs.sublist_plannedAll (h : Runs n p trace q) : (trace.filterMap fun step =>
    match step.2 with
      | .ok true => some step.1
      | _ => none).Sublist
    ((Project.plannedAll n (trace.map Prod.fst) p).map PlannedDates.task) := by
  induction h with
  | done p => exact .slnil
  | @step p q r id result trace hstep _ ih =>
    rw [List.map_cons, Project.plannedAll, hstep, List.map_append]
    rcases result with fault | _ | _
    · exact ih.trans (List.sublist_append_right _ _)
    · exact ih.trans (List.sublist_append_right _ _)
    · obtain ⟨start?, finish?, hplanned⟩ := Project.exists_planned hstep
      rw [hplanned]
      exact ih.cons_cons id

/-- A record was made in some step. -/
theorem Runs.exists_of_planned (h : Runs n p trace q)
    (hrecord : record ∈ Project.plannedAll n (trace.map Prod.fst) p) :
    ∃ done result rest before after, trace = done ++ (record.task, result) :: rest ∧
      Runs n p done before ∧
      Host.attempt (scheduleTask Host.alone n record.task) before = (.ok result, after) ∧
      Runs n after rest q ∧ record ∈ before.planned n record.task := by
  induction h with
  | done p => exact absurd hrecord List.not_mem_nil
  | @step p q r id result trace hstep hrest ih =>
    rw [List.map_cons, Project.plannedAll, hstep, List.mem_append] at hrecord
    rcases hrecord with hrecord | hrecord
    · cases Project.task_of_planned hrecord
      exact ⟨[], result, trace, p, q, rfl, .done p, hstep, hrest, hrecord⟩
    · obtain ⟨done, result', rest, before, after, rfl, hdone, hlater⟩ := ih hrecord
      exact ⟨(id, result) :: done, result', rest, before, after, rfl, .step hstep hdone, hlater⟩

/-! ## Records that come true -/

/-- Plans for the task are carried out as they are: a container is not a milestone, and a task
without children has days that do not lead back and does not come to the end of the line. -/
structure Project.TakesDates (p : Project) (x : TaskId) : Prop where
  container : ∀ t, p.task? x = some t → p.hasChildren x → t.milestone = false
  leaf : ∀ t, p.task? x = some t → p.hasChildren x = false →
    t.grain = .day ∧ 0 ≤ t.duration.count ∧ p.HasRoom x

/-- The task has the recorded dates, as far as there are any. -/
def PlannedDates.Fulfilled (record : PlannedDates) (p : Project) : Prop :=
  ∃ t, p.task? record.task = some t ∧ (∀ day, record.start? = some day → t.start = day) ∧
    ∀ day, record.finish? = some day → t.finish = day

/-- With a length that does not lead back, dating a task without children does not fail. -/
theorem LeafOutcome.ne_error {c : Calendar} {floors : List Day} {t' : Task}
    (h : LeafOutcome c t floors t' result) (hcount : 0 ≤ t.duration.count) (fault : Fault) :
    result ≠ .error fault := by
  cases h with
  | free => exact fun h => by cases h
  | still => exact fun h => by cases h
  | refused floor start finish _ _ _ hfinish hlt =>
    rw [hfinish] at hlt
    exact absurd (Calendar.le_shiftDays hcount start) (not_le.mpr hlt)
  | moved => exact fun h => by cases h

namespace DatedAt

variable {before after : Project} (h : DatedAt p p.schedule.2 x result before after)
include h

/-- A leaf that takes dates ends on the dates recorded for it. -/
theorem fulfilled_leaf (hc : p.calendar.GapsBelowHorizon) (ht : p.task? x = some t)
    (hleaf : p.hasChildren x = false) (htakes : p.TakesDates x)
    (hrecord : record ∈ before.planned p.network x) :
    result = .ok true ∧ record.Fulfilled p.schedule.2 := by
  obtain ⟨hday, hcount, hroom⟩ := htakes.leaf t ht hleaf
  obtain ⟨accept, t', haccept, ht', hout⟩ := h.placed hc ht hleaf hday
  have hplan := Project.plan_leaf h.sound (h.own.trans ht) (by rwa [h.frame.hasChildren]) hday
    haccept
  rw [h.frame.network, h.frame.calendar, h.frame.binding] at hplan
  rw [Project.planned, hplan] at hrecord
  have hfine := hout.ne_error hcount
  have hstart := hout.start_eq hc hfine fun hne =>
    hroom t' ht' fun heq => hne (Option.some.inj (heq.symm.trans ht))
  cases hfloor : Collision.latest? (t.floors p.calendar (p.binding x) accept) with
  | none =>
    rw [hfloor] at hrecord
    exact absurd hrecord List.not_mem_nil
  | some floor =>
    rw [hfloor, Option.map_some, Option.filter_some] at hrecord
    -- a record is only made where the snapped floor is not the start already
    by_cases hstay : p.calendar.onOrAfter .day floor = t.start
    · rw [if_neg (by simpa using hstay)] at hrecord
      exact absurd hrecord List.not_mem_nil
    · rw [if_pos (by simpa using hstay)] at hrecord
      cases List.mem_singleton.mp hrecord
      have hlands : t'.start = p.calendar.onOrAfter .day floor := by
        rcases hstart with ⟨hnil, -⟩ | ⟨floor', hfloor', hlands⟩
        · rw [hnil] at hfloor
          cases hfloor
        · cases hfloor.symm.trans hfloor'
          exact hlands
      refine ⟨?_, t', ht', fun day hday => ?_, fun day hday => ?_⟩
      · cases hout with
        | free => exact absurd hlands.symm hstay
        | still => exact absurd hlands.symm hstay
        | refused => exact absurd rfl (hfine _)
        | moved => rfl
      · cases hday
        exact hlands
      · cases hday

theorem fulfilled_container (hp : p.Sound) (ht : p.task? x = some t) (hparent : p.hasChildren x)
    (htakes : p.TakesDates x) (hrecord : record ∈ before.planned p.network x) :
    result = .ok true ∧ record.Fulfilled p.schedule.2 := by
  have hspan := htakes.container t ht hparent
  obtain ⟨accept, t', first, last, start, haccept, ht', hfirst, hlast, hstart, hout⟩ :=
    h.contained hp ht hparent
  have hdays := h.childDays_eq hp (hp.ne_root_of_task? ht)
  rw [← hdays] at hfirst hlast
  rw [← h.frame.calendar, ← h.frame.binding] at hstart
  have hplan := Project.plan_container h.sound (h.own.trans ht) (by rwa [h.frame.hasChildren])
    haccept hfirst hlast hstart
  rw [h.frame.network, h.frame.calendar] at hplan
  rw [Project.planned, hplan] at hrecord
  split_ifs at hrecord with hlt hstay
  · exact absurd hrecord List.not_mem_nil
  · exact absurd hrecord List.not_mem_nil
  cases List.mem_singleton.mp hrecord
  cases hout with
  | refused hlt' => exact absurd hlt' hlt
  | still _ hsame hsame' => exact absurd ⟨hsame, hsame'⟩ hstay
  | fitted finish duration _ hfinish _ =>
    have hend : (p.calendar.pulledBack? t.grain last start).getD last = finish := by
      rw [hfinish, Project.containerFinish, hspan]
      rfl
    have hne : ({ t with start, finish, duration } : Task) ≠ t := fun heq =>
      hstay ⟨congrArg Task.start heq, hend.trans (congrArg Task.finish heq)⟩
    refine ⟨by rw [decide_eq_true hne], _, ht', fun day hday => ?_, fun day hday => ?_⟩
    · replace hday : (some start).filter (fun day => day ≠ t.start) = some day := hday
      exact Option.some.inj (Option.filter_eq_some_iff.mp hday).1
    · replace hday : (some ((p.calendar.pulledBack? t.grain last start).getD last)).filter
        (fun day => day ≠ t.finish) = some day := hday
      exact hend.symm.trans (Option.some.inj (Option.filter_eq_some_iff.mp hday).1)

/-- **A plan for a task that takes dates comes true.** -/
theorem fulfilled (hp : p.Sound) (hc : p.calendar.GapsBelowHorizon) (ht : p.task? x = some t)
    (htakes : p.TakesDates x) (hrecord : record ∈ before.planned p.network x) :
    result = .ok true ∧ record.Fulfilled p.schedule.2 := by
  cases hparent : p.hasChildren x with
  | false => exact h.fulfilled_leaf hc ht hparent htakes hrecord
  | true => exact h.fulfilled_container hp ht hparent htakes hrecord

end DatedAt

/-- **What is recorded in a run, and what comes of it.** -/
theorem records_of_run {report : RunReport} {layers : List (List TaskId)} (hp : p.Sound)
    (hc : p.calendar.GapsBelowHorizon) (hrun : p.schedule.1 = .ok report)
    (hlayers : p.network.layers = .ok layers) :
    report.modified.Sublist
        ((Project.plannedAll p.network layers.flatten p).map PlannedDates.task) ∧
      (∀ record ∈ Project.plannedAll p.network layers.flatten p, p.TakesDates record.task →
        record.task ∈ report.modified ∧ record.Fulfilled p.schedule.2) ∧
      ((∀ record ∈ Project.plannedAll p.network layers.flatten p, p.TakesDates record.task) →
        (Project.plannedAll p.network layers.flatten p).map PlannedDates.task =
          report.modified) := by
  obtain ⟨layers', trace, hlayers', htrace, hruns, rfl⟩ :=
    schedule_eq_ok_iff.mp (Prod.ext hrun rfl)
  cases hlayers.symm.trans hlayers'
  have horder := Network.isOrder_of_layers hlayers
  rw [← htrace] at horder ⊢
  have hsublist := hruns.sublist_plannedAll
  rw [RunReport.modified_recordAll, List.nil_append]
  have hcomes : ∀ record ∈ Project.plannedAll p.network (trace.map Prod.fst) p,
      p.TakesDates record.task → (record.task, .ok true) ∈ trace ∧
        record.Fulfilled p.schedule.2 := by
    intro record hrecord htakes
    obtain ⟨done, result, rest, before, after, rfl, hdone, hstep, hrest, hplanned⟩ :=
      hruns.exists_of_planned hrecord
    have hx := horder.perm.subset (List.mem_map_of_mem (List.mem_append_right done
      (List.mem_cons_self (a := (record.task, result)) (l := rest))))
    obtain ⟨t, ht⟩ := Project.exists_task? hx
    obtain ⟨rfl, hfulfilled⟩ := (datedAt_of_runs hp hdone hstep hrest horder).fulfilled hp hc ht
      htakes hplanned
    exact ⟨List.mem_append_right done List.mem_cons_self, hfulfilled⟩
  have hmodified : ∀ x, (x, .ok true) ∈ trace → x ∈ trace.filterMap fun step =>
      match step.2 with
        | .ok true => some step.1
        | _ => none := fun x hx => List.mem_filterMap.mpr ⟨_, hx, rfl⟩
  refine ⟨hsublist, fun record hrecord htakes => ?_, fun hall => ?_⟩
  · obtain ⟨htrue, hfulfilled⟩ := hcomes record hrecord htakes
    exact ⟨hmodified _ htrue, hfulfilled⟩
  · -- each task is recorded once, so nothing is left over
    have hnodup := (Project.tasks_plannedAll_sublist p.network (trace.map Prod.fst) p).nodup
      (horder.perm.nodup_iff.mpr hp.ids_nodup)
    refine (hsublist.eq_of_length_le ?_).symm
    refine (hnodup.subperm fun x hx => ?_).length_le
    obtain ⟨record, hrecord, rfl⟩ := List.mem_map.mp hx
    exact hmodified _ (hcomes record hrecord (hall record hrecord)).1

end Workplan
