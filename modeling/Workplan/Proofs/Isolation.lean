import Workplan.Proofs.LeafStart
import Workplan.Proofs.Refusals
import Workplan.Proofs.Rerun
import Workplan.Proofs.Written

/-!
# What a run of the scheduler changes

A plan is carried out by one change of its task, so dating a task either gives it another row or
leaves the whole project alone.  Each task is dated once, and the report keeps the books: what
it lists as modified has changed, what it lists as failed has not.

- `Project.exists_change_of_plan`: the plan for a task is carried out by one change.
- `StepOutcome`, `Project.stepOutcome_of_attempt`: what dating one task comes to.
- `RunReport.Accounts`: the report says what has changed from one project to another.
- `schedule_accounts`: the report of a run accounts for the run.
-/

namespace Workplan

variable {p q : Project} {x : TaskId} {t : Task} {fault : Fault}

namespace Project

/-! ## One change for a plan -/

/-- Without children, only the start is bounded, and only it is planned. -/
theorem newFinish?_of_leaf (hp : p.Sound) (ht : p.task? x = some t)
    (hleaf : p.hasChildren x = false) {r : Ranges}
    (h : (p.rangesFor t (p.network.incoming x)).outcome = .ok r) :
    (p.draft t r).newFinish? = none := by
  rcases exists_accepts hp ht with ⟨accept, haccept⟩ | ⟨d, hd, hover⟩
  · rw [ranges_leaf hp ht hleaf haccept] at h
    cases h
    rfl
  · rw [rangesFor_outcome, gather_of_unacceptable hp ht hd hover] at h
    cases h

/-- **The plan for a task is carried out by one change of that task.** -/
theorem exists_change_of_plan (hp : p.Sound) {plan : Plan}
    (h : (p.plan x (p.network.incoming x)).outcome = .ok (some plan)) :
    ∃ k : Change, k.task = x ∧ plan.commit Host.alone = Host.alone.change k := by
  have ht := task?_of_plan h
  have hid := id_of_task? ht
  rw [plan_outcome ht] at h
  obtain ⟨r, hr, hsettled⟩ := exists_of_bind_eq_ok h
  rw [Plan.settled] at hsettled
  split_ifs at hsettled with hvoid
  · cases hsettled
  have hplan : p.draft plan.task r = plan := Option.some.inj (Except.ok.inj hsettled)
  have hcontainer : plan.container = p.hasChildren x := by
    rw [← hplan, ← hid]
    rfl
  cases hparent : p.hasChildren x with
  | true =>
    refine ⟨.revise plan.task.id { start? := plan.newStart?, finish? := plan.newFinish? }, hid, ?_⟩
    unfold Plan.commit
    rw [hcontainer, hparent]
    rfl
  | false =>
    -- a leaf is never given a finish, so what is left of the plan is a start
    have hfinish := newFinish?_of_leaf hp ht hparent hr
    rw [hplan] at hvoid hfinish
    obtain ⟨start, hstart⟩ : ∃ start, plan.newStart? = some start := by
      rw [← Option.isSome_iff_exists, ← Option.not_isNone]
      simpa only [Plan.isVoid, hfinish, Option.isNone_none, Bool.and_true, Bool.not_eq_true,
        Bool.not_eq_eq_eq_not, Bool.not_true] using hvoid
    have hsame : plan = ⟨plan.task, false, some start, none⟩ := by
      rw [← hstart, ← hfinish, ← hparent, ← hcontainer]
    refine ⟨.startAt plan.task.id start, hid, ?_⟩
    rw [hsame]
    funext q
    exact commit_of_start start

/-! ## Faults that name a task -/

/-- A refusal is an overflow or names the task it is about. -/
theorem Refuses.names (h : p.Refuses x fault) : fault = .overflow ∨ fault.task? = some x := by
  cases h with
  | overflow => exact .inl rfl
  | unknown | reversed => exact .inr rfl

/-- A task that gets no plan is named, unless some length does not fit. -/
theorem fault_of_plan (hp : p.Sound) (ht : p.task? x = some t)
    (h : (p.plan x (p.network.incoming x)).outcome = .error fault) :
    fault = .overflow ∨ fault.task? = some x := by
  have hid := id_of_task? ht
  rw [plan_outcome ht] at h
  rcases cases_of_bind_eq_error h with h | ⟨r, -, h⟩
  · rw [rangesFor_outcome] at h
    rcases exists_accepts hp ht with ⟨accept, haccept⟩ | ⟨d, hd, hover⟩
    · obtain ⟨strict, advice, children, hgather, -⟩ := gather_incoming hp ht haccept
      rw [hgather] at h
      replace h : (Fold.ofDays strict advice children).ranges t = .error fault := h
      rw [Fold.ranges] at h
      split_ifs at h
      · cases h
        exact .inr (congrArg some hid)
      · cases h
        exact .inr (congrArg some hid)
    · rw [gather_of_unacceptable hp ht hd hover] at h
      cases h
      exact .inl rfl
  · rw [Plan.settled] at h
    split_ifs at h
    cases h
    exact .inr (congrArg some hid)

end Project

/-! ## Dating one task -/

/-- An action whose outcome is kept as a value has not overflowed, and that is its outcome. -/
theorem run_of_attempt {α σ : Type} {act : Act σ α} {s s' : σ} {outcome : Except Fault α}
    (h : Host.attempt act s = (.ok outcome, s')) :
    (act s).1 ≠ .error .overflow ∧ (act s).1 = outcome ∧ (act s).2 = s' := by
  have hfine : (act s).1 ≠ .error .overflow := by
    intro hover
    rcases hrun : act s with ⟨result, r⟩
    rw [hrun] at hover
    cases hover
    rw [Host.attempt, hrun] at h
    cases h
  rw [Project.attempt_of_ne_overflow hfine, Prod.mk.injEq, Except.ok.injEq] at h
  exact ⟨hfine, h⟩

/-- Only an overflow gets through an attempt. -/
theorem overflow_of_attempt {α σ : Type} {act : Act σ α} {s s' : σ}
    (h : Host.attempt act s = (.error fault, s')) : fault = .overflow := by
  unfold Host.attempt at h
  split at h
  · cases h
    rfl
  · cases h

/-- What dating one task comes to, from a project and to another one. -/
inductive StepOutcome (p : Project) (x : TaskId) : Except Fault Bool → Project → Prop
  /-- It cannot be dated, and is named. -/
  | refused {fault : Fault} (h : fault.task? = some x) : StepOutcome p x (.error fault) p
  /-- It stays as it is. -/
  | still : StepOutcome p x (.ok false) p
  /-- It gets another row. -/
  | moved {q : Project} (h : q.task? x ≠ p.task? x) : StepOutcome p x (.ok true) q

/-- A change of a task either moves that task, leaves all as it was, or fails and leaves all as it
was. -/
theorem stepOutcome_of_change (hp : p.Sound) {k : Change}
    (hfine : (Host.alone.change k p).1 ≠ .error .overflow) :
    StepOutcome p k.task (Host.alone.change k p).1 (Host.alone.change k p).2 := by
  rcases hk : Host.alone.change k p with ⟨fault | _ | _, q⟩
  · rw [hk] at hfine
    have hrefused := Project.error_of_change (congrArg Prod.fst hk)
    have hnamed : fault.task? = some k.task := by
      rcases (Project.refuses_of_change hrefused).names with rfl | hnamed
      · exact absurd rfl hfine
      · exact hnamed
    rw [Project.eq_of_commit_error hk]
    exact .refused hnamed
  · rw [Project.eq_of_commit hp.ids_nodup hk]
    exact .still
  · exact .moved (Project.ne_of_commit hk)

/-- **Dating a task gives it another row or leaves the project alone.** -/
theorem stepOutcome_of_attempt {result : Except Fault Bool} (hp : p.Sound)
    (ht : p.task? x = some t)
    (h : Host.attempt (scheduleTask Host.alone p.network x) p = (.ok result, q)) :
    StepOutcome p x result q := by
  obtain ⟨hfine, rfl, rfl⟩ := run_of_attempt h
  have hrun := scheduleTask_alone p.network x p
  rcases hplan : (p.plan x (p.network.incoming x)).outcome with fault | _ | plan
  · rw [hplan] at hrun
    rw [hrun] at hfine ⊢
    refine .refused ((Project.fault_of_plan hp ht hplan).resolve_left ?_)
    rintro rfl
    exact hfine rfl
  · rw [hplan] at hrun
    rw [hrun]
    exact .still
  · obtain ⟨k, rfl, hcommit⟩ := Project.exists_change_of_plan hp hplan
    rw [hplan] at hrun
    replace hrun : _ = Host.alone.change k p := hrun.trans (congrFun hcommit p)
    rw [hrun] at hfine ⊢
    exact stepOutcome_of_change hp hfine

/-! ## The books of a run -/

namespace RunReport

variable {report : RunReport} {trace : List (TaskId × Except Fault Bool)}

theorem modified_recordAll : (report.recordAll trace).modified = report.modified ++
    trace.filterMap fun step => match step.2 with
      | .ok true => some step.1
      | _ => none := by
  induction trace generalizing report with
  | nil => simp [recordAll]
  | cons step trace ih =>
    rw [recordAll, List.foldl_cons, ← recordAll, ih]
    rcases step with ⟨id, fault | _ | _⟩ <;> simp [record]

/-- The tasks that steps report as modified are among those that they date, in the same order. -/
theorem modified_sublist : (trace.filterMap fun step => match step.2 with
    | .ok true => some step.1
    | _ => none).Sublist (trace.map Prod.fst) := by
  induction trace with
  | nil => exact .slnil
  | cons step trace ih =>
    rcases step with ⟨id, fault | _ | _⟩
    · exact ih.cons id
    · exact ih.cons id
    · exact ih.cons_cons id

/-- The report of a run that has led from one project to another: it lists once each task with
another row, and for each fault a task that is as it was.  Nothing else is different. -/
structure Accounts (report : RunReport) (p q : Project) : Prop where
  frame : p.SameFrame q
  mem_modified : ∀ x, x ∈ report.modified ↔ q.task? x ≠ p.task? x
  modified_nodup : report.modified.Nodup
  failed : ∀ fault ∈ report.errors, ∃ x, fault.task? = some x ∧ x ∉ report.modified ∧
    q.task? x = p.task? x

/-- The tasks a report calls modified are those it called so before and those that moved. -/
theorem mem_modified_recordAll : x ∈ (report.recordAll trace).modified ↔
    x ∈ report.modified ∨ (x, .ok true) ∈ trace := by
  rw [modified_recordAll, List.mem_append, List.mem_filterMap]
  refine or_congr_right ⟨?_, fun h => ⟨_, h, rfl⟩⟩
  rintro ⟨⟨y, result⟩, hstep, hy⟩
  rcases result with fault | _ | _
  · cases hy
  · cases hy
  · cases hy
    exact hstep

theorem mem_errors_recordAll : fault ∈ (report.recordAll trace).errors ↔
    fault ∈ report.errors ∨ ∃ x, (x, .error fault) ∈ trace := by
  rw [errors_recordAll, List.mem_append, List.mem_filterMap]
  refine or_congr_right ⟨?_, fun ⟨x, h⟩ => ⟨_, h, rfl⟩⟩
  rintro ⟨⟨y, result⟩, hstep, hy⟩
  rcases result with fault' | changed
  · cases hy
    exact ⟨y, hstep⟩
  · cases hy

end RunReport

/-- What dating a task comes to in the course of a run, said of the whole run. -/
theorem DatedAt.outcome {result : Except Fault Bool} {before after : Project}
    (h : DatedAt p q x result before after) (ht : p.task? x = some t) :
    (result = .ok true ↔ q.task? x ≠ p.task? x) ∧
      ∀ fault, result = .error fault → fault.task? = some x := by
  have hstep := h.step
  rw [← h.frame.network] at hstep
  have hout := stepOutcome_of_attempt h.sound (h.own.trans ht) hstep
  rw [h.final, ← h.own]
  cases hout with
  | refused hnamed =>
    refine ⟨iff_of_false (fun h => by cases h) fun hne => hne rfl, fun fault hfault => ?_⟩
    cases hfault
    exact hnamed
  | still => exact ⟨iff_of_false (fun h => by cases h) fun hne => hne rfl, fun _ h => by cases h⟩
  | moved hne => exact ⟨iff_of_true rfl hne, fun _ h => by cases h⟩

/-- **The results of a run account for it**: its steps date each task once. -/
theorem Runs.accounts {trace : List (TaskId × Except Fault Bool)} (hp : p.Sound)
    (h : Runs p.network p trace q) (horder : p.network.IsOrder (trace.map Prod.fst)) (n : Nat) :
    (RunReport.recordAll ⟨n, [], [], false⟩ trace).Accounts p q := by
  have hnodup : (trace.map Prod.fst).Nodup := horder.perm.nodup_iff.mpr hp.ids_nodup
  -- each task is scheduled once, so its step alone decides what became of it
  have houtcome : ∀ x result, (x, result) ∈ trace →
      (result = .ok true ↔ q.task? x ≠ p.task? x) ∧
        ∀ fault, result = .error fault → fault.task? = some x := by
    intro x result hstep
    obtain ⟨before, after, hdated⟩ := h.exists_datedAt hp horder hstep
    obtain ⟨t, ht⟩ := Project.exists_task? (horder.perm.subset (List.mem_map_of_mem hstep))
    exact hdated.outcome ht
  have hmodified : ∀ x, x ∈ (RunReport.recordAll ⟨n, [], [], false⟩ trace).modified ↔
      q.task? x ≠ p.task? x := by
    intro x
    rw [RunReport.mem_modified_recordAll]
    constructor
    · rintro (hnone | hstep)
      · exact absurd hnone List.not_mem_nil
      · exact (houtcome x _ hstep).1.mp rfl
    · intro hne
      have hx : x ∈ trace.map Prod.fst := by
        by_contra hnot
        exact hne ((h.redates hp).others x hnot)
      obtain ⟨⟨y, result⟩, hstep, rfl⟩ := List.mem_map.mp hx
      have hresult : result = .ok true := (houtcome y result hstep).1.mpr hne
      exact .inr (hresult ▸ hstep)
  refine ⟨(h.redates hp).frame, hmodified, ?_, fun fault hfault => ?_⟩
  · rw [RunReport.modified_recordAll]
    exact hnodup.sublist RunReport.modified_sublist
  · rcases RunReport.mem_errors_recordAll.mp hfault with hnone | ⟨x, hstep⟩
    · exact absurd hnone List.not_mem_nil
    · have hsame : q.task? x = p.task? x := by
        by_contra hne
        cases (houtcome x _ hstep).1.mpr hne
      exact ⟨x, (houtcome x _ hstep).2 fault rfl, fun hmem => (hmodified x).mp hmem hsame, hsame⟩

/-- Only a length that is too large breaks a run off. -/
theorem scheduleAll_error {n : Network} {ids : List TaskId} {report : RunReport}
    (h : (scheduleAll Host.alone n ids report p).1 = .error fault) : fault = .overflow := by
  induction ids generalizing p report with
  | nil => cases h
  | cons id ids ih =>
    rcases hstep : Host.attempt (scheduleTask Host.alone n id) p with ⟨fault' | result, q⟩
    · rw [scheduleAll, Act.bind_of_error hstep] at h
      cases h
      exact overflow_of_attempt hstep
    · rw [scheduleAll_cons ids report hstep] at h
      exact ih h

/-- **A run of the scheduler changes what its report says, and nothing else.**  A run that is
refused changes nothing.  After one that gets through, the tasks with other dates are exactly
the modified ones, each listed once; each fault names a task that kept its dates, start and end
alike; and besides the dates everything is as it was.  A length that is too large is no answer:
there the run breaks off. -/
theorem schedule_accounts (hp : p.Reachable) :
    (∀ report, p.schedule.1 = .ok report → report.Accounts p p.schedule.2) ∧
      ∀ fault, p.schedule.1 = .error fault → fault ≠ .overflow → p.schedule.2 = p := by
  refine ⟨fun report h => ?_, fun fault h hfine => ?_⟩
  · obtain ⟨layers, trace, hlayers, htrace, hrun, rfl⟩ := schedule_eq_ok_iff.mp (Prod.ext h rfl)
    have horder := Network.isOrder_of_layers hlayers
    rw [← htrace] at horder
    exact hrun.accounts hp.sound horder layers.length
  · cases hlayers : p.network.layers with
    | error cycle => rw [schedule_of_cycle hlayers]
    | ok layers =>
      rw [schedule_of_layers hlayers] at h
      exact absurd (scheduleAll_error h) hfine

/-- The walls and the handover of the late house are moved, while the house cannot be fitted. -/
theorem schedule_accounts_latePlan : ∃ report, latePlan.schedule.1 = .ok report ∧
    report.modified = [⟨2⟩, ⟨4⟩] ∧ report.errors.map Fault.task? = [some ⟨3⟩] ∧
    report.Accounts latePlan latePlan.schedule.2 := by
  have hrun : latePlan.schedule.1 = .ok ⟨3, [⟨2⟩, ⟨4⟩],
      [.unsatisfiable ⟨3⟩ (.noStart (.closed ⟨20, by decide⟩ ⟨14, by decide⟩))], false⟩ := by
    decide +kernel
  exact ⟨_, hrun, rfl, rfl, (schedule_accounts (Project.reachable_housePlan.after _)).1 _ hrun⟩

end Workplan
