import Workplan.Proofs.Demands
import Workplan.Scheduling.Run

/-!
# Runs of the scheduler, task by task

A run dates one task after the other.  Each step leaves everything but the dates of its own
task as it was, so a task is dated once, on the final dates of all tasks that lead to it.

- `Project.Redates`: the second project is the first one with other dates for some tasks.
- `Runs`: the steps of a run with their results.
- `runs_of_schedule`, `schedule_of_runs`: a run that succeeds is its steps, and conversely.
- `Runs.exists_step`: what a task is dated from, and what it gets.
-/

namespace Workplan

variable {p q r : Project} {id x y : TaskId} {t : Task}

namespace Project

/-! ## Steps change dates only -/

/-- The second project is the first one, with other dates for some of the tasks. -/
structure Redates (on : TaskId → Prop) (p q : Project) : Prop where
  frame : SameFrame p q
  others : ∀ y, ¬ on y → q.task? y = p.task? y

theorem Redates.refl (on : TaskId → Prop) (p : Project) : Redates on p p :=
  ⟨.refl p, fun _ _ => rfl⟩

/-- A run that redates some tasks redates at most any larger set of them. -/
theorem Redates.mono {on on' : TaskId → Prop} (h : Redates on p q) (hsub : ∀ y, on y → on' y) :
    Redates on' p q :=
  ⟨h.frame, fun y hy => h.others y fun hon => hy (hsub y hon)⟩

/-- Two runs in a row redate what either redates. -/
theorem Redates.trans {on on' : TaskId → Prop} (h : Redates on p q) (h' : Redates on' q r) :
    Redates (fun y => on y ∨ on' y) p r :=
  ⟨h.frame.trans h'.frame, fun y hy =>
    (h'.others y fun hon => hy (.inr hon)).trans (h.others y fun hon => hy (.inl hon))⟩

/-- Writing a row's dates redates that task. -/
theorem Redates.replace {on : TaskId → Prop} {new : Task} (h : Redates on p q)
    (hnodup : (p.tasks.map Task.id).Nodup) (hid : on id) (ht : q.task? id = some t)
    (hnew : new.undated = t.undated) : Redates on p (q.replace new) := by
  have hnewId : new.id = id := by
    rw [← id_of_task? ht]
    exact (congrArg Task.id hnew : new.undated.id = t.undated.id)
  refine ⟨h.frame.trans (sameFrame_replace ?_ ht hnew), fun y hy => ?_⟩
  · rw [h.frame.ids]
    exact hnodup
  · rw [task?_replace_of_ne (show y ≠ new.id from fun e => hy (e.trans hnewId ▸ hid))]
    exact h.others y hy

/-- The project is the given one, or differs from it in the dates of one task. -/
def Redated (p : Project) (id : TaskId) (q : Project) : Prop :=
  q = p ∨ ∃ t new, p.task? id = some t ∧ new.undated = t.undated ∧ q = p.replace new

/-- A write redates its own task only. -/
theorem redated_of_write {start finish : Day} {duration : Duration} {r : Changed}
    (ht : p.task? id = some t) (hgrain : duration.grain = t.grain)
    (h : p.write id start finish duration none = .ok r) : p.Redated id r.project := by
  by_cases hlt : finish < start
  · rw [write_of_lt duration none hlt] at h
    cases h
  · obtain ⟨event?, hw⟩ := write_of_le duration ht hlt
    rw [hw] at h
    cases h
    refine .inr ⟨t, _, ht, ?_, rfl⟩
    simp only [Task.undated, Task.grain]
    rw [hgrain]
    rfl

theorem redated_of_revise {start? finish? : Option Day} {duration? : Option Duration} {r : Changed}
    (hgrain : ∀ t d, p.task? id = some t → duration? = some d → d.grain = t.grain)
    (h : p.revise id { start?, finish?, duration? } = .ok r) : p.Redated id r.project := by
  rw [revise] at h
  obtain ⟨t, ht, h⟩ := exists_of_bind_eq_ok h
  replace ht := get_eq_ok_iff.mp ht
  obtain ⟨⟨finish, duration⟩, hspan, hwrite⟩ := exists_of_bind_eq_ok h
  refine redated_of_write ht ?_ hwrite
  rw [revisedSpan] at hspan
  split at hspan
  · cases hspan
    cases duration? with
    | none => rfl
    | some d => exact hgrain t d ht rfl
  · cases duration? with
    | none =>
      cases hspan
      rw [Calendar.workingLength]
      split <;> rfl
    | some d =>
      obtain ⟨stop, -, hpair⟩ := exists_of_bind_eq_ok hspan
      cases hpair
      exact hgrain t _ ht rfl

theorem redated_of_slide {lengths : List Duration} {r : Changed} (h : p.slide id lengths = .ok r) :
    p.Redated id r.project := by
  rw [slide] at h
  obtain ⟨t, ht, h⟩ := exists_of_bind_eq_ok h
  replace ht := get_eq_ok_iff.mp ht
  obtain ⟨total, -, h⟩ := exists_of_bind_eq_ok h
  obtain ⟨landing, -, h⟩ := exists_of_bind_eq_ok h
  dsimp only at h
  split at h
  · exact redated_of_write ht rfl h
  · obtain ⟨finish, -, hwrite⟩ := exists_of_bind_eq_ok h
    exact redated_of_write ht rfl hwrite

theorem redated_of_startAt {day : Day} {r : Changed} (h : p.startAt id day = .ok r) :
    p.Redated id r.project := by
  rw [startAt] at h
  obtain ⟨t, ht, h⟩ := exists_of_bind_eq_ok h
  replace ht := get_eq_ok_iff.mp ht
  dsimp only at h
  split at h
  · exact redated_of_revise (fun _ _ _ hd => by cases hd) h
  split at h
  · cases h
    exact .inl rfl
  split at h
  · refine redated_of_revise (fun u d hu hd => ?_) h
    cases hu.symm.trans ht
    cases hd
    rfl
  · exact redated_of_slide h

/-- Commits to one of the tasks change dates of these tasks only. -/
theorem keptByCommits_redates {on : TaskId → Prop} (hnodup : (p.tasks.map Task.id).Nodup)
    (hid : on id) : KeptByCommits Host.alone (Redates on p) id := by
  have hredated : ∀ {q r : Project}, Redates on p q → q.Redated id r → Redates on p r := by
    rintro q r hq (rfl | ⟨t, new, ht, hnew, rfl⟩)
    · exact hq
    · exact hq.replace hnodup hid ht hnew
  exact .of_changes
    (fun hq hr => hredated hq (redated_of_revise (fun _ _ _ hd => by cases hd) hr))
    fun hq hr => hredated hq (redated_of_startAt hr)

/-! ## What steps leave alone -/

namespace SameFrame

variable (h : SameFrame p q)
include h

theorem parent? : q.parent? = p.parent? := by
  funext id
  rw [Project.parent?, Project.parent?, holder?, holder?, h.placements]

theorem children : q.children = p.children := by
  funext id
  rw [Project.children, Project.children, h.placements]

theorem hasChildren : q.hasChildren = p.hasChildren := by
  funext id
  rw [Project.hasChildren, Project.hasChildren, h.children]

theorem inside : q.Inside = p.Inside := by
  unfold Inside
  rw [h.parent?]

theorem climb (n : Nat) (id : TaskId) : q.climb n id = p.climb n id := by
  induction n generalizing id with
  | zero => rfl
  | succ n ih =>
    rw [climb_succ, climb_succ, h.parent?]
    cases p.parent? id with
    | none => rfl
    | some parent => simp only [ih]

theorem isAncestor (a id : TaskId) : q.isAncestor a id = p.isAncestor a id := by
  rw [Project.isAncestor, Project.isAncestor, ancestors, ancestors, h.climb, h.placements,
    h.contains]

theorem incoming (id : TaskId) : q.incoming id = p.incoming id := by
  rw [Project.incoming, Project.incoming, h.dependencies]

theorem binding (id : TaskId) : q.binding id = p.binding id := by
  rw [Project.binding, Project.binding, h.dependencies]
  simp only [h.isAncestor]

theorem levels (n : Nat) (level : List TaskId) : q.levels n level = p.levels n level := by
  induction n generalizing level with
  | zero => rfl
  | succ n ih =>
    cases level with
    | nil => rfl
    | cons first rest => simp only [Project.levels, ih, h.children]

/-- Redating changes no edge of the network. -/
theorem network : q.network = p.network := by
  have hedges : q.dependencyEdges = p.dependencyEdges := by
    funext d
    rw [dependencyEdges, dependencyEdges, descendants, descendants, h.levels, h.placements,
      h.children]
  have hnested : ∀ r : Project, r.containmentEdges = (r.tasks.map Task.id).filterMap fun id =>
      (r.parent? id).map (.ofChild id) := by
    intro r
    rw [containmentEdges, List.filterMap_map]
    rfl
  rw [Project.network, Project.network, hnested, hnested, h.ids, h.parent?, h.dependencies, hedges]

end SameFrame

/-- The start a dependency accepts is read off the dates of its two ends. -/
theorem acceptable_eq {source : Task} (hsource : p.task? d.dependee = some source)
    (ht : p.task? x = some t) : p.acceptable d x = d.acceptableStart p.calendar source t := by
  rw [acceptable, collision, get_of_task? hsource, get_of_task? ht]
  show (d.collision p.calendar source t).map _ = _
  rw [Dependency.collision_eq]
  cases d.acceptableStart p.calendar source t <;> rfl

end Project

/-- The accepted start depends on the dependant through its duration only, if at all. -/
theorem Dependency.acceptableStart_congr {d : Dependency} {c : Calendar} {source u : Task}
    (h : d.kind.bindsFinish → u.duration = t.duration) :
    d.acceptableStart c source u = d.acceptableStart c source t := by
  rw [acceptableStart_eq, acceptableStart_eq]
  split
  · next hkind => rw [h hkind]
  · rfl

namespace Project

/-- What a dependency accepts depends on the dates of the dependee, and on the length of the
task if its end is linked. -/
theorem SameFrame.acceptable {u : Task} (h : SameFrame p q) (hp : p.Sound) (hd : d ∈ p.dependencies)
    (hsource : q.task? d.dependee = p.task? d.dependee) (ht : p.task? x = some t)
    (hu : q.task? x = some u) (hlength : d.kind.bindsFinish → u.duration = t.duration) :
    q.acceptable d x = p.acceptable d x := by
  obtain ⟨source, hs⟩ := Project.exists_task? (hp.dependee_mem d hd)
  rw [acceptable_eq hs ht, acceptable_eq (hsource.trans hs) hu, h.calendar,
    Dependency.acceptableStart_congr hlength]

end Project

/-! ## Runs -/

/-- The steps of a run: one task after the other, each with the result of dating it. -/
inductive Runs (n : Network) : Project → List (TaskId × Except Fault Bool) → Project → Prop
  | done (p : Project) : Runs n p [] p
  | step {p q r : Project} {id : TaskId} {result : Except Fault Bool}
      {trace : List (TaskId × Except Fault Bool)}
      (h : Host.attempt (scheduleTask Host.alone n id) p = (.ok result, q))
      (rest : Runs n q trace r) :
      Runs n p ((id, result) :: trace) r

/-- Adds all results of some steps. -/
def RunReport.recordAll (r : RunReport) (trace : List (TaskId × Except Fault Bool)) : RunReport :=
  trace.foldl (fun r step => r.record step.1 step.2) r

variable {n : Network} {trace : List (TaskId × Except Fault Bool)}

/-- One step of a run: the next task is scheduled, its outcome recorded, and the rest follows from
the project it leaves. -/
theorem scheduleAll_cons {result : Except Fault Bool} (ids : List TaskId) (report : RunReport)
    (h : Host.attempt (scheduleTask Host.alone n id) p = (.ok result, q)) :
    scheduleAll Host.alone n (id :: ids) report p =
      scheduleAll Host.alone n ids (report.record id result) q := by
  rw [scheduleAll, Act.bind_of_ok h]
  cases result with
  | ok changed => rfl
  | error fault =>
    have htell : Host.alone.tell (.failed fault) q = (.ok (), q) := rfl
    exact Act.bind_of_ok htell

/-- **A run over some tasks that succeeds consists of their steps.** -/
theorem scheduleAll_eq_ok_iff {ids : List TaskId} {report report' : RunReport} :
    scheduleAll Host.alone n ids report p = (.ok report', q) ↔
      ∃ trace, trace.map Prod.fst = ids ∧ Runs n p trace q ∧ report' = report.recordAll trace := by
  -- a task that fails is recorded and passed over, so only an overflow ends the run
  induction ids generalizing p report with
  | nil =>
    constructor
    · intro h
      cases h
      exact ⟨[], rfl, .done _, rfl⟩
    · rintro ⟨trace, htrace, hrun, rfl⟩
      rw [List.map_eq_nil_iff] at htrace
      subst htrace
      cases hrun
      rfl
  | cons id ids ih =>
    constructor
    · intro h
      rcases hstep : Host.attempt (scheduleTask Host.alone n id) p with ⟨fault | result, r⟩
      · rw [scheduleAll, Act.bind_of_error hstep] at h
        cases h
      · rw [scheduleAll_cons ids report hstep] at h
        obtain ⟨trace, rfl, hrun, rfl⟩ := ih.mp h
        exact ⟨(id, result) :: trace, rfl, .step hstep hrun, rfl⟩
    · rintro ⟨trace, htrace, hrun, rfl⟩
      cases hrun with
      | done => cases htrace
      | step hstep hrest =>
        cases htrace
        rw [scheduleAll_cons _ report hstep]
        exact ih.mpr ⟨_, rfl, hrest, rfl⟩

/-- Scheduling a task redates that task only. -/
theorem step_redates (hp : p.Sound) {result : Except Fault (Except Fault Bool)}
    (h : Host.attempt (scheduleTask Host.alone n id) p = (result, q)) :
    Project.Redates (fun x => x = id) p q := by
  have hkept : KeptByCommits Host.alone (Project.Redates (fun x => x = id) p) id :=
    Project.keptByCommits_redates hp.ids_nodup rfl
  have := (keeps_scheduleTask n hkept).attempt p (.refl _ p)
  rwa [h] at this

theorem step_sound (hp : p.Sound) {result : Except Fault (Except Fault Bool)}
    (h : Host.attempt (scheduleTask Host.alone n id) p = (result, q)) : q.Sound := by
  have := (keeps_scheduleTask n (Project.keptByCommits_sound id)).attempt p hp
  rwa [h] at this

namespace Runs

/-- A run keeps the project sound. -/
theorem sound (h : Runs n p trace q) (hp : p.Sound) : q.Sound := by
  induction h with
  | done p => exact hp
  | step hstep _ ih => exact ih (step_sound hp hstep)

/-- A run changes the dates of its own tasks only. -/
theorem redates (h : Runs n p trace q) (hp : p.Sound) :
    Project.Redates (fun x => x ∈ trace.map Prod.fst) p q := by
  induction h with
  | done p => exact .refl _ p
  | step hstep _ ih =>
    have hfirst := step_redates hp hstep
    have hrest := ih (step_sound hp hstep)
    refine ⟨hfirst.frame.trans hrest.frame, fun y hy => ?_⟩
    rw [List.map_cons, List.mem_cons, not_or] at hy
    rw [hrest.others y hy.2, hfirst.others y hy.1]

/-- A run splits at any point of its trace. -/
theorem append_iff {before after : List (TaskId × Except Fault Bool)} :
    Runs n p (before ++ after) q ↔ ∃ r, Runs n p before r ∧ Runs n r after q := by
  induction before generalizing p with
  | nil =>
    constructor
    · exact fun h => ⟨p, .done p, h⟩
    · rintro ⟨r, hbefore, hafter⟩
      cases hbefore
      exact hafter
  | cons first before ih =>
    constructor
    · intro h
      cases h with
      | step hstep hrest =>
        obtain ⟨r, hbefore, hafter⟩ := ih.mp hrest
        exact ⟨r, .step hstep hbefore, hafter⟩
    · rintro ⟨r, hbefore, hafter⟩
      cases hbefore with
      | step hstep hrest => exact .step hstep (ih.mpr ⟨r, hrest, hafter⟩)

end Runs

/-! ## One step of a run -/

/-- How a task gets its dates in a run from `p` to `q`: at `before` it still has its old dates,
while the tasks that lead to it have their final ones, and at `after` it has its own. -/
structure DatedAt (p q : Project) (x : TaskId) (result : Except Fault Bool)
    (before after : Project) :
    Prop where
  step : Host.attempt (scheduleTask Host.alone p.network x) before = (.ok result, after)
  sound : before.Sound
  frame : p.SameFrame before
  finalFrame : p.SameFrame q
  own : before.task? x = p.task? x
  final : q.task? x = after.task? x
  sources : ∀ y ∈ p.tasks.map Task.id, p.network.Leads y x → before.task? y = q.task? y

/-- A step between two parts of a run finds its task with its old dates, and everything that leads
to it with the final ones. -/
theorem datedAt_of_runs (hp : p.Sound) {before after : Project}
    {done rest : List (TaskId × Except Fault Bool)} {result : Except Fault Bool}
    (hdone : Runs p.network p done before)
    (hstep : Host.attempt (scheduleTask Host.alone p.network x) before = (.ok result, after))
    (hrest : Runs p.network after rest q)
    (horder : p.network.IsOrder ((done ++ (x, result) :: rest).map Prod.fst)) :
    DatedAt p q x result before after := by
  have hnodup := horder.perm.nodup_iff.mpr hp.ids_nodup
  rw [List.map_append, List.map_cons] at hnodup horder
  have hbefore := hdone.redates hp
  have hsound := hdone.sound hp
  have hafter := step_redates hsound hstep
  have hq := hrest.redates (step_sound hsound hstep)
  obtain ⟨hnodupDone, hnodupRest, hapart⟩ := List.nodup_append.mp hnodup
  refine ⟨hstep, hsound, hbefore.frame,
    hbefore.frame.trans (hafter.frame.trans hq.frame), ?_, ?_, fun y hy hlead => ?_⟩
  · exact hbefore.others x fun hmem => hapart x hmem x List.mem_cons_self rfl
  · exact hq.others x (List.nodup_cons.mp hnodupRest).1
  · have hmem := horder.earlier _ x _ rfl y hy hlead
    rw [hq.others y fun h => hapart y hmem y (List.mem_cons_of_mem x h) rfl]
    exact (hafter.others y fun h => hapart y hmem x List.mem_cons_self h).symm

/-- **Every task of a run is dated once, after everything that leads to it.** -/
theorem Runs.exists_datedAt (hp : p.Sound) (h : Runs p.network p trace q)
    (horder : p.network.IsOrder (trace.map Prod.fst)) {result : Except Fault Bool}
    (hx : (x, result) ∈ trace) : ∃ before after, DatedAt p q x result before after := by
  obtain ⟨done, rest, rfl⟩ := List.append_of_mem hx
  obtain ⟨before, hdone, hlater⟩ := Runs.append_iff.mp h
  cases hlater with
  | step hstep hrest =>
    next after => exact ⟨before, after, datedAt_of_runs hp hdone hstep hrest horder⟩

/-! ## Whole runs -/

/-- Without a cycle a run works through the layers in turn. -/
theorem schedule_of_layers {layers : List (List TaskId)} (h : p.network.layers = .ok layers) :
    p.schedule = scheduleAll Host.alone p.network layers.flatten
      ⟨layers.length, [], [], false⟩ p := by
  have hread : Host.alone.read Project.network p = (.ok p.network, p) := rfl
  show Workplan.schedule Host.alone p = _
  rw [schedule, Act.bind_of_ok hread, Act.bind_of_ok (Act.tellAll_alone p.network.notes p), h]
  dsimp only
  rw [Act.bind_apply]
  rcases scheduleAll Host.alone p.network layers.flatten ⟨layers.length, [], [], false⟩ p with
    ⟨fault | report, q⟩
  · rfl
  · rfl

/-- With a cycle a run does nothing but name it (specification §7). -/
theorem schedule_of_cycle {cycle : Cycle} (h : p.network.layers = .error cycle) :
    p.schedule = (.error (.cyclic cycle), p) := by
  have hread : Host.alone.read Project.network p = (.ok p.network, p) := rfl
  show Workplan.schedule Host.alone p = _
  rw [schedule, Act.bind_of_ok hread, Act.bind_of_ok (Act.tellAll_alone p.network.notes p), h]
  rfl

/-- A run changes dates only, also one that fails. -/
theorem frame_schedule (hp : p.Sound) : p.SameFrame p.schedule.2 := by
  have hkept : ∀ id, KeptByCommits Host.alone (Project.Redates (fun _ => True) p) id := fun id =>
    Project.keptByCommits_redates hp.ids_nodup trivial
  exact (keeps_schedule hkept p (.refl _ p)).frame

/-- **A successful run of the scheduler is a run over the layers.** -/
theorem schedule_eq_ok_iff {report : RunReport} : p.schedule = (.ok report, q) ↔
    ∃ layers trace, p.network.layers = .ok layers ∧ trace.map Prod.fst = layers.flatten ∧
      Runs p.network p trace q ∧
      report = RunReport.recordAll ⟨layers.length, [], [], false⟩ trace := by
  cases hlayers : p.network.layers with
  | error cycle =>
    rw [schedule_of_cycle hlayers]
    constructor
    · intro h
      cases h
    · rintro ⟨layers, trace, h, -⟩
      cases h
  | ok layers =>
    rw [schedule_of_layers hlayers, scheduleAll_eq_ok_iff]
    constructor
    · rintro ⟨trace, htrace, hrun, hreport⟩
      exact ⟨layers, trace, rfl, htrace, hrun, hreport⟩
    · rintro ⟨layers', trace, h, htrace, hrun, hreport⟩
      cases h
      exact ⟨trace, htrace, hrun, hreport⟩

namespace RunReport

variable {report : RunReport}

/-- The errors of a report are those of its trace, in order. -/
theorem errors_recordAll : (report.recordAll trace).errors = report.errors ++
    trace.filterMap fun step => match step.2 with
      | .error fault => some fault
      | .ok _ => none := by
  induction trace generalizing report with
  | nil => simp [recordAll]
  | cons step trace ih =>
    rw [recordAll, List.foldl_cons, ← recordAll, ih]
    rcases step with ⟨id, fault | _ | _⟩ <;> simp [record]

/-- A task that could not be dated has its fault in the report. -/
theorem mem_errors {fault : Fault} (h : (x, .error fault) ∈ trace) :
    fault ∈ (report.recordAll trace).errors := by
  rw [errors_recordAll]
  exact List.mem_append_right _ (List.mem_filterMap.mpr ⟨_, h, rfl⟩)

end RunReport

/-- **In a successful run every task is dated**, and a fault is reported. -/
theorem exists_datedAt {report : RunReport} (hp : p.Sound) (h : p.schedule.1 = .ok report)
    (ht : p.task? x = some t) : ∃ result before after,
      DatedAt p p.schedule.2 x result before after ∧
        ∀ fault, result = .error fault → fault ∈ report.errors := by
  obtain ⟨layers, trace, hlayers, htrace, hrun, rfl⟩ := schedule_eq_ok_iff.mp (Prod.ext h rfl)
  have horder := Network.isOrder_of_layers hlayers
  rw [← htrace] at horder
  have hx : x ∈ trace.map Prod.fst := horder.perm.symm.subset (Project.mem_ids_of_task? ht)
  obtain ⟨⟨y, result⟩, hmem, rfl⟩ := List.mem_map.mp hx
  obtain ⟨before, after, hdated⟩ := hrun.exists_datedAt hp horder hmem
  refine ⟨result, before, after, hdated, fun fault hfault => ?_⟩
  rw [hfault] at hmem
  exact RunReport.mem_errors hmem

end Workplan
