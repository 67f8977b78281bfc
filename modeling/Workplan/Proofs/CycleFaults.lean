import Workplan.Proofs.Cycles
import Workplan.Proofs.Overflows
import Workplan.Proofs.Reactions

/-!
# Cycles that a recomputation reports

A recomputation of the whole project sets out from the tasks that wait for nothing.  It reports a
cycle for what these reach, and for nothing else: neither a change nor whoever watches makes up one.
A cycle that nothing leads to is never met.

- `Act.Cycleless`: an action reports no cycle.
- `Project.isCyclic_of_change`, `Desk.cycleless_commit`: changes and reactions report none.
- `recomputeAll_error_iff`: what a recomputation reports is what the search for its way reports.
- `Desk.runRecomputeAll_cyclic_iff`: which projects are refused for a cycle.
-/

namespace Workplan

open Act Relation

variable {σ α β : Type} {fault : Fault}

/-! ## Actions that report no cycle -/

namespace Act

/-- From no state does the action fail for a cycle. -/
abbrev Cycleless (x : Act σ α) : Prop :=
  FailsOnly (fun _ => True) (fun fault => fault.isCyclic = false) x

/-- A question that never answers with a cycle reports none to the engine that asks it. -/
theorem cycleless_ask (h : Host σ) {f : Project → Except Fault α}
    (hf : ∀ p fault, f p = .error fault → fault.isCyclic = false) : Cycleless (h.ask f) :=
  fun s _ => hf (h.view s)

/-- What is attempted keeps its failure as a value, so no failure is left to be a cycle. -/
theorem cycleless_attempt (x : Act σ α) : Cycleless (Host.attempt x) := failsOnly_attempt rfl

end Act

namespace Project

variable {p : Project} {id : TaskId}

/-- No refusal of an edit is the fault of a dependency cycle. -/
theorem Refuses.isCyclic (h : p.Refuses id fault) : fault.isCyclic = false := by
  cases h <;> rfl

theorem isCyclic_of_get (h : p.get id = .error fault) : fault.isCyclic = false :=
  (refuses_of_get h).isCyclic

/-- **A change is never refused for a cycle.** -/
theorem isCyclic_of_change {k : Change} (h : p.change k = .error fault) :
    fault.isCyclic = false :=
  (refuses_of_change h).isCyclic

theorem isCyclic_of_collision {d : Dependency} (h : p.collision d id = .error fault) :
    fault.isCyclic = false := by
  rw [collision] at h
  rcases cases_of_bind_eq_error h with h | ⟨dependee, -, h⟩
  · exact isCyclic_of_get h
  rcases cases_of_bind_eq_error h with h | ⟨dependant, -, h⟩
  · exact isCyclic_of_get h
  rw [Dependency.collision_eq, map_eq_error_iff] at h
  rw [Dependency.acceptableStart_error h]
  rfl

end Project

/-! ## Resolving and fitting -/

section Engines

variable {host : Host σ} (hcommit : ∀ k, Cycleless (host.change k))
include hcommit

theorem cycleless_fitContainer (container : TaskId) : Cycleless (fitContainer host container) := by
  refine (failsOnly_read _ _).seq fun span? => ?_
  rcases span? with _ | ⟨start, finish⟩
  · exact failsOnly_pure _
  refine (cycleless_ask host fun p fault => Project.isCyclic_of_get).seq fun t => ?_
  split
  · exact failsOnly_pure _
  · exact (failsOnly_tell _ _).seq fun _ => hcommit _

theorem cycleless_fitAll (containers : List TaskId) : Cycleless (fitAll host containers) := by
  induction containers with
  | nil => exact failsOnly_pure _
  | cons container rest ih =>
    exact (cycleless_fitContainer hcommit container).seq fun changed =>
      ih.seq fun others => failsOnly_pure _

theorem cycleless_fit (tasks : List TaskId) : Cycleless (fit host tasks) :=
  (failsOnly_read _ _).seq fun _ => cycleless_fitAll hcommit _

theorem cycleless_resolveTask (id : TaskId) : Cycleless (resolveTask host id) := by
  have hget : Cycleless (host.ask fun p => p.get id) :=
    cycleless_ask host fun p fault => Project.isCyclic_of_get
  refine hget.seq fun old => (cycleless_ask host fun p fault h => ?_).seq fun ks => ?_
  · obtain ⟨d, -, hcollision⟩ := exists_of_mapM_eq_error h
    exact Project.isCyclic_of_collision hcollision
  dsimp only
  split
  · exact failsOnly_pure _
  refine (cycleless_ask host fun p fault h => ?_).seq fun start =>
    (hcommit _).seq fun changed => ?_
  · obtain ⟨reason, rfl⟩ := resolveStart_error h
    rfl
  · split
    · exact hget.seq fun t => (failsOnly_tell _ _).seq fun _ => failsOnly_pure _
    · exact failsOnly_pure _

theorem cycleless_resolveDependency (id : DependencyId) (report : RecomputeReport)
    (givenUp : List TaskId) : Cycleless (resolveDependency host id report givenUp) := by
  refine (failsOnly_read _ _).seq fun found => ?_
  cases found with
  | none => exact failsOnly_pure _
  | some d =>
    dsimp only
    split
    · exact failsOnly_pure _
    refine (cycleless_ask host fun p fault => Project.isCyclic_of_collision).seq fun k => ?_
    split
    · exact failsOnly_pure _
    refine (failsOnly_tell _ _).seq fun _ => FailsOnly.bind (fun _ _ => trivial)
      (cycleless_attempt _) fun s result _ hresult => ?_
    rcases result with fault | changed
    · -- what is passed on is a fault of the attempt
      have hfault := cycleless_resolveTask hcommit d.dependant s trivial fault
        (error_of_attempt hresult)
      cases fault with
      | unsatisfiable task reason =>
        exact (failsOnly_tell _ _).seq fun _ => failsOnly_pure _
      | _ => exact failsOnly_throw hfault
    · cases changed <;> exact failsOnly_pure _

theorem cycleless_resolveAll (ids : List DependencyId) (report : RecomputeReport)
    (givenUp : List TaskId) : Cycleless (resolveAll host ids report givenUp) := by
  induction ids generalizing report givenUp with
  | nil => exact failsOnly_pure _
  | cons id ids ih =>
    exact (cycleless_resolveDependency hcommit id report givenUp).seq fun _ => ih _ _

/-- Resolving what a task reaches never reports a cycle: only the exploration before it does. -/
theorem cycleless_resolveReach (reach : Reach) (report : RecomputeReport)
    (givenUp : List TaskId) : Cycleless (resolveReach host reach report givenUp) := by
  induction reach generalizing report givenUp with
  | nil => exact failsOnly_pure _
  | cons wave farther ih =>
    exact (failsOnly_tell _ _).seq fun _ =>
      (cycleless_resolveAll hcommit _ _ _).seq fun _ => ih _ _

/-- **The cycle that a recomputation of the whole project reports is the one met on the way from
the tasks that wait for nothing.** -/
theorem recomputeAll_error_iff {fit : List TaskId → Act σ (List TaskId)}
    (hnote : ∀ note s, host.view (host.note note s) = host.view s)
    (hfit : ∀ tasks, Cycleless (fit tasks)) {s : σ} {cycle : Cycle} :
    (recomputeAll host fit s).1 = .error (.cyclic cycle) ↔
      (host.view s).reach (host.view s).independent = .error cycle := by
  set sources := (host.view s).independent with hsources
  set told := host.note (.recomputeFromAll sources.length) s with htold
  have hread : host.read Project.independent s = (.ok sources, s) := rfl
  have htell : host.tell (.recomputeFromAll sources.length) s = (.ok (), told) := rfl
  have hreach : host.read (fun p => p.reach sources) told =
      (.ok ((host.view s).reach sources), told) := by
    rw [Host.read, htold, hnote]
  rw [recomputeAll, bind_of_ok hread, bind_of_ok htell, bind_of_ok hreach]
  rcases (host.view s).reach sources with found | reach
  · constructor
    · intro h
      cases h
      rfl
    · intro h
      cases h
      rfl
  · refine iff_of_false (fun h => ?_) fun h => by cases h
    have hrest := ((cycleless_resolveReach hcommit reach .empty []).seq fun report =>
      (hfit report.modified).seq fun adjusted =>
        failsOnly_pure { report with adjusted }) told trivial _ h
    cases hrest

end Engines

/-! ## Reactions -/

namespace Desk

variable {react : Reaction} (hreact : ∀ event, Cycleless (react event))
include hreact

/-- A commit never reports a cycle, whatever its listeners do. -/
theorem cycleless_commit (k : Change) : Cycleless (commit react k) := by
  refine failsOnly_get.seq fun d => ?_
  cases hchange : d.project.change k with
  | error fault => exact failsOnly_throw (Project.isCyclic_of_change hchange)
  | ok r => exact failsOnly_accept hreact r.project r.event? r.changed

theorem cycleless_fitAfter (tasks : List TaskId) : Cycleless (fitAfter react tasks) := by
  refine failsOnly_get.seq fun d => ?_
  split
  · exact (failsOnly_modify _).seq fun _ => failsOnly_pure _
  · exact cycleless_fit (cycleless_commit hreact) tasks

omit hreact in
/-- An engine that is switched on and at rest does its run. -/
theorem guarded_eq (name : EngineName) {off busy : Note} {refused : α} {run : Act Desk α}
    {d : Desk} (hon : (d.engine name).enabled) (hidle : (d.engine name).state = .idle) :
    (guarded name off busy refused run d).1 = (run (d.setEngine name ⟨true, .running 1⟩)).1 := by
  rw [guarded_of_idle hon hidle]

end Desk

/-! ## Projects that are refused -/

namespace Desk

/-- **A recomputation of the whole project reports a cycle if and only if a task that waits for
nothing leads to it.** -/
theorem runRecomputeAll_cyclic_iff {d : Desk} (hp : d.project.Reachable)
    (hon : d.recompute.enabled) (hidle : d.recompute.state = .idle) (n : Nat) :
    (∃ cycle, (runRecomputeAll (announce n) d).1 = .error (.cyclic cycle)) ↔
      ∃ x, d.project.contains x ∧ d.project.incoming x = [] ∧
        ∃ y, ReflTransGen d.project.WaitsFor y x ∧ TransGen d.project.WaitsFor y y := by
  have hnote : ∀ note d, (host (announce n)).view ((host (announce n)).note note d) =
      (host (announce n)).view d :=
    tell_project
  have hreact : ∀ event, Cycleless (announce n event) :=
    failsOnly_announce (E := fun fault => fault.isCyclic = false) rfl n
  have hcommit := cycleless_commit hreact
  have hfit := cycleless_fitAfter hreact
  have hcontains : ∀ x, x ∈ d.project.tasks.map Task.id ↔ d.project.contains x :=
    fun x => List.mem_map.trans Project.contains_iff.symm
  have hrun : ∀ cycle, (runRecomputeAll (announce n) d).1 = .error (.cyclic cycle) ↔
      d.project.reach d.project.independent = .error cycle := by
    intro cycle
    rw [runRecomputeAll, guarded_eq .recompute hon hidle]
    exact recomputeAll_error_iff hcommit hnote hfit
  simp only [hrun, Project.reach_error_iff, hp.sound.mem_independent, hcontains, and_assoc]

/-- A desk where someone schedules after every change.  A survey is followed by a roof and a chimney
that wait for each other. -/
def surveyDesk : Desk :=
  (new ⟨.standard, 0, false, false, true, true⟩).after [
    .listen .scheduler,
    .edit (.addTask "survey" (Day.first.advance 4) (.days 5)),
    .edit (.addTask "roof" (Day.first.advance 4) (.days 1)),
    .edit (.addTask "chimney" (Day.first.advance 4) (.days 1)),
    .edit (.addDependency ⟨1⟩ ⟨2⟩ .finishStart .strong 0),
    .edit (.addDependency ⟨2⟩ ⟨3⟩ .finishStart .strong 0),
    .edit (.addDependency ⟨3⟩ ⟨2⟩ .finishStart .strong 0)]

/-- The cycle behind the survey is reported. -/
theorem runRecomputeAll_cyclic_surveyDesk : surveyDesk.project.Reachable ∧
    surveyDesk.recompute.enabled ∧ surveyDesk.recompute.state = .idle ∧
    ∃ cycle, (runRecomputeAll (announce 3) surveyDesk).1 = .error (.cyclic cycle) := by
  have hp : surveyDesk.project.Reachable := reachable_after _ _
  have hon : surveyDesk.recompute.enabled := by decide +kernel
  have hidle : surveyDesk.recompute.state = .idle := by decide +kernel
  have hwaits : ∀ d ∈ surveyDesk.project.dependencies,
      surveyDesk.project.WaitsFor d.dependant d.dependee := fun d hd => ⟨d, hd, rfl, rfl⟩
  have hroof : surveyDesk.project.WaitsFor ⟨2⟩ ⟨1⟩ :=
    hwaits ⟨⟨0⟩, ⟨1⟩, ⟨2⟩, .finishStart, .strong, 0⟩ (by decide +kernel)
  have hchimney : surveyDesk.project.WaitsFor ⟨3⟩ ⟨2⟩ :=
    hwaits ⟨⟨1⟩, ⟨2⟩, ⟨3⟩, .finishStart, .strong, 0⟩ (by decide +kernel)
  have hback : surveyDesk.project.WaitsFor ⟨2⟩ ⟨3⟩ :=
    hwaits ⟨⟨2⟩, ⟨3⟩, ⟨2⟩, .finishStart, .strong, 0⟩ (by decide +kernel)
  refine ⟨hp, hon, hidle, (runRecomputeAll_cyclic_iff hp hon hidle 3).mpr ?_⟩
  exact ⟨⟨1⟩, by decide +kernel, by decide +kernel, ⟨2⟩, .single hroof,
    .head hback (.single hchimney)⟩

/-- The desk of the walls that follow a survey, and of the roof and the chimney that wait for each
other and for nothing else. -/
def ringDesk : Desk :=
  { new ⟨.standard, 0, false, false, true, true⟩ with project := ringPlan }

/-- A cycle that nothing leads to is not reported: the walls are moved as if it were not there. -/
theorem runRecomputeAll_ringDesk : ringDesk.project.Reachable ∧
    ringDesk.recompute.enabled ∧ ringDesk.recompute.state = .idle ∧
    TransGen ringDesk.project.WaitsFor ⟨3⟩ ⟨3⟩ ∧
    (runRecomputeAll (announce 3) ringDesk).1 = .ok ⟨[⟨2⟩], [], [], false⟩ := by
  have hchimney : ringDesk.project.WaitsFor ⟨4⟩ ⟨3⟩ :=
    ⟨⟨⟨1⟩, ⟨3⟩, ⟨4⟩, .finishStart, .strong, 0⟩, by decide +kernel, rfl, rfl⟩
  have hroof : ringDesk.project.WaitsFor ⟨3⟩ ⟨4⟩ :=
    ⟨⟨⟨2⟩, ⟨4⟩, ⟨3⟩, .finishStart, .strong, 0⟩, by decide +kernel, rfl, rfl⟩
  exact ⟨(Project.Reachable.empty _).after _, rfl, rfl, .head hroof (.single hchimney),
    by decide +kernel⟩

end Desk

end Workplan
