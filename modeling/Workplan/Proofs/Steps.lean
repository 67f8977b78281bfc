import Workplan.Proofs.Resolving
import Workplan.Proofs.Written

/-!
# What a recomputation has done

A recomputation that gets through has resolved some dependencies one after the other and fitted
containers.  Each step either left the project alone or gave one dependant another start.

- `Resolves`: what resolving one dependency comes to.
- `of_resolveAll`, `of_resolveReaches`: what the steps preserve holds after all of them.
- `Accounted`: what has changed so far is what the report lists.
- `Project.exists_of_recompute`, `Project.exists_of_recomputeAll`: the parts of a whole run.
-/

namespace Workplan

open Act

variable {p q r : Project} {id x : TaskId} {t : Task} {fault : Fault}
  {report report' : RecomputeReport} {givenUp givenUp' : List TaskId}

/-! ## Resolving one dependency -/

/-- What resolving one dependency comes to, from a report and the tasks given up, to the same
afterwards. -/
inductive Resolves (p : Project) (id : DependencyId) (report : RecomputeReport)
    (givenUp : List TaskId) : RecomputeReport → List TaskId → Project → Prop
  /-- The dependency is gone, or its dependant was given up before. -/
  | passed (h : ∀ d, p.dependency? id = some d → d.dependant ∈ givenUp) :
    Resolves p id report givenUp report givenUp p
  /-- It asks for nothing. -/
  | kept {d : Dependency} {k : Collision} (hd : p.dependency? id = some d)
    (hk : p.collision d d.dependant = .ok k) (hkept : k.active = false) :
    Resolves p id report givenUp report givenUp p
  /-- Its dependant already is where it is sent. -/
  | still {d : Dependency} {k : Collision} (hd : p.dependency? id = some d)
    (hk : p.collision d d.dependant = .ok k) (hactive : k.active)
    (hrun : resolveTask Host.alone d.dependant p = (.ok false, p)) :
    Resolves p id report givenUp report givenUp p
  /-- Its dependant is moved. -/
  | moved {d : Dependency} {k : Collision} {q : Project} (hd : p.dependency? id = some d)
    (hk : p.collision d d.dependant = .ok k) (hactive : k.active)
    (hrun : resolveTask Host.alone d.dependant p = (.ok true, q)) :
    Resolves p id report givenUp (report.addModified d.dependant) givenUp q
  /-- No start suits its dependant, which is given up. -/
  | givenUp {d : Dependency} {k : Collision} {task : TaskId} {reason : Conflict}
    (hd : p.dependency? id = some d) (hk : p.collision d d.dependant = .ok k) (hactive : k.active)
    (hrun : resolveTask Host.alone d.dependant p = (.error (.unsatisfiable task reason), p)) :
    Resolves p id report givenUp
      { report with failures := report.failures ++ [.unsatisfiable task reason] }
      (d.dependant :: givenUp) p

/-- A task that is not moved leaves the project alone. -/
theorem eq_of_resolveTask (hnodup : (p.tasks.map Task.id).Nodup)
    {outcome : Except Fault Bool} (h : resolveTask Host.alone x p = (outcome, q))
    (hsame : outcome ≠ .ok true) : q = p := by
  rw [resolveTask_alone] at h
  split at h
  · exact (congrArg Prod.snd h).symm
  · exact (congrArg Prod.snd h).symm
  · rcases outcome with fault | _ | _
    · exact Project.eq_of_commit_error h
    · exact Project.eq_of_commit hnodup h
    · exact absurd rfl hsame

/-- Moving a task leaves the dates of all others alone. -/
theorem redates_of_resolveTask (hnodup : (p.tasks.map Task.id).Nodup) {outcome : Except Fault Bool}
    (h : resolveTask Host.alone x p = (outcome, q)) : p.Redates (fun y => y = x) q := by
  have hkept : KeptByCommits Host.alone (p.Redates fun y => y = x) x :=
    Project.keptByCommits_redates hnodup rfl
  have := keeps_resolveTask hkept p (.refl _ p)
  rwa [h] at this

/-- **A dependency that was resolved came to one of these.** -/
theorem resolves_of_ok (hnodup : (p.tasks.map Task.id).Nodup) {id : DependencyId}
    (h : resolveDependency Host.alone id report givenUp p = (.ok (report', givenUp'), q)) :
    Resolves p id report givenUp report' givenUp' q := by
  have hread : Host.alone.read (fun p => p.dependency? id) p = (.ok (p.dependency? id), p) := rfl
  rw [resolveDependency, bind_of_ok hread] at h
  cases hd : p.dependency? id with
  | none =>
    rw [hd] at h
    cases h
    exact .passed fun d hd' => by cases hd.symm.trans hd'
  | some d =>
    rw [hd] at h
    dsimp only at h
    split at h
    · next hgiven =>
      cases h
      refine .passed fun d' hd' => ?_
      cases hd.symm.trans hd'
      simpa using hgiven
    -- from here the run is opened one action after the other, in the order it makes them
    obtain ⟨k, s, hask, h⟩ := exists_of_bind_ok h
    rw [ask_alone, Prod.mk.injEq] at hask
    obtain ⟨hk, rfl⟩ := hask
    split at h
    · next hkept =>
      cases h
      exact .kept hd hk (by simpa using hkept)
    next hactive =>
    rw [Bool.not_eq_true', Bool.not_eq_false] at hactive
    obtain ⟨_, s, htell, h⟩ := exists_of_bind_ok h
    cases htell
    obtain ⟨outcome, s, hattempt, h⟩ := exists_of_bind_ok h
    -- the run came through the attempt, so the task's own outcome was no overflow
    have hrun : resolveTask Host.alone d.dependant p = (outcome, s) := by
      unfold Host.attempt at hattempt
      split at hattempt
      · cases hattempt
      · next heq =>
        cases hattempt
        exact heq
    rcases outcome with fault | _ | _
    · cases fault with
      | unsatisfiable task reason =>
        cases eq_of_resolveTask hnodup hrun fun h => by cases h
        obtain ⟨_, s, htell, h⟩ := exists_of_bind_ok h
        cases htell
        cases h
        exact .givenUp hd hk hactive hrun
      | _ => cases h
    · cases eq_of_resolveTask hnodup hrun fun h => by cases h
      cases h
      exact .still hd hk hactive hrun
    · cases h
      exact .moved hd hk hactive hrun

/-! ## One dependency after the other -/

section

variable {σ : Type} {host : Host σ} {s s' : σ}

/-- What each step preserves, given what is left to do, holds when nothing is left. -/
theorem of_resolveAll (I : (rest : List DependencyId) → RecomputeReport → List TaskId → σ → Prop)
    (hstep : ∀ {id rest report givenUp report' givenUp' s s'}, I (id :: rest) report givenUp s →
      resolveDependency host id report givenUp s = (.ok (report', givenUp'), s') →
      I rest report' givenUp' s')
    {ids : List DependencyId} (h : I ids report givenUp s)
    (hrun : resolveAll host ids report givenUp s = (.ok (report', givenUp'), s')) :
    I [] report' givenUp' s' := by
  induction ids generalizing report givenUp s with
  | nil =>
    cases hrun
    exact h
  | cons id ids ih =>
    obtain ⟨⟨report₁, givenUp₁⟩, s₁, hfirst, hrest⟩ := exists_of_bind_ok hrun
    exact ih (hstep h hfirst) hrest

end

theorem resolveAll_append {first rest : List DependencyId} {middle : RecomputeReport × List TaskId}
    {outcome : RecomputeReport × List TaskId}
    (hfirst : resolveAll Host.alone first report givenUp p = (.ok middle, q))
    (hrest : resolveAll Host.alone rest middle.1 middle.2 q = (.ok outcome, r)) :
    resolveAll Host.alone (first ++ rest) report givenUp p = (.ok outcome, r) := by
  induction first generalizing report givenUp p with
  | nil =>
    cases hfirst
    exact hrest
  | cons id first ih =>
    obtain ⟨next, s, hstep, hlater⟩ := exists_of_bind_ok hfirst
    rw [List.cons_append, resolveAll, bind_of_ok hstep]
    exact ih hlater

/-- Resolving by distance is resolving one after the other. -/
theorem exists_of_resolveReach {reach : Reach}
    (h : resolveReach Host.alone reach report givenUp p = (.ok report', q)) :
    ∃ givenUp', resolveAll Host.alone (reach.flatMap Prod.snd) report givenUp p =
      (.ok (report', givenUp'), q) := by
  induction reach generalizing report givenUp p with
  | nil =>
    cases h
    exact ⟨givenUp, rfl⟩
  | cons wave farther ih =>
    obtain ⟨_, s, htell, h⟩ := exists_of_bind_ok h
    cases htell
    obtain ⟨middle, s, hnear, h⟩ := exists_of_bind_ok h
    obtain ⟨givenUp', hfar⟩ := ih h
    exact ⟨givenUp', resolveAll_append hnear hfar⟩

/-- What working off each changed task preserves holds after all of them. -/
theorem of_resolveReaches (I : RecomputeReport → Project → Prop)
    (hstep : ∀ {report report' p q ids givenUp}, I report p →
      resolveAll Host.alone ids report [] p = (.ok (report', givenUp), q) → I report' q)
    {reaches : List (TaskId × Reach)} (h : I report p)
    (hrun : resolveReaches Host.alone reaches report p = (.ok report', q)) : I report' q := by
  induction reaches generalizing report p with
  | nil =>
    cases hrun
    exact h
  | cons first rest ih =>
    obtain ⟨_, s, htell, hrun⟩ := exists_of_bind_ok hrun
    cases htell
    obtain ⟨middle, s, hfirst, hrest⟩ := exists_of_bind_ok hrun
    obtain ⟨givenUp, hall⟩ := exists_of_resolveReach hfirst
    exact ih (hstep h hall) hrest

/-! ## What has changed so far -/

/-- A recomputation of `p` is at `q`.  It has changed the dates of the tasks that it reports as
moved and of no others, and each of these waits for something. -/
structure Accounted (p : Project) (report : RecomputeReport) (q : Project) : Prop where
  sound : q.Sound
  redates : p.Redates (· ∈ report.modified) q
  waits : ∀ x ∈ report.modified, ∃ d ∈ p.dependencies, d.dependant = x

namespace Accounted

theorem initial (hp : p.Sound) : Accounted p .empty p :=
  ⟨hp, .refl _ p, fun _ hx => absurd hx List.not_mem_nil⟩

/-- A task that was moved has other dates now, and nothing else has. -/
theorem of_moved (hp : p.Sound) (h : Accounted p report q) {d : Dependency} {outcome : Bool}
    (hd : d ∈ q.dependencies) (hrun : resolveTask Host.alone d.dependant q = (.ok outcome, r)) :
    Accounted p (report.addModified d.dependant) r := by
  have hself : d.dependant ∈ (report.addModified d.dependant).modified :=
    RecomputeReport.mem_addModified.mpr (.inr rfl)
  have hredates := keeps_resolveTask (Project.keptByCommits_redates hp.ids_nodup hself) q
    (h.redates.mono fun x hx => RecomputeReport.mem_addModified.mpr (.inl hx))
  have hsound := keeps_resolveTask (Project.keptByCommits_sound d.dependant) q h.sound
  rw [hrun] at hredates hsound
  refine ⟨hsound, hredates, fun x hx => ?_⟩
  rcases RecomputeReport.mem_addModified.mp hx with hx | rfl
  · exact h.waits x hx
  · exact ⟨d, h.redates.frame.dependencies ▸ hd, rfl⟩

/-- **Resolving a dependency is accounted for.** -/
theorem step (hp : p.Sound) (h : Accounted p report q) {id : DependencyId}
    (hrun : resolveDependency Host.alone id report givenUp q = (.ok (report', givenUp'), r)) :
    Accounted p report' r := by
  cases resolves_of_ok h.sound.ids_nodup hrun with
  | passed => exact h
  | kept => exact h
  | still => exact h
  | moved hd _ _ hrun => exact h.of_moved hp (List.mem_of_find?_eq_some hd) hrun
  | givenUp => exact ⟨h.sound, h.redates, h.waits⟩

theorem resolveAll (hp : p.Sound) (h : Accounted p report q) {ids : List DependencyId}
    (hrun : Workplan.resolveAll Host.alone ids report givenUp q = (.ok (report', givenUp'), r)) :
    Accounted p report' r :=
  of_resolveAll (fun _ report _ q => Accounted p report q) (fun h hrun => h.step hp hrun) h hrun

theorem resolveReaches (hp : p.Sound) (h : Accounted p report q) {reaches : List (TaskId × Reach)}
    (hrun : Workplan.resolveReaches Host.alone reaches report q = (.ok report', r)) :
    Accounted p report' r :=
  of_resolveReaches (fun report q => Accounted p report q) (fun h hrun => h.resolveAll hp hrun) h
    hrun

end Accounted

/-! ## Whole runs -/

namespace Project

/-- A recomputation that gets through resolves what the changed tasks reach, and then fits the
containers of these and of the tasks that were moved. -/
theorem exists_of_recompute {changed : List TaskId}
    (h : p.recompute changed = (.ok report, r)) :
    ∃ reaches resolved adjusted q, p.reaches changed = .ok reaches ∧
      resolveReaches Host.alone reaches .empty p = (.ok resolved, q) ∧
      q.fit (changed ++ resolved.modified) = (.ok adjusted, r) ∧
      report = { resolved with adjusted } := by
  cases hreaches : p.reaches changed with
  | error fault =>
    rw [recompute_of_error hreaches] at h
    cases h
  | ok reaches =>
    rw [recompute_of_reaches hreaches] at h
    obtain ⟨resolved, q, hresolved, h⟩ := exists_of_bind_ok h
    obtain ⟨adjusted, s, hfit, h⟩ := exists_of_bind_ok h
    cases h
    exact ⟨reaches, resolved, adjusted, q, rfl, hresolved, hfit, rfl⟩

/-- So does one of the whole project. -/
theorem exists_of_recomputeAll (h : p.recomputeAll = (.ok report, r)) :
    ∃ reach resolved givenUp adjusted q, p.reach p.independent = .ok reach ∧
      resolveAll Host.alone (reach.flatMap Prod.snd) .empty [] p = (.ok (resolved, givenUp), q) ∧
      q.fit resolved.modified = (.ok adjusted, r) ∧ report = { resolved with adjusted } := by
  rw [recomputeAll_eq] at h
  cases hreach : p.reach p.independent with
  | error cycle =>
    rw [hreach] at h
    cases h
  | ok reach =>
    rw [hreach] at h
    obtain ⟨resolved, q, hresolved, h⟩ := exists_of_bind_ok h
    obtain ⟨adjusted, s, hfit, h⟩ := exists_of_bind_ok h
    cases h
    obtain ⟨givenUp, hall⟩ := exists_of_resolveReach hresolved
    exact ⟨reach, resolved, givenUp, adjusted, q, rfl, hall, hfit, rfl⟩

end Project

end Workplan
