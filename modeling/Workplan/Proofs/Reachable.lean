import Workplan.Proofs.Engines
import Workplan.Proofs.Sound

/-!
# Reachable projects

The projects that edits make from an empty one are sound.  The engines do nothing else but edits,
so their runs do not lead out of them.

- `Project.Reachable`: the projects made by edits; `Project.Reachable.sound`.
- `Project.after`: a project after some edits.
- `keptByCommits_sound`, `keptByCommits_reachable`: what the engines commit stays inside.
- `Project.Reachable.schedule`, `Project.Reachable.recomputeAll`: so do their runs.
-/

namespace Workplan

namespace Project

variable {p : Project}

/-- The projects made from an empty one by edits. -/
inductive Reachable : Project → Prop
  | empty (c : Calendar) : Reachable (empty c)
  | edit {p : Project} {e : Edit} {r : Outcome} (hp : Reachable p) (h : p.edit e = .ok r) :
    Reachable r.project

/-- **Every reachable project is sound.** -/
theorem Reachable.sound (hp : p.Reachable) : p.Sound := by
  induction hp with
  | empty c => exact sound_empty c
  | edit _ h ih => exact ih.edit h

/-- The project after some edits.  Refused ones leave no trace. -/
def after (p : Project) : List Edit → Project
  | [] => p
  | e :: edits =>
    match p.edit e with
    | .ok r => r.project.after edits
    | .error _ => p.after edits

/-- What edits lead to from a reachable project is reachable. -/
theorem Reachable.after (hp : p.Reachable) (edits : List Edit) : (p.after edits).Reachable := by
  induction edits generalizing p with
  | nil => exact hp
  | cons e edits ih =>
    rw [Project.after]
    split
    · next r hr => exact ih (.edit hp hr)
    · exact ih hp

/-! ## Runs of the engines -/

/-- Commits keep a project sound. -/
theorem keptByCommits_sound (id : TaskId) : KeptByCommits Host.alone Sound id :=
  .of_changes (fun hp hr => hp.revise hr) fun hp hr => hp.startAt hr

theorem edit_change {k : Change} {r : Changed} (h : p.change k = .ok r) :
    p.edit (.change k) = .ok ⟨r.project, .changed r.changed, r.event?⟩ := by
  rw [edit, h]
  rfl

/-- A commit of an engine is an edit, or changes nothing. -/
theorem keptByCommits_reachable (id : TaskId) : KeptByCommits Host.alone Reachable id := by
  refine .of_changes (fun {p r start? finish?} hp hr => ?_) fun {p r day} hp hr => ?_
  · exact .edit hp (edit_change (k := .revise id { start?, finish? }) hr)
  · exact .edit hp (edit_change (k := .startAt id day) hr)

namespace Reachable

variable (hp : p.Reachable)
include hp

/-- **A run of the scheduler leads from a reachable project to a reachable one.** -/
theorem schedule : p.schedule.2.Reachable := keeps_schedule keptByCommits_reachable p hp

/-- Runs lead from reachable projects to reachable ones. -/
theorem recompute (changed : List TaskId) : (p.recompute changed).2.Reachable :=
  keeps_recompute keptByCommits_reachable (keeps_fit keptByCommits_reachable) changed p hp

theorem recomputeAll : p.recomputeAll.2.Reachable :=
  keeps_recomputeAll keptByCommits_reachable (keeps_fit keptByCommits_reachable) p hp

theorem fit (tasks : List TaskId) : (p.fit tasks).2.Reachable :=
  keeps_fit keptByCommits_reachable tasks p hp

end Reachable

/-- A survey of five days, and from the day after it a house with walls and a handover. -/
def housePlan : Project :=
  (empty .standard).after [
    .addTask "survey" (Day.first.advance 4) (.days 5),
    .addTask "walls" (Day.first.advance 6) (.days 2),
    .addTask "house" (Day.first.advance 6) (.days 3),
    .addMilestone "handover" (Day.first.advance 5),
    .place ⟨2⟩ ⟨3⟩,
    .place ⟨4⟩ ⟨3⟩,
    .addDependency ⟨1⟩ ⟨3⟩ .finishStart .rubber 1]

theorem reachable_housePlan : housePlan.Reachable := (Reachable.empty _).after _

end Project

end Workplan
