import Workplan.Project.Edit
import Workplan.Proofs.Moves

/-!
# What edits write

Every change comes down to one new row for its task, and the end of a row is written in few ways
only.  An operation on the structure answers one project, where its conditions hold.  What edits
preserve follows from that.

- `Task.Spans`: the dates and durations that a change may give to a task.
- `Task.Renewed`: a row after a change, from the row before.
- `Project.writes_of_change`, `Project.renews_of_change`: a change renews one row, or does nothing.
- `Project.exists_of_insertTask`, `Project.exists_of_place` and others: what an operation on the
  structure has asked for, and the project that it answers.
- `Project.Origin`, `Project.origin_of_edit`: where the rows of an edited project come from.
-/

namespace Workplan

/-- The task that a change is about. -/
def Change.task : Change → TaskId
  | .revise task _ => task
  | .slide task _ => task
  | .startAt task _ => task

/-- Start, end and duration as a change may give them to a task. -/
inductive Task.Spans (c : Calendar) (old : Task) : Day → Day → Duration → Prop
  /-- A milestone ends where it starts. -/
  | point {start : Day} {grain : Grain} (h : old.milestone) : Spans c old start start ⟨0, grain⟩
  /-- A milestone is moved with the duration that it has. -/
  | moved {start : Day} (h : old.milestone) : Spans c old start start old.duration
  /-- The end lies a duration away from the start. -/
  | walked {start finish : Day} {length : Duration} (h : old.milestone = false)
    (hwalk : c.shift start length = .ok finish) : Spans c old start finish length
  /-- The duration is the working time between the dates. -/
  | measured {start finish : Day} (h : old.milestone = false) :
    Spans c old start finish (c.workingLength old.grain start finish)

/-- A row after a change of its task, from the row before. -/
structure Task.Renewed (c : Calendar) (old new : Task) : Prop where
  same : new = { old with
    start := new.start, finish := new.finish, duration := new.duration, anchor := new.anchor }
  le : new.start ≤ new.finish
  spans : old.Spans c new.start new.finish new.duration

namespace Task.Renewed

variable {c : Calendar} {old new : Task} (h : old.Renewed c new)
include h

theorem id : new.id = old.id := by rw [h.same]

theorem name : new.name = old.name := by rw [h.same]

theorem milestone : new.milestone = old.milestone := by rw [h.same]

end Task.Renewed

namespace Project

variable {p q : Project} {id : TaskId} {t old new : Task} {start finish day : Day}
  {duration : Duration} {done : Changed}

/-! ## Changes -/

/-- The change has written the row of a task once, with dates and a duration that it may get. -/
def Writes (p : Project) (id : TaskId) (done : Changed) : Prop :=
  ∃ old start finish duration anchor?, p.task? id = some old ∧
    old.Spans p.calendar start finish duration ∧
    p.write id start finish duration anchor? = .ok done

/-- A revision is one write of the row. -/
theorem writes_of_revise {revision : Revision} (h : p.revise id revision = .ok done) :
    p.Writes id done := by
  rw [revise] at h
  obtain ⟨old, ht, h⟩ := exists_of_bind_eq_ok h
  replace ht := get_eq_ok_iff.mp ht
  obtain ⟨⟨finish, duration⟩, hspan, hwrite⟩ := exists_of_bind_eq_ok h
  refine ⟨old, _, finish, duration, revision.anchor?, ht, ?_, hwrite⟩
  rw [revisedSpan] at hspan
  split at hspan
  · next hpoint =>
    cases hspan
    exact .point hpoint
  · next hextended =>
    rw [Bool.not_eq_true] at hextended
    split at hspan
    · obtain ⟨finish, hwalk, hpair⟩ := exists_of_bind_eq_ok hspan
      cases hpair
      exact .walked hextended hwalk
    · cases hspan
      exact .measured hextended

theorem writes_of_slide {lengths : List Duration} (h : p.slide id lengths = .ok done) :
    p.Writes id done := by
  rw [slide] at h
  obtain ⟨old, ht, h⟩ := exists_of_bind_eq_ok h
  replace ht := get_eq_ok_iff.mp ht
  obtain ⟨total, -, h⟩ := exists_of_bind_eq_ok h
  obtain ⟨landing, -, h⟩ := exists_of_bind_eq_ok h
  dsimp only at h
  split at h
  · next hpoint => exact ⟨old, _, _, old.duration, none, ht, .moved hpoint, h⟩
  · next hextended =>
    obtain ⟨finish, hwalk, hwrite⟩ := exists_of_bind_eq_ok h
    exact ⟨old, _, finish, old.duration, none, ht,
      .walked (Bool.eq_false_iff.mpr hextended) hwalk, hwrite⟩

/-- **A change writes the row of its task once, or does nothing.** -/
theorem writes_of_change {k : Change} (h : p.change k = .ok done) :
    done = ⟨p, false, none⟩ ∨ p.Writes k.task done := by
  cases k with
  | revise id revision => exact .inr (writes_of_revise h)
  | slide id lengths => exact .inr (writes_of_slide h)
  | startAt id day =>
    rw [change, startAt] at h
    obtain ⟨old, -, h⟩ := exists_of_bind_eq_ok h
    dsimp only at h
    split_ifs at h
    · exact .inr (writes_of_revise h)
    · cases h
      exact .inl rfl
    · exact .inr (writes_of_revise h)
    · exact .inr (writes_of_slide h)

/-- The change has renewed the row of a task, and says whether the row is another one now. -/
def Renews (p : Project) (id : TaskId) (done : Changed) : Prop :=
  ∃ old new, p.task? id = some old ∧ old.Renewed p.calendar new ∧
    done.project = p.replace new ∧ done.changed = decide (new ≠ old)

/-- A write renews the row. -/
theorem Writes.renews (h : p.Writes id done) : p.Renews id done := by
  obtain ⟨old, start, finish, duration, anchor?, ht, hspans, hwrite⟩ := h
  rw [write] at hwrite
  split at hwrite
  · cases hwrite
  next hle =>
  rw [get_of_task? ht] at hwrite
  cases hwrite
  exact ⟨old, _, ht, ⟨rfl, not_lt.mp hle, hspans⟩, rfl, rfl⟩

theorem renews_of_revise {revision : Revision} (h : p.revise id revision = .ok done) :
    p.Renews id done :=
  (writes_of_revise h).renews

/-- **A change renews the row of its task, or does nothing.** -/
theorem renews_of_change {k : Change} (h : p.change k = .ok done) :
    (done.project = p ∧ done.changed = false) ∨ p.Renews k.task done := by
  rcases writes_of_change h with rfl | hwrites
  · exact .inl ⟨rfl, rfl⟩
  · exact .inr hwrites.renews

/-- A change that reports no difference makes none. -/
theorem eq_of_change (hnodup : (p.tasks.map Task.id).Nodup) {k : Change}
    (h : p.change k = .ok done) (hsame : done.changed = false) : done.project = p := by
  rcases renews_of_change h with ⟨hproject, -⟩ | ⟨old, new, ht, -, hproject, hchanged⟩
  · exact hproject
  · rw [hchanged, decide_eq_false_iff_not, not_not] at hsame
    rw [hproject, hsame]
    exact replace_self hnodup (by rwa [id_of_task? ht])

/-- **A change reports a difference exactly if there is one.** -/
theorem changed_iff_of_change {k : Change} (h : p.change k = .ok done) :
    done.changed = true ↔ done.project.task? k.task ≠ p.task? k.task := by
  rcases renews_of_change h with ⟨hsame, hchanged⟩ | ⟨old, new, ht, hnew, hproject, hchanged⟩
  · rw [hsame, hchanged]
    exact iff_of_false Bool.false_ne_true fun hne => hne rfl
  · rw [hproject, hchanged, task?_replace_self ht hnew.id, ht, decide_eq_true_iff]
    exact not_congr Option.some_inj.symm

/-! ## Commits -/

/-- A commit that reports no change has made none. -/
theorem eq_of_commit (hnodup : (p.tasks.map Task.id).Nodup) {k : Change}
    (h : Host.alone.commit k p = (.ok false, q)) : q = p := by
  cases hk : p.change k with
  | error fault =>
    rw [commit_of_error hk] at h
    cases h
  | ok done =>
    rw [commit_of_ok hk, Prod.mk.injEq, Except.ok.injEq] at h
    rw [← h.2]
    exact eq_of_change hnodup hk h.1

theorem ne_of_commit {k : Change} (h : Host.alone.commit k p = (.ok true, q)) :
    q.task? k.task ≠ p.task? k.task := by
  cases hk : p.change k with
  | error fault =>
    rw [commit_of_error hk] at h
    cases h
  | ok done =>
    rw [commit_of_ok hk, Prod.mk.injEq, Except.ok.injEq] at h
    rw [← h.2]
    exact (changed_iff_of_change hk).mp h.1

/-- What is refused leaves no trace. -/
theorem eq_of_commit_error {fault : Fault} {k : Change}
    (h : Host.alone.commit k p = (.error fault, q)) : q = p := by
  cases hk : p.change k with
  | error fault' =>
    rw [commit_of_error hk] at h
    exact (congrArg Prod.snd h).symm
  | ok done =>
    rw [commit_of_ok hk] at h
    cases h

/-! ## The structure -/

/-- A new task gets the next number, goes under the root and takes a name that is free. -/
theorem exists_of_insertTask {name : String} {milestone : Bool}
    (h : p.insertTask name start finish duration milestone = .ok (id, q)) :
    id = ⟨p.tasksAdded + 1⟩ ∧ p.tasksAdded + 1 < idLimit ∧
      ∃ keys, p.keys.bind? name id = some keys ∧
        q = { p with
          tasks := p.tasks ++ [⟨id, name, start, finish, duration, milestone, .absent⟩]
          placements := p.placements ++ [⟨id, .root⟩]
          keys
          tasksAdded := p.tasksAdded + 1 } := by
  rw [insertTask] at h
  split at h
  · cases h
  next hroom =>
  split at h
  · cases h
  next keys hkeys =>
  cases h
  exact ⟨rfl, not_le.mp hroom, keys, hkeys, rfl⟩

/-- A task is removed with what lies inside it and with the dependencies of all that. -/
theorem exists_of_removeTask (h : p.removeTask id = .ok q) :
    ∃ t doomed, p.get id = .ok t ∧ doomed = p.descendants id ++ [id] ∧
      q = { p with
        tasks := p.tasks.filter fun t => !doomed.contains t.id
        placements := p.placements.filter fun s => !doomed.contains s.child
        dependencies := p.dependencies.filter fun d =>
          !doomed.contains d.dependee && !doomed.contains d.dependant
        keys := doomed.foldl KeyTable.unbind p.keys } := by
  obtain ⟨t, ht, h⟩ := exists_of_bind_eq_ok h
  cases h
  exact ⟨t, _, ht, rfl, rfl⟩

/-- A task is placed under another one only if that does not lie inside it. -/
theorem exists_of_place {child parent : TaskId} (h : p.place child parent = .ok q) :
    (∃ t, p.get child = .ok t) ∧ (parent = .root ∨ ∃ t, p.get parent = .ok t) ∧
      ¬ (child = parent ∨ p.isAncestor child parent) ∧
      q = { p with
        placements := (p.placements.filter fun s => s.child ≠ child) ++ [⟨child, parent⟩] } := by
  rw [Project.place] at h
  cases hchild : p.get child with
  | error fault =>
    rw [hchild] at h
    cases h
  | ok t =>
    rw [hchild] at h
    dsimp only [bind, Except.bind] at h
    split at h
    · split at h
      · cases h
      · next u hparent =>
        split at h
        · cases h
        · next hfree =>
          cases h
          exact ⟨⟨t, rfl⟩, .inr ⟨u, hparent⟩, hfree, rfl⟩
    · next hroot =>
      split at h
      · cases h
      · next hfree =>
        cases h
        exact ⟨⟨t, rfl⟩, .inl (not_not.mp hroot), hfree, rfl⟩

/-- A dependency links two tasks of different branches that it does not link yet. -/
theorem exists_of_addDependency {dependee dependant : TaskId} {kind : LinkKind}
    {hardness : Hardness} {lag : Int} {new : DependencyId}
    (h : p.addDependency dependee dependant kind hardness lag = .ok (new, q)) :
    (∃ t, p.get dependee = .ok t) ∧ (∃ t, p.get dependant = .ok t) ∧ dependee ≠ dependant ∧
      ¬ (p.isAncestor dependee dependant ∨ p.isAncestor dependant dependee) ∧
      (∀ d ∈ p.incoming dependant, d.dependee ≠ dependee) ∧
      new = ⟨p.dependenciesAdded⟩ ∧ p.dependenciesAdded < idLimit ∧
      q = { p with
        dependencies := p.dependencies ++ [⟨new, dependee, dependant, kind, hardness, lag⟩]
        dependenciesAdded := p.dependenciesAdded + 1 } := by
  rw [addDependency] at h
  obtain ⟨source, hsource, h⟩ := exists_of_bind_eq_ok h
  obtain ⟨target, htarget, h⟩ := exists_of_bind_eq_ok h
  dsimp only [bind, Except.bind] at h
  split_ifs at h with hne hbranch hlinked hroom
  cases h
  rw [Bool.or_eq_true] at hbranch
  refine ⟨⟨source, hsource⟩, ⟨target, htarget⟩, hne, hbranch, fun d hd hdependee => ?_, rfl,
    not_le.mp hroom, rfl⟩
  exact hlinked (List.any_eq_true.mpr ⟨d, hd, decide_eq_true hdependee⟩)

/-- Removing a dependency drops the row it is found under and nothing else. -/
theorem exists_of_removeDependency {dependency : DependencyId}
    (h : p.removeDependency dependency = .ok q) :
    (∃ d, p.dependency? dependency = some d) ∧
      q = { p with dependencies := p.dependencies.filter fun d => d.id ≠ dependency } := by
  rw [removeDependency] at h
  split at h
  · cases h
  next hfound =>
  cases h
  exact ⟨Option.ne_none_iff_exists'.mp fun hnone => hfound (Option.isNone_iff_eq_none.mpr hnone),
    rfl⟩

/-! ## Edits -/

/-- Where a row of an edited project comes from. -/
inductive Origin (p : Project) : Edit → Task → Prop
  /-- It was there before. -/
  | kept {e : Edit} {t : Task} (ht : t ∈ p.tasks) : Origin p e t
  /-- It belongs to a new task. -/
  | added {id : TaskId} {name : String} {start finish : Day} {length : Duration}
    (hwalk : p.calendar.shift start length = .ok finish) :
    Origin p (.addTask name start length) ⟨id, name, start, finish, length, false, .absent⟩
  /-- It belongs to a new milestone. -/
  | addedPoint {id : TaskId} {name : String} {day : Day} :
    Origin p (.addMilestone name day) ⟨id, name, day, day, .days 0, true, .absent⟩
  /-- It is the row of a changed task. -/
  | renewed {k : Change} {old new : Task} (ht : old ∈ p.tasks) (h : old.Renewed p.calendar new) :
    Origin p (.change k) new

/-- **A row of an edited project was there before, is new, or is that of the changed task**, and
the calendar stays as it is. -/
theorem origin_of_edit {e : Edit} {r : Outcome} (h : p.edit e = .ok r) :
    r.project.calendar = p.calendar ∧ ∀ t ∈ r.project.tasks, p.Origin e t := by
  cases e with
  | addTask name start length =>
    obtain ⟨⟨id, q⟩, hq, rfl⟩ := exists_of_map_eq_ok h
    obtain ⟨finish, hwalk, hinsert⟩ := exists_of_bind_eq_ok hq
    obtain ⟨-, -, keys, -, rfl⟩ := exists_of_insertTask hinsert
    refine ⟨rfl, fun t ht => ?_⟩
    rcases List.mem_append.mp ht with ht | ht
    · exact .kept ht
    · rw [List.mem_singleton.mp ht]
      exact .added hwalk
  | addMilestone name day =>
    obtain ⟨⟨id, q⟩, hq, rfl⟩ := exists_of_map_eq_ok h
    obtain ⟨-, -, keys, -, rfl⟩ := exists_of_insertTask hq
    refine ⟨rfl, fun t ht => ?_⟩
    rcases List.mem_append.mp ht with ht | ht
    · exact .kept ht
    · rw [List.mem_singleton.mp ht]
      exact .addedPoint
  -- the structural edits bring no rows, they only leave some out
  | removeTask id =>
    obtain ⟨q, hq, rfl⟩ := exists_of_map_eq_ok h
    obtain ⟨old, doomed, -, -, rfl⟩ := exists_of_removeTask hq
    exact ⟨rfl, fun t ht => .kept (List.mem_of_mem_filter ht)⟩
  | place child parent =>
    obtain ⟨q, hq, rfl⟩ := exists_of_map_eq_ok h
    obtain ⟨-, -, -, rfl⟩ := exists_of_place hq
    exact ⟨rfl, fun t ht => .kept ht⟩
  | addDependency dependee dependant kind hardness lag =>
    obtain ⟨⟨id, q⟩, hq, rfl⟩ := exists_of_map_eq_ok h
    obtain ⟨-, -, -, -, -, -, -, rfl⟩ := exists_of_addDependency hq
    exact ⟨rfl, fun t ht => .kept ht⟩
  | removeDependency id =>
    obtain ⟨q, hq, rfl⟩ := exists_of_map_eq_ok h
    obtain ⟨-, rfl⟩ := exists_of_removeDependency hq
    exact ⟨rfl, fun t ht => .kept ht⟩
  | change k =>
    obtain ⟨done, hdone, rfl⟩ := exists_of_map_eq_ok h
    dsimp only
    rcases renews_of_change hdone with ⟨hsame, -⟩ | ⟨old, new, hold, hnew, hproject, -⟩
    · rw [hsame]
      exact ⟨rfl, fun t ht => .kept ht⟩
    · rw [hproject]
      refine ⟨rfl, fun t ht => ?_⟩
      obtain ⟨u, hu, rfl⟩ := List.mem_map.mp ht
      split
      · exact .renewed (mem_of_task? hold) hnew
      · exact .kept hu

end Project

end Workplan
