import Workplan.Proofs.Branches
import Workplan.Proofs.Refusals
import Workplan.Proofs.Written

/-!
# Dates in order

A change that would end a task before it starts is refused.  A new task is not looked at in this
way: its end is where its length leads, so a negative length is the one way to dates that are
reversed.

- `Task.IsPoint`, `Project.Reachable.isPoint`: a milestone ends where it starts, always.
- `Project.Ordered`: every task ends no earlier than it starts.
- `Operation`, `Project.history`: edits and runs of the engines, one after the other.
- `Project.ordered_throughout_iff`: dates stay in order unless a task is added with a length that
  leads back.
-/

namespace Workplan

variable {p q : Project} {id : TaskId} {t : Task} {c : Calendar}

/-- If the task is a milestone, it has no length. -/
def Task.IsPoint (t : Task) : Prop := t.milestone → t.finish = t.start ∧ t.duration.count = 0

/-- Milestones stay points when their rows are renewed. -/
theorem Task.Renewed.isPoint {old new : Task} (h : old.Renewed c new) (hold : old.IsPoint) :
    new.IsPoint := by
  intro hpoint
  rw [h.milestone] at hpoint
  have hspans := h.spans
  generalize new.start = start, new.finish = finish, new.duration = duration at hspans
  cases hspans with
  | point => exact ⟨rfl, rfl⟩
  | moved => exact ⟨rfl, (hold hpoint).2⟩
  | walked hextended => exact absurd hpoint (Bool.eq_false_iff.mp hextended)
  | measured hextended => exact absurd hpoint (Bool.eq_false_iff.mp hextended)

namespace Project

theorem Origin.isPoint {e : Edit} (h : p.Origin e t) (hp : ∀ t ∈ p.tasks, t.IsPoint) :
    t.IsPoint := by
  cases h with
  | kept ht => exact hp t ht
  | added hwalk => exact fun hpoint => absurd hpoint Bool.false_ne_true
  | addedPoint => exact fun _ => ⟨rfl, rfl⟩
  | renewed ht hnew => exact hnew.isPoint (hp _ ht)

/-- **Every milestone ends where it starts and has no length.** -/
theorem Reachable.isPoint (hp : p.Reachable) : ∀ t ∈ p.tasks, t.IsPoint := by
  induction hp with
  | empty c => exact fun _ ht => absurd ht List.not_mem_nil
  | edit _ h ih => exact fun t ht => ((origin_of_edit h).2 t ht).isPoint ih

/-! ## Ordered projects -/

/-- Every task ends no earlier than it starts, and every milestone right there, without length. -/
def Ordered (p : Project) : Prop :=
  ∀ t ∈ p.tasks, t.start ≤ t.finish ∧ (t.milestone → t.start = t.finish ∧ t.duration.count = 0)

theorem ordered_empty (c : Calendar) : (empty c).Ordered :=
  fun _ ht => absurd ht List.not_mem_nil

/-- A reachable project is ordered when no task finishes before it starts. -/
theorem Reachable.ordered_iff (hp : p.Reachable) :
    p.Ordered ↔ ∀ t ∈ p.tasks, t.start ≤ t.finish := by
  refine ⟨fun h t ht => (h t ht).1, fun h t ht => ⟨h t ht, fun hpoint => ?_⟩⟩
  obtain ⟨hfinish, hcount⟩ := hp.isPoint t ht hpoint
  exact ⟨hfinish.symm, hcount⟩

/-- A new task ends where its length leads. -/
theorem exists_added {name : String} {start : Day} {length : Duration} {r : Outcome}
    (h : p.edit (.addTask name start length) = .ok r) :
    ∃ finish, p.calendar.shift start length = .ok finish ∧
      ∃ t ∈ r.project.tasks, t.start = start ∧ t.finish = finish := by
  obtain ⟨⟨id, q⟩, hq, rfl⟩ := exists_of_map_eq_ok h
  obtain ⟨finish, hwalk, hinsert⟩ := exists_of_bind_eq_ok hq
  obtain ⟨-, -, keys, -, rfl⟩ := exists_of_insertTask hinsert
  refine ⟨finish, hwalk, ⟨id, name, start, finish, length, false, .absent⟩, ?_, rfl, rfl⟩
  exact List.mem_append_right _ List.mem_cons_self

/-- **Only a new task whose length leads back brings reversed dates.** -/
theorem Ordered.edit_iff (hp : p.Reachable) (h : p.Ordered) {e : Edit} {r : Outcome}
    (hr : p.edit e = .ok r) :
    r.project.Ordered ↔ ∀ name start length finish, e = .addTask name start length →
      p.calendar.shift start length = .ok finish → start ≤ finish := by
  rw [(Reachable.edit hp hr).ordered_iff]
  constructor
  · rintro hordered name start length finish rfl hwalk
    obtain ⟨finish', hwalk', t, ht, rfl, rfl⟩ := exists_added hr
    cases hwalk.symm.trans hwalk'
    exact hordered t ht
  · intro hadded t ht
    cases (origin_of_edit hr).2 t ht with
    | kept ht => exact (h t ht).1
    | added hwalk => exact hadded _ _ _ _ rfl hwalk
    | addedPoint => exact le_rfl
    | renewed _ hnew => exact hnew.le

/-- What the engines commit leaves dates in order. -/
theorem keptByCommits_ordered (id : TaskId) :
    KeptByCommits Host.alone (fun q => q.Reachable ∧ q.Ordered) id := by
  have hkept : ∀ {q : Project} {k : Change} {done : Changed}, q.Reachable ∧ q.Ordered →
      q.change k = .ok done → done.project.Reachable ∧ done.project.Ordered := by
    rintro q k done ⟨hq, hordered⟩ hdone
    have hedit := edit_change hdone
    exact ⟨.edit hq hedit, (hordered.edit_iff hq hedit).mpr fun _ _ _ _ he => by cases he⟩
  exact .of_changes (fun {q done start? finish?} hq hdone =>
      hkept (k := .revise id { start?, finish? }) hq hdone)
    fun {q done day} hq hdone => hkept (k := .startAt id day) hq hdone

end Project

/-! ## Histories -/

/-- What is done to a project: an edit, or a run of an engine. -/
inductive Operation
  | edit (edit : Edit)
  | schedule
  | recompute (changed : List TaskId)
  | recomputeAll
  | fit (tasks : List TaskId)

namespace Project

/-- The project after an operation.  A refused edit leaves no trace; a run that fails may. -/
def operate (p : Project) : Operation → Project
  | .edit e => p.after [e]
  | .schedule => p.schedule.2
  | .recompute changed => (p.recompute changed).2
  | .recomputeAll => p.recomputeAll.2
  | .fit tasks => (p.fit tasks).2

/-- The project after some operations. -/
def history (p : Project) (operations : List Operation) : Project := operations.foldl operate p

/-- The operation adds a task whose length leads back from its start. -/
def AddsReversed (p : Project) (o : Operation) : Prop :=
  ∃ name start length finish, o = .edit (.addTask name start length) ∧
    (∃ r, p.edit (.addTask name start length) = .ok r) ∧
    p.calendar.shift start length = .ok finish ∧ finish < start

/-- Operations lead from reachable projects to reachable ones. -/
theorem Reachable.operate (hp : p.Reachable) (o : Operation) : (p.operate o).Reachable := by
  cases o with
  | edit e => exact hp.after [e]
  | schedule => exact hp.schedule
  | recompute changed => exact hp.recompute changed
  | recomputeAll => exact hp.recomputeAll
  | fit tasks => exact hp.fit tasks

theorem Reachable.history (hp : p.Reachable) (operations : List Operation) :
    (p.history operations).Reachable := by
  induction operations generalizing p with
  | nil => exact hp
  | cons o operations ih => exact ih (hp.operate o)

/-- **An operation keeps dates in order, unless it adds a task whose length leads back.** -/
theorem Ordered.operate_iff (hp : p.Reachable) (h : p.Ordered) (o : Operation) :
    (p.operate o).Ordered ↔ ¬ p.AddsReversed o := by
  -- runs keep the order and add nothing, so only edits are left to look at
  have hrun : ∀ {o : Operation} {q : Project}, q.Reachable ∧ q.Ordered → (∀ e, o ≠ .edit e) →
      (q.Ordered ↔ ¬ p.AddsReversed o) := by
    rintro o q ⟨-, hordered⟩ hrun
    exact iff_of_true hordered fun ⟨_, _, _, _, ho, _⟩ => hrun _ ho
  cases o with
  | edit e =>
    show (p.after [e]).Ordered ↔ _
    cases he : p.edit e with
    | error fault =>
      rw [after, he]
      refine iff_of_true h ?_
      rintro ⟨name, start, length, finish, ho, ⟨r, hr⟩, -⟩
      cases ho
      rw [he] at hr
      cases hr
    | ok r =>
      rw [after, he]
      refine (h.edit_iff hp he).trans ⟨?_, ?_⟩
      · rintro hadded ⟨name, start, length, finish, ho, -, hwalk, hback⟩
        cases ho
        exact absurd hback (not_lt.mpr (hadded name start length finish rfl hwalk))
      · rintro hnot name start length finish rfl hwalk
        exact not_lt.mp fun hback => hnot ⟨name, start, length, finish, rfl, ⟨r, he⟩, hwalk, hback⟩
  | schedule => exact hrun (keeps_schedule keptByCommits_ordered p ⟨hp, h⟩) fun _ h => by cases h
  | recompute changed =>
    exact hrun (keeps_recompute keptByCommits_ordered (keeps_fit keptByCommits_ordered) changed p
      ⟨hp, h⟩) fun _ h => by cases h
  | recomputeAll =>
    exact hrun (keeps_recomputeAll keptByCommits_ordered (keeps_fit keptByCommits_ordered) p
      ⟨hp, h⟩) fun _ h => by cases h
  | fit tasks => exact hrun (keeps_fit keptByCommits_ordered tasks p ⟨hp, h⟩) fun _ h => by cases h

theorem history_concat (p : Project) (done : List Operation) (o : Operation) :
    p.history (done ++ [o]) = (p.history done).operate o := by
  rw [history, List.foldl_append]
  rfl

/-- **In a history from an empty project every task ends no earlier than it starts, and every
milestone right there and without length, at all times, if and only if no task is added whose
length leads back from its start.** -/
theorem ordered_throughout_iff (c : Calendar) (operations : List Operation) :
    (∀ done, done <+: operations → ((empty c).history done).Ordered) ↔
      ∀ done o, done ++ [o] <+: operations → ¬ ((empty c).history done).AddsReversed o := by
  have hreach : ∀ done, ((empty c).history done).Reachable := fun done =>
    (Reachable.empty c).history done
  constructor
  · intro hordered done o hprefix
    have hbefore := hordered done ((List.prefix_append _ _).trans hprefix)
    have hafter := hordered _ hprefix
    rw [history_concat] at hafter
    exact (hbefore.operate_iff (hreach done) o).mp hafter
  · intro hadds done
    induction done using List.reverseRecOn with
    | nil => exact fun _ => ordered_empty c
    | append_singleton done o ih =>
      intro hprefix
      have hbefore := ih ((List.prefix_append _ _).trans hprefix)
      rw [history_concat]
      exact (hbefore.operate_iff (hreach done) o).mpr (hadds done o hprefix)

/-- Walls that are planned with a length of two days back. -/
def backwardPlan : Project :=
  (empty .standard).after [.addTask "walls" (Day.first.advance 6) (.days (-2))]

/-- Dates may be reversed, as nobody asks where the length of a new task leads. -/
theorem not_ordered_backwardPlan : backwardPlan.Reachable ∧ ¬ backwardPlan.Ordered := by
  refine ⟨(Reachable.empty _).after _, fun hordered => ?_⟩
  have hback : ∃ t ∈ backwardPlan.tasks, t.finish < t.start := by decide +kernel
  obtain ⟨t, ht, hlt⟩ := hback
  exact absurd hlt (not_lt.mpr (hordered t ht).1)

end Project

end Workplan
