import Workplan.Proofs.Rows
import Workplan.Scheduling.Plan

/-!
# Plans without notes

The plan for a task, as a function of the fold of the edges into it.

- `Project.draft`: the dates that ranges give to a task.
- `Plan.settled`: the draft, unless it changes nothing or is reversed.
- `Project.plan_outcome`: what planning a task comes to.
-/

namespace Workplan

variable {p : Project} {id : TaskId} {t : Task} {edges : List Edge}

/-- The end that a range gives to a task with this start. -/
def Project.draftFinish? (p : Project) (t : Task) (start : Day) (r : Interval) : Option Day :=
  (r.upper.endpoint.map fun finish =>
    (p.calendar.pulledBack? t.grain finish start).getD finish).filter
    fun finish => finish ≠ t.finish

/-- The dates that ranges give to a task, as far as they are new. -/
def Project.draft (p : Project) (t : Task) (r : Ranges) : Plan where
  task := t
  container := p.hasChildren t.id
  newStart? := p.newStart? t r.start
  newFinish? := p.draftFinish? t ((p.newStart? t r.start).getD t.start) r.finish

/-- The plan itself, unless it changes nothing or would end the task before it starts. -/
def Plan.settled (plan : Plan) : Except Fault (Option Plan) :=
  if plan.isVoid then .ok none
  else if plan.newFinish?.any fun finish => finish < plan.start then
    .error (.invalidDates plan.task.id plan.start plan.finish)
  else .ok (some plan)

namespace Project

/-- Without notes, the ranges of a task are those of the gathered fold. -/
theorem rangesFor_outcome :
    (p.rangesFor t edges).outcome = (p.gather .empty edges).outcome.bind fun f => f.ranges t := by
  rw [rangesFor, Traced.outcome_bind]
  refine congrArg _ (funext fun f => ?_)
  rw [Traced.outcome_bind]
  cases t.earliestBegin with
  | none => rfl
  | some anchor => rfl

theorem newFinish?_outcome (start : Day) (r : Interval) :
    (p.newFinish? t start r).outcome = .ok (p.draftFinish? t start r) := by
  rw [newFinish?, draftFinish?]
  cases r.upper.endpoint with
  | none => rfl
  | some finish =>
    dsimp only [Option.map_some]
    cases p.calendar.pulledBack? t.grain finish start with
    | none => rfl
    | some pulled => rfl

/-- Without notes, settling drops a void plan and keeps any other with its finish. -/
theorem settle_outcome (id : TaskId) (plan : Plan) (hid : plan.task.id = id) :
    Traced.outcome (do
      if plan.isVoid then return none
      else
        if let some finish := plan.newFinish? then
          if finish < plan.start then
            .lift (.error (.invalidDates id plan.start finish))
        .tell (.planned id plan.newStart? plan.newFinish?)
        .tell (.redated plan.task.name plan.task.start plan.start plan.task.finish plan.finish)
        return some plan) = plan.settled := by
  rw [Plan.settled]
  by_cases hvoid : plan.isVoid
  · rw [if_pos hvoid, if_pos hvoid, Traced.outcome_pure]
  · rw [if_neg hvoid, if_neg hvoid]
    cases hfinish : plan.newFinish? with
    | none => simp [Except.bind]
    | some finish =>
      have hplan : plan.finish = finish := by
        rw [Plan.finish, hfinish]
        rfl
      by_cases hlt : finish < plan.start
      · simp [Except.bind, hlt, hid, hplan]
      · simp [Except.bind, hlt]

/-- **A plan is the settled draft for the ranges that the edges leave.** -/
theorem plan_outcome (ht : p.task? id = some t) :
    (p.plan id edges).outcome =
      (p.rangesFor t edges).outcome.bind fun r => (p.draft t r).settled := by
  have hid := id_of_task? ht
  rw [plan, Traced.outcome_bind, Traced.outcome_lift, get_of_task? ht]
  dsimp only [Except.bind]
  rw [Traced.outcome_bind, Traced.outcome_tell]
  dsimp only [Except.bind]
  rw [Traced.outcome_bind]
  cases (p.rangesFor t edges).outcome with
  | error fault => rfl
  | ok r =>
    dsimp only [Except.bind]
    rw [Traced.outcome_bind, Traced.outcome_tell]
    dsimp only [Except.bind]
    rw [Traced.outcome_bind, newFinish?_outcome]
    dsimp only [Except.bind]
    rw [← hid]
    exact settle_outcome t.id (p.draft t r) rfl

/-- The plan for a task starts from the task as it is. -/
theorem task?_of_plan {plan : Plan} (h : (p.plan id edges).outcome = .ok (some plan)) :
    p.task? id = some plan.task := by
  cases ht : p.task? id with
  | none =>
    have hget : p.get id = .error (.taskNotFound id) := by rw [get, ht]
    rw [Project.plan, Traced.outcome_bind, Traced.outcome_lift, hget] at h
    cases h
  | some t =>
    rw [plan_outcome ht] at h
    obtain ⟨r, -, h⟩ := exists_of_bind_eq_ok h
    rw [Plan.settled] at h
    split_ifs at h
    · cases h
    · cases Option.some.inj (Except.ok.inj h)
      rfl

end Project

end Workplan
