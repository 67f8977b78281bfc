import Workplan.Proofs.Overflows
import Workplan.Proofs.Reactions
import Workplan.Proofs.Stepwise

/-!
# Refused edits

An edit that is refused leaves everything as it was, and nobody hears of it.  Those who watch a
project cannot make up a refusal either, as they answer nobody.

- `Desk.editStepwise`: an edit write by write, and what follows from it.
- `Desk.untouched_of_refused`: what a refused edit leaves behind.
-/

namespace Workplan.Desk

open Act

variable {d d' : Desk} {react : Reaction} {e : Edit} {fault : Fault}

/-- Carries out an edit write by write, and announces it when all is written. -/
def editStepwise (react : Reaction) (e : Edit) : Act Desk Reply := fun d =>
  match Stepwise.edit e d.project with
  | (.error fault, p) => (.error fault, { d with project := p })
  | (.ok (reply, event?), p) => accept react p event? reply d

theorem edit_of_error (h : d.project.edit e = .error fault) :
    edit react e d = (.error fault, d) := by
  rw [edit, Stepwise.get_bind, h]
  rfl

theorem edit_of_ok {r : Outcome} (h : d.project.edit e = .ok r) :
    edit react e d = accept react r.project r.event? r.reply d := by
  rw [edit, Stepwise.get_bind, h]

/-- **Write by write an edit comes to the same**, for whoever watches. -/
theorem editStepwise_eq (hp : d.project.Sound) : editStepwise react e d = edit react e d := by
  rw [editStepwise, Stepwise.edit_eq hp]
  rcases h : d.project.edit e with fault | r
  · exact (edit_of_error h).symm
  · exact (edit_of_ok h).symm

/-- **A refused edit leaves everything as it was, and nobody hears of it**: it would be refused just
so whatever followed from an announcement.  This is so also if the edit is carried out write by
write. -/
theorem untouched_of_refused (hp : d.project.Reachable)
    (hreact : ∀ event, Answers (react event)) (h : edit react e d = (.error fault, d'))
    (hfault : fault ≠ .overflow) :
    d' = d ∧ ∀ react', edit react' e d = (.error fault, d) ∧
      editStepwise react' e d = (.error fault, d) := by
  rcases hedit : d.project.edit e with refusal | r
  · cases (edit_of_error hedit).symm.trans h
    refine ⟨rfl, fun react' => ⟨edit_of_error hedit, ?_⟩⟩
    rw [editStepwise_eq hp.sound]
    exact edit_of_error hedit
  · -- what follows from an edit that is not refused does not refuse it
    rw [edit_of_ok hedit] at h
    exact absurd (failsOnly_accept hreact _ _ _ d trivial fault (congrArg Prod.fst h)) hfault

/-- A desk where someone writes down every event and someone schedules after it.  A shed holds a
base and a roof, which waits for the base. -/
def shedDesk : Desk :=
  (new ⟨.standard, 0, false, false, true, true⟩).after [
    .listen .recorder,
    .listen .scheduler,
    .edit (.addTask "shed" (Day.first.advance 4) (.days 5)),
    .edit (.addTask "base" (Day.first.advance 4) (.days 2)),
    .edit (.addTask "roof" (Day.first.advance 4) (.days 1)),
    .edit (.place ⟨2⟩ ⟨1⟩),
    .edit (.place ⟨3⟩ ⟨1⟩),
    .edit (.addDependency ⟨2⟩ ⟨3⟩ .finishStart .strong 0)]

/-- What cannot be done to the shed: a name taken twice, a task that is not there, a shed inside its
roof, a roof that waits for the shed, a dependency that is there, one that is not, a new anchor
along with an end before the start, and a shed that starts after its end. -/
def shedRefusals : List (Edit × Fault) := [
  (.addTask "roof" (Day.first.advance 4) (.days 1), .duplicateTask "roof"),
  (.addMilestone "roof" (Day.first.advance 4), .duplicateTask "roof"),
  (.removeTask ⟨9⟩, .taskNotFound ⟨9⟩),
  (.place ⟨1⟩ ⟨3⟩, .invalidHierarchy ⟨1⟩ ⟨3⟩ .insideItself),
  (.addDependency ⟨1⟩ ⟨3⟩ .finishStart .strong 0, .invalidDependency ⟨1⟩ ⟨3⟩ .sameBranch),
  (.addDependency ⟨2⟩ ⟨3⟩ .startStart .strong 1, .invalidDependency ⟨2⟩ ⟨3⟩ .duplicate),
  (.removeDependency ⟨7⟩, .invalidDependency .root .root (.unknown ⟨7⟩)),
  (.change (.revise ⟨2⟩ ⟨some (Day.first.advance 20), some (Day.first.advance 10), none,
      some ⟨some .earliestBegin, some (Day.first.advance 11)⟩⟩),
    .invalidDates ⟨2⟩ (Day.first.advance 20) (Day.first.advance 10)),
  (.change (.startAt ⟨1⟩ (Day.first.advance 30)),
    .invalidDates ⟨1⟩ (Day.first.advance 30) (Day.first.advance 7))]

/-- Nothing of this touches the shed, and nobody hears of it. -/
theorem untouched_of_refused_shedDesk :
    shedDesk.project.Reachable ∧ (∀ event, Answers (announce 3 event)) ∧
      ∀ q ∈ shedRefusals, q.2 ≠ .overflow ∧
        edit (announce 3) q.1 shedDesk = (.error q.2, shedDesk) ∧
        ∀ react, edit react q.1 shedDesk = (.error q.2, shedDesk) ∧
          editStepwise react q.1 shedDesk = (.error q.2, shedDesk) := by
  have hp : shedDesk.project.Reachable := reachable_after _ _
  have hreact : ∀ event, Answers (announce 3 event) :=
    failsOnly_announce (E := (· = .overflow)) rfl 3
  have hrefused : ∀ q ∈ shedRefusals, q.2 ≠ .overflow ∧
      (edit (announce 3) q.1 shedDesk).1 = .error q.2 := by decide +kernel
  refine ⟨hp, hreact, fun q hq => ?_⟩
  obtain ⟨hfault, hrun⟩ := hrefused q hq
  have h : edit (announce 3) q.1 shedDesk =
      (.error q.2, (edit (announce 3) q.1 shedDesk).2) := Prod.ext hrun rfl
  have huntouched := untouched_of_refused hp hreact h hfault
  exact ⟨hfault, h.trans (congrArg _ huntouched.1), huntouched.2⟩

end Workplan.Desk
