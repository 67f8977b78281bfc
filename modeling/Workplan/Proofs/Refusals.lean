import Workplan.Proofs.Resolving

/-!
# Recomputations that fail

A recomputation checks what it is given before the first task moves.  Later only a task that would
end before it starts can stop it, so that a failed run has moved nothing, as long as all lengths go
forward and no container waits for anything.

- `Act.FailsOnly`: an action fails for expected reasons only.
- `Project.Refuses`, `Project.refuses_of_change`: why a change is refused.
- `Project.startAt_error`, `Project.revise_error`: the same for a start, and for dates.
- `Project.resolveTask_cases`: what moving a task comes to.
- `Confined`: what the tasks of a project rely on while they are moved.
- `Confined.recompute_error`, `Confined.recomputeAll_error`: where the fault of a run comes from.
- `unmoved_of_fault`: when a failed run has moved nothing.
- `recompute_crowdedPlan`: a failed run that has moved something.
-/

namespace Workplan

variable {α β : Type} {p q : Project} {id : TaskId} {t : Task} {d : Dependency} {fault : Fault}

/-! ## Expected faults -/

namespace Act

variable {σ : Type} {P : σ → Prop} {E : Fault → Prop} {x : Act σ α}

/-- From states with the property, the action fails for expected reasons only. -/
def FailsOnly (P : σ → Prop) (E : Fault → Prop) (x : Act σ α) : Prop :=
  ∀ s, P s → ∀ fault, (x s).1 = .error fault → E fault

theorem failsOnly_pure (a : α) : FailsOnly P E (pure a : Act σ α) := fun _ _ _ h => by cases h

theorem failsOnly_throw (h : E fault) : FailsOnly P E (throw fault : Act σ α) := by
  rintro s - fault' heq
  cases heq
  exact h

theorem failsOnly_read (h : Host σ) (f : Project → α) : FailsOnly P E (h.read f) :=
  fun _ _ _ h => by cases h

theorem failsOnly_tell (h : Host σ) (note : Note) : FailsOnly P E (h.tell note) :=
  fun _ _ _ h => by cases h

/-- What follows may rely on the answer, as one that some state with the property gives. -/
theorem FailsOnly.bind {f : α → Act σ β} (hkeeps : Keeps P x) (hx : FailsOnly P E x)
    (hf : ∀ s a, P s → (x s).1 = .ok a → FailsOnly P E (f a)) : FailsOnly P E (x >>= f) := by
  intro s hs fault h
  have hs' := hkeeps s hs
  rw [bind_apply] at h
  rcases hrun : x s with ⟨fault' | a, s'⟩
  · rw [hrun] at h
    cases h
    exact hx s hs fault (congrArg Prod.fst hrun)
  · rw [hrun] at h hs'
    exact hf s a hs (congrArg Prod.fst hrun) s' hs' fault h

/-- An attempt fails by an overflow only. -/
theorem failsOnly_attempt (h : E .overflow) : FailsOnly P E (Host.attempt x) := by
  intro s _ fault heq
  unfold Host.attempt at heq
  split at heq
  · cases heq
    exact h
  · cases heq

/-- A fault that an attempt answers is one of the action. -/
theorem error_of_attempt {s : σ} (h : (Host.attempt x s).1 = .ok (.error fault)) :
    (x s).1 = .error fault := by
  unfold Host.attempt at h
  split at h
  · cases h
  · next heq =>
    rw [heq]
    exact Except.ok.inj h

end Act

open Act

/-! ## Refused changes -/

namespace Calendar

variable {c : Calendar} {a b : Day}

/-- Whole weeks onwards never lead back. -/
theorem le_shiftWeeks {n : Int} (h : 0 ≤ n) (a : Day) : a ≤ shiftWeeks a n := by
  rw [shiftWeeks, if_pos h, Day.plus?, Day.ofOrdinal?]
  split
  · exact Nat.le_add_right _ _
  · exact le_rfl

/-- A length that is not negative leads forward. -/
theorem le_of_shift {length : Duration} (h : c.shift a length = .ok b) (hpos : 0 ≤ length.count) :
    a ≤ b := by
  rw [shift] at h
  split at h
  · cases h
    exact le_shiftDays hpos a
  · split at h
    · cases h
      exact le_shiftWeeks hpos a
    · cases h

/-- Days in order are a length of at least zero apart. -/
theorem workingLength_nonneg {grain : Grain} (h : a ≤ b) :
    0 ≤ (c.workingLength grain a b).count := by
  rw [workingLength, if_pos h]
  exact Int.natCast_nonneg _

end Calendar

namespace Task

variable {c : Calendar} {start finish : Day}

/-- The end that a start and the duration of a task give; a milestone has none. -/
def finishFrom (t : Task) (c : Calendar) (start : Day) : Except Fault Day :=
  if t.milestone then .ok start else c.shift start t.duration

/-- The finish that follows from a start fails by overflow only. -/
theorem finishFrom_error (h : t.finishFrom c start = .error fault) : fault = .overflow := by
  rw [finishFrom] at h
  split at h
  · cases h
  · exact Calendar.shift_error h

/-- A task of positive length finishes no earlier than it starts. -/
theorem le_of_finishFrom (h : t.finishFrom c start = .ok finish) (hpos : 0 ≤ t.duration.count) :
    start ≤ finish := by
  rw [finishFrom] at h
  split at h
  · cases h
    exact le_rfl
  · exact Calendar.le_of_shift h hpos

end Task

namespace Project

variable {start finish day : Day} {duration : Duration}

/-- A write into a row that exists is refused for dates in the wrong order and for nothing
else. -/
theorem write_error {anchor? : Option Anchor} (ht : p.task? id = some t)
    (h : p.write id start finish duration anchor? = .error fault) :
    finish < start ∧ fault = .invalidDates id start finish := by
  rw [write, get_of_task? ht] at h
  split at h
  · next hlt =>
    cases h
    exact ⟨hlt, rfl⟩
  · cases h

/-- New dates are refused only if they are reversed. -/
theorem revise_error {start? finish? : Option Day} (ht : p.task? id = some t)
    (h : p.revise id { start?, finish? } = .error fault) :
    ∃ start finish, start = start?.getD t.start ∧ finish = revisedFinish t start finish? ∧
      finish < start ∧ fault = .invalidDates id start finish := by
  rw [revise_eq_write ht] at h
  obtain ⟨hlt, hfault⟩ := write_error ht h
  exact ⟨_, _, rfl, rfl, hlt, hfault⟩

/-- Adding up lengths fails by overflow only. -/
theorem totalCount_error {start : Int} {lengths : List Duration}
    (h : totalCount start lengths = .error fault) : fault = .overflow := by
  induction lengths generalizing start with
  | nil => cases h
  | cons length lengths ih =>
    rw [totalCount, List.foldlM_cons] at h
    rcases cases_of_bind_eq_error h with h | ⟨total, -, h⟩
    · exact Duration.checkedCount_error h
    · exact ih h

/-- Why a change of a task is refused. -/
inductive Refuses (p : Project) (id : TaskId) : Fault → Prop
  /-- Some length is too large. -/
  | overflow : Refuses p id .overflow
  /-- There is no such task. -/
  | unknown (h : p.task? id = none) : Refuses p id (.taskNotFound id)
  /-- The task would end before it starts. -/
  | reversed {start finish : Day} (h : finish < start) :
    Refuses p id (.invalidDates id start finish)

/-- Looking up a missing task is one of the refusals an edit may have. -/
theorem refuses_of_get (h : p.get id = .error fault) : p.Refuses id fault := by
  rw [get] at h
  split at h
  · cases h
  · next hnone =>
    cases h
    exact .unknown hnone

theorem refuses_of_write {anchor? : Option Anchor}
    (h : p.write id start finish duration anchor? = .error fault) : p.Refuses id fault := by
  rw [write] at h
  split at h
  · next hlt =>
    cases h
    exact .reversed hlt
  · rcases cases_of_bind_eq_error h with h | ⟨old, -, h⟩
    · exact refuses_of_get h
    · cases h

theorem refuses_of_shift {c : Calendar} (h : c.shift start duration = .error fault) :
    p.Refuses id fault := by
  rw [Calendar.shift_error h]
  exact .overflow

theorem refuses_of_revise {revision : Revision} (h : p.revise id revision = .error fault) :
    p.Refuses id fault := by
  rw [revise] at h
  rcases cases_of_bind_eq_error h with h | ⟨old, -, h⟩
  · exact refuses_of_get h
  rcases cases_of_bind_eq_error h with h | ⟨span, -, h⟩
  · rw [revisedSpan] at h
    split at h
    · cases h
    split at h
    · rcases cases_of_bind_eq_error h with h | ⟨finish, -, h⟩
      · exact refuses_of_shift h
      · cases h
    · cases h
  · exact refuses_of_write h

theorem refuses_of_slide {lengths : List Duration} (h : p.slide id lengths = .error fault) :
    p.Refuses id fault := by
  rw [slide] at h
  rcases cases_of_bind_eq_error h with h | ⟨old, -, h⟩
  · exact refuses_of_get h
  rcases cases_of_bind_eq_error h with h | ⟨total, -, h⟩
  · rw [totalCount_error h]
    exact .overflow
  rcases cases_of_bind_eq_error h with h | ⟨landing, -, h⟩
  · exact refuses_of_shift h
  dsimp only at h
  split at h
  · exact refuses_of_write h
  · rcases cases_of_bind_eq_error h with h | ⟨finish, -, h⟩
    · exact refuses_of_shift h
    · exact refuses_of_write h

/-- **A change is refused for a length, for a task that is not there, or for reversed dates.** -/
theorem refuses_of_change {k : Change} (h : p.change k = .error fault) :
    p.Refuses k.task fault := by
  cases k with
  | revise id revision => exact refuses_of_revise h
  | slide id lengths => exact refuses_of_slide h
  | startAt id day =>
    rw [change, startAt] at h
    rcases cases_of_bind_eq_error h with h | ⟨old, -, h⟩
    · exact refuses_of_get h
    dsimp only at h
    split at h
    · exact refuses_of_revise h
    split at h
    · cases h
    split at h
    · exact refuses_of_revise h
    · exact refuses_of_slide h

/-- A revision to a start and the duration of the task ends where these lead. -/
theorem revisedSpan_duration (start : Day) : (p.revisedSpan t start
    { start? := some start, duration? := some t.duration }).map Prod.fst =
      t.finishFrom p.calendar start := by
  rw [revisedSpan, Task.finishFrom]
  split
  · rfl
  · show (p.calendar.shift start t.duration >>= _).map Prod.fst = _
    cases p.calendar.shift start t.duration <;> rfl

/-- A write of a start with the finish that follows from it is refused to tasks of negative length
only. -/
theorem write_error_of_finishFrom (ht : p.task? id = some t)
    (hfinish : t.finishFrom p.calendar start = .ok finish)
    (h : p.write id start finish duration none = .error fault) :
    t.duration.count < 0 ∧ ∃ start finish, fault = .invalidDates id start finish := by
  obtain ⟨hlt, hfault⟩ := write_error ht h
  refine ⟨?_, start, finish, hfault⟩
  by_contra hneg
  exact absurd hlt (not_lt.mpr (Task.le_of_finishFrom hfinish (not_lt.mp hneg)))

/-- A task without children is refused a start only if its length leads backward. -/
theorem startAt_error_of_leaf (ht : p.task? id = some t) (hleaf : p.hasChildren id = false)
    (h : p.startAt id day = .error fault) :
    fault = .overflow ∨
      t.duration.count < 0 ∧ ∃ start finish, fault = .invalidDates id start finish := by
  rw [startAt, get_of_task? ht] at h
  dsimp only [bind, Except.bind] at h
  rw [hleaf, if_neg (by decide)] at h
  split at h
  · cases h
  split at h
  · -- without working time on the way, the start is set
    rw [revise, get_of_task? ht] at h
    dsimp only [bind, Except.bind, Option.getD_some] at h
    have hfinish := revisedSpan_duration (p := p) (t := t) (p.calendar.onOrAfter t.grain day)
    split at h
    · next hrefused =>
      cases h
      rw [hrefused] at hfinish
      exact .inl (Task.finishFrom_error hfinish.symm)
    · next hdone =>
      rw [hdone] at hfinish
      exact .inr (write_error_of_finishFrom ht hfinish.symm h)
  · rw [slide, get_of_task? ht] at h
    dsimp only [bind, Except.bind] at h
    split at h
    · next htotal =>
      cases h
      exact .inl (totalCount_error htotal)
    split at h
    · next hlanding =>
      cases h
      exact .inl (Calendar.shift_error hlanding)
    split at h
    · next hms => exact .inr (write_error_of_finishFrom ht (if_pos hms) h)
    · next hms =>
      split at h
      · next hfinish =>
        cases h
        exact .inl (Calendar.shift_error hfinish)
      · next hfinish =>
        exact .inr (write_error_of_finishFrom ht ((if_neg hms).trans hfinish) h)

/-- A start is refused only if the task would end before it, which takes a container or a length
that leads backward. -/
theorem startAt_error (ht : p.task? id = some t) (h : p.startAt id day = .error fault) :
    fault = .overflow ∨ (p.hasChildren id ∨ t.duration.count < 0) ∧
      ∃ start finish, fault = .invalidDates id start finish := by
  cases hparent : p.hasChildren id with
  | false =>
    refine (startAt_error_of_leaf ht hparent h).imp_right ?_
    exact fun ⟨hneg, hfault⟩ => ⟨.inr hneg, hfault⟩
  | true =>
    rw [startAt, get_of_task? ht] at h
    dsimp only [bind, Except.bind] at h
    rw [hparent, if_pos rfl] at h
    obtain ⟨start, finish, -, -, -, hfault⟩ := revise_error ht h
    exact .inr ⟨.inl rfl, start, finish, hfault⟩

theorem error_of_change {k : Change} (h : (Host.alone.change k p).1 = .error fault) :
    p.change k = .error fault := by
  cases hk : p.change k with
  | error fault' =>
    have hcommit : Host.alone.change k p = _ := commit_of_error hk
    rw [hcommit] at h
    exact congrArg Except.error (Except.error.inj h)
  | ok r =>
    have hcommit : Host.alone.change k p = _ := commit_of_ok hk
    rw [hcommit] at h
    cases h

/-- Looking for a collision in a sound project fails by overflow only. -/
theorem collision_error (hp : p.Sound) (hd : d ∈ p.dependencies) (ht : p.task? id = some t)
    (h : p.collision d id = .error fault) : fault = .overflow := by
  refine acceptable_error hp hd ht ?_
  rw [acceptable, h]
  rfl

/-- **Moving a task sends it to a day that suits all dependencies on it**, unless there are none or
its length is out of bounds.  So no task is ever given up. -/
theorem resolveTask_cases (hp : p.Sound) (ht : p.task? id = some t) :
    Workplan.resolveTask Host.alone id p = (.error .overflow, p) ∨
      p.incoming id = [] ∧ Workplan.resolveTask Host.alone id p = (.ok false, p) ∨
      ∃ floor, (∀ e ∈ p.incoming id, ∃ start, p.acceptable e id = .ok start ∧ start ≤ floor) ∧
        Workplan.resolveTask Host.alone id p = Host.alone.commit (.startAt id floor) p := by
  rw [resolveTask_alone]
  rcases hks : (p.incoming id).mapM fun d => p.collision d id with fault | ks
  · left
    obtain ⟨e, he, hcollision⟩ := exists_of_mapM_eq_error hks
    rw [startFor_eq (get_of_task? ht), hks, collision_error hp (mem_incoming.mp he).1 ht hcollision]
    rfl
  right
  have haccept : ∀ e ∈ p.incoming id, p.acceptable e id = .ok (p.demand e) := by
    intro e he
    obtain ⟨k, hk⟩ := exists_of_mapM_eq_ok hks e he
    obtain ⟨-, rfl⟩ := mem_incoming.mp he
    rw [demand, acceptable_of_collision hk]
  rw [startFor_of_accepted ht haccept]
  cases hfloor : Collision.latest? ((p.incoming id).map p.demand) with
  | none =>
    rw [Collision.latest?_eq_none_iff, List.map_eq_nil_iff] at hfloor
    exact .inl ⟨hfloor, rfl⟩
  | some floor =>
    have hbelow := (Collision.latest?_eq_some_iff.mp hfloor).2
    exact .inr ⟨floor, fun e he => ⟨_, haccept e he, hbelow _ (List.mem_map_of_mem he)⟩, rfl⟩

/-! ## Refused containers -/

/-- What is fitted is what contains one of the tasks. -/
theorem Nested.mem_containersOf (hp : p.Nested) {tasks : List TaskId} :
    id ∈ p.containersOf tasks ↔ ∃ x ∈ tasks, p.Inside x id := by
  simp only [containersOf, List.mem_mergeSort, List.mem_eraseDups, List.mem_flatMap,
    hp.mem_ancestors]

/-- The span of children that go forward goes forward. -/
theorem le_of_childSpan? (hdates : ∀ t ∈ p.tasks, t.start ≤ t.finish)
    (h : p.childSpan? id = some (start, finish)) : start ≤ finish := by
  rw [childSpan?] at h
  split at h
  · cases h
  next t ts hchildren =>
  cases h
  have ht : t ∈ (p.children id).filterMap p.task? := hchildren ▸ List.mem_cons_self
  obtain ⟨x, -, htask⟩ := List.mem_filterMap.mp ht
  have hfirst := (Collision.foldl_max_spec (α := Dayᵒᵈ) (ts.map Task.start) t.start).2
  have hlast := (Collision.foldl_max_spec (ts.map Task.finish) t.finish).2
  calc (ts.map Task.start).foldl min t.start
    _ ≤ t.start := hfirst t.start List.mem_cons_self
    _ ≤ t.finish := hdates t (mem_of_task? htask)
    _ ≤ (ts.map Task.finish).foldl max t.finish := hlast t.finish List.mem_cons_self

/-- A container is not fitted only if its children end before they start. -/
theorem fitContainer_error (hid : id ∈ p.tasks.map Task.id)
    (h : (fitContainer Host.alone id p).1 = .error fault) :
    ∃ start finish, p.childSpan? id = some (start, finish) ∧ finish < start ∧
      ∃ start finish, fault = .invalidDates id start finish := by
  obtain ⟨t, ht⟩ := exists_task? hid
  have hread : Host.alone.read (fun p => p.childSpan? id) p = (.ok (p.childSpan? id), p) := rfl
  rw [fitContainer, bind_of_ok hread] at h
  rcases hspan : p.childSpan? id with _ | ⟨start, finish⟩
  · rw [hspan] at h
    cases h
  have hget : Host.alone.ask (fun p => p.get id) p = (.ok t, p) := by
    rw [ask_alone, get_of_task? ht]
  have htell : Host.alone.tell (.fitting t start finish) p = (.ok (), p) := rfl
  rw [hspan] at h
  dsimp only at h
  rw [bind_of_ok hget] at h
  split at h
  · cases h
  rw [bind_of_ok htell] at h
  obtain ⟨start', finish', hstart, hfinish, hlt, hfault⟩ := revise_error ht (error_of_change h)
  refine ⟨start, finish, rfl, ?_, start', finish', hfault⟩
  subst hstart
  rw [hfinish, revisedFinish] at hlt
  split at hlt
  · exact absurd hlt (lt_irrefl _)
  · exact hlt

end Project

/-! ## Runs -/

/-- What a recomputation of `p` relies on: the property is kept on the way, and no change that it
makes to the dependants and containers of `p` fails for other reasons than the expected ones. -/
structure Confined (p : Project) (P : Project → Prop) (E : Fault → Prop) : Prop where
  kept : ∀ id, KeptByCommits Host.alone P id
  sound : ∀ {q}, P q → q.Sound
  frame : ∀ {q}, P q → p.SameFrame q
  overflow : E .overflow
  startAt : ∀ {q d day fault}, P q → d ∈ p.dependencies →
    q.startAt d.dependant day = .error fault → E fault
  fit : ∀ container ∈ p.tasks.map Task.id, FailsOnly P E (fitContainer Host.alone container)

namespace Confined

variable {P : Project → Prop} {E : Fault → Prop} (h : Confined p P E)
include h

/-- Resolving a dependency's task fails only as commits on that task fail. -/
theorem resolveTask (hd : d ∈ p.dependencies) :
    FailsOnly P E (Workplan.resolveTask Host.alone d.dependant) := by
  intro q hq fault hfault
  obtain ⟨t, ht⟩ := Project.exists_task?
    ((h.sound hq).dependant_mem d ((h.frame hq).dependencies ▸ hd))
  rcases Project.resolveTask_cases (h.sound hq) ht with hrun | ⟨-, hrun⟩ | ⟨floor, -, hrun⟩
  · rw [hrun] at hfault
    cases hfault
    exact h.overflow
  · rw [hrun] at hfault
    cases hfault
  · rw [hrun] at hfault
    exact h.startAt hq hd (Project.error_of_change hfault)

theorem resolveDependency (id : DependencyId) (report : RecomputeReport) (givenUp : List TaskId) :
    FailsOnly P E (Workplan.resolveDependency Host.alone id report givenUp) := by
  refine .bind (keeps_read _ _) (failsOnly_read _ _) fun q found hq hfound => ?_
  cases found with
  | none => exact failsOnly_pure _
  | some d =>
    have hd : d ∈ p.dependencies := by
      rw [← (h.frame hq).dependencies]
      exact List.mem_of_find?_eq_some (Except.ok.inj hfound)
    dsimp only
    split
    · exact failsOnly_pure _
    refine .bind (keeps_ask _ _) ?_ fun _ k _ _ => ?_
    · intro q hq fault hfault
      rw [← (h.frame hq).dependencies] at hd
      obtain ⟨t, ht⟩ := Project.exists_task? ((h.sound hq).dependant_mem d hd)
      rw [Project.collision_error (h.sound hq) hd ht hfault]
      exact h.overflow
    split
    · exact failsOnly_pure _
    refine .bind (keeps_tell h.kept _) (failsOnly_tell _ _) fun _ _ _ _ =>
      .bind (keeps_resolveTask (h.kept _)).attempt (failsOnly_attempt h.overflow)
        fun q result hq hresult => ?_
    rcases result with fault | changed
    · have hfault := h.resolveTask hd q hq fault (error_of_attempt hresult)
      cases fault with
      | unsatisfiable task reason =>
        exact .bind (keeps_tell h.kept _) (failsOnly_tell _ _) fun _ _ _ _ => failsOnly_pure _
      | _ => exact failsOnly_throw hfault
    · cases changed <;> exact failsOnly_pure _

theorem resolveAll (ids : List DependencyId) (report : RecomputeReport) (givenUp : List TaskId) :
    FailsOnly P E (Workplan.resolveAll Host.alone ids report givenUp) := by
  induction ids generalizing report givenUp with
  | nil => exact failsOnly_pure _
  | cons id ids ih =>
    exact .bind (keeps_resolveDependency h.kept _ _ _) (h.resolveDependency _ _ _)
      fun _ _ _ _ => ih _ _

/-- Working off a reach fails only as commits fail. -/
theorem resolveReach (reach : Reach) (report : RecomputeReport) (givenUp : List TaskId) :
    FailsOnly P E (Workplan.resolveReach Host.alone reach report givenUp) := by
  induction reach generalizing report givenUp with
  | nil => exact failsOnly_pure _
  | cons wave farther ih =>
    exact .bind (keeps_tell h.kept _) (failsOnly_tell _ _) fun _ _ _ _ =>
      .bind (keeps_resolveAll h.kept _ _ _) (h.resolveAll _ _ _) fun _ _ _ _ => ih _ _

theorem resolveReaches (reaches : List (TaskId × Reach)) (report : RecomputeReport) :
    FailsOnly P E (Workplan.resolveReaches Host.alone reaches report) := by
  induction reaches generalizing report with
  | nil => exact failsOnly_pure _
  | cons first rest ih =>
    exact .bind (keeps_tell h.kept _) (failsOnly_tell _ _) fun _ _ _ _ =>
      .bind (keeps_resolveReach h.kept _ _ _) (h.resolveReach _ _ _) fun _ _ _ _ => ih _

/-- Fitting containers of the project fails only as commits fail. -/
theorem fitAll {containers : List TaskId} (hall : ∀ c ∈ containers, c ∈ p.tasks.map Task.id) :
    FailsOnly P E (Workplan.fitAll Host.alone containers) := by
  induction containers with
  | nil => exact failsOnly_pure _
  | cons container rest ih =>
    have hrest := ih fun c hc => hall c (List.mem_cons_of_mem container hc)
    exact .bind (keeps_fitContainer (h.kept container))
      (h.fit container (hall _ List.mem_cons_self))
      fun _ _ _ _ => .bind (keeps_fitAll h.kept rest) hrest fun _ _ _ _ => failsOnly_pure _

theorem fitting (tasks : List TaskId) : FailsOnly P E (Workplan.fit Host.alone tasks) := by
  refine .bind (keeps_read _ _) (failsOnly_read _ _) fun q containers hq hcontainers =>
    h.fitAll fun c hc => ?_
  obtain ⟨x, -, hinside⟩ := (h.sound hq).mem_containersOf.mp (Except.ok.inj hcontainers ▸ hc)
  rw [← (h.frame hq).ids]
  exact ((h.sound hq).mem_of_inside hinside).2

/-- **A recomputation fails before anything moves, or for one of the expected reasons.** -/
theorem recompute_error (hp : P p) {changed : List TaskId}
    (hfault : (p.recompute changed).1 = .error fault) :
    (p.recompute changed).2 = p ∨ E fault := by
  cases hreaches : p.reaches changed with
  | error early =>
    left
    rw [Project.recompute_of_error hreaches]
  | ok reaches =>
    right
    rw [Project.recompute_of_reaches hreaches] at hfault
    exact FailsOnly.bind (keeps_resolveReaches h.kept _ _) (h.resolveReaches _ _) (fun _ _ _ _ =>
      .bind (keeps_fit h.kept _) (h.fitting _) fun _ _ _ _ => failsOnly_pure _) p hp fault hfault

/-- **So does a recomputation of the whole project.** -/
theorem recomputeAll_error (hp : P p) (hfault : p.recomputeAll.1 = .error fault) :
    p.recomputeAll.2 = p ∨ E fault := by
  rw [Project.recomputeAll_eq] at hfault ⊢
  cases hreach : p.reach p.independent with
  | error cycle => exact .inl rfl
  | ok reach =>
    right
    rw [hreach] at hfault
    exact FailsOnly.bind (keeps_resolveReach h.kept _ _ _) (h.resolveReach _ _ _) (fun _ _ _ _ =>
      .bind (keeps_fit h.kept _) (h.fitting _) fun _ _ _ _ => failsOnly_pure _) p hp fault hfault

end Confined

/-! ## Where nothing can be reversed -/

namespace Project

variable {start finish day : Day} {duration : Duration}

/-- The tasks of the project go forward in time. -/
def Forward (p : Project) : Prop := ∀ t ∈ p.tasks, t.start ≤ t.finish ∧ 0 ≤ t.duration.count

namespace Forward

variable (hp : p.Forward)
include hp

/-- A write keeps lengths from being negative, if it brings none. -/
theorem write {anchor? : Option Anchor} {r : Changed}
    (hpos : start ≤ finish → 0 ≤ duration.count)
    (h : p.write id start finish duration anchor? = .ok r) : r.project.Forward := by
  rw [Project.write] at h
  split at h
  · cases h
  next hle =>
  rw [not_lt] at hle
  obtain ⟨t, -, h⟩ := exists_of_bind_eq_ok h
  cases h
  intro u hu
  obtain ⟨v, hv, rfl⟩ := List.mem_map.mp hu
  dsimp only
  split
  · exact ⟨hle, hpos hle⟩
  · exact hp v hv

theorem revise {revision : Revision} {r : Changed}
    (hpos : ∀ duration, revision.duration? = some duration → 0 ≤ duration.count)
    (h : p.revise id revision = .ok r) : r.project.Forward := by
  rw [Project.revise] at h
  obtain ⟨t, -, h⟩ := exists_of_bind_eq_ok h
  obtain ⟨⟨finish, duration⟩, hspan, hwrite⟩ := exists_of_bind_eq_ok h
  refine hp.write (fun hle => ?_) hwrite
  rw [revisedSpan] at hspan
  split at hspan
  · cases hspan
    exact le_rfl
  split at hspan
  · next hgiven =>
    obtain ⟨stop, -, hpair⟩ := exists_of_bind_eq_ok hspan
    cases hpair
    exact hpos _ hgiven
  · cases hspan
    exact Calendar.workingLength_nonneg hle

theorem startAt {r : Changed} (h : p.startAt id day = .ok r) : r.project.Forward := by
  rw [Project.startAt] at h
  obtain ⟨t, ht, h⟩ := exists_of_bind_eq_ok h
  have hlength : 0 ≤ t.duration.count := (hp t (mem_of_task? (get_eq_ok_iff.mp ht))).2
  dsimp only at h
  split at h
  · exact hp.revise (fun _ hnone => by cases hnone) h
  split at h
  · cases h
    exact hp
  split at h
  · refine hp.revise (fun duration hsome => ?_) h
    cases hsome
    exact hlength
  · rw [slide, ht] at h
    dsimp only [bind, Except.bind] at h
    split at h
    · cases h
    split at h
    · cases h
    split at h
    · exact hp.write (fun _ => hlength) h
    · split at h
      · cases h
      · exact hp.write (fun _ => hlength) h

end Forward

/-- Commits keep lengths from being negative. -/
theorem keptByCommits_forward (id : TaskId) : KeptByCommits Host.alone Forward id :=
  .of_changes (fun hp hr => hp.revise (fun _ hnone => by cases hnone) hr) fun hp hr => hp.startAt hr

theorem confined_sound (hp : p.Sound) : Confined p (fun q => q.Sound ∧ Redates (fun _ => True) p q)
    fun fault => fault = .overflow ∨ ∃ id start finish, fault = .invalidDates id start finish where
  kept id := (keptByCommits_sound id).and (keptByCommits_redates hp.ids_nodup trivial)
  sound hq := hq.1
  frame hq := hq.2.frame
  overflow := .inl rfl
  startAt hq hd h := by
    rw [← hq.2.frame.dependencies] at hd
    obtain ⟨t, ht⟩ := exists_task? (hq.1.dependant_mem _ hd)
    exact (startAt_error ht h).imp_right fun ⟨_, hfault⟩ => ⟨_, hfault⟩
  fit container hcontainer q hq fault h := by
    rw [← hq.2.frame.ids] at hcontainer
    obtain ⟨-, -, -, -, hfault⟩ := fitContainer_error hcontainer h
    exact .inr ⟨container, hfault⟩

/-- Where everything goes forward and no container waits, nothing can be reversed. -/
theorem confined_forward (hp : p.Sound)
    (hleaf : ∀ d ∈ p.dependencies, p.hasChildren d.dependant = false) :
    Confined p (fun q => (q.Sound ∧ Redates (fun _ => True) p q) ∧ q.Forward) (· = .overflow) where
  kept id := ((keptByCommits_sound id).and (keptByCommits_redates hp.ids_nodup trivial)).and
    (keptByCommits_forward id)
  sound hq := hq.1.1
  frame hq := hq.1.2.frame
  overflow := rfl
  startAt {q d day fault} hq hd h := by
    have hchildless : q.hasChildren d.dependant = false := by
      rw [hq.1.2.frame.hasChildren]
      exact hleaf d hd
    rw [← hq.1.2.frame.dependencies] at hd
    obtain ⟨t, ht⟩ := exists_task? (hq.1.1.dependant_mem _ hd)
    refine (startAt_error_of_leaf ht hchildless h).resolve_right fun ⟨hneg, _⟩ => ?_
    exact absurd (hq.2 t (mem_of_task? ht)).2 (not_le.mpr hneg)
  fit container hcontainer q hq fault h := by
    rw [← hq.1.2.frame.ids] at hcontainer
    obtain ⟨start, finish, hspan, hlt, -⟩ := fitContainer_error hcontainer h
    exact absurd (le_of_childSpan? (fun t ht => (hq.2 t ht).1) hspan) (not_le.mpr hlt)

end Project

/-! ## Failed runs -/

/-- **A failed run has moved nothing, or a task would end before it starts.**  The latter does not
happen where all tasks go forward and no container waits for anything. -/
theorem unmoved_of_fault (hp : p.Reachable) {run : Except Fault RecomputeReport × Project}
    (hrun : run = p.recomputeAll ∨ ∃ changed, run = p.recompute changed)
    (hfault : run.1 = .error fault) (hover : fault ≠ .overflow) :
    (run.2 = p ∨ ∃ id start finish, fault = .invalidDates id start finish) ∧
      ((∀ d ∈ p.dependencies, p.hasChildren d.dependant = false) →
        (∀ t ∈ p.tasks, t.start ≤ t.finish ∧ 0 ≤ t.duration.count) → run.2 = p) := by
  have hcause : ∀ {P : Project → Prop} {E : Fault → Prop}, Confined p P E → P p →
      run.2 = p ∨ E fault := by
    intro P E h hstart
    rcases hrun with rfl | ⟨changed, rfl⟩
    · exact h.recomputeAll_error hstart hfault
    · exact h.recompute_error hstart hfault
  have hinitial : p.Sound ∧ p.Redates (fun _ => True) p := ⟨hp.sound, .refl _ p⟩
  refine ⟨?_, fun hleaf hforward => ?_⟩
  · rcases hcause (Project.confined_sound hp.sound) hinitial with h | h | h
    · exact .inl h
    · exact absurd h hover
    · exact .inr h
  · have h := hcause (Project.confined_forward hp.sound hleaf) ⟨hinitial, hforward⟩
    exact h.resolve_right hover

/-- Walls that follow a survey, and a roof and a chimney that wait for each other. -/
def ringPlan : Project :=
  (Project.empty .standard).after [
    .addTask "survey" (Day.first.advance 4) (.days 5),
    .addTask "walls" (Day.first.advance 4) (.days 1),
    .addTask "roof" (Day.first.advance 4) (.days 1),
    .addTask "chimney" (Day.first.advance 4) (.days 1),
    .addDependency ⟨1⟩ ⟨2⟩ .finishStart .strong 0,
    .addDependency ⟨3⟩ ⟨4⟩ .finishStart .strong 0,
    .addDependency ⟨4⟩ ⟨3⟩ .finishStart .strong 0]

/-- The walls are not moved by a batch that the roof is part of. -/
theorem unmoved_of_fault_ringPlan :
    ringPlan.recompute [⟨1⟩, ⟨3⟩] = (.error (.cyclic ⟨[⟨4⟩, ⟨3⟩]⟩), ringPlan) ∧
      (ringPlan.recompute [⟨1⟩]).1 = .ok ⟨[⟨2⟩], [], [], false⟩ := by
  have hp : ringPlan.Reachable := (Project.Reachable.empty _).after _
  have hfault : (ringPlan.recompute [⟨1⟩, ⟨3⟩]).1 = .error (.cyclic ⟨[⟨4⟩, ⟨3⟩]⟩) := by
    decide +kernel
  obtain ⟨-, hunmoved⟩ := unmoved_of_fault hp (.inr ⟨[⟨1⟩, ⟨3⟩], rfl⟩) hfault (by decide)
  have hsame := hunmoved (by decide +kernel) (by decide +kernel)
  refine ⟨?_, by decide +kernel⟩
  rw [← hfault]
  exact Prod.ext rfl hsame

/-- Walls and a house that follow a survey.  The roof is inside the house. -/
def crowdedPlan : Project :=
  (Project.empty .standard).after [
    .addTask "survey" (Day.first.advance 4) (.days 5),
    .addTask "walls" (Day.first.advance 4) (.days 1),
    .addTask "house" (Day.first.advance 4) (.days 1),
    .addTask "roof" (Day.first.advance 4) (.days 1),
    .place ⟨4⟩ ⟨3⟩,
    .addDependency ⟨1⟩ ⟨2⟩ .finishStart .strong 0,
    .addDependency ⟨1⟩ ⟨3⟩ .finishStart .strong 0]

/-- The walls are moved, and then the house is refused: it keeps its end, and would start behind
it. -/
theorem recompute_crowdedPlan : crowdedPlan.Reachable ∧
    (∃ start finish, (crowdedPlan.recompute [⟨1⟩]).1 = .error (.invalidDates ⟨3⟩ start finish)) ∧
    (crowdedPlan.recompute [⟨1⟩]).2.task? ⟨2⟩ ≠ crowdedPlan.task? ⟨2⟩ := by
  refine ⟨(Project.Reachable.empty _).after _, ?_, by decide +kernel⟩
  exact ⟨⟨9, by decide⟩, ⟨5, by decide⟩, by decide +kernel⟩

end Workplan
