import Workplan.Proofs.Engines
import Workplan.Proofs.Sound
import Workplan.Session.React

/-!
# Edits, one write after the other

An edit answers a whole new project.  Where the tables of a project are kept in place, they can only
be written one after the other, and an edit that is refused on the way would leave a project behind
that is half changed.  This does not happen: written out in this way, every edit finds what refuses
it before it writes anything, and in the end has written just what makes the new project.

- `Stepwise.atOnce`: a whole new project, or nothing.
- `Stepwise.insertTask`, `Stepwise.removeTask` and others: the operations, write by write.
- `Stepwise.write`: new dates of one task, field by field.
- `Stepwise.edit_eq`: an edit comes to the same write by write, also if it is refused.
- `Desk.editStepwise_eq`: and so it does where others watch the project.
-/

namespace Workplan

open Act

namespace Stepwise

variable {α β γ : Type} {p q : Project}

/-- What an operation comes to that answers a new project with something else, or refuses. -/
def atOnce (p : Project) (view : β → α × Project) : Except Fault β → Except Fault α × Project
  | .ok b => (.ok (view b).1, (view b).2)
  | .error fault => (.error fault, p)

/-! ## Tasks and their nesting -/

/-- Adds a task: to the names, then to the tasks, then to the nesting. -/
def insertTask (name : String) (start finish : Day) (duration : Duration) (milestone : Bool) :
    Act Project TaskId := do
  let id : TaskId := ⟨(← get).tasksAdded + 1⟩
  if idLimit ≤ id.number then throw (.capacityExceeded .tasks)
  else match (← get).keys.bind? name id with
    | none => throw (.duplicateTask name)
    | some keys =>
      modify fun p => { p with keys }
      modify fun p => { p with
        tasks := p.tasks ++ [⟨id, name, start, finish, duration, milestone, .absent⟩]
        tasksAdded := p.tasksAdded + 1 }
      modify fun p => { p with placements := p.placements ++ [⟨id, .root⟩] }
      return id

/-- Takes out one dependency. -/
def detach (id : DependencyId) : Act Project Unit :=
  modify fun p => { p with dependencies := p.dependencies.filter fun d => d.id ≠ id }

/-- Takes out one task: its dependencies one by one, its row, what is nested in it, and its name. -/
def discard (id : TaskId) : Act Project Unit := do
  let p ← get
  ((p.outgoing id ++ p.incoming id).map Dependency.id).forM detach
  modify fun p => { p with tasks := p.tasks.filter fun t => t.id ≠ id }
  modify fun p => { p with placements := p.placements.filter fun s => s.parent ≠ id }
  modify fun p => { p with keys := p.keys.unbind id }

/-- Removes a task: it leaves its container, then everything inside it is taken out, and it
itself. -/
def removeTask (id : TaskId) : Act Project Unit := do
  let _ ← Host.alone.ask fun p => p.get id
  let doomed := (← get).descendants id ++ [id]
  modify fun p => { p with placements := p.placements.filter fun s => s.child ≠ id }
  doomed.forM discard

/-- Nests a task: it leaves its container, then it gets into the new one. -/
def nest (child parent : TaskId) : Act Project Unit := do
  if child = parent ∨ (← get).isAncestor child parent then
    throw (.invalidHierarchy child parent .insideItself)
  modify fun p => { p with placements := p.placements.filter fun s => s.child ≠ child }
  modify fun p => { p with placements := p.placements ++ [⟨child, parent⟩] }

/-- Places a task under another one, or under the root. -/
def place (child parent : TaskId) : Act Project Unit := do
  let _ ← Host.alone.ask fun p => p.get child
  if parent ≠ .root then let _ ← Host.alone.ask fun p => p.get parent
  nest child parent

/-! ## Dependencies -/

/-- Adds a dependency: to the dependencies, then to the numbers given away. -/
def addDependency (dependee dependant : TaskId) (kind : LinkKind) (hardness : Hardness)
    (lag : Int) : Act Project DependencyId := do
  let _ ← Host.alone.ask fun p => p.get dependee
  let _ ← Host.alone.ask fun p => p.get dependant
  if dependee = dependant then throw (.invalidDependency dependee dependant .sameTask)
  let p ← get
  if p.isAncestor dependee dependant || p.isAncestor dependant dependee then
    throw (.invalidDependency dependee dependant .sameBranch)
  if (p.incoming dependant).any fun d => d.dependee = dependee then
    throw (.invalidDependency dependee dependant .duplicate)
  let id : DependencyId := ⟨p.dependenciesAdded⟩
  if idLimit ≤ id.number then throw (.capacityExceeded .dependencies)
  modify fun p => { p with
    dependencies := p.dependencies ++ [⟨id, dependee, dependant, kind, hardness, lag⟩] }
  modify fun p => { p with dependenciesAdded := p.dependenciesAdded + 1 }
  return id

/-- Removes a dependency. -/
def removeDependency (id : DependencyId) : Act Project Unit := do
  if ((← get).dependency? id).isNone then throw (.invalidDependency .root .root (.unknown id))
  detach id

/-! ## Dates -/

/-- The project with a change in one row. -/
def updateRow (id : TaskId) (f : Task → Task) (p : Project) : Project :=
  { p with tasks := p.tasks.map fun t => if t.id = id then f t else t }

/-- Writes new dates, a new duration and possibly a new anchor, one field after the other. -/
def write (id : TaskId) (start finish : Day) (duration : Duration)
    (anchor? : Option Anchor) : Act Project (Bool × Option Event) := do
  if finish < start then throw (.invalidDates id start finish)
  let old ← Host.alone.ask fun p => p.get id
  let new := { old with start, finish, duration, anchor := anchor?.getD old.anchor }
  let moved := old.start ≠ start ∨ old.finish ≠ finish
  modify <| updateRow id fun t => { t with start }
  modify <| updateRow id fun t => { t with finish }
  modify <| updateRow id fun t => { t with duration }
  if let some anchor := anchor? then
    modify <| updateRow id fun t => { t with anchor.kind? := anchor.kind? }
    modify <| updateRow id fun t => { t with anchor.day? := anchor.day? }
  return (decide (new ≠ old),
    if moved then some (.datesChanged id old.start old.finish start finish) else none)

/-- Carries out a revision. -/
def revise (id : TaskId) (r : Revision) : Act Project (Bool × Option Event) := do
  let old ← Host.alone.ask fun p => p.get id
  let start := r.start?.getD old.start
  let (finish, duration) ← Host.alone.ask fun p => p.revisedSpan old start r
  write id start finish duration r.anchor?

/-- Moves a task by working time. -/
def slide (id : TaskId) (lengths : List Duration) :
    Act Project (Bool × Option Event) := do
  let old ← Host.alone.ask fun p => p.get id
  let total : Duration := ⟨← Host.alone.ask fun _ => Project.totalCount 0 lengths, old.grain⟩
  let landing ← Host.alone.ask fun p => p.calendar.shift old.start total
  let p ← get
  let start := if 0 < total.count then p.calendar.onOrAfter old.grain landing else landing
  let finish ← if old.milestone then pure start
    else Host.alone.ask fun p => p.calendar.shift start old.duration
  write id start finish old.duration none

/-- Moves a task to a start. -/
def startAt (id : TaskId) (start : Day) : Act Project (Bool × Option Event) := do
  let old ← Host.alone.ask fun p => p.get id
  let p ← get
  if p.hasChildren id then revise id { start? := some start }
  else
    let target := p.calendar.onOrAfter old.grain start
    let way := p.calendar.workingLength old.grain old.start target
    if target = old.start then return (false, none)
    else if way.isZero then
      revise id { start? := some target, duration? := some old.duration }
    else slide id [way]

/-- Carries out a change. -/
def change : Change → Act Project (Bool × Option Event)
  | .revise id r => revise id r
  | .slide id lengths => slide id lengths
  | .startAt id start => startAt id start

/-- Carries out an edit.  The answer is the reply and what is to be announced. -/
def edit : Edit → Act Project (Reply × Option Event)
  | .addTask name start duration => do
    let finish ← Host.alone.ask fun p => p.calendar.shift start duration
    return (.task (← insertTask name start finish duration false), none)
  | .addMilestone name day => do
    return (.task (← insertTask name day day (.days 0) true), none)
  | .removeTask id => do
    removeTask id
    return (.done, some .graphChanged)
  | .place child parent => do
    place child parent
    return (.done, some .graphChanged)
  | .addDependency dependee dependant kind hardness lag => do
    return (.dependency (← addDependency dependee dependant kind hardness lag),
      some .graphChanged)
  | .removeDependency id => do
    removeDependency id
    return (.done, some .graphChanged)
  | .change c => do
    let done ← change c
    return (.changed done.1, done.2)

/-! ## Checks -/

theorem get_bind {σ : Type} (f : σ → Act σ α) (s : σ) : (get >>= f) s = f s s := rfl

theorem modify_bind {σ : Type} (g : σ → σ) (f : Unit → Act σ α) (s : σ) :
    (modify g >>= f) s = f () (g s) := rfl

/-- What is asked for may refuse the operation, and leaves the project as it is. -/
theorem ask_bind_eq {view : γ → α × Project} {g : Project → Except Fault β}
    {f : β → Act Project α} {f' : β → Except Fault γ}
    (h : ∀ b, g p = .ok b → f b p = atOnce p view (f' b)) :
    (Host.alone.ask g >>= f) p = atOnce p view (g p >>= f') := by
  rcases hb : g p with fault | b
  · have hask : Host.alone.ask g p = (.error fault, p) := by rw [ask_alone, hb]
    exact bind_of_error hask
  · have hask : Host.alone.ask g p = (.ok b, p) := by rw [ask_alone, hb]
    rw [bind_of_ok hask]
    exact h b hb

/-- The answer of an operation, with a reply made of it. -/
theorem return_eq {act : Act Project α} {view : γ → α × Project} {x : Except Fault γ}
    {answer : α → Reply × Option Event} {new : γ → Outcome} (h : act p = atOnce p view x)
    (hnew : ∀ c, answer (view c).1 = ((new c).reply, (new c).event?) ∧
      (view c).2 = (new c).project) :
    (act >>= fun a => pure (answer a)) p =
      atOnce p (fun r => ((r.reply, r.event?), r.project)) (x.map new) := by
  cases x with
  | error fault => exact bind_of_error h
  | ok c =>
    obtain ⟨hanswer, hproject⟩ := hnew c
    rw [bind_of_ok h]
    show (Except.ok (answer (view c).1), (view c).2) = (Except.ok _, (new c).project)
    rw [hanswer, hproject]

/-! ## Structure -/

/-- Adding a task table by table is adding it at once. -/
theorem insertTask_eq (name : String) (start finish : Day) (duration : Duration)
    (milestone : Bool) (p : Project) : insertTask name start finish duration milestone p =
      atOnce p id (p.insertTask name start finish duration milestone) := by
  rw [Project.insertTask, insertTask, get_bind]
  by_cases hroom : idLimit ≤ p.tasksAdded + 1
  · rw [if_pos hroom, if_pos hroom]
    rfl
  · rw [if_neg hroom, if_neg hroom, get_bind]
    cases p.keys.bind? name ⟨p.tasksAdded + 1⟩ <;> rfl

/-- Nesting checks first and writes after, so it is done at once or not at all. -/
theorem nest_eq (child parent : TaskId) (p : Project) : nest child parent p =
    atOnce p (fun q => ((), q)) (
      if child = parent ∨ p.isAncestor child parent then
        .error (.invalidHierarchy child parent .insideItself)
      else .ok { p with
        placements := (p.placements.filter fun s => s.child ≠ child) ++ [⟨child, parent⟩] }) := by
  rw [nest, get_bind]
  by_cases hinside : child = parent ∨ p.isAncestor child parent
  · simp only [if_pos hinside]
    rfl
  · simp only [if_neg hinside]
    rfl

theorem place_eq (child parent : TaskId) (p : Project) : place child parent p =
    atOnce p (fun q => ((), q)) (p.place child parent) := by
  rw [Project.place, place]
  refine ask_bind_eq fun _ _ => ?_
  by_cases hroot : parent ≠ .root
  · simp only [if_pos hroot]
    exact ask_bind_eq fun _ _ => nest_eq child parent p
  · simp only [if_neg hroot]
    exact nest_eq child parent p

/-- Adding a dependency table by table is adding it at once, checks included. -/
theorem addDependency_eq (dependee dependant : TaskId) (kind : LinkKind) (hardness : Hardness)
    (lag : Int) (p : Project) : addDependency dependee dependant kind hardness lag p =
      atOnce p id (p.addDependency dependee dependant kind hardness lag) := by
  rw [Project.addDependency, addDependency]
  refine ask_bind_eq fun _ _ => ask_bind_eq fun _ _ => ?_
  by_cases hsame : dependee = dependant
  · simp only [if_pos hsame]
    rfl
  simp only [if_neg hsame]
  rw [get_bind]
  by_cases hbranch : (p.isAncestor dependee dependant || p.isAncestor dependant dependee) = true
  · simp only [if_pos hbranch]
    rfl
  simp only [if_neg hbranch]
  by_cases hlinked : ((p.incoming dependant).any fun d => d.dependee = dependee) = true
  · simp only [if_pos hlinked]
    rfl
  simp only [if_neg hlinked]
  by_cases hroom : idLimit ≤ p.dependenciesAdded
  · simp only [if_pos hroom]
    rfl
  · simp only [if_neg hroom]
    rfl

theorem removeDependency_eq (id : DependencyId) (p : Project) : removeDependency id p =
    atOnce p (fun q => ((), q)) (p.removeDependency id) := by
  rw [Project.removeDependency, removeDependency, get_bind]
  by_cases hnone : (p.dependency? id).isNone
  · rw [if_pos hnone, if_pos hnone]
    rfl
  · rw [if_neg hnone, if_neg hnone]
    rfl

/-! ## Removed tasks -/

/-- Actions that do not fail, one for each member of a list. -/
theorem forM_eq {I : Project → Prop} {f : β → Act Project Unit} {g : Project → β → Project}
    (hf : ∀ p b, I p → f b p = (.ok (), g p b)) (hI : ∀ p b, I p → I (g p b)) (hp : I p)
    (bs : List β) : bs.forM f p = (.ok (), bs.foldl g p) := by
  induction bs generalizing p with
  | nil => rfl
  | cons b bs ih => exact (bind_of_ok (hf p b hp)).trans (ih (hI p b hp))

/-- The project without a task, with what is nested in it left in the air. -/
def without (p : Project) (id : TaskId) : Project :=
  { p with
    tasks := p.tasks.filter fun t => t.id ≠ id
    placements := p.placements.filter fun s => s.parent ≠ id
    dependencies := p.dependencies.filter fun d => d.dependee ≠ id ∧ d.dependant ≠ id
    keys := p.keys.unbind id }

/-- Detaching one by one is filtering the dependencies. -/
theorem foldl_detach (ids : List DependencyId) (p : Project) :
    ids.foldl (fun p id => { p with dependencies := p.dependencies.filter fun d => d.id ≠ id }) p =
      { p with dependencies := p.dependencies.filter fun d => d.id ∉ ids } := by
  induction ids generalizing p with
  | nil => simp
  | cons id ids ih =>
    have hfilter : ((p.dependencies.filter fun d => d.id ≠ id).filter fun d => d.id ∉ ids) =
        p.dependencies.filter fun d => d.id ∉ id :: ids := by
      rw [List.filter_filter]
      refine List.filter_congr fun d _ => ?_
      simp [Bool.and_comm]
    rw [List.foldl_cons, ih]
    exact congrArg (fun dependencies => { p with dependencies }) hfilter

/-- The dependencies with the numbers of those at either end of a task are just these. -/
theorem filter_touching (hnodup : (p.dependencies.map Dependency.id).Nodup) (id : TaskId) :
    (p.dependencies.filter fun d => d.id ∉ (p.outgoing id ++ p.incoming id).map Dependency.id) =
      p.dependencies.filter fun d => d.dependee ≠ id ∧ d.dependant ≠ id := by
  have hlive : ∀ d ∈ p.outgoing id ++ p.incoming id, d ∈ p.dependencies := by
    intro d hd
    rcases List.mem_append.mp hd with hd | hd
    · exact (Project.mem_outgoing.mp hd).1
    · exact (Project.mem_incoming.mp hd).1
  refine List.filter_congr fun d hd => decide_eq_decide.mpr ?_
  rw [Project.mem_map_id_iff hnodup hlive hd, List.mem_append, Project.mem_outgoing,
    Project.mem_incoming, and_iff_right hd, and_iff_right hd, not_or]

/-- The dependencies of a task, taken out one by one. -/
theorem discard_eq (hnodup : (p.dependencies.map Dependency.id).Nodup) (id : TaskId) :
    discard id p = (.ok (), without p id) := by
  have hdetach := forM_eq (I := fun _ => True) (p := p) (f := detach)
    (fun _ _ _ => rfl) (fun _ _ _ => trivial) trivial
    ((p.outgoing id ++ p.incoming id).map Dependency.id)
  rw [discard, get_bind, bind_of_ok hdetach, foldl_detach, filter_touching hnodup]
  rfl

/-- Clearing tasks out one by one is filtering the tables. -/
theorem foldl_without (doomed : List TaskId) (p : Project) : doomed.foldl without p =
    { p with
      tasks := p.tasks.filter fun t => !doomed.contains t.id
      placements := p.placements.filter fun s => !doomed.contains s.parent
      dependencies := p.dependencies.filter fun d =>
        !doomed.contains d.dependee && !doomed.contains d.dependant
      keys := doomed.foldl KeyTable.unbind p.keys } := by
  induction doomed generalizing p with
  | nil => simp
  | cons id doomed ih =>
    rw [List.foldl_cons, ih, without, List.foldl_cons]
    simp only [List.filter_filter, List.contains_cons]
    congr 1
    · refine List.filter_congr fun t _ => ?_
      by_cases h : t.id = id <;> simp [h]
    · refine List.filter_congr fun s _ => ?_
      by_cases h : s.parent = id <;> simp [h]
    · refine List.filter_congr fun d _ => ?_
      by_cases h : d.dependee = id <;> by_cases h' : d.dependant = id <;>
        simp [beq_eq_decide, h, h']

/-- What is nested in something removed is what is removed itself, but for the task in question. -/
theorem mem_doomed_iff (hp : p.Nested) {id : TaskId} {s : Placement} (hs : s ∈ p.placements)
    (hid : id ≠ .root) : s.child ∈ p.descendants id ++ [id] ↔
      s.child = id ∨ s.parent ∈ p.descendants id ++ [id] := by
  simp only [List.mem_append, List.mem_singleton, hp.mem_descendants hid]
  by_cases hroot : s.parent = .root
  · -- nothing contains a top-level task
    have htop : ∀ x, p.parent? s.child ≠ some x := by
      intro x hx
      obtain ⟨hplace, hne⟩ := hp.parent?_eq_some_iff.mp hx
      have hholder := hp.holder?_eq_some_iff.mpr hplace
      rw [hp.holder?_eq_some_iff.mpr hs, hroot] at hholder
      exact hne (Option.some.inj hholder).symm
    have hout : ¬ p.Inside s.child id := by
      intro hin
      obtain ⟨x, hx, -⟩ := Relation.TransGen.head'_iff.mp hin
      exact htop x hx
    have hparent : ¬ (p.Inside s.parent id ∨ s.parent = id) := by
      rintro (hin | heq)
      · exact hp.ne_root (hp.mem_of_inside hin).1 hroot
      · exact hid (heq ▸ hroot)
    rw [or_iff_right hout, or_iff_left hparent]
  · have hup := hp.parent?_eq_some_iff.mpr ⟨hs, hroot⟩
    rw [Project.inside_of_parent? hup, or_comm, @eq_comm _ id, or_comm (a := s.parent = id)]

/-- A task that has left its container is removed with everything inside it, one task after the
other. -/
theorem removeTask_eq_foldl (hp : p.Sound) {id : TaskId} {t : Task} (ht : p.task? id = some t) :
    p.removeTask id = .ok ((p.descendants id ++ [id]).foldl without
      { p with placements := p.placements.filter fun s => s.child ≠ id }) := by
  have hplacements : ((p.placements.filter fun s => s.child ≠ id).filter
      fun s => !(p.descendants id ++ [id]).contains s.parent) =
        p.placements.filter fun s => !(p.descendants id ++ [id]).contains s.child := by
    rw [List.filter_filter]
    refine List.filter_congr fun s hs => ?_
    have := mem_doomed_iff hp.toNested hs (hp.ne_root_of_task? ht)
    rw [Bool.eq_iff_iff]
    simp only [Bool.and_eq_true, Bool.not_eq_true', Bool.eq_false_iff, ne_eq,
      List.contains_iff_mem, decide_eq_true_eq, this, not_or]
    exact and_comm
  rw [foldl_without, hplacements, Project.removeTask, Project.get_of_task? ht]
  rfl

/-- Removing a task step by step is removing it at once. -/
theorem removeTask_eq (hp : p.Sound) (id : TaskId) : removeTask id p =
    atOnce p (fun q => ((), q)) (p.removeTask id) := by
  rw [removeTask]
  cases ht : p.task? id with
  | none =>
    have hget : p.get id = .error (.taskNotFound id) := by rw [Project.get, ht]
    have hask : Host.alone.ask (fun p => p.get id) p = (.error (.taskNotFound id), p) := by
      rw [ask_alone, hget]
    rw [bind_of_error hask, Project.removeTask, hget]
    rfl
  | some t =>
    have hask : Host.alone.ask (fun p => p.get id) p = (.ok t, p) := by
      rw [ask_alone, Project.get_of_task? ht]
    have hall := forM_eq (I := fun p => (p.dependencies.map Dependency.id).Nodup)
      (p := { p with placements := p.placements.filter fun s => s.child ≠ id })
      (fun p x h => discard_eq h x) (fun p x h => h.sublist (List.filter_sublist.map _))
      hp.dependencies_nodup (p.descendants id ++ [id])
    rw [bind_of_ok hask, get_bind, modify_bind, hall, removeTask_eq_foldl hp ht]
    rfl

/-! ## Written rows -/

/-- Two updates of a row in succession are one. -/
theorem updateRow_updateRow {id : TaskId} {f g : Task → Task} (hf : ∀ t, (f t).id = t.id) :
    updateRow id g (updateRow id f p) = updateRow id (g ∘ f) p := by
  rw [updateRow, updateRow, updateRow, List.map_map]
  refine congrArg (fun tasks => { p with tasks }) (List.map_congr_left fun t _ => ?_)
  by_cases h : t.id = id
  · simp [h, hf]
  · simp [h]

/-- Updating a row in place is replacing it, since it stands under its key alone. -/
theorem updateRow_eq_replace (hnodup : (p.tasks.map Task.id).Nodup) {id : TaskId} {old : Task}
    (hold : p.task? id = some old) {f : Task → Task} (hf : (f old).id = old.id) :
    updateRow id f p = p.replace (f old) := by
  refine congrArg (fun tasks => { p with tasks }) (List.map_congr_left fun t ht => ?_)
  have hid := Project.id_of_task? hold
  by_cases h : t.id = id
  · have hself : t = old :=
      List.inj_on_of_nodup_map hnodup ht (Project.mem_of_task? hold) (h.trans hid.symm)
    rw [if_pos h, if_pos (h.trans (hf.trans hid).symm), hself]
  · rw [if_neg h, if_neg fun heq => h (heq.trans (hf.trans hid))]

/-- Writing start, finish, duration and anchor one field after the other is writing them
at once. -/
theorem write_eq (hnodup : (p.tasks.map Task.id).Nodup) (id : TaskId) (start finish : Day)
    (duration : Duration) (anchor? : Option Anchor) : write id start finish duration anchor? p =
      atOnce p (fun r => ((r.changed, r.event?), r.project))
        (p.write id start finish duration anchor?) := by
  rw [Project.write, write]
  by_cases hreversed : finish < start
  · rw [if_pos hreversed, if_pos hreversed]
    rfl
  rw [if_neg hreversed, if_neg hreversed]
  refine ask_bind_eq fun old hold => ?_
  have ht := Project.get_eq_ok_iff.mp hold
  cases anchor? with
  | none =>
    show (Except.ok _, updateRow id _ (updateRow id _ (updateRow id _ p))) =
      (Except.ok _, p.replace _)
    rw [updateRow_updateRow, updateRow_updateRow, updateRow_eq_replace hnodup ht]
    all_goals intros; rfl
  | some anchor =>
    show (Except.ok _, updateRow id _ (updateRow id _ (updateRow id _ (updateRow id _
      (updateRow id _ p))))) = (Except.ok _, p.replace _)
    rw [updateRow_updateRow, updateRow_updateRow, updateRow_updateRow, updateRow_updateRow,
      updateRow_eq_replace hnodup ht]
    all_goals intros; rfl

theorem revise_eq (hnodup : (p.tasks.map Task.id).Nodup) (id : TaskId) (r : Revision) :
    revise id r p = atOnce p (fun r => ((r.changed, r.event?), r.project)) (p.revise id r) := by
  rw [Project.revise, revise]
  exact ask_bind_eq fun old _ => ask_bind_eq fun _ _ => write_eq hnodup id _ _ _ _

theorem slide_eq (hnodup : (p.tasks.map Task.id).Nodup) (id : TaskId) (lengths : List Duration) :
    slide id lengths p =
      atOnce p (fun r => ((r.changed, r.event?), r.project)) (p.slide id lengths) := by
  rw [Project.slide, slide]
  refine ask_bind_eq fun old _ => ask_bind_eq fun _ _ => ask_bind_eq fun _ _ => ?_
  rw [get_bind]
  by_cases hpoint : old.milestone
  · simp only [if_pos hpoint, pure_bind]
    exact write_eq hnodup id _ _ _ _
  · simp only [if_neg hpoint]
    exact ask_bind_eq fun _ _ => write_eq hnodup id _ _ _ _

theorem startAt_eq (hnodup : (p.tasks.map Task.id).Nodup) (id : TaskId) (start : Day) :
    startAt id start p =
      atOnce p (fun r => ((r.changed, r.event?), r.project)) (p.startAt id start) := by
  rw [Project.startAt, startAt]
  refine ask_bind_eq fun old _ => ?_
  rw [get_bind]
  dsimp only
  split_ifs
  · exact revise_eq hnodup id _
  · rfl
  · exact revise_eq hnodup id _
  · exact slide_eq hnodup id _

/-- Every change of a row is made at once or not at all. -/
theorem change_eq (hnodup : (p.tasks.map Task.id).Nodup) (c : Change) :
    change c p = atOnce p (fun r => ((r.changed, r.event?), r.project)) (p.change c) := by
  cases c with
  | revise id r => exact revise_eq hnodup id r
  | slide id lengths => exact slide_eq hnodup id lengths
  | startAt id start => exact startAt_eq hnodup id start

/-! ## Edits -/

/-- **An edit comes to the same write by write**, and if it is refused it has written nothing. -/
theorem edit_eq (hp : p.Sound) (e : Edit) :
    edit e p = atOnce p (fun r => ((r.reply, r.event?), r.project)) (p.edit e) := by
  cases e with
  | addTask name start duration =>
    have hadd : (Host.alone.ask (fun p => p.calendar.shift start duration) >>= fun finish =>
        insertTask name start finish duration false) p =
          atOnce p id (p.addTask name start duration) :=
      ask_bind_eq fun finish _ => insertTask_eq name start finish duration false p
    rw [edit, ← bind_assoc]
    exact return_eq hadd fun _ => ⟨rfl, rfl⟩
  | addMilestone name day =>
    exact return_eq (insertTask_eq name day day (.days 0) true p) fun _ => ⟨rfl, rfl⟩
  | removeTask id => exact return_eq (removeTask_eq hp id) fun _ => ⟨rfl, rfl⟩
  | place child parent => exact return_eq (place_eq child parent p) fun _ => ⟨rfl, rfl⟩
  | addDependency dependee dependant kind hardness lag =>
    exact return_eq (addDependency_eq dependee dependant kind hardness lag p) fun _ => ⟨rfl, rfl⟩
  | removeDependency id => exact return_eq (removeDependency_eq id p) fun _ => ⟨rfl, rfl⟩
  | change c => exact return_eq (change_eq hp.ids_nodup c) fun _ => ⟨rfl, rfl⟩

end Stepwise

end Workplan
