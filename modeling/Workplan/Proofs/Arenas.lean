import Workplan.Proofs.Ordered
import Workplan.Proofs.Reactions
import Workplan.Proofs.Refinement
import Workplan.Proofs.Simulation

/-!
# Arenas stay consistent

Whatever is done to an arena, its tables agree with one another: the containers with the contents,
the lists of dependencies at both ends with the dependencies, and the names with the tasks.

- `Arena.Consistent`: the tables of an arena agree.
- `Arena.Represents.consistent`: they do where they represent a project whose parts agree.
- `Arena.Reachable.exists_represents`, `Project.Reachable.exists_represents`: edits make an arena
  for each project, and a project for each arena.
- `Arena.simulates_alone`, `Arena.Reachable.operate_represents`: an edit or a run on an arena is the
  same edit or run on the project that the arena holds.
- `consistent_after`: after any edits and runs, and in every session, the tables agree.
-/

namespace Workplan

namespace Arena

variable {a : Arena} {p : Project} {x y : TaskId} {n : Nat}

/-! ## All tables -/

/-- What contains a task directly, the root included. -/
def holder? (a : Arena) (id : TaskId) : Option TaskId :=
  if a.contains id then a.parentSlots[id.number]? else none

/-- What is met `n` steps above a task, going up from container to container. -/
def above (a : Arena) : (n : Nat) → TaskId → Option TaskId
  | 0, x => some x
  | n + 1, x => (a.holder? x).bind (a.above n)

/-- The tables of an arena agree. -/
structure Consistent (a : Arena) : Prop where
  -- all tables of tasks have the same slots, and what is in a slot knows its number
  parents_length : a.parentSlots.length = a.taskSlots.length
  children_length : a.childSlots.length = a.taskSlots.length
  outgoing_length : a.outgoingSlots.length = a.taskSlots.length
  incoming_length : a.incomingSlots.length = a.taskSlots.length
  root_empty : a.taskSlots[0]? = some none
  task_slot : ∀ i (t : Task), a.taskSlots[i]? = some (some t) → t.id.number = i
  dependency_slot : ∀ i (d : Dependency), a.dependencySlots[i]? = some (some d) → d.id.number = i
  -- going up from a task leads to the root, over tasks only and in as many steps as its depth tells
  parent_live : ∀ x, a.contains x →
    ∃ y, a.parentSlots[x.number]? = some y ∧ (y = .root ∨ a.contains y)
  above_root : ∀ x, a.contains x → ∀ n, a.above n x = some .root ↔ n = a.depth x
  isAncestor : ∀ x y, y ≠ .root → (a.isAncestor y x ↔
    Relation.TransGen (fun child parent => a.parent? child = some parent) x y)
  -- up and down agree
  mem_children : ∀ x y, x ∈ a.children y ↔ a.contains x ∧ a.parentSlots[x.number]? = some y
  children_nodup : ∀ y, (a.children y).Nodup
  -- from the root, the way down meets every task once, and containers first
  descendants_nodup : (a.descendants .root).Nodup
  mem_descendants : ∀ x, x ∈ a.descendants .root ↔ a.contains x
  parent_first : ∀ x y, a.parent? x = some y →
    (a.descendants .root).idxOf y < (a.descendants .root).idxOf x
  -- the loops that go up and down end by themselves
  seek_ends : ∀ x y n, a.room ≤ n → (loop (a.seek y) n (a.parent? x)).isSome
  ascend_ends : ∀ x n, a.room ≤ n → loop a.ascend n (0, some x) = some (a.depth x)
  sweep_ends : ∀ x n, a.room ≤ n → loop a.sweep n ([], a.children x) = some (a.descendants x)
  -- dependencies link two different tasks, each pair once
  ends_ne : ∀ id d, a.dependency? id = some d → d.dependee ≠ d.dependant
  ends_live : ∀ id d, a.dependency? id = some d → a.contains d.dependee ∧ a.contains d.dependant
  single : ∀ id id' d d', a.dependency? id = some d → a.dependency? id' = some d' →
    d.dependee = d'.dependee → d.dependant = d'.dependant → id = id'
  -- both ends of a dependency list it once, and nothing else
  mem_outgoing : ∀ x id,
    id ∈ row a.outgoingSlots x ↔ ∃ d, a.dependency? id = some d ∧ d.dependee = x
  mem_incoming : ∀ x id,
    id ∈ row a.incomingSlots x ↔ ∃ d, a.dependency? id = some d ∧ d.dependant = x
  outgoing_nodup : ∀ x, (row a.outgoingSlots x).Nodup
  incoming_nodup : ∀ x, (row a.incomingSlots x).Nodup
  -- tasks are found by their names, of which there are as many as tasks
  lookup : ∀ name x, a.lookup? name = some x ↔ ∃ t, a.task? x = some t ∧ t.name = name
  resolve : ∀ x name, a.keys.resolve? x = some name ↔ ∃ t, a.task? x = some t ∧ t.name = name
  name_unique : ∀ x y t u, a.task? x = some t → a.task? y = some u → t.name = u.name → x = y
  size : a.size = a.tasks.length

namespace Represents

section

variable (h : a.Represents p) (hp : p.Nested)
include h hp

theorem holder?_eq (x : TaskId) : a.holder? x = p.holder? x := by
  rw [holder?, h.contains_eq]
  split
  · next hx => exact h.getElem?_parentSlots hp hx
  · next hx => rwa [eq_comm, ← Option.not_isSome_iff_eq_none, hp.isSome_holder?]

theorem above_eq (n : Nat) (x : TaskId) : a.above n x = p.above n x := by
  induction n generalizing x with
  | zero => rfl
  | succ n ih => rw [above, Project.above, h.holder?_eq hp, funext ih]

theorem root_slot : a.taskSlots[0]? = some none := by
  have hroot : 0 < a.taskSlots.length := by
    rw [h.tasks_length]
    exact Nat.succ_pos _
  rw [List.getElem?_eq_getElem hroot]
  cases hslot : a.taskSlots[0] with
  | none => rfl
  | some t =>
    -- the number of the root is given to no task
    obtain ⟨ht, hnumber⟩ := (h.tasks.mem_iff 0 t).mp
      ((List.getElem?_eq_getElem hroot).trans (congrArg some hslot))
    exact absurd (TaskId.ext hnumber) (hp.id_ne_root t ht)

end

/-- A list of numbers at one end of the dependencies. -/
theorem mem_map_id_iff (h : a.Represents p) (hp : p.Consistent) {n : DependencyId}
    {f : Dependency → TaskId} :
    n ∈ (p.dependencies.filter fun d => f d = x).map Dependency.id ↔
      ∃ d, a.dependency? n = some d ∧ f d = x := by
  simp only [h.dependency?_eq, hp.dependency?, List.mem_map, List.mem_filter, decide_eq_true_eq]
  exact exists_congr fun d => and_right_comm

/-- **Tables that represent a project agree if its parts do.** -/
theorem consistent (h : a.Represents p) (hp : p.Nested) (hc : p.Consistent) : a.Consistent where
  parents_length := h.parents_length
  children_length := h.children_length
  outgoing_length := h.outgoing_length
  incoming_length := h.incoming_length
  root_empty := h.root_slot hp
  task_slot i t ht := ((h.tasks.mem_iff i t).mp ht).2
  dependency_slot i d hd := ((h.dependencies.mem_iff i d).mp hd).2
  parent_live x hx := by
    rw [h.contains_eq] at hx
    obtain ⟨y, hy⟩ := Option.isSome_iff_exists.mp ((hc.held x).mpr hx)
    refine ⟨y, (h.getElem?_parentSlots hp hx).trans hy, ?_⟩
    rw [h.contains_eq]
    exact hc.holder_mem x y hy
  above_root x hx n := by
    rw [h.above_eq hp, h.depth_eq hp]
    exact hc.above_root x (h.contains_eq x ▸ hx) n
  isAncestor x y hy := by
    simp only [h.isAncestor_eq hp, h.parent?_eq hp]
    exact hc.isAncestor x y hy
  -- a slot outside the project may still name a parent, so being live is part of the claim
  mem_children x y := by
    rw [h.children, hc.mem_children, h.contains_eq]
    constructor
    · intro hholder
      have hx : p.contains x := (hc.held x).mp (by rw [hholder]; rfl)
      exact ⟨hx, (h.getElem?_parentSlots hp hx).trans hholder⟩
    · rintro ⟨hx, hslot⟩
      exact (h.getElem?_parentSlots hp hx).symm.trans hslot
  children_nodup y := by
    rw [h.children]
    exact hc.children_nodup y
  descendants_nodup := by
    rw [h.descendants_eq hp]
    exact hc.descendants_nodup
  mem_descendants x := by
    rw [h.descendants_eq hp, h.contains_eq]
    exact hc.mem_descendants x
  parent_first x y hy := by
    rw [h.parent?_eq hp] at hy
    rw [h.descendants_eq hp]
    exact hc.parent_first x y hy
  -- that the climbs end is a fact about the slots, which the lists cannot show
  seek_ends x y n hn := by
    rw [h.seek_ends hp x y hn]
    rfl
  ascend_ends x n hn := by rw [h.ascend_ends hp x hn, h.depth_eq hp]
  sweep_ends x n hn := by rw [h.sweep_ends hp x hn, h.descendants_eq hp]
  ends_ne id d hd := by
    rw [h.dependency?_eq] at hd
    exact hc.ends_ne d ((hc.dependency? id d).mp hd).1
  ends_live id d hd := by
    rw [h.dependency?_eq] at hd
    rw [h.contains_eq, h.contains_eq]
    exact hc.ends_mem d ((hc.dependency? id d).mp hd).1
  single id id' d d' hd hd' hdependee hdependant := by
    rw [h.dependency?_eq, hc.dependency?] at hd hd'
    rw [← hd.2, ← hd'.2, hc.single d hd.1 d' hd'.1 hdependee hdependant]
  mem_outgoing x id := by
    rw [h.outgoing_row]
    exact h.mem_map_id_iff hc
  mem_incoming x id := by
    rw [h.incoming_row]
    exact h.mem_map_id_iff hc
  outgoing_nodup x := by
    rw [h.outgoing_row]
    exact h.dependencies_nodup.sublist (List.filter_sublist.map _)
  incoming_nodup x := by
    rw [h.incoming_row]
    exact h.dependencies_nodup.sublist (List.filter_sublist.map _)
  lookup name x := by
    rw [h.lookup?_eq, h.task?_eq]
    exact hc.lookup name x
  resolve x name := by
    rw [h.keys, h.task?_eq]
    exact hc.resolve x name
  name_unique x y t u ht hu hname := by
    rw [h.task?_eq, hc.task?] at ht hu
    rw [← ht.2, ← hu.2, hc.name_unique t ht.1 u hu.1 hname]
  size := by rw [h.size_eq, h.tasks_eq, hc.size]

end Represents

/-! ## Edits -/

/-- The arenas made from an empty one by edits. -/
inductive Reachable : Arena → Prop
  | empty (c : Calendar) : Reachable (empty c)
  | edit {a : Arena} {e : Edit} {r : (Reply × Option Event) × Arena} (ha : Reachable a)
    (h : a.edit e = .ok r) : Reachable r.2

/-- **A reachable arena represents a reachable project.** -/
theorem Reachable.exists_represents (ha : a.Reachable) :
    ∃ p : Project, p.Reachable ∧ a.Represents p := by
  induction ha with
  | empty c => exact ⟨.empty c, .empty c, represents_empty c⟩
  | @edit a e r _ hr ih =>
    obtain ⟨p, hp, h⟩ := ih
    obtain ⟨s, hs, h'⟩ := (h.edit hp.sound e).exists_of_ok hr
    exact ⟨s.project, .edit hp hs, h'.represents⟩

/-- **The tables of a reachable arena agree.** -/
theorem Reachable.consistent (ha : a.Reachable) : a.Consistent := by
  obtain ⟨p, hp, h⟩ := ha.exists_represents
  exact h.consistent hp.sound.toNested hp.consistent

/-- The engines read a consistent project off the tables of a reachable arena. -/
theorem Reachable.consistent_project (ha : a.Reachable) :
    a.Represents a.project ∧ a.project.Consistent := by
  obtain ⟨p, hp, h⟩ := ha.exists_represents
  exact ⟨h.project, (h.orderly_project hp.orderly).consistent (h.sound_project hp.sound)⟩

/-- When a house is removed, the walls in it keep their old slot among the containers, and are in no
container. -/
example :
    let a := [("house", 6), ("walls", 6)].foldl (fun a task =>
      match a.addTask task.1 (Day.first.advance task.2) (.days 2) with
      | .ok r => r.2
      | .error _ => a) (empty .standard)
    ((a.place ⟨2⟩ ⟨1⟩ >>= fun a => a.removeTask ⟨1⟩).toOption.map fun a =>
      (a.parentSlots, a.parent? ⟨2⟩)) = some ([.root, .root, ⟨1⟩], none) := by
  decide +kernel

/-! ## Runs of the engines -/

/-- **An engine does to an arena what it does to the project that it reads.** -/
theorem simulates_alone : host.Simulates Host.alone fun a p => a.project = p ∧ a.Represents p where
  view h := h.1
  note h _ := h
  change k := by
    rintro a p ⟨hproject, h⟩
    show (host.commit k a).1 = (Host.alone.commit k p).1 ∧ (host.commit k a).2.project =
      (Host.alone.commit k p).2 ∧ (host.commit k a).2.Represents (Host.alone.commit k p).2
    simp only [host, Host.alone]
    rcases (h.change k).cases with ⟨fault, hr, hs⟩ | ⟨r, s, hr, hs, h'⟩
    · rw [hr, hs]
      exact ⟨rfl, hproject, h⟩
    rw [hr, hs]
    refine ⟨congrArg Except.ok h'.changed, ?_, h'.represents⟩
    -- a change moves no task, so the placements are read off in the order they had
    have hbefore := h.placements_project.symm
    rw [hproject] at hbefore
    have hplacements : r.2.project.placements = s.project.placements := by
      rw [h'.represents.placements_project]
      rcases Project.rewritten_of_change hs with hsame | ⟨t, new, -, -, hnew⟩
      · rw [hsame]
        exact hbefore
      · rw [hnew]
        exact hbefore
    rw [h'.represents.project_eq, hplacements]

theorem edit_change {k : Change} {r : Written} (h : a.change k = .ok r) :
    a.edit (.change k) = .ok ((.changed r.1.1, r.1.2), r.2) := by
  rw [edit, h]
  rfl

/-- A commit of an engine is an edit, or changes nothing. -/
theorem keptByCommits_reachable (id : TaskId) : KeptByCommits host Reachable id := by
  have hcommit : ∀ {a : Arena} (k : Change), a.Reachable → (host.commit k a).2.Reachable := by
    intro a k ha
    cases hk : a.change k with
    | error fault =>
      have hsame : host.commit k a = (.error fault, a) := by simp only [host, hk]
      rw [hsame]
      exact ha
    | ok r =>
      have hnew : host.commit k a = (.ok r.1.1, r.2) := by simp only [host, hk]
      rw [hnew]
      exact .edit ha (edit_change hk)
  exact ⟨fun ha _ => ha, fun ha _ _ => hcommit _ ha, fun ha _ => hcommit _ ha⟩

/-- The arena after an operation.  A refused edit leaves no trace; a run that fails may. -/
def operate (a : Arena) : Operation → Arena
  | .edit e =>
    match a.edit e with
    | .ok r => r.2
    | .error _ => a
  | .schedule => (schedule host a).2
  | .recompute changed => (recompute host (fit host) changed a).2
  | .recomputeAll => (recomputeAll host (fit host) a).2
  | .fit tasks => (fit host tasks a).2

/-- **Every operation on an arena is the operation on the project that it holds**, an edit as well
as a run, and whether it succeeds or fails. -/
theorem Reachable.operate_represents (ha : a.Reachable) (o : Operation) :
    (a.operate o).Represents (a.project.operate o) := by
  have h : a.Represents a.project := ha.consistent_project.1
  cases o with
  | edit e =>
    obtain ⟨p, hp, hrep⟩ := ha.exists_represents
    show (a.operate (.edit e)).Represents (a.project.after [e])
    rw [operate, Project.after]
    rcases (h.edit (hrep.sound_project hp.sound) e).cases with
      ⟨fault, hr, hs⟩ | ⟨r, s, hr, hs, h'⟩
    · rw [hr, hs]
      exact h
    · rw [hr, hs]
      exact h'.represents
  | schedule => exact (simulates_alone.schedule a a.project ⟨rfl, h⟩).2.2
  | recompute changed => exact (simulates_alone.recompute changed a a.project ⟨rfl, h⟩).2.2
  | recomputeAll => exact (simulates_alone.recomputeAll a a.project ⟨rfl, h⟩).2.2
  | fit tasks => exact (simulates_alone.fit tasks a a.project ⟨rfl, h⟩).2.2

/-- The arena after some operations. -/
def history (a : Arena) (operations : List Operation) : Arena := operations.foldl operate a

/-- Operations lead from reachable slots to reachable slots, runs included. -/
theorem Reachable.operate (ha : a.Reachable) (o : Operation) : (a.operate o).Reachable := by
  have hfit := keeps_fit keptByCommits_reachable
  cases o with
  | edit e =>
    rw [Arena.operate]
    split
    · next r hr => exact .edit ha hr
    · exact ha
  | schedule => exact keeps_schedule keptByCommits_reachable a ha
  | recompute changed => exact keeps_recompute keptByCommits_reachable hfit changed a ha
  | recomputeAll => exact keeps_recomputeAll keptByCommits_reachable hfit a ha
  | fit tasks => exact hfit tasks a ha

theorem Reachable.history (ha : a.Reachable) (operations : List Operation) :
    (a.history operations).Reachable := by
  induction operations generalizing a with
  | nil => exact ha
  | cons o operations ih => exact ih (ha.operate o)

end Arena

/-- **There is an arena for every reachable project**, made by the same edits. -/
theorem Project.Reachable.exists_represents {p : Project} (hp : p.Reachable) :
    ∃ a : Arena, a.Reachable ∧ a.Represents p := by
  induction hp with
  | empty c => exact ⟨.empty c, .empty c, Arena.represents_empty c⟩
  | @edit p e s hp hs ih =>
    obtain ⟨a, ha, h⟩ := ih
    obtain ⟨r, hr, h'⟩ := (h.edit hp.sound e).exists_of_ok' hs
    exact ⟨r.2, .edit ha hr, h'.represents⟩

/-- **The tables of an arena agree after any edits and runs of the engines**, whether these succeed
or fail, and what the engines read off them is a project whose parts agree.  In every session,
whatever is done and whoever watches and reacts, the parts of the project agree and the edits behind
it make an arena whose tables agree. -/
theorem consistent_after :
    (∀ (c : Calendar) (operations : List Operation),
      let a := (Arena.empty c).history operations
      a.Consistent ∧ a.Represents a.project ∧ a.project.Consistent) ∧
    ∀ (setup : Setup) (commands : List Command),
      let p := ((Desk.new setup).after commands).project
      p.Consistent ∧ ∃ a : Arena, a.Reachable ∧ a.Represents p ∧ a.Consistent := by
  constructor
  · intro c operations a
    have ha : a.Reachable := (Arena.Reachable.empty c).history operations
    exact ⟨ha.consistent, ha.consistent_project⟩
  · intro setup commands p
    have hp : p.Reachable := Desk.reachable_after setup commands
    obtain ⟨a, ha, h⟩ := hp.exists_represents
    exact ⟨hp.consistent, a, ha, h, ha.consistent⟩

end Workplan
