import Workplan.Arena.Host
import Workplan.Proofs.Consistent
import Workplan.Proofs.Slots

/-!
# What an arena represents

An arena represents a project when its tables hold what the project lists: each task and each
dependency in its own slot, each container in the slot of what it contains, and the contents and the
dependencies of each task in their order.  All questions then have the same answers, and the loops
that go up and down in the arena come to an end with what the project reads off its placements.

- `Arena.Represents`: the tables hold what a project lists.
- `Arena.Represents.seek_ends`, `ascend_ends`, `sweep_ends`: the loops end, and what they find.
- `Arena.Represents.descendants_eq` and others: the answers are the same.
- `Arena.Represents.project`: the engines read off the tables what the arena represents.
-/

namespace Workplan

namespace Project.Nested

variable {p : Project} {x y : TaskId} (hp : p.Nested)
include hp

/-- All below a task are tasks of the project. -/
theorem mem_of_mem_descendants (h : x ∈ p.descendants y) : x ∈ p.tasks.map Task.id := by
  by_cases hy : y = .root
  · subst hy
    exact hp.mem_descendants_root.mp h
  · exact (hp.mem_of_inside ((hp.mem_descendants hy).mp h)).1

/-- Nothing contains more than there is. -/
theorem length_descendants_le (y : TaskId) : (p.descendants y).length ≤ p.tasks.length := by
  have hsub : p.descendants y ⊆ p.tasks.map Task.id := fun x hx => hp.mem_of_mem_descendants hx
  have hlen := ((hp.descendants_nodup y).subperm hsub).length_le
  rwa [List.length_map] at hlen

end Project.Nested

namespace Arena

/-- The tables of the arena hold what the project lists. -/
structure Represents (a : Arena) (p : Project) : Prop where
  calendar : a.calendar = p.calendar
  keys : a.keys = p.keys
  -- tasks and dependencies are in the slots with their numbers
  tasks : Holds (fun t => t.id.number) a.taskSlots p.tasks
  dependencies : Holds (fun d => d.id.number) a.dependencySlots p.dependencies
  -- there is a slot for every number that was given out, and one for the root
  tasks_length : a.taskSlots.length = p.tasksAdded + 1
  dependencies_length : a.dependencySlots.length = p.dependenciesAdded
  parents_length : a.parentSlots.length = a.taskSlots.length
  children_length : a.childSlots.length = a.taskSlots.length
  outgoing_length : a.outgoingSlots.length = a.taskSlots.length
  incoming_length : a.incomingSlots.length = a.taskSlots.length
  -- the slots of removed tasks may hold anything in the table of containers
  parent : ∀ s ∈ p.placements, a.parentSlots[s.child.number]? = some s.parent
  children : ∀ x, a.children x = p.children x
  outgoing_row : ∀ x, row a.outgoingSlots x = (p.outgoing x).map Dependency.id
  incoming_row : ∀ x, row a.incomingSlots x = (p.incoming x).map Dependency.id

/-- An arena without tasks represents the project without tasks. -/
theorem represents_empty (c : Calendar) : (empty c).Represents (.empty c) where
  calendar := rfl
  keys := rfl
  tasks := by
    refine ⟨fun i t => ?_, .nil⟩
    cases i <;> simp [empty, Project.empty]
  dependencies := .empty _
  tasks_length := rfl
  dependencies_length := rfl
  parents_length := rfl
  children_length := rfl
  outgoing_length := rfl
  incoming_length := rfl
  parent _ h := absurd h List.not_mem_nil
  children _ := row_empty
  outgoing_row _ := row_empty
  incoming_row _ := row_empty

namespace Represents

variable {a : Arena} {p : Project} {x y : TaskId} {n : Nat}

section

variable (h : a.Represents p)
include h

/-! ## Single slots -/

theorem task?_eq (x : TaskId) : a.task? x = p.task? x := by
  rw [task?, Project.task?, ← h.tasks.find?_key]
  exact congrFun (congrArg List.find? (funext fun t => decide_eq_decide.mpr TaskId.ext_iff.symm)) _

theorem get_eq (x : TaskId) : a.get x = p.get x := by
  cases ht : p.task? x with
  | none => simp only [get, Project.get, h.task?_eq, ht]
  | some t => simp only [get, Project.get, h.task?_eq, ht]

theorem contains_eq (x : TaskId) : a.contains x = p.contains x := by
  rw [contains, Project.contains, h.task?_eq]

theorem tasks_eq : a.tasks = p.tasks := h.tasks.reduceOption_eq

theorem dependency?_eq (id : DependencyId) : a.dependency? id = p.dependency? id := by
  rw [dependency?, Project.dependency?, ← h.dependencies.find?_key]
  exact congrFun
    (congrArg List.find? (funext fun d => decide_eq_decide.mpr DependencyId.ext_iff.symm)) _

theorem dependencies_eq : a.dependencies = p.dependencies := h.dependencies.reduceOption_eq

theorem lookup?_eq (name : String) : a.lookup? name = p.lookup? name := by
  rw [lookup?, Project.lookup?, h.keys]

theorem size_eq : a.size = p.size := by
  rw [size, Project.size, h.keys]

/-- A child row is empty exactly when nothing is placed in the task. -/
theorem hasChildren_eq (x : TaskId) : a.hasChildren x = p.hasChildren x := by
  rw [hasChildren, Project.hasChildren, h.children]

/-- The list at one end of some dependencies gives them back. -/
theorem filterMap_dependency? {ds : List Dependency} (hds : ∀ d ∈ ds, d ∈ p.dependencies) :
    (ds.map Dependency.id).filterMap a.dependency? = ds := by
  rw [List.filterMap_map]
  have hfound : ∀ d ∈ ds, (a.dependency? ∘ Dependency.id) d = some d := by
    intro d hd
    rw [Function.comp_apply, dependency?, h.dependencies.getElem?_key (hds d hd)]
    rfl
  rw [List.filterMap_congr hfound, List.filterMap_some]

/-- An outgoing row lists the dependencies that leave its task, in the order of the project. -/
theorem outgoing_eq (x : TaskId) : a.outgoing x = p.outgoing x := by
  rw [outgoing, h.outgoing_row]
  exact h.filterMap_dependency? fun d hd => (Project.mem_outgoing.mp hd).1

theorem incoming_eq (x : TaskId) : a.incoming x = p.incoming x := by
  rw [incoming, h.incoming_row]
  exact h.filterMap_dependency? fun d hd => (Project.mem_incoming.mp hd).1

theorem number_lt (hx : p.contains x) : x.number < a.taskSlots.length := by
  obtain ⟨t, ht, rfl⟩ := Project.contains_iff.mp hx
  exact h.tasks.key_lt ht

theorem length_tasks_lt : p.tasks.length < a.room := by
  rw [← h.tasks_eq]
  exact Nat.lt_succ_of_le (List.reduceOption_length_le a.taskSlots)

end

/-! ## Up and down -/

section

variable (h : a.Represents p) (hp : p.Nested)
include h hp

/-- The parent slot of a live task holds what the placements say. -/
theorem getElem?_parentSlots (hx : p.contains x) :
    a.parentSlots[x.number]? = p.holder? x := by
  obtain ⟨y, hy⟩ := Option.isSome_iff_exists.mp (hp.isSome_holder?.mpr hx)
  rw [hy]
  exact h.parent _ (hp.holder?_eq_some_iff.mp hy)

/-- Climbing one slot is climbing one placement. -/
theorem parent?_eq (x : TaskId) : a.parent? x = p.parent? x := by
  rw [parent?, Project.parent?, h.contains_eq]
  cases hx : p.contains x with
  | true =>
    rw [h.getElem?_parentSlots hp hx]
    simp only [Bool.and_true]
  | false =>
    -- whatever the slot of a removed task holds, it is not in any container
    have hholder : p.holder? x = none := by
      rw [← Option.not_isSome_iff_eq_none, hp.isSome_holder?, hx]
      exact Bool.false_ne_true
    rw [hholder]
    simp

theorem length_placements_lt : p.placements.length < a.room := by
  have hlen := hp.placed.length_eq
  rw [List.length_map, List.length_map] at hlen
  rw [hlen]
  exact h.length_tasks_lt

/-- Looking for a task on the way up ends when it is met or the way is over. -/
theorem loop_seek (hn : (p.climb n x).length < n) :
    loop (a.seek y) n (a.parent? x) = some ((p.climb n x).contains y) := by
  induction n generalizing x with
  | zero => exact absurd hn (Nat.not_lt_zero _)
  | succ n ih =>
    rw [Project.climb_succ] at hn ⊢
    rw [h.parent?_eq hp, loop]
    cases hparent : p.parent? x with
    | none => rfl
    | some z =>
      rw [hparent, List.length_cons] at hn
      rw [seek, List.contains_cons]
      by_cases hz : z = y
      · rw [if_pos hz, hz, beq_self_eq_true]
        rfl
      · rw [if_neg hz, beq_false_of_ne (Ne.symm hz), Bool.false_or]
        exact ih (Nat.lt_of_succ_lt_succ hn)

/-- **Looking for a task on the way up ends**, with what the way meets. -/
theorem seek_ends (x y : TaskId) (hn : a.room ≤ n) :
    loop (a.seek y) n (a.parent? x) = some ((p.ancestors x).contains y) := by
  have hroom := h.length_placements_lt hp
  have hclimb := hp.climb_of_le hroom.le x
  refine loop_of_le ?_ hn
  rw [← hclimb]
  exact h.loop_seek hp ((hp.length_climb_le a.room x).trans_lt hroom)

/-- The climb through parent slots answers the ancestor query, and never runs out of room. -/
theorem isAncestor_eq (y x : TaskId) : a.isAncestor y x = p.isAncestor y x := by
  rw [isAncestor, h.seek_ends hp x y le_rfl, h.contains_eq]
  rfl

/-- Each round of counting counts one level. -/
theorem loop_ascend (counted : Nat) (hn : (p.climb n x).length < n) :
    loop a.ascend ((p.climb n x).length + 2) (counted, some x) =
      some (counted + ((p.climb n x).length + 1)) := by
  induction n generalizing x counted with
  | zero => exact absurd hn (Nat.not_lt_zero _)
  | succ n ih =>
    rw [Project.climb_succ] at hn ⊢
    rw [loop, ascend, h.parent?_eq hp]
    cases hparent : p.parent? x with
    | none => rfl
    | some z =>
      rw [hparent, List.length_cons] at hn
      have hrest := ih (counted + 1) (Nat.lt_of_succ_lt_succ hn)
      rw [Nat.add_right_comm, Nat.add_assoc] at hrest
      exact hrest

/-- **Counting the levels above a task ends** with its depth. -/
theorem ascend_ends (x : TaskId) (hn : a.room ≤ n) :
    loop a.ascend n (0, some x) = some (p.depth x) := by
  have hroom := h.length_placements_lt hp
  have hclimb := hp.climb_of_le hroom.le x
  have hlen := (hp.length_climb_le a.room x).trans_lt hroom
  have hloop := h.loop_ascend hp (x := x) 0 hlen
  rw [hclimb, Nat.zero_add] at hloop
  refine loop_of_le hloop (le_trans ?_ hn)
  by_cases hx : p.contains x
  · have hlt := hp.length_climb_lt p.placements.length (Project.mem_ids_iff_contains.mpr hx)
    exact Nat.succ_le_of_lt (Nat.lt_of_le_of_lt (Nat.succ_le_of_lt hlt) hroom)
  · -- a task that is not there has no container
    have hparent : p.parent? x = none := by
      rw [Option.eq_none_iff_forall_not_mem]
      exact fun y hy => hx (Project.mem_ids_iff_contains.mp (hp.mem_of_parent? hy).1)
    have hnone : p.climb a.room x = [] := by
      rw [room, Project.climb_succ, hparent]
    rw [← hclimb, hnone, room, h.tasks_length]
    exact Nat.le_add_left 2 _

/-- The climb counted to the root is the depth. -/
theorem depth_eq (x : TaskId) : a.depth x = p.depth x := by
  rw [depth, h.ascend_ends hp x le_rfl]
  rfl

omit hp in
/-- The queue is worked off level by level: what lies inside a level queues up behind it. -/
theorem loop_sweep_append (n : Nat) (listed level queue : List TaskId) :
    loop a.sweep (level.length + n) (listed, level ++ queue) =
      loop a.sweep n (listed ++ level, queue ++ p.nextLevel level) := by
  induction level generalizing listed queue with
  | nil => simp [Project.nextLevel]
  | cons next level ih =>
    rw [List.length_cons, Nat.add_right_comm, List.cons_append, loop, sweep]
    dsimp only
    rw [List.append_assoc level, ih, h.children]
    simp [Project.nextLevel]

omit hp in
/-- The sweep through child rows lists the levels one after the other and ends with the first that
is empty. -/
theorem loop_sweep_levels {k : Nat} {listed level : List TaskId}
    (hk : p.nextLevel^[k] level = []) :
    loop a.sweep ((p.levels k level).length + 1) (listed, level) =
      some (listed ++ p.levels k level) := by
  induction k generalizing listed level with
  | zero =>
    obtain rfl : level = [] := hk
    simp [Project.levels, loop, sweep]
  | succ k ih =>
    have hlevel := h.loop_sweep_append ((p.levels k (p.nextLevel level)).length + 1) listed level []
    rw [List.append_nil, List.nil_append] at hlevel
    rw [Project.levels_succ, List.length_append, Nat.add_assoc, hlevel, ih hk, List.append_assoc]

/-- **Listing the tasks below a task or the root ends** with its levels, one after the other. -/
theorem sweep_ends (x : TaskId) (hn : a.room ≤ n) :
    loop a.sweep n ([], a.children x) = some (p.descendants x) := by
  have hlen := (hp.length_descendants_le x).trans_lt h.length_tasks_lt
  rw [h.children]
  exact loop_of_le (h.loop_sweep_levels (hp.iterate_nextLevel_eq_nil le_rfl x)) (hlen.trans_le hn)

/-- The sweep from a task lists all below it in the order of the project. -/
theorem descendants_eq (x : TaskId) : a.descendants x = p.descendants x := by
  rw [descendants, h.sweep_ends hp x le_rfl]
  rfl

end

/-! ## What the engines read -/

/-- The contents of one container among those of the first `n`. -/
theorem filter_placements (a : Arena) (x : TaskId) (n : Nat) :
    ((((List.range n).flatMap fun i => (a.children ⟨i⟩).map fun y => (⟨y, ⟨i⟩⟩ : Placement)).filter
      fun s => s.parent = x).map Placement.child) = if x.number < n then a.children x else [] := by
  induction n with
  | zero => rfl
  | succ n ih =>
    have hlast : (((a.children ⟨n⟩).map fun y => (⟨y, ⟨n⟩⟩ : Placement)).filter
        fun s => s.parent = x).map Placement.child = if x.number = n then a.children x else [] := by
      rw [List.filter_map, List.map_map]
      by_cases hx : x.number = n
      · subst hx
        simp [Function.comp_def]
      · have hne : (⟨n⟩ : TaskId) ≠ x := fun e => hx (congrArg TaskId.number e).symm
        simp [Function.comp_def, hx, hne]
    rw [List.range_succ, List.flatMap_append, List.filter_append, List.map_append, ih,
      List.flatMap_singleton, hlast]
    by_cases hlt : x.number < n
    · rw [if_pos hlt, if_neg hlt.ne, if_pos (Nat.lt_succ_of_lt hlt), List.append_nil]
    · by_cases heq : x.number = n
      · rw [if_neg hlt, if_pos heq, if_pos (heq ▸ Nat.lt_succ_self n), List.nil_append]
      · have hgt : ¬ x.number < n + 1 := fun h => heq (by omega)
        rw [if_neg hlt, if_neg heq, if_neg hgt, List.nil_append]

/-- The view of the slots as a project has the slots' child rows. -/
theorem children_project (x : TaskId) : a.project.children x = a.children x := by
  rw [Project.children, project, filter_placements]
  split
  · rfl
  · next hlong =>
    rw [Arena.children, row, List.getElem?_eq_none (not_lt.mp hlong), Option.getD_none]

/-- **An arena represents the project that the engines read off its tables.** -/
theorem project (h : a.Represents p) : a.Represents a.project where
  calendar := rfl
  keys := rfl
  tasks := by
    rw [Arena.project, h.tasks_eq]
    exact h.tasks
  dependencies := by
    rw [Arena.project, h.dependencies_eq]
    exact h.dependencies
  tasks_length := by
    rw [Arena.project, h.tasks_length]
    rfl
  dependencies_length := rfl
  parents_length := h.parents_length
  children_length := h.children_length
  outgoing_length := h.outgoing_length
  incoming_length := h.incoming_length
  parent s hs := by
    have hmem : s.child ∈ a.project.children s.parent := Project.mem_children.mpr hs
    rw [children_project, h.children] at hmem
    exact h.parent _ (Project.mem_children.mp hmem)
  children x := (children_project x).symm
  outgoing_row x := by
    rw [h.outgoing_row, Project.outgoing, Project.outgoing, Arena.project, h.dependencies_eq]
  incoming_row x := by
    rw [h.incoming_row, Project.incoming, Project.incoming, Arena.project, h.dependencies_eq]

/-- All but the order of the placements is as in any project that the arena represents. -/
theorem project_eq (h : a.Represents p) :
    a.project = { p with placements := a.project.placements } := by
  rw [Arena.project, h.calendar, h.tasks_eq, h.dependencies_eq, h.keys, h.tasks_length,
    h.dependencies_length]
  rfl

/-- The placements seen in the slots go through the containers by number. -/
theorem placements_project (h : a.Represents p) : a.project.placements =
    (List.range (p.tasksAdded + 1)).flatMap fun i => (p.children ⟨i⟩).map fun x => ⟨x, ⟨i⟩⟩ := by
  rw [Arena.project, h.children_length, h.tasks_length]
  simp only [h.children]

/-- The placements seen in the slots are those of the project, in slot order. -/
theorem perm_placements (h : a.Represents p) (hp : p.Nested) :
    a.project.placements.Perm p.placements := by
  have hnodup : a.project.placements.Nodup := by
    refine List.nodup_flatMap.mpr ⟨fun i _ => ?_, List.nodup_range.imp fun {i j} hne => ?_⟩
    · rw [h.children]
      exact (hp.children_nodup_of _).map fun x y hxy => congrArg Placement.child hxy
    · rintro s hs hs'
      obtain ⟨x, -, rfl⟩ := List.mem_map.mp hs
      obtain ⟨y, -, heq⟩ := List.mem_map.mp hs'
      exact hne (congrArg (fun s => s.parent.number) heq).symm
  refine (List.perm_ext_iff_of_nodup hnodup hp.children_nodup.of_map).mpr ?_
  rintro ⟨x, y⟩
  rw [← Project.mem_children, ← Project.mem_children, children_project, h.children]

/-- **What the engines read is sound and orderly again.** -/
theorem sound_project (h : a.Represents p) (hp : p.Sound) : a.project.Sound := by
  have hperm := h.perm_placements hp.toNested
  rw [h.project_eq]
  exact { hp with
    placed := (hperm.map Placement.child).trans hp.placed
    parent_mem := fun s hs => hp.parent_mem s (hperm.subset hs)
    acyclic := hp.acyclic_of_subset fun x y hxy _ => hperm.subset hxy }

/-- What the slots show is orderly when the project is. -/
theorem orderly_project (h : a.Represents p) (ho : p.Orderly) : a.project.Orderly := by
  rw [h.project_eq]
  exact { ho with }

end Represents

end Arena

end Workplan
