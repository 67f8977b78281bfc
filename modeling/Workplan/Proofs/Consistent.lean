import Workplan.Proofs.Levels
import Workplan.Proofs.Names

/-!
# Projects stay consistent

Whatever is done to a project, its parts agree: the nesting, the dependencies at both of their
ends, and the names.

- `Project.above`: what is met by going up from holder to holder.
- `Project.Consistent`: all parts of a project agree.
- `Project.Reachable.consistent`: the parts of a reachable project do.
-/

namespace Workplan

namespace Project

variable {p : Project} {x y : TaskId} {n : Nat}

/-- What is met `n` steps above a task, going up from holder to holder. -/
def above (p : Project) : (n : Nat) → TaskId → Option TaskId
  | 0, x => some x
  | n + 1, x => (p.holder? x).bind (p.above n)

/-- The parts of a project agree. -/
structure Consistent (p : Project) : Prop where
  -- the root hangs nowhere, and exactly the tasks hang somewhere
  root_free : p.holder? .root = none
  held : ∀ x, (p.holder? x).isSome ↔ p.contains x
  holder_mem : ∀ x y, p.holder? x = some y → y = .root ∨ p.contains y
  -- going up from a task leads to the root, in as many steps as its depth tells
  above_root : ∀ x, p.contains x → ∀ n, p.above n x = some .root ↔ n = p.depth x
  -- up and down agree
  mem_children : ∀ x y, x ∈ p.children y ↔ p.holder? x = some y
  children_nodup : ∀ y, (p.children y).Nodup
  isAncestor : ∀ x y, y ≠ .root → (p.isAncestor y x ↔ p.Inside x y)
  -- from the root, the way down meets every task once, and containers first
  descendants_nodup : (p.descendants .root).Nodup
  mem_descendants : ∀ x, x ∈ p.descendants .root ↔ p.contains x
  parent_first : ∀ x y, p.parent? x = some y →
    (p.descendants .root).idxOf y < (p.descendants .root).idxOf x
  -- the ways up and down end by themselves
  climb_ends : ∀ x n, p.placements.length ≤ n → p.climb n x = p.ancestors x
  levels_end : ∀ x n, p.placements.length ≤ n → p.levels n (p.children x) = p.descendants x
  -- dependencies have numbers of their own and link two different tasks, each pair once
  dependency? : ∀ id d, p.dependency? id = some d ↔ d ∈ p.dependencies ∧ d.id = id
  ends_ne : ∀ d ∈ p.dependencies, d.dependee ≠ d.dependant
  ends_mem : ∀ d ∈ p.dependencies, p.contains d.dependee ∧ p.contains d.dependant
  single : ∀ d ∈ p.dependencies, ∀ d' ∈ p.dependencies,
    d.dependee = d'.dependee → d.dependant = d'.dependant → d = d'
  -- both ends of a dependency list it once, and nothing else
  mem_outgoing : ∀ x d, d ∈ p.outgoing x ↔ d ∈ p.dependencies ∧ d.dependee = x
  mem_incoming : ∀ x d, d ∈ p.incoming x ↔ d ∈ p.dependencies ∧ d.dependant = x
  outgoing_nodup : ∀ x, (p.outgoing x).Nodup
  incoming_nodup : ∀ x, (p.incoming x).Nodup
  -- tasks are found by their numbers and by their names
  task? : ∀ x t, p.task? x = some t ↔ t ∈ p.tasks ∧ t.id = x
  lookup : ∀ name x, p.lookup? name = some x ↔ ∃ t, p.task? x = some t ∧ t.name = name
  resolve : ∀ x name, p.keys.resolve? x = some name ↔ ∃ t, p.task? x = some t ∧ t.name = name
  name_unique : ∀ t ∈ p.tasks, ∀ u ∈ p.tasks, t.name = u.name → t = u
  size : p.size = p.tasks.length

theorem mem_ids_iff_contains : x ∈ p.tasks.map Task.id ↔ p.contains x := by
  rw [contains_iff]
  exact List.mem_map

/-! ## Going up to the root -/

/-- Climbing `m + n` levels is climbing `m` and from there `n`. -/
theorem above_add (m : Nat) : p.above (m + n) x = (p.above m x).bind (p.above n) := by
  induction m generalizing x with
  | zero =>
    rw [Nat.zero_add]
    rfl
  | succ m ih =>
    rw [Nat.succ_add, above, above]
    cases p.holder? x with
    | none => rfl
    | some y => exact ih

/-- The root is reached at one height only, since nothing holds it. -/
theorem above_root_unique {m : Nat} (hroot : p.holder? .root = none)
    (hm : p.above m x = some .root) (hn : p.above n x = some .root) : n ≤ m := by
  by_contra hlt
  obtain ⟨k, rfl⟩ := Nat.exists_eq_add_of_lt (not_le.mp hlt)
  -- beyond the root there is nothing
  rw [Nat.add_assoc, above_add, hm, Option.bind_some, above, hroot] at hn
  cases hn

namespace Nested

variable (hp : p.Nested)
include hp

/-- Nothing holds the root. -/
theorem holder?_root : p.holder? .root = none := by
  cases hholder : p.holder? .root with
  | none => rfl
  | some y => exact absurd rfl (hp.ne_root (hp.child_mem (hp.holder?_eq_some_iff.mp hholder)))

theorem isSome_holder? : (p.holder? x).isSome ↔ p.contains x := by
  rw [← mem_ids_iff_contains, ← hp.placed.mem_iff]
  constructor
  · intro h
    obtain ⟨y, hy⟩ := Option.isSome_iff_exists.mp h
    exact List.mem_map.mpr ⟨_, hp.holder?_eq_some_iff.mp hy, rfl⟩
  · intro h
    obtain ⟨s, hs, rfl⟩ := List.mem_map.mp h
    exact Option.isSome_iff_exists.mpr ⟨s.parent, hp.holder?_eq_some_iff.mpr hs⟩

/-- One step beyond what contains a task, the way up arrives at the root. -/
theorem above_length_climb (hx : p.contains x) (hlen : (p.climb n x).length < n) :
    p.above ((p.climb n x).length + 1) x = some .root := by
  induction n generalizing x with
  | zero => exact absurd hlen (Nat.not_lt_zero _)
  | succ n ih =>
    obtain ⟨y, hholder⟩ := Option.isSome_iff_exists.mp (hp.isSome_holder?.mpr hx)
    rw [climb_succ] at hlen ⊢
    by_cases hroot : y = .root
    · have hparent : p.parent? x = none := by
        rw [parent?, hholder, hroot]
        rfl
      rw [hparent, List.length_nil, above, hholder, hroot]
      rfl
    · have hparent : p.parent? x = some y :=
        hp.parent?_eq_some_iff.mpr ⟨hp.holder?_eq_some_iff.mp hholder, hroot⟩
      rw [hparent, List.length_cons] at hlen ⊢
      rw [above, hholder, Option.bind_some]
      have hy := mem_ids_iff_contains.mp (hp.mem_of_parent? hparent).2
      exact ih hy (Nat.lt_of_succ_lt_succ hlen)

/-- A task's depth is the one number of steps that leads from it to the root. -/
theorem above_eq_root_iff (hx : p.contains x) : p.above n x = some .root ↔ n = p.depth x := by
  have hlen := hp.length_climb_lt p.placements.length (mem_ids_iff_contains.mpr hx)
  have hdepth : p.above (p.depth x) x = some .root := hp.above_length_climb hx hlen
  constructor
  · intro hn
    exact le_antisymm (above_root_unique hp.holder?_root hdepth hn)
      (above_root_unique hp.holder?_root hn hdepth)
  · rintro rfl
    exact hdepth

/-- From the root, a container is met before what it contains. -/
theorem idxOf_parent_lt (h : p.parent? x = some y) :
    (p.descendants .root).idxOf y < (p.descendants .root).idxOf x := by
  obtain ⟨hx, hy⟩ := hp.mem_of_parent? h
  obtain ⟨done, rest, hsplit⟩ := List.append_of_mem (hp.mem_descendants_root.mpr hx)
  have hnodup := hp.descendants_nodup .root
  rw [hsplit] at hnodup
  have hfresh : x ∉ done := fun hmem =>
    (List.nodup_append.mp hnodup).2.2 x hmem x List.mem_cons_self rfl
  have hdone : y ∈ done := by
    refine (hp.parent_earlier_of_levels hsplit h).resolve_left fun htop => ?_
    -- a top-level task has no container
    have hholder := hp.holder?_eq_some_iff.mpr (Project.mem_children.mp htop)
    rw [parent?, hholder] at h
    cases h
  rw [hsplit, List.idxOf_append_of_mem hdone, List.idxOf_append_of_notMem hfresh,
    List.idxOf_cons_self, Nat.add_zero]
  exact List.idxOf_lt_length_of_mem hdone

end Nested

/-! ## All parts -/

/-- Orderly tables of a sound project answer every query alike from either end. -/
theorem Orderly.consistent (ho : p.Orderly) (hp : p.Sound) : p.Consistent where
  root_free := hp.holder?_root
  held _ := hp.isSome_holder?
  holder_mem x y h := by
    rw [← mem_ids_iff_contains]
    exact hp.parent_mem _ (hp.holder?_eq_some_iff.mp h)
  above_root _ hx _ := hp.above_eq_root_iff hx
  mem_children x y := by rw [Project.mem_children, hp.holder?_eq_some_iff]
  children_nodup := hp.children_nodup_of
  isAncestor _ _ hy := hp.isAncestor_iff hy
  descendants_nodup := hp.descendants_nodup .root
  mem_descendants x := by rw [hp.mem_descendants_root, mem_ids_iff_contains]
  parent_first _ _ h := hp.idxOf_parent_lt h
  climb_ends x _ hn := hp.climb_of_le hn x
  levels_end x _ hn := hp.levels_of_le hn x
  dependency? id d := by
    constructor
    · intro h
      exact ⟨List.mem_of_find?_eq_some h, by simpa using List.find?_some h⟩
    · rintro ⟨hd, rfl⟩
      exact hp.dependency?_of_mem hd
  ends_ne := ho.ends_ne
  ends_mem d hd := by
    rw [← mem_ids_iff_contains, ← mem_ids_iff_contains]
    exact ⟨hp.dependee_mem d hd, hp.dependant_mem d hd⟩
  single d hd d' hd' hdependee hdependant :=
    List.inj_on_of_nodup_map ho.pairs_nodup hd hd' (Prod.ext hdependee hdependant)
  mem_outgoing _ _ := mem_outgoing
  mem_incoming _ _ := mem_incoming
  outgoing_nodup _ := hp.dependencies_nodup.of_map.filter _
  incoming_nodup _ := hp.dependencies_nodup.of_map.filter _
  task? x t := by
    constructor
    · exact fun h => ⟨mem_of_task? h, id_of_task? h⟩
    · rintro ⟨ht, rfl⟩
      exact hp.task?_of_mem ht
  lookup name x := by
    rw [lookup?, ho.keys_list.get?_eq_some_iff ho.names_nodup]
    constructor
    · rintro ⟨t, ht, hname, rfl⟩
      exact ⟨t, hp.task?_of_mem ht, hname⟩
    · rintro ⟨t, ht, hname⟩
      exact ⟨t, mem_of_task? ht, hname, id_of_task? ht⟩
  resolve x name := by
    rw [ho.keys_list.resolve?_eq_some_iff hp.ids_nodup]
    constructor
    · rintro ⟨t, ht, rfl, hname⟩
      exact ⟨t, hp.task?_of_mem ht, hname⟩
    · rintro ⟨t, ht, hname⟩
      exact ⟨t, mem_of_task? ht, id_of_task? ht, hname⟩
  name_unique t ht u hu hname := List.inj_on_of_nodup_map ho.names_nodup ht hu hname
  size := by
    rw [size, KeyTable.size, ho.keys_list.taskOf.length_eq, List.length_map]

/-- **The parts of a reachable project agree.** -/
theorem Reachable.consistent (hp : p.Reachable) : p.Consistent := hp.orderly.consistent hp.sound

end Project

end Workplan
