import Workplan.Proofs.KeyPairs
import Workplan.Proofs.Reachable
import Workplan.Proofs.Written

/-!
# Numbers, names and pairs

What every edit keeps beside soundness: tasks and dependencies are listed in the order of their
numbers, the table of keys holds exactly the names of the tasks, and the dependencies link distinct
tasks, each pair once in each direction.

- `KeyTable.Lists`: a table of keys holds exactly the names of some tasks.
- `Project.Rewritten`: all that a change of one task does to the rows.
- `Project.Orderly`: what the operations guarantee about numbers, names and pairs.
- `Project.Reachable.orderly`: every reachable project is orderly.
-/

namespace Workplan

/-! ## Tables of keys -/

namespace KeyTable

/-- The table holds exactly the names of some tasks, in both directions. -/
structure Lists (k : KeyTable) (tasks : List Task) : Prop where
  taskOf : k.taskOf.Perm (tasks.map fun t => (t.name, t.id))
  keyOf : k.keyOf.Perm (tasks.map fun t => (t.id, t.name))

variable {k k' : KeyTable} {tasks : List Task} {name : String} {id : TaskId} {new : Task}

namespace Lists

variable (h : k.Lists tasks)
include h

/-- A name stands for the task that bears it. -/
theorem get?_eq_some_iff (hnames : (tasks.map Task.name).Nodup) :
    k.get? name = some id ↔ ∃ t ∈ tasks, t.name = name ∧ t.id = id := by
  have hkeys : (k.taskOf.map Prod.fst).Nodup := by
    refine (h.taskOf.map Prod.fst).nodup_iff.mpr ?_
    rwa [List.map_map]
  unfold get?
  rw [lookup_eq_some_iff_mem hkeys, h.taskOf.mem_iff]
  simp

/-- The name index resolves a key to the name its row bears. -/
theorem resolve?_eq_some_iff (hids : (tasks.map Task.id).Nodup) :
    k.resolve? id = some name ↔ ∃ t ∈ tasks, t.id = id ∧ t.name = name := by
  have hkeys : (k.keyOf.map Prod.fst).Nodup := by
    refine (h.keyOf.map Prod.fst).nodup_iff.mpr ?_
    rwa [List.map_map]
  unfold resolve?
  rw [lookup_eq_some_iff_mem hkeys, h.keyOf.mem_iff]
  simp

/-- A new task comes with its name. -/
theorem bind? (hfresh : new.id ∉ tasks.map Task.id) (hbind : k.bind? new.name new.id = some k') :
    k'.Lists (tasks ++ [new]) := by
  rw [KeyTable.bind?] at hbind
  split at hbind
  · cases hbind
  cases hbind
  constructor
  · rw [List.map_append]
    exact (h.taskOf.cons _).trans (List.perm_append_singleton _ _).symm
  · -- the new number has no key yet, so no entry goes
    have hstay : k.keyOf.filter (fun entry => entry.1 != new.id) = k.keyOf := by
      refine List.filter_eq_self.mpr fun entry hentry => ?_
      obtain ⟨t, ht, rfl⟩ := List.mem_map.mp (h.keyOf.subset hentry)
      exact bne_iff_ne.mpr fun e => hfresh (e ▸ List.mem_map_of_mem ht)
    rw [List.map_append, hstay]
    exact (h.keyOf.cons _).trans (List.perm_append_singleton _ _).symm

/-- A task goes with its name. -/
theorem unbind (hids : (tasks.map Task.id).Nodup) (hnames : (tasks.map Task.name).Nodup)
    (id : TaskId) : (k.unbind id).Lists (tasks.filter fun t => t.id != id) := by
  rw [KeyTable.unbind]
  split
  · next hnone =>
    have hstay : tasks.filter (fun t => t.id != id) = tasks := by
      refine List.filter_eq_self.mpr fun t ht => bne_iff_ne.mpr fun e => ?_
      have hsome := (h.resolve?_eq_some_iff hids).mpr ⟨t, ht, e, rfl⟩
      rw [hnone] at hsome
      cases hsome
    rw [hstay]
    exact h
  · next key hkey =>
    obtain ⟨t, ht, rfl, rfl⟩ := (h.resolve?_eq_some_iff hids).mp hkey
    -- numbers and names tell the tasks apart alike
    have hsame : ∀ u ∈ tasks, (u.name != t.name) = (u.id != t.id) := by
      intro u hu
      rw [Bool.eq_iff_iff, bne_iff_ne, bne_iff_ne, not_iff_not]
      constructor
      · exact fun e => congrArg Task.id (List.inj_on_of_nodup_map hnames hu ht e)
      · exact fun e => congrArg Task.name (List.inj_on_of_nodup_map hids hu ht e)
    constructor
    · have := h.taskOf.filter fun entry => entry.1 != t.name
      rw [List.filter_map] at this
      rwa [← List.filter_congr hsame]
    · have := h.keyOf.filter fun entry => entry.1 != t.id
      rwa [List.filter_map] at this

/-- Tasks go with their names, one after the other. -/
theorem foldl_unbind (hids : (tasks.map Task.id).Nodup) (hnames : (tasks.map Task.name).Nodup)
    (doomed : List TaskId) :
    (doomed.foldl KeyTable.unbind k).Lists (tasks.filter fun t => !doomed.contains t.id) := by
  induction doomed generalizing k tasks with
  | nil => simpa using h
  | cons id doomed ih =>
    have hrest := ih (h.unbind hids hnames id) (hids.sublist (List.filter_sublist.map _))
      (hnames.sublist (List.filter_sublist.map _))
    rw [List.filter_filter] at hrest
    have hboth : (fun t : Task => !(id :: doomed).contains t.id) =
        fun t => !doomed.contains t.id && t.id != id := by
      funext t
      rw [List.contains_cons, Bool.not_or, Bool.and_comm]
      rfl
    rw [hboth]
    exact hrest

end Lists

theorem lists_empty : empty.Lists [] := ⟨.nil, .nil⟩

/-- Only a free name is given. -/
theorem get?_of_bind? (h : k.bind? name id = some k') : k.get? name = none := by
  rw [bind?] at h
  split at h
  · cases h
  · next hfree => exact Option.not_isSome_iff_eq_none.mp hfree

end KeyTable

namespace Project

variable {p q : Project} {id : TaskId} {t new : Task}

/-! ## Rewritten rows -/

/-- The project is the given one, or has a new row for one task, with its number and name. -/
def Rewritten (p q : Project) : Prop :=
  q = p ∨ ∃ t new, p.task? new.id = some t ∧ new.name = t.name ∧ q = p.replace new

/-- **A change gives at most one task a new row.** -/
theorem rewritten_of_change {k : Change} {r : Changed} (h : p.change k = .ok r) :
    p.Rewritten r.project := by
  rcases renews_of_change h with ⟨hsame, -⟩ | ⟨t, new, ht, hnew, hproject, -⟩
  · exact .inl hsame
  · rw [← id_of_task? ht, ← hnew.id] at ht
    exact .inr ⟨t, new, ht, hnew.name, hproject⟩

/-! ## Orderly projects -/

/-- What every operation keeps about numbers, names and linked pairs. -/
structure Orderly (p : Project) : Prop where
  ascending : (p.tasks.map Task.id).Pairwise fun x y => x.number < y.number
  names_nodup : (p.tasks.map Task.name).Nodup
  keys_list : p.keys.Lists p.tasks
  ends_ne : ∀ d ∈ p.dependencies, d.dependee ≠ d.dependant
  pairs_nodup : (p.dependencies.map fun d => (d.dependee, d.dependant)).Nodup
  links_ascending : (p.dependencies.map Dependency.id).Pairwise fun x y => x.number < y.number

/-- The empty project is orderly. -/
theorem orderly_empty (c : Calendar) : (empty c).Orderly where
  ascending := .nil
  names_nodup := List.nodup_nil
  keys_list := KeyTable.lists_empty
  ends_ne _ h := absurd h List.not_mem_nil
  pairs_nodup := List.nodup_nil
  links_ascending := .nil

namespace Orderly

variable (ho : p.Orderly)
include ho

/-- A new task is listed last, under the root, and the tables stay orderly. -/
theorem insertTask (hp : p.Sound) {name : String} {start finish : Day} {duration : Duration}
    {milestone : Bool} (h : p.insertTask name start finish duration milestone = .ok (id, q)) :
    q.Orderly := by
  obtain ⟨rfl, -, keys, hbind, rfl⟩ := exists_of_insertTask h
  have hbelow : ∀ x ∈ p.tasks.map Task.id, x.number < p.tasksAdded + 1 := by
    intro x hx
    obtain ⟨t, ht, rfl⟩ := List.mem_map.mp hx
    exact Nat.lt_succ_of_le (hp.numbered t ht)
  constructor
  · rw [List.map_append, List.map_singleton, List.pairwise_append]
    refine ⟨ho.ascending, List.pairwise_singleton _ _, fun x hx y hy => ?_⟩
    rw [List.mem_singleton.mp hy]
    exact hbelow x hx
  · -- the name was free, so no task bears it
    rw [List.map_append, List.map_singleton]
    refine ho.names_nodup.append (List.nodup_singleton _) ?_
    refine List.disjoint_singleton.mpr fun hmem => ?_
    obtain ⟨t, ht, hname⟩ := List.mem_map.mp hmem
    have htaken := (ho.keys_list.get?_eq_some_iff ho.names_nodup).mpr ⟨t, ht, hname, rfl⟩
    rw [KeyTable.get?_of_bind? hbind] at htaken
    cases htaken
  · exact ho.keys_list.bind? (fun hmem => lt_irrefl _ (hbelow _ hmem)) hbind
  · exact ho.ends_ne
  · exact ho.pairs_nodup
  · exact ho.links_ascending

/-- Removing a task with all inside it keeps the tables orderly. -/
theorem removeTask (hp : p.Sound) (h : p.removeTask id = .ok q) : q.Orderly := by
  obtain ⟨t, doomed, -, -, rfl⟩ := exists_of_removeTask h
  constructor
  · exact ho.ascending.sublist (List.filter_sublist.map _)
  · exact ho.names_nodup.sublist (List.filter_sublist.map _)
  · exact ho.keys_list.foldl_unbind hp.ids_nodup ho.names_nodup _
  · exact fun d hd => ho.ends_ne d (List.mem_of_mem_filter hd)
  · exact ho.pairs_nodup.sublist (List.filter_sublist.map _)
  · exact ho.links_ascending.sublist (List.filter_sublist.map _)

theorem place {child parent : TaskId} (h : p.place child parent = .ok q) : q.Orderly := by
  obtain ⟨-, -, -, rfl⟩ := exists_of_place h
  exact ⟨ho.ascending, ho.names_nodup, ho.keys_list, ho.ends_ne, ho.pairs_nodup,
    ho.links_ascending⟩

theorem addDependency (hp : p.Sound) {dependee dependant : TaskId} {kind : LinkKind}
    {hardness : Hardness} {lag : Int} {new : DependencyId}
    (h : p.addDependency dependee dependant kind hardness lag = .ok (new, q)) : q.Orderly := by
  obtain ⟨-, -, hne, -, hunlinked, rfl, -, rfl⟩ := exists_of_addDependency h
  constructor
  · exact ho.ascending
  · exact ho.names_nodup
  · exact ho.keys_list
  · intro d hd
    rcases List.mem_append.mp hd with hd | hd
    · exact ho.ends_ne d hd
    · rw [List.mem_singleton.mp hd]
      exact hne
  · -- a dependency that links the pair would bound the dependant already
    rw [List.map_append, List.map_singleton]
    refine ho.pairs_nodup.append (List.nodup_singleton _) ?_
    refine List.disjoint_singleton.mpr fun hmem => ?_
    obtain ⟨d, hd, hpair⟩ := List.mem_map.mp hmem
    obtain ⟨hdependee, hdependant⟩ := Prod.mk.inj hpair
    exact hunlinked d (List.mem_filter.mpr ⟨hd, decide_eq_true hdependant⟩) hdependee
  · rw [List.map_append, List.map_singleton, List.pairwise_append]
    refine ⟨ho.links_ascending, List.pairwise_singleton _ _, fun x hx y hy => ?_⟩
    obtain ⟨d, hd, rfl⟩ := List.mem_map.mp hx
    rw [List.mem_singleton.mp hy]
    exact hp.dependencies_numbered d hd

theorem removeDependency {dependency : DependencyId} (h : p.removeDependency dependency = .ok q) :
    q.Orderly := by
  obtain ⟨-, rfl⟩ := exists_of_removeDependency h
  refine ⟨ho.ascending, ho.names_nodup, ho.keys_list, ?_, ?_, ?_⟩
  · exact fun d hd => ho.ends_ne d (List.mem_of_mem_filter hd)
  · exact ho.pairs_nodup.sublist (List.filter_sublist.map _)
  · exact ho.links_ascending.sublist (List.filter_sublist.map _)

/-- Rewriting dates keeps the tables orderly, since they hold none. -/
theorem rewritten (hp : p.Sound) (h : p.Rewritten q) : q.Orderly := by
  rcases h with rfl | ⟨t, new, ht, hname, rfl⟩
  · exact ho
  have hid : new.id = t.id := (id_of_task? ht).symm
  have hrows : ∀ {α : Type} (f : Task → α), f new = f t →
      (p.replace new).tasks.map f = p.tasks.map f := fun f hf =>
    map_replace hp.ids_nodup ht hid hf
  constructor
  · rw [ids_replace]
    exact ho.ascending
  · rw [hrows Task.name hname]
    exact ho.names_nodup
  · constructor
    · rw [hrows (fun t => (t.name, t.id)) (by rw [hname, hid])]
      exact ho.keys_list.taskOf
    · rw [hrows (fun t => (t.id, t.name)) (by rw [hname, hid])]
      exact ho.keys_list.keyOf
  · exact ho.ends_ne
  · exact ho.pairs_nodup
  · exact ho.links_ascending

/-- **An edit keeps a project orderly.** -/
theorem edit (hp : p.Sound) {e : Edit} {r : Outcome} (h : p.edit e = .ok r) :
    r.project.Orderly := by
  cases e with
  | addTask name start duration =>
    obtain ⟨⟨id, q⟩, hq, rfl⟩ := exists_of_map_eq_ok h
    obtain ⟨finish, -, hinsert⟩ := exists_of_bind_eq_ok hq
    exact ho.insertTask hp hinsert
  | addMilestone name day =>
    obtain ⟨⟨id, q⟩, hq, rfl⟩ := exists_of_map_eq_ok h
    exact ho.insertTask hp hq
  | removeTask id =>
    obtain ⟨q, hq, rfl⟩ := exists_of_map_eq_ok h
    exact ho.removeTask hp hq
  | place child parent =>
    obtain ⟨q, hq, rfl⟩ := exists_of_map_eq_ok h
    exact ho.place hq
  | addDependency dependee dependant kind hardness lag =>
    obtain ⟨⟨id, q⟩, hq, rfl⟩ := exists_of_map_eq_ok h
    exact ho.addDependency hp hq
  | removeDependency id =>
    obtain ⟨q, hq, rfl⟩ := exists_of_map_eq_ok h
    exact ho.removeDependency hq
  | change k =>
    obtain ⟨r, hr, rfl⟩ := exists_of_map_eq_ok h
    exact ho.rewritten hp (rewritten_of_change hr)

end Orderly

/-- **Every reachable project is orderly.** -/
theorem Reachable.orderly (hp : p.Reachable) : p.Orderly := by
  induction hp with
  | empty c => exact orderly_empty c
  | edit hp h ih => exact ih.edit hp.sound h

end Project

end Workplan
