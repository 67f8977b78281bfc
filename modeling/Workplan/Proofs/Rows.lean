import Mathlib.Data.List.Nodup
import Workplan.Project.Change

/-!
# Rows of a project

Finding a task and putting another in its place, and the one function that writes dates.

- `exists_of_map_eq_ok`, `exists_of_bind_eq_ok`: what goes before a success.
- `cases_of_bind_eq_error`, `exists_of_mapM_eq_error`: where a fault comes from.
- `Project.task?_replace`: what is found after a task was replaced.
- `Project.undated`, `Project.SameFrame`: a project without its dates, and two projects that
  differ in nothing else.
- `Project.write_of_le`, `Project.write_of_lt`: dates are written unless they are reversed.
-/

namespace Workplan

/-! ## Steps that can be refused -/

theorem exists_of_map_eq_ok {ε α β : Type} {x : Except ε α} {f : α → β} {b : β}
    (h : x.map f = .ok b) : ∃ a, x = .ok a ∧ f a = b := by
  cases x with
  | error fault => cases h
  | ok a =>
    cases h
    exact ⟨a, rfl, rfl⟩

theorem map_eq_error_iff {ε α β : Type} {x : Except ε α} {f : α → β} {fault : ε} :
    x.map f = .error fault ↔ x = .error fault := by
  cases x with
  | error fault' => rw [Except.map, Except.error.injEq, Except.error.injEq]
  | ok a => exact iff_of_false (fun h => by cases h) fun h => by cases h

/-- Two continuations that look alike through a view give results that look alike. -/
theorem map_bind_congr {ε α β γ : Type} {a : Except ε α} {f g : α → Except ε β} {view : β → γ}
    (h : ∀ a, (f a).map view = (g a).map view) : (a >>= f).map view = (a >>= g).map view := by
  cases a with
  | error fault => rfl
  | ok a => exact h a

theorem exists_of_bind_eq_ok {ε α β : Type} {x : Except ε α} {f : α → Except ε β} {b : β}
    (h : x.bind f = .ok b) : ∃ a, x = .ok a ∧ f a = .ok b := by
  cases x with
  | error fault => cases h
  | ok a => exact ⟨a, rfl, h⟩

/-- A sequence fails in its first part or, that having succeeded, in its second. -/
theorem cases_of_bind_eq_error {ε α β : Type} {x : Except ε α} {f : α → Except ε β} {fault : ε}
    (h : x.bind f = .error fault) : x = .error fault ∨ ∃ a, x = .ok a ∧ f a = .error fault := by
  cases x with
  | error fault' =>
    cases h
    exact .inl rfl
  | ok a => exact .inr ⟨a, rfl, h⟩

/-- A traversal fails at one of its elements. -/
theorem exists_of_mapM_eq_error {ε α β : Type} {xs : List α} {f : α → Except ε β} {fault : ε}
    (h : xs.mapM f = .error fault) : ∃ x ∈ xs, f x = .error fault := by
  induction xs with
  | nil => cases h
  | cons x xs ih =>
    rw [List.mapM_cons] at h
    rcases cases_of_bind_eq_error h with hx | ⟨b, -, h⟩
    · exact ⟨x, List.mem_cons_self, hx⟩
    rcases cases_of_bind_eq_error h with hxs | ⟨bs, -, h⟩
    · obtain ⟨y, hy, hfault⟩ := ih hxs
      exact ⟨y, List.mem_cons_of_mem x hy, hfault⟩
    · cases h

theorem exists_of_mapM_eq_ok {ε α β : Type} {xs : List α} {f : α → Except ε β} {ys : List β}
    (h : xs.mapM f = .ok ys) : ∀ x ∈ xs, ∃ y, f x = .ok y := by
  induction xs generalizing ys with
  | nil => exact fun x hx => absurd hx List.not_mem_nil
  | cons x xs ih =>
    rw [List.mapM_cons] at h
    obtain ⟨y, hy, h⟩ := exists_of_bind_eq_ok h
    obtain ⟨rest, hrest, -⟩ := exists_of_bind_eq_ok h
    intro z hz
    rcases List.mem_cons.mp hz with rfl | hz
    · exact ⟨y, hy⟩
    · exact ih hrest z hz

/-! ## Finding tasks -/

namespace Project

variable {p q : Project} {id : TaskId} {t new : Task}

/-- Looking a task up with a fault finds the row that looking it up without finds. -/
theorem get_eq_ok_iff : p.get id = .ok t ↔ p.task? id = some t := by
  unfold get
  cases p.task? id with
  | none => simp
  | some u => simp

theorem get_of_task? (h : p.task? id = some t) : p.get id = .ok t := get_eq_ok_iff.mpr h

theorem mem_of_task? (h : p.task? id = some t) : t ∈ p.tasks := List.mem_of_find?_eq_some h

theorem id_of_task? (h : p.task? id = some t) : t.id = id := by
  simpa using List.find?_some h

theorem mem_ids_of_task? (h : p.task? id = some t) : id ∈ p.tasks.map Task.id :=
  List.mem_map.mpr ⟨t, mem_of_task? h, id_of_task? h⟩

theorem contains_iff : p.contains id ↔ ∃ t ∈ p.tasks, t.id = id := by
  simp [contains, task?]

/-- Among tasks with different numbers, each is found by its number. -/
theorem task?_of_mem (hnodup : (p.tasks.map Task.id).Nodup) (h : t ∈ p.tasks) :
    p.task? t.id = some t := by
  cases hfind : p.task? t.id with
  | none => exact absurd (List.find?_eq_none.mp hfind t h) (by simp)
  | some u =>
    have := List.inj_on_of_nodup_map hnodup (mem_of_task? hfind) h (id_of_task? hfind)
    rw [this]

/-! ## Finding dependencies -/

theorem mem_outgoing {d : Dependency} :
    d ∈ p.outgoing id ↔ d ∈ p.dependencies ∧ d.dependee = id := by
  simp [outgoing]

theorem mem_incoming {d : Dependency} :
    d ∈ p.incoming id ↔ d ∈ p.dependencies ∧ d.dependant = id := by
  simp [incoming]

/-- Dependencies are told apart by their numbers. -/
theorem mem_map_id_iff {d : Dependency} {ds : List Dependency}
    (hnodup : (p.dependencies.map Dependency.id).Nodup) (hds : ∀ e ∈ ds, e ∈ p.dependencies)
    (hd : d ∈ p.dependencies) : d.id ∈ ds.map Dependency.id ↔ d ∈ ds := by
  refine ⟨fun hid => ?_, List.mem_map_of_mem⟩
  obtain ⟨e, he, hid⟩ := List.mem_map.mp hid
  exact List.inj_on_of_nodup_map hnodup (hds e he) hd hid ▸ he

/-! ## Replacing tasks -/

/-- Replacing a row changes what is found under its key and nothing else. -/
theorem task?_replace :
    (p.replace new).task? id =
      if id = new.id then (p.task? id).map fun _ => new else p.task? id := by
  have hid : (fun t : Task => decide ((if t.id = new.id then new else t).id = id)) =
      fun t => decide (t.id = id) := by
    funext t
    split
    · next h => rw [h]
    · rfl
  simp only [task?, replace, List.find?_map, Function.comp_def, hid]
  cases hfind : p.tasks.find? fun t => decide (t.id = id) with
  | none => simp
  | some t =>
    have ht : t.id = id := id_of_task? (p := p) hfind
    by_cases hid : id = new.id <;> simp [ht, hid]

theorem task?_replace_self (h : p.task? id = some t) (hid : new.id = t.id) :
    (p.replace new).task? id = some new := by
  rw [task?_replace, if_pos (hid.trans (id_of_task? h)).symm, h]
  rfl

theorem task?_replace_of_ne (h : id ≠ new.id) : (p.replace new).task? id = p.task? id := by
  rw [task?_replace, if_neg h]

theorem ids_replace : (p.replace new).tasks.map Task.id = p.tasks.map Task.id := by
  simp only [replace, List.map_map]
  refine List.map_congr_left fun t _ => ?_
  show (if t.id = new.id then new else t).id = t.id
  split
  · next h => exact h.symm
  · rfl

/-- What a row says besides the replaced fields stays as it is. -/
theorem map_replace {α : Type} {f : Task → α} (hnodup : (p.tasks.map Task.id).Nodup)
    (ht : p.task? id = some t) (hid : new.id = t.id) (hf : f new = f t) :
    (p.replace new).tasks.map f = p.tasks.map f := by
  unfold replace
  rw [List.map_map]
  refine List.map_congr_left fun u hu => ?_
  show f (if u.id = new.id then new else u) = f u
  split
  · next e =>
    have := task?_of_mem hnodup hu
    rw [e.trans hid, id_of_task? ht, ht] at this
    cases this
    exact hf
  · rfl

/-- Of two rows put in the same place one after the other, the second stays. -/
theorem replace_replace {old : Task} (hid : old.id = new.id) :
    (p.replace old).replace new = p.replace new := by
  have hrow : ∀ t : Task, (if (if t.id = old.id then old else t).id = new.id then new
      else if t.id = old.id then old else t) = if t.id = new.id then new else t := by
    intro t
    rw [hid]
    split <;> simp [*]
  simp only [replace, List.map_map, Function.comp_def, hrow]

/-- A task is replaced by itself without any effect. -/
theorem replace_self (hnodup : (p.tasks.map Task.id).Nodup) (h : p.task? t.id = some t) :
    p.replace t = p := by
  have hsame := map_replace (f := fun u => u) hnodup h rfl rfl
  rw [List.map_id', List.map_id'] at hsame
  show { p with tasks := (p.replace t).tasks } = p
  rw [hsame]

end Project

/-! ## Projects that differ in dates only -/

/-- A task without its dates.  The grain of the duration is kept. -/
def Task.undated (t : Task) : Task :=
  { t with start := Day.first, finish := Day.first, duration := ⟨0, t.grain⟩ }

section Undated

variable {t u : Task} (h : u.undated = t.undated)
include h

theorem Task.grain_of_undated : u.grain = t.grain :=
  (congrArg Task.grain h : u.undated.grain = t.undated.grain)

theorem Task.earliestBegin_of_undated : u.earliestBegin = t.earliestBegin :=
  (congrArg Task.earliestBegin h : u.undated.earliestBegin = t.undated.earliestBegin)

theorem Task.milestone_of_undated : u.milestone = t.milestone :=
  (congrArg Task.milestone h : u.undated.milestone = t.undated.milestone)

/-- The dates are all that is missing. -/
theorem Task.eq_of_undated (hstart : u.start = t.start) (hfinish : u.finish = t.finish)
    (hduration : u.duration = t.duration) : u = t := by
  cases t
  cases u
  cases hstart
  cases hfinish
  cases hduration
  simp only [undated, mk.injEq, true_and] at h ⊢
  exact ⟨h.1, h.2.1, h.2.2.2⟩

end Undated

namespace Project

variable {p q r : Project} {id : TaskId} {t new : Task}

/-- A project without its dates. -/
def undated (p : Project) : Project := { p with tasks := p.tasks.map Task.undated }

/-- The two projects differ in nothing but dates. -/
def SameFrame (p q : Project) : Prop := p.undated = q.undated

theorem SameFrame.refl (p : Project) : SameFrame p p := Eq.refl p.undated

theorem SameFrame.symm (h : SameFrame p q) : SameFrame q p := Eq.symm h

theorem SameFrame.trans (h : SameFrame p q) (h' : SameFrame q r) : SameFrame p r := Eq.trans h h'

namespace SameFrame

variable (h : SameFrame p q)
include h

theorem calendar : q.calendar = p.calendar := (congrArg Project.calendar h).symm

theorem placements : q.placements = p.placements := (congrArg Project.placements h).symm

theorem dependencies : q.dependencies = p.dependencies := (congrArg Project.dependencies h).symm

/-- The same frame keeps every row but for its dates. -/
theorem undated_tasks : q.tasks.map Task.undated = p.tasks.map Task.undated :=
  (congrArg Project.tasks h).symm

theorem ids : q.tasks.map Task.id = p.tasks.map Task.id := by
  have := congrArg (List.map Task.id) h.undated_tasks
  rwa [List.map_map, List.map_map] at this

theorem task? (id : TaskId) : (q.task? id).map Task.undated = (p.task? id).map Task.undated := by
  have hfind : ∀ ts : List Task, (ts.map Task.undated).find? (fun t => t.id = id) =
      (ts.find? fun t => t.id = id).map Task.undated := fun ts => List.find?_map
  rw [Project.task?, Project.task?, ← hfind, ← hfind, h.undated_tasks]

/-- A task is there in both, equal but for its dates. -/
theorem exists_task? {t : Task} (ht : p.task? id = some t) :
    ∃ u, q.task? id = some u ∧ u.undated = t.undated := by
  have := h.task? id
  rw [ht] at this
  exact Option.map_eq_some_iff.mp this

theorem undated_eq {t u : Task} (ht : p.task? id = some t) (hu : q.task? id = some u) :
    u.undated = t.undated := by
  have := h.task? id
  rw [ht, hu] at this
  exact Option.some.inj this

theorem contains (id : TaskId) : q.contains id = p.contains id := by
  have := congrArg Option.isSome (h.task? id)
  rwa [Option.isSome_map, Option.isSome_map] at this

theorem dependency? : q.dependency? = p.dependency? := by
  funext id
  rw [Project.dependency?, Project.dependency?, h.dependencies]

end SameFrame

/-- The tasks are what is found by their numbers. -/
theorem filterMap_task? (hnodup : (p.tasks.map Task.id).Nodup) :
    (p.tasks.map Task.id).filterMap p.task? = p.tasks := by
  rw [List.filterMap_map]
  have hfound : ∀ t ∈ p.tasks, (p.task? ∘ Task.id) t = some t := fun t ht => task?_of_mem hnodup ht
  rw [List.filterMap_congr hfound, List.filterMap_some]

/-- Projects that also agree in every row are equal. -/
theorem SameFrame.eq (h : SameFrame p q) (hnodup : (p.tasks.map Task.id).Nodup)
    (hrows : ∀ x, q.task? x = p.task? x) : q = p := by
  have htasks : q.tasks = p.tasks := by
    rw [← filterMap_task? hnodup, ← filterMap_task? (p := q) (by rwa [h.ids]), h.ids, funext hrows]
  have hframe : p.undated = q.undated := h
  cases p
  cases q
  simp only [undated, Project.mk.injEq] at hframe htasks ⊢
  obtain ⟨hcalendar, -, hplacements, hdependencies, hkeys, htasksAdded, hdependenciesAdded⟩ :=
    hframe
  exact ⟨hcalendar.symm, htasks, hplacements.symm, hdependencies.symm, hkeys.symm,
    htasksAdded.symm, hdependenciesAdded.symm⟩

/-- New dates for a task change nothing else. -/
theorem sameFrame_replace (hnodup : (p.tasks.map Task.id).Nodup) (ht : p.task? id = some t)
    (hnew : new.undated = t.undated) : SameFrame p (p.replace new) := by
  have hid : new.id = t.id := (congrArg Task.id hnew : new.undated.id = t.undated.id)
  have hsame := map_replace hnodup ht hid hnew
  unfold SameFrame undated
  rw [hsame]
  rfl

/-! ## Writing dates -/

/-- Writing dates in order stores them and reports whether the row has changed. -/
theorem write_of_le {start finish : Day} (duration : Duration) (ht : p.task? id = some t)
    (hle : ¬ finish < start) :
    ∃ event?, p.write id start finish duration none =
      .ok ⟨p.replace { t with start, finish, duration },
        decide ({ t with start, finish, duration } ≠ t), event?⟩ := by
  rw [write, if_neg hle, get_of_task? ht]
  exact ⟨_, rfl⟩

/-- Writing a finish before the start is refused, and the refusal names both. -/
theorem write_of_lt {start finish : Day} (duration : Duration) (anchor? : Option Anchor)
    (hlt : finish < start) :
    p.write id start finish duration anchor? = .error (.invalidDates id start finish) := by
  rw [write, if_pos hlt]

end Project

end Workplan
