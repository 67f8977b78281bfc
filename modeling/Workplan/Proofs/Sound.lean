import Workplan.Proofs.Forest
import Workplan.Proofs.Written

/-!
# Sound projects

What every edit keeps: the nesting is a forest, numbers are unique, dependencies link tasks that
are there, and no task has impossible dates.

- `Task.Regular`: what the operations guarantee about one task.
- `Project.Sound`: what they guarantee about a project.
- `Project.Sound.addTask`, `Project.Sound.place` and others: each operation keeps this.
- `Project.Sound.edit`: so every edit does.
-/

namespace Workplan

/-- What the operations guarantee about duration and dates of a task. -/
structure Task.Regular (t : Task) : Prop where
  point : t.milestone → t.duration.count = 0
  backward : t.grain = .day → t.duration.count < 0 → t.finish < t.start ∨ t.start = Day.first

/-- A negative length leads forward only from the first day. -/
theorem first_of_shift {c : Calendar} {start finish : Day} {duration : Duration}
    (h : c.shift start duration = .ok finish) (hle : start ≤ finish)
    (hday : duration.grain = .day) (hneg : duration.count < 0) : start = Day.first := by
  rw [Project.shift_day duration hday] at h
  cases h
  by_contra hfirst
  exact absurd hle (not_le.mpr (Calendar.shiftDays_lt hneg hfirst))

namespace Task

variable {c : Calendar} {old new : Task} {start finish : Day} {duration : Duration}

/-- A milestone that keeps to its row has no length. -/
theorem Spans.count_eq_zero (h : old.Spans c start finish duration) (hold : old.Regular)
    (hpoint : old.milestone) : duration.count = 0 := by
  cases h with
  | point => rfl
  | moved => exact hold.point hpoint
  | walked hextended | measured hextended =>
    rw [hextended] at hpoint
    cases hpoint

/-- A negative length in order means the walk back has met the first of all dates. -/
theorem Spans.eq_first (h : old.Spans c start finish duration) (hold : old.Regular)
    (hle : start ≤ finish) (hday : duration.grain = .day) (hneg : duration.count < 0) :
    start = Day.first := by
  cases h with
  | point => exact absurd hneg (Int.lt_irrefl 0)
  | moved hpoint =>
    rw [hold.point hpoint] at hneg
    exact absurd hneg (Int.lt_irrefl 0)
  | walked _ hwalk => exact first_of_shift hwalk hle hday hneg
  | measured =>
    simp only [Calendar.workingLength, if_pos hle] at hneg
    exact absurd hneg (not_lt.mpr (Int.natCast_nonneg _))

/-- A change keeps a row regular. -/
theorem Renewed.regular (h : old.Renewed c new) (hold : old.Regular) : new.Regular where
  point hpoint := h.spans.count_eq_zero hold (h.milestone ▸ hpoint)
  backward hday hneg := .inr (h.spans.eq_first hold h.le hday hneg)

end Task

namespace Project

/-- What every operation keeps. -/
structure Sound (p : Project) : Prop extends p.Nested where
  numbered : ∀ t ∈ p.tasks, t.id.number ≤ p.tasksAdded
  regular : ∀ t ∈ p.tasks, t.Regular
  dependencies_nodup : (p.dependencies.map Dependency.id).Nodup
  dependencies_numbered : ∀ d ∈ p.dependencies, d.id.number < p.dependenciesAdded
  dependee_mem : ∀ d ∈ p.dependencies, d.dependee ∈ p.tasks.map Task.id
  dependant_mem : ∀ d ∈ p.dependencies, d.dependant ∈ p.tasks.map Task.id

variable {p q : Project} {id : TaskId}

/-- The empty project is sound. -/
theorem sound_empty (c : Calendar) : (empty c).Sound where
  ids_nodup := List.nodup_nil
  id_ne_root _ h := absurd h List.not_mem_nil
  placed := List.Perm.nil
  parent_mem _ h := absurd h List.not_mem_nil
  acyclic x h := by
    obtain ⟨y, hy, -⟩ := Relation.TransGen.head'_iff.mp h
    cases hy
  numbered _ h := absurd h List.not_mem_nil
  regular _ h := absurd h List.not_mem_nil
  dependencies_nodup := List.nodup_nil
  dependencies_numbered _ h := absurd h List.not_mem_nil
  dependee_mem _ h := absurd h List.not_mem_nil
  dependant_mem _ h := absurd h List.not_mem_nil

/-- Placements taken away or put under the root do not bring a task inside another. -/
theorem Nested.inside_of_subset (hp : p.Nested)
    (h : ∀ a b, ⟨a, b⟩ ∈ q.placements → b ≠ .root → ⟨a, b⟩ ∈ p.placements) {x y : TaskId}
    (hin : q.Inside x y) : p.Inside x y := by
  refine Relation.TransGen.mono (fun a b hab => ?_) x y hin
  obtain ⟨hplace, hb⟩ := mem_placements_of_parent? hab
  exact hp.parent?_eq_some_iff.mpr ⟨h a b hplace hb, hb⟩

/-- Nor do they make a cycle. -/
theorem Nested.acyclic_of_subset (hp : p.Nested)
    (h : ∀ a b, ⟨a, b⟩ ∈ q.placements → b ≠ .root → ⟨a, b⟩ ∈ p.placements) (x : TaskId) :
    ¬ q.Inside x x :=
  fun hx => hp.acyclic x (hp.inside_of_subset h hx)

/-- A placed task has its new container, and all others keep theirs. -/
theorem Nested.parent?_of_place (hp : p.Nested) {child parent : TaskId}
    (h : p.place child parent = .ok q) {a b : TaskId} (hab : q.parent? a = some b) :
    p.parent? a = some b ∨ (a = child ∧ b = parent) := by
  obtain ⟨-, -, -, rfl⟩ := exists_of_place h
  obtain ⟨hplace, hb⟩ := mem_placements_of_parent? hab
  rcases List.mem_append.mp hplace with hold | hnew
  · exact .inl (hp.parent?_eq_some_iff.mpr ⟨List.mem_of_mem_filter hold, hb⟩)
  · cases List.mem_singleton.mp hnew
    exact .inr ⟨rfl, rfl⟩

/-- With one more link, a way up either does without the link or goes over it. -/
theorem inside_of_link {child parent : TaskId}
    (hlink : ∀ a b, q.parent? a = some b → p.parent? a = some b ∨ (a = child ∧ b = parent))
    {a b : TaskId} (h : q.Inside a b) :
    p.Inside a b ∨ ((a = child ∨ p.Inside a child) ∧ (b = parent ∨ p.Inside parent b)) := by
  induction h with
  | single h =>
    rcases hlink _ _ h with h | ⟨rfl, rfl⟩
    · exact .inl (.single h)
    · exact .inr ⟨.inl rfl, .inl rfl⟩
  | tail _ h ih =>
    rcases hlink _ _ h with h | ⟨rfl, rfl⟩
    · rcases ih with ih | ⟨hup, rfl | hdown⟩
      · exact .inl (ih.tail h)
      · exact .inr ⟨hup, .inr (.single h)⟩
      · exact .inr ⟨hup, .inr (hdown.tail h)⟩
    · rcases ih with ih | ⟨hup, -⟩
      · exact .inr ⟨.inr ih, .inl rfl⟩
      · exact .inr ⟨hup, .inl rfl⟩

namespace Sound

variable (hp : p.Sound)
include hp

/-- Every row is found under its own key. -/
theorem task?_of_mem {t : Task} (h : t ∈ p.tasks) : p.task? t.id = some t :=
  Project.task?_of_mem hp.ids_nodup h

theorem regular_of_task? {t : Task} (h : p.task? id = some t) : t.Regular :=
  hp.regular t (mem_of_task? h)

theorem dependency?_of_mem {d : Dependency} (h : d ∈ p.dependencies) :
    p.dependency? d.id = some d := by
  rw [dependency?]
  cases hfind : p.dependencies.find? fun e => e.id = d.id with
  | none => exact absurd (List.find?_eq_none.mp hfind d h) (by simp)
  | some e =>
    have hid : e.id = d.id := by simpa using List.find?_some hfind
    rw [List.inj_on_of_nodup_map hp.dependencies_nodup (List.mem_of_find?_eq_some hfind) h hid]

/-! ## Structure -/

/-- A new task gets a number that no task has. -/
theorem notMem_of_insertTask {name : String} {start finish : Day} {duration : Duration}
    {milestone : Bool} (h : p.insertTask name start finish duration milestone = .ok (id, q)) :
    id ∉ p.tasks.map Task.id := by
  obtain ⟨rfl, -⟩ := exists_of_insertTask h
  intro hmem
  obtain ⟨t, ht, hid⟩ := List.mem_map.mp hmem
  have hle := hp.numbered t ht
  rw [hid] at hle
  exact absurd hle (Nat.not_succ_le_self p.tasksAdded)

/-- A regular row under a new key keeps the project sound. -/
theorem insertTask {name : String} {start finish : Day} {duration : Duration} {milestone : Bool}
    (hnew : Task.Regular
      ⟨⟨p.tasksAdded + 1⟩, name, start, finish, duration, milestone, .absent⟩)
    (h : p.insertTask name start finish duration milestone = .ok (id, q)) : q.Sound := by
  have hfresh := hp.notMem_of_insertTask h
  obtain ⟨rfl, -, keys, -, rfl⟩ := exists_of_insertTask h
  set new : Task :=
    ⟨⟨p.tasksAdded + 1⟩, name, start, finish, duration, milestone, .absent⟩ with hdef
  have hgrow : ∀ {x}, x ∈ p.tasks.map Task.id → x ∈ (p.tasks ++ [new]).map Task.id := by
    intro x hx
    rw [List.map_append]
    exact List.mem_append_left _ hx
  constructor
  · constructor
    · -- the new number is above all that were given out
      rw [List.map_append]
      exact hp.ids_nodup.append (List.nodup_singleton _) (List.disjoint_singleton.mpr hfresh)
    · intro t ht
      rcases List.mem_append.mp ht with ht | ht
      · exact hp.id_ne_root t ht
      · rw [List.mem_singleton.mp ht]
        exact fun e => absurd (congrArg TaskId.number e) (Nat.succ_ne_zero p.tasksAdded)
    · rw [List.map_append, List.map_append]
      exact hp.placed.append (List.Perm.refl _)
    · intro s hs
      rcases List.mem_append.mp hs with hs | hs
      · exact (hp.parent_mem s hs).imp_right hgrow
      · rw [List.mem_singleton.mp hs]
        exact .inl rfl
    · -- the new task goes under the root, where no cycle passes
      refine hp.acyclic_of_subset fun a b hab hb => ?_
      rcases List.mem_append.mp hab with hab | hab
      · exact hab
      · cases List.mem_singleton.mp hab
        exact absurd rfl hb
  · intro t ht
    rcases List.mem_append.mp ht with ht | ht
    · exact Nat.le_succ_of_le (hp.numbered t ht)
    · rw [List.mem_singleton.mp ht]
  · intro t ht
    rcases List.mem_append.mp ht with ht | ht
    · exact hp.regular t ht
    · rw [List.mem_singleton.mp ht]
      exact hnew
  · exact hp.dependencies_nodup
  · exact hp.dependencies_numbered
  · exact fun d hd => hgrow (hp.dependee_mem d hd)
  · exact fun d hd => hgrow (hp.dependant_mem d hd)

theorem addTask {name : String} {start : Day} {duration : Duration}
    (h : p.addTask name start duration = .ok (id, q)) : q.Sound := by
  obtain ⟨finish, hwalk, hinsert⟩ := exists_of_bind_eq_ok h
  refine hp.insertTask ⟨fun hms => absurd hms Bool.false_ne_true, fun hday hneg => ?_⟩ hinsert
  rw [or_iff_not_imp_left, not_lt]
  exact fun hle => first_of_shift hwalk hle hday hneg

theorem addMilestone {name : String} {day : Day} (h : p.addMilestone name day = .ok (id, q)) :
    q.Sound :=
  hp.insertTask ⟨fun _ => rfl, fun _ hneg => absurd hneg (Int.lt_irrefl 0)⟩ h

/-- Removing a task with all inside it leaves no dependency and no placement without ends. -/
theorem removeTask (h : p.removeTask id = .ok q) : q.Sound := by
  obtain ⟨t, doomed, hget, hdoomed, rfl⟩ := exists_of_removeTask h
  have hid : id ≠ .root := by
    rw [← id_of_task? (get_eq_ok_iff.mp hget)]
    exact hp.id_ne_root t (mem_of_task? (get_eq_ok_iff.mp hget))
  have hstay : ∀ x, x ∈ (p.tasks.filter fun t => !doomed.contains t.id).map Task.id ↔
      x ∈ p.tasks.map Task.id ∧ x ∉ doomed := by
    intro x
    simp only [List.mem_map, List.mem_filter, Bool.not_eq_true', List.contains_eq_mem,
      decide_eq_false_iff_not]
    constructor
    · rintro ⟨t, ⟨ht, hx⟩, rfl⟩
      exact ⟨⟨t, ht, rfl⟩, hx⟩
    · rintro ⟨⟨t, ht, rfl⟩, hx⟩
      exact ⟨t, ⟨ht, hx⟩, rfl⟩
  -- children go with their container, so a task that stays keeps its parent
  have hclosed : ∀ s ∈ p.placements, s.parent ∈ doomed → s.child ∈ doomed := by
    intro s hs hparent
    rw [hdoomed, List.mem_append, List.mem_singleton, hp.mem_descendants hid] at hparent ⊢
    have hlink : s.parent ≠ .root → p.parent? s.child = some s.parent :=
      fun hroot => hp.parent?_eq_some_iff.mpr ⟨hs, hroot⟩
    rcases hparent with hin | heq
    · exact .inl (.head (hlink (hp.ne_root (hp.mem_of_inside hin).1)) hin)
    · rw [← heq]
      exact .inl (.single (hlink (heq ▸ hid)))
  constructor
  · constructor
    · exact hp.ids_nodup.sublist (List.filter_sublist.map _)
    · exact fun t ht => hp.id_ne_root t (List.mem_of_mem_filter ht)
    · have := hp.placed.filter fun x => !doomed.contains x
      rwa [List.filter_map, List.filter_map] at this
    · intro s hs
      obtain ⟨hs, hchild⟩ := List.mem_filter.mp hs
      refine (hp.parent_mem s hs).imp_right fun hmem => (hstay _).mpr ⟨hmem, fun hparent => ?_⟩
      simp [hclosed s hs hparent] at hchild
    · exact hp.acyclic_of_subset fun a b hab _ => List.mem_of_mem_filter hab
  · exact fun t ht => hp.numbered t (List.mem_of_mem_filter ht)
  · exact fun t ht => hp.regular t (List.mem_of_mem_filter ht)
  · exact hp.dependencies_nodup.sublist (List.filter_sublist.map _)
  · exact fun d hd => hp.dependencies_numbered d (List.mem_of_mem_filter hd)
  · intro d hd
    obtain ⟨hd, hkeep⟩ := List.mem_filter.mp hd
    refine (hstay _).mpr ⟨hp.dependee_mem d hd, fun hmem => ?_⟩
    simp [hmem] at hkeep
  · intro d hd
    obtain ⟨hd, hkeep⟩ := List.mem_filter.mp hd
    refine (hstay _).mpr ⟨hp.dependant_mem d hd, fun hmem => ?_⟩
    simp [hmem] at hkeep

/-- Placing a task refuses to close a loop, so the tree stays a tree. -/
theorem place {child parent : TaskId} (h : p.place child parent = .ok q) : q.Sound := by
  have hmem : ∀ {x}, (∃ t, p.get x = .ok t) → x ∈ p.tasks.map Task.id :=
    fun ⟨_, ht⟩ => mem_ids_of_task? (get_eq_ok_iff.mp ht)
  have hlink := fun a b => hp.parent?_of_place h (a := a) (b := b)
  obtain ⟨hchild, hparent, hfree, rfl⟩ := exists_of_place h
  replace hchild := hmem hchild
  replace hparent := hparent.imp_right hmem
  have hplaced : ∀ s, s ∈ (p.placements.filter fun s => s.child ≠ child) ++ [⟨child, parent⟩] ↔
      (s ∈ p.placements ∧ s.child ≠ child) ∨ s = ⟨child, parent⟩ := by
    intro s
    simp
  constructor
  · constructor
    · exact hp.ids_nodup
    · exact hp.id_ne_root
    · -- the child leaves its old place and comes back at the end
      refine List.Perm.trans ?_ hp.placed
      rw [List.map_append, List.map_singleton]
      have hfilter : (p.placements.filter fun s => s.child ≠ child).map Placement.child =
          (p.placements.map Placement.child).filter fun x => x ≠ child := by
        rw [List.filter_map]
        rfl
      rw [hfilter]
      refine (List.perm_ext_iff_of_nodup ?_ hp.children_nodup).mpr fun x => ?_
      · refine (hp.children_nodup.filter _).append (List.nodup_singleton _) ?_
        rw [List.disjoint_singleton]
        simp
      · by_cases hx : x = child
        · have := hp.placed.mem_iff.mpr hchild
          simp only [hx, this, List.mem_append, List.mem_singleton, or_true]
        · simp [hx]
    · intro s hs
      rcases (hplaced s).mp hs with ⟨hs, -⟩ | rfl
      · exact hp.parent_mem s hs
      · exact hparent
    · -- a new cycle would have to go over the new link
      intro x hx
      have hroot := hp.ne_root hchild
      rw [hp.isAncestor_iff hroot] at hfree
      rcases inside_of_link hlink hx with hx | ⟨hup, hdown⟩
      · exact hp.acyclic x hx
      · -- a way from the new container to the task is what was refused
        refine hfree ?_
        rcases hup with rfl | hup
        · exact hdown
        · rcases hdown with rfl | hdown
          · exact .inr hup
          · exact .inr (hdown.trans hup)
  · exact hp.numbered
  · exact hp.regular
  · exact hp.dependencies_nodup
  · exact hp.dependencies_numbered
  · exact hp.dependee_mem
  · exact hp.dependant_mem

theorem addDependency {dependee dependant : TaskId} {kind : LinkKind} {hardness : Hardness}
    {lag : Int} {new : DependencyId}
    (h : p.addDependency dependee dependant kind hardness lag = .ok (new, q)) : q.Sound := by
  have hmem : ∀ {x t}, p.get x = .ok t → x ∈ p.tasks.map Task.id :=
    fun ht => mem_ids_of_task? (get_eq_ok_iff.mp ht)
  obtain ⟨⟨source, hsource⟩, ⟨target, htarget⟩, -, -, -, rfl, -, rfl⟩ := exists_of_addDependency h
  constructor
  · exact ⟨hp.ids_nodup, hp.id_ne_root, hp.placed, hp.parent_mem, hp.acyclic⟩
  · exact hp.numbered
  · exact hp.regular
  · rw [List.map_append]
    refine hp.dependencies_nodup.append (List.nodup_singleton _) (List.disjoint_singleton.mpr ?_)
    intro hmem
    obtain ⟨d, hd, hid⟩ := List.mem_map.mp hmem
    have := hp.dependencies_numbered d hd
    rw [hid] at this
    exact absurd this (lt_irrefl _)
  · intro d hd
    rcases List.mem_append.mp hd with hd | hd
    · exact Nat.lt_succ_of_lt (hp.dependencies_numbered d hd)
    · rw [List.mem_singleton.mp hd]
      exact Nat.lt_succ_self _
  · intro d hd
    rcases List.mem_append.mp hd with hd | hd
    · exact hp.dependee_mem d hd
    · rw [List.mem_singleton.mp hd]
      exact hmem hsource
  · intro d hd
    rcases List.mem_append.mp hd with hd | hd
    · exact hp.dependant_mem d hd
    · rw [List.mem_singleton.mp hd]
      exact hmem htarget

theorem removeDependency {dependency : DependencyId} (h : p.removeDependency dependency = .ok q) :
    q.Sound := by
  obtain ⟨-, rfl⟩ := exists_of_removeDependency h
  constructor
  · exact ⟨hp.ids_nodup, hp.id_ne_root, hp.placed, hp.parent_mem, hp.acyclic⟩
  · exact hp.numbered
  · exact hp.regular
  · exact hp.dependencies_nodup.sublist (List.filter_sublist.map _)
  · exact fun d hd => hp.dependencies_numbered d (List.mem_of_mem_filter hd)
  · exact fun d hd => hp.dependee_mem d (List.mem_of_mem_filter hd)
  · exact fun d hd => hp.dependant_mem d (List.mem_of_mem_filter hd)

/-! ## Changes of one task -/

/-- A row is replaced by a regular one of the same number. -/
theorem replace {new : Task} (hnew : new.Regular) : (p.replace new).Sound := by
  have hids : (p.replace new).tasks.map Task.id = p.tasks.map Task.id := ids_replace
  have hid : ∀ t ∈ (p.replace new).tasks, t.id ∈ p.tasks.map Task.id := by
    intro t ht
    rw [← hids]
    exact List.mem_map_of_mem ht
  constructor
  · constructor
    · rw [hids]
      exact hp.ids_nodup
    · exact fun t ht => hp.ne_root (hid t ht)
    · rw [hids]
      exact hp.placed
    · rw [hids]
      exact hp.parent_mem
    · exact hp.acyclic
  · intro t ht
    obtain ⟨u, hu, hut⟩ := List.mem_map.mp (hid t ht)
    rw [← hut]
    exact hp.numbered u hu
  · intro t ht
    obtain ⟨u, hu, rfl⟩ := List.mem_map.mp ht
    split
    · exact hnew
    · exact hp.regular u hu
  · exact hp.dependencies_nodup
  · exact hp.dependencies_numbered
  · rw [hids]
    exact hp.dependee_mem
  · rw [hids]
    exact hp.dependant_mem

/-- Renewing one row by regular dates keeps the project sound. -/
theorem renews {done : Changed} (h : p.Renews id done) : done.project.Sound := by
  obtain ⟨old, new, hold, hnew, hproject, -⟩ := h
  rw [hproject]
  exact hp.replace (hnew.regular (hp.regular_of_task? hold))

theorem revise {revision : Revision} {done : Changed} (h : p.revise id revision = .ok done) :
    done.project.Sound :=
  hp.renews (renews_of_revise h)

theorem change {k : Change} {done : Changed} (h : p.change k = .ok done) :
    done.project.Sound := by
  rcases renews_of_change h with ⟨hsame, -⟩ | hrenews
  · rw [hsame]
    exact hp
  · exact hp.renews hrenews

theorem startAt {day : Day} {done : Changed} (h : p.startAt id day = .ok done) :
    done.project.Sound := by
  have hchange : p.change (.startAt id day) = .ok done := h
  exact hp.change hchange

/-- **An edit keeps a project sound.** -/
theorem edit {e : Edit} {r : Outcome} (h : p.edit e = .ok r) : r.project.Sound := by
  cases e with
  | addTask name start duration =>
    obtain ⟨⟨id, q⟩, hq, rfl⟩ := exists_of_map_eq_ok h
    exact hp.addTask hq
  | addMilestone name day =>
    obtain ⟨⟨id, q⟩, hq, rfl⟩ := exists_of_map_eq_ok h
    exact hp.addMilestone hq
  | removeTask id =>
    obtain ⟨q, hq, rfl⟩ := exists_of_map_eq_ok h
    exact hp.removeTask hq
  | place child parent =>
    obtain ⟨q, hq, rfl⟩ := exists_of_map_eq_ok h
    exact hp.place hq
  | addDependency dependee dependant kind hardness lag =>
    obtain ⟨⟨id, q⟩, hq, rfl⟩ := exists_of_map_eq_ok h
    exact hp.addDependency hq
  | removeDependency id =>
    obtain ⟨q, hq, rfl⟩ := exists_of_map_eq_ok h
    exact hp.removeDependency hq
  | change k =>
    obtain ⟨r, hr, rfl⟩ := exists_of_map_eq_ok h
    exact hp.change hr

end Sound

end Project

end Workplan
