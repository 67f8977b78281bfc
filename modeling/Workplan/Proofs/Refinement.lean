import Workplan.Proofs.Representing
import Workplan.Proofs.Stepwise

/-!
# Edits of an arena are edits of a project

Where an arena represents a project, an edit of the arena is refused for the same reason as the
edit of the project, or replies and announces the same, and what it leaves in the tables represents
the new project.  Each write to one table is followed by what it comes to in the project.  A removed
task is followed one task and one dependency at a time.

- `Matched`: both are refused alike, or what they come to is related.
- `Arena.Represents.detach`, `unhook`, `discard`: single writes.
- `Arena.Represents.removeTask`, `place`, `addDependency` and others: each operation.
- `Arena.Represents.edit`: so every edit is matched.
-/

namespace Workplan

/-! ## Matched outcomes -/

/-- Both are refused for the same reason, or what they come to is related. -/
inductive Matched {α β : Type} (R : α → β → Prop) : Except Fault α → Except Fault β → Prop
  /-- Both are refused. -/
  | refused (fault : Fault) : Matched R (.error fault) (.error fault)
  /-- Both come to something. -/
  | done {x : α} {y : β} (h : R x y) : Matched R (.ok x) (.ok y)

namespace Matched

variable {α β γ δ : Type} {R : α → β → Prop} {S : γ → δ → Prop}

/-- Results that match go on to match under maps that agree on matching values. -/
theorem map {f : α → γ} {g : β → δ} {x : Except Fault α} {y : Except Fault β} (h : Matched R x y)
    (hfg : ∀ a b, R a b → S (f a) (g b)) : Matched S (x.map f) (y.map g) := by
  cases h with
  | refused fault => exact .refused fault
  | done h => exact .done (hfg _ _ h)

/-- Matched outcomes are of one kind. -/
theorem cases {x : Except Fault α} {y : Except Fault β} (h : Matched R x y) :
    (∃ fault, x = .error fault ∧ y = .error fault) ∨ ∃ a b, x = .ok a ∧ y = .ok b ∧ R a b := by
  cases h with
  | refused fault => exact .inl ⟨fault, rfl, rfl⟩
  | @done a b h => exact .inr ⟨a, b, rfl, rfl, h⟩

/-- Where one comes to something, the other does too. -/
theorem exists_of_ok {x : Except Fault α} {y : Except Fault β} {a : α} (h : Matched R x y)
    (hx : x = .ok a) : ∃ b, y = .ok b ∧ R a b := by
  subst hx
  cases h with
  | done h => exact ⟨_, rfl, h⟩

/-- Where the other comes to something, the one does too. -/
theorem exists_of_ok' {x : Except Fault α} {y : Except Fault β} {b : β} (h : Matched R x y)
    (hy : y = .ok b) : ∃ a, x = .ok a ∧ R a b := by
  subst hy
  cases h with
  | done h => exact ⟨_, rfl, h⟩

/-- Both are refused on one condition. -/
theorem guard {c : Prop} [Decidable c] {fault : Fault} {x : Except Fault α} {y : Except Fault β}
    (h : ¬ c → Matched R x y) :
    Matched R (if c then .error fault else x) (if c then .error fault else y) := by
  split
  · exact .refused fault
  · next hc => exact h hc

/-- Both ask the same before they go on. -/
theorem bind {x : Except Fault γ} {f : γ → Except Fault α} {g : γ → Except Fault β}
    (h : ∀ c, x = .ok c → Matched R (f c) (g c)) : Matched R (x >>= f) (x >>= g) := by
  cases x with
  | error fault => exact .refused fault
  | ok c => exact h c rfl

end Matched

theorem Project.contains_of_get {p : Project} {id : TaskId} {t : Task} (h : p.get id = .ok t) :
    p.contains id := by
  rw [contains, get_eq_ok_iff.mp h]
  rfl

namespace Arena

/-- Both have given out the same number, and the arena represents the project. -/
structure SameNumber {α : Type} (r : α × Arena) (s : α × Project) : Prop where
  number : r.1 = s.1
  represents : r.2.Represents s.2

/-- Both have found the same change and announce the same, and the arena represents the project. -/
structure SameChange (r : Written) (s : Changed) : Prop where
  changed : r.1.1 = s.changed
  event? : r.1.2 = s.event?
  represents : r.2.Represents s.project

/-- Both reply and announce the same, and the arena represents the project. -/
structure SameOutcome (r : (Reply × Option Event) × Arena) (s : Outcome) : Prop where
  reply : r.1.1 = s.reply
  event? : r.1.2 = s.event?
  represents : r.2.Represents s.project

namespace Represents

variable {a : Arena} {p : Project} {id child parent : TaskId} {n : DependencyId}

section

variable (h : a.Represents p)
include h

/-! ## Dependencies -/

/-- No two dependencies bear the same number. -/
theorem dependencies_nodup : (p.dependencies.map Dependency.id).Nodup := by
  rw [List.Nodup, List.pairwise_map]
  refine h.dependencies.ascending.imp fun {d d'} hlt heq => ?_
  rw [heq] at hlt
  exact lt_irrefl _ hlt

/-- **A detached dependency is one less.** -/
theorem detach (n : DependencyId) : (a.detach n).Represents
    { p with dependencies := p.dependencies.filter fun d => d.id ≠ n } := by
  rw [Arena.detach]
  cases hd : a.dependency? n with
  | none =>
    have hall : (p.dependencies.filter fun d => d.id ≠ n) = p.dependencies := by
      refine List.filter_eq_self.mpr fun d hmem => decide_eq_true ?_
      rintro rfl
      rw [dependency?, h.dependencies.getElem?_key hmem] at hd
      cases hd
    rw [hall]
    exact h
  | some d =>
    have hclear := h.dependencies.clear n.number
    simp only [← DependencyId.ext_iff, ne_eq] at hclear
    -- the number is in no other slot, so only the lists at the ends of this one have it
    have hlast : ∀ e ∈ p.dependencies, e.id = n → e = d := by
      rintro e he rfl
      rw [dependency?, h.dependencies.getElem?_key he] at hd
      exact Option.some.inj hd
    refine { h with
      dependencies := hclear
      dependencies_length := (List.length_set ..).trans h.dependencies_length
      outgoing_length := (List.length_modify ..).trans h.outgoing_length
      incoming_length := (List.length_modify ..).trans h.incoming_length
      outgoing_row := fun x => ?_
      incoming_row := fun x => ?_ }
    · rw [row_modify (.inl (drop_nil n)), h.outgoing_row]
      exact drop_members Dependency.dependee Dependency.id
        (fun e he hn => congrArg Dependency.dependee (hlast e he hn)) x
    · rw [row_modify (.inl (drop_nil n)), h.incoming_row]
      exact drop_members Dependency.dependant Dependency.id
        (fun e he hn => congrArg Dependency.dependant (hlast e he hn)) x

omit h in
/-- Detaching dependencies one by one removes their numbers from the live list. -/
theorem foldl_detach (h : a.Represents p) (ns : List DependencyId) :
    (ns.foldl Arena.detach a).Represents
      { p with dependencies := p.dependencies.filter fun d => d.id ∉ ns } := by
  rw [← Stepwise.foldl_detach]
  induction ns generalizing a p with
  | nil => exact h
  | cons n ns ih => exact ih (h.detach n)

/-! ## Tasks -/

/-- **A discarded task takes its dependencies and its name with it**, and has no contents. -/
theorem discard (id : TaskId) : (a.discard id).Represents (Stepwise.without p id) := by
  have hrest := h.foldl_detach ((p.outgoing id ++ p.incoming id).map Dependency.id)
  rw [Stepwise.filter_touching h.dependencies_nodup, List.map_append, ← h.outgoing_row,
    ← h.incoming_row] at hrest
  have hclear := hrest.tasks.clear id.number
  simp only [← TaskId.ext_iff, ne_eq] at hclear
  refine { hrest with
    keys := congrArg (·.unbind id) hrest.keys
    tasks := hclear
    tasks_length := (List.length_set ..).trans hrest.tasks_length
    parents_length := hrest.parents_length.trans (List.length_set ..).symm
    children_length := (List.length_modify ..).trans
      (hrest.children_length.trans (List.length_set ..).symm)
    outgoing_length := hrest.outgoing_length.trans (List.length_set ..).symm
    incoming_length := hrest.incoming_length.trans (List.length_set ..).symm
    parent := fun s hs => hrest.parent s (List.mem_of_mem_filter hs)
    children := fun x => ?_ }
  rw [Arena.children, Arena.discard, row_modify (.inl rfl)]
  have hchildren := hrest.children x
  rw [Arena.children] at hchildren
  rw [hchildren, Project.children, Project.children, Stepwise.without, List.filter_filter]
  split
  · next hx =>
    -- whatever was nested here is gone
    rw [hx, List.filter_eq_nil_iff.mpr fun s _ => by simp]
    rfl
  · next hx =>
    refine congrArg (List.map Placement.child) (List.filter_congr fun s _ => ?_)
    by_cases hs : s.parent = x
    · simp [hs, hx]
    · simp [hs]

omit h in
/-- Discarding tasks one by one does to the slots what clearing them out does to the lists. -/
theorem foldl_discard (h : a.Represents p) (doomed : List TaskId) :
    (doomed.foldl Arena.discard a).Represents (doomed.foldl Stepwise.without p) := by
  induction doomed generalizing a p with
  | nil => exact h
  | cons id doomed ih => exact ih (h.discard id)

/-- **A task that leaves its container has no place.** -/
theorem unhook (hp : p.Nested) (hid : p.contains id) : (a.unhook id).Represents
    { p with placements := p.placements.filter fun s => s.child ≠ id } := by
  obtain ⟨y, hy⟩ := Option.isSome_iff_exists.mp (hp.isSome_holder?.mpr hid)
  have hslot : a.parentSlots[id.number]?.getD .root = y := by
    rw [h.getElem?_parentSlots hp hid, hy]
    rfl
  refine { h with
    children_length := (List.length_modify ..).trans h.children_length
    parent := fun s hs => h.parent s (List.mem_of_mem_filter hs)
    children := fun x => ?_ }
  have hlast : ∀ s ∈ p.placements, s.child = id → s.parent = y := by
    rintro s hs rfl
    exact Option.some.inj ((hp.holder?_eq_some_iff.mpr hs).symm.trans hy)
  rw [Arena.children, Arena.unhook, hslot, row_modify (.inl (drop_nil id)), ← Arena.children,
    h.children]
  exact drop_members Placement.parent Placement.child hlast x

/-- **A task without a place is put somewhere**, behind what is there. -/
theorem hang (hfree : ∀ s ∈ p.placements, s.child ≠ child)
    (hchild : child.number < a.taskSlots.length) (hparent : parent.number < a.taskSlots.length) :
    Represents { a with
      childSlots := a.childSlots.modify parent.number (push child)
      parentSlots := a.parentSlots.set child.number parent }
    { p with placements := p.placements ++ [⟨child, parent⟩] } := by
  refine { h with
    parents_length := (List.length_set ..).trans h.parents_length
    children_length := (List.length_modify ..).trans h.children_length
    parent := fun s hs => ?_
    children := fun x => ?_ }
  · rw [List.getElem?_set]
    rcases List.mem_append.mp hs with hs | hs
    · have hne : child.number ≠ s.child.number := fun e => hfree s hs (TaskId.ext e.symm)
      rw [if_neg hne]
      exact h.parent s hs
    · cases List.mem_singleton.mp hs
      rw [if_pos rfl, if_pos (h.parents_length ▸ hchild)]
  · rw [Arena.children, row_modify (.inr (h.children_length ▸ hparent)), ← Arena.children,
      h.children]
    exact push_members Placement.parent Placement.child p.placements ⟨child, parent⟩ x

end

/-! ## Operations -/

section

variable (h : a.Represents p)
include h

/-- Pushing a row onto the four task tables is adding a task under the root. -/
theorem insertTask (name : String) (start finish : Day) (duration : Duration) (milestone : Bool) :
    Matched SameNumber
      (a.insertTask name start finish duration milestone)
      (p.insertTask name start finish duration milestone) := by
  rw [Arena.insertTask, Project.insertTask, h.tasks_length, h.keys]
  dsimp only
  split
  · exact .refused _
  cases p.keys.bind? name ⟨p.tasksAdded + 1⟩ with
  | none => exact .refused _
  | some keys =>
  have hlong : TaskId.root.number < (a.childSlots ++ [[]]).length := by
    rw [List.length_append]
    exact Nat.lt_of_lt_of_le Nat.zero_lt_one (Nat.le_add_left _ _)
  -- the row, its parent and three empty rows are pushed, and the root's row gets the key
  refine .done ⟨rfl, { h with
    keys := rfl
    tasks := h.tasks.add h.tasks_length.symm
    tasks_length := by rw [List.length_append, h.tasks_length]; rfl
    parents_length := by rw [List.length_append, List.length_append, h.parents_length]; rfl
    children_length := by
      rw [List.length_modify, List.length_append, List.length_append, h.children_length]; rfl
    outgoing_length := by rw [List.length_append, List.length_append, h.outgoing_length]; rfl
    incoming_length := by rw [List.length_append, List.length_append, h.incoming_length]; rfl
    parent := fun s hs => ?_
    children := fun x => ?_
    outgoing_row := fun x => row_append_empty.trans (h.outgoing_row x)
    incoming_row := fun x => row_append_empty.trans (h.incoming_row x) }⟩
  · rcases List.mem_append.mp hs with hs | hs
    · have hslot := h.parent s hs
      rwa [List.getElem?_append_left (List.getElem?_eq_some_iff.mp hslot).1]
    · cases List.mem_singleton.mp hs
      rw [← h.tasks_length, ← h.parents_length]
      exact List.getElem?_concat_length
  · rw [Arena.children, row_modify (.inr hlong), row_append_empty, ← Arena.children, h.children]
    exact push_members Placement.parent Placement.child p.placements
      ⟨⟨p.tasksAdded + 1⟩, .root⟩ x

/-- Discarding a task and all below it, slot by slot, is removing it with all inside it. -/
theorem removeTask (hp : p.Sound) (id : TaskId) :
    Matched Represents (a.removeTask id) (p.removeTask id) := by
  rw [Arena.removeTask, h.get_eq]
  cases ht : p.task? id with
  | none =>
    rw [Project.removeTask, Project.get, ht]
    exact .refused _
  | some t =>
    have hid : p.contains id := by rw [Project.contains, ht]; rfl
    rw [Stepwise.removeTask_eq_foldl hp ht, Project.get_of_task? ht, h.descendants_eq hp.toNested]
    exact .done ((h.unhook hp.toNested hid).foldl_discard _)

theorem nest (hp : p.Nested) (hchild : p.contains child)
    (hparent : parent = .root ∨ p.contains parent) : Matched Represents (a.nest child parent) (do
      if child = parent ∨ p.isAncestor child parent then
        throw (.invalidHierarchy child parent .insideItself)
      return { p with
        placements := (p.placements.filter fun s => s.child ≠ child) ++ [⟨child, parent⟩] }) := by
  rw [Arena.nest, h.isAncestor_eq hp]
  split
  · exact .refused _
  have hfree := h.unhook hp hchild
  refine .done (hfree.hang ?_ (h.number_lt hchild) ?_)
  · intro s hs
    exact of_decide_eq_true (List.mem_filter.mp hs).2
  · rcases hparent with rfl | hparent
    · rw [hfree.tasks_length]
      exact Nat.succ_pos _
    · exact h.number_lt hparent

/-- Moving a task between two child rows is placing it. -/
theorem place (hp : p.Sound) (child parent : TaskId) :
    Matched Represents (a.place child parent) (p.place child parent) := by
  rw [Arena.place, Project.place, h.get_eq, h.get_eq]
  refine .bind fun t ht => ?_
  have hchild := Project.contains_of_get ht
  by_cases hroot : parent = .root
  · simp only [hroot, ne_eq, not_true, if_false]
    exact h.nest hp.toNested hchild (.inl rfl)
  · simp only [ne_eq, hroot, not_false_eq_true, if_true]
    exact .bind fun u hu => h.nest hp.toNested hchild (.inr (Project.contains_of_get hu))

/-- Pushing a dependency onto the three tables that hold it is adding it. -/
theorem addDependency (hp : p.Sound) (dependee dependant : TaskId) (kind : LinkKind)
    (hardness : Hardness) (lag : Int) : Matched SameNumber
      (a.addDependency dependee dependant kind hardness lag)
      (p.addDependency dependee dependant kind hardness lag) := by
  rw [Arena.addDependency, Project.addDependency, h.get_eq, h.get_eq]
  refine .bind fun t ht => .bind fun u hu => ?_
  rw [h.isAncestor_eq hp.toNested, h.isAncestor_eq hp.toNested, h.incoming_eq,
    h.dependencies_length]
  -- both sides check in one order, so they refuse with one fault
  refine .guard fun _ => .guard fun _ => .guard fun _ => .guard fun _ => ?_
  have hdependee := h.number_lt (Project.contains_of_get ht)
  have hdependant := h.number_lt (Project.contains_of_get hu)
  refine .done ⟨rfl, { h with
    dependencies := h.dependencies.add h.dependencies_length.symm
    dependencies_length := by rw [List.length_append, h.dependencies_length]; rfl
    outgoing_length := (List.length_modify ..).trans h.outgoing_length
    incoming_length := (List.length_modify ..).trans h.incoming_length
    outgoing_row := fun x => ?_
    incoming_row := fun x => ?_ }⟩
  · rw [row_modify (.inr (h.outgoing_length ▸ hdependee)), h.outgoing_row]
    exact push_members Dependency.dependee Dependency.id p.dependencies ⟨_, _, _, _, _, _⟩ x
  · rw [row_modify (.inr (h.incoming_length ▸ hdependant)), h.incoming_row]
    exact push_members Dependency.dependant Dependency.id p.dependencies ⟨_, _, _, _, _, _⟩ x

/-- Detaching one dependency from both ends is removing it. -/
theorem removeDependency (n : DependencyId) :
    Matched Represents (a.removeDependency n) (p.removeDependency n) := by
  rw [Arena.removeDependency, Project.removeDependency, h.dependency?_eq]
  split
  · exact .refused _
  · exact .done (h.detach n)

/-! ## Changes of one task -/

/-- A written row is in the slot of the old one. -/
theorem put {old new : Task} (hold : p.task? id = some old) (hnew : new.id = old.id) :
    Represents { a with taskSlots := a.taskSlots.set id.number (some new) } (p.replace new) := by
  have hid := Project.id_of_task? hold
  have hslot := h.tasks.getElem?_key (Project.mem_of_task? hold)
  rw [hid] at hslot
  have hput := h.tasks.put hslot (x := new) (congrArg TaskId.number (hnew.trans hid))
  rw [← hnew.trans hid] at hput ⊢
  simp only [← TaskId.ext_iff] at hput
  exact { h with
    tasks := hput
    tasks_length := (List.length_set ..).trans h.tasks_length
    parents_length := h.parents_length.trans (List.length_set ..).symm
    children_length := h.children_length.trans (List.length_set ..).symm
    outgoing_length := h.outgoing_length.trans (List.length_set ..).symm
    incoming_length := h.incoming_length.trans (List.length_set ..).symm }

theorem write (id : TaskId) (start finish : Day) (duration : Duration) (anchor? : Option Anchor) :
    Matched SameChange (a.write id start finish duration anchor?)
      (p.write id start finish duration anchor?) := by
  rw [Arena.write, Project.write, h.get_eq]
  split
  · exact .refused _
  · refine .bind fun old hold => .done ⟨rfl, rfl, ?_⟩
    exact h.put (Project.get_eq_ok_iff.mp hold) rfl

theorem revisedSpan_eq (old : Task) (start : Day) (r : Revision) :
    a.revisedSpan old start r = p.revisedSpan old start r := by
  rw [revisedSpan, Project.revisedSpan]
  by_cases hpoint : old.milestone
  · rw [if_pos hpoint, if_pos hpoint]
  · rw [if_neg hpoint, if_neg hpoint]
    cases r.duration? with
    | none => simp only [h.calendar]
    | some duration => simp only [h.calendar]

theorem revise (id : TaskId) (r : Revision) :
    Matched SameChange (a.revise id r) (p.revise id r) := by
  rw [Arena.revise, Project.revise, h.get_eq]
  refine .bind fun old _ => ?_
  dsimp only
  rw [h.revisedSpan_eq]
  exact .bind fun span _ => h.write id _ _ _ _

theorem slide (id : TaskId) (lengths : List Duration) :
    Matched SameChange (a.slide id lengths) (p.slide id lengths) := by
  rw [Arena.slide, Project.slide, h.get_eq, h.calendar]
  refine .bind fun old _ => .bind fun _ _ => .bind fun _ _ => ?_
  by_cases hpoint : old.milestone
  · simp only [if_pos hpoint, pure_bind]
    exact h.write id _ _ _ _
  · simp only [if_neg hpoint]
    exact .bind fun _ _ => h.write id _ _ _ _

theorem startAt (id : TaskId) (start : Day) :
    Matched SameChange (a.startAt id start) (p.startAt id start) := by
  rw [Arena.startAt, Project.startAt, h.get_eq, h.calendar, h.hasChildren_eq]
  refine .bind fun old _ => ?_
  dsimp only
  split_ifs
  · exact h.revise id _
  · exact .done ⟨rfl, rfl, h⟩
  · exact h.revise id _
  · exact h.slide id _

/-- Every change of one row runs alike on both sides. -/
theorem change (c : Change) :
    Matched SameChange (a.change c) (p.change c) := by
  cases c with
  | revise id r => exact h.revise id r
  | slide id lengths => exact h.slide id lengths
  | startAt id start => exact h.startAt id start

/-! ## Edits -/

/-- **An edit of the arena is the edit of the project that it represents**: both are refused for the
same reason, or both reply and announce the same, and the arena represents the project again. -/
theorem edit (hp : p.Sound) (e : Edit) :
    Matched SameOutcome (a.edit e) (p.edit e) := by
  cases e with
  | addTask name start duration =>
    have hadd : Matched SameNumber
        (a.addTask name start duration) (p.addTask name start duration) := by
      rw [addTask, Project.addTask, h.calendar]
      exact .bind fun finish _ => h.insertTask name start finish duration false
    exact hadd.map fun r s hrs => ⟨congrArg Reply.task hrs.number, rfl, hrs.represents⟩
  | addMilestone name day =>
    exact (h.insertTask name day day (.days 0) true).map
      fun r s hrs => ⟨congrArg Reply.task hrs.number, rfl, hrs.represents⟩
  | removeTask id => exact (h.removeTask hp id).map fun r s hrs => ⟨rfl, rfl, hrs⟩
  | place child parent => exact (h.place hp child parent).map fun r s hrs => ⟨rfl, rfl, hrs⟩
  | addDependency dependee dependant kind hardness lag =>
    exact (h.addDependency hp dependee dependant kind hardness lag).map
      fun r s hrs => ⟨congrArg Reply.dependency hrs.number, rfl, hrs.represents⟩
  | removeDependency n => exact (h.removeDependency n).map fun r s hrs => ⟨rfl, rfl, hrs⟩
  | change c =>
    exact (h.change c).map
      fun r s hrs => ⟨congrArg Reply.changed hrs.changed, hrs.event?, hrs.represents⟩

end

end Represents

end Arena

end Workplan
