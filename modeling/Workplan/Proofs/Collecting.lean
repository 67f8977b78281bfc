import Workplan.Proofs.Enclosing

/-!
# Collecting containers

The containers of some tasks can be collected by going up from each of them only as far as nothing
known is met.  Since what is known is closed upwards, everything further up is known then as well,
and nothing is lost.

- `Project.collect`: going up from one task; `Project.length_unknown_lt` is why it ends.
- `Project.ClosedAbove`: with a task, what contains it is known.
- `Project.Nested.mem_collect`: what is known after going up from one task.
- `Project.Nested.mergeSort_collectAll`: in whatever order the containers come that are collected
  from all tasks, sorting them gives the order of fitting.
-/

namespace Workplan.Project

variable {p : Project} {a b x y : TaskId} {known tasks order : List TaskId}

/-- The placements under something that is not known. -/
def unknown (p : Project) (known : List TaskId) : List Placement :=
  p.placements.filter fun s => s.parent ∉ known

/-- There are fewer of them when a container becomes known. -/
theorem length_unknown_lt (h : p.parent? x = some a) (ha : a ∉ known) :
    (p.unknown (a :: known)).length < (p.unknown known).length := by
  have hsub : p.unknown (a :: known) = (p.unknown known).filter fun s => s.parent ≠ a := by
    rw [unknown, unknown, List.filter_filter]
    refine List.filter_congr fun s _ => ?_
    simp
  have hmem : ⟨x, a⟩ ∈ p.unknown known :=
    List.mem_filter.mpr ⟨(mem_placements_of_parent? h).1, decide_eq_true ha⟩
  rw [hsub]
  exact List.length_filter_lt_length_iff_exists.mpr ⟨_, hmem, by simp⟩

/-- Takes in what contains a task, from the inside out, and stops early at the first container that
is known already. -/
def collect (p : Project) (known : List TaskId) (task : TaskId) : List TaskId :=
  match _ : p.parent? task with
  | none => known
  | some parent => if parent ∈ known then known else p.collect (parent :: known) parent
termination_by (p.unknown known).length
decreasing_by exact length_unknown_lt ‹_› ‹_›

/-- The containers of some tasks, collected from one task after the other. -/
def collectAll (p : Project) (tasks : List TaskId) : List TaskId := tasks.foldl p.collect []

/-! ## One task -/

theorem collect_of_top (h : p.parent? x = none) : p.collect known x = known := by
  rw [collect]
  split
  · rfl
  · next hsome => cases h.symm.trans hsome

/-- The climb turns back at a parent already known. -/
theorem collect_of_known (h : p.parent? x = some a) (ha : a ∈ known) :
    p.collect known x = known := by
  rw [collect]
  split
  · rfl
  · next b hb =>
    cases h.symm.trans hb
    exact if_pos ha

/-- A parent not known yet is put in, and the climb goes on from it. -/
theorem collect_of_new (h : p.parent? x = some a) (ha : a ∉ known) :
    p.collect known x = p.collect (a :: known) a := by
  rw [collect]
  split
  · next hnone => cases h.symm.trans hnone
  · next b hb =>
    cases h.symm.trans hb
    exact if_neg ha

/-- No container is taken in twice. -/
theorem nodup_collect (h : known.Nodup) (x : TaskId) : (p.collect known x).Nodup := by
  induction known, x using collect.induct p with
  | case1 known x hparent => rwa [collect_of_top hparent]
  | case2 known x a hparent ha => rwa [collect_of_known hparent ha]
  | case3 known x a hparent ha ih =>
    rw [collect_of_new hparent ha]
    exact ih (List.nodup_cons.mpr ⟨ha, h⟩)

/-- With a task, what contains it is known; a task from which the way up has still to be gone may be
an exception. -/
def ClosedAbove (p : Project) (known : List TaskId) (exception : Option TaskId) : Prop :=
  ∀ a ∈ known, ∀ b, p.parent? a = some b → b ∈ known ∨ exception = some a

/-- Above a known container everything is known, as the way up does not come back to the
exception. -/
theorem ClosedAbove.mem_of_inside (h : p.ClosedAbove known (some x)) (hp : p.Nested)
    (ha : a ∈ known) (hxa : p.Inside x a) (hay : p.Inside a y) : y ∈ known := by
  have hstep : ∀ {b c}, b ∈ known → p.Inside x b → p.parent? b = some c → c ∈ known := by
    intro b c hb hxb hc
    refine (h b hb c hc).resolve_right fun heq => hp.acyclic x ?_
    rwa [← Option.some.inj heq] at hxb
  induction hay with
  | single hparent => exact hstep ha hxa hparent
  | tail hab hparent ih => exact hstep ih (hxa.trans hab) hparent

namespace Nested

variable (hp : p.Nested)
include hp

/-- **From one task, what contains it is taken in**, and what is known is closed again. -/
theorem mem_collect (h : p.ClosedAbove known (some x)) :
    (∀ y, y ∈ p.collect known x ↔ y ∈ known ∨ p.Inside x y) ∧
      p.ClosedAbove (p.collect known x) none := by
  induction known, x using collect.induct p with
  | case1 known x hparent =>
    rw [collect_of_top hparent]
    refine ⟨fun y => (or_iff_left fun hin => ?_).symm, fun b hb c hc => .inl ?_⟩
    · obtain ⟨z, hz, -⟩ := Relation.TransGen.head'_iff.mp hin
      cases hparent.symm.trans hz
    · refine (h b hb c hc).resolve_right fun heq => ?_
      cases heq
      cases hparent.symm.trans hc
  | case2 known x a hparent ha =>
    -- the early stop: `a` is known, and with it all that is above
    rw [collect_of_known hparent ha]
    refine ⟨fun y => (or_iff_left_of_imp fun hin => ?_).symm, fun b hb c hc => .inl ?_⟩
    · rcases (inside_of_parent? hparent).mp hin with rfl | hay
      · exact ha
      · exact h.mem_of_inside hp ha (.single hparent) hay
    · rcases h b hb c hc with hc' | heq
      · exact hc'
      · cases heq
        cases hparent.symm.trans hc
        exact ha
  | case3 known x a hparent ha ih =>
    rw [collect_of_new hparent ha]
    have hclosed : p.ClosedAbove (a :: known) (some a) := by
      intro b hb c hc
      rcases List.mem_cons.mp hb with rfl | hb
      · exact .inr rfl
      · rcases h b hb c hc with hc' | heq
        · exact .inl (List.mem_cons_of_mem a hc')
        · cases heq
          cases hparent.symm.trans hc
          exact .inl List.mem_cons_self
    obtain ⟨hmem, hafter⟩ := ih hclosed
    refine ⟨fun y => ?_, hafter⟩
    rw [hmem, inside_of_parent? hparent, List.mem_cons, or_assoc, or_left_comm]

/-! ## All tasks -/

/-- **From all tasks, what contains one of them is collected**, each container once. -/
theorem mem_collectAll (tasks : List TaskId) :
    (∀ y, y ∈ p.collectAll tasks ↔ ∃ x ∈ tasks, p.Inside x y) ∧ (p.collectAll tasks).Nodup := by
  have hfold : ∀ known, p.ClosedAbove known none → known.Nodup →
      (∀ y, y ∈ tasks.foldl p.collect known ↔ y ∈ known ∨ ∃ x ∈ tasks, p.Inside x y) ∧
        (tasks.foldl p.collect known).Nodup := by
    induction tasks with
    | nil => exact fun known _ hnodup => ⟨fun y => by simp, hnodup⟩
    | cons x tasks ih =>
      intro known hclosed hnodup
      have hexcept : p.ClosedAbove known (some x) := fun a ha b hb =>
        .inl ((hclosed a ha b hb).resolve_right nofun)
      obtain ⟨hmem, hafter⟩ := hp.mem_collect hexcept
      obtain ⟨hall, hnodup⟩ := ih (p.collect known x) hafter (nodup_collect hnodup x)
      refine ⟨fun y => ?_, hnodup⟩
      rw [List.foldl_cons, hall, hmem, or_assoc]
      simp
  obtain ⟨hmem, hnodup⟩ := hfold [] (fun a ha => absurd ha List.not_mem_nil) List.nodup_nil
  exact ⟨fun y => (hmem y).trans (or_iff_right List.not_mem_nil), hnodup⟩

/-- **Sorting what is collected gives the containers in the order of fitting**, in whatever order a
set lists them. -/
theorem mergeSort_collectAll (h : order.Perm (p.collectAll tasks)) :
    order.mergeSort p.fitsBefore = p.containersOf tasks := by
  obtain ⟨hmem, hnodup⟩ := hp.mem_collectAll tasks
  have hsorted := p.sorted_mergeSort (h.nodup_iff.mpr hnodup)
  have hsorted' := p.sorted_containersOf tasks
  have hnodup' : (p.containersOf tasks).Nodup := hsorted'.imp fun hlt heq => by
    rw [heq] at hlt
    omega
  have hperm : (order.mergeSort p.fitsBefore).Perm (p.containersOf tasks) := by
    refine (List.mergeSort_perm _ _).trans (h.trans ?_)
    refine (List.perm_ext_iff_of_nodup hnodup hnodup').mpr fun y => ?_
    rw [hmem, hp.mem_containersOf]
  -- depths and numbers leave no choice
  exact hperm.eq_of_pairwise (fun a b _ _ hab hba => by omega) hsorted hsorted'

end Nested

end Workplan.Project
