import Workplan.Proofs.Demands
import Workplan.Proofs.Levels
import Workplan.Proofs.Waves

/-!
# Projects without nesting

Where no task contains others, a task is bound by the dependencies declared on it only, the
network is made of the dependencies, and there is nothing to fit.

- `Project.Flat`: no task contains others.
- `Project.Flat.binding_eq`, `Project.Flat.leads_iff`: what binds a task, and what leads to it.
- `Project.Sound.mem_independent`: where a recomputation of the whole project begins.
- `Project.Flat.rises`: numbers that rise along the dependencies, if these have no cycle.
- `Project.Flat.fit_alone`: fitting does nothing.
-/

namespace Workplan

namespace Project

variable {p : Project} {x y : TaskId} {d : Dependency}

/-- No task contains others. -/
def Flat (p : Project) : Prop := ∀ t ∈ p.tasks, p.hasChildren t.id = false

/-- The first task waits for the second one. -/
def WaitsFor (p : Project) (x y : TaskId) : Prop :=
  ∃ d ∈ p.dependencies, d.dependee = y ∧ d.dependant = x

/-- The tasks a full run starts from are those that no dependency enters. -/
theorem Sound.mem_independent (hp : p.Sound) :
    x ∈ p.independent ↔ x ∈ p.tasks.map Task.id ∧ p.incoming x = [] := by
  rw [independent, List.mem_filter, hp.mem_descendants_root, List.isEmpty_iff]

/-- Numbers that rise along the dependencies rule out a cycle. -/
theorem Rises.acyclic {rank : TaskId → Nat} (hrank : p.Rises rank) (x : TaskId) :
    ¬ Relation.TransGen p.WaitsFor x x := by
  have hfalls : ∀ {a b}, Relation.TransGen p.WaitsFor a b → rank b < rank a := by
    intro a b h
    induction h with
    | single h =>
      obtain ⟨d, hd, rfl, rfl⟩ := h
      exact hrank d hd
    | tail _ h ih =>
      obtain ⟨d, hd, rfl, rfl⟩ := h
      exact (hrank d hd).trans ih
  exact fun h => lt_irrefl _ (hfalls h)

namespace Flat

variable (hflat : p.Flat) (hp : p.Sound)
include hflat hp

theorem parent?_eq_none (x : TaskId) : p.parent? x = none := by
  rw [Option.eq_none_iff_forall_ne_some]
  intro y hparent
  obtain ⟨t, ht, rfl⟩ := List.mem_map.mp (hp.mem_of_parent? hparent).2
  have hnone := hflat t ht
  rw [hasChildren_of_parent? hparent] at hnone
  cases hnone

theorem ancestors_eq_nil (x : TaskId) : p.ancestors x = [] := by
  unfold ancestors
  cases p.placements.length with
  | zero => rfl
  | succ n =>
    rw [climb_succ, hflat.parent?_eq_none hp]

/-- A task is bound by what is declared on it. -/
theorem binding_eq (x : TaskId) : p.binding x = p.incoming x := by
  unfold binding incoming
  refine List.filter_congr fun d hd => ?_
  have hroot := hp.ne_root (hp.dependant_mem d hd)
  have houtside : p.isAncestor d.dependant x = false := by
    rw [isAncestor, hflat.ancestors_eq_nil hp]
    simp [hroot]
  simp [houtside]

/-- The edges of the network are the dependencies. -/
theorem leads_iff : p.network.Leads y x ↔ p.WaitsFor x y := by
  rw [Network.leads_iff]
  constructor
  · rintro ⟨e, he, rfl⟩
    rcases (mem_incoming_network hp).mp he with ⟨child, hparent, -⟩ | ⟨d, hd, rfl⟩
    · rw [hflat.parent?_eq_none hp] at hparent
      cases hparent
    · rw [hflat.binding_eq hp, mem_incoming] at hd
      exact ⟨d, hd.1, rfl, hd.2⟩
  · rintro ⟨d, hd, rfl, rfl⟩
    refine ⟨.ofDependency d d.dependant, (mem_incoming_network hp).mpr (.inr ⟨d, ?_, rfl⟩), rfl⟩
    rw [hflat.binding_eq hp, mem_incoming]
    exact ⟨hd, rfl⟩

/-- In a flat project the network is acyclic when waiting is. -/
theorem acyclic_network (h : ∀ x, ¬ Relation.TransGen p.WaitsFor x x) : p.network.Acyclic := by
  intro x hx
  -- the network follows the dependencies forward, and waiting looks back
  refine h x ((Relation.transGen_swap (r := p.WaitsFor)).mp ?_)
  exact Relation.TransGen.mono (fun a b hab => (hflat.leads_iff hp).mp hab) x x hx

/-- Without a cycle of dependencies, the tasks can be numbered along them. -/
theorem rises (h : ∀ x, ¬ Relation.TransGen p.WaitsFor x x) : ∃ rank, p.Rises rank := by
  obtain ⟨layers, hlayers⟩ := Network.exists_layers (hflat.acyclic_network hp h)
  have horder := Network.isOrder_of_layers hlayers
  refine ⟨fun x => layers.flatten.idxOf x, fun d hd => ?_⟩
  have hdependant := horder.perm.symm.subset (hp.dependant_mem d hd)
  obtain ⟨done, rest, hsplit, hnot⟩ := List.eq_append_cons_of_mem hdependant
  have hlead := (hflat.leads_iff hp).mpr ⟨d, hd, rfl, rfl⟩
  have hdone := horder.earlier done _ rest hsplit _ (hp.dependee_mem d hd) hlead
  show layers.flatten.idxOf d.dependee < layers.flatten.idxOf d.dependant
  rw [hsplit, List.idxOf_append_of_mem hdone, List.idxOf_append_of_notMem hnot,
    List.idxOf_cons_self]
  exact Nat.lt_add_right 0 (List.idxOf_lt_length_of_mem hdone)

/-- There are no containers to be fitted. -/
theorem fit_alone (ids : List TaskId) : Workplan.fit Host.alone ids p = (.ok [], p) := by
  have hcontainers : p.containersOf ids = [] := by
    have hnone : ids.flatMap p.ancestors = [] :=
      List.flatMap_eq_nil_iff.mpr fun x _ => hflat.ancestors_eq_nil hp x
    rw [containersOf, hnone, List.eraseDups_nil, List.mergeSort_nil]
  have hread : Host.alone.read (fun p => p.containersOf ids) p = (.ok [], p) := by
    show (Except.ok (p.containersOf ids), p) = _
    rw [hcontainers]
  rw [Workplan.fit, Act.bind_of_ok hread]
  rfl

end Flat

end Project

end Workplan
