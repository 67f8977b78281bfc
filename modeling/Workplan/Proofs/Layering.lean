import Workplan.Proofs.Kahn
import Workplan.Proofs.Levels
import Workplan.Proofs.Names

/-!
# The network of a project and its layers

The network draws the project, and its layers are told by the longest paths.  They are found by
Kahn's algorithm, which works off the tasks from a queue.

- `Network.Draws`: the tasks are the nodes, and nesting and dependencies are the edges, each once.
- `Project.Sound.closed_network`: edges lead between tasks.
- `network_layering`: what is drawn, when there are layers, what they are, and that the algorithm
  finds them.
-/

namespace Workplan

variable {p : Project}

/-- The nodes are the tasks, oldest first.  Each task inside another has one edge to that, and each
dependency one edge to its dependant and an inherited one to each task inside its dependant. -/
structure Network.Draws (n : Network) (p : Project) : Prop where
  oldest_first : n.nodes.Pairwise fun x y => x.number < y.number
  mem_nodes : ∀ x, x ∈ n.nodes ↔ p.contains x
  edges_nodup : n.edges.Nodup
  mem_edges : ∀ e, e ∈ n.edges ↔
    (∃ child parent, p.parent? child = some parent ∧ e = ⟨.containment, child, parent⟩) ∨
    (∃ d ∈ p.dependencies, e = ⟨.waiting d.id false, d.dependee, d.dependant⟩) ∨
    (∃ d ∈ p.dependencies, ∃ x, p.Inside x d.dependant ∧
      e = ⟨.waiting d.id true, d.dependee, x⟩)

namespace Project

/-- The edges of the nesting, by the numbers of the tasks alone. -/
theorem containmentEdges_eq : p.containmentEdges =
    (p.tasks.map Task.id).filterMap fun id => (p.parent? id).map (.ofChild id) := by
  rw [containmentEdges, List.filterMap_map]
  rfl

namespace Sound

variable (hp : p.Sound)
include hp

/-- Containment edges lead from children to their parents. -/
theorem mem_containmentEdges {e : Edge} : e ∈ p.containmentEdges ↔
    ∃ child parent, p.parent? child = some parent ∧ e = ⟨.containment, child, parent⟩ := by
  rw [containmentEdges_eq, List.mem_filterMap]
  constructor
  · rintro ⟨child, -, hedge⟩
    obtain ⟨parent, hparent, rfl⟩ := Option.map_eq_some_iff.mp hedge
    exact ⟨child, parent, hparent, rfl⟩
  · rintro ⟨child, parent, hparent, rfl⟩
    exact ⟨child, (hp.mem_of_parent? hparent).1, by rw [hparent]; rfl⟩

/-- A dependency's edges lead to its dependant and, inherited, to all inside it. -/
theorem mem_dependencyEdges {d : Dependency} (hd : d ∈ p.dependencies) {e : Edge} :
    e ∈ p.dependencyEdges d ↔ e = ⟨.waiting d.id false, d.dependee, d.dependant⟩ ∨
      ∃ x, p.Inside x d.dependant ∧ e = ⟨.waiting d.id true, d.dependee, x⟩ := by
  have hroot := hp.ne_root (hp.dependant_mem d hd)
  have hself : Edge.ofDependency d d.dependant =
      ⟨.waiting d.id false, d.dependee, d.dependant⟩ := by
    simp [Edge.ofDependency]
  have hinner : ∀ x, p.Inside x d.dependant →
      Edge.ofDependency d x = ⟨.waiting d.id true, d.dependee, x⟩ := by
    intro x hx
    have hne : x ≠ d.dependant := fun e => hp.acyclic x (e ▸ hx)
    simp [Edge.ofDependency, hne]
  rw [dependencyEdges, List.map_cons, List.mem_cons, hself, List.mem_map]
  refine or_congr_right ⟨?_, ?_⟩
  · rintro ⟨x, hx, rfl⟩
    have hin := (hp.mem_descendants hroot).mp hx
    exact ⟨x, hin, hinner x hin⟩
  · rintro ⟨x, hin, rfl⟩
    exact ⟨x, (hp.mem_descendants hroot).mpr hin, hinner x hin⟩

/-- No edge is drawn twice: two edges differ in their dependency, its inheritance or an end. -/
theorem edges_nodup : p.network.edges.Nodup := by
  have hnesting : p.containmentEdges.Nodup := by
    rw [containmentEdges_eq]
    refine hp.ids_nodup.filterMap fun x y e hx hy => ?_
    obtain ⟨parent, -, rfl⟩ := Option.map_eq_some_iff.mp hx
    obtain ⟨parent', -, heq⟩ := Option.map_eq_some_iff.mp hy
    exact (congrArg Edge.source heq).symm
  have hone : ∀ d ∈ p.dependencies, (p.dependencyEdges d).Nodup := by
    intro d hd
    have hroot := hp.ne_root (hp.dependant_mem d hd)
    have htargets : (d.dependant :: p.descendants d.dependant).Nodup := by
      refine List.nodup_cons.mpr ⟨fun hmem => ?_, hp.descendants_nodup d.dependant⟩
      exact hp.acyclic _ ((hp.mem_descendants hroot).mp hmem)
    exact htargets.map fun x y heq => congrArg Edge.target heq
  have hapart : p.dependencies.Pairwise fun d d' =>
      (p.dependencyEdges d).Disjoint (p.dependencyEdges d') := by
    refine (List.pairwise_map.mp hp.dependencies_nodup).imp fun {d d'} hne e he he' => ?_
    obtain ⟨x, -, rfl⟩ := List.mem_map.mp he
    obtain ⟨y, -, heq⟩ := List.mem_map.mp he'
    exact hne (EdgeKind.waiting.inj (congrArg Edge.kind heq.symm)).1
  refine hnesting.append (List.nodup_flatMap.mpr ⟨hone, hapart⟩) fun e he he' => ?_
  obtain ⟨child, parent, -, rfl⟩ := hp.mem_containmentEdges.mp he
  obtain ⟨d, -, he'⟩ := List.mem_flatMap.mp he'
  obtain ⟨x, -, heq⟩ := List.mem_map.mp he'
  exact EdgeKind.noConfusion (congrArg Edge.kind heq)

/-- The edges of a network are its containment edges and the edges of its dependencies. -/
theorem mem_edges {e : Edge} : e ∈ p.network.edges ↔
    (∃ child parent, p.parent? child = some parent ∧ e = ⟨.containment, child, parent⟩) ∨
    (∃ d ∈ p.dependencies, e = ⟨.waiting d.id false, d.dependee, d.dependant⟩) ∨
    (∃ d ∈ p.dependencies, ∃ x, p.Inside x d.dependant ∧
      e = ⟨.waiting d.id true, d.dependee, x⟩) := by
  rw [network, List.mem_append, hp.mem_containmentEdges, List.mem_flatMap]
  refine or_congr_right ⟨?_, ?_⟩
  · rintro ⟨d, hd, he⟩
    exact ((hp.mem_dependencyEdges hd).mp he).imp (fun h => ⟨d, hd, h⟩) fun h => ⟨d, hd, h⟩
  · rintro (⟨d, hd, h⟩ | ⟨d, hd, h⟩)
    · exact ⟨d, hd, (hp.mem_dependencyEdges hd).mpr (.inl h)⟩
    · exact ⟨d, hd, (hp.mem_dependencyEdges hd).mpr (.inr h)⟩

/-- Edges lead between tasks. -/
theorem closed_network : p.network.Closed := by
  intro e he
  rcases hp.mem_edges.mp he with ⟨child, parent, hparent, rfl⟩ | ⟨d, hd, rfl⟩ | ⟨d, hd, x, hx, rfl⟩
  · exact hp.mem_of_parent? hparent
  · exact ⟨hp.dependee_mem d hd, hp.dependant_mem d hd⟩
  · exact ⟨hp.dependee_mem d hd, (hp.mem_of_inside hx).1⟩

/-- The network of an orderly project draws exactly what the project says. -/
theorem draws_network (ho : p.Orderly) : p.network.Draws p where
  oldest_first := ho.ascending
  mem_nodes x := by
    rw [contains_iff]
    exact List.mem_map
  edges_nodup := hp.edges_nodup
  mem_edges _ := hp.mem_edges

end Sound

end Project

/-- **The network draws the project, and its layers are the longest paths.**  There are layers
exactly if the edges do not lead around a cycle; otherwise the tasks on a cycle and behind one are
named, oldest first.  All this is what Kahn's algorithm finds: the graph that it builds has the same
nodes and edges, and it assigns the same layers or names the same tasks. -/
theorem network_layering (hp : p.Reachable) :
    p.network.graph.Sorted p.network ∧
    p.network.Draws p ∧
    ((∃ layers, p.network.layers = .ok layers) ↔ p.network.Acyclic) ∧
    (∀ layers, p.network.layers = .ok layers → p.network.Layered layers) ∧
    (∀ cycle, p.network.layers = .error cycle →
      cycle.tasks.Sublist p.network.nodes ∧ ∀ x, x ∈ cycle.tasks ↔ p.network.Behind x) := by
  have hclosed := hp.sound.closed_network
  have hnodup : p.network.nodes.Nodup := hp.sound.ids_nodup
  refine ⟨Network.sorted_graph hclosed hnodup, hp.sound.draws_network hp.orderly,
    Network.exists_layers_iff hclosed, ?_, ?_⟩
  · exact fun layers h => Network.layered hclosed hnodup h
  · exact fun cycle h => Network.cycle_of_layers hclosed h

/-- A roof that a house waits for, and that is then taken into the house. -/
def loopPlan : Project :=
  (Project.empty .standard).after [
    .addTask "roof" (Day.first.advance 4) (.days 2),
    .addTask "house" (Day.first.advance 4) (.days 5),
    .addTask "survey" (Day.first.advance 4) (.days 1),
    .addDependency ⟨1⟩ ⟨2⟩ .finishStart .strong 0,
    .addDependency ⟨3⟩ ⟨1⟩ .finishStart .strong 0,
    .place ⟨1⟩ ⟨2⟩]

/-- In one plan the house comes last; in the other the roof waits for itself, and the house for
the roof. -/
theorem network_layering_plans :
    Project.housePlan.network.Layered [[⟨1⟩], [⟨2⟩, ⟨4⟩], [⟨3⟩]] ∧
      Project.housePlan.network.graph.layerCount = .ok 3 ∧
      ¬ loopPlan.network.Acyclic ∧
      (∀ x, loopPlan.network.Behind x ↔ x ∈ [(⟨1⟩ : TaskId), ⟨2⟩]) ∧
      loopPlan.network.graph.layerCount = .error ⟨[⟨1⟩, ⟨2⟩]⟩ := by
  have hloop : loopPlan.Reachable := (Project.Reachable.empty _).after _
  obtain ⟨hsorted, -, -, hlayered, -⟩ := network_layering Project.reachable_housePlan
  obtain ⟨hsorted', -, hiff, -, hcycle⟩ := network_layering hloop
  have hlayers : Project.housePlan.network.layers = .ok [[⟨1⟩], [⟨2⟩, ⟨4⟩], [⟨3⟩]] := by
    decide +kernel
  have hstuck : loopPlan.network.layers = .error ⟨[⟨1⟩, ⟨2⟩]⟩ := by decide +kernel
  refine ⟨hlayered _ hlayers, ?_, fun hacyclic => ?_, fun x => ?_, ?_⟩
  · rw [hsorted.layerCount, hlayers]
    rfl
  · obtain ⟨layers, h⟩ := hiff.mpr hacyclic
    rw [hstuck] at h
    cases h
  · exact ((hcycle _ hstuck).2 x).symm
  · rw [hsorted'.layerCount, hstuck]
    rfl

end Workplan
