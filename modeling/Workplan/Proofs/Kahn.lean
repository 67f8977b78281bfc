import Workplan.Network.Kahn
import Workplan.Proofs.Longest

/-!
# The queue finds the layers

Kahn's algorithm and the rounds come to the same layers, and are stopped by the same tasks.

- `Graph.Builds`: a graph has the nodes and edges of a network; `Network.builds_unlayered`.
- `Graph.Underway`: what holds at every moment of the loop.
- `Graph.Underway.tell`, `Graph.Underway.visit`, `Graph.Underway.sort`: every step keeps it.
- `Graph.Underway.isGreatest`, `Graph.Underway.behind_iff`: what it says when the queue is empty.
- `Network.sorted_graph`: the graph of a network has its layers.
-/

namespace Workplan

variable {n : Network} {g : Graph} {x y : TaskId} {e : Edge} {i j k : Nat}

namespace Graph

/-! ## Building -/

/-- The graph has the nodes and edges of a network, and no layers yet. -/
structure Builds (g : Graph) (n : Network) : Prop where
  nodes : g.nodes.map GraphNode.task = n.nodes
  index : ∀ (x : TaskId) (i : Nat), g.index x = some i ↔ n.nodes[i]? = some x
  edges : g.edges = n.edges
  incoming : ∀ (i : Nat) (node : GraphNode), g.nodes[i]? = some node →
    node.incoming = n.incomingPositions node.task
  layer? : g.layer? = fun _ => none
  layers : g.layers = []
  cycle? : g.cycle? = none

theorem builds_empty : Graph.empty.Builds ⟨[], []⟩ where
  nodes := rfl
  index x i := by simp [Graph.empty]
  edges := rfl
  incoming i node h := by simp [Graph.empty] at h
  layer? := rfl
  layers := rfl
  cycle? := rfl

/-- One more edge adds its own position to the row of its target and to no other. -/
theorem incomingPositions_concat (tasks : List TaskId) (edges : List Edge) (e : Edge)
    (x : TaskId) : (⟨tasks, edges ++ [e]⟩ : Network).incomingPositions x =
      (⟨tasks, edges⟩ : Network).incomingPositions x ++
        if e.target = x then [edges.length] else [] := by
  simp only [Network.incomingPositions, List.zipIdx_append, List.filter_append, List.map_append,
    Nat.zero_add]
  split
  · next h => simp [h]
  · next h => simp [h]

namespace Builds

variable {tasks : List TaskId} {edges : List Edge}

theorem length_nodes (h : g.Builds n) : g.nodes.length = n.nodes.length := by
  rw [← h.nodes, List.length_map]

theorem task_of (h : g.Builds n) {node : GraphNode} (hnode : g.nodes[i]? = some node) :
    n.nodes[i]? = some node.task := by
  rw [← h.nodes, List.getElem?_map, hnode]
  rfl

/-- A new node gets empty rows and the next position. -/
theorem addNode (h : g.Builds ⟨tasks, []⟩) (hx : x ∉ tasks) :
    (g.addNode x).Builds ⟨tasks ++ [x], []⟩ where
  nodes := by rw [Graph.addNode, List.map_append, h.nodes, List.map_singleton]
  index y i := by
    have hindex : (g.addNode x).index y = if y = x then some tasks.length else g.index y := by
      rw [Graph.addNode, h.length_nodes]
      exact Function.update_apply g.index x (some tasks.length) y
    -- a position is one of the old ones or the next, and a key is an old one or the new
    have hold := h.index y i
    dsimp only at hold ⊢
    rw [hindex, List.getElem?_append, List.getElem?_singleton]
    split
    · next heq =>
      have hfresh : tasks[i]? ≠ some y := fun hi => hx (heq ▸ List.mem_of_getElem? hi)
      rw [Option.some_inj]
      split
      · exact iff_of_false (by omega) hfresh
      · split
        · exact iff_of_true (by omega) (by rw [heq])
        · exact iff_of_false (by omega) nofun
    · next hne =>
      rw [hold]
      split
      · rfl
      · next hge =>
        rw [List.getElem?_eq_none (not_lt.mp hge)]
        split
        · simp [Ne.symm hne]
        · rfl
  edges := h.edges
  incoming i node hnode := by
    rw [Graph.addNode, List.getElem?_append] at hnode
    split at hnode
    · exact h.incoming i node hnode
    · rw [List.mem_singleton.mp (List.mem_of_getElem? hnode)]
      rfl
  layer? := h.layer?
  layers := h.layers
  cycle? := h.cycle?

/-- An edge between two of the tasks is added. -/
theorem addEdge (h : g.Builds ⟨tasks, edges⟩) (hsource : e.source ∈ tasks)
    (htarget : e.target ∈ tasks) : (g.addEdge e).Builds ⟨tasks, edges ++ [e]⟩ := by
  obtain ⟨j, hj⟩ := List.mem_iff_getElem?.mp hsource
  obtain ⟨i, hi⟩ := List.mem_iff_getElem?.mp htarget
  have hadd : g.addEdge e = { g with
      edges := g.edges ++ [e]
      nodes := g.nodes.modify i fun node =>
        { node with incoming := node.incoming ++ [g.edges.length] } } := by
    rw [Graph.addEdge, (h.index e.source j).mpr hj, (h.index e.target i).mpr hi]
    rfl
  have hnode : ∀ l node, (g.addEdge e).nodes[l]? = some node → ∃ old, g.nodes[l]? = some old ∧
      node = if i = l then { old with incoming := old.incoming ++ [g.edges.length] } else old := by
    intro l node hnode
    rw [hadd, List.getElem?_modify] at hnode
    obtain ⟨old, hold, rfl⟩ := Option.map_eq_some_iff.mp hnode
    exact ⟨old, hold, rfl⟩
  constructor
  · refine Eq.trans ?_ h.nodes
    refine List.ext_getElem? fun l => ?_
    rw [hadd, List.getElem?_map, List.getElem?_map, List.getElem?_modify]
    cases g.nodes[l]? with
    | none => rfl
    | some node =>
      refine congrArg some ?_
      dsimp only
      split <;> rfl
  · rw [hadd]
    exact h.index
  · rw [hadd]
    exact congrArg (· ++ [e]) h.edges
  · intro l node hl
    obtain ⟨old, hold, rfl⟩ := hnode l node hl
    have hincoming := h.incoming l old hold
    have htask := h.task_of hold
    rw [incomingPositions_concat]
    split
    · next heq =>
      -- the node that the edge leads into
      have hself : e.target = old.task := by
        rw [← heq] at htask
        exact Option.some.inj (hi.symm.trans htask)
      rw [if_pos hself, hincoming, h.edges]
    · next hne =>
      have hother : e.target ≠ old.task := by
        intro heq
        have := (h.index e.target i).mpr hi
        rw [(h.index e.target l).mpr (heq ▸ htask)] at this
        exact hne (Option.some.inj this).symm
      rw [if_neg hother, List.append_nil]
      exact hincoming
  · rw [hadd]
    exact h.layer?
  · rw [hadd]
    exact h.layers
  · rw [hadd]
    exact h.cycle?

end Builds

end Graph

/-- **The graph of a network has its nodes and its edges**: no edge between its tasks is dropped. -/
theorem Network.builds_unlayered (hclosed : n.Closed) (hnodup : n.nodes.Nodup) :
    n.unlayered.Builds n := by
  have hnodes : ∀ (todo tasks : List TaskId) (g : Graph), g.Builds ⟨tasks, []⟩ →
      (tasks ++ todo).Nodup → (todo.foldl Graph.addNode g).Builds ⟨tasks ++ todo, []⟩ := by
    intro todo
    induction todo with
    | nil =>
      intro tasks g hg _
      rwa [List.append_nil]
    | cons x todo ih =>
      intro tasks g hg hnodup
      rw [List.append_cons] at hnodup ⊢
      have hx : x ∉ tasks := fun hx =>
        (List.nodup_append.mp (List.nodup_append.mp hnodup).1).2.2 x hx x
          (List.mem_singleton_self x) rfl
      exact ih (tasks ++ [x]) _ (hg.addNode hx) hnodup
  -- no edge is dropped, since both of its ends have been indexed before
  have hedges : ∀ (todo edges : List Edge) (g : Graph), g.Builds ⟨n.nodes, edges⟩ →
      (∀ e ∈ todo, e.source ∈ n.nodes ∧ e.target ∈ n.nodes) →
      (todo.foldl Graph.addEdge g).Builds ⟨n.nodes, edges ++ todo⟩ := by
    intro todo
    induction todo with
    | nil =>
      intro edges g hg _
      rwa [List.append_nil]
    | cons e todo ih =>
      intro edges g hg hends
      obtain ⟨hsource, htarget⟩ := hends e List.mem_cons_self
      have := ih (edges ++ [e]) _ (hg.addEdge hsource htarget)
        fun e he => hends e (List.mem_cons_of_mem _ he)
      rwa [List.append_assoc] at this
  exact hedges n.edges [] _ (hnodes n.nodes [] _ Graph.builds_empty hnodup) hclosed


namespace Graph

/-! ## Edges by position -/

namespace Builds

variable (h : g.Builds n)
include h

/-- An edge's position stands in the row of its target, parallel edges each with their own. -/
theorem mem_incoming_iff {node : GraphNode} (hnode : g.nodes[i]? = some node) :
    k ∈ node.incoming ↔ ∃ e, n.edges[k]? = some e ∧ e.target = node.task := by
  rw [h.incoming i node hnode, Network.incomingPositions, List.mem_map]
  constructor
  · rintro ⟨⟨e, l⟩, hmem, rfl⟩
    obtain ⟨hmem, htarget⟩ := List.mem_filter.mp hmem
    exact ⟨e, List.mem_zipIdx_iff_getElem?.mp hmem, of_decide_eq_true htarget⟩
  · rintro ⟨e, hk, htarget⟩
    exact ⟨(e, k), List.mem_filter.mpr ⟨List.mem_zipIdx_iff_getElem?.mpr hk,
      decide_eq_true htarget⟩, rfl⟩

/-- The ends of an edge are the positions of its source and of its target. -/
theorem arc?_eq_some_iff : g.arc? k = some (j, i) ↔
    ∃ e, n.edges[k]? = some e ∧ n.nodes[j]? = some e.source ∧ n.nodes[i]? = some e.target := by
  simp only [arc?, h.edges, Option.bind_eq_bind, Option.pure_def, Option.bind_eq_some_iff,
    Option.some_inj, Prod.mk.injEq, h.index]
  constructor
  · rintro ⟨e, he, j', hj, i', hi, rfl, rfl⟩
    exact ⟨e, he, hj, hi⟩
  · rintro ⟨e, he, hj, hi⟩
    exact ⟨e, he, j, hj, i, hi, rfl, rfl⟩

/-- The edges into a node lead into its position. -/
theorem arc?_of_incoming (hclosed : n.Closed) {node : GraphNode} (hnode : g.nodes[i]? = some node)
    (hk : k ∈ node.incoming) : ∃ j, g.arc? k = some (j, i) := by
  obtain ⟨e, he, htarget⟩ := (h.mem_incoming_iff hnode).mp hk
  obtain ⟨j, hj⟩ := List.mem_iff_getElem?.mp (hclosed e (List.mem_of_getElem? he)).1
  exact ⟨j, h.arc?_eq_some_iff.mpr ⟨e, he, hj, htarget ▸ h.task_of hnode⟩⟩

/-- Positions are joined by an arc when their tasks are joined by an edge. -/
theorem mem_arcs_iff : (j, i) ∈ g.arcs ↔
    ∃ x y, n.nodes[j]? = some x ∧ n.nodes[i]? = some y ∧ n.Leads x y := by
  simp only [arcs, List.mem_flatMap, List.mem_filterMap]
  constructor
  · rintro ⟨node, -, k, -, harc⟩
    obtain ⟨e, he, hj, hi⟩ := h.arc?_eq_some_iff.mp harc
    exact ⟨e.source, e.target, hj, hi, e, List.mem_of_getElem? he, rfl, rfl⟩
  · rintro ⟨x, y, hj, hi, e, he, rfl, rfl⟩
    obtain ⟨k, hk⟩ := List.mem_iff_getElem?.mp he
    rw [← h.nodes, List.getElem?_map] at hi
    obtain ⟨node, hnode, htask⟩ := Option.map_eq_some_iff.mp hi
    refine ⟨node, List.mem_of_getElem? hnode, k,
      (h.mem_incoming_iff hnode).mpr ⟨e, hk, htask.symm⟩, ?_⟩
    refine h.arc?_eq_some_iff.mpr ⟨e, hk, hj, ?_⟩
    rw [← htask]
    exact h.task_of hnode

end Builds

/-- Where the pairs made of each member of a list lead to its position, those that lead to a
position are as many as are made of the member there. -/
theorem countP_flatMap_of_targets {α : Type} (f : α → List (Nat × Nat)) (l : List α) (m i : Nat)
    (h : ∀ (k : Nat) (a : α), l[k]? = some a → ∀ arc ∈ f a, arc.2 = m + k) :
    (l.flatMap f).countP (fun arc => arc.2 = m + i) = (l[i]?).elim 0 fun a => (f a).length := by
  induction l generalizing m i with
  | nil => rfl
  | cons a l ih =>
    have hhead : ∀ arc ∈ f a, arc.2 = m := h 0 a rfl
    have htail : ∀ (k : Nat) (b : α), l[k]? = some b → ∀ arc ∈ f b, arc.2 = (m + 1) + k := by
      intro k b hb arc harc
      have := h (k + 1) b hb arc harc
      omega
    rw [List.flatMap_cons, List.countP_append]
    -- arcs made of the head lead to `m`, all others to positions after it
    cases i with
    | zero =>
      have hall : (f a).countP (fun arc => arc.2 = m + 0) = (f a).length :=
        List.countP_eq_length.mpr fun arc harc => decide_eq_true (hhead arc harc)
      have hnone : (l.flatMap f).countP (fun arc => arc.2 = m + 0) = 0 := by
        refine List.countP_eq_zero.mpr fun arc harc => ?_
        obtain ⟨b, hb, harc⟩ := List.mem_flatMap.mp harc
        obtain ⟨k, hk⟩ := List.mem_iff_getElem?.mp hb
        have := htail k b hk arc harc
        simp only [decide_eq_true_eq]
        omega
      rw [hall, hnone]
      rfl
    | succ i =>
      have hnone : (f a).countP (fun arc => arc.2 = m + (i + 1)) = 0 := by
        refine List.countP_eq_zero.mpr fun arc harc => ?_
        have := hhead arc harc
        simp only [decide_eq_true_eq]
        omega
      have := ih (m + 1) i htail
      rw [Nat.add_assoc, Nat.add_comm 1 i] at this
      rw [hnone, this, Nat.zero_add]
      rfl

/-- **The in-degree of a node counts the edges into it**, those with the same ends as well. -/
theorem Builds.inDegree_eq (h : g.Builds n) (hclosed : n.Closed) (i : Nat) :
    g.inDegree i = g.arcs.countP fun arc => arc.2 = i := by
  have htargets : ∀ (k : Nat) (node : GraphNode), g.nodes[k]? = some node →
      ∀ arc ∈ node.incoming.filterMap g.arc?, arc.2 = 0 + k := by
    intro k node hnode arc harc
    obtain ⟨l, hl, harc⟩ := List.mem_filterMap.mp harc
    obtain ⟨j, hj⟩ := h.arc?_of_incoming hclosed hnode hl
    rw [hj] at harc
    rw [← Option.some.inj harc, Nat.zero_add]
  have hcount := countP_flatMap_of_targets _ g.nodes 0 i htargets
  rw [Nat.zero_add] at hcount
  rw [arcs, hcount, inDegree]
  rcases hnode : g.nodes[i]? with _ | node
  · rfl
  · refine (List.filterMap_length_eq_length.mpr fun k hk => ?_).symm
    obtain ⟨j, hj⟩ := h.arc?_of_incoming hclosed hnode hk
    rw [hj]
    rfl

/-! ## The loop -/

/-- What holds at every moment of the loop.  The nodes `done` are processed; the last of them is
`current`, of which the nodes `owed` have still to be told, one entry for each edge. -/
structure Underway (n : Network) (g : Graph) (current : Nat) (done owed : List Nat)
    (s : Sorting) : Prop where
  nodup : (done ++ s.queue).Nodup
  -- no edge from an unprocessed node leads into what is processed or enqueued
  settled : ∀ i, i ∈ done ++ s.queue ↔ i < n.nodes.length ∧ s.inDegree i = 0
  degree : ∀ i, s.inDegree i =
    (g.arcs.countP fun arc => arc.2 = i ∧ arc.1 ∉ done) + owed.count i
  -- layers are lengths of paths, and an edge from a processed node leads to a later one
  path : ∀ i k, s.layer? i = some k → ∃ x, n.nodes[i]? = some x ∧ n.Path k x
  dated : ∀ i ∈ done ++ s.queue, (s.layer? i).isSome
  later : ∀ j ∈ done, ∀ i, (j, i) ∈ g.arcs → (j = current ∧ i ∈ owed) ∨
    ∃ k l, s.layer? j = some k ∧ s.layer? i = some l ∧ k < l
  processed : s.processed = done.length

/-- Before the loop nothing is processed. -/
theorem underway_start (h : g.Builds n) (hclosed : n.Closed) (current : Nat) :
    Underway n g current [] [] g.start := by
  -- the loop starts from the nodes that no edge enters, all of them on layer zero
  have hqueue : ∀ i, i ∈ g.start.queue ↔ i < n.nodes.length ∧ g.inDegree i = 0 := by
    intro i
    rw [start, List.mem_filter, List.mem_range, h.length_nodes, decide_eq_true_eq]
  have hlayer : ∀ i, g.start.layer? i = if i ∈ g.start.queue then some 0 else none := by
    intro i
    rw [start, h.layer?]
  constructor
  · exact List.nodup_range.filter _
  · exact hqueue
  · intro i
    show g.inDegree i = _
    simp [h.inDegree_eq hclosed]
  · intro i k hk
    rw [hlayer] at hk
    split at hk
    · next hi =>
      cases hk
      have hx := List.getElem?_eq_getElem ((hqueue i).mp hi).1
      exact ⟨_, hx, .start (List.mem_of_getElem? hx)⟩
    · cases hk
  · intro i hi
    rw [List.nil_append] at hi
    rw [hlayer, if_pos hi]
    rfl
  · exact fun j hj => absurd hj List.not_mem_nil
  · rfl

namespace Underway

variable {s : Sorting} {current next layer : Nat} {done owed rest : List Nat}

/-- A node that is still owed is neither processed nor enqueued. -/
theorem notMem_of_owed (h : Underway n g current done (next :: owed) s) :
    0 < s.inDegree next ∧ next ∉ done ++ s.queue := by
  have hdegree : 0 < s.inDegree next := by
    rw [h.degree, List.count_cons_self]
    omega
  exact ⟨hdegree, fun hmem => absurd ((h.settled next).mp hmem).2 hdegree.ne'⟩

/-- One node is told. -/
theorem tell (h : Underway n g current done (next :: owed) s) (hg : g.Builds n)
    (hcurrent : current ∈ done) (hlayer : s.layer? current = some layer)
    (harc : (current, next) ∈ g.arcs) : Underway n g current done owed (s.tell layer next) := by
  obtain ⟨hdegree, hnew⟩ := h.notMem_of_owed
  obtain ⟨x, y, hx, hy, hlead⟩ := hg.mem_arcs_iff.mp harc
  have hdegrees : ∀ i, (s.tell layer next).inDegree i =
      if i = next then s.inDegree next - 1 else s.inDegree i := fun i =>
    Function.update_apply s.inDegree next (s.inDegree next - 1) i
  have hlayers : ∀ i, (s.tell layer next).layer? i = if i = next then
      some ((s.layer? next).elim (layer + 1) fun old => max old (layer + 1)) else s.layer? i :=
    fun i => Function.update_apply s.layer? next _ i
  have hqueue : (s.tell layer next).queue =
      if s.inDegree next - 1 = 0 then s.queue ++ [next] else s.queue := rfl
  have hmem : ∀ i, i ∈ done ++ (s.tell layer next).queue ↔
      i ∈ done ++ s.queue ∨ (i = next ∧ s.inDegree next - 1 = 0) := by
    intro i
    rw [hqueue]
    split
    · next hlast => simp [hlast, or_assoc]
    · next hmore => simp [hmore]
  constructor
  · rw [hqueue]
    split
    · rw [← List.append_assoc]
      exact h.nodup.append (List.nodup_singleton next) (List.disjoint_singleton.mpr hnew)
    · exact h.nodup
  · intro i
    rw [hmem, h.settled, hdegrees]
    split
    · next heq =>
      subst heq
      have hlt := (List.getElem?_eq_some_iff.mp hy).1
      simp only [hdegree.ne', and_false, false_or, true_and, hlt]
    · next hne => simp only [hne, false_and, or_false]
  · intro i
    have hi := h.degree i
    rw [hdegrees]
    split
    · next heq =>
      rw [heq, List.count_cons_self] at hi
      rw [heq]
      omega
    · next hne =>
      rwa [List.count_cons_of_ne (Ne.symm hne)] at hi
  · intro i k hk
    rw [hlayers] at hk
    split at hk
    · next heq =>
      subst heq
      refine ⟨y, hy, ?_⟩
      -- a longest path goes over the edge that is told, or over one told before
      obtain ⟨x', hx', hpath⟩ := h.path current layer hlayer
      obtain rfl : x = x' := Option.some.inj (hx.symm.trans hx')
      rw [← Option.some.inj hk]
      rcases hold : s.layer? i with _ | old
      · exact hpath.step hlead
      · obtain ⟨y', hy', hpath'⟩ := h.path i old hold
        obtain rfl : y = y' := Option.some.inj (hy.symm.trans hy')
        rcases max_choice old (layer + 1) with hmax | hmax
        · rw [Option.elim_some, hmax]
          exact hpath'
        · rw [Option.elim_some, hmax]
          exact hpath.step hlead
    · exact h.path i k hk
  · intro i hi
    rw [hlayers]
    split
    · rfl
    · next hne => exact h.dated i (((hmem i).mp hi).resolve_right fun heq => hne heq.1)
  · intro j hj i hji
    have hjn : j ≠ next := fun heq => hnew (List.mem_append_left _ (heq ▸ hj))
    rw [hlayers j, if_neg hjn, hlayers i]
    rcases h.later j hj i hji with ⟨rfl, howed⟩ | ⟨k, l, hk, hl, hlt⟩
    · rcases List.mem_cons.mp howed with rfl | howed
      · refine .inr ⟨layer, _, hlayer, if_pos rfl, ?_⟩
        rcases s.layer? i with _ | old
        · exact Nat.lt_succ_self layer
        · exact lt_of_lt_of_le (Nat.lt_succ_self layer) (le_max_right old (layer + 1))
      · exact .inl ⟨rfl, howed⟩
    · split
      · next heq =>
        rw [heq] at hl
        rw [hl]
        exact .inr ⟨k, _, hk, rfl, lt_of_lt_of_le hlt (le_max_left l (layer + 1))⟩
      · exact .inr ⟨k, l, hk, hl, hlt⟩
  · exact h.processed

/-- All nodes that are owed are told, one after the other. -/
theorem tellAll (h : Underway n g current done owed s) (hg : g.Builds n)
    (hcurrent : current ∈ done) (hlayer : s.layer? current = some layer)
    (harcs : ∀ i ∈ owed, (current, i) ∈ g.arcs) :
    Underway n g current done [] (owed.foldl (Sorting.tell layer) s) := by
  induction owed generalizing s with
  | nil => exact h
  | cons next owed ih =>
    have hne : current ≠ next := fun heq =>
      h.notMem_of_owed.2 (List.mem_append_left _ (heq ▸ hcurrent))
    refine ih (h.tell hg hcurrent hlayer (harcs next List.mem_cons_self)) ?_
      fun i hi => harcs i (List.mem_cons_of_mem next hi)
    rw [← hlayer]
    exact Function.update_of_ne hne _ s.layer?

/-- The positions that a node's row leads to are those its arcs lead to. -/
theorem mem_outgoing : i ∈ g.outgoing j ↔ (j, i) ∈ g.arcs := by
  rw [outgoing, List.mem_map]
  constructor
  · rintro ⟨⟨j', i⟩, hmem, rfl⟩
    obtain ⟨hmem, hsource⟩ := List.mem_filter.mp hmem
    exact of_decide_eq_true hsource ▸ hmem
  · exact fun hmem => ⟨(j, i), List.mem_filter.mpr ⟨hmem, decide_eq_true rfl⟩, rfl⟩

/-- Among the edges into a node, those from one more processed node are no longer counted. -/
theorem countP_arcs (hnew : current ∉ done) (i : Nat) :
    (g.arcs.countP fun arc => arc.2 = i ∧ arc.1 ∉ done) =
      (g.arcs.countP fun arc => arc.2 = i ∧ arc.1 ∉ current :: done) +
        (g.outgoing current).count i := by
  rw [outgoing]
  induction g.arcs with
  | nil => rfl
  | cons arc arcs ih =>
    rw [List.countP_cons, List.countP_cons, ih, List.filter_cons]
    by_cases hsource : arc.1 = current
    · by_cases htarget : arc.2 = i
      · simp [hsource, htarget, hnew]
        omega
      · simp [hsource, htarget]
    · by_cases htarget : arc.2 = i
      · simp [hsource, htarget]
        omega
      · simp [hsource, htarget]

/-- **A node is taken from the queue and processed.** -/
theorem visit {before : Nat} (h : Underway n g before done [] s) (hg : g.Builds n)
    (hqueue : s.queue = current :: rest) :
    Underway n g current (current :: done) [] (g.visit { s with queue := rest } current) := by
  have hperm : (current :: done ++ rest).Perm (done ++ s.queue) := by
    rw [hqueue]
    exact List.perm_middle.symm
  have hnodup := hperm.nodup_iff.mpr h.nodup
  have hnew : current ∉ done := fun hmem =>
    (List.nodup_cons.mp hnodup).1 (List.mem_append_left rest hmem)
  have hwaiting : current ∈ done ++ s.queue := hperm.subset List.mem_cons_self
  obtain ⟨layer, hlayer⟩ := Option.isSome_iff_exists.mp (h.dated current hwaiting)
  -- taken off the queue, the node owes every node it leads to one decrement
  have howing : Underway n g current (current :: done) (g.outgoing current)
      { s with queue := rest, processed := s.processed + 1 } := by
    constructor
    · exact hnodup
    · exact fun i => hperm.mem_iff.trans (h.settled i)
    · intro i
      have := h.degree i
      rwa [List.count_nil, Nat.add_zero, countP_arcs hnew] at this
    · exact h.path
    · exact fun i hi => h.dated i (hperm.subset hi)
    · intro j hj i hji
      rcases List.mem_cons.mp hj with rfl | hj
      · exact .inl ⟨rfl, mem_outgoing.mpr hji⟩
      · exact .inr ((h.later j hj i hji).resolve_left fun howed => List.not_mem_nil howed.2)
    · exact congrArg (· + 1) h.processed
  have htold := howing.tellAll hg List.mem_cons_self hlayer fun i hi => mem_outgoing.mp hi
  rw [Graph.visit]
  dsimp only
  rw [hlayer]
  exact htold

/-- **The loop keeps what holds**, and stops at the empty queue or after `k` nodes. -/
theorem sort (h : Underway n g current done [] s) (hg : g.Builds n) (k : Nat) :
    ∃ current' done', Underway n g current' done' [] (g.sort k s) ∧
      ((g.sort k s).queue = [] ∨ done'.length = done.length + k) := by
  induction k generalizing current done s with
  | zero => exact ⟨current, done, h, .inr rfl⟩
  | succ k ih =>
    rw [Graph.sort]
    split
    · next hqueue => exact ⟨current, done, h, .inl hqueue⟩
    · next first rest hqueue =>
      obtain ⟨current', done', hafter, hstop⟩ := ih (h.visit hg hqueue)
      refine ⟨current', done', hafter, hstop.imp_right fun hlength => ?_⟩
      rw [hlength, List.length_cons]
      omega

/-- There are not more nodes than can be processed. -/
theorem length_le (h : Underway n g current done owed s) :
    (done ++ s.queue).length ≤ n.nodes.length := by
  have hsub : done ++ s.queue ⊆ List.range n.nodes.length :=
    fun i hi => List.mem_range.mpr ((h.settled i).mp hi).1
  have := (h.nodup.subperm hsub).length_le
  rwa [List.length_range] at this

end Underway

/-- **The loop ends by itself**: the queue is empty when as many nodes are processed as there are at
most. -/
theorem exists_underway_sort (hg : g.Builds n) (hclosed : n.Closed) :
    ∃ current done, Underway n g current done [] (g.sort g.nodes.length g.start) ∧
      (g.sort g.nodes.length g.start).queue = [] := by
  obtain ⟨current, done, h, hstop⟩ := (underway_start hg hclosed 0).sort hg g.nodes.length
  refine ⟨current, done, h, hstop.elim id fun hlength => ?_⟩
  have hle := h.length_le
  rw [List.length_nil, Nat.zero_add, hg.length_nodes] at hlength
  rw [List.length_append, hlength] at hle
  exact List.eq_nil_of_length_eq_zero (by omega)

/-! ## When the queue is empty -/

namespace Underway

variable {s : Sorting} {current : Nat} {done : List Nat}

section

variable (h : Underway n g current done [] s) (hempty : s.queue = [])
include h hempty

/-- When the queue runs out, the nodes processed are those whose in-degree has come down to
zero. -/
theorem mem_done_iff : i ∈ done ↔ i < n.nodes.length ∧ s.inDegree i = 0 := by
  have := h.settled i
  rwa [hempty, List.append_nil] at this

/-- With a node, all that lead to it are processed. -/
theorem mem_done_of_arc (hi : i ∈ done) (harc : (j, i) ∈ g.arcs) : j ∈ done := by
  have hdegree := h.degree i
  rw [((h.mem_done_iff hempty).mp hi).2, List.count_nil, Nat.add_zero] at hdegree
  by_contra hj
  exact List.countP_eq_zero.mp hdegree.symm (j, i) harc (decide_eq_true ⟨rfl, hj⟩)

variable (hg : g.Builds n) (hclosed : n.Closed)
include hg hclosed

/-- No path to a processed node is longer than its layer. -/
theorem le_layer_of_path {m : Nat} (hpath : n.Path m x) (hx : n.nodes[i]? = some x)
    (hi : i ∈ done) : ∃ k, s.layer? i = some k ∧ m ≤ k := by
  induction hpath generalizing i with
  | start =>
    have hdated := h.dated i (List.mem_append_left _ hi)
    obtain ⟨k, hk⟩ := Option.isSome_iff_exists.mp hdated
    exact ⟨k, hk, Nat.zero_le k⟩
  | @step m y x _ hlead ih =>
    obtain ⟨j, hj⟩ := List.mem_iff_getElem?.mp (hclosed.mem_of_leads hlead).1
    have harc : (j, i) ∈ g.arcs := hg.mem_arcs_iff.mpr ⟨y, x, hj, hx, hlead⟩
    have hdone := h.mem_done_of_arc hempty hi harc
    obtain ⟨k, hk, hle⟩ := ih hj hdone
    obtain ⟨k', l, hk', hl, hlt⟩ :=
      (h.later j hdone i harc).resolve_left fun howed => List.not_mem_nil howed.2
    obtain rfl : k = k' := Option.some.inj (hk.symm.trans hk')
    exact ⟨l, hl, Nat.lt_of_le_of_lt hle hlt⟩

/-- **The layer of a processed node is the length of the longest path to it.** -/
theorem isGreatest (hx : n.nodes[i]? = some x) (hi : i ∈ done) :
    ∃ k, s.layer? i = some k ∧ IsGreatest {m | n.Path m x} k := by
  obtain ⟨k, hk⟩ := Option.isSome_iff_exists.mp (h.dated i (List.mem_append_left _ hi))
  obtain ⟨x', hx', hpath⟩ := h.path i k hk
  obtain rfl : x = x' := Option.some.inj (hx.symm.trans hx')
  refine ⟨k, hk, hpath, fun m hm => ?_⟩
  obtain ⟨k', hk', hle⟩ := h.le_layer_of_path hempty hg hclosed hm hx hi
  rwa [Option.some.inj (hk.symm.trans hk')]

/-- **What is never processed lies on a cycle or behind one.** -/
theorem behind_iff (hx : n.nodes[i]? = some x) : n.Behind x ↔ i ∉ done := by
  constructor
  · intro hbehind hi
    obtain ⟨k, -, hgreatest⟩ := h.isGreatest hempty hg hclosed hx hi
    obtain ⟨m, hm, hpath⟩ := Network.Behind.exists_path hclosed hbehind (k + 1)
    exact absurd (hgreatest.2 hpath) (by omega)
  · intro hi
    -- each of the unprocessed tasks waits for another of them
    let waiting := ((List.range n.nodes.length).filter fun j => j ∉ done).filterMap (n.nodes[·]?)
    have hwaiting : ∀ y, y ∈ waiting ↔ ∃ j, n.nodes[j]? = some y ∧ j ∉ done := by
      intro y
      simp only [waiting, List.mem_filterMap, List.mem_filter, List.mem_range, decide_eq_true_eq]
      refine exists_congr fun j => ⟨fun hj => ⟨hj.2, hj.1.2⟩, fun hj => ⟨⟨?_, hj.2⟩, hj.1⟩⟩
      exact (List.getElem?_eq_some_iff.mp hj.1).1
    have hnone : n.ready waiting = [] := by
      refine List.eq_nil_iff_forall_not_mem.mpr fun y hy => ?_
      obtain ⟨hy, hfree⟩ := Network.mem_ready.mp hy
      obtain ⟨j, hj, hnot⟩ := (hwaiting y).mp hy
      have hlt := (List.getElem?_eq_some_iff.mp hj).1
      have hdegree := h.degree j
      rw [List.count_nil, Nat.add_zero] at hdegree
      have hpos : 0 < g.arcs.countP fun arc => arc.2 = j ∧ arc.1 ∉ done := by
        rw [← hdegree]
        exact Nat.pos_of_ne_zero fun hzero => hnot ((h.mem_done_iff hempty).mpr ⟨hlt, hzero⟩)
      obtain ⟨⟨l, j'⟩, harc, hl⟩ := List.countP_pos_iff.mp hpos
      replace hl : j' = j ∧ l ∉ done := of_decide_eq_true hl
      obtain ⟨rfl, hl⟩ := hl
      obtain ⟨z, y', hz, hy', hlead⟩ := hg.mem_arcs_iff.mp harc
      obtain rfl : y = y' := Option.some.inj (hj.symm.trans hy')
      exact hfree z ((hwaiting z).mpr ⟨l, hz, hl⟩) hlead
    exact Network.behind_of_ready_eq_nil hnone ((hwaiting x).mpr ⟨i, hx, hi⟩)

/-- A node has the layer of its task, and an in-degree is left where there is none. -/
theorem layer_eq (hx : n.nodes[i]? = some x) :
    n.layerOf? x = if 0 < s.inDegree i then none else s.layer? i := by
  have hlt := (List.getElem?_eq_some_iff.mp hx).1
  split
  · next hleft =>
    refine Network.layerOf?_of_behind hclosed ((h.behind_iff hempty hg hclosed hx).mpr fun hi => ?_)
    exact hleft.ne' ((h.mem_done_iff hempty).mp hi).2
  · next hnone =>
    have hi := (h.mem_done_iff hempty).mpr ⟨hlt, Nat.eq_zero_of_not_pos hnone⟩
    obtain ⟨k, hk, hgreatest⟩ := h.isGreatest hempty hg hclosed hx hi
    rw [hk, (Network.layerOf?_eq_some_iff_isGreatest hclosed).mpr hgreatest]

/-- In-degree is left at the nodes of a blocked task and at no other. -/
theorem left_iff (hx : n.nodes[i]? = some x) : 0 < s.inDegree i ↔ x ∈ n.blocked := by
  rw [Network.mem_blocked hclosed, h.behind_iff hempty hg hclosed hx, h.mem_done_iff hempty]
  have hlt := (List.getElem?_eq_some_iff.mp hx).1
  omega

/-- **All nodes are processed exactly if no task is blocked.** -/
theorem processed_iff : s.processed = n.nodes.length ↔ n.blocked = [] := by
  have hsub : done ⊆ List.range n.nodes.length :=
    fun i hi => List.mem_range.mpr ((h.mem_done_iff hempty).mp hi).1
  have hnodup : done.Nodup := (List.nodup_append.mp h.nodup).1
  have hblocked : n.blocked = [] ↔ ∀ i < n.nodes.length, i ∈ done := by
    rw [List.eq_nil_iff_forall_not_mem]
    constructor
    · intro hfree i hi
      have hx := List.getElem?_eq_getElem hi
      refine (h.mem_done_iff hempty).mpr ⟨hi, Nat.eq_zero_of_not_pos fun hleft => ?_⟩
      exact hfree _ ((h.left_iff hempty hg hclosed hx).mp hleft)
    · intro hall x hx
      obtain ⟨i, hi⟩ := List.mem_iff_getElem?.mp ((Network.left_sublist _ _).subset hx)
      have hdone := (h.mem_done_iff hempty).mp (hall i (List.getElem?_eq_some_iff.mp hi).1)
      exact ((h.left_iff hempty hg hclosed hi).mpr hx).ne' hdone.2
  rw [h.processed, hblocked]
  constructor
  · intro hlength i hi
    have hperm := (hnodup.subperm hsub).perm_of_length_le (by rw [List.length_range, hlength])
    exact hperm.symm.subset (List.mem_range.mpr hi)
  · intro hall
    have hperm := (List.perm_ext_iff_of_nodup hnodup List.nodup_range).mpr fun i =>
      ⟨fun hi => hsub hi, fun hi => hall i (List.mem_range.mp hi)⟩
    rw [hperm.length_eq, List.length_range]

end

end Underway

/-! ## Layers by position -/

/-- The members of a list at some positions, where the positions are told by the members. -/
theorem filterMap_filter_range {α β : Type} (f : α → β) {q : Nat → Bool} {r : β → Bool} {l : List α}
    (h : ∀ (i : Nat) (a : α), l[i]? = some a → q i = r (f a)) :
    ((List.range l.length).filter q).filterMap (fun i => (l[i]?).map f) = (l.map f).filter r := by
  induction l using List.reverseRecOn with
  | nil => rfl
  | append_singleton l a ih =>
    have hlast : q l.length = r (f a) := h l.length a (by simp)
    have hfirst : ∀ (i : Nat) (b : α), l[i]? = some b → q i = r (f b) := by
      intro i b hb
      refine h i b ?_
      rwa [List.getElem?_append_left (List.getElem?_eq_some_iff.mp hb).1]
    have hcongr : ((List.range l.length).filter q).filterMap (fun i => ((l ++ [a])[i]?).map f) =
        ((List.range l.length).filter q).filterMap fun i => (l[i]?).map f := by
      refine List.filterMap_congr fun i hi => ?_
      rw [List.getElem?_append_left (List.mem_range.mp (List.mem_of_mem_filter hi))]
    rw [List.length_append, List.length_singleton, List.range_succ, List.filter_append,
      List.filterMap_append, hcongr, ih hfirst, List.map_append, List.filter_append]
    cases ha : r (f a) <;> simp [hlast, ha]

/-- A filter on positions is a filter on tasks, when the two say the same at each node. -/
theorem Builds.tasksAt_eq (hg : g.Builds n) {q : Nat → Bool} {r : TaskId → Bool}
    (h : ∀ (i : Nat) (x : TaskId), n.nodes[i]? = some x → q i = r x) :
    g.tasksAt ((List.range g.nodes.length).filter q) = n.nodes.filter r := by
  rw [← hg.nodes]
  exact filterMap_filter_range GraphNode.task fun i node hnode => h i node.task (hg.task_of hnode)

/-- The layers list the nodes that have them as their layer, in order. -/
theorem getElem?_fillLayers (layer? : Nat → Option Nat) (count size l : Nat) :
    (fillLayers layer? count size)[l]? =
      if l < count then some ((List.range size).filter fun i => layer? i = some l) else none := by
  have hfold : ∀ (items : List Nat) (layers : List (List Nat)),
      (items.foldl (listNode layer?) layers)[l]? =
        (layers[l]?).map fun layer => layer ++ items.filter fun i => layer? i = some l := by
    intro items
    induction items with
    | nil => intro layers; simp
    | cons i items ih =>
      intro layers
      rw [List.foldl_cons, ih, listNode]
      rcases hi : layer? i with _ | k
      · simp [hi]
      · rw [List.getElem?_modify, List.filter_cons]
        cases layers[l]? with
        | none => rfl
        | some layer =>
          by_cases hk : k = l
          · simp [hi, hk]
          · simp [hi, hk]
  rw [fillLayers, hfold, List.getElem?_replicate]
  split <;> simp

/-- As many layers are filled as are asked for, empty ones included. -/
theorem length_fillLayers (layer? : Nat → Option Nat) (count size : Nat) :
    (fillLayers layer? count size).length = count := by
  have hfold : ∀ (items : List Nat) (layers : List (List Nat)),
      (items.foldl (listNode layer?) layers).length = layers.length := by
    intro items
    induction items with
    | nil => exact fun _ => rfl
    | cons i items ih =>
      intro layers
      rw [List.foldl_cons, ih, listNode]
      cases layer? i with
      | none => rfl
      | some k => exact List.length_modify _ layers k
  rw [fillLayers, hfold, List.length_replicate]

/-! ## The graph of a network -/

/-- The graph has the nodes, the edges and the layers of a network. -/
structure Sorted (g : Graph) (n : Network) : Prop where
  nodes : g.nodes.map GraphNode.task = n.nodes
  edges : g.edges = n.edges
  incoming : ∀ (i : Nat) (node : GraphNode), g.nodes[i]? = some node →
    node.incoming = n.incomingPositions node.task
  index : ∀ x, g.index x = n.position? x
  layerOf? : ∀ x, g.layerOf? x = n.layerOf? x
  layerCount : g.layerCount = n.layers.map List.length
  tasksOf : ∀ i, g.tasksOf i = ((n.layers.toOption.getD [])[i]?).getD []

namespace Builds

variable (hg : g.Builds n) (hclosed : n.Closed) (hnodup : n.nodes.Nodup)
include hg

omit hg in
theorem getElem?_eq_some_iff_position? (hnodup : n.nodes.Nodup) :
    n.nodes[i]? = some x ↔ n.position? x = some i := by
  rw [Network.position?, List.findIdx?_eq_some_iff_getElem]
  constructor
  · intro hi
    obtain ⟨hlt, rfl⟩ := List.getElem?_eq_some_iff.mp hi
    refine ⟨hlt, decide_eq_true rfl, fun j hj hx => ?_⟩
    exact hj.ne ((hnodup.getElem_inj_iff).mp (of_decide_eq_true hx))
  · rintro ⟨hlt, hx, -⟩
    rw [List.getElem?_eq_getElem hlt, of_decide_eq_true hx]

/-- The index finds the position a task has among the nodes. -/
theorem index_eq (hnodup : n.nodes.Nodup) (x : TaskId) : g.index x = n.position? x := by
  refine Option.ext fun i => ?_
  rw [hg.index, getElem?_eq_some_iff_position? hnodup]

/-- A task has the layer of its node. -/
theorem bind_index_eq {layer? : Nat → Option Nat} (hclosed : n.Closed)
    (h : ∀ (i : Nat) (x : TaskId), n.nodes[i]? = some x → layer? i = n.layerOf? x) (x : TaskId) :
    (g.index x).bind layer? = n.layerOf? x := by
  rcases hi : g.index x with _ | i
  · cases hlayer : n.layerOf? x with
    | none => rfl
    | some k =>
      -- only tasks have layers
      have hx := Network.Path.mem hclosed (Network.isGreatest_of_layerOf? hclosed hlayer).1
      obtain ⟨i, hx⟩ := List.mem_iff_getElem?.mp hx
      rw [(hg.index x i).mpr hx] at hi
      cases hi
  · exact h i x ((hg.index x i).mp hi)

/-- The number of layers is one more than the greatest. -/
theorem count_eq {layer? : Nat → Option Nat} (hclosed : n.Closed) (hnodup : n.nodes.Nodup)
    (hfree : n.blocked = [])
    (h : ∀ (i : Nat) (x : TaskId), n.nodes[i]? = some x → layer? i = n.layerOf? x) :
    ((List.range g.nodes.length).filterMap layer?).max?.elim 0 (· + 1) = n.rounds.length := by
  have hmem : ∀ k, k ∈ (List.range g.nodes.length).filterMap layer? ↔
      ∃ x ∈ n.nodes, n.layerOf? x = some k := by
    intro k
    rw [List.mem_filterMap, hg.length_nodes]
    constructor
    · rintro ⟨i, hi, hk⟩
      have hx := List.getElem?_eq_getElem (List.mem_range.mp hi)
      exact ⟨_, List.mem_of_getElem? hx, (h i _ hx) ▸ hk⟩
    · rintro ⟨x, hx, hk⟩
      obtain ⟨i, hi⟩ := List.mem_iff_getElem?.mp hx
      exact ⟨i, List.mem_range.mpr (List.getElem?_eq_some_iff.mp hi).1, (h i x hi).trans hk⟩
  rcases (Network.layered_rounds hclosed hnodup hfree).count with
    ⟨hnodes, hlength⟩ | ⟨k, hk, hlength⟩
  · rw [hg.length_nodes, hnodes, hlength]
    rfl
  · have hmax : ((List.range g.nodes.length).filterMap layer?).max? = some k :=
      List.max?_eq_some_iff.mpr ⟨(hmem k).mpr hk.1, fun l hl => hk.2 ((hmem l).mp hl)⟩
    rw [hmax, hlength]
    rfl

/-- Where no task is blocked, the layers are listed. -/
theorem sorted_of_free {layer? : Nat → Option Nat} (hclosed : n.Closed) (hnodup : n.nodes.Nodup)
    (hfree : n.blocked = [])
    (h : ∀ (i : Nat) (x : TaskId), n.nodes[i]? = some x → layer? i = n.layerOf? x) :
    Sorted { g with layer?, layers := fillLayers layer? n.rounds.length g.nodes.length } n := by
  have hlayers : n.layers = .ok n.rounds := by
    rw [Network.layers, hfree]
    rfl
  refine ⟨hg.nodes, hg.edges, hg.incoming, hg.index_eq hnodup, hg.bind_index_eq hclosed h,
    ?_, fun l => ?_⟩
  · rw [layerCount, hlayers]
    dsimp only
    rw [hg.cycle?, length_fillLayers]
    rfl
  · rw [hlayers, Graph.tasksOf]
    dsimp only
    rw [getElem?_fillLayers]
    show _ = (n.rounds[l]?).getD []
    split
    · next hl =>
      have hround := List.getElem?_eq_getElem hl
      have hlisted := (Network.layered_rounds hclosed hnodup hfree).listed l _ hround
      rw [hround, Option.getD_some, Option.getD_some, hlisted]
      exact hg.tasksAt_eq fun i x hx => by rw [h i x hx]
    · next hl =>
      rw [List.getElem?_eq_none (not_lt.mp hl)]
      rfl

/-- Where tasks are blocked, they are named and nothing is listed. -/
theorem sorted_of_blocked {layer? : Nat → Option Nat} {left : Nat → Bool} (hclosed : n.Closed)
    (hnodup : n.nodes.Nodup) (hblocked : n.blocked ≠ [])
    (h : ∀ (i : Nat) (x : TaskId), n.nodes[i]? = some x → layer? i = n.layerOf? x)
    (hleft : ∀ (i : Nat) (x : TaskId), n.nodes[i]? = some x → left i = decide (x ∈ n.blocked)) :
    Sorted { g with
      layer?, layers := []
      cycle? := some ⟨g.tasksAt ((List.range g.nodes.length).filter left)⟩ } n := by
  have hlayers : n.layers = .error ⟨n.blocked⟩ := by
    rw [Network.layers, if_neg]
    rwa [List.isEmpty_iff]
  have hsub : n.blocked.Sublist n.nodes := Network.left_sublist n.nodes.length n.nodes
  have hnamed : g.tasksAt ((List.range g.nodes.length).filter left) = n.blocked :=
    (hg.tasksAt_eq hleft).trans (Network.eq_filter_of_sublist hsub hnodup).symm
  rw [hnamed]
  refine ⟨hg.nodes, hg.edges, hg.incoming, hg.index_eq hnodup, hg.bind_index_eq hclosed h,
    ?_, fun l => ?_⟩
  · rw [layerCount, hlayers]
    rfl
  · rw [hlayers]
    rfl

/-- **The loop over the queue finds the layers of the network**, and names the tasks that have
none. -/
theorem assignLayers (hclosed : n.Closed) (hnodup : n.nodes.Nodup) : g.assignLayers.Sorted n := by
  obtain ⟨current, done, h, hempty⟩ := exists_underway_sort hg hclosed
  have hprocessed := h.processed_iff hempty hg hclosed
  have hlayer := fun (i : Nat) (x : TaskId) => h.layer_eq hempty hg hclosed (i := i) (x := x)
  have hleft := fun (i : Nat) (x : TaskId) => h.left_iff hempty hg hclosed (i := i) (x := x)
  rw [Graph.assignLayers]
  generalize g.sort g.nodes.length g.start = s at *
  dsimp only
  rw [hg.length_nodes.symm] at hprocessed
  by_cases hfree : n.blocked = []
  · have hall : ∀ (i : Nat) (x : TaskId), n.nodes[i]? = some x → s.layer? i = n.layerOf? x := by
      intro i x hx
      rw [hlayer i x hx, if_neg]
      rw [hleft i x hx, hfree]
      exact List.not_mem_nil
    rw [if_neg (not_not.mpr (hprocessed.mpr hfree)), hg.count_eq hclosed hnodup hfree hall]
    exact hg.sorted_of_free hclosed hnodup hfree hall
  · rw [if_pos (mt hprocessed.mp hfree)]
    exact hg.sorted_of_blocked hclosed hnodup hfree (fun i x hx => (hlayer i x hx).symm)
      fun i x hx => decide_eq_decide.mpr (hleft i x hx)

end Builds

end Graph

/-- **Kahn's algorithm finds the layers of a network.** -/
theorem Network.sorted_graph (hclosed : n.Closed) (hnodup : n.nodes.Nodup) : n.graph.Sorted n :=
  (builds_unlayered hclosed hnodup).assignLayers hclosed hnodup

end Workplan
