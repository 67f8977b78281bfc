import Mathlib.Logic.Function.Basic
import Workplan.Network.Layering

/-!
# Layers with a queue (specification §4.2)

Layers can be found without rounds, by Kahn's algorithm.  The tasks become nodes, known by their
positions (specification §9).  Each node counts the edges into it from nodes that are not processed
yet, and waits in a queue from the moment at which there are none left.

* `Graph` — nodes and edges by position, and the layers found.
* `Graph.addNode`, `Graph.addEdge` — how a graph is built; edges between tasks only.
* `Sorting`, `Graph.sort` — the loop over the queue.
* `Graph.assignLayers` — the layers, or the tasks that the loop has not come to.
* `Network.graph` — the graph of a network, with its layers.
-/

namespace Workplan

/-- A task among the nodes, with the positions of the edges into it. -/
structure GraphNode where
  /-- The task. -/
  task : TaskId
  /-- The positions of the edges into it, in order. -/
  incoming : List Nat

/-- Nodes and edges, both known by position. -/
structure Graph where
  /-- The nodes. -/
  nodes : List GraphNode
  /-- The edges. -/
  edges : List Edge
  /-- The position of each task that has one. -/
  index : TaskId → Option Nat
  /-- The layer of each node that has one, by position. -/
  layer? : Nat → Option Nat
  /-- The positions of the nodes, layer by layer; none where edges lead around a cycle. -/
  layers : List (List Nat)
  /-- The tasks that have no layer, if edges lead around a cycle. -/
  cycle? : Option Cycle

/-- Where the loop over the queue stands. -/
structure Sorting where
  /-- The number of edges into a node from nodes that are not processed. -/
  inDegree : Nat → Nat
  /-- The layer of a node, as far as the processed nodes tell. -/
  layer? : Nat → Option Nat
  /-- The nodes to be processed, in order. -/
  queue : List Nat
  /-- How many nodes are processed. -/
  processed : Nat

/-- Tells a node that one of the edges into it comes from a node of some layer, which is processed
now.  The layer of the node is at least the next one; after the last such edge it is enqueued. -/
def Sorting.tell (layer : Nat) (s : Sorting) (next : Nat) : Sorting :=
  let degree := s.inDegree next - 1
  { s with
    layer? := Function.update s.layer? next
      (some ((s.layer? next).elim (layer + 1) fun old => max old (layer + 1)))
    inDegree := Function.update s.inDegree next degree
    queue := if degree = 0 then s.queue ++ [next] else s.queue }

namespace Graph

/-! ## Building -/

/-- A graph without nodes. -/
def empty : Graph := ⟨[], [], fun _ => none, fun _ => none, [], none⟩

/-- Adds a node for a task. -/
def addNode (g : Graph) (task : TaskId) : Graph :=
  { g with
    index := Function.update g.index task (some g.nodes.length)
    nodes := g.nodes ++ [⟨task, []⟩] }

/-- Adds an edge, unless one of its ends is not among the nodes. -/
def addEdge (g : Graph) (e : Edge) : Graph :=
  if (g.index e.source).isNone then g
  else match g.index e.target with
    | none => g
    | some i =>
      { g with
        edges := g.edges ++ [e]
        nodes := g.nodes.modify i fun node =>
          { node with incoming := node.incoming ++ [g.edges.length] } }

/-! ## The loop -/

/-- The positions of the two ends of an edge. -/
def arc? (g : Graph) (k : Nat) : Option (Nat × Nat) := do
  let e ← g.edges[k]?
  return (← g.index e.source, ← g.index e.target)

/-- The edges as pairs of positions, in the order of the nodes they lead into. -/
def arcs (g : Graph) : List (Nat × Nat) :=
  g.nodes.flatMap fun node => node.incoming.filterMap g.arc?

/-- The nodes that the edges out of a node lead into, one entry for each edge. -/
def outgoing (g : Graph) (i : Nat) : List Nat :=
  (g.arcs.filter fun arc => arc.1 = i).map Prod.snd

/-- The number of edges into a node. -/
def inDegree (g : Graph) (i : Nat) : Nat := (g.nodes[i]?).elim 0 fun node => node.incoming.length

/-- Before the loop: the nodes that no edge leads into are enqueued, on the first layer. -/
def start (g : Graph) : Sorting :=
  let queue := (List.range g.nodes.length).filter fun i => g.inDegree i = 0
  ⟨g.inDegree, fun i => if i ∈ queue then some 0 else g.layer? i, queue, 0⟩

/-- Processes a node: every node that an edge out of it leads into is told its layer. -/
def visit (g : Graph) (s : Sorting) (current : Nat) : Sorting :=
  let layer := (s.layer? current).getD 0
  (g.outgoing current).foldl (Sorting.tell layer) { s with processed := s.processed + 1 }

/-- Processes the nodes of the queue in order, at most `k` of them. -/
def sort (g : Graph) : (k : Nat) → Sorting → Sorting
  | 0, s => s
  | k + 1, s =>
    match s.queue with
    | [] => s
    | current :: rest => g.sort k (g.visit { s with queue := rest } current)

/-! ## The layers -/

/-- Lists a node in its layer, if it has one. -/
def listNode (layer? : Nat → Option Nat) (layers : List (List Nat)) (i : Nat) : List (List Nat) :=
  match layer? i with
  | some l => layers.modify l fun layer => layer ++ [i]
  | none => layers

/-- The nodes layer by layer, in order. -/
def fillLayers (layer? : Nat → Option Nat) (count size : Nat) : List (List Nat) :=
  (List.range size).foldl (listNode layer?) (List.replicate count [])

/-- The tasks of some nodes. -/
def tasksAt (g : Graph) (positions : List Nat) : List TaskId :=
  positions.filterMap fun i => (g.nodes[i]?).map GraphNode.task

/-- Assigns the layers.  If the loop has not come to all nodes, those with edges left into them lie
on a cycle or behind one; they have no layer, and no layers are listed. -/
def assignLayers (g : Graph) : Graph :=
  let s := g.sort g.nodes.length g.start
  if s.processed ≠ g.nodes.length then
    { g with
      layer? := fun i => if 0 < s.inDegree i then none else s.layer? i
      layers := []
      cycle? := some ⟨g.tasksAt ((List.range g.nodes.length).filter fun i => 0 < s.inDegree i)⟩ }
  else
    let count := ((List.range g.nodes.length).filterMap s.layer?).max?.elim 0 (· + 1)
    { g with
      layer? := s.layer?
      layers := fillLayers s.layer? count g.nodes.length }

/-! ## Reading -/

/-- The number of layers, unless edges lead around a cycle (`checkLayerValidity`, specification
§4.2). -/
def layerCount (g : Graph) : Except Cycle Nat :=
  match g.cycle? with
  | some cycle => .error cycle
  | none => .ok g.layers.length

/-- The tasks of a layer, in order; none beyond the last layer (`getLayer`, specification
§4.2). -/
def tasksOf (g : Graph) (layer : Nat) : List TaskId := g.tasksAt (g.layers[layer]?.getD [])

/-- The layer of a task. -/
def layerOf? (g : Graph) (id : TaskId) : Option Nat := (g.index id).bind g.layer?

end Graph

/-- The nodes and edges of a network, before layers are assigned. -/
def Network.unlayered (n : Network) : Graph :=
  n.edges.foldl Graph.addEdge (n.nodes.foldl Graph.addNode .empty)

/-- The graph of a network, with its layers. -/
def Network.graph (n : Network) : Graph := n.unlayered.assignLayers

end Workplan
