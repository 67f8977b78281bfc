import Workplan.Network.Basic

/-!
# Layers of a network (specification §4.2)

Longest-path layering: the layer of a task is one more than the highest layer that an edge into it
comes from.  Here tasks are taken off a network in rounds: each round takes every waiting task into
which no edge leads from a waiting task.  The rounds are the layers.  What can never be taken lies
on a cycle or behind one.  The same layers come out of Kahn's algorithm with its count of edges and
its queue, see `Network.graph`.

* `Network.ready` — one round.
* `Network.peel` — all rounds, and what is left.
* `Network.layers` — the layers, unless something is left.
* `Network.layerOf?`, `Network.layerTable` — the layer of a task, and of all of them.
-/

namespace Workplan.Network

/-- The waiting tasks that wait for none of the waiting: those that Kahn's algorithm has in its
queue when it is done with the layer before. -/
def ready (n : Network) (waiting : List TaskId) : List TaskId :=
  waiting.filter fun id => (n.incoming id).all fun e => !waiting.contains e.source

/-- At most `k` rounds over the waiting tasks: the rounds, and the tasks still waiting, which
Kahn's algorithm never gets to. -/
def peel (n : Network) : (k : Nat) → (waiting : List TaskId) → List (List TaskId) × List TaskId
  | 0, waiting => ([], waiting)
  | k + 1, waiting =>
    let round := n.ready waiting
    if round.isEmpty then ([], waiting)
    else
      let (rounds, blocked) := n.peel k (waiting.filter fun id => !round.contains id)
      (round :: rounds, blocked)

/-- The tasks by round, without those on a cycle or behind one. -/
def rounds (n : Network) : List (List TaskId) := (n.peel n.nodes.length n.nodes).1

/-- The tasks on a cycle or behind one, oldest first. -/
def blocked (n : Network) : List TaskId := (n.peel n.nodes.length n.nodes).2

/-- The layers; every edge leads to a later one (`checkLayerValidity` and `getLayer`, specification
§4.2).  A cycle is found before anything is dated (specification §7). -/
def layers (n : Network) : Except Cycle (List (List TaskId)) :=
  if n.blocked.isEmpty then .ok n.rounds else .error ⟨n.blocked⟩

/-- The number of the round that takes a task. -/
def roundOf? (rounds : List (List TaskId)) (id : TaskId) : Option Nat :=
  rounds.findIdx? fun round => round.contains id

/-- The layer of a task; `none` for a task on a cycle or behind one. -/
def layerOf? (n : Network) (id : TaskId) : Option Nat := roundOf? n.rounds id

/-- All tasks with their layers, oldest first. -/
def layerTable (n : Network) : List (TaskId × Option Nat) :=
  let rounds := n.rounds
  n.nodes.map fun id => (id, roundOf? rounds id)

end Workplan.Network
