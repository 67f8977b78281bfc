import Mathlib.Order.Bounds.Basic
import Workplan.Proofs.Layers

/-!
# Layers are longest paths

The round that takes a task is the length of the longest path of edges that ends in it.  What no
round takes is what a cycle leads to.

- `Network.Path`: a path of some length ends in a task.
- `Network.Closed`: edges lead from tasks of the network to tasks of the network.
- `Network.isGreatest_of_round`: a round takes the tasks with paths up to its number.
- `Network.mem_blocked`: what is left lies on a cycle or behind one.
- `Network.Layered`, `Network.layered`: what the layers are, if there are any.
-/

namespace Workplan.Network

variable {n : Network} {waiting round : List TaskId} {x y : TaskId} {i j k m : Nat}

/-- A path of `m` edges ends in a task. -/
inductive Path (n : Network) : (m : Nat) → TaskId → Prop
  | start {x : TaskId} (hx : x ∈ n.nodes) : Path n 0 x
  | step {m : Nat} {x y : TaskId} (h : Path n m x) (hlead : n.Leads x y) : Path n (m + 1) y

/-- Every edge leads from a task of the network to a task of the network. -/
def Closed (n : Network) : Prop := ∀ e ∈ n.edges, e.source ∈ n.nodes ∧ e.target ∈ n.nodes

theorem Closed.mem_of_leads (h : n.Closed) (hlead : n.Leads x y) : x ∈ n.nodes ∧ y ∈ n.nodes := by
  obtain ⟨e, he, rfl, rfl⟩ := hlead
  exact h e he

theorem exists_path_of_transGen (h : n.Path m x) (hlead : Relation.TransGen n.Leads x y) :
    ∃ k, m < k ∧ n.Path k y := by
  induction hlead with
  | single hlead => exact ⟨m + 1, Nat.lt_succ_self m, h.step hlead⟩
  | tail _ hlead ih =>
    obtain ⟨k, hk, hpath⟩ := ih
    exact ⟨k + 1, Nat.lt_succ_of_lt hk, hpath.step hlead⟩

/-- Behind a cycle there are paths of any length. -/
theorem Behind.exists_path (hclosed : n.Closed) (hx : n.Behind x) (m : Nat) :
    ∃ k, m ≤ k ∧ n.Path k x := by
  obtain ⟨y, hcycle, hlead⟩ := hx
  have hy : y ∈ n.nodes := by
    obtain ⟨z, hyz, -⟩ := Relation.TransGen.head'_iff.mp hcycle
    exact (hclosed.mem_of_leads hyz).1
  have hround : ∃ k, m ≤ k ∧ n.Path k y := by
    induction m with
    | zero => exact ⟨0, le_rfl, .start hy⟩
    | succ m ih =>
      obtain ⟨k, hk, hpath⟩ := ih
      obtain ⟨l, hl, hpath⟩ := exists_path_of_transGen hpath hcycle
      exact ⟨l, by omega, hpath⟩
  obtain ⟨k, hk, hpath⟩ := hround
  rcases Relation.reflTransGen_iff_eq_or_transGen.mp hlead with rfl | hlead
  · exact ⟨k, hk, hpath⟩
  · obtain ⟨l, hl, hpath⟩ := exists_path_of_transGen hpath hlead
    exact ⟨l, by omega, hpath⟩

/-! ## Rounds -/

/-- After `j` rounds, the paths to the tasks taken so far are shorter than `j`, and a path of
length `j` leads to every task that still waits. -/
structure Peeled (n : Network) (j : Nat) (waiting : List TaskId) : Prop where
  subset : waiting ⊆ n.nodes
  short : ∀ x ∈ n.nodes, x ∉ waiting → ∀ m, n.Path m x → m < j
  long : ∀ x ∈ waiting, n.Path j x

theorem peeled_nodes : n.Peeled 0 n.nodes where
  subset := List.Subset.refl _
  short _ hx hnot := absurd hx hnot
  long _ hx := .start hx

namespace Peeled

variable (hclosed : n.Closed) (h : n.Peeled j waiting)
include hclosed h

/-- A task that is ready after `j` rounds has `j` as the length of its longest path. -/
theorem isGreatest_of_ready (hx : x ∈ n.ready waiting) : IsGreatest {m | n.Path m x} j := by
  obtain ⟨hwait, hnone⟩ := mem_ready.mp hx
  refine ⟨h.long x hwait, fun m hpath => ?_⟩
  cases hpath with
  | start => exact Nat.zero_le j
  | step hpath hlead =>
    have hsource : _ ∉ waiting := fun hy => hnone _ hy hlead
    exact h.short _ (hclosed.mem_of_leads hlead).1 hsource _ hpath

/-- One more round goes one edge further. -/
theorem later : n.Peeled (j + 1) (n.later waiting) := by
  constructor
  · exact fun x hx => h.subset (mem_later.mp hx).1
  · intro x hx hnot m hpath
    by_cases hwait : x ∈ waiting
    · have hready : x ∈ n.ready waiting :=
        mem_ready.mpr ⟨hwait, fun y hy hlead => hnot (mem_later.mpr ⟨hwait, y, hy, hlead⟩)⟩
      exact Nat.lt_succ_of_le ((h.isGreatest_of_ready hclosed hready).2 hpath)
    · exact Nat.lt_succ_of_lt (h.short x hx hwait m hpath)
  · intro x hx
    obtain ⟨-, y, hy, hlead⟩ := mem_later.mp hx
    exact (h.long y hy).step hlead

/-- **The number of its round is the length of the longest path to a task.** -/
theorem isGreatest_of_round (hround : (n.peel k waiting).1[i]? = some round) (hx : x ∈ round) :
    IsGreatest {m | n.Path m x} (j + i) := by
  induction k generalizing waiting i j with
  | zero => simp [peel] at hround
  | succ k ih =>
    rw [peel_succ] at hround
    split at hround
    · simp at hround
    cases i with
    | zero =>
      cases hround
      exact h.isGreatest_of_ready hclosed hx
    | succ i =>
      rw [Nat.add_succ, ← Nat.succ_add]
      exact ih (h.later hclosed) hround

end Peeled

/-- No round is empty, and each is a part of what was waiting, in its order. -/
theorem round_sublist (h : round ∈ (n.peel k waiting).1) : round ≠ [] ∧ round.Sublist waiting := by
  induction k generalizing waiting with
  | zero => simp [peel] at h
  | succ k ih =>
    rw [peel_succ] at h
    split at h
    · simp at h
    next hsome =>
    rcases List.mem_cons.mp h with rfl | h
    · exact ⟨fun e => hsome (List.isEmpty_iff.mpr e), List.filter_sublist⟩
    · exact ⟨(ih h).1, (ih h).2.trans List.filter_sublist⟩

/-! ## What is left -/

theorem left_sublist (k : Nat) (waiting : List TaskId) : (n.peel k waiting).2.Sublist waiting := by
  induction k generalizing waiting with
  | zero => exact List.Sublist.refl _
  | succ k ih =>
    rw [peel_succ]
    split
    · exact List.Sublist.refl _
    · exact (ih _).trans List.filter_sublist

theorem mem_rounds_or_blocked : x ∈ n.nodes ↔ (∃ round ∈ n.rounds, x ∈ round) ∨ x ∈ n.blocked := by
  rw [← (n.perm_peel n.nodes.length n.nodes).mem_iff, List.mem_append, List.mem_flatten]
  rfl

/-- **What no round takes lies on a cycle or behind one.** -/
theorem mem_blocked (hclosed : n.Closed) : x ∈ n.blocked ↔ n.Behind x := by
  constructor
  · exact behind_of_mem_blocked
  · intro hx
    obtain ⟨y, hcycle, hlead⟩ := hx
    have hmem : x ∈ n.nodes := by
      rcases Relation.reflTransGen_iff_eq_or_transGen.mp hlead with rfl | hlead
      · obtain ⟨z, hyz, -⟩ := Relation.TransGen.head'_iff.mp hcycle
        exact (hclosed.mem_of_leads hyz).1
      · obtain ⟨z, -, hzx⟩ := Relation.TransGen.tail'_iff.mp hlead
        exact (hclosed.mem_of_leads hzx).2
    refine (mem_rounds_or_blocked.mp hmem).resolve_left ?_
    rintro ⟨round, hround, hxr⟩
    obtain ⟨i, hi⟩ := List.mem_iff_getElem?.mp hround
    have hgreatest := peeled_nodes.isGreatest_of_round hclosed hi hxr
    obtain ⟨k, hk, hpath⟩ := Behind.exists_path hclosed ⟨y, hcycle, hlead⟩ (0 + i + 1)
    exact absurd (hgreatest.2 hpath) (by omega)

theorem acyclic_iff_blocked (hclosed : n.Closed) : n.Acyclic ↔ n.blocked = [] := by
  rw [List.eq_nil_iff_forall_not_mem]
  simp only [mem_blocked hclosed]
  constructor
  · rintro h x ⟨y, hcycle, -⟩
    exact h y hcycle
  · exact fun h x hcycle => h x ⟨x, hcycle, .refl⟩

/-! ## The layers -/

/-- Layers by the longest paths: the layer of a task is the length of the longest path to it,
edges lead to later layers, each layer lists the tasks that have it as their layer, oldest first,
and every task is in one layer only.  There are as many layers as the greatest one has before it,
and one more. -/
structure Layered (n : Network) (layers : List (List TaskId)) : Prop where
  longest : ∀ x ∈ n.nodes, ∃ k, n.layerOf? x = some k ∧ IsGreatest {m | n.Path m x} k
  later : ∀ e ∈ n.edges, ∃ i j, n.layerOf? e.source = some i ∧ n.layerOf? e.target = some j ∧ i < j
  listed : ∀ (i : Nat) (layer : List TaskId), layers[i]? = some layer →
    layer = n.nodes.filter fun x => n.layerOf? x = some i
  once : ∀ x ∈ n.nodes, ∃! i : Nat, ∃ layer, layers[i]? = some layer ∧ x ∈ layer
  count : (n.nodes = [] ∧ layers.length = 0) ∨
    ∃ k, IsGreatest {i | ∃ x ∈ n.nodes, n.layerOf? x = some i} k ∧ layers.length = k + 1

/-- A part of a list without repetitions is what a filter by membership takes. -/
theorem eq_filter_of_sublist {part whole : List TaskId} (h : part.Sublist whole)
    (hnodup : whole.Nodup) : part = whole.filter fun x => x ∈ part := by
  induction h with
  | slnil => rfl
  | @cons part whole a hpart ih =>
    obtain ⟨ha, hnodup⟩ := List.nodup_cons.mp hnodup
    have hnot : a ∉ part := fun hmem => ha (hpart.subset hmem)
    rw [List.filter_cons_of_neg (by simpa using hnot)]
    exact ih hnodup
  | @cons_cons part whole a hpart ih =>
    obtain ⟨ha, hnodup⟩ := List.nodup_cons.mp hnodup
    rw [List.filter_cons_of_pos (by simp)]
    refine congrArg (a :: ·) ((ih hnodup).trans (List.filter_congr fun x hx => ?_))
    have hne : x ≠ a := fun e => ha (e ▸ hx)
    simp [hne]

section

variable (hclosed : n.Closed)
include hclosed

/-- A task has the number of the round that takes it as its layer. -/
theorem layerOf?_eq_some_iff :
    n.layerOf? x = some i ↔ ∃ round, n.rounds[i]? = some round ∧ x ∈ round := by
  have hround : ∀ {i}, n.layerOf? x = some i → ∃ round, n.rounds[i]? = some round ∧ x ∈ round := by
    intro i h
    obtain ⟨hi, hcontains, -⟩ := List.findIdx?_eq_some_iff_getElem.mp h
    exact ⟨n.rounds[i], List.getElem?_eq_getElem hi, by simpa using hcontains⟩
  refine ⟨hround, fun ⟨round, hi, hx⟩ => ?_⟩
  cases hlayer : n.layerOf? x with
  | none =>
    have := List.findIdx?_eq_none_iff.mp hlayer round (List.mem_of_getElem? hi)
    simp [hx] at this
  | some j =>
    -- both numbers are the length of the longest path
    obtain ⟨round', hj, hx'⟩ := hround hlayer
    have hgreatest := peeled_nodes.isGreatest_of_round hclosed hi hx
    have hgreatest' := peeled_nodes.isGreatest_of_round hclosed hj hx'
    have := hgreatest'.unique hgreatest
    rw [Nat.zero_add, Nat.zero_add] at this
    rw [this]

/-- The layer of a task is the length of the longest path to it. -/
theorem isGreatest_of_layerOf? (h : n.layerOf? x = some i) : IsGreatest {m | n.Path m x} i := by
  obtain ⟨round, hround, hx⟩ := (layerOf?_eq_some_iff hclosed).mp h
  have := peeled_nodes.isGreatest_of_round hclosed hround hx
  rwa [Nat.zero_add] at this

/-- What a path leads to is a task of the network. -/
theorem Path.mem (h : n.Path m x) : x ∈ n.nodes := by
  cases h with
  | start hx => exact hx
  | step _ hlead => exact (hclosed.mem_of_leads hlead).2

/-- If there is a longest path to a task, its length is the layer of the task. -/
theorem layerOf?_eq_some_iff_isGreatest :
    n.layerOf? x = some i ↔ IsGreatest {m | n.Path m x} i := by
  refine ⟨isGreatest_of_layerOf? hclosed, fun h => ?_⟩
  rcases mem_rounds_or_blocked.mp (Path.mem hclosed h.1) with ⟨round, hround, hx⟩ | hx
  · obtain ⟨j, hj⟩ := List.mem_iff_getElem?.mp hround
    have hlayer := (layerOf?_eq_some_iff hclosed).mpr ⟨round, hj, hx⟩
    rw [hlayer, (isGreatest_of_layerOf? hclosed hlayer).unique h]
  · -- behind a cycle there is a longer path
    obtain ⟨j, hj, hpath⟩ := Behind.exists_path hclosed ((mem_blocked hclosed).mp hx) (i + 1)
    exact absurd (h.2 hpath) (by omega)

/-- Behind a cycle there are no layers. -/
theorem layerOf?_of_behind (hx : n.Behind x) : n.layerOf? x = none := by
  cases hlayer : n.layerOf? x with
  | none => rfl
  | some i =>
    obtain ⟨j, hj, hpath⟩ := Behind.exists_path hclosed hx (i + 1)
    exact absurd ((isGreatest_of_layerOf? hclosed hlayer).2 hpath) (by omega)

/-- **What the layers of a network are**, if there are any. -/
theorem layered_rounds (hnodup : n.nodes.Nodup) (hblocked : n.blocked = []) :
    n.Layered n.rounds := by
  -- nothing is blocked, so every node was taken off in some round
  have hlayer : ∀ {x}, x ∈ n.nodes → ∃ i, n.layerOf? x = some i := by
    intro x hx
    rw [mem_rounds_or_blocked, hblocked] at hx
    obtain ⟨round, hround, hxr⟩ := hx.resolve_right List.not_mem_nil
    obtain ⟨i, hi⟩ := List.mem_iff_getElem?.mp hround
    exact ⟨i, (layerOf?_eq_some_iff hclosed).mpr ⟨round, hi, hxr⟩⟩
  have hsublist : ∀ {round}, round ∈ n.rounds → round ≠ [] ∧ round.Sublist n.nodes :=
    fun hround => round_sublist hround
  constructor
  · intro x hx
    obtain ⟨i, hi⟩ := hlayer hx
    exact ⟨i, hi, isGreatest_of_layerOf? hclosed hi⟩
  · intro e he
    obtain ⟨i, hi⟩ := hlayer (hclosed e he).1
    obtain ⟨j, hj⟩ := hlayer (hclosed e he).2
    have hpath : n.Path i e.source := (isGreatest_of_layerOf? hclosed hi).1
    have hlonger : n.Path (i + 1) e.target := hpath.step ⟨e, he, rfl, rfl⟩
    exact ⟨i, j, hi, hj, (isGreatest_of_layerOf? hclosed hj).2 hlonger⟩
  · intro i layer hi
    obtain ⟨-, hsub⟩ := hsublist (List.mem_of_getElem? hi)
    refine (eq_filter_of_sublist hsub hnodup).trans (List.filter_congr fun x hx => ?_)
    refine decide_eq_decide.mpr ?_
    rw [layerOf?_eq_some_iff hclosed, hi]
    simp
  · intro x hx
    obtain ⟨i, hi⟩ := hlayer hx
    refine ⟨i, (layerOf?_eq_some_iff hclosed).mp hi, fun j hj => ?_⟩
    have hj' := (layerOf?_eq_some_iff hclosed).mpr hj
    exact Option.some.inj (hj'.symm.trans hi)
  · cases hlength : n.rounds.length with
    | zero =>
      refine .inl ⟨List.eq_nil_iff_forall_not_mem.mpr fun x hx => ?_, rfl⟩
      obtain ⟨i, hi⟩ := hlayer hx
      obtain ⟨round, hround, -⟩ := (layerOf?_eq_some_iff hclosed).mp hi
      rw [List.eq_nil_of_length_eq_zero hlength] at hround
      simp at hround
    | succ k =>
      refine .inr ⟨k, ⟨?_, ?_⟩, rfl⟩
      · have hk : k < n.rounds.length := by omega
        obtain ⟨hne, hsub⟩ := hsublist (List.getElem_mem hk)
        obtain ⟨x, hx⟩ := List.exists_mem_of_ne_nil _ hne
        refine ⟨x, hsub.subset hx, (layerOf?_eq_some_iff hclosed).mpr ⟨_, ?_, hx⟩⟩
        exact List.getElem?_eq_getElem hk
      · rintro i ⟨x, -, hi⟩
        obtain ⟨round, hround, -⟩ := (layerOf?_eq_some_iff hclosed).mp hi
        obtain ⟨hlt, -⟩ := List.getElem?_eq_some_iff.mp hround
        omega

theorem layered (hnodup : n.nodes.Nodup) {layers : List (List TaskId)}
    (h : n.layers = .ok layers) : n.Layered layers := by
  rw [Network.layers] at h
  split at h
  · next hblocked =>
    cases h
    exact layered_rounds hclosed hnodup (List.isEmpty_iff.mp hblocked)
  · cases h

/-- **There are layers exactly if edges do not lead around a cycle.** -/
theorem exists_layers_iff : (∃ layers, n.layers = .ok layers) ↔ n.Acyclic := by
  refine ⟨fun ⟨layers, h⟩ => ?_, exists_layers⟩
  rw [Network.layers] at h
  split at h
  · next hblocked => exact (acyclic_iff_blocked hclosed).mpr (List.isEmpty_iff.mp hblocked)
  · cases h

/-- **Otherwise what lies on a cycle or behind one is named**, oldest first. -/
theorem cycle_of_layers {cycle : Cycle} (h : n.layers = .error cycle) :
    cycle.tasks.Sublist n.nodes ∧ ∀ x, x ∈ cycle.tasks ↔ n.Behind x := by
  rw [Network.layers] at h
  split at h
  · cases h
  · cases h
    exact ⟨left_sublist _ _, fun x => mem_blocked hclosed⟩

end

end Workplan.Network
