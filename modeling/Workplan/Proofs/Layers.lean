import Mathlib.Data.List.Basic
import Mathlib.Data.List.Nodup
import Mathlib.Data.Set.Finite.Basic
import Mathlib.Order.WellFoundedSet
import Workplan.Network.Layering

/-!
# Layers are an order

The layers of a network, one after the other, list every task once, and no edge leads from a
task to one listed before it.  There are layers unless edges lead around a cycle.

- `Network.IsOrder`: a list of all tasks in which the source of an edge comes first.
- `Network.isOrder_of_layers`: the layers are such a list.
- `Network.IsOrder.induction`: induction along the edges of a network that has an order.
- `Network.Behind`, `Network.behind_of_mem_blocked`: what no round takes lies behind a cycle.
- `Network.Acyclic`, `Network.exists_layers`: a network without cycles has layers.
-/

namespace Workplan.Network

variable {n : Network} {waiting order : List TaskId} {x y : TaskId} {k : Nat}

/-- The network has an edge from the first task to the second one. -/
def Leads (n : Network) (x y : TaskId) : Prop := ∃ e ∈ n.edges, e.source = x ∧ e.target = y

/-- No way along edges leads back to where it began. -/
def Acyclic (n : Network) : Prop := ∀ x, ¬ Relation.TransGen n.Leads x x

/-- The task lies on a cycle of edges or behind one. -/
def Behind (n : Network) (x : TaskId) : Prop :=
  ∃ y, Relation.TransGen n.Leads y y ∧ Relation.ReflTransGen n.Leads y x

/-- Every task is listed once, and after the sources of the edges into it. -/
structure IsOrder (n : Network) (order : List TaskId) : Prop where
  perm : order.Perm n.nodes
  earlier : ∀ done x rest, order = done ++ x :: rest →
    ∀ y ∈ n.nodes, n.Leads y x → y ∈ done

theorem mem_incoming {e : Edge} : e ∈ n.incoming x ↔ e ∈ n.edges ∧ e.target = x := by
  simp [incoming]

theorem leads_iff : n.Leads y x ↔ ∃ e ∈ n.incoming x, e.source = y := by
  simp [Leads, mem_incoming, and_assoc, and_comm]

/-- A task is ready when nothing that waits leads to it. -/
theorem mem_ready : x ∈ n.ready waiting ↔ x ∈ waiting ∧ ∀ y ∈ waiting, ¬ n.Leads y x := by
  simp only [ready, List.mem_filter, List.all_eq_true, leads_iff, Bool.not_eq_true',
    List.contains_eq_mem, decide_eq_false_iff_not]
  refine and_congr_right fun _ => ⟨?_, ?_⟩
  · rintro h y hy ⟨e, he, rfl⟩
    exact h e he hy
  · exact fun h e he hmem => h e.source hmem ⟨e, he, rfl⟩

/-- The rounds and what they leave are what was waiting. -/
theorem perm_peel (k : Nat) (waiting : List TaskId) :
    ((n.peel k waiting).1.flatten ++ (n.peel k waiting).2).Perm waiting := by
  induction k generalizing waiting with
  | zero => exact List.Perm.refl _
  | succ k ih =>
    rw [peel]
    dsimp only
    split
    · exact List.Perm.refl _
    · rw [List.flatten_cons, List.append_assoc]
      refine ((ih _).append_left _).trans ?_
      -- the round is what the filter of `ready` takes, and the rest is what it leaves
      have hrest : (waiting.filter fun id => !(n.ready waiting).contains id) =
          waiting.filter fun id => !(n.incoming id).all fun e => !waiting.contains e.source := by
        refine List.filter_congr fun id hid => congrArg (!·) ?_
        rw [Bool.eq_iff_iff, List.contains_iff_mem, ready, List.mem_filter]
        exact and_iff_right hid
      rw [hrest]
      exact List.filter_append_perm _ waiting

/-- In the rounds, a task comes after the waiting sources of the edges into it. -/
theorem earlier_peel (k : Nat) {waiting done rest : List TaskId}
    (h : (n.peel k waiting).1.flatten = done ++ x :: rest) (hy : y ∈ waiting)
    (hlead : n.Leads y x) :
    y ∈ done := by
  induction k generalizing waiting done with
  | zero => exact absurd h (by simp [peel])
  | succ k ih =>
    rw [peel] at h
    dsimp only at h
    split at h
    · exact absurd h (by simp)
    · rw [List.flatten_cons] at h
      have hround : x ∉ n.ready waiting := fun hx => (mem_ready.mp hx).2 y hy hlead
      have hlater : y ∉ n.ready waiting →
          y ∈ waiting.filter fun id => !(n.ready waiting).contains id :=
        fun hnot => List.mem_filter.mpr ⟨hy, by simpa using hnot⟩
      rcases List.append_eq_append_iff.mp h with ⟨mid, rfl, htail⟩ | ⟨mid, hsplit, htail⟩
      · by_cases hready : y ∈ n.ready waiting
        · exact List.mem_append_left _ hready
        · exact List.mem_append_right _ (ih htail (hlater hready))
      · cases mid with
        | nil =>
          -- `x` opens the second round, so nothing that waits with it leads to it
          rw [List.append_nil] at hsplit
          by_cases hready : y ∈ n.ready waiting
          · rwa [← hsplit]
          · rw [List.nil_append] at htail
            exact absurd (ih (show _ = [] ++ x :: rest from htail.symm) (hlater hready))
              List.not_mem_nil
        | cons z mid =>
          cases htail
          exact absurd (hsplit ▸ List.mem_append_right _ List.mem_cons_self) hround

/-- **The layers are an order.** -/
theorem isOrder_of_layers {layers : List (List TaskId)} (h : n.layers = .ok layers) :
    n.IsOrder layers.flatten := by
  rw [Network.layers] at h
  split at h
  · next hblocked =>
    cases h
    constructor
    · have := n.perm_peel n.nodes.length n.nodes
      rw [blocked, List.isEmpty_iff] at hblocked
      rwa [hblocked, List.append_nil] at this
    · exact fun done x rest hsplit y hy hlead => earlier_peel _ hsplit hy hlead
  · cases h

/-! ## Induction along the edges -/

/-- What holds of a task as soon as it holds of everything that leads to it, holds of all. -/
theorem IsOrder.induction (h : n.IsOrder order)
    {P : TaskId → Prop} (hstep : ∀ x ∈ n.nodes, (∀ y ∈ n.nodes, n.Leads y x → P y) → P x) :
    ∀ x ∈ n.nodes, P x := by
  have hprefix : ∀ done rest, order = done ++ rest → ∀ x ∈ done, P x := by
    intro done
    induction done using List.reverseRecOn with
    | nil => exact fun _ _ x hx => absurd hx List.not_mem_nil
    | append_singleton done z ih =>
      intro rest hsplit x hx
      rw [List.append_assoc, List.singleton_append] at hsplit
      have hdone := ih (z :: rest) hsplit
      rcases List.mem_append.mp hx with hx | hx
      · exact hdone x hx
      · rw [List.mem_singleton.mp hx]
        have hz : z ∈ n.nodes := h.perm.subset (hsplit ▸ List.mem_append_right _ List.mem_cons_self)
        exact hstep z hz fun y hy hlead => hdone y (h.earlier done z rest hsplit y hy hlead)
  intro x hx
  exact hprefix order [] (List.append_nil order).symm x (h.perm.symm.subset hx)

/-! ## What is left -/

/-- The waiting tasks without those of the next round. -/
def later (n : Network) (waiting : List TaskId) : List TaskId :=
  waiting.filter fun id => !(n.ready waiting).contains id

/-- A task waits on when something that waits leads to it. -/
theorem mem_later : x ∈ n.later waiting ↔ x ∈ waiting ∧ ∃ y ∈ waiting, n.Leads y x := by
  rw [later, List.mem_filter]
  simp only [Bool.not_eq_true', List.contains_eq_mem, decide_eq_false_iff_not, mem_ready]
  refine and_congr_right fun hx => ?_
  simp [hx]

/-- One round peels off what is ready and goes on with the rest, or stops when nothing is. -/
theorem peel_succ (k : Nat) (waiting : List TaskId) :
    n.peel (k + 1) waiting =
      if (n.ready waiting).isEmpty then ([], waiting)
      else
        (n.ready waiting :: (n.peel k (n.later waiting)).1, (n.peel k (n.later waiting)).2) := rfl

/-- A round that peels something leaves less. -/
theorem length_later_lt (h : (n.ready waiting).isEmpty = false) :
    (n.later waiting).length < waiting.length := by
  obtain ⟨x, hx⟩ := List.isEmpty_eq_false_iff_exists_mem.mp h
  refine List.length_filter_lt_length_iff_exists.mpr ⟨x, (mem_ready.mp hx).1, ?_⟩
  simpa using hx

/-- Rounds are made until none is ready. -/
theorem ready_left (hk : waiting.length ≤ k) : n.ready (n.peel k waiting).2 = [] := by
  induction k generalizing waiting with
  | zero =>
    rw [List.eq_nil_of_length_eq_zero (Nat.le_zero.mp hk)]
    rfl
  | succ k ih =>
    rw [peel_succ]
    split
    · next hnone => exact List.isEmpty_iff.mp hnone
    · next hsome =>
      have hlt := n.length_later_lt (Bool.eq_false_iff.mpr hsome)
      exact ih (by omega)

/-- **If each of some tasks waits for another of them, each lies behind a cycle.** -/
theorem behind_of_ready_eq_nil (h : n.ready waiting = []) (hx : x ∈ waiting) : n.Behind x := by
  by_contra hnot
  -- among the waiting tasks that lead to `x`, edges are a strict order, which has a first task
  let r : TaskId → TaskId → Prop := fun y z =>
    Relation.TransGen n.Leads y z ∧ Relation.ReflTransGen n.Leads z x
  have horder : IsStrictOrder TaskId r :=
    { irrefl := fun y hy => hnot ⟨y, hy⟩
      trans := fun _ _ _ hyz hzw => ⟨hyz.1.trans hzw.1, hzw.2⟩ }
  have hfinite : {y | y ∈ waiting ∧ Relation.ReflTransGen n.Leads y x}.Finite :=
    waiting.finite_toSet.subset fun y hy => hy.1
  obtain ⟨⟨y, hy, hyx⟩, -, hfirst⟩ :=
    (hfinite.wellFoundedOn (r := r)).has_min Set.univ ⟨⟨x, hx, .refl⟩, trivial⟩
  have hwaits : ¬ y ∈ n.ready waiting := by
    rw [h]
    exact List.not_mem_nil
  have hwaits' : ∃ z ∈ waiting, n.Leads z y := by
    by_contra hnone
    exact hwaits (mem_ready.mpr ⟨hy, fun z hz hlead => hnone ⟨z, hz, hlead⟩⟩)
  obtain ⟨z, hz, hlead⟩ := hwaits'
  exact hfirst ⟨z, hz, .head hlead hyx⟩ trivial ⟨.single hlead, hyx⟩

/-- What no round takes lies behind a cycle. -/
theorem behind_of_mem_blocked (hx : x ∈ n.blocked) : n.Behind x :=
  behind_of_ready_eq_nil (ready_left le_rfl) hx

/-! ## Networks without cycles -/

/-- **A network without cycles has layers.** -/
theorem exists_layers (h : n.Acyclic) : ∃ layers, n.layers = .ok layers := by
  have hblocked : n.blocked = [] := by
    rw [List.eq_nil_iff_forall_not_mem]
    intro x hx
    obtain ⟨y, hcycle, -⟩ := behind_of_mem_blocked hx
    exact h y hcycle
  exact ⟨n.rounds, by rw [Network.layers, hblocked]; rfl⟩

/-- A network that has an order, with edges between its tasks only, has no cycle. -/
theorem IsOrder.acyclic (h : n.IsOrder order)
    (hedges : ∀ e ∈ n.edges, e.source ∈ n.nodes ∧ e.target ∈ n.nodes) : n.Acyclic := by
  have hmem : ∀ {x y}, n.Leads x y → x ∈ n.nodes ∧ y ∈ n.nodes := by
    rintro x y ⟨e, he, rfl, rfl⟩
    exact hedges e he
  have hacc : ∀ x ∈ n.nodes, Acc n.Leads x := by
    refine h.induction fun x _ ih => ?_
    exact Acc.intro x fun y hlead => ih y (hmem hlead).1 hlead
  intro x hx
  obtain ⟨y, -, hlead⟩ := Relation.TransGen.tail'_iff.mp hx
  have hx' := (hacc x (hmem hlead).2).transGen
  induction hx' with
  | intro x _ ih => exact ih x hx hx hlead

end Workplan.Network
