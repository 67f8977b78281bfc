import Mathlib.Data.Finset.Card
import Workplan.Proofs.Flat

/-!
# Cycles within reach

The dependencies that some tasks reach are laid out by distance, unless the waves do not come to an
end.  This is so just when a cycle is reached: more links in a row than there are dependencies go
over some task twice.

- `Project.upstream`: the dependencies that bound a task, directly or not.
- `Project.Chain`: so many dependencies in a row lead from one of the tasks to a task.
- `Project.waves_error_iff`: waves run out of steps over a chain that is too long.
- `Project.CycleFrom`: a cycle within reach of some tasks.
- `Project.Chain.length_le`: how long a chain is that meets no cycle.
- `Project.reach_error_iff`: what some tasks reach is refused for a cycle within their reach, only.
- `Project.exists_of_reach_error`: the dependency that is named then comes from such a cycle.
-/

namespace Workplan.Project

open Relation

variable {p : Project} {sources : List TaskId} {d : Dependency} {x y : TaskId} {m n k : Nat}

/-! ## What bounds a task -/

open Classical in
/-- The dependencies that bound a task, directly or not. -/
noncomputable def upstream (p : Project) (x : TaskId) : Finset Dependency :=
  p.dependencies.toFinset.filter fun d => ReflTransGen p.WaitsFor x d.dependant

theorem mem_upstream :
    d ∈ p.upstream x ↔ d ∈ p.dependencies ∧ ReflTransGen p.WaitsFor x d.dependant := by
  simp [upstream]

theorem card_upstream_le : (p.upstream x).card ≤ p.dependencies.length := by
  classical
  exact (Finset.card_filter_le _ _).trans (List.toFinset_card_le _)

/-- Outside cycles there is less upstream of what a task waits for. -/
theorem card_upstream_lt (hwait : p.WaitsFor x y) (hacyclic : ¬ TransGen p.WaitsFor y y) :
    (p.upstream y).card < (p.upstream x).card := by
  obtain ⟨d, hd, rfl, rfl⟩ := hwait
  have hstep : p.WaitsFor d.dependant d.dependee := ⟨d, hd, rfl, rfl⟩
  have hsub : p.upstream d.dependee ⊆ p.upstream d.dependant := by
    intro e he
    obtain ⟨he, hbound⟩ := mem_upstream.mp he
    exact mem_upstream.mpr ⟨he, .head hstep hbound⟩
  -- the link itself is not upstream of the task waited for
  have hnew : d ∉ p.upstream d.dependee :=
    fun hmem => hacyclic (TransGen.tail' (mem_upstream.mp hmem).2 hstep)
  exact Finset.card_lt_card
    ((Finset.ssubset_iff_of_subset hsub).mpr ⟨d, mem_upstream.mpr ⟨hd, .refl⟩, hnew⟩)

/-! ## Chains -/

/-- A row of `m` dependencies leads from one of the tasks to a task. -/
inductive Chain (p : Project) (sources : List TaskId) : (m : Nat) → TaskId → Prop
  | source {x : TaskId} (hx : x ∈ sources) : Chain p sources 0 x
  | link {m : Nat} {x y : TaskId} (h : Chain p sources m y) (hwait : p.WaitsFor x y) :
    Chain p sources (m + 1) x

/-- The task is on a cycle, and one of the given tasks leads to it. -/
def CycleFrom (p : Project) (sources : List TaskId) (y : TaskId) : Prop :=
  (∃ x ∈ sources, ReflTransGen p.WaitsFor y x) ∧ TransGen p.WaitsFor y y

namespace Chain

/-- The end of a chain waits for one of the tasks where it begins. -/
theorem exists_source (h : p.Chain sources m x) : ∃ y ∈ sources, ReflTransGen p.WaitsFor x y := by
  induction h with
  | source hx => exact ⟨_, hx, .refl⟩
  | link _ hwait ih =>
    obtain ⟨y, hy, hrest⟩ := ih
    exact ⟨y, hy, .head hwait hrest⟩

theorem shorten (h : p.Chain sources m x) (hk : k ≤ m) : ∃ y, p.Chain sources k y := by
  induction h with
  | source hx =>
    rw [Nat.le_zero.mp hk]
    exact ⟨_, .source hx⟩
  | link h hwait ih =>
    rcases Nat.le_succ_iff.mp hk with hk | rfl
    · exact ih hk
    · exact ⟨_, .link h hwait⟩

theorem exists_of_transGen (h : p.Chain sources m x) (hwait : TransGen p.WaitsFor y x) :
    ∃ k, m < k ∧ p.Chain sources k y := by
  induction hwait using TransGen.head_induction_on with
  | single hwait => exact ⟨m + 1, Nat.lt_succ_self m, .link h hwait⟩
  | head hwait _ ih =>
    obtain ⟨k, hk, hchain⟩ := ih
    exact ⟨k + 1, Nat.lt_succ_of_lt hk, .link hchain hwait⟩

/-- Around a cycle a chain gets as long as one likes. -/
theorem exists_longer (h : p.Chain sources m x) (hcycle : TransGen p.WaitsFor x x) (n : Nat) :
    ∃ k, n ≤ k ∧ p.Chain sources k x := by
  induction n with
  | zero => exact ⟨m, Nat.zero_le m, h⟩
  | succ n ih =>
    obtain ⟨k, hk, hchain⟩ := ih
    obtain ⟨l, hl, hchain⟩ := hchain.exists_of_transGen hcycle
    exact ⟨l, Nat.lt_of_le_of_lt hk hl, hchain⟩

/-- **A chain that meets no cycle is not longer than there are dependencies upstream of its end**,
as there are more and more of them. -/
theorem length_le (h : p.Chain sources m x)
    (hacyclic : ∀ y, p.CycleFrom sources y → ¬ ReflTransGen p.WaitsFor x y) :
    m ≤ (p.upstream x).card := by
  induction h with
  | source => exact Nat.zero_le _
  | link h hwait ih =>
    have hlower := ih fun y hy hreached => hacyclic y hy (.head hwait hreached)
    have hend := fun hcycle => hacyclic _ ⟨h.exists_source, hcycle⟩ (.single hwait)
    exact Nat.lt_of_le_of_lt hlower (card_upstream_lt hwait hend)

end Chain

theorem exists_chain_of_reflTransGen (hy : y ∈ sources) (h : ReflTransGen p.WaitsFor x y) :
    ∃ m, p.Chain sources m x := by
  rcases reflTransGen_iff_eq_or_transGen.mp h with rfl | h
  · exact ⟨0, .source hy⟩
  · obtain ⟨k, -, hchain⟩ := (Chain.source hy).exists_of_transGen h
    exact ⟨k, hchain⟩

/-! ## Waves -/

/-- What the dependants of the first wave lead to is one dependency farther from the sources. -/
theorem chain_dependants :
    p.Chain ((p.leaving sources).map Dependency.dependant) m x ↔ p.Chain sources (m + 1) x := by
  constructor
  · intro h
    induction h with
    | source hx =>
      obtain ⟨d, hd, rfl⟩ := List.mem_map.mp hx
      obtain ⟨hd, hsource⟩ := mem_leaving.mp hd
      exact .link (.source hsource) ⟨d, hd, rfl, rfl⟩
    | link _ hwait ih => exact .link ih hwait
  · intro h
    induction m generalizing x with
    | zero =>
      obtain _ | ⟨h, d, hd, rfl, rfl⟩ := h
      cases h with
      | source hx => exact .source (List.mem_map_of_mem (mem_leaving.mpr ⟨hd, hx⟩))
    | succ m ih =>
      cases h with
      | link h hwait => exact .link (ih h) hwait

/-- Without a dependency that leaves one of the tasks there is no chain. -/
theorem not_chain_of_leaving_eq_nil (hnil : p.leaving sources = []) :
    ¬ p.Chain sources (m + 1) x := by
  intro hchain
  obtain ⟨y, hfirst⟩ := (chain_dependants.mpr hchain).shorten (Nat.zero_le m)
  rw [hnil] at hfirst
  cases hfirst with
  | source hy => cases hy

/-- **Waves run out of steps just when a chain is longer than they.** -/
theorem waves_error_iff : (∃ cycle, p.waves n (p.leaving sources) = .error cycle) ↔
    ∃ x, p.Chain sources (n + 1) x := by
  have hnone : ∀ {m sources}, p.leaving sources = [] → ¬ ∃ x, p.Chain sources (m + 1) x :=
    fun hnil ⟨_, hchain⟩ => not_chain_of_leaving_eq_nil hnil hchain
  induction n generalizing sources with
  | zero =>
    cases hwave : p.leaving sources with
    | nil => exact iff_of_false (by simp [waves]) (hnone hwave)
    | cons d wave =>
      have hd : d ∈ p.leaving sources := hwave ▸ List.mem_cons_self
      obtain ⟨hd, hsource⟩ := mem_leaving.mp hd
      exact iff_of_true ⟨_, rfl⟩ ⟨d.dependant, .link (.source hsource) ⟨d, hd, rfl, rfl⟩⟩
  | succ n ih =>
    cases hwave : p.leaving sources with
    | nil => exact iff_of_false (by simp [waves]) (hnone hwave)
    | cons d wave =>
      rw [Project.waves, ← hwave]
      · simp only [map_eq_error_iff]
        exact ih.trans (exists_congr fun x => chain_dependants)
      · exact List.cons_ne_nil d wave

/-- What is named when the waves run out of steps is the first dependency of the next one. -/
theorem exists_of_waves_error {cycle : Cycle}
    (h : p.waves n (p.leaving sources) = .error cycle) :
    ∃ d ∈ p.dependencies, cycle = ⟨[d.dependee, d.dependant]⟩ ∧ p.Chain sources n d.dependee := by
  induction n generalizing sources with
  | zero =>
    rcases hwave : p.leaving sources with _ | ⟨d, wave⟩
    · rw [hwave, waves] at h
      cases h
    · rw [hwave] at h
      cases h
      obtain ⟨hd, hsource⟩ := mem_leaving.mp (hwave ▸ List.mem_cons_self : d ∈ p.leaving sources)
      exact ⟨d, hd, rfl, .source hsource⟩
  | succ n ih =>
    rcases hwave : p.leaving sources with _ | ⟨d, wave⟩
    · rw [hwave, waves] at h
      cases h
    · rw [hwave, waves, ← hwave, map_eq_error_iff] at h
      · obtain ⟨e, he, hcycle, hchain⟩ := ih h
        exact ⟨e, he, hcycle, chain_dependants.mp hchain⟩
      · exact List.cons_ne_nil d wave

/-- **What is named when a cycle is within reach is a dependency that such a cycle leads to**, or
one on the cycle itself. -/
theorem exists_of_reach_error {cycle : Cycle} (h : p.reach sources = .error cycle) :
    ∃ d ∈ p.dependencies, cycle = ⟨[d.dependee, d.dependant]⟩ ∧
      ∃ y, p.CycleFrom sources y ∧ ReflTransGen p.WaitsFor d.dependee y := by
  rw [reach, map_eq_error_iff] at h
  obtain ⟨d, hd, hcycle, hchain⟩ := exists_of_waves_error h
  refine ⟨d, hd, hcycle, ?_⟩
  -- otherwise there are too few dependencies upstream of it for a chain of this length
  by_contra hacyclic
  push Not at hacyclic
  have hends := fun hself => hacyclic d.dependee ⟨hchain.exists_source, hself⟩ .refl
  have hfewer := card_upstream_lt ⟨d, hd, rfl, rfl⟩ hends
  have hlong := hchain.length_le hacyclic
  exact absurd (hfewer.trans_le card_upstream_le) (not_lt.mpr hlong)

/-- **What some tasks reach is refused if and only if a cycle is within their reach.** -/
theorem reach_error_iff : (∃ cycle, p.reach sources = .error cycle) ↔
    ∃ x ∈ sources, ∃ y, ReflTransGen p.WaitsFor y x ∧ TransGen p.WaitsFor y y := by
  constructor
  · rintro ⟨cycle, h⟩
    obtain ⟨-, -, -, y, ⟨⟨x, hx, hreached⟩, hcycle⟩, -⟩ := exists_of_reach_error h
    exact ⟨x, hx, y, hreached, hcycle⟩
  · rintro ⟨x, hx, y, hreached, hcycle⟩
    simp only [reach, map_eq_error_iff]
    rw [waves_error_iff]
    obtain ⟨m, hchain⟩ := exists_chain_of_reflTransGen hx hreached
    obtain ⟨k, hk, hchain⟩ := hchain.exists_longer hcycle (p.dependencies.length + 1)
    exact hchain.shorten hk

end Workplan.Project
