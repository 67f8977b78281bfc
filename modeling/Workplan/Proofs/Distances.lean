import Mathlib.Order.Bounds.Basic
import Mathlib.Order.Lattice.Nat
import Workplan.Proofs.Cycles
import Workplan.Proofs.Worklist

/-!
# How far away dependencies are

Unless a cycle is within reach, some tasks reach each dependency over rows of dependencies of
bounded length, and its distance is the length of the longest row.  Only the tasks themselves
matter for this, not their order, nor how often they are given.

- `Project.Trail`: a row of dependencies from one of the tasks to a dependency.
- `Project.exists_known`: the distance of a dependency is the length of the longest row to it.
- `Project.DistancesFrom`: all dependencies that are reached, by distance.
- `Project.distances_of_reach`: what exploring from some tasks gives.
-/

namespace Workplan.Project

open Relation

variable {p : Project} {sources sources' : List TaskId} {d : Dependency} {id : DependencyId}
  {i k m n : Nat} {known : DependencyId → Option Nat} {ids : List DependencyId}
  {wave : List Dependency} {waves : List (List Dependency)} {reach : Reach}

/-! ## Rows of dependencies -/

/-- A row of so many dependencies begins with one that leaves one of the tasks, and ends with the
given one. -/
inductive Trail (p : Project) (sources : List TaskId) : Nat → Dependency → Prop
  | first {d : Dependency} (hd : d ∈ p.dependencies) (hsource : d.dependee ∈ sources) :
    Trail p sources 1 d
  | next {n : Nat} {d e : Dependency} (h : Trail p sources n d) (he : e ∈ p.dependencies)
    (hlink : e.dependee = d.dependant) : Trail p sources (n + 1) e

theorem Trail.mono (h : p.Trail sources n d) (hsub : ∀ x ∈ sources, x ∈ sources') :
    p.Trail sources' n d := by
  induction h with
  | first hd hsource => exact .first hd (hsub _ hsource)
  | next _ he hlink ih => exact .next ih he hlink

/-- A row to a dependency is a chain to its dependee, with the dependency added. -/
theorem trail_iff :
    p.Trail sources (n + 1) d ↔ d ∈ p.dependencies ∧ p.Chain sources n d.dependee := by
  constructor
  · intro h
    generalize hlength : n + 1 = l at h
    induction h generalizing n with
    | first hd hsource =>
      cases hlength
      exact ⟨hd, .source hsource⟩
    | @next l d e h he hlink ih =>
      cases hlength
      refine ⟨he, ?_⟩
      cases h with
      | first hd hsource => exact hlink ▸ .link (.source hsource) ⟨_, hd, rfl, rfl⟩
      | next =>
        obtain ⟨hd, hchain⟩ := ih rfl
        exact hlink ▸ .link hchain ⟨_, hd, rfl, rfl⟩
  · rintro ⟨hd, hchain⟩
    generalize hx : d.dependee = x at hchain
    induction hchain generalizing d with
    | source hsource => exact .first hd (hx ▸ hsource)
    | link _ hwait ih =>
      obtain ⟨e, he, heq, rfl⟩ := hwait
      exact .next (ih he heq) hd hx

theorem Trail.pos (h : p.Trail sources n d) : 0 < n := by
  cases h <;> exact Nat.succ_pos _

/-- A dependency is reached over some row just if one of the tasks leads to its dependee. -/
theorem exists_trail_iff : (∃ n, p.Trail sources n d) ↔
    d ∈ p.dependencies ∧ ∃ x ∈ sources, ReflTransGen p.WaitsFor d.dependee x := by
  constructor
  · rintro ⟨n, h⟩
    obtain ⟨m, rfl⟩ := Nat.exists_eq_succ_of_ne_zero h.pos.ne'
    obtain ⟨hd, hchain⟩ := trail_iff.mp h
    exact ⟨hd, hchain.exists_source⟩
  · rintro ⟨hd, x, hx, hreached⟩
    obtain ⟨m, hchain⟩ := exists_chain_of_reflTransGen hx hreached
    exact ⟨m + 1, trail_iff.mpr ⟨hd, hchain⟩⟩

/-! ## Waves and rows -/

/-- **A dependency is in the waves at the lengths of the rows to it.** -/
theorem mem_wave_iff (h : p.waves n (p.leaving sources) = .ok waves) :
    (∃ wave, waves[i]? = some wave ∧ d ∈ wave) ↔ p.Trail sources (i + 1) d := by
  induction waves generalizing n sources i with
  | nil =>
    have hnil : p.leaving sources = [] := by
      rcases cases_of_waves h with ⟨hnil, -⟩ | ⟨m, later, -, heq, -⟩
      · exact hnil
      · cases heq
    refine iff_of_false (fun ⟨wave, hwave, _⟩ => by cases hwave) fun htrail => ?_
    obtain ⟨hd, hchain⟩ := trail_iff.mp htrail
    exact not_chain_of_leaving_eq_nil hnil (.link hchain ⟨d, hd, rfl, rfl⟩)
  | cons wave later ih =>
    obtain ⟨rfl, m, -, hlater⟩ := exists_of_waves_cons h
    cases i with
    | zero =>
      rw [trail_iff]
      constructor
      · rintro ⟨wave, hwave, hd⟩
        cases hwave
        obtain ⟨hd, hsource⟩ := mem_leaving.mp hd
        exact ⟨hd, .source hsource⟩
      · rintro ⟨hd, hchain⟩
        cases hchain with
        | source hsource => exact ⟨_, rfl, mem_leaving.mpr ⟨hd, hsource⟩⟩
    | succ i =>
      rw [List.getElem?_cons_succ, ih hlater, trail_iff, trail_iff, chain_dependants]

/-- The longest row to a dependency is that of the last wave it is in. -/
theorem isGreatest_trail_iff (h : p.waves n (p.leaving sources) = .ok waves) :
    IsGreatest {n | p.Trail sources n d} (i + 1) ↔
      (∃ wave, waves[i]? = some wave ∧ d ∈ wave) ∧ ∀ wave ∈ waves.drop (i + 1), d ∉ wave := by
  refine and_congr (mem_wave_iff h).symm ⟨fun hupper wave hdrop hd => ?_, fun hlast m htrail => ?_⟩
  · obtain ⟨j, hwave⟩ := List.mem_iff_getElem?.mp hdrop
    rw [List.getElem?_drop] at hwave
    have := hupper ((mem_wave_iff h).mp ⟨wave, hwave, hd⟩)
    omega
  · by_contra hlong
    obtain ⟨j, rfl⟩ := Nat.exists_eq_add_of_lt (not_le.mp hlong)
    obtain ⟨wave, hwave, hd⟩ := (mem_wave_iff h).mpr htrail
    have hdrop : wave ∈ waves.drop (i + 1) := by
      refine List.mem_iff_getElem?.mpr ⟨j, ?_⟩
      rw [List.getElem?_drop]
      exact hwave
    exact hlast wave hdrop hd

/-! ## Known distances -/

/-- What is known of a dependency in the end is the last wave in which it is. -/
theorem marked_eq_iff (hknown : ∀ id j, known id = some j → j < k) :
    marked k waves known id = some (k + i) ↔
      (∃ wave, waves[i]? = some wave ∧ id ∈ wave.map Dependency.id) ∧
        ∀ wave ∈ waves.drop (i + 1), id ∉ wave.map Dependency.id := by
  induction waves generalizing k i known with
  | nil =>
    refine iff_of_false (fun heq => ?_) fun ⟨⟨_, hwave, _⟩, _⟩ => by cases hwave
    exact absurd (hknown id _ heq) (Nat.not_lt.mpr (Nat.le_add_right k i))
  | cons wave later ih =>
    cases i with
    | zero =>
      rw [marked, marked_eq_some_iff later (Nat.lt_succ_self (k + 0)), mark, and_comm]
      refine and_congr_left' ?_
      by_cases hid : id ∈ wave.map Dependency.id
      · exact iff_of_true (if_pos hid) ⟨wave, rfl, hid⟩
      · rw [if_neg hid]
        refine iff_of_false (fun heq => lt_irrefl k (hknown id k heq)) ?_
        rintro ⟨_, hwave, hmem⟩
        cases hwave
        exact hid hmem
    | succ i =>
      rw [marked, ← Nat.add_assoc, Nat.add_right_comm, ih (lt_succ_of_mark hknown),
        List.getElem?_cons_succ, List.drop_succ_cons]

/-- **The distance of a dependency is the length of the longest row to it.** -/
theorem exists_known (hp : p.Sound) (h : p.reach sources = .ok reach) :
    ∃ known, reach = p.byDistance known ∧
      ∀ d ∈ p.dependencies, ∀ k, known d.id = some k ↔ IsGreatest {n | p.Trail sources n d} k := by
  obtain ⟨waves, hwaves, rfl⟩ := exists_of_map_eq_ok h
  have hlive := mem_of_waves hwaves fun d hd => (mem_leaving.mp hd).1
  refine ⟨marked 1 waves fun _ => none,
    (byDistance_marked hp hlive (length_le_of_waves hwaves)).symm, fun d hd k => ?_⟩
  cases k with
  | zero =>
    refine iff_of_false (fun heq => ?_) fun hgreatest => lt_irrefl 0 hgreatest.1.pos
    exact absurd ((marked_eq_some_iff waves Nat.one_pos).mp heq).2 nofun
  | succ i =>
    have hmem : ∀ wave ∈ waves, d.id ∈ wave.map Dependency.id ↔ d ∈ wave :=
      fun wave hwave => mem_map_id_iff hp.dependencies_nodup (hlive wave hwave) hd
    rw [Nat.add_comm i 1, marked_eq_iff lt_one_of_none, Nat.add_comm 1 i,
      isGreatest_trail_iff hwaves]
    refine and_congr ?_ ?_
    · exact exists_congr fun wave => and_congr_right fun hwave =>
        hmem wave (List.mem_of_getElem? hwave)
    · exact forall₂_congr fun wave hwave => not_congr (hmem wave (List.mem_of_mem_drop hwave))

/-! ## By distance -/

theorem found?_eq_some_iff : p.found? known k = some (m, ids) ↔
    m = k ∧ ids ≠ [] ∧
      ids = (p.dependencies.filter fun d => known d.id = some k).map Dependency.id := by
  rw [found?]
  split
  · next hnone =>
    rw [List.isEmpty_iff.mp hnone]
    constructor
    · intro hfound
      cases hfound
    · rintro ⟨-, hne, hnil⟩
      exact absurd hnil hne
  · next hsome =>
    rw [Option.some_inj, Prod.mk.injEq]
    constructor
    · rintro ⟨rfl, rfl⟩
      exact ⟨rfl, fun hnil => hsome (List.isEmpty_iff.mpr (List.map_eq_nil_iff.mp hnil)), rfl⟩
    · rintro ⟨rfl, -, rfl⟩
      exact ⟨rfl, rfl⟩

/-- What is listed depends only on what is known of the dependencies. -/
theorem byDistance_congr {known' : DependencyId → Option Nat}
    (h : ∀ d ∈ p.dependencies, ∀ k, known d.id = some k ↔ known' d.id = some k) :
    p.byDistance known = p.byDistance known' := by
  have hentry : p.found? known = p.found? known' := by
    funext k
    have hfilter : (p.dependencies.filter fun d => known d.id = some k) =
        p.dependencies.filter fun d => known' d.id = some k :=
      List.filter_congr fun d hd => decide_eq_decide.mpr (h d hd k)
    rw [found?, found?, hfilter]
  rw [byDistance, byDistance, hentry]

/-- The dependencies that some tasks reach, at the lengths of the longest rows to them: distances
and numbers ascend, and each dependency is there once. -/
structure DistancesFrom (p : Project) (sources : List TaskId) (reach : Reach) : Prop where
  mem_iff : ∀ id k, (∃ ids, (k, ids) ∈ reach ∧ id ∈ ids) ↔
    ∃ d ∈ p.dependencies, d.id = id ∧ IsGreatest {n | p.Trail sources n d} k
  reached_iff : ∀ id, id ∈ reach.flatMap Prod.snd ↔
    ∃ d ∈ p.dependencies, d.id = id ∧ ∃ x ∈ sources, ReflTransGen p.WaitsFor d.dependee x
  once : (reach.flatMap Prod.snd).Nodup
  distances_ascending : (reach.map Prod.fst).Pairwise (· < ·)
  numbers_ascending : ∀ entry ∈ reach, entry.2.Pairwise fun x y => x.number < y.number
  nonempty : ∀ entry ∈ reach, entry.2 ≠ []

theorem mem_byDistance_iff : (k, ids) ∈ p.byDistance known ↔
    (1 ≤ k ∧ k ≤ p.dependencies.length) ∧ ids ≠ [] ∧
      ids = (p.dependencies.filter fun d => known d.id = some k).map Dependency.id := by
  rw [byDistance, List.mem_filterMap]
  simp only [List.mem_range'_1, found?_eq_some_iff]
  constructor
  · rintro ⟨k, ⟨hfirst, hlast⟩, rfl, hentry⟩
    exact ⟨⟨hfirst, by omega⟩, hentry⟩
  · rintro ⟨⟨hfirst, hlast⟩, hentry⟩
    exact ⟨k, ⟨hfirst, by omega⟩, rfl, hentry⟩

theorem pairwise_byDistance : (p.byDistance known).Pairwise fun a b =>
    a.1 < b.1 ∧ List.Disjoint a.2 b.2 := by
  refine List.Pairwise.filterMap _ ?_ List.pairwise_lt_range'
  rintro k m hlt ⟨k, ids⟩ hk ⟨m, ids'⟩ hm
  obtain ⟨rfl, -, rfl⟩ := found?_eq_some_iff.mp hk
  obtain ⟨rfl, -, rfl⟩ := found?_eq_some_iff.mp hm
  refine ⟨hlt, fun id hid hid' => ?_⟩
  obtain ⟨d, hd, rfl⟩ := List.mem_map.mp hid
  obtain ⟨e, he, heq⟩ := List.mem_map.mp hid'
  have hk := of_decide_eq_true (List.mem_filter.mp hd).2
  have hm := of_decide_eq_true (List.mem_filter.mp he).2
  rw [heq] at hm
  exact hlt.ne (Option.some.inj (hk.symm.trans hm))

/-- No row is longer than there are waves, so there is a longest one. -/
theorem exists_longest (h : p.reach sources = .ok reach) (htrail : ∃ n, p.Trail sources n d) :
    ∃ k ≤ p.dependencies.length, IsGreatest {n | p.Trail sources n d} k := by
  obtain ⟨waves, hwaves, -⟩ := exists_of_map_eq_ok h
  have hbound : ∀ n, p.Trail sources n d → n ≤ p.dependencies.length := by
    intro n htrail
    obtain ⟨i, rfl⟩ := Nat.exists_eq_succ_of_ne_zero htrail.pos.ne'
    obtain ⟨wave, hwave, -⟩ := (mem_wave_iff hwaves).mpr htrail
    exact (List.getElem?_eq_some_iff.mp hwave).1.trans_le (length_le_of_waves hwaves)
  have hbounded : BddAbove {n | p.Trail sources n d} := ⟨_, hbound⟩
  have hlongest := Nat.sSup_mem htrail hbounded
  exact ⟨_, hbound _ hlongest, hlongest, fun n hn => le_csSup hbounded hn⟩

/-- **What is found from some tasks are the dependencies that they reach**, by distance. -/
theorem distancesFrom_of_reach (hp : p.Reachable) (h : p.reach sources = .ok reach) :
    p.DistancesFrom sources reach := by
  obtain ⟨known, rfl, hknown⟩ := exists_known hp.sound h
  have hentry : ∀ id k, (∃ ids, (k, ids) ∈ p.byDistance known ∧ id ∈ ids) ↔
      ∃ d ∈ p.dependencies, d.id = id ∧ IsGreatest {n | p.Trail sources n d} k := by
    intro id k
    constructor
    · rintro ⟨ids, hmem, hid⟩
      obtain ⟨-, -, rfl⟩ := mem_byDistance_iff.mp hmem
      obtain ⟨d, hd, rfl⟩ := List.mem_map.mp hid
      obtain ⟨hd, hk⟩ := List.mem_filter.mp hd
      exact ⟨d, hd, rfl, (hknown d hd k).mp (of_decide_eq_true hk)⟩
    · rintro ⟨d, hd, rfl, hlongest⟩
      obtain ⟨l, hl, hlongest'⟩ := exists_longest h ⟨k, hlongest.1⟩
      have hid : d.id ∈ (p.dependencies.filter fun d => known d.id = some k).map Dependency.id :=
        List.mem_map_of_mem (List.mem_filter.mpr
          ⟨hd, decide_eq_true ((hknown d hd k).mpr hlongest)⟩)
      refine ⟨_, mem_byDistance_iff.mpr ⟨⟨hlongest.1.pos, ?_⟩, List.ne_nil_of_mem hid, rfl⟩, hid⟩
      exact hlongest.unique hlongest' ▸ hl
  -- within one distance the numbers ascend, as they do in the project
  have hnumbers : ∀ entry ∈ p.byDistance known,
      entry.2.Pairwise fun x y => x.number < y.number := by
    rintro ⟨k, ids⟩ hmem
    obtain ⟨-, -, rfl⟩ := mem_byDistance_iff.mp hmem
    exact hp.orderly.links_ascending.sublist (List.filter_sublist.map _)
  have hpairwise := @pairwise_byDistance p known
  refine ⟨hentry, fun id => ?_, ?_, ?_, hnumbers, ?_⟩
  · rw [List.mem_flatMap]
    constructor
    · rintro ⟨⟨k, ids⟩, hmem, hid⟩
      obtain ⟨d, hd, rfl, hlongest⟩ := (hentry id k).mp ⟨ids, hmem, hid⟩
      exact ⟨d, hd, rfl, (exists_trail_iff.mp ⟨k, hlongest.1⟩).2⟩
    · rintro ⟨d, hd, rfl, hreached⟩
      obtain ⟨k, -, hlongest⟩ := exists_longest h (exists_trail_iff.mpr ⟨hd, hreached⟩)
      obtain ⟨ids, hmem, hid⟩ := (hentry d.id k).mpr ⟨d, hd, rfl, hlongest⟩
      exact ⟨(k, ids), hmem, hid⟩
  · refine List.nodup_flatMap.mpr ⟨fun entry hmem => ?_, hpairwise.imp And.right⟩
    refine (hnumbers entry hmem).imp ?_
    rintro x _ hlt rfl
    exact lt_irrefl _ hlt
  · exact List.pairwise_map.mpr (hpairwise.imp And.left)
  · rintro ⟨k, ids⟩ hmem
    exact (mem_byDistance_iff.mp hmem).2.1

/-! ## The same tasks in another order -/

theorem CycleFrom.mono {y : TaskId} (h : p.CycleFrom sources y)
    (hsub : ∀ x ∈ sources, x ∈ sources') : p.CycleFrom sources' y := by
  obtain ⟨⟨x, hx, hreached⟩, hcycle⟩ := h
  exact ⟨⟨x, hsub x hx, hreached⟩, hcycle⟩

theorem reach_error_iff_cycleFrom :
    (∃ cycle, p.reach sources = .error cycle) ↔ ∃ y, p.CycleFrom sources y := by
  rw [reach_error_iff]
  constructor
  · rintro ⟨x, hx, y, hreached, hcycle⟩
    exact ⟨y, ⟨x, hx, hreached⟩, hcycle⟩
  · rintro ⟨y, ⟨x, hx, hreached⟩, hcycle⟩
    exact ⟨x, hx, y, hreached, hcycle⟩

theorem exists_reach_iff : (∃ reach, p.reach sources = .ok reach) ↔
    ¬ ∃ y, p.CycleFrom sources y := by
  rw [← reach_error_iff_cycleFrom]
  rcases p.reach sources with cycle | reach
  · exact iff_of_false nofun (not_not.mpr ⟨cycle, rfl⟩)
  · exact iff_of_true ⟨reach, rfl⟩ nofun

/-- What is found is told by which tasks are given. -/
theorem reach_of_mem_iff (hp : p.Sound) (hsources : ∀ x, x ∈ sources ↔ x ∈ sources')
    (h : p.reach sources = .ok reach) : p.reach sources' = .ok reach := by
  obtain ⟨reach', h'⟩ : ∃ reach', p.reach sources' = .ok reach' := by
    refine exists_reach_iff.mpr fun ⟨y, hy⟩ => exists_reach_iff.mp ⟨reach, h⟩ ⟨y, ?_⟩
    exact hy.mono fun x => (hsources x).mpr
  obtain ⟨known, rfl, hknown⟩ := exists_known hp h
  obtain ⟨known', rfl, hknown'⟩ := exists_known hp h'
  have htrail : ∀ d n, p.Trail sources n d ↔ p.Trail sources' n d := fun d n =>
    ⟨fun h => h.mono fun x => (hsources x).mp, fun h => h.mono fun x => (hsources x).mpr⟩
  rw [h', byDistance_congr fun d hd k => ?_]
  simp only [hknown d hd, hknown' d hd, htrail]

/-! ## Exploring -/

/-- **Exploring from some tasks comes to an end**, unless a cycle is within reach with all that they
reach, by distance.  If there is one, a dependency that it leads to is named.  The order of the
tasks does not matter, nor how often they are given. -/
theorem distances_of_reach (hp : p.Reachable) (sources : List TaskId) :
    p.explore sources = p.reach sources ∧
    ((∃ reach, p.reach sources = .ok reach) ↔ ¬ ∃ y, p.CycleFrom sources y) ∧
    (∀ reach, p.reach sources = .ok reach → p.DistancesFrom sources reach) ∧
    (∀ cycle, p.reach sources = .error cycle → ∃ d ∈ p.dependencies,
      cycle.tasks = [d.dependee, d.dependant] ∧
        ∃ y, p.CycleFrom sources y ∧ ReflTransGen p.WaitsFor d.dependee y) ∧
    ∀ sources', (∀ x, x ∈ sources' ↔ x ∈ sources) →
      (∀ reach, p.reach sources' = .ok reach ↔ p.reach sources = .ok reach) ∧
      ((∃ cycle, p.reach sources' = .error cycle) ↔ ∃ cycle, p.reach sources = .error cycle) := by
  refine ⟨explore_eq_reach hp.sound sources, exists_reach_iff,
    fun reach h => distancesFrom_of_reach hp h, fun cycle h => ?_, fun sources' hsources => ?_⟩
  · obtain ⟨d, hd, rfl, hcycle⟩ := exists_of_reach_error h
    exact ⟨d, hd, rfl, hcycle⟩
  · have hsame : ∀ x, x ∈ sources ↔ x ∈ sources' := fun x => (hsources x).symm
    refine ⟨fun reach => ⟨reach_of_mem_iff hp.sound hsources, reach_of_mem_iff hp.sound hsame⟩, ?_⟩
    rw [reach_error_iff_cycleFrom, reach_error_iff_cycleFrom]
    exact exists_congr fun y =>
      ⟨fun hy => hy.mono fun x => (hsources x).mp, fun hy => hy.mono fun x => (hsame x).mp⟩

/-- Walls and a roof over a foundation, and a handover.  The well and its pump wait for each
other. -/
def wellPlan : Project :=
  (empty .standard).after [
    .addTask "foundation" (Day.first.advance 4) (.days 1),
    .addTask "walls" (Day.first.advance 4) (.days 1),
    .addTask "roof" (Day.first.advance 4) (.days 1),
    .addMilestone "handover" (Day.first.advance 4),
    .addTask "well" (Day.first.advance 4) (.days 1),
    .addTask "pump" (Day.first.advance 4) (.days 1),
    .addDependency ⟨1⟩ ⟨2⟩ .finishStart .rubber 0,
    .addDependency ⟨2⟩ ⟨3⟩ .finishStart .rubber 0,
    .addDependency ⟨1⟩ ⟨3⟩ .finishStart .rubber 0,
    .addDependency ⟨3⟩ ⟨4⟩ .finishStart .rubber 0,
    .addDependency ⟨5⟩ ⟨6⟩ .startStart .rubber 0,
    .addDependency ⟨6⟩ ⟨5⟩ .startStart .rubber 0,
    .addDependency ⟨6⟩ ⟨4⟩ .finishStart .rubber 0]

/-- The handover is three dependencies away from the foundation, over the walls.  From the well one
does not come to an end. -/
theorem distances_of_reach_wellPlan :
    wellPlan.reach [⟨1⟩, ⟨9⟩, ⟨1⟩, ⟨2⟩] = .ok [(1, [⟨0⟩, ⟨2⟩]), (2, [⟨1⟩]), (3, [⟨3⟩])] ∧
    wellPlan.DistancesFrom [⟨1⟩, ⟨9⟩, ⟨1⟩, ⟨2⟩] [(1, [⟨0⟩, ⟨2⟩]), (2, [⟨1⟩]), (3, [⟨3⟩])] ∧
    wellPlan.reach [⟨2⟩, ⟨9⟩, ⟨1⟩] = .ok [(1, [⟨0⟩, ⟨2⟩]), (2, [⟨1⟩]), (3, [⟨3⟩])] ∧
    wellPlan.reach [⟨5⟩] = .error ⟨[⟨6⟩, ⟨5⟩]⟩ ∧
    ∃ d ∈ wellPlan.dependencies, [⟨6⟩, ⟨5⟩] = [d.dependee, d.dependant] ∧
      ∃ y, wellPlan.CycleFrom [⟨5⟩] y ∧ ReflTransGen wellPlan.WaitsFor d.dependee y := by
  have hp : wellPlan.Reachable := (Reachable.empty _).after _
  have hfound : wellPlan.reach [⟨1⟩, ⟨9⟩, ⟨1⟩, ⟨2⟩] =
      .ok [(1, [⟨0⟩, ⟨2⟩]), (2, [⟨1⟩]), (3, [⟨3⟩])] := by decide +kernel
  have hcycle : wellPlan.reach [⟨5⟩] = .error ⟨[⟨6⟩, ⟨5⟩]⟩ := by decide +kernel
  obtain ⟨-, -, hdistances, -, hsame⟩ := distances_of_reach hp [⟨1⟩, ⟨9⟩, ⟨1⟩, ⟨2⟩]
  obtain ⟨hother, -⟩ := hsame [⟨2⟩, ⟨9⟩, ⟨1⟩] fun x => by
    simp only [List.mem_cons, List.not_mem_nil, or_false]
    tauto
  obtain ⟨-, -, -, hnamed, -⟩ := distances_of_reach hp [⟨5⟩]
  exact ⟨hfound, hdistances _ hfound, (hother _).mpr hfound, hcycle, hnamed _ hcycle⟩

end Workplan.Project
