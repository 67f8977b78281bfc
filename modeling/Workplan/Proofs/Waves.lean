import Mathlib.Data.List.Pairwise
import Workplan.Network.Reach
import Workplan.Proofs.Rows

/-!
# Waves of dependencies

Where the tasks can be numbered so that the numbers rise along the dependencies, the waves that
leave some tasks come to an end.  By distance, the dependencies are in an order in which all
that bound a task come before all that leave it.

- `Project.Rises`: numbers that rise along the dependencies.
- `Project.exists_waves`: then there are no more waves than dependencies.
- `Project.Followed`: what leaves a dependant of one wave is in a later one.
- `Project.IsCascade`: dependencies in an order as above, complete under what leaves a dependant.
- `Project.isCascade_of_reach`: what some tasks reach, by distance, is a cascade.
- `Project.IsSweep`: all dependencies, in an order as above.
- `Project.exists_sweep`: the dependencies by distance are a sweep.
-/

namespace Workplan.Project

variable {p : Project} {rank : TaskId → Nat} {d e : Dependency} {sources : List TaskId}
  {n : Nat} {wave : List Dependency} {waves : List (List Dependency)}

/-- The number of a dependee is below that of its dependant. -/
def Rises (p : Project) (rank : TaskId → Nat) : Prop :=
  ∀ d ∈ p.dependencies, rank d.dependee < rank d.dependant

theorem mem_leaving : d ∈ p.leaving sources ↔ d ∈ p.dependencies ∧ d.dependee ∈ sources := by
  simp only [leaving, outgoing, List.mem_flatMap, List.mem_eraseDups, List.mem_filter,
    decide_eq_true_eq]
  constructor
  · rintro ⟨x, hx, hd, rfl⟩
    exact ⟨hd, hx⟩
  · rintro ⟨hd, hx⟩
    exact ⟨d.dependee, hx, hd, rfl⟩

/-- What is reached is told by the dependencies alone. -/
theorem reach_congr {q : Project} (h : q.dependencies = p.dependencies) : q.reach = p.reach := by
  have hleaving : q.leaving = p.leaving := by
    funext sources
    have houtgoing : q.outgoing = p.outgoing := by
      funext x
      rw [outgoing, outgoing, h]
    rw [leaving, leaving, houtgoing]
  have hwaves : ∀ n wave, q.waves n wave = p.waves n wave := by
    intro n
    induction n with
    | zero =>
      intro wave
      cases wave <;> simp [waves]
    | succ n ih =>
      intro wave
      cases wave with
      | nil => simp [waves]
      | cons d wave => simp only [waves, ih, hleaving]
  have hlast : ∀ waves distance, q.lastOccurrences distance waves =
      p.lastOccurrences distance waves := by
    intro waves
    induction waves with
    | nil => exact fun _ => rfl
    | cons wave later ih =>
      intro distance
      rw [lastOccurrences, lastOccurrences, h, ih]
  funext sources
  rw [reach, reach, h, hleaving, hwaves]
  rw [funext fun waves => hlast waves 1]

/-! ## The waves come to an end -/

/-- The dependencies that leave tasks with higher numbers. -/
def higher (p : Project) (rank : TaskId → Nat) (d : Dependency) : List Dependency :=
  p.dependencies.filter fun e => rank d.dependee < rank e.dependee

theorem mem_higher : e ∈ p.higher rank d ↔
    e ∈ p.dependencies ∧ rank d.dependee < rank e.dependee := by
  simp [higher]

/-- Fewer dependencies rank above a dependency than there are, since it is not above itself. -/
theorem length_higher_lt (hd : d ∈ p.dependencies) :
    (p.higher rank d).length < p.dependencies.length := by
  refine List.length_filter_lt_length_iff_exists.mpr ⟨d, hd, ?_⟩
  simp

/-- The next dependency on a way has fewer ones above it. -/
theorem length_higher_lt_of_follows (hrank : p.Rises rank) (hd : d ∈ p.dependencies)
    (he : e ∈ p.dependencies) (h : e.dependee = d.dependant) :
    (p.higher rank e).length < (p.higher rank d).length := by
  have hlt : rank d.dependee < rank e.dependee := h ▸ hrank d hd
  have hfilter : p.higher rank e =
      (p.higher rank d).filter fun f => rank e.dependee < rank f.dependee := by
    rw [higher, higher, List.filter_filter]
    refine List.filter_congr fun f _ => ?_
    by_cases hf : rank e.dependee < rank f.dependee
    · simp [hf, Nat.lt_trans hlt hf]
    · simp [hf]
  rw [hfilter]
  refine List.length_filter_lt_length_iff_exists.mpr ⟨e, mem_higher.mpr ⟨he, hlt⟩, ?_⟩
  simp

/-- **The waves end**, each dependency having fewer above it than waves are allowed. -/
theorem exists_waves (hrank : p.Rises rank) (hmem : ∀ d ∈ wave, d ∈ p.dependencies)
    (h : ∀ d ∈ wave, (p.higher rank d).length < n) : ∃ waves, p.waves n wave = .ok waves := by
  induction n generalizing wave with
  | zero =>
    cases wave with
    | nil => exact ⟨[], by rw [Project.waves]⟩
    | cons d wave => exact absurd (h d List.mem_cons_self) (Nat.not_lt_zero _)
  | succ n ih =>
    cases wave with
    | nil => exact ⟨[], by rw [Project.waves]⟩
    | cons d wave =>
      have hnext : ∃ later,
          p.waves n (p.leaving ((d :: wave).map Dependency.dependant)) = .ok later := by
        refine ih (fun e he => (mem_leaving.mp he).1) fun e he => ?_
        obtain ⟨he, hsource⟩ := mem_leaving.mp he
        obtain ⟨f, hf, hef⟩ := List.mem_map.mp hsource
        have hfewer := length_higher_lt_of_follows hrank (hmem f hf) he hef.symm
        exact Nat.lt_of_lt_of_le hfewer (Nat.lt_succ_iff.mp (h f hf))
      obtain ⟨later, hlater⟩ := hnext
      refine ⟨(d :: wave) :: later, ?_⟩
      rw [Project.waves, hlater]
      · rfl
      · exact List.cons_ne_nil d wave

/-! ## What leaves a dependant comes later -/

/-- Whatever leaves a dependant of a wave is in a later wave. -/
def Followed (p : Project) : List (List Dependency) → Prop
  | [] => True
  | wave :: later =>
    (∀ e ∈ wave, ∀ d ∈ p.dependencies, d.dependee = e.dependant → ∃ w ∈ later, d ∈ w) ∧
      p.Followed later

/-- Waves that come to an end: there are none, or one and those after it. -/
theorem cases_of_waves (h : p.waves n wave = .ok waves) :
    wave = [] ∧ waves = [] ∨ ∃ m later, n = m + 1 ∧ waves = wave :: later ∧
      p.waves m (p.leaving (wave.map Dependency.dependant)) = .ok later := by
  cases wave with
  | nil =>
    rw [Project.waves] at h
    cases h
    exact .inl ⟨rfl, rfl⟩
  | cons first wave =>
    cases n with
    | zero => cases h
    | succ n =>
      rw [Project.waves] at h
      · obtain ⟨later, hlater, rfl⟩ := exists_of_map_eq_ok h
        exact .inr ⟨n, later, rfl, rfl, hlater⟩
      · exact List.cons_ne_nil first wave

/-- After the first wave come those of the tasks that it leads to. -/
theorem exists_of_waves_cons {first : List Dependency} {later : List (List Dependency)}
    (h : p.waves n wave = .ok (first :: later)) : first = wave ∧ ∃ m, n = m + 1 ∧
      p.waves m (p.leaving (wave.map Dependency.dependant)) = .ok later := by
  rcases cases_of_waves h with ⟨-, hnil⟩ | ⟨m, rest, hm, heq, hlater⟩
  · cases hnil
  · cases heq
    exact ⟨rfl, m, hm, hlater⟩

theorem exists_wave (h : p.waves n wave = .ok waves) (hd : d ∈ wave) : ∃ w ∈ waves, d ∈ w := by
  rcases cases_of_waves h with ⟨rfl, -⟩ | ⟨m, later, -, rfl, -⟩
  · exact absurd hd List.not_mem_nil
  · exact ⟨wave, List.mem_cons_self, hd⟩

/-- When the exploration ends, every wave is followed by the dependencies that leave it. -/
theorem followed_of_waves (h : p.waves n wave = .ok waves) : p.Followed waves := by
  induction waves generalizing n wave with
  | nil => trivial
  | cons first later ih =>
    obtain ⟨rfl, m, -, hlater⟩ := exists_of_waves_cons h
    refine ⟨fun e he d hd hde => ?_, ih hlater⟩
    exact exists_wave hlater (mem_leaving.mpr ⟨hd, List.mem_map.mpr ⟨e, he, hde.symm⟩⟩)

theorem mem_of_waves (h : p.waves n wave = .ok waves) (hmem : ∀ d ∈ wave, d ∈ p.dependencies) :
    ∀ w ∈ waves, ∀ d ∈ w, d ∈ p.dependencies := by
  induction waves generalizing n wave with
  | nil => exact fun _ hw => absurd hw List.not_mem_nil
  | cons first later ih =>
    obtain ⟨rfl, m, -, hlater⟩ := exists_of_waves_cons h
    exact List.forall_mem_cons.mpr ⟨hmem, ih hlater fun d hd => (mem_leaving.mp hd).1⟩

/-- There are no more waves than are allowed. -/
theorem length_le_of_waves (h : p.waves n wave = .ok waves) : waves.length ≤ n := by
  induction waves generalizing n wave with
  | nil => exact Nat.zero_le n
  | cons first later ih =>
    obtain ⟨-, m, rfl, hlater⟩ := exists_of_waves_cons h
    exact Nat.succ_le_succ (ih hlater)

/-- What leaves the dependant of a dependency in a wave stands in a wave too. -/
theorem Followed.exists_wave {w : List Dependency} (h : p.Followed waves) (hw : w ∈ waves)
    (he : e ∈ w) (hd : d ∈ p.dependencies) (hde : d.dependee = e.dependant) :
    ∃ w' ∈ waves, d ∈ w' := by
  induction waves with
  | nil => exact absurd hw List.not_mem_nil
  | cons wave later ih =>
    have hlater : ∃ w' ∈ later, d ∈ w' := by
      rcases List.mem_cons.mp hw with rfl | hw
      · exact h.1 e he d hd hde
      · exact ih h.2 hw
    obtain ⟨w', hw', hdw⟩ := hlater
    exact ⟨w', List.mem_cons_of_mem wave hw', hdw⟩

/-! ## Dependencies by distance -/

/-- The dependencies of each wave that occur in no later one. -/
def finals (p : Project) : List (List Dependency) → List Dependency
  | [] => []
  | wave :: later =>
    (p.dependencies.filter fun d => wave.contains d && !later.any fun w => w.contains d) ++
      p.finals later

/-- The last occurrences, wave by wave, are the numbers of the dependencies reached. -/
theorem flatMap_lastOccurrences (distance : Nat) (waves : List (List Dependency)) :
    (p.lastOccurrences distance waves).flatMap Prod.snd = (p.finals waves).map Dependency.id := by
  induction waves generalizing distance with
  | nil => rfl
  | cons wave later ih =>
    rw [lastOccurrences, finals, List.map_append, ← ih (distance + 1)]
    split
    · next hnone =>
      rw [List.isEmpty_iff.mp hnone]
      rfl
    · rfl

/-- A dependency is listed with a wave when it occurs there and in no later one. -/
theorem mem_final {later : List (List Dependency)} :
    d ∈ (p.dependencies.filter fun d => wave.contains d && !later.any fun w => w.contains d) ↔
      d ∈ p.dependencies ∧ d ∈ wave ∧ ¬ ∃ w ∈ later, d ∈ w := by
  simp only [List.mem_filter, Bool.and_eq_true, Bool.not_eq_true', List.contains_iff_mem,
    Bool.eq_false_iff, ne_eq, List.any_eq_true]

/-- Every dependency of a wave is listed once, with the last wave it occurs in. -/
theorem mem_finals : d ∈ p.finals waves ↔ d ∈ p.dependencies ∧ ∃ w ∈ waves, d ∈ w := by
  induction waves with
  | nil => simp [finals]
  | cons wave later ih =>
    rw [finals, List.mem_append, ih, mem_final, List.exists_mem_cons_iff]
    constructor
    · rintro (⟨hd, hw, -⟩ | ⟨hd, hlater⟩)
      · exact ⟨hd, .inl hw⟩
      · exact ⟨hd, .inr hlater⟩
    · rintro ⟨hd, hw⟩
      by_cases hlater : ∃ w ∈ later, d ∈ w
      · exact .inr ⟨hd, hlater⟩
      · exact .inl ⟨hd, hw.resolve_right hlater, hlater⟩

/-- What bounds a task comes before what leaves it. -/
theorem pairwise_finals (h : p.Followed waves) :
    (p.finals waves).Pairwise fun d e => e.dependant ≠ d.dependee := by
  induction waves with
  | nil => exact List.Pairwise.nil
  | cons wave later ih =>
    rw [finals, List.pairwise_append]
    refine ⟨List.pairwise_of_forall_sublist fun {d e} hsub heq => ?_, ih h.2,
      fun d hd e he heq => ?_⟩
    · have hd := hsub.subset List.mem_cons_self
      have he := hsub.subset (List.mem_cons_of_mem d List.mem_cons_self)
      obtain ⟨hd, -, hlast⟩ := mem_final.mp hd
      obtain ⟨-, he, -⟩ := mem_final.mp he
      exact hlast (h.1 e he d hd heq.symm)
    · obtain ⟨hd, -, hlast⟩ := mem_final.mp hd
      obtain ⟨-, w, hw, he⟩ := mem_finals.mp he
      exact hlast (h.2.exists_wave hw he hd heq.symm)

/-! ## Cascades -/

/-- Dependencies in an order in which those that bound a task come before those that leave it, and
with each of them everything that leaves its dependant. -/
structure IsCascade (p : Project) (ds : List Dependency) : Prop where
  subset : ∀ d ∈ ds, d ∈ p.dependencies
  apart : ∀ d ∈ ds, d.dependant ≠ d.dependee
  order : ds.Pairwise fun d e => e.dependant ≠ d.dependee
  closed : ∀ d ∈ ds, ∀ e ∈ p.dependencies, e.dependee = d.dependant → e ∈ ds

/-- **By distance from some tasks, what they reach is a cascade.** -/
theorem isCascade_of_reach {reach : Reach} (hapart : ∀ d ∈ p.dependencies, d.dependant ≠ d.dependee)
    (h : p.reach sources = .ok reach) :
    ∃ ds, reach.flatMap Prod.snd = ds.map Dependency.id ∧ p.IsCascade ds := by
  obtain ⟨waves, hwaves, rfl⟩ := exists_of_map_eq_ok h
  have hfollowed := followed_of_waves hwaves
  refine ⟨p.finals waves, flatMap_lastOccurrences 1 waves, fun d hd => (mem_finals.mp hd).1,
    fun d hd => hapart d (mem_finals.mp hd).1, pairwise_finals hfollowed, fun d hd e he hde => ?_⟩
  obtain ⟨-, w, hw, hdw⟩ := mem_finals.mp hd
  exact mem_finals.mpr ⟨he, hfollowed.exists_wave hw hdw he hde⟩

/-- Whether a list of dependencies is a cascade depends on the dependencies only. -/
theorem IsCascade.congr {q : Project} {ds : List Dependency} (h : p.IsCascade ds)
    (hdependencies : q.dependencies = p.dependencies) : q.IsCascade ds where
  subset d hd := hdependencies ▸ h.subset d hd
  apart := h.apart
  order := h.order
  closed d hd e he := h.closed d hd e (hdependencies ▸ he)

/-- When its turn comes, nothing that is left bounds the dependee, nor that of an earlier one. -/
theorem IsCascade.dependee_ne {done rest : List Dependency}
    (h : p.IsCascade (done ++ d :: rest)) (he : e ∈ done ++ [d]) :
    ∀ f ∈ d :: rest, f.dependant ≠ e.dependee := by
  obtain ⟨-, hrest, hcross⟩ := List.pairwise_append.mp h.order
  intro f hf
  rcases List.mem_append.mp he with he | he
  · exact hcross e he f hf
  · rw [List.mem_singleton.mp he]
    rcases List.mem_cons.mp hf with rfl | hf
    · exact h.apart f (List.mem_append_right _ List.mem_cons_self)
    · exact (List.pairwise_cons.mp hrest).1 f hf

/-- A dependency whose dependee is still to be moved is still left itself. -/
theorem IsCascade.mem_rest {done rest : List Dependency} {f : Dependency}
    (h : p.IsCascade (done ++ d :: rest)) (he : e ∈ p.dependencies) (hf : f ∈ rest)
    (hfe : f.dependant = e.dependee) : e ∈ rest := by
  have hall : f ∈ done ++ d :: rest := List.mem_append_right _ (List.mem_cons_of_mem d hf)
  have hmem := h.closed f hall e he hfe.symm
  by_contra hnot
  have hearly : e ∈ done ++ [d] := by
    rcases List.mem_append.mp hmem with hmem | hmem
    · exact List.mem_append_left _ hmem
    · rw [(List.mem_cons.mp hmem).resolve_right hnot]
      exact List.mem_append_right _ (List.mem_singleton_self d)
  exact h.dependee_ne hearly f (List.mem_cons_of_mem d hf) hfe

/-- All dependencies, in an order in which those that bound a task come before those that
leave it. -/
structure IsSweep (p : Project) (ds : List Dependency) : Prop where
  mem_iff : ∀ d, d ∈ ds ↔ d ∈ p.dependencies
  apart : ∀ d ∈ ds, d.dependant ≠ d.dependee
  order : ds.Pairwise fun d e => e.dependant ≠ d.dependee

/-- A sweep is a cascade. -/
theorem IsSweep.isCascade {ds : List Dependency} (h : p.IsSweep ds) : p.IsCascade ds where
  subset d hd := (h.mem_iff d).mp hd
  apart := h.apart
  order := h.order
  closed _ _ e he _ := (h.mem_iff e).mpr he

/-- **By distance from the tasks that wait for nothing, the dependencies are a sweep.** -/
theorem exists_sweep (hrank : p.Rises rank) (sources : List TaskId)
    (hsources : ∀ d ∈ p.dependencies, p.incoming d.dependee = [] → d.dependee ∈ sources) :
    ∃ reach ds, p.reach sources = .ok reach ∧ reach.flatMap Prod.snd = ds.map Dependency.id ∧
      p.IsSweep ds := by
  obtain ⟨waves, hwaves⟩ : ∃ waves,
      p.waves p.dependencies.length (p.leaving sources) = .ok waves := by
    refine exists_waves hrank (fun d hd => (mem_leaving.mp hd).1) fun d hd => ?_
    exact length_higher_lt (mem_leaving.mp hd).1
  have hfollowed := followed_of_waves hwaves
  -- a dependency is reached because its dependee waits for nothing, or after those into that
  have hall : ∀ (k : Nat), ∀ d ∈ p.dependencies, rank d.dependee = k → ∃ w ∈ waves, d ∈ w := by
    intro k
    induction k using Nat.strongRecOn with
    | ind k ih =>
      intro d hd hk
      by_cases hnone : p.incoming d.dependee = []
      · exact exists_wave hwaves (mem_leaving.mpr ⟨hd, hsources d hd hnone⟩)
      · obtain ⟨e, he⟩ := List.exists_mem_of_ne_nil _ hnone
        obtain ⟨he, htarget⟩ := List.mem_filter.mp he
        rw [decide_eq_true_eq] at htarget
        have hlt : rank e.dependee < k := by
          rw [← hk, ← htarget]
          exact hrank e he
        obtain ⟨w, hw, hew⟩ := ih _ hlt e he rfl
        exact hfollowed.exists_wave hw hew hd htarget.symm
  refine ⟨p.lastOccurrences 1 waves, p.finals waves, ?_, flatMap_lastOccurrences 1 waves,
    fun d => ?_, fun d hd heq => ?_, pairwise_finals hfollowed⟩
  · rw [reach, hwaves]
    rfl
  · rw [mem_finals]
    exact ⟨And.left, fun hd => ⟨hd, hall _ d hd rfl⟩⟩
  · have hlt := hrank d (mem_finals.mp hd).1
    rw [heq] at hlt
    exact absurd hlt (Nat.lt_irrefl _)

end Workplan.Project
