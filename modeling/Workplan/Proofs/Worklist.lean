import Mathlib.Algebra.Order.BigOperators.Group.List
import Mathlib.Algebra.Order.Group.Nat
import Mathlib.Logic.Function.Basic
import Workplan.Proofs.Names
import Workplan.Proofs.Waves

/-!
# Distances by a worklist

Distances can also be found with a queue.  A dependency is entered with a distance, and looked at
again whenever a longer way to it turns up.  As no distance beyond the number of dependencies is
taken, this comes to an end, and because the queue works off one wave after the other, it finds what
the waves do.

- `Project.worklist`: the work on a queue; `Project.room_update_lt` is why it ends.
- `Project.worklist_wave`: what is done with one wave.
- `Project.worklist_waves`: the queue and the waves end in the same way.
- `Project.explore_eq_reach`: so they find the same dependencies at the same distances.
-/

namespace Workplan.Project

variable {p : Project} {k n : Nat} {d : Dependency} {id : DependencyId}
  {known : DependencyId → Option Nat} {todo wave : List Dependency}

/-! ## The queue -/

/-- How far a distance can still be raised. -/
def roomOf (limit : Nat) : Option Nat → Nat
  | none => limit + 1
  | some k => limit - k

/-- How far all distances together can still be raised. -/
def room (p : Project) (known : DependencyId → Option Nat) : Nat :=
  (p.dependencies.map fun d => roomOf p.dependencies.length (known d.id)).foldr (· + ·) 0

/-- There is less room after a distance is raised. -/
theorem room_update_lt (hd : p.dependency? id = some d)
    (hraise : ¬ (known id).any (k ≤ ·)) (hk : ¬ p.dependencies.length < k) :
    p.room (Function.update known id (some k)) < p.room known := by
  have hless : roomOf p.dependencies.length (some k) < roomOf p.dependencies.length (known id) := by
    rcases hknown : known id with _ | j
    · exact Nat.lt_succ_of_le (Nat.sub_le _ _)
    · rw [hknown, Option.any_some, decide_eq_true_eq] at hraise
      simp only [roomOf]
      omega
  rw [dependency?] at hd
  have hid : d.id = id := by simpa using List.find?_some hd
  show (p.dependencies.map _).sum < (p.dependencies.map _).sum
  refine List.sum_lt_sum _ _ (fun e _ => ?_) ⟨d, List.mem_of_find?_eq_some hd, ?_⟩
  · by_cases heq : e.id = id
    · rw [heq, Function.update_self]
      exact hless.le
    · rw [Function.update_of_ne heq]
  · rw [hid, Function.update_self]
    exact hless

/-- The work on a queue of dependencies with distances.  A distance that is not above the known one
is dropped.  Otherwise it is the known one from now on, and what leaves the dependant is entered
with the next one. -/
def worklist (p : Project) : (queue : List (DependencyId × Nat)) →
    (known : DependencyId → Option Nat) → Except Cycle (DependencyId → Option Nat)
  | [], known => .ok known
  | (id, k) :: queue, known =>
    if (known id).any (k ≤ ·) then p.worklist queue known
    else match _ : p.dependency? id with
      | none => p.worklist queue known
      | some d =>
        if p.dependencies.length < k then .error ⟨[d.dependee, d.dependant]⟩
        else p.worklist (queue ++ (p.outgoing d.dependant).map fun e => (e.id, k + 1))
          (Function.update known id (some k))
termination_by queue known => (p.room known, queue.length)
decreasing_by
  · exact .right _ (Nat.lt_succ_self _)
  · exact .right _ (Nat.lt_succ_self _)
  · exact .left _ _ (room_update_lt ‹_› ‹_› ‹_›)

/-- The dependencies with a known distance of some size, if there are any. -/
def found? (p : Project) (known : DependencyId → Option Nat) (k : Nat) :
    Option (Nat × List DependencyId) :=
  let found := p.dependencies.filter fun d => known d.id = some k
  if found.isEmpty then none else some (k, found.map Dependency.id)

/-- The dependencies with known distances, by distance. -/
def byDistance (p : Project) (known : DependencyId → Option Nat) : Reach :=
  (List.range' 1 p.dependencies.length).filterMap (p.found? known)

/-- The dependencies reached from some tasks, by distance: those that leave the tasks are entered
first. -/
def explore (p : Project) (sources : List TaskId) : Except Cycle Reach :=
  (p.worklist ((sources.flatMap p.outgoing).map fun d => (d.id, 1)) fun _ => none).map p.byDistance

/-! ## One entry -/

/-- A dependency already known at its distance is dropped from the queue. -/
theorem worklist_drop {queue : List (DependencyId × Nat)} (h : known id = some k) :
    p.worklist ((id, k) :: queue) known = p.worklist queue known := by
  have hany : (known id).any (k ≤ ·) := by
    rw [h]
    exact decide_eq_true le_rfl
  rw [worklist, if_pos hany]

theorem not_any_of_lt (h : ∀ j, known id = some j → j < k) : ¬ (known id).any (k ≤ ·) := by
  rcases hknown : known id with _ | j
  · exact Bool.false_ne_true
  · rw [Option.any_some, decide_eq_true_eq]
    exact not_le.mpr (h j hknown)

/-- A dependency not known yet is noted at its distance, and those that leave its dependant are
queued one farther on. -/
theorem worklist_visit {queue : List (DependencyId × Nat)} (hp : p.Sound)
    (hd : d ∈ p.dependencies) (hk : k ≤ p.dependencies.length)
    (h : ∀ j, known d.id = some j → j < k) :
    p.worklist ((d.id, k) :: queue) known =
      p.worklist (queue ++ (p.outgoing d.dependant).map fun e => (e.id, k + 1))
        (Function.update known d.id (some k)) := by
  rw [worklist, if_neg (not_any_of_lt h)]
  have hfound := hp.dependency?_of_mem hd
  split
  · next hnone => exact absurd (hnone.symm.trans hfound) nofun
  · next e he =>
    cases he.symm.trans hfound
    rw [if_neg (not_lt.mpr hk)]

/-- A distance beyond the number of dependencies is a cycle, named by the dependency at hand. -/
theorem worklist_cycle {queue : List (DependencyId × Nat)} (hp : p.Sound)
    (hd : d ∈ p.dependencies) (hk : p.dependencies.length < k)
    (h : ∀ j, known d.id = some j → j < k) :
    p.worklist ((d.id, k) :: queue) known = .error ⟨[d.dependee, d.dependant]⟩ := by
  rw [worklist, if_neg (not_any_of_lt h)]
  have hfound := hp.dependency?_of_mem hd
  split
  · next hnone => exact absurd (hnone.symm.trans hfound) nofun
  · next e he =>
    cases he.symm.trans hfound
    rw [if_pos hk]

/-! ## One wave -/

/-- The known distances after a wave at some distance. -/
def mark (k : Nat) (wave : List Dependency) (known : DependencyId → Option Nat) :
    DependencyId → Option Nat :=
  fun id => if id ∈ wave.map Dependency.id then some k else known id

theorem mark_cons :
    mark k (d :: wave) known = mark k wave (Function.update known d.id (some k)) := by
  funext id
  simp only [mark, List.map_cons, List.mem_cons]
  by_cases heq : id = d.id
  · rw [heq, if_pos (.inl rfl), Function.update_self, ite_self]
  · simp only [heq, false_or, Function.update_of_ne, ne_eq, not_false_eq_true]

theorem lt_succ_of_mark (hknown : ∀ id j, known id = some j → j < k) :
    ∀ id j, mark k wave known id = some j → j < k + 1 := by
  intro id j hj
  rw [mark] at hj
  split at hj
  · rw [Option.some.inj hj]
    exact Nat.lt_succ_self j
  · exact Nat.lt_succ_of_lt (hknown id j hj)

/-- Nothing is known at first. -/
theorem lt_one_of_none :
    ∀ id j, (fun _ : DependencyId => (none : Option Nat)) id = some j → j < 1 :=
  nofun

/-- **A wave is worked off entry by entry.**  Each dependency is visited once, and what leaves its
dependant is behind everything else then. -/
theorem worklist_wave (hp : p.Sound) {queue : List (DependencyId × Nat)}
    (hlive : ∀ d ∈ todo, d ∈ p.dependencies) (hk : k ≤ p.dependencies.length)
    (hknown : ∀ id j, known id = some j → j ≤ k) :
    p.worklist (todo.map (fun d => (d.id, k)) ++ queue) known =
      p.worklist (queue ++
          (((todo.filter fun d => known d.id ≠ some k).eraseDups.map Dependency.dependant).flatMap
            p.outgoing).map fun e => (e.id, k + 1))
        (mark k todo known) := by
  induction todo generalizing queue known with
  | nil =>
    show p.worklist queue known = p.worklist (queue ++ []) known
    rw [List.append_nil]
  | cons d todo ih =>
    have hd := hlive d List.mem_cons_self
    have hrest : ∀ e ∈ todo, e ∈ p.dependencies :=
      fun e he => hlive e (List.mem_cons_of_mem d he)
    rw [List.map_cons, List.cons_append]
    by_cases hvisited : known d.id = some k
    · rw [worklist_drop hvisited, ih hrest hknown, mark_cons,
        Function.update_eq_self_iff.mpr hvisited.symm,
        List.filter_cons_of_neg (by simpa using hvisited)]
    · have hbelow : ∀ j, known d.id = some j → j < k := by
        intro j hj
        refine lt_of_le_of_ne (hknown d.id j hj) ?_
        rintro rfl
        exact hvisited hj
      have hknown' : ∀ id j, Function.update known d.id (some k) id = some j → j ≤ k := by
        intro id j hj
        by_cases heq : id = d.id
        · rw [heq, Function.update_self] at hj
          exact (Option.some.inj hj).ge
        · rw [Function.update_of_ne heq] at hj
          exact hknown id j hj
      -- what is still to be visited are the others
      have hfilter : (todo.filter fun e => Function.update known d.id (some k) e.id ≠ some k) =
          (todo.filter fun e => known e.id ≠ some k).filter fun e => !e == d := by
        rw [List.filter_filter]
        refine List.filter_congr fun e he => ?_
        by_cases heq : e = d
        · rw [heq, Function.update_self]
          simp
        · have hid : e.id ≠ d.id := fun hid =>
            heq (List.inj_on_of_nodup_map hp.dependencies_nodup (hrest e he) hd hid)
          rw [Function.update_of_ne hid]
          simp [heq]
      rw [worklist_visit hp hd hk hbelow, List.append_assoc, ih hrest hknown', ← mark_cons, hfilter,
        List.filter_cons_of_pos (by simpa using hvisited), List.eraseDups_cons, List.map_cons,
        List.flatMap_cons, List.map_append, List.append_assoc]

/-! ## All waves -/

theorem eraseDups_of_nodup {α : Type} [BEq α] [LawfulBEq α] {l : List α} (h : l.Nodup) :
    l.eraseDups = l := by
  induction l with
  | nil => rfl
  | cons a l ih =>
    obtain ⟨hnew, hrest⟩ := List.nodup_cons.mp h
    have hothers : (l.filter fun b => !b == a) = l := by
      refine List.filter_eq_self.mpr fun b hb => ?_
      rw [Bool.not_eq_true', beq_eq_false_iff_ne]
      rintro rfl
      exact hnew hb
    rw [List.eraseDups_cons, hothers, ih hrest]

/-- Without what leaves a task, there is left what leaves the others. -/
theorem removeAll_flatMap_outgoing (x : TaskId) (sources : List TaskId) :
    (sources.flatMap p.outgoing).removeAll (p.outgoing x) =
      (sources.filter fun y => !y == x).flatMap p.outgoing := by
  induction sources with
  | nil => rfl
  | cons y sources ih =>
    rw [List.removeAll] at ih ⊢
    rw [List.flatMap_cons, List.filter_append, ih]
    by_cases heq : y = x
    · rw [heq, List.filter_cons_of_neg (by simp), List.filter_eq_nil_iff.mpr, List.nil_append]
      intro d hd
      simpa using hd
    · rw [List.filter_cons_of_pos (by simpa using heq), List.flatMap_cons, List.filter_eq_self.mpr]
      intro d hd
      have hout : d ∉ p.outgoing x := fun hx =>
        heq ((mem_outgoing.mp hd).2.symm.trans (mem_outgoing.mp hx).2)
      simpa using hout

theorem mem_of_mem_flatMap_outgoing {sources : List TaskId}
    (h : d ∈ sources.flatMap p.outgoing) : d ∈ p.dependencies := by
  obtain ⟨x, -, hd⟩ := List.mem_flatMap.mp h
  exact (mem_outgoing.mp hd).1

/-- What leaves a wave's tasks, each once, is the next wave. -/
theorem eraseDups_flatMap_outgoing (hnodup : p.dependencies.Nodup) (sources : List TaskId) :
    (sources.flatMap p.outgoing).eraseDups = p.leaving sources := by
  rw [leaving]
  induction hlength : sources.length using Nat.strongRecOn generalizing sources with
  | ind n ih =>
    subst hlength
    cases sources with
    | nil => rfl
    | cons x sources =>
      have hout : (p.outgoing x).Nodup := hnodup.filter _
      have hrest :=
        ih _ (Nat.lt_succ_of_le (List.length_filter_le (fun y => !y == x) sources)) _ rfl
      rw [List.flatMap_cons, List.eraseDups_append, eraseDups_of_nodup hout,
        removeAll_flatMap_outgoing, List.eraseDups_cons, List.flatMap_cons, hrest]

/-- The known distances after all waves. -/
def marked (k : Nat) : List (List Dependency) → (DependencyId → Option Nat) →
    DependencyId → Option Nat
  | [], known => known
  | wave :: later, known => marked (k + 1) later (mark k wave known)

/-- **The queue works off one wave after the other**, and refuses the first dependency of a wave
that is one too many. -/
theorem worklist_waves (hp : p.Sound) (hlive : ∀ d ∈ todo, d ∈ p.dependencies)
    (hn : n + k = p.dependencies.length + 1) (hknown : ∀ id j, known id = some j → j < k) :
    p.worklist (todo.map fun d => (d.id, k)) known =
      (p.waves n todo.eraseDups).map fun later => marked k later known := by
  induction n generalizing k todo known with
  | zero =>
    cases todo with
    | nil =>
      rw [List.eraseDups_nil, List.map_nil, worklist, waves]
      rfl
    | cons d todo =>
      rw [List.map_cons, worklist_cycle hp (hlive d List.mem_cons_self) (by omega) (hknown d.id),
        List.eraseDups_cons]
      rfl
  | succ n ih =>
    cases todo with
    | nil =>
      rw [List.eraseDups_nil, List.map_nil, worklist, waves]
      rfl
    | cons d todo =>
      -- the queue is worked off to the end of this wave, with the next one queued behind it
      have hwave := @worklist_wave p k known (d :: todo) hp [] hlive (by omega)
        fun id j hj => (hknown id j hj).le
      have hall : ((d :: todo).filter fun d => known d.id ≠ some k) = d :: todo := by
        refine List.filter_eq_self.mpr fun e _ => decide_eq_true fun heq => ?_
        exact lt_irrefl k (hknown e.id k heq)
      have hmark : mark k (d :: todo) known = mark k (d :: todo).eraseDups known := by
        funext id
        simp only [mark, List.mem_map, List.mem_eraseDups]
      rw [List.append_nil, List.nil_append, hall] at hwave
      rw [hwave, ih (fun _ => mem_of_mem_flatMap_outgoing) (by omega) (lt_succ_of_mark hknown),
        eraseDups_flatMap_outgoing (List.Nodup.of_map _ hp.dependencies_nodup), hmark, waves]
      · cases p.waves n (p.leaving ((d :: todo).eraseDups.map Dependency.dependant)) <;> rfl
      · rw [List.eraseDups_cons]
        exact List.cons_ne_nil _ _

/-! ## By distance -/

/-- Below the distances of the waves, what was known is still known where no wave comes. -/
theorem marked_eq_some_iff {j : Nat} (waves : List (List Dependency)) (hj : j < k) :
    marked k waves known id = some j ↔
      (∀ wave ∈ waves, id ∉ wave.map Dependency.id) ∧ known id = some j := by
  induction waves generalizing k known with
  | nil => exact (and_iff_right fun _ h => absurd h List.not_mem_nil).symm
  | cons wave later ih =>
    rw [marked, ih (Nat.lt_succ_of_lt hj), List.forall_mem_cons, mark]
    by_cases hid : id ∈ wave.map Dependency.id
    · rw [if_pos hid, Option.some_inj]
      exact iff_of_false (fun h => hj.ne' h.2) fun h => h.1.1 hid
    · rw [if_neg hid, and_iff_right hid]

/-- Waves mark distances one after the other, so no mark runs ahead of its wave. -/
theorem lt_of_marked_eq_some {j : Nat} {waves : List (List Dependency)}
    (hknown : ∀ id j, known id = some j → j < k) (h : marked k waves known id = some j) :
    j < k + waves.length := by
  induction waves generalizing k known with
  | nil => exact hknown id j h
  | cons wave later ih =>
    rw [List.length_cons, Nat.add_comm later.length, ← Nat.add_assoc]
    exact ih (lt_succ_of_mark hknown) h

/-- The known distances are those of the last waves in which the dependencies occur. -/
theorem lastOccurrences_eq (hp : p.Sound) {waves : List (List Dependency)}
    (hlive : ∀ wave ∈ waves, ∀ d ∈ wave, d ∈ p.dependencies)
    (hknown : ∀ id j, known id = some j → j < k) :
    p.lastOccurrences k waves =
      (List.range' k waves.length).filterMap (p.found? (marked k waves known)) := by
  induction waves generalizing k known with
  | nil => rfl
  | cons wave later ih =>
    obtain ⟨hwave, hlater⟩ := List.forall_mem_cons.mp hlive
    -- a dependency keeps this mark exactly when no later wave overwrites it
    have hfinal : (p.dependencies.filter fun d =>
          wave.contains d && !later.any fun w => w.contains d) =
        p.dependencies.filter fun d => marked k (wave :: later) known d.id = some k := by
      refine List.filter_congr fun d hd => ?_
      rw [Bool.eq_iff_iff, decide_eq_true_eq, marked,
        marked_eq_some_iff later (Nat.lt_succ_self k), mark]
      have hthis : (if d.id ∈ wave.map Dependency.id then some k else known d.id) = some k ↔
          d ∈ wave := by
        rw [← mem_map_id_iff hp.dependencies_nodup hwave hd]
        split
        · next h => exact iff_of_true rfl h
        · next h => exact iff_of_false (fun heq => lt_irrefl k (hknown d.id k heq)) h
      rw [hthis]
      simp only [Bool.and_eq_true, Bool.not_eq_true', List.contains_iff_mem, Bool.eq_false_iff,
        ne_eq, List.any_eq_true, not_exists, not_and]
      rw [and_comm]
      exact and_congr_left' (forall₂_congr fun w hw =>
        not_congr (mem_map_id_iff hp.dependencies_nodup (hlater w hw) hd).symm)
    rw [lastOccurrences, ih hlater (lt_succ_of_mark hknown), hfinal, List.length_cons,
      List.range'_succ, List.filterMap_cons, found?, ← marked]
    split <;> rfl

/-- No distance is beyond the last wave. -/
theorem byDistance_marked (hp : p.Sound) {waves : List (List Dependency)}
    (hlive : ∀ wave ∈ waves, ∀ d ∈ wave, d ∈ p.dependencies)
    (hlength : waves.length ≤ p.dependencies.length) :
    p.byDistance (marked 1 waves fun _ => none) = p.lastOccurrences 1 waves := by
  have hbeyond : (List.range' (1 + 1 * waves.length)
      (p.dependencies.length - waves.length)).filterMap
        (p.found? (marked 1 waves fun _ => none)) = [] := by
    refine List.filterMap_eq_nil_iff.mpr fun j hj => ?_
    rw [List.mem_range'_1, Nat.one_mul] at hj
    rw [found?, List.filter_eq_nil_iff.mpr]
    · rfl
    · intro d _ hd
      exact absurd (lt_of_marked_eq_some lt_one_of_none (of_decide_eq_true hd)) (not_lt.mpr hj.1)
  rw [lastOccurrences_eq hp hlive lt_one_of_none, byDistance]
  nth_rewrite 1 [← Nat.add_sub_cancel' hlength]
  rw [← List.range'_append, List.filterMap_append, hbeyond, List.append_nil]

/-- **The worklist finds what the waves do**, and is refused for the same cycle. -/
theorem explore_eq_reach (hp : p.Sound) (sources : List TaskId) :
    p.explore sources = p.reach sources := by
  rw [explore, reach, worklist_waves hp (fun _ => mem_of_mem_flatMap_outgoing) rfl lt_one_of_none,
    eraseDups_flatMap_outgoing (List.Nodup.of_map _ hp.dependencies_nodup)]
  rcases hwaves : p.waves p.dependencies.length (p.leaving sources) with cycle | waves
  · rfl
  · exact congrArg Except.ok (byDistance_marked hp
      (mem_of_waves hwaves fun d hd => (mem_leaving.mp hd).1) (length_le_of_waves hwaves))

end Workplan.Project
