import Workplan.Network.Basic
import Workplan.Proofs.Bounds
import Workplan.Proofs.Layers
import Workplan.Proofs.Reachable
import Workplan.Scheduling.Plan

/-!
# What bounds a task

The edges into a task come from its children and from the dependencies that bind it: those
declared on the task itself or on anything that contains it.

- `Dependency.acceptableStart_eq`: the start that one dependency accepts.
- `Project.binding`: the dependencies that bind a task.
- `Project.Accepts`: the starts that these dependencies accept.
- `Task.floors`: the days that bound the start of a task from below.
- `Project.gather_incoming`: what the edges into a task leave, in these terms.
-/

namespace Workplan

/-! ## Contributions -/

/-- The contribution of an edge that bounds the start from below. -/
def Contribution.wait (weak : Bool) (day : Day) : Contribution := ⟨.atLeast day, .all, weak, none⟩

/-- Whether a dependency is only advice for a start: it is loose and kept. -/
def Dependency.isSlack (d : Dependency) (acceptable start : Day) : Bool :=
  d.hardness = .rubber && acceptable ≤ start

/-- A dependency allows its dependant the accepted start and later ones, and is violated by a
start before it; a strong one also by a start after it. -/
theorem Dependency.collision_eq (d : Dependency) (c : Calendar) (dependee dependant : Task) :
    d.collision c dependee dependant = (d.acceptableStart c dependee dependant).map fun start =>
      ⟨start, .later, match d.hardness with
        | .strong => decide (dependant.start ≠ start)
        | .rubber => decide (dependant.start < start)⟩ := by
  rw [collision]
  cases d.acceptableStart c dependee dependant <;> rfl

/-- The end of the dependant is linked, so that its length matters. -/
def LinkKind.bindsFinish : LinkKind → Bool
  | .finishStart | .startStart => false
  | .finishFinish | .startFinish => true

/-- **A dependency accepts its barrier, or what lies the duration before it** if the end is
linked. -/
theorem Dependency.acceptableStart_eq (d : Dependency) (c : Calendar) (dependee dependant : Task) :
    d.acceptableStart c dependee dependant =
      if d.kind.bindsFinish then dependant.duration.negate.bind (c.shift (d.barrier c dependee))
      else .ok (d.barrier c dependee) := by
  rw [acceptableStart]
  cases d.kind <;> rfl

theorem Duration.eq_of_negate {length back : Duration} (h : length.negate = .ok back) :
    back = ⟨-length.count, length.grain⟩ := by
  obtain ⟨count, hcount, rfl⟩ := exists_of_map_eq_ok h
  rw [checkedCount] at hcount
  split at hcount
  · cases hcount
    rfl
  · cases hcount

theorem Duration.checkedCount_error {n : Int} {fault : Fault}
    (h : checkedCount n = .error fault) : fault = .overflow := by
  rw [checkedCount] at h
  split at h
  · cases h
  · cases h
    rfl

/-- A walk over the calendar fails by leaving the range of dates and in no other way. -/
theorem Calendar.shift_error {c : Calendar} {day : Day} {length : Duration} {fault : Fault}
    (h : c.shift day length = .error fault) : fault = .overflow := by
  rw [shift] at h
  split at h
  · cases h
  · split at h
    · cases h
    · cases h
      rfl

/-- Moving back from the barrier fails only if the length cannot be turned around. -/
theorem Dependency.acceptableStart_error {d : Dependency} {c : Calendar} {dependee dependant : Task}
    {fault : Fault} (h : d.acceptableStart c dependee dependant = .error fault) :
    fault = .overflow := by
  rw [acceptableStart_eq] at h
  split at h
  · rcases cases_of_bind_eq_error h with hlength | ⟨length, -, hshift⟩
    · exact Duration.checkedCount_error (map_eq_error_iff.mp hlength)
    · exact Calendar.shift_error hshift
  · cases h

namespace Fold

variable {strict advice children : List Day}

theorem isStuck_ofDays : (ofDays strict advice children).isStuck = false := by
  have : ∀ ds, (Interval.above ds).isEmpty = false := by
    intro ds
    rw [Interval.isEmpty, Interval.upper_above]
    cases (Interval.above ds).lower <;> rfl
  simp only [isStuck, ofDays, this]
  rfl

theorem add_strict (day : Day) : (ofDays strict advice children).add (.wait false day) =
    ofDays (strict ++ [day]) advice children := by
  show Fold.mk ((Interval.above strict).inter (.above [day])) _ _ _ _ = _
  rw [Interval.above_inter]
  rfl

theorem add_advice (day : Day) : (ofDays strict advice children).add (.wait true day) =
    ofDays strict (advice ++ [day]) children := by
  show Fold.mk _ ((Interval.above advice).inter (.above [day])) _ _ _ = _
  rw [Interval.above_inter]
  rfl

theorem add_ofChild (child : Task) :
    (ofDays strict advice children).add (.ofChild child) =
      ofDays strict advice (children ++ [child.start, child.finish]) := rfl

end Fold

namespace Project

variable {p q : Project} {id x : TaskId} {t : Task} {d : Dependency}

/-- What an edge contributes: nothing, the dates of a child, or a day from which the start
may be. -/
theorem contribution?_cases (p : Project) (e : Edge) :
    p.contribution? e = .ok none ∨ (∃ child, p.contribution? e = .ok (some (.ofChild child))) ∨
      (∃ weak day, p.contribution? e = .ok (some (.wait weak day))) ∨
      p.contribution? e = .error .overflow := by
  rw [contribution?]
  split
  · split
    · split
      · exact .inr (.inl ⟨_, rfl⟩)
      · exact .inl rfl
    · split
      · exact .inl rfl
      · next d _ =>
        rw [Dependency.collision_eq]
        cases h : d.acceptableStart p.calendar _ _ with
        | error fault =>
          rw [Dependency.acceptableStart_error h]
          exact .inr (.inr (.inr rfl))
        | ok start => exact .inr (.inr (.inl ⟨_, _, rfl⟩))
  · exact .inl rfl

/-- One step of gathering: the next edge's contribution, if any, is added, and a stuck fold stops
the walk. -/
theorem gather_cons (f : Fold) (e : Edge) (edges : List Edge) :
    (p.gather f (e :: edges)).outcome = (p.contribution? e).bind fun k? => match k? with
      | none => (p.gather f edges).outcome
      | some k =>
        if (f.add k).isStuck then .ok (f.add k) else (p.gather (f.add k) edges).outcome := by
  rw [gather, Traced.outcome_bind, Traced.outcome_lift]
  refine congrArg _ (funext fun k? => ?_)
  cases k? with
  | none => rw [Traced.outcome_bind, Traced.outcome_tell]; rfl
  | some k =>
    dsimp only
    split
    · rfl
    · rfl

/-- **What the edges leave**, as far as it matters: which days are named, and in which role. -/
theorem gather_ofDays (edges : List Edge) (strict advice children : List Day)
    (h : ∀ e ∈ edges, p.contribution? e ≠ .error .overflow) :
    ∃ strict' advice' children',
      (p.gather (.ofDays strict advice children) edges).outcome =
        .ok (.ofDays strict' advice' children') ∧
      (∀ d, d ∈ strict' ↔
        d ∈ strict ∨ ∃ e ∈ edges, p.contribution? e = .ok (some (.wait false d))) ∧
      (∀ d, d ∈ advice' ↔ d ∈ advice ∨ ∃ e ∈ edges, p.contribution? e = .ok (some (.wait true d))) ∧
      (∀ d, d ∈ children' ↔ d ∈ children ∨ ∃ e ∈ edges, ∃ child,
        p.contribution? e = .ok (some (.ofChild child)) ∧
          (d = child.start ∨ d = child.finish)) := by
  induction edges generalizing strict advice children with
  | nil => exact ⟨strict, advice, children, rfl, by simp, by simp, by simp⟩
  | cons e edges ih =>
    have hrest := fun e' he' => h e' (List.mem_cons_of_mem e he')
    simp only [List.exists_mem_cons_iff]
    rw [gather_cons]
    rcases p.contribution?_cases e with he | ⟨child, he⟩ | ⟨weak, day, he⟩ | he
    · -- an edge that contributes nothing
      simp only [he, Except.bind]
      obtain ⟨s, w, c, hf, hs, hw, hc⟩ := ih strict advice children hrest
      exact ⟨s, w, c, hf, by simp [hs], by simp [hw], by simp [hc]⟩
    · -- a child, with both of its dates
      simp only [he, Except.bind, Fold.add_ofChild, Fold.isStuck_ofDays]
      obtain ⟨s, w, c, hf, hs, hw, hc⟩ :=
        ih strict advice (children ++ [child.start, child.finish]) hrest
      refine ⟨s, w, c, hf, fun d => ?_, fun d => ?_, fun d => ?_⟩
      · simp [hs, Contribution.wait, Contribution.ofChild]
      · simp [hw, Contribution.wait, Contribution.ofChild]
      · have hchild : (∃ child',
          (Except.ok (some (.ofChild child)) : Except Fault (Option Contribution)) =
            .ok (some (.ofChild child')) ∧ (d = child'.start ∨ d = child'.finish)) ↔
            d ∈ [child.start, child.finish] := by
          constructor
          · rintro ⟨child', heq, hd⟩
            have hspan : some (child.start, child.finish) = some (child'.start, child'.finish) :=
              congrArg Contribution.boundaries? (Option.some.inj (Except.ok.inj heq))
            obtain ⟨hstart, hfinish⟩ := Prod.mk.inj (Option.some.inj hspan)
            rw [hstart, hfinish]
            simpa using hd
          · intro hd
            exact ⟨child, rfl, by simpa using hd⟩
        rw [hc, hchild, List.mem_append, or_assoc]
    · -- a dependency, which is a strict demand or advice
      cases weak with
      | false =>
        simp only [he, Except.bind, Fold.add_strict, Fold.isStuck_ofDays]
        obtain ⟨s, w, c, hf, hs, hw, hc⟩ := ih (strict ++ [day]) advice children hrest
        refine ⟨s, w, c, hf, fun d => ?_, fun d => ?_, fun d => ?_⟩
        · simp [hs, Contribution.wait, Interval.atLeast, or_assoc, eq_comm]
        · simp [hw, Contribution.wait]
        · simp [hc, Contribution.wait, Contribution.ofChild]
      | true =>
        simp only [he, Except.bind, Fold.add_advice, Fold.isStuck_ofDays]
        obtain ⟨s, w, c, hf, hs, hw, hc⟩ := ih strict (advice ++ [day]) children hrest
        refine ⟨s, w, c, hf, fun d => ?_, fun d => ?_, fun d => ?_⟩
        · simp [hs, Contribution.wait]
        · simp [hw, Contribution.wait, Interval.atLeast, or_assoc, eq_comm]
        · simp [hc, Contribution.wait, Contribution.ofChild]
    · exact absurd he (h e List.mem_cons_self)

/-- One edge that overflows fails the whole gathering, wherever in the list it stands. -/
theorem gather_of_overflow {e : Edge} {edges : List Edge} (strict advice children : List Day)
    (he : e ∈ edges) (h : p.contribution? e = .error .overflow) :
    (p.gather (.ofDays strict advice children) edges).outcome = .error .overflow := by
  induction edges generalizing strict advice children with
  | nil => exact absurd he List.not_mem_nil
  | cons e' edges ih =>
    rw [gather_cons]
    rcases List.mem_cons.mp he with rfl | he
    · rw [h]
      rfl
    · rcases p.contribution?_cases e' with he' | ⟨child, he'⟩ | ⟨weak, day, he'⟩ | he'
      · rw [he']
        exact ih _ _ _ he
      · simp only [he', Except.bind, Fold.add_ofChild, Fold.isStuck_ofDays]
        exact ih _ _ _ he
      · cases weak
        · simp only [he', Except.bind, Fold.add_strict, Fold.isStuck_ofDays]
          exact ih _ _ _ he
        · simp only [he', Except.bind, Fold.add_advice, Fold.isStuck_ofDays]
          exact ih _ _ _ he
      · rw [he']
        rfl

/-! ## The edges into a task -/

/-- The dependencies that bind a task: those declared on it, and on what contains it. -/
def binding (p : Project) (id : TaskId) : List Dependency :=
  p.dependencies.filter fun d => d.dependant = id ∨ p.isAncestor d.dependant id

/-- A task is bound by its own dependencies and by those of the containers it is inside. -/
theorem mem_binding : d ∈ p.binding id ↔
    d ∈ p.dependencies ∧ (d.dependant = id ∨ p.isAncestor d.dependant id) := by
  simp [binding]

/-- The edges into a task come from its children and from the dependencies that bind it. -/
theorem mem_incoming_network (hp : p.Sound) {e : Edge} :
    e ∈ p.network.incoming x ↔
      (∃ child, p.parent? child = some x ∧ e = .ofChild child x) ∨
        ∃ d ∈ p.binding x, e = .ofDependency d x := by
  rw [Network.mem_incoming, network, List.mem_append, List.mem_flatMap]
  constructor
  · rintro ⟨hedge | ⟨d, hd, hedge⟩, rfl⟩
    · obtain ⟨t, -, hmap⟩ := List.mem_filterMap.mp hedge
      obtain ⟨parent, hparent, rfl⟩ := Option.map_eq_some_iff.mp hmap
      exact .inl ⟨t.id, hparent, rfl⟩
    · obtain ⟨target, htarget, rfl⟩ := List.mem_map.mp hedge
      refine .inr ⟨d, mem_binding.mpr ⟨hd, ?_⟩, rfl⟩
      have hroot := hp.ne_root (hp.dependant_mem d hd)
      rw [hp.isAncestor_iff hroot, ← hp.mem_descendants hroot]
      exact (List.mem_cons.mp htarget).imp_left Eq.symm
  · rintro (⟨child, hparent, rfl⟩ | ⟨d, hd, rfl⟩)
    · refine ⟨.inl (List.mem_filterMap.mpr ?_), rfl⟩
      obtain ⟨t, ht, rfl⟩ := List.mem_map.mp (hp.mem_of_parent? hparent).1
      exact ⟨t, ht, by rw [hparent]; rfl⟩
    · obtain ⟨hd, hbound⟩ := mem_binding.mp hd
      have hroot := hp.ne_root (hp.dependant_mem d hd)
      rw [hp.isAncestor_iff hroot, ← hp.mem_descendants hroot] at hbound
      refine ⟨.inr ⟨d, hd, List.mem_map_of_mem (List.mem_cons.mpr ?_)⟩, rfl⟩
      exact hbound.imp_left Eq.symm

theorem contribution?_ofChild (hp : p.Sound) {child : TaskId} (h : p.parent? child = some x) :
    ∃ t, p.task? child = some t ∧ p.contribution? (.ofChild child x) = .ok (some (.ofChild t)) := by
  obtain ⟨t, ht⟩ := exists_task? (hp.mem_of_parent? h).1
  obtain ⟨u, hu⟩ := exists_task? (hp.mem_of_parent? h).2
  refine ⟨t, ht, ?_⟩
  have hsource : p.task? (Edge.ofChild child x).source = some t := ht
  have htarget : p.task? (Edge.ofChild child x).target = some u := hu
  rw [contribution?, hsource, htarget]
  exact congrArg Except.ok (if_pos h)

/-- The start that a dependency accepts for a task. -/
def acceptable (p : Project) (d : Dependency) (id : TaskId) : Except Fault Day :=
  (p.collision d id).map Collision.acceptableStart

/-- A dependency contributes the first workday its dependant may start on, marked as advice when
it is rubber and already kept. -/
theorem contribution?_ofDependency (hp : p.Sound) (hd : d ∈ p.dependencies)
    (ht : p.task? x = some t) :
    p.contribution? (.ofDependency d x) = (p.acceptable d x).map fun start =>
      some (.wait (d.isSlack start t.start) (p.calendar.onOrAfter t.grain start)) := by
  obtain ⟨source, hsource⟩ := exists_task? (hp.dependee_mem d hd)
  have hcollision : p.collision d x = d.collision p.calendar source t := by
    rw [collision, get_of_task? hsource, get_of_task? ht]
    rfl
  rw [contribution?, acceptable, hcollision, Dependency.collision_eq]
  simp only [Edge.ofDependency, hsource, ht, hp.dependency?_of_mem hd, Dependency.collision_eq]
  cases d.acceptableStart p.calendar source t with
  | error fault => rfl
  | ok start =>
    have hslack : (!(match d.hardness with
        | .strong => decide (t.start ≠ start)
        | .rubber => decide (t.start < start)) && d.hardness = .rubber) =
          d.isSlack start t.start := by
      rw [Dependency.isSlack]
      cases d.hardness with
      | strong => simp
      | rubber =>
        have hkept : decide (start ≤ t.start) = !decide (t.start < start) := by
          rw [← decide_not]
          exact decide_eq_decide.mpr not_lt.symm
        simp [hkept]
    show Except.ok (some (Contribution.mk _ _ _ _)) = _
    rw [hslack]
    rfl

/-- In a sound project the start a dependency accepts can fail by overflow only. -/
theorem acceptable_error (hp : p.Sound) (hd : d ∈ p.dependencies) (ht : p.task? x = some t)
    {fault : Fault} (h : p.acceptable d x = .error fault) : fault = .overflow := by
  rcases p.contribution?_cases (.ofDependency d x) with he | ⟨child, he⟩ | ⟨weak, day, he⟩ | he <;>
    rw [contribution?_ofDependency hp hd ht, h] at he <;> cases he
  rfl

/-- The starts that the dependencies binding a task accept for it. -/
def Accepts (p : Project) (id : TaskId) (accept : Dependency → Day) : Prop :=
  ∀ d ∈ p.binding id, p.acceptable d id = .ok (accept d)

/-- Starts are accepted, or some length is too large to be turned around. -/
theorem exists_accepts (hp : p.Sound) (ht : p.task? x = some t) :
    (∃ accept, p.Accepts x accept) ∨ ∃ d ∈ p.binding x, p.acceptable d x = .error .overflow := by
  by_cases h : ∃ d ∈ p.binding x, p.acceptable d x = .error .overflow
  · exact .inr h
  · have hok : ∀ d, ∃ day, d ∈ p.binding x → p.acceptable d x = .ok day := by
      intro d
      by_cases hd : d ∈ p.binding x
      · cases hacc : p.acceptable d x with
        | ok day => exact ⟨day, fun _ => rfl⟩
        | error fault =>
          rw [acceptable_error hp (mem_binding.mp hd).1 ht hacc] at hacc
          exact absurd ⟨d, hd, hacc⟩ h
      · exact ⟨Day.first, fun hd' => absurd hd' hd⟩
    choose accept haccept using hok
    exact .inl ⟨accept, haccept⟩

end Project

/-- The accepted starts, put on working units. -/
def Task.snaps (t : Task) (c : Calendar) (ds : List Dependency) (accept : Dependency → Day) :
    List Day :=
  ds.map fun d => c.onOrAfter t.grain (accept d)

/-- There are dependencies, and all of them are loose and kept. -/
def Task.IsAtEase (t : Task) (ds : List Dependency) (accept : Dependency → Day) : Prop :=
  ds ≠ [] ∧ ∀ d ∈ ds, d.isSlack (accept d) t.start

instance (t : Task) (ds : List Dependency) (accept : Dependency → Day) :
    Decidable (t.IsAtEase ds accept) :=
  inferInstanceAs (Decidable (_ ∧ _))

/-- The days that bound the start of a task without children from below. -/
def Task.floors (t : Task) (c : Calendar) (ds : List Dependency) (accept : Dependency → Day) :
    List Day :=
  t.snaps c ds accept ++ t.earliestBegin.toList ++ if t.IsAtEase ds accept then [t.start] else []

/-- The floors of a leaf: a workday for each dependency, its anchor, and its old start where only
kept rubber dependencies bind it. -/
theorem Task.mem_floors {t : Task} {c : Calendar} {ds : List Dependency} {accept : Dependency → Day}
    {day : Day} : day ∈ t.floors c ds accept ↔
      (∃ d ∈ ds, day = c.onOrAfter t.grain (accept d)) ∨ t.earliestBegin = some day ∨
        (day = t.start ∧ ds ≠ [] ∧ ∀ d ∈ ds, d.hardness = .rubber ∧ accept d ≤ t.start) := by
  have hease : t.IsAtEase ds accept ↔
      ds ≠ [] ∧ ∀ d ∈ ds, d.hardness = .rubber ∧ accept d ≤ t.start := by
    simp only [IsAtEase, Dependency.isSlack, Bool.and_eq_true, decide_eq_true_eq]
  rw [floors, List.mem_append, List.mem_append, or_assoc, snaps, List.mem_map, Option.mem_toList]
  refine or_congr (exists_congr fun d => and_congr_right fun _ => eq_comm) (or_congr_right ?_)
  split
  · next h =>
    rw [List.mem_singleton]
    exact (and_iff_left (hease.mp h)).symm
  · next h => exact iff_of_false List.not_mem_nil fun hcontra => h (hease.mpr hcontra.2)

namespace Project

variable {p : Project} {x : TaskId} {t : Task} {accept : Dependency → Day}

/-- Starts and ends of the tasks directly inside a task. -/
def childDays (p : Project) (id : TaskId) : List Day :=
  ((p.children id).filterMap p.task?).flatMap fun t => [t.start, t.finish]

theorem mem_childDays {id : TaskId} {day : Day} : day ∈ p.childDays id ↔
    ∃ child ∈ p.children id, ∃ t, p.task? child = some t ∧ (day = t.start ∨ day = t.finish) := by
  simp only [childDays, List.mem_flatMap, List.mem_filterMap, List.mem_cons, List.not_mem_nil,
    or_false]
  constructor
  · rintro ⟨t, ⟨child, hchild, ht⟩, hday⟩
    exact ⟨child, hchild, t, ht, hday⟩
  · rintro ⟨child, hchild, t, ht, hday⟩
    exact ⟨t, ⟨child, hchild, ht⟩, hday⟩

/-- A container has children, and these have dates. -/
theorem childDays_ne_nil (hp : p.Sound) (hx : x ≠ .root) (hparent : p.hasChildren x) :
    p.childDays x ≠ [] := by
  obtain ⟨y, hy⟩ := hasChildren_iff.mp hparent
  obtain ⟨u, hu⟩ := exists_task? (hp.mem_of_parent? ((hp.parent?_iff_mem_children hx).mpr hy)).1
  exact List.ne_nil_of_mem (mem_childDays.mpr ⟨y, hy, u, hu, .inl rfl⟩)

/-- **What the edges into a task leave**: the dependencies that bind it name days, strictly or
as advice, and its children give their dates. -/
theorem gather_incoming (hp : p.Sound) (ht : p.task? x = some t) (haccept : p.Accepts x accept) :
    ∃ strict advice children,
      (p.gather .empty (p.network.incoming x)).outcome = .ok (.ofDays strict advice children) ∧
      (∀ day, day ∈ strict ↔ ∃ d ∈ p.binding x,
        d.isSlack (accept d) t.start = false ∧ p.calendar.onOrAfter t.grain (accept d) = day) ∧
      (∀ day, day ∈ advice ↔ ∃ d ∈ p.binding x,
        d.isSlack (accept d) t.start = true ∧ p.calendar.onOrAfter t.grain (accept d) = day) ∧
      (∀ day, day ∈ children ↔ day ∈ p.childDays x) := by
  have hdep : ∀ d ∈ p.binding x, p.contribution? (.ofDependency d x) =
      .ok (some
        (.wait (d.isSlack (accept d) t.start) (p.calendar.onOrAfter t.grain (accept d)))) := by
    intro d hd
    rw [contribution?_ofDependency hp (mem_binding.mp hd).1 ht, haccept d hd]
    rfl
  have hfine : ∀ e ∈ p.network.incoming x, p.contribution? e ≠ .error .overflow := by
    intro e he herr
    rcases (mem_incoming_network hp).mp he with ⟨child, hparent, rfl⟩ | ⟨d, hd, rfl⟩
    · obtain ⟨u, -, hu⟩ := contribution?_ofChild hp hparent
      rw [hu] at herr
      cases herr
    · rw [hdep d hd] at herr
      cases herr
  -- a day is named in a role by an edge exactly if a dependency names it in that role
  have hwait : ∀ weak day,
      (∃ e ∈ p.network.incoming x, p.contribution? e = .ok (some (.wait weak day))) ↔
      ∃ d ∈ p.binding x, d.isSlack (accept d) t.start = weak ∧
        p.calendar.onOrAfter t.grain (accept d) = day := by
    intro weak day
    constructor
    · rintro ⟨e, he, hcontr⟩
      rcases (mem_incoming_network hp).mp he with ⟨child, hparent, rfl⟩ | ⟨d, hd, rfl⟩
      · obtain ⟨u, -, hu⟩ := contribution?_ofChild hp hparent
        rw [hu] at hcontr
        cases hcontr
      · rw [hdep d hd] at hcontr
        cases hcontr
        exact ⟨d, hd, rfl, rfl⟩
    · rintro ⟨d, hd, rfl, rfl⟩
      exact ⟨_, (mem_incoming_network hp).mpr (.inr ⟨d, hd, rfl⟩), hdep d hd⟩
  obtain ⟨strict, advice, children, hf, hs, hw, hc⟩ :=
    gather_ofDays (p.network.incoming x) [] [] [] hfine
  refine ⟨strict, advice, children, hf, fun day => ?_, fun day => ?_, fun day => ?_⟩
  · rw [hs, hwait]
    simp
  · rw [hw, hwait]
    simp
  · have hroot := hp.ne_root_of_task? ht
    rw [hc, mem_childDays]
    constructor
    · rintro (h | ⟨e, he, u, hcontr, hday⟩)
      · exact absurd h List.not_mem_nil
      · rcases (mem_incoming_network hp).mp he with ⟨child, hparent, rfl⟩ | ⟨d, hd, rfl⟩
        · obtain ⟨v, hv, hcontr'⟩ := contribution?_ofChild hp hparent
          rw [hcontr'] at hcontr
          refine ⟨child, mem_children_of_parent? hparent, v, hv, ?_⟩
          have hspan : some (v.start, v.finish) = some (u.start, u.finish) :=
            congrArg Contribution.boundaries? (Option.some.inj (Except.ok.inj hcontr))
          obtain ⟨hstart, hfinish⟩ := Prod.mk.inj (Option.some.inj hspan)
          rwa [hstart, hfinish]
        · rw [hdep d hd] at hcontr
          cases hcontr
    · rintro ⟨child, hchild, u, hu, hday⟩
      have hparent := (hp.parent?_iff_mem_children hroot).mpr hchild
      obtain ⟨v, hv, hcontr⟩ := contribution?_ofChild hp hparent
      cases hu.symm.trans hv
      exact .inr ⟨_, (mem_incoming_network hp).mpr (.inl ⟨child, hparent, rfl⟩), u, hcontr, hday⟩

end Project

end Workplan
