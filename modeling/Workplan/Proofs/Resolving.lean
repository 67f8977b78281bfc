import Workplan.Proofs.Flat
import Workplan.Proofs.Schedulable
import Workplan.Proofs.Windows

/-!
# Resolving dependencies

In a project without nesting, each dependency that is resolved leaves everything alone, or sends
its dependant to the latest start that the dependencies on that task demand, on the dates as they
are.

- `Task.sentTo`: a task that is sent to a day.
- `Calendar.LandsAt`: where a task ends up that is sent to a day.
- `Project.startFor`, `resolveTask_alone`: moving a task is sending it to the start that suits all
  dependencies on it.
- `Project.Plain`: a project without nesting, counted in days.
- `Project.demand`: the start that a dependency demands on the dates as they are.
- `Project.Plain.resolveTask`, `Project.Plain.resolveDependency`: what one step does, exactly.
- `exists_resolveAll`: what each step preserves holds after all of them.
- `Project.recompute_of_resolveAll`: a recomputation as a list of such steps.
-/

namespace Workplan

open Act Collision

variable {p q : Project} {x : TaskId} {t : Task} {d : Dependency} {c : Calendar}
  {accept : Dependency → Day} {floor : Day} {fault : Fault}

/-! ## Where a task ends up -/

/-- The task sent to a day.  It walks to the next working day from there on. -/
def Task.sentTo (t : Task) (c : Calendar) (day : Day) : Task :=
  t.movedTo c (c.landing t.start (c.onOrAfter .day day))

namespace Calendar

/-- A task sent to a day starts on the next working day.  Behind the last working day it may
start anywhere, but still behind it. -/
structure LandsAt (c : Calendar) (day start : Day) : Prop where
  reaches : c.ReachesWork start ↔ c.ReachesWork day
  eq : c.ReachesWork day → start = c.onOrAfter .day day

/-- The first workday from a day on is where a demand for that day lands. -/
theorem landsAt_onOrAfter (hc : c.GapsBelowHorizon) (day : Day) :
    c.LandsAt day (c.onOrAfter .day day) :=
  ⟨reachesWork_onOrAfter hc, fun _ => rfl⟩

/-- A move towards that workday lands there from any start. -/
theorem landsAt_landing (hc : c.GapsBelowHorizon) (start day : Day) :
    c.LandsAt day (c.landing start (c.onOrAfter .day day)) := by
  refine ⟨reachesWork_landing_onOrAfter hc, fun h => ?_⟩
  exact landing_eq hc (h.isNextWorkday hc).working

namespace LandsAt

variable {day start : Day} (h : c.LandsAt day start) (hc : c.GapsBelowHorizon)
include h hc

theorem le (hreach : c.ReachesWork start) : day ≤ start := by
  rw [h.eq (h.reaches.mp hreach)]
  exact le_onOrAfter hc day

theorem working_or : c.isWorking start ∨ ¬ c.ReachesWork start := by
  by_cases hreach : c.ReachesWork day
  · rw [h.eq hreach]
    exact .inl (hreach.isNextWorkday hc).working
  · exact .inr fun hstart => hreach (h.reaches.mp hstart)

end LandsAt

end Calendar

/-! ## Collisions -/

namespace Project

/-- The start a collision accepts is the one its dependency accepts. -/
theorem acceptable_of_collision {k : Collision} (h : p.collision d x = .ok k) :
    p.acceptable d x = .ok k.acceptableStart := by
  rw [acceptable, h]
  rfl

/-- The start that is accepted, and whether it is missed. -/
theorem collision_of_acceptable {day : Day} (ht : p.task? x = some t)
    (h : p.acceptable d x = .ok day) : p.collision d x = .ok ⟨day, .later, match d.hardness with
      | .strong => decide (t.start ≠ day)
      | .rubber => decide (t.start < day)⟩ := by
  obtain ⟨k, hk, rfl⟩ := exists_of_map_eq_ok h
  rw [hk]
  rw [collision] at hk
  obtain ⟨source, -, hk⟩ := exists_of_bind_eq_ok hk
  obtain ⟨target, htarget, hk⟩ := exists_of_bind_eq_ok hk
  cases (get_eq_ok_iff.mp htarget).symm.trans ht
  rw [Dependency.collision_eq] at hk
  obtain ⟨start, -, rfl⟩ := exists_of_map_eq_ok hk
  rfl

/-- When every dependency accepts a start, every one of them has a collision, which asks for that
start or later. -/
theorem exists_collisions {ds : List Dependency} (ht : p.task? x = some t)
    (h : ∀ d ∈ ds, p.acceptable d x = .ok (accept d)) :
    ∃ ks, ds.mapM (fun d => p.collision d x) = .ok ks ∧
      ks.map acceptableStart = ds.map accept ∧ ∀ k ∈ ks, k.variation = .later := by
  induction ds with
  | nil => exact ⟨[], rfl, rfl, fun _ hk => absurd hk List.not_mem_nil⟩
  | cons d ds ih =>
    obtain ⟨ks, hks, hstarts, hlater⟩ := ih fun e he => h e (List.mem_cons_of_mem d he)
    obtain ⟨k, hk, hstart, hkind⟩ : ∃ k, p.collision d x = .ok k ∧ k.acceptableStart = accept d ∧
        k.variation = .later := ⟨_, collision_of_acceptable ht (h d List.mem_cons_self), rfl, rfl⟩
    refine ⟨k :: ks, ?_, ?_, ?_⟩
    · rw [List.mapM_cons, hk, hks]
      rfl
    · rw [List.map_cons, List.map_cons, hstart, hstarts]
    · intro k' hk'
      rcases List.mem_cons.mp hk' with rfl | hk'
      · exact hkind
      · exact hlater k' hk'

end Project

/-! ## Moving one task -/

namespace Project

/-- The start that suits all dependencies on a task; `none` if there are none. -/
def startFor (p : Project) (x : TaskId) : Except Fault (Option Day) := do
  let t ← p.get x
  let collisions ← (p.incoming x).mapM fun d => p.collision d x
  if collisions.isEmpty then return none
  else (resolveStart x t.start collisions).map some

theorem startFor_of_error (h : p.get x = .error fault) : p.startFor x = .error fault := by
  rw [startFor, h]
  rfl

/-- The start for a task resolves the collisions of its incoming dependencies, if it has any. -/
theorem startFor_eq (ht : p.get x = .ok t) : p.startFor x =
    ((p.incoming x).mapM fun d => p.collision d x).bind fun ks =>
      if ks.isEmpty then .ok none else (resolveStart x t.start ks).map some := by
  rw [startFor, ht]
  rfl

/-- It is the latest that one of them accepts. -/
theorem startFor_of_accepted (ht : p.task? x = some t)
    (h : ∀ d ∈ p.incoming x, p.acceptable d x = .ok (accept d)) :
    p.startFor x = .ok (latest? ((p.incoming x).map accept)) := by
  obtain ⟨ks, hks, hstarts, hlater⟩ := exists_collisions ht h
  rw [startFor_eq (get_of_task? ht), hks, Except.bind, ← hstarts]
  cases ks with
  | nil => rfl
  | cons k ks =>
    have hne : (k :: ks).map acceptableStart ≠ [] := List.cons_ne_nil _ _
    obtain ⟨floor, hfloor⟩ := exists_latest? hne
    rw [hfloor, resolveStart_of_later hlater hfloor]
    rfl

/-- A task that was sent somewhere is still there to be read. -/
theorem exists_task?_of_commit {day : Day} {changed : Bool}
    (h : Host.alone.commit (.startAt x day) p = (.ok changed, q)) : ∃ t, q.task? x = some t := by
  cases hk : p.change (.startAt x day) with
  | error fault =>
    rw [commit_of_error hk] at h
    cases h
  | ok done =>
    rw [commit_of_ok hk, Prod.mk.injEq] at h
    obtain ⟨-, rfl⟩ := h
    rcases redated_of_startAt hk with hsame | ⟨t, new, ht, hnew, hq⟩
    · rw [hsame]
      obtain ⟨t, ht, -⟩ := exists_of_bind_eq_ok (show p.startAt x day = _ from hk)
      exact ⟨t, get_eq_ok_iff.mp ht⟩
    · rw [hq]
      exact ⟨new, task?_replace_self ht (congrArg Task.id hnew : new.undated.id = t.undated.id)⟩

end Project

/-- **Moving a task is sending it to the start that suits all dependencies on it.** -/
theorem resolveTask_alone (p : Project) (x : TaskId) :
    resolveTask Host.alone x p = match p.startFor x with
      | .error fault => (.error fault, p)
      | .ok none => (.ok false, p)
      | .ok (some start) => Host.alone.commit (.startAt x start) p := by
  rw [resolveTask]
  rcases hget : p.get x with fault | t
  · rw [Project.startFor_of_error hget]
    exact bind_of_error (by rw [ask_alone, hget])
  have hask : Host.alone.ask (fun p => p.get x) p = (.ok t, p) := by
    rw [ask_alone, hget]
  rw [bind_of_ok hask, Project.startFor_eq hget]
  rcases hks : (p.incoming x).mapM fun d => p.collision d x with fault | ks
  · exact bind_of_error (by rw [ask_alone, hks])
  have hcollisions : Host.alone.ask (fun p => (p.incoming x).mapM fun d => p.collision d x) p =
      (.ok ks, p) := by
    rw [ask_alone, hks]
  rw [bind_of_ok hcollisions, Except.bind]
  dsimp only
  cases ks.isEmpty with
  | true => rfl
  | false =>
    rw [if_neg (by decide), if_neg (by decide)]
    rcases hstart : resolveStart x t.start ks with fault | start
    · exact bind_of_error (ask_alone _ p)
    have hsolved : Host.alone.ask (fun _ => (.ok start : Except Fault Day)) p = (.ok start, p) :=
      rfl
    rw [bind_of_ok hsolved]
    show (Host.alone.change (.startAt x start) >>= _) p = Host.alone.commit (.startAt x start) p
    rcases hcommit : Host.alone.commit (.startAt x start) p with ⟨fault | _ | _, q⟩
    · exact bind_of_error hcommit
    · exact bind_of_ok hcommit
    · -- a task that has moved is read back to be told
      obtain ⟨u, hu⟩ := Project.exists_task?_of_commit hcommit
      have hread : Host.alone.ask (fun p => p.get x) q = (.ok u, q) := by
        rw [ask_alone, Project.get_of_task? hu]
      refine (bind_of_ok hcommit).trans ?_
      rw [if_pos rfl, bind_of_ok hread]
      rfl

/-! ## Kept dependencies -/

/-- Whether a dependency asks for nothing: the start is the demanded one, or a later one if it is
loose. -/
def Dependency.isKept (d : Dependency) (demand start : Day) : Bool :=
  match d.hardness with
  | .strong => start = demand
  | .rubber => demand ≤ start

namespace Dependency

variable {d : Dependency} {demand start : Day}

/-- A strong dependency is kept by the start it demands and by no other. -/
theorem isKept_of_strong (h : d.hardness = .strong) :
    d.isKept demand start = decide (start = demand) := by
  rw [isKept, h]

theorem isKept_of_rubber (h : d.hardness = .rubber) :
    d.isKept demand start = decide (demand ≤ start) := by
  rw [isKept, h]

theorem le_of_isKept (h : d.isKept demand start) : demand ≤ start := by
  cases hkind : d.hardness with
  | strong =>
    rw [isKept_of_strong hkind] at h
    exact (of_decide_eq_true h).ge
  | rubber =>
    rw [isKept_of_rubber hkind] at h
    exact of_decide_eq_true h

end Dependency

/-! ## Projects without nesting -/

namespace Project

variable {y : TaskId} {u : Task} {e : Dependency}

/-- No task contains others, and all are counted in days, forward, and within the days there
are. -/
structure Plain (p : Project) : Prop where
  sound : p.Sound
  gaps : p.calendar.GapsBelowHorizon
  flat : p.Flat
  days : ∀ t ∈ p.tasks, t.grain = .day
  lengths : ∀ t ∈ p.tasks, 0 ≤ t.duration.count ∧ t.duration.count < Day.count

/-- The start that a dependency demands on the dates as they are. -/
def demand (p : Project) (d : Dependency) : Day :=
  match p.acceptable d d.dependant with
  | .ok day => day
  | .error _ => Day.first

/-- The same tasks with the same durations, maybe on other dates. -/
structure SameLengths (p q : Project) : Prop where
  frame : SameFrame p q
  duration : ∀ x t u, p.task? x = some t → q.task? x = some u → u.duration = t.duration

theorem SameLengths.refl (p : Project) : p.SameLengths p :=
  ⟨.refl p, fun _ _ _ ht hu => by cases hu.symm.trans ht; rfl⟩

theorem SameLengths.trans {r : Project} (h : p.SameLengths q) (h' : q.SameLengths r) :
    p.SameLengths r := by
  refine ⟨h.frame.trans h'.frame, fun x t u ht hu => ?_⟩
  obtain ⟨v, hv, -⟩ := h.frame.exists_task? ht
  exact (h'.duration x v u hv hu).trans (h.duration x t v ht hv)

namespace Plain

variable (hp : p.Plain)
include hp

/-- In a plain project every dependency accepts the start it demands. -/
theorem acceptable (hd : d ∈ p.dependencies) :
    p.acceptable d d.dependant = .ok (p.demand d) := by
  obtain ⟨t, ht⟩ := exists_task? (hp.sound.dependant_mem d hd)
  unfold demand
  cases hacc : p.acceptable d d.dependant with
  | ok day => rfl
  | error fault =>
    rw [acceptable_error hp.sound hd ht hacc] at hacc
    have hmem := mem_of_task? ht
    exact absurd hacc (acceptable_ne_overflow hp.sound hd ht (hp.days t hmem)
      fun _ => hp.lengths t hmem)

/-- A demand changes only with the dates of the dependee. -/
theorem demand_congr (h : p.SameLengths q) (hd : d ∈ p.dependencies)
    (hsource : q.task? d.dependee = p.task? d.dependee) : q.demand d = p.demand d := by
  obtain ⟨t, ht⟩ := exists_task? (hp.sound.dependant_mem d hd)
  obtain ⟨u, hu, -⟩ := h.frame.exists_task? ht
  have := h.frame.acceptable hp.sound hd hsource ht hu fun _ => h.duration _ _ _ ht hu
  rw [demand, demand, this]

theorem of_sameLengths (hq : q.Sound) (h : p.SameLengths q) : q.Plain := by
  have hrow : ∀ u ∈ q.tasks, ∃ t ∈ p.tasks, t.id = u.id ∧ u.duration = t.duration := by
    intro u hu
    have hmem : u.id ∈ p.tasks.map Task.id := by
      rw [← h.frame.ids]
      exact List.mem_map_of_mem hu
    obtain ⟨t, ht, hid⟩ := List.mem_map.mp hmem
    refine ⟨t, ht, hid, h.duration u.id t u ?_ (hq.task?_of_mem hu)⟩
    rw [← hid]
    exact hp.sound.task?_of_mem ht
  refine ⟨hq, ?_, fun u hu => ?_, fun u hu => ?_, fun u hu => ?_⟩
  · rw [h.frame.calendar]
    exact hp.gaps
  · obtain ⟨t, ht, hid, -⟩ := hrow u hu
    rw [h.frame.hasChildren, ← hid]
    exact hp.flat t ht
  · obtain ⟨t, ht, -, hduration⟩ := hrow u hu
    rw [Task.grain, hduration]
    exact hp.days t ht
  · obtain ⟨t, ht, -, hduration⟩ := hrow u hu
    rw [hduration]
    exact hp.lengths t ht

/-- A task moved to another start keeps its length. -/
theorem sameLengths_movedTo (ht : p.task? x = some t) (start : Day) :
    p.SameLengths (p.replace (t.movedTo p.calendar start)) := by
  have hid := id_of_task? ht
  refine ⟨sameFrame_replace hp.sound.ids_nodup ht rfl, fun y u v hu hv => ?_⟩
  by_cases hy : y = x
  · subst hy
    cases hv.symm.trans (task?_replace_self ht rfl)
    cases hu.symm.trans ht
    rfl
  · have hne : y ≠ (t.movedTo p.calendar start).id := fun e => hy (e.trans hid)
    rw [task?_replace_of_ne hne, hu] at hv
    cases hv
    rfl

/-! ## One step -/

/-- The collision of a dependency is its demand, and tells whether it is kept. -/
theorem collision (hd : d ∈ p.dependencies) (ht : p.task? d.dependant = some t) :
    p.collision d d.dependant =
      .ok ⟨p.demand d, .later, !d.isKept (p.demand d) t.start⟩ := by
  rw [collision_of_acceptable ht (hp.acceptable hd)]
  cases hkind : d.hardness with
  | strong =>
    rw [Dependency.isKept_of_strong hkind, ← decide_not]
  | rubber =>
    rw [Dependency.isKept_of_rubber hkind, ← decide_not]
    simp only [not_le]

/-- A task is left alone, or goes where it is sent. -/
theorem change_startAt (ht : p.task? x = some t) (day : Day) :
    Host.alone.change (.startAt x day) p =
      if p.calendar.onOrAfter .day day = t.start then (.ok false, p)
      else (.ok true, p.replace (t.sentTo p.calendar day)) := by
  have hmem := mem_of_task? ht
  have hleaf : p.hasChildren x = false := id_of_task? ht ▸ hp.flat t hmem
  have hpoint := (hp.sound.regular_of_task? ht).point
  show Host.alone.commit _ p = _
  rw [commit_startAt ht hleaf (hp.days t hmem) hpoint day]
  by_cases hsame : p.calendar.onOrAfter .day day = t.start
  · rw [if_pos hsame, if_pos hsame]
  · rw [if_neg hsame, if_neg hsame, redate, if_neg (not_lt.mpr (Calendar.le_shiftDays ?_ _))]
    · have hmoves := Calendar.landing_ne hp.gaps hsame
      have hnew : t.sentTo p.calendar day ≠ t := fun e => hmoves (congrArg Task.start e)
      exact Prod.ext (congrArg Except.ok (decide_eq_true hnew)) rfl
    · exact (hp.lengths t hmem).1

/-- **A violated dependency sends its dependant to the latest demand**, put on a working day. -/
theorem resolveTask (hd : d ∈ p.dependencies) (ht : p.task? d.dependant = some t) :
    ∃ floor, latest? ((p.incoming d.dependant).map p.demand) = some floor ∧
      Workplan.resolveTask Host.alone d.dependant p =
        if p.calendar.onOrAfter .day floor = t.start then (.ok false, p)
        else (.ok true, p.replace (t.sentTo p.calendar floor)) := by
  have hmem : d ∈ p.incoming d.dependant := mem_incoming.mpr ⟨hd, rfl⟩
  have haccept : ∀ e ∈ p.incoming d.dependant, p.acceptable e d.dependant = .ok (p.demand e) := by
    intro e he
    obtain ⟨he, htarget⟩ := mem_incoming.mp he
    rw [← htarget]
    exact hp.acceptable he
  obtain ⟨floor, hfloor⟩ := exists_latest? (List.ne_nil_of_mem (List.mem_map_of_mem hmem))
  refine ⟨floor, hfloor, ?_⟩
  rw [resolveTask_alone, startFor_of_accepted ht haccept, hfloor]
  exact hp.change_startAt ht floor

/-- **What one step does**: nothing if the dependency is kept, or if the dependant already is where
the latest demand puts it; otherwise the dependant goes there and is reported. -/
theorem resolveDependency (hd : d ∈ p.dependencies) (ht : p.task? d.dependant = some t)
    (report : RecomputeReport) :
    ∃ floor, latest? ((p.incoming d.dependant).map p.demand) = some floor ∧
      Workplan.resolveDependency Host.alone d.id report [] p =
        if d.isKept (p.demand d) t.start ∨ p.calendar.onOrAfter .day floor = t.start then
          (.ok (report, []), p)
        else (.ok (report.addModified d.dependant, []),
          p.replace (t.sentTo p.calendar floor)) := by
  obtain ⟨floor, hfloor, hrun⟩ := hp.resolveTask hd ht
  refine ⟨floor, hfloor, ?_⟩
  have hread : Host.alone.read (fun p => p.dependency? d.id) p = (.ok (some d), p) := by
    rw [Act.read_alone, hp.sound.dependency?_of_mem hd]
  have hask : Host.alone.ask (fun p => p.collision d d.dependant) p =
      (.ok ⟨p.demand d, .later, !d.isKept (p.demand d) t.start⟩, p) := by
    rw [Act.ask_alone, hp.collision hd ht]
  have hnobody : ([] : List TaskId).contains d.dependant = false := rfl
  rw [Workplan.resolveDependency, Act.bind_of_ok hread]
  dsimp only
  rw [hnobody, if_neg (by decide), Act.bind_of_ok hask, Bool.not_not]
  -- a dependency that is kept stops the run before the task is resolved at all
  by_cases hkept : d.isKept (p.demand d) t.start
  · rw [if_pos hkept, if_pos (.inl hkept)]
    rfl
  have htell : Host.alone.tell (.violated d.dependee d.dependant (p.demand d)) p = (.ok (), p) :=
    rfl
  rw [if_neg hkept, Act.bind_of_ok htell]
  by_cases hsame : p.calendar.onOrAfter .day floor = t.start
  · have hattempt : Host.attempt (Workplan.resolveTask Host.alone d.dependant) p =
        (.ok (.ok false), p) := by
      rw [Host.attempt, hrun, if_pos hsame]
    rw [if_pos (.inr hsame), Act.bind_of_ok hattempt]
    rfl
  · have hattempt : Host.attempt (Workplan.resolveTask Host.alone d.dependant) p =
        (.ok (.ok true), p.replace (t.sentTo p.calendar floor)) := by
      rw [Host.attempt, hrun, if_neg hsame]
    rw [if_neg (not_or.mpr ⟨hkept, hsame⟩), Act.bind_of_ok hattempt]
    rfl

end Plain

end Project

/-! ## Dependencies one after the other -/

variable {report : RecomputeReport} {givenUp : List TaskId}
  {outcome : RecomputeReport × List TaskId}

theorem RecomputeReport.mem_addModified {id : TaskId} :
    x ∈ (report.addModified id).modified ↔ x ∈ report.modified ∨ x = id := by
  unfold addModified
  split
  · next h =>
    have hid : id ∈ report.modified := by simpa using h
    constructor
    · exact .inl
    · rintro (hx | rfl)
      · exact hx
      · exact hid
  · simp

/-- What each step preserves, with nobody given up, holds after all of them. -/
theorem exists_resolveAll
    (I : (done rest : List Dependency) → RecomputeReport → Project → Prop)
    (hstep : ∀ {done d rest report r}, I done (d :: rest) report r → ∃ report' r',
      resolveDependency Host.alone d.id report [] r = (.ok (report', []), r') ∧
        I (done ++ [d]) rest report' r')
    {done ds : List Dependency} (report : RecomputeReport) (h : I done ds report p) :
    ∃ report' q, resolveAll Host.alone (ds.map Dependency.id) report [] p =
        (.ok (report', []), q) ∧
      I (done ++ ds) [] report' q := by
  induction ds generalizing done p report with
  | nil => exact ⟨report, p, rfl, by rwa [List.append_nil]⟩
  | cons d ds ih =>
    obtain ⟨first, r, hfirst, hnext⟩ := hstep h
    obtain ⟨report', q, hrun, hall⟩ := ih first hnext
    refine ⟨report', q, ?_, ?_⟩
    · rw [List.map_cons, resolveAll, Act.bind_of_ok hfirst]
      exact hrun
    · rwa [List.append_assoc, List.singleton_append] at hall

/-- A list of dependencies can be worked off in two goes. -/
theorem exists_of_resolveAll_append {first rest : List DependencyId}
    (h : resolveAll Host.alone (first ++ rest) report givenUp p = (.ok outcome, q)) :
    ∃ middle r, resolveAll Host.alone first report givenUp p = (.ok middle, r) ∧
      resolveAll Host.alone rest middle.1 middle.2 r = (.ok outcome, q) := by
  induction first generalizing report givenUp p with
  | nil => exact ⟨(report, givenUp), p, rfl, h⟩
  | cons id first ih =>
    obtain ⟨next, r', hstep, hlater⟩ := exists_of_bind_ok h
    obtain ⟨middle, r, hfirst, hrest⟩ := ih hlater
    refine ⟨middle, r, ?_, hrest⟩
    rw [resolveAll, Act.bind_of_ok hstep]
    exact hfirst

/-- Resolving by distance is resolving one after the other. -/
theorem resolveReach_of_resolveAll {reach : Reach}
    (h : resolveAll Host.alone (reach.flatMap Prod.snd) report givenUp p = (.ok outcome, q)) :
    resolveReach Host.alone reach report givenUp p = (.ok outcome.1, q) := by
  induction reach generalizing report givenUp p with
  | nil =>
    cases h
    rfl
  | cons wave farther ih =>
    obtain ⟨distance, ids⟩ := wave
    rw [List.flatMap_cons] at h
    obtain ⟨middle, r, hnear, hfar⟩ := exists_of_resolveAll_append h
    have htell : Host.alone.tell (.distanceReached distance ids) p = (.ok (), p) := rfl
    rw [resolveReach, Act.bind_of_ok htell, Act.bind_of_ok hnear]
    exact ih hfar

/-! ## Whole runs -/

namespace Project

variable {reach : Reach}

theorem reaches_singleton (ht : p.task? x = some t) (hreach : p.reach [x] = .ok reach) :
    p.reaches [x] = .ok [(x, reach)] := by
  rw [reaches, List.mapM_cons, get_of_task? ht, hreach]
  rfl

/-- A recomputation from a task resolves what the task reaches, and has nothing to fit. -/
theorem recompute_of_resolveAll (ht : p.task? x = some t) (hreach : p.reach [x] = .ok reach)
    {report : RecomputeReport} {givenUp : List TaskId}
    (hrun : resolveAll Host.alone (reach.flatMap Prod.snd) .empty [] p =
      (.ok (report, givenUp), q)) (hq : q.Plain) :
    p.recompute [x] = (.ok { report with adjusted := [] }, q) := by
  have htell : Host.alone.tell (.recomputeFrom x batchDepth) p = (.ok (), p) := rfl
  have hresolved : resolveReaches Host.alone [(x, reach)] .empty p = (.ok report, q) := by
    rw [resolveReaches, Act.bind_of_ok htell, Act.bind_of_ok (resolveReach_of_resolveAll hrun)]
    rfl
  rw [recompute_of_reaches (reaches_singleton ht hreach), Act.bind_of_ok hresolved,
    Act.bind_of_ok (hq.flat.fit_alone hq.sound _)]
  rfl

/-- A recomputation gets through only from a task that is there, and not along a cycle. -/
theorem exists_reach_of_recompute {report : RecomputeReport}
    (h : p.recompute [x] = (.ok report, q)) :
    ∃ t reach, p.task? x = some t ∧ p.reach [x] = .ok reach := by
  cases ht : p.task? x with
  | none =>
    have hreaches : p.reaches [x] = .error (.taskNotFound x) := by
      rw [reaches, List.mapM_cons, get, ht]
      rfl
    rw [recompute_of_error hreaches] at h
    cases h
  | some t =>
    cases hreach : p.reach [x] with
    | error cycle =>
      have hreaches : p.reaches [x] = .error (.cyclic cycle) := by
        rw [reaches, List.mapM_cons, get_of_task? ht, hreach]
        rfl
      rw [recompute_of_error hreaches] at h
      cases h
    | ok reach => exact ⟨t, reach, rfl, rfl⟩

end Project

end Workplan
