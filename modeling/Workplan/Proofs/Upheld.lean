import Workplan.Proofs.Enclosing
import Workplan.Proofs.Names

/-!
# Dependencies after a recomputation

When a dependency comes up, its dependee is not moved any more.  Its dependant may be sent somewhere
else for the sake of others, but never to a day that this dependency does not accept.  So in the end
all dependencies that were reached are upheld.

- `Project.Upholds`: a dependant starts no earlier than the dependency accepts.
- `upholds_of_resolveTask`: moving a task upholds all dependencies on it.
- `Upholding`: what is upheld while others are still to come.
- `upheld_of_recompute`: what is upheld after a whole run.
-/

namespace Workplan

open Act

variable {p q r : Project} {x : TaskId} {t : Task} {d e : Dependency} {changed : Bool}
  {report report' : RecomputeReport} {givenUp givenUp' : List TaskId}

namespace Project

/-- The dependant starts no earlier than the dependency accepts, on the dates as they are. -/
def Upholds (p : Project) (d : Dependency) : Prop :=
  ∃ t start, p.task? d.dependant = some t ∧ p.acceptable d d.dependant = .ok start ∧
    start ≤ t.start

/-- Nothing matters but the dates of the two tasks. -/
theorem Upholds.congr (hp : p.Sound) (hframe : p.SameFrame q) (hd : d ∈ p.dependencies)
    (hsource : q.task? d.dependee = p.task? d.dependee)
    (hself : q.task? d.dependant = p.task? d.dependant) (h : p.Upholds d) : q.Upholds d := by
  obtain ⟨t, start, ht, hstart, hle⟩ := h
  have hu := hself.trans ht
  exact ⟨t, start, hu, (hframe.acceptable hp hd hsource ht hu fun _ => rfl).trans hstart, hle⟩

/-- What a dependency asks nothing for is upheld. -/
theorem upholds_of_inactive (ht : p.task? d.dependant = some t) {k : Collision}
    (hk : p.collision d d.dependant = .ok k) (hkept : k.active = false) : p.Upholds d := by
  have hacc := acceptable_of_collision hk
  refine ⟨t, _, ht, hacc, ?_⟩
  rw [collision_of_acceptable ht hacc, Except.ok.injEq] at hk
  rw [← hk] at hkept
  cases hkind : d.hardness with
  | strong =>
    rw [hkind] at hkept
    simp only [decide_eq_false_iff_not, not_not] at hkept
    exact hkept.ge
  | rubber =>
    rw [hkind] at hkept
    simp only [decide_eq_false_iff_not, not_lt] at hkept
    exact hkept

end Project

/-! ## Moving one task -/

theorem resolveTask_ne_unsatisfiable (hp : p.Sound) (ht : p.task? x = some t) (y : TaskId)
    (reason : Conflict) :
    (resolveTask Host.alone x p).1 ≠ .error (.unsatisfiable y reason) := by
  intro h
  rcases Project.resolveTask_cases hp ht with hrun | ⟨-, hrun⟩ | ⟨floor, -, hrun⟩
  · rw [hrun] at h
    cases h
  · rw [hrun] at h
    cases h
  · rw [hrun] at h
    have hchange := Project.error_of_change (k := .startAt x floor) h
    rcases Project.startAt_error ht hchange with hfault | ⟨-, _, _, hfault⟩
    · cases hfault
    · cases hfault

/-- A task that was moved starts no earlier than any dependency on it accepts, unless it was moved
behind the last working day. -/
theorem exists_of_resolveTask (hp : p.Sound) (hc : p.calendar.GapsBelowHorizon)
    (ht : p.task? x = some t) (hleaf : p.hasChildren x = false) (hday : t.grain = .day)
    (h : resolveTask Host.alone x p = (.ok changed, q)) :
    ∃ u, q.task? x = some u ∧ u.duration = t.duration ∧ ∀ e ∈ p.incoming x, ∃ start,
      p.acceptable e x = .ok start ∧
        ((changed → p.calendar.ReachesWork u.start) → start ≤ u.start) := by
  rcases Project.resolveTask_cases hp ht with hrun | ⟨hnone, hrun⟩ | ⟨floor, hbelow, hrun⟩
  · rw [hrun] at h
    cases h
  · rw [hrun] at h
    cases h
    refine ⟨t, ht, rfl, fun e he => ?_⟩
    rw [hnone] at he
    exact absurd he List.not_mem_nil
  -- the floor is the latest of the demands, so landing on or after it serves all of them
  suffices hlands : ∃ u, q.task? x = some u ∧ u.duration = t.duration ∧
      ((changed → p.calendar.ReachesWork u.start) → floor ≤ u.start) by
    obtain ⟨u, hu, hduration, hlands⟩ := hlands
    refine ⟨u, hu, hduration, fun e he => ?_⟩
    obtain ⟨start, hstart, hle⟩ := hbelow e he
    exact ⟨start, hstart, fun hwork => hle.trans (hlands hwork)⟩
  rw [hrun, Project.commit_startAt ht hleaf hday (hp.regular_of_task? ht).point] at h
  split at h
  · next hsame =>
    cases h
    exact ⟨t, ht, rfl, fun _ => hsame ▸ Calendar.le_onOrAfter hc floor⟩
  next hmoves =>
  rw [Project.redate] at h
  split at h
  · cases h
  cases h
  refine ⟨_, Project.task?_replace_self ht rfl, rfl, fun hwork => ?_⟩
  have hne := Calendar.landing_ne hc hmoves
  refine (Calendar.landsAt_landing hc t.start floor).le hc (hwork ?_)
  exact decide_eq_true fun heq => hne (congrArg Task.start heq)

/-- **Moving a task upholds all dependencies on it.** -/
theorem upholds_of_resolveTask (hp : p.Sound) (hc : p.calendar.GapsBelowHorizon)
    (he : e ∈ p.dependencies) (hapart : e.dependee ≠ e.dependant)
    (hleaf : p.hasChildren e.dependant = false)
    (hday : ∀ t, p.task? e.dependant = some t → t.grain = .day)
    (h : resolveTask Host.alone e.dependant p = (.ok changed, q))
    (hroom : changed → ∀ u, q.task? e.dependant = some u → q.calendar.ReachesWork u.start) :
    q.Upholds e := by
  obtain ⟨t, ht⟩ := Project.exists_task? (hp.dependant_mem e he)
  obtain ⟨u, hu, hduration, hall⟩ := exists_of_resolveTask hp hc ht hleaf (hday t ht) h
  obtain ⟨start, hstart, hle⟩ := hall e (Project.mem_incoming.mpr ⟨he, rfl⟩)
  have hredates := redates_of_resolveTask hp.ids_nodup h
  have hacc := hredates.frame.acceptable hp he (hredates.others _ hapart) ht hu fun _ => hduration
  refine ⟨u, start, hu, hacc.trans hstart, hle fun hchanged => ?_⟩
  rw [← hredates.frame.calendar]
  exact hroom hchanged u hu

/-! ## One dependency after the other -/

/-- A recomputation of `p` is at `q`, with some dependencies done and others left.  Nobody was given
up.  What is done is upheld, unless its dependant was moved behind the last working day. -/
structure Upholding (p : Project) (done rest : List Dependency) (report : RecomputeReport)
    (givenUp : List TaskId) (q : Project) : Prop where
  cascade : p.IsCascade (done ++ rest)
  accounted : Accounted p report q
  nobody : givenUp = []
  clean : report.failures = []
  upheld : ∀ e ∈ done, (e.dependant ∈ report.modified → ∀ t, q.task? e.dependant = some t →
    q.calendar.ReachesWork t.start) → q.Upholds e

namespace Upholding

variable {done rest : List Dependency}

theorem initial (hp : p.Sound) (hcascade : p.IsCascade rest) : Upholding p [] rest .empty [] p :=
  ⟨hcascade, .initial hp, rfl, rfl, fun _ he => absurd he List.not_mem_nil⟩

section

variable (hp : p.Sound) (hc : p.calendar.GapsBelowHorizon)
  (hleaf : ∀ d ∈ p.dependencies, p.hasChildren d.dependant = false)
  (hdays : ∀ d ∈ p.dependencies, ∀ t, p.task? d.dependant = some t → t.grain = .day)
include hp hc hleaf hdays

/-- When a task is moved, the dependencies that are done stay upheld: those on this task are all
taken into account, and the dependees of the others are not moved any more. -/
theorem upheld_of_moved (h : Upholding p done (d :: rest) report givenUp q)
    (hmove : resolveTask Host.alone d.dependant q = (.ok changed, r))
    (hmore : ∀ y ∈ report.modified, y ∈ report'.modified)
    (hself : changed → d.dependant ∈ report'.modified) (he : e ∈ done ++ [d])
    (hroom : e.dependant ∈ report'.modified → ∀ t, r.task? e.dependant = some t →
      r.calendar.ReachesWork t.start) : r.Upholds e := by
  have hq := h.accounted.sound
  have hframe := h.accounted.redates.frame
  have hredates := redates_of_resolveTask hq.ids_nodup hmove
  have hapart : e.dependee ≠ d.dependant :=
    (h.cascade.dependee_ne he d List.mem_cons_self).symm
  have hep : e ∈ p.dependencies := by
    refine h.cascade.subset e ?_
    rw [List.append_cons]
    exact List.mem_append_left rest he
  have heq : e ∈ q.dependencies := hframe.dependencies ▸ hep
  -- a cascade never moves the dependee again, so only the dependant's row can be new
  by_cases hsame : e.dependant = d.dependant
  · rw [← hsame] at hmove hself hapart
    refine upholds_of_resolveTask hq (hframe.calendar ▸ hc) heq hapart
      (hframe.hasChildren ▸ hleaf e hep) (fun u hu => ?_) hmove fun hchanged =>
        hroom (hself hchanged)
    obtain ⟨t, ht⟩ := Project.exists_task? (hp.dependant_mem e hep)
    rw [Task.grain_of_undated (hframe.undated_eq ht hu)]
    exact hdays e hep t ht
  · have hearly : e ∈ done := by
      rcases List.mem_append.mp he with he | he
      · exact he
      · exact absurd (congrArg Dependency.dependant (List.mem_singleton.mp he)) hsame
    have hrow := hredates.others e.dependant hsame
    refine (h.upheld e hearly fun hmem t ht => ?_).congr hq hredates.frame heq
      (hredates.others e.dependee hapart) hrow
    rw [← hredates.frame.calendar]
    exact hroom (hmore _ hmem) t (hrow.trans ht)

/-- **Each step upholds one more dependency** and keeps the others. -/
theorem step (h : Upholding p done (d :: rest) report givenUp q)
    (hrun : resolveDependency Host.alone d.id report givenUp q = (.ok (report', givenUp'), r)) :
    Upholding p (done ++ [d]) rest report' givenUp' r := by
  have hq := h.accounted.sound
  have hframe := h.accounted.redates.frame
  have hd : d ∈ p.dependencies := h.cascade.subset d (List.mem_append_right _ List.mem_cons_self)
  have hdq : d ∈ q.dependencies := hframe.dependencies ▸ hd
  have hfound : q.dependency? d.id = some d := hq.dependency?_of_mem hdq
  obtain ⟨t, ht⟩ := Project.exists_task? (hq.dependant_mem d hdq)
  have hcascade : p.IsCascade ((done ++ [d]) ++ rest) := by
    rw [List.append_assoc]
    exact h.cascade
  have haccounted := h.accounted.step hp hrun
  cases resolves_of_ok hq.ids_nodup hrun with
  | passed hgone =>
    have := hgone d hfound
    rw [h.nobody] at this
    exact absurd this List.not_mem_nil
  | kept hd' hk hkept =>
    cases hfound.symm.trans hd'
    refine ⟨hcascade, haccounted, h.nobody, h.clean, fun e he hroom => ?_⟩
    rcases List.mem_append.mp he with he | he
    · exact h.upheld e he hroom
    · cases List.mem_singleton.mp he
      exact Project.upholds_of_inactive ht hk hkept
  -- the dependency was broken and its dependant cannot move: it is resolved to where it stands
  | still hd' hk hactive hmove =>
    cases hfound.symm.trans hd'
    refine ⟨hcascade, haccounted, h.nobody, h.clean, fun e he hroom => ?_⟩
    exact h.upheld_of_moved hp hc hleaf hdays hmove (fun _ hy => hy) (fun h => by cases h) he
      hroom
  | moved hd' hk hactive hmove =>
    cases hfound.symm.trans hd'
    refine ⟨hcascade, haccounted, h.nobody, ?_, fun e he hroom => ?_⟩
    · rw [RecomputeReport.addModified]
      split
      · exact h.clean
      · exact h.clean
    · exact h.upheld_of_moved hp hc hleaf hdays hmove
        (fun y hy => RecomputeReport.mem_addModified.mpr (.inl hy))
        (fun _ => RecomputeReport.mem_addModified.mpr (.inr rfl)) he hroom
  -- starts asked for from one side only are always satisfiable
  | givenUp hd' hk hactive hmove =>
    cases hfound.symm.trans hd'
    exact absurd (congrArg Prod.fst hmove) (resolveTask_ne_unsatisfiable hq ht _ _)

/-- When nothing is left, all of them are upheld. -/
theorem resolveAll {ds : List Dependency} (h : Upholding p done ds report givenUp q)
    (hrun : Workplan.resolveAll Host.alone (ds.map Dependency.id) report givenUp q =
      (.ok (report', givenUp'), r)) : Upholding p (done ++ ds) [] report' givenUp' r := by
  induction ds generalizing done report givenUp q with
  | nil =>
    cases hrun
    rwa [List.append_nil]
  | cons d ds ih =>
    obtain ⟨⟨first, givenUp₁⟩, s, hstep, hrest⟩ := exists_of_bind_ok hrun
    have hall := ih (h.step hp hc hleaf hdays hstep) hrest
    rwa [List.append_assoc, List.singleton_append] at hall

end

end Upholding

/-! ## Whole runs -/

/-- **After a recomputation all dependencies that were reached are upheld**, and no task was given
up.  The dependencies link tasks without children, and no task that waits for something is moved
behind the last working day. -/
theorem upheld_of_recompute (hp : p.Reachable) (hc : p.calendar.GapsBelowHorizon)
    (hleaf : ∀ d ∈ p.dependencies,
      p.hasChildren d.dependee = false ∧ p.hasChildren d.dependant = false)
    (hdays : ∀ d ∈ p.dependencies, ∀ t, p.task? d.dependant = some t → t.grain = .day)
    (hrun : p.recompute [x] = (.ok report, r))
    (hroom : ∀ y ∈ report.modified, ∀ t, r.task? y = some t → r.calendar.ReachesWork t.start) :
    report.failures = [] ∧ ∃ reach, p.reach [x] = .ok reach ∧
      ∀ d ∈ p.dependencies, d.id ∈ reach.flatMap Prod.snd → r.Upholds d := by
  have hsound := hp.sound
  obtain ⟨t, reach, ht, hreach⟩ := Project.exists_reach_of_recompute hrun
  obtain ⟨reaches, resolved, adjusted, q, hreaches, hresolved, hfit, rfl⟩ :=
    Project.exists_of_recompute hrun
  cases (Project.reaches_singleton ht hreach).symm.trans hreaches
  obtain ⟨_, _, htell, hresolved⟩ := exists_of_bind_ok hresolved
  cases htell
  obtain ⟨_, _, hresolved, hnone⟩ := exists_of_bind_ok hresolved
  cases hnone
  obtain ⟨givenUp, hall⟩ := exists_of_resolveReach hresolved
  obtain ⟨ds, hids, hcascade⟩ := Project.isCascade_of_reach
    (fun d hd => (hp.orderly.ends_ne d hd).symm) hreach
  rw [hids] at hall
  have hdone := (Upholding.initial hsound hcascade).resolveAll hsound hc
    (fun d hd => (hleaf d hd).2) hdays hall
  refine ⟨hdone.clean, reach, hreach, fun d hd hid => ?_⟩
  -- fitting containers does not touch what a dependency links
  have hq := hdone.accounted.sound
  have hframe := hdone.accounted.redates.frame
  have hredates := (Project.fits_of_fit hq hfit).1
  have hkept : ∀ y, p.hasChildren y = false → r.task? y = q.task? y :=
    fun y hy => Project.task?_of_fit hq hfit (hframe.hasChildren ▸ hy)
  have hmem : d ∈ ds := by
    rw [hids] at hid
    obtain ⟨e, he, heq⟩ := List.mem_map.mp hid
    have hsame := hsound.dependency?_of_mem hd
    rw [← heq, hsound.dependency?_of_mem (hcascade.subset e he), Option.some.injEq] at hsame
    exact hsame ▸ he
  have hrow := hkept d.dependant (hleaf d hd).2
  refine (hdone.upheld d hmem fun hmoved t ht => ?_).congr hq hredates.frame
    (hframe.dependencies ▸ hd) (hkept d.dependee (hleaf d hd).1) hrow
  rw [← hredates.frame.calendar]
  exact hroom d.dependant hmoved t (hrow.trans ht)

/-- A house with walls and a roof that wait for a survey, the roof a day longer.  The roof ends a
day before the walls at the earliest. -/
def gablePlan : Project :=
  (Project.empty .standard).after [
    .addTask "survey" (Day.first.advance 4) (.days 4),
    .addTask "walls" (Day.first.advance 4) (.days 5),
    .addTask "roof" (Day.first.advance 4) (.days 2),
    .addTask "house" (Day.first.advance 4) (.days 9),
    .place ⟨2⟩ ⟨4⟩,
    .place ⟨3⟩ ⟨4⟩,
    .addDependency ⟨1⟩ ⟨3⟩ .finishStart .strong 1,
    .addDependency ⟨1⟩ ⟨2⟩ .finishStart .strong 0,
    .addDependency ⟨2⟩ ⟨3⟩ .finishFinish .rubber (-1)]

/-- The roof is moved for the survey, and once more for the walls that have moved in between. -/
theorem upheld_of_recompute_gablePlan :
    (gablePlan.recompute [⟨1⟩]).1 = .ok ⟨[⟨3⟩, ⟨2⟩], [⟨4⟩], [], false⟩ ∧
      ∀ d ∈ gablePlan.dependencies, (gablePlan.recompute [⟨1⟩]).2.Upholds d := by
  have hp : gablePlan.Reachable := (Project.Reachable.empty _).after _
  have hcalendar : gablePlan.calendar = .standard := by decide +kernel
  have hc : gablePlan.calendar.GapsBelowHorizon := hcalendar ▸ Calendar.gapsBelowHorizon_standard
  have hleaf : ∀ d ∈ gablePlan.dependencies, gablePlan.hasChildren d.dependee = false ∧
      gablePlan.hasChildren d.dependant = false := by decide +kernel
  have hdays : ∀ t ∈ gablePlan.tasks, t.grain = .day := by decide +kernel
  have hreport : (gablePlan.recompute [⟨1⟩]).1 = .ok ⟨[⟨3⟩, ⟨2⟩], [⟨4⟩], [], false⟩ := by
    decide +kernel
  have hworking : ∀ t ∈ (gablePlan.recompute [⟨1⟩]).2.tasks,
      (gablePlan.recompute [⟨1⟩]).2.calendar.isWorking t.start := by decide +kernel
  have hrun : gablePlan.recompute [⟨1⟩] =
      (.ok ⟨[⟨3⟩, ⟨2⟩], [⟨4⟩], [], false⟩, (gablePlan.recompute [⟨1⟩]).2) := by
    rw [← hreport]
  obtain ⟨-, reach, hreach, hall⟩ := upheld_of_recompute hp hc hleaf
    (fun _ _ t ht => hdays t (Project.mem_of_task? ht)) hrun
    fun y _ t ht => Calendar.reachesWork_of_working
      (hworking t (Project.mem_of_task? ht))
  have hids : gablePlan.reach [⟨1⟩] = .ok [(1, [⟨0⟩, ⟨1⟩]), (2, [⟨2⟩])] := by decide +kernel
  rw [hids, Except.ok.injEq] at hreach
  subst hreach
  have hreached : ∀ d ∈ gablePlan.dependencies, d.id ∈ [(⟨0⟩ : DependencyId), ⟨1⟩, ⟨2⟩] := by
    decide +kernel
  exact ⟨hreport, fun d hd => hall d hd (hreached d hd)⟩

end Workplan
