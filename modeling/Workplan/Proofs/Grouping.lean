import Workplan.Proofs.Leaves
import Workplan.Proofs.Lengths

/-!
# Recomputing for several tasks at once

A recomputation from several tasks finds out first what each of them reaches, resolves all that, and
fits containers in the end.  To recompute from the tasks one after the other comes to the same,
where dependencies link tasks without children: the same tasks are moved on the way, and the last
fitting makes up for those in between.

- `recomputeEach`: recomputing from one task after the other.
- `Task.Exact`: a row that is told by its dates.
- `Project.keptByCommits_exact`: engines leave containers with such rows.
- `Project.Nested.outwards`: induction from the innermost tasks outwards.
- `Grouped`, `Grouped.step`: both ways after some of the tasks, and one more task.
- `recompute_eq_recomputeEach`: both ways end with the same project.
-/

namespace Workplan

open Act

variable {p q r b b' r' : Project} {x c : TaskId} {t : Task} {report report' : RecomputeReport}
  {done : List TaskId}

/-- Recomputes from one task after the other. -/
def recomputeEach : List TaskId → Act Project (List RecomputeReport)
  | [] => return []
  | x :: rest => do
    let report ← recompute Host.alone (fit Host.alone) [x]
    let reports ← recomputeEach rest
    return report :: reports

theorem keeps_recomputeEach {P : Project → Prop} (h : ∀ x, KeptByCommits Host.alone P x)
    (changed : List TaskId) : Keeps P (recomputeEach changed) := by
  induction changed with
  | nil => exact keeps_pure _
  | cons x rest ih =>
    exact (keeps_recompute h (keeps_fit h) [x]).bind fun _ => ih.bind fun _ => keeps_pure _

/-! ## Rows that are told by their dates -/

/-- A milestone ends where it starts, and the duration is the working time between the dates. -/
structure Task.Exact (cal : Calendar) (t : Task) : Prop where
  point : t.milestone → t.finish = t.start
  duration : t.duration = cal.workingLength t.grain t.start t.finish

theorem Calendar.workingLength_self (cal : Calendar) (grain : Grain) (d : Day) :
    cal.workingLength grain d d = ⟨0, grain⟩ := by
  have hzero : cal.unitsBetween d d grain = 0 := by
    cases grain with
    | day => exact workdaysBetween_of_le le_rfl
    | week => simp [unitsBetween, Day.distance]
  rw [workingLength, if_pos le_rfl, hzero]
  rfl

/-- Dates that are given to a task make its row exact. -/
theorem Task.exact_of_revised (cal : Calendar) (t : Task) (start : Day) (finish? : Option Day) :
    Task.Exact cal { t with
      start
      finish := Project.revisedFinish t start finish?
      duration :=
        Project.revisedDuration cal t start (Project.revisedFinish t start finish?) } := by
  have hgrain := Project.grain_revisedDuration cal t start (Project.revisedFinish t start finish?)
  refine ⟨fun hpoint => if_pos hpoint, ?_⟩
  show Project.revisedDuration cal t start _ = cal.workingLength (Duration.grain _) start _
  rw [hgrain]
  cases hpoint : t.milestone with
  | true =>
    rw [Project.revisedDuration, Project.revisedFinish, if_pos hpoint, if_pos hpoint]
    exact (Calendar.workingLength_self cal t.grain start).symm
  | false =>
    rw [Project.revisedDuration, if_neg (by simp [hpoint])]

/-- Rows that are told by their dates are equal if these are. -/
theorem Task.Exact.eq {cal : Calendar} {t u : Task} (ht : t.Exact cal) (hu : u.Exact cal)
    (hsame : u.undated = t.undated) (hstart : u.start = t.start)
    (hfinish : t.milestone = false → u.finish = t.finish) : u = t := by
  have hmilestone := Task.milestone_of_undated hsame
  have hend : u.finish = t.finish := by
    cases hpoint : t.milestone with
    | true => rw [hu.point (hmilestone.trans hpoint), ht.point hpoint, hstart]
    | false => exact hfinish hpoint
  refine Task.eq_of_undated hsame hstart hend ?_
  rw [ht.duration, hu.duration, Task.grain_of_undated hsame, hstart, hend]

namespace Project

/-- The rows of containers are told by their dates. -/
def ExactContainers (p : Project) : Prop :=
  ∀ c t, p.hasChildren c → p.task? c = some t → t.Exact p.calendar

/-- **Engines leave containers with rows that are told by their dates.** -/
theorem keptByCommits_exact (x : TaskId) : KeptByCommits Host.alone ExactContainers x := by
  -- dates that are given to a task, container or not
  have hrevise : ∀ {p : Project} {done : Changed} {start? finish?}, p.ExactContainers →
      p.revise x { start?, finish? } = .ok done → done.project.ExactContainers := by
    intro p done start? finish? hp hdone
    obtain ⟨t, hget, -⟩ := exists_of_bind_eq_ok (show p.revise x _ = _ from hdone)
    have ht := get_eq_ok_iff.mp hget
    rw [revise_eq_write ht] at hdone
    by_cases hlt : revisedFinish t (start?.getD t.start) finish? < start?.getD t.start
    · rw [write_of_lt _ _ hlt] at hdone
      cases hdone
    obtain ⟨event?, hwritten⟩ := write_of_le (revisedDuration p.calendar t (start?.getD t.start)
      (revisedFinish t (start?.getD t.start) finish?)) ht hlt
    rw [hwritten] at hdone
    cases hdone
    intro c u hc hu
    rw [task?_replace] at hu
    split at hu
    · obtain ⟨_, _, rfl⟩ := Option.map_eq_some_iff.mp hu
      exact Task.exact_of_revised p.calendar t _ finish?
    · exact hp c u hc hu
  refine .of_changes hrevise fun {p done day} hp hdone => ?_
  by_cases hparent : p.hasChildren x
  · obtain ⟨t, hget, hstarted⟩ := exists_of_bind_eq_ok (show p.startAt x day = _ from hdone)
    rw [if_pos hparent] at hstarted
    exact hrevise hp hstarted
  · rcases redated_of_startAt hdone with hsame | ⟨t, new, ht, hnew, hreplaced⟩
    · rw [hsame]
      exact hp
    · rw [hreplaced]
      intro c u hc hu
      have hid : new.id = t.id := (congrArg Task.id hnew : new.undated.id = t.undated.id)
      rw [task?_replace_of_ne] at hu
      · exact hp c u hc hu
      · rintro rfl
        rw [← id_of_task? ht, ← hid] at hparent
        exact hparent hc

/-! ## From the innermost tasks outwards -/

/-- What holds of a task if it holds of everything directly inside, holds of every task. -/
theorem Nested.outwards (hp : p.Nested) {P : TaskId → Prop}
    (h : ∀ c, (∀ x, p.parent? x = some c → P x) → P c) (c : TaskId) : P c := by
  -- the deeper a task lies, the fewer levels there are below it
  have hlevels : ∀ n c, p.placements.length + 1 < n + p.depth c → P c := by
    intro n
    induction n with
    | zero =>
      intro c hlt
      have hdepth : p.depth c ≤ p.placements.length + 1 := Nat.succ_le_succ (hp.length_climb_le _ c)
      omega
    | succ n ih =>
      intro c hlt
      refine h c fun x hx => ih x ?_
      rw [hp.depth_of_parent? hx]
      omega
  exact hlevels (p.placements.length + 2) c (by omega)

/-- **Projects in which the same containers fit have the same dates**, if they have them for
everything else. -/
theorem SameLeaves.eq (hp : p.Sound) (h : p.SameLeaves q) (hexact : p.ExactContainers)
    (hexact' : q.ExactContainers)
    (hrows : ∀ c, c ≠ .root → p.hasChildren c →
      q.task? c = p.task? c ∨ p.Fitted c ∧ q.Fitted c) : q = p := by
  -- by induction from the leaves outwards: a container's span is read off its children
  refine h.frame.eq hp.ids_nodup (hp.outwards fun c hinner => ?_)
  by_cases hparent : p.hasChildren c
  swap
  · exact h.rows c (Bool.eq_false_iff.mpr hparent)
  cases ht : p.task? c with
  | none =>
    have hu := h.frame.task? c
    rw [ht] at hu
    exact Option.map_eq_none_iff.mp hu
  | some t =>
    have hroot : c ≠ .root := hp.ne_root_of_task? ht
    rcases hrows c hroot hparent with hsame | ⟨hfits, hfits'⟩
    · exact hsame.trans ht
    obtain ⟨u, hu, hundated⟩ := h.frame.exists_task? ht
    obtain ⟨x, hx⟩ := hasChildren_iff.mp hparent
    have hchildren : ∀ y ∈ p.children c, q.task? y = p.task? y := fun y hy =>
      hinner y ((hp.parent?_iff_mem_children hroot).mpr hy)
    obtain ⟨v, hv⟩ := exists_task? (hp.child_mem (mem_children.mp hx))
    rcases hspan : p.childSpan? c with _ | ⟨first, last⟩
    · exact absurd hspan (childSpan?_ne_none hx hv)
    obtain ⟨hstart, hfinish⟩ := hfits t first last ht hspan
    rw [← childSpan?_congr h.frame hchildren] at hspan
    obtain ⟨hstart', hfinish'⟩ := hfits' u first last hu hspan
    have hcalendar := h.frame.calendar
    have hu' := hexact' c u (by rwa [h.frame.hasChildren]) hu
    rw [hcalendar] at hu'
    rw [hu, (hexact c t hparent ht).eq hu' hundated (hstart'.trans hstart.symm) fun hpoint => by
      rw [hfinish hpoint, hfinish' (Task.milestone_of_undated hundated ▸ hpoint)]]

end Project

/-! ## Side by side -/

/-- Some of the tasks have been worked off.  The batch has resolved what they reach and not fitted
anything; one by one, the containers of everything that was given or moved have been fitted. -/
structure Grouped (p : Project) (done : List TaskId) (report : RecomputeReport)
    (b r : Project) : Prop where
  accounted : Accounted p report b
  sound : r.Sound
  same : b.SameLeaves r
  fitted : ∀ c, (∃ x ∈ done ++ report.modified, p.Inside x c) → r.Fitted c
  others : ∀ c, c ≠ .root → p.hasChildren c → (¬ ∃ x ∈ done ++ report.modified, p.Inside x c) →
    r.task? c = p.task? c

/-- A task that was moved waits for something, so it contains nothing. -/
theorem Accounted.leaf_of_moved (h : Accounted p report b) (hlinks : p.LinksLeaves)
    (hx : x ∈ report.modified) : p.hasChildren x = false := by
  obtain ⟨d, hd, rfl⟩ := h.waits x hx
  exact (hlinks d hd).2

/-- **What a recomputation makes of a container.**  It is fitted, or nothing was given or moved in
it and it is left alone, with everything directly inside. -/
theorem Accounted.container (hp : p.Sound) (hlinks : p.LinksLeaves) (h : Accounted p report b)
    {given adjusted : List TaskId} (hfit : b.fit (given ++ report.modified) = (.ok adjusted, q))
    (hroot : c ≠ .root) (hc : p.hasChildren c) :
    (∃ x ∈ given ++ report.modified, p.Inside x c) ∧ q.Fitted c ∨
      (¬ ∃ x ∈ given ++ report.modified, p.Inside x c) ∧ q.task? c = p.task? c ∧
        (p.Fitted c → q.Fitted c) := by
  obtain ⟨hredates, hfitted⟩ := Project.fitted_of_fit h.sound hfit
  rw [h.redates.frame.inside] at hredates hfitted
  by_cases hinner : ∃ x ∈ given ++ report.modified, p.Inside x c
  · exact .inl ⟨hinner, hfitted c hinner⟩
  -- a container is not moved, and what is fitted or moved inside it would count
  have hself : q.task? c = p.task? c := by
    rw [hredates.others c hinner]
    refine h.redates.others c fun hmoved => ?_
    rw [h.leaf_of_moved hlinks hmoved] at hc
    cases hc
  have hchildren : ∀ y ∈ p.children c, q.task? y = p.task? y := by
    intro y hy
    have hin : p.Inside y c := .single ((hp.parent?_iff_mem_children hroot).mpr hy)
    rw [hredates.others y, h.redates.others y]
    · exact fun hmoved => hinner ⟨y, List.mem_append_right given hmoved, hin⟩
    · rintro ⟨x, hx, hxy⟩
      exact hinner ⟨x, hx, hxy.trans hin⟩
  have hframe := h.redates.frame.trans hredates.frame
  exact .inr ⟨hinner, hself, fun hfits => hfits.congr hframe hchildren hself⟩

/-- A recomputation from one task resolves what it reaches, and fits the containers of that. -/
theorem exists_of_recompute_singleton {reach : Reach} (hreach : p.reach [x] = .ok reach)
    (h : p.recompute [x] = (.ok report, q)) :
    ∃ resolved adjusted s, resolveReach Host.alone reach .empty [] p = (.ok resolved, s) ∧
      s.fit ([x] ++ resolved.modified) = (.ok adjusted, q) := by
  obtain ⟨t, -, ht, -⟩ := Project.exists_reach_of_recompute h
  obtain ⟨reaches, resolved, adjusted, s, hreaches, hresolved, hfit, -⟩ :=
    Project.exists_of_recompute h
  cases (Project.reaches_singleton ht hreach).symm.trans hreaches
  obtain ⟨_, _, htell, hresolved⟩ := exists_of_bind_ok hresolved
  cases htell
  obtain ⟨_, _, hone, hresolved⟩ := exists_of_bind_ok hresolved
  cases hresolved
  exact ⟨resolved, adjusted, s, hone, hfit⟩

theorem exists_of_reaches_cons {rest : List TaskId} {reaches : List (TaskId × Reach)}
    (h : p.reaches (x :: rest) = .ok reaches) :
    ∃ reach others, p.reach [x] = .ok reach ∧ p.reaches rest = .ok others ∧
      reaches = (x, reach) :: others := by
  rw [Project.reaches, List.mapM_cons] at h
  obtain ⟨first, hfirst, h⟩ := exists_of_bind_eq_ok h
  obtain ⟨others, hothers, h⟩ := exists_of_bind_eq_ok h
  obtain ⟨_, -, hfirst⟩ := exists_of_bind_eq_ok hfirst
  cases h
  cases hreach : p.reach [x] with
  | error cycle =>
    rw [hreach] at hfirst
    cases hfirst
  | ok reach =>
    rw [hreach] at hfirst
    cases hfirst
    exact ⟨reach, others, rfl, hothers, rfl⟩

namespace Grouped

theorem initial (hp : p.Sound) : Grouped p [] .empty p p where
  accounted := .initial hp
  sound := hp
  same := .refl p
  fitted := by
    rintro c ⟨x, hx, -⟩
    exact absurd hx List.not_mem_nil
  others _ _ _ _ := rfl

/-- **One more task, on both ways.** -/
theorem step (hp : p.Sound) (hlinks : p.LinksLeaves) (h : Grouped p done report b r)
    {reach : Reach} (hreach : p.reach [x] = .ok reach)
    (hbatch : resolveReach Host.alone reach report [] b = (.ok report', b'))
    {single : RecomputeReport} (hsingle : r.recompute [x] = (.ok single, r')) :
    Grouped p (done ++ [x]) report' b' r' := by
  have hframe : p.SameFrame r := h.accounted.redates.frame.trans h.same.frame
  obtain ⟨resolved, adjusted, s, hresolved, hfit⟩ := exists_of_recompute_singleton
    (Project.reach_congr hframe.dependencies ▸ hreach) hsingle
  -- what is resolved is the same
  have hside : SideBySide report.modified report .empty b r :=
    ⟨h.accounted.sound, h.sound, hlinks.congr h.accounted.redates.frame, h.same,
      fun y => by simp [RecomputeReport.empty]⟩
  obtain ⟨resolved', s', hresolved', hnext⟩ := hside.resolveReach hbatch
  cases hresolved.symm.trans hresolved'
  obtain ⟨givenUp, hall⟩ := exists_of_resolveReach hbatch
  obtain ⟨givenUp', hall'⟩ := exists_of_resolveReach hresolved
  have hmoved : Accounted r resolved s := (Accounted.initial h.sound).resolveAll h.sound hall'
  have hlinks' : r.LinksLeaves := hlinks.congr hframe
  have hinner : ∀ c, (∃ y ∈ (done ++ [x]) ++ report'.modified, p.Inside y c) ↔
      (∃ y ∈ done ++ report.modified, p.Inside y c) ∨
        ∃ y ∈ [x] ++ resolved.modified, p.Inside y c := by
    intro c
    have hmem : ∀ y, y ∈ (done ++ [x]) ++ report'.modified ↔
        y ∈ done ++ report.modified ∨ y ∈ [x] ++ resolved.modified := by
      intro y
      simp only [List.mem_append, hnext.adds y]
      tauto
    simp only [hmem, or_and_right, exists_or]
  have hcontainer := fun c hroot hc => hmoved.container (c := c) h.sound hlinks' hfit hroot hc
  rw [hframe.hasChildren, hframe.inside] at hcontainer
  refine ⟨h.accounted.resolveAll hp hall, hnext.sound'.of_fit hfit, ?_, fun c hc => ?_,
    fun c hroot hc hnot => ?_⟩
  · refine hnext.same.trans ⟨(Project.fitted_of_fit hnext.sound' hfit).1.frame, fun y hy => ?_⟩
    exact Project.task?_of_fit hnext.sound' hfit hy
  · obtain ⟨hroot, hparent⟩ : c ≠ .root ∧ p.hasChildren c := by
      obtain ⟨y, -, hin⟩ := hc
      exact ⟨hp.ne_root (hp.mem_of_inside hin).2, Project.hasChildren_of_inside hin⟩
    rcases hcontainer c hroot hparent with ⟨-, hfitted⟩ | ⟨hquiet, -, hkept⟩
    · exact hfitted
    · exact hkept (h.fitted c (((hinner c).mp hc).resolve_right hquiet))
  · rw [hinner, not_or] at hnot
    rcases hcontainer c hroot hc with ⟨hnow, -⟩ | ⟨-, hself, -⟩
    · exact absurd hnow hnot.2
    · rw [hself, h.others c hroot hc hnot.1]

/-- **All of them, on both ways.** -/
theorem resolveReaches (hp : p.Sound) (hlinks : p.LinksLeaves) {changed : List TaskId}
    {reaches : List (TaskId × Reach)} {reports : List RecomputeReport}
    (h : Grouped p done report b r) (hreaches : p.reaches changed = .ok reaches)
    (hbatch : Workplan.resolveReaches Host.alone reaches report b = (.ok report', b'))
    (heach : recomputeEach changed r = (.ok reports, r')) :
    Grouped p (done ++ changed) report' b' r' := by
  induction changed generalizing done report b r reaches reports with
  | nil =>
    cases hreaches
    cases hbatch
    cases heach
    rwa [List.append_nil]
  | cons x rest ih =>
    obtain ⟨reach, others, hreach, hothers, rfl⟩ := exists_of_reaches_cons hreaches
    obtain ⟨_, _, htell, hbatch⟩ := exists_of_bind_ok hbatch
    cases htell
    obtain ⟨middle, b₁, hone, hbatch⟩ := exists_of_bind_ok hbatch
    obtain ⟨single, r₁, hsingle, heach⟩ := exists_of_bind_ok heach
    obtain ⟨singles, r₂, heach, hend⟩ := exists_of_bind_ok heach
    cases hend
    have hnext := h.step hp hlinks hreach hone hsingle
    rw [← List.singleton_append, ← List.append_assoc]
    exact ih hnext hothers hbatch heach

end Grouped

/-- **Recomputing for several tasks at once comes to the same as for one after the other**, if
every dependency links two tasks without children and no duration of a container leads out of the
line of days.  Whenever both get through, every task has the same dates and the same duration
afterwards. -/
theorem recompute_eq_recomputeEach (hp : p.Reachable) (hc : p.calendar.GapsBelowHorizon)
    (hlinks : p.LinksLeaves)
    (hwalks : ∀ t ∈ p.tasks, p.hasChildren t.id → p.calendar.StaysInside t.start t.duration)
    {changed : List TaskId} (hbatch : (p.recompute changed).1 = .ok report)
    {reports : List RecomputeReport} (heach : (recomputeEach changed p).1 = .ok reports) :
    (p.recompute changed).2 = (recomputeEach changed p).2 := by
  have hsound := hp.sound
  have hexact : p.ExactContainers := by
    intro c t hparent ht
    have hmem := Project.mem_of_task? ht
    have hid := Project.id_of_task? ht
    refine ⟨fun hpoint => (hp.isPoint t hmem hpoint).1, ?_⟩
    exact (Project.duration_eq_workingLength_iff hp hc hmem).1.mpr (hwalks t hmem (hid ▸ hparent))
  have hq := keeps_recompute Project.keptByCommits_exact
    (keeps_fit Project.keptByCommits_exact) changed p hexact
  have hr := keeps_recomputeEach Project.keptByCommits_exact changed p hexact
  change (p.recompute changed).2.ExactContainers at hq
  rcases hbatched : p.recompute changed with ⟨outcome, q⟩
  rcases heached : recomputeEach changed p with ⟨outcomes, r⟩
  rw [hbatched] at hbatch hq
  rw [heached] at heach hr
  obtain rfl : outcome = .ok report := hbatch
  obtain rfl : outcomes = .ok reports := heach
  obtain ⟨reaches, resolved, adjusted, b, hreaches, hresolved, hfit, -⟩ :=
    Project.exists_of_recompute hbatched
  have h := (Grouped.initial hsound).resolveReaches hsound hlinks hreaches hresolved heached
  rw [List.nil_append] at h
  -- the batch fits in the end what has been fitted in between
  have hframe : p.SameFrame q := h.accounted.redates.frame.trans
    (Project.fitted_of_fit h.accounted.sound hfit).1.frame
  have hleaves : q.SameLeaves r := by
    refine ⟨?_, fun x hx => ?_⟩
    · exact hframe.symm.trans (h.accounted.redates.frame.trans h.same.frame)
    · rw [hframe.hasChildren, ← h.accounted.redates.frame.hasChildren] at hx
      rw [h.same.rows x hx, Project.task?_of_fit h.accounted.sound hfit hx]
  refine (hleaves.eq (h.accounted.sound.of_fit hfit) hq hr fun c hroot hparent => ?_).symm
  rw [hframe.hasChildren] at hparent
  rcases h.accounted.container hsound hlinks hfit hroot hparent with
    ⟨hinner, hfitted⟩ | ⟨hquiet, hself, -⟩
  · exact .inr ⟨hfitted, h.fitted c hinner⟩
  · exact .inl ((h.others c hroot hparent hquiet).trans hself.symm)

/-- A house with walls that wait for a survey and a roof that waits for a permit. -/
def permitPlan : Project :=
  (Project.empty .standard).after [
    .addTask "survey" (Day.first.advance 4) (.days 4),
    .addTask "permit" (Day.first.advance 4) (.days 6),
    .addTask "walls" (Day.first.advance 4) (.days 5),
    .addTask "roof" (Day.first.advance 4) (.days 2),
    .addTask "house" (Day.first.advance 4) (.weeks 1),
    .place ⟨3⟩ ⟨5⟩,
    .place ⟨4⟩ ⟨5⟩,
    .addDependency ⟨1⟩ ⟨3⟩ .finishStart .strong 0,
    .addDependency ⟨2⟩ ⟨4⟩ .finishStart .rubber 1]

/-- One by one, the house is fitted twice, and at once it is fitted once. -/
theorem recompute_eq_recomputeEach_permitPlan :
    (permitPlan.recompute [⟨1⟩, ⟨2⟩]).1 = .ok ⟨[⟨3⟩, ⟨4⟩], [⟨5⟩], [], false⟩ ∧
      (recomputeEach [⟨1⟩, ⟨2⟩] permitPlan).1 = .ok
        [⟨[⟨3⟩], [⟨5⟩], [], false⟩, ⟨[⟨4⟩], [⟨5⟩], [], false⟩] ∧
      (permitPlan.recompute [⟨1⟩, ⟨2⟩]).2 = (recomputeEach [⟨1⟩, ⟨2⟩] permitPlan).2 := by
  have hp : permitPlan.Reachable := (Project.Reachable.empty _).after _
  have hcalendar : permitPlan.calendar = .standard := by decide +kernel
  have hc : permitPlan.calendar.GapsBelowHorizon := hcalendar ▸ Calendar.gapsBelowHorizon_standard
  have hlinks : permitPlan.LinksLeaves := by
    unfold Project.LinksLeaves
    decide +kernel
  have hlengths : ∀ t ∈ permitPlan.tasks,
      t.duration = permitPlan.calendar.workingLength t.grain t.start t.finish := by decide +kernel
  have hbatch : (permitPlan.recompute [⟨1⟩, ⟨2⟩]).1 =
      .ok ⟨[⟨3⟩, ⟨4⟩], [⟨5⟩], [], false⟩ := by decide +kernel
  have heach : (recomputeEach [⟨1⟩, ⟨2⟩] permitPlan).1 = .ok
      [⟨[⟨3⟩], [⟨5⟩], [], false⟩, ⟨[⟨4⟩], [⟨5⟩], [], false⟩] := by decide +kernel
  have hwalks : ∀ t ∈ permitPlan.tasks, permitPlan.hasChildren t.id →
      permitPlan.calendar.StaysInside t.start t.duration := fun t ht _ =>
    (Project.duration_eq_workingLength_iff hp hc ht).1.mp (hlengths t ht)
  exact ⟨hbatch, heach, recompute_eq_recomputeEach hp hc hlinks hwalks hbatch heach⟩

end Workplan
