import Workplan.Proofs.LeafStart

/-!
# When every task can be dated

In a network without cycles, a container has room for its bounds because everything inside it
is bound by the same dependencies and was dated before.

- `Project.Schedulable`: nothing stands in the way of dating every task.
- `Project.Placed`: a task that starts no earlier than its dependencies accept.
- `Schedulable.exists_report`, `Schedulable.placed`: a run dates all tasks, and places them all.
-/

namespace Workplan

open Collision

variable {p q : Project} {x y : TaskId} {t : Task} {d : Dependency}

/-- Tasks counted in days, dates in order, containers without anchors, linked ends only on tasks
without children, no cycle, and walks that stay on the line of days. -/
structure Project.Schedulable (p : Project) : Prop where
  gaps : p.calendar.GapsBelowHorizon
  days : ∀ t ∈ p.tasks, t.grain = .day
  dates : ∀ t ∈ p.tasks, t.start ≤ t.finish
  unanchored : ∀ t ∈ p.tasks, p.hasChildren t.id → t.earliestBegin = none
  childless : ∀ d ∈ p.dependencies, d.kind.bindsFinish → p.hasChildren d.dependant = false
  acyclic : p.network.Acyclic
  lengths : ∀ t ∈ p.tasks, p.hasChildren t.id = false →
    0 ≤ t.duration.count ∧ t.duration.count < Day.count
  room : ∀ t ∈ p.tasks, p.hasChildren t.id = false → p.HasRoom t.id

/-! ## Accepted starts exist -/

theorem Duration.negate_of_lt {length : Duration} (hpos : 0 ≤ length.count)
    (hlt : length.count < Day.count) : length.negate = .ok ⟨-length.count, length.grain⟩ := by
  rw [Day.count] at hlt
  rw [negate, checkedCount, if_pos]
  · rfl
  · rw [leastCount, greatestCount]
    omega

namespace Project

/-- A dependency on the start accepts the barrier, whatever it binds. -/
theorem acceptable_of_not_bindsFinish (hkind : ¬ d.kind.bindsFinish) {source : Task}
    (hsource : p.task? d.dependee = some source) (ht : p.task? x = some t) :
    p.acceptable d x = .ok (d.barrier p.calendar source) := by
  rw [acceptable_eq hsource ht, Dependency.acceptableStart_eq, if_neg hkind]

theorem acceptable_ne_overflow (hp : p.Sound) (hd : d ∈ p.dependencies) (ht : p.task? x = some t)
    (hday : t.grain = .day)
    (hlength : d.kind.bindsFinish → 0 ≤ t.duration.count ∧ t.duration.count < Day.count) :
    p.acceptable d x ≠ .error .overflow := by
  obtain ⟨source, hsource⟩ := exists_task? (hp.dependee_mem d hd)
  by_cases hkind : d.kind.bindsFinish
  · obtain ⟨hpos, hlt⟩ := hlength hkind
    have hshift := shift_day (c := p.calendar) ⟨-t.duration.count, t.duration.grain⟩ hday
      (d.barrier p.calendar source)
    rw [acceptable_eq hsource ht, Dependency.acceptableStart_eq, if_pos hkind,
      Duration.negate_of_lt hpos hlt]
    exact fun h => by cases hshift.symm.trans h
  · rw [acceptable_of_not_bindsFinish hkind hsource ht]
    exact fun h => by cases h

/-- A container is bound by what binds its children. -/
theorem binding_subset (hp : p.Sound) (h : p.parent? y = some x) : p.binding x ⊆ p.binding y := by
  intro d hd
  obtain ⟨hd, hbound⟩ := mem_binding.mp hd
  have hroot := hp.ne_root (hp.dependant_mem d hd)
  rw [hp.isAncestor_iff hroot] at hbound
  refine mem_binding.mpr ⟨hd, .inr ?_⟩
  rw [hp.isAncestor_iff hroot, inside_of_parent? h]
  exact hbound

end Project

/-! ## A run dates all tasks -/

/-- A run over some tasks goes through if every step does. -/
theorem exists_runs {n : Network} {ids : List TaskId} (hp : p.Sound) (hnodup : ids.Nodup)
    (hstep : ∀ x ∈ ids, ∀ r : Project, r.Sound → p.SameFrame r → r.task? x = p.task? x →
      ∃ result r', Host.attempt (scheduleTask Host.alone n x) r = (.ok result, r')) :
    ∃ trace q, trace.map Prod.fst = ids ∧ Runs n p trace q := by
  induction ids generalizing p with
  | nil => exact ⟨[], p, rfl, .done p⟩
  | cons x ids ih =>
    obtain ⟨hx, hrest⟩ := List.nodup_cons.mp hnodup
    obtain ⟨result, r, hr⟩ := hstep x List.mem_cons_self p hp (.refl p) rfl
    have hredates := step_redates hp hr
    obtain ⟨trace, q, htrace, hrun⟩ := ih (step_sound hp hr) hrest fun y hy s hs hframe hown => by
      refine hstep y (List.mem_cons_of_mem x hy) s hs (hredates.frame.trans hframe) ?_
      rw [hown]
      exact hredates.others y fun e => hx (e ▸ hy)
    exact ⟨(x, result) :: trace, q, by rw [List.map_cons, htrace], .step hr hrun⟩

namespace Project.Schedulable

variable (hs : p.Schedulable) (hp : p.Sound)
include hs hp

theorem exists_step {r : Project} (hr : r.Sound) (hframe : p.SameFrame r) (ht : p.task? x = some t)
    (hown : r.task? x = some t) :
    ∃ result r', Host.attempt (scheduleTask Host.alone p.network x) r = (.ok result, r') := by
  have hmem := mem_of_task? ht
  have hid := id_of_task? ht
  have hday := hs.days t hmem
  -- a length is turned around only for a task without children, and those lengths are bounded
  have haccept : ∃ accept, r.Accepts x accept := by
    refine (exists_accepts hr hown).resolve_right ?_
    rintro ⟨d, hd, hover⟩
    refine acceptable_ne_overflow hr (mem_binding.mp hd).1 hown hday (fun hkind => ?_) hover
    refine hs.lengths t hmem ?_
    by_contra hparent
    rw [hframe.binding] at hd
    rw [Bool.not_eq_false, hid] at hparent
    exact not_bindsFinish hp hs.childless hparent d hd hkind
  obtain ⟨accept, haccept⟩ := haccept
  rw [← hframe.network]
  cases hparent : r.hasChildren x with
  | false =>
    exact ⟨_, _, attempt_leaf hr hown hparent hday haccept⟩
  | true =>
    have hne := childDays_ne_nil hr (hr.ne_root_of_task? hown) hparent
    obtain ⟨first, hfirst⟩ := exists_earliest? hne
    obtain ⟨last, hlast⟩ := exists_latest? hne
    obtain ⟨start, hstart⟩ := exists_latest? (List.append_ne_nil_of_right_ne_nil
      (t.snaps r.calendar (r.binding x) accept ++ t.earliestBegin.toList)
      (List.cons_ne_nil first []))
    exact ⟨_, _, attempt_container hr hown hparent haccept hfirst hlast hstart⟩

/-- The run ends with a report. -/
theorem exists_report : ∃ report, p.schedule.1 = .ok report := by
  obtain ⟨layers, hlayers⟩ := Network.exists_layers hs.acyclic
  have horder := Network.isOrder_of_layers hlayers
  obtain ⟨trace, q, htrace, hrun⟩ := exists_runs (n := p.network) hp
    (horder.perm.nodup_iff.mpr hp.ids_nodup) fun x hx r hr hframe hown => by
      obtain ⟨t, ht⟩ := exists_task? (horder.perm.subset hx)
      exact hs.exists_step hp hr hframe ht (hown.trans ht)
  have := schedule_eq_ok_iff.mpr ⟨layers, trace, hlayers, htrace, hrun, rfl⟩
  exact ⟨_, congrArg Prod.fst this⟩

end Project.Schedulable

/-! ## No bound is violated -/

/-- The dates of the task are in order, and it starts on or after the working days from which
the dependencies that bind it let it start. -/
def Project.Placed (q : Project) (x : TaskId) : Prop :=
  ∀ t, q.task? x = some t → t.start ≤ t.finish ∧
    ∀ d ∈ q.binding x, ∀ day, q.acceptable d x = .ok day → q.calendar.onOrAfter .day day ≤ t.start

namespace DatedAt

variable {result : Except Fault Bool} {before after : Project}
  (h : DatedAt p q x result before after) (hs : p.Schedulable) (hp : p.Sound)
  (ht : p.task? x = some t)
include h hs hp ht

theorem placed_leaf (hleaf : p.hasChildren x = false)
    (hroom : ∀ t', q.task? x = some t' → t' ≠ t → p.calendar.ReachesWork t'.start) :
    q.Placed x ∧ ∃ changed, result = .ok changed := by
  have hmem := Project.mem_of_task? ht
  have hid := Project.id_of_task? ht
  have hday := hs.days t hmem
  obtain ⟨hpos, -⟩ := hs.lengths t hmem (by rwa [hid])
  obtain ⟨accept, t', haccept, ht', hout⟩ := h.leaf hp hs.gaps ht hleaf hday
  -- a length that is not negative cannot put the end before the start
  have hok : ∃ changed, result = .ok changed := by
    cases hout with
    | free => exact ⟨_, rfl⟩
    | still => exact ⟨_, rfl⟩
    | moved => exact ⟨_, rfl⟩
    | refused floor start finish _ _ _ hfinish hlt =>
      rw [hfinish] at hlt
      exact absurd (Calendar.le_shiftDays hpos start) (not_le.mpr hlt)
  refine ⟨fun u hu => ?_, hok⟩
  cases ht'.symm.trans hu
  constructor
  · have hdates := hs.dates t hmem
    cases hout with
    | free => exact hdates
    | still => exact hdates
    | refused => exact hdates
    | moved _ _ _ _ _ _ _ hle => exact hle
  · intro d hd day hday'
    have hfine : ∀ fault, result ≠ .error fault := by
      rintro fault rfl
      obtain ⟨changed, hchanged⟩ := hok
      cases hchanged
    rw [haccept d hd] at hday'
    cases hday'
    rw [h.finalFrame.binding] at hd
    have hfloor : p.calendar.onOrAfter .day (accept d) ∈ t.floors p.calendar (p.binding x) accept :=
      Task.mem_floors.mpr (.inl ⟨d, hd, by rw [hday]⟩)
    rw [h.finalFrame.calendar]
    rcases hout.start_eq hs.gaps hfine (hroom t' ht') with ⟨hnil, -⟩ | ⟨floor, hlatest, hstart⟩
    · rw [hnil] at hfloor
      exact absurd hfloor List.not_mem_nil
    · rw [hstart]
      exact ((latest?_eq_some_iff.mp hlatest).2 _ hfloor).trans
        (Calendar.le_onOrAfter hs.gaps floor)

/-- What binds a container has been kept by everything inside it. -/
theorem snaps_le_first (hparent : p.hasChildren x) (hchildren : ∀ y ∈ p.children x, q.Placed y)
    {accept : Dependency → Day} (haccept : q.Accepts x accept) {first : Day}
    (hfirst : earliest? (q.childDays x) = some first) :
    ∀ day ∈ t.snaps p.calendar (p.binding x) accept, day ≤ first := by
  have hmem := Project.mem_of_task? ht
  have hroot := hp.ne_root_of_task? ht
  have hstarts := Project.not_bindsFinish hp hs.childless hparent
  intro day hday
  obtain ⟨d, hd, rfl⟩ := List.mem_map.mp hday
  obtain ⟨y, hy, u, hu, hyday⟩ := Project.mem_childDays.mp (earliest?_eq_some_iff.mp hfirst).1
  rw [h.finalFrame.children] at hy
  obtain ⟨hdates, hbound⟩ := hchildren y hy u hu
  -- the first child inherits the dependency, and has been placed by it
  have hinherit : d ∈ q.binding y := by
    rw [h.finalFrame.binding]
    exact Project.binding_subset hp ((hp.parent?_iff_mem_children hroot).mpr hy) hd
  have hsource : ∃ source, q.task? d.dependee = some source := by
    refine Project.exists_task? ?_
    rw [h.finalFrame.ids]
    exact hp.dependee_mem d (Project.mem_binding.mp hd).1
  obtain ⟨source, hsource⟩ := hsource
  obtain ⟨t', ht', -⟩ := h.finalFrame.exists_task? ht
  -- the dependency bounds a start, so it accepts the same of both
  have hsame : q.acceptable d y = .ok (accept d) := by
    rw [Project.acceptable_of_not_bindsFinish (hstarts d hd) hsource hu,
      ← Project.acceptable_of_not_bindsFinish (hstarts d hd) hsource ht']
    exact haccept d (by rwa [h.finalFrame.binding])
  have hle := hbound d hinherit (accept d) hsame
  rw [h.finalFrame.calendar] at hle
  rw [hs.days t hmem]
  rcases hyday with rfl | rfl
  · exact hle
  · exact hle.trans hdates

/-- **A container is fitted to its children**, and has room for what binds it. -/
theorem fitted (hparent : p.hasChildren x) (hchildren : ∀ y ∈ p.children x, q.Placed y) :
    q.Placed x ∧ (∃ changed, result = .ok changed) ∧ ∃ t' last, q.task? x = some t' ∧
      earliest? (q.childDays x) = some t'.start ∧ latest? (q.childDays x) = some last ∧
      (t'.milestone = false →
        t'.finish = (p.calendar.pulledBack? .day last t'.start).getD last) := by
  have hmem := Project.mem_of_task? ht
  have hid := Project.id_of_task? ht
  have hstarts := Project.not_bindsFinish hp hs.childless hparent
  obtain ⟨accept, t', first, last, start, haccept, ht', hfirst, hlast, hstart, hout⟩ :=
    h.container hp ht hparent hstarts
  have hsnaps := h.snaps_le_first hs hp ht hparent hchildren haccept hfirst
  -- nothing that binds the container comes after its first child
  have heq : start = first := by
    rw [latest?_eq_some_iff, hs.unanchored t hmem (by rwa [hid])] at hstart
    obtain ⟨hmem, hmax⟩ := hstart
    refine le_antisymm ?_ (hmax first (List.mem_append_right _ List.mem_cons_self))
    rcases List.mem_append.mp hmem with hmem | hmem
    · rw [Option.toList_none, List.append_nil] at hmem
      exact hsnaps start hmem
    · exact (List.mem_singleton.mp hmem).le
  subst heq
  have hle : start ≤ last :=
    (earliest?_eq_some_iff.mp hfirst).2 last (latest?_eq_some_iff.mp hlast).1
  obtain ⟨hok, ht'start, ht'finish, hdates⟩ := hout.of_le hle
  rw [hs.days t hmem] at ht'finish
  refine ⟨fun u hu => ?_, hok, t', last, ht', by rwa [ht'start], hlast, by rwa [ht'start]⟩
  cases ht'.symm.trans hu
  refine ⟨hdates (hs.dates t hmem), fun d hd day hday => ?_⟩
  rw [haccept d hd] at hday
  cases hday
  rw [h.finalFrame.binding] at hd
  rw [h.finalFrame.calendar, ht'start]
  refine hsnaps _ (List.mem_map.mpr ⟨d, hd, ?_⟩)
  rw [hs.days t hmem]

end DatedAt

namespace Project.Schedulable

variable (hs : p.Schedulable) (hp : p.Sound)
include hs hp

/-- **In the end no dependency is violated and no dates are reversed**, and no task fails. -/
theorem placed (hx : x ∈ p.tasks.map Task.id) : p.schedule.2.Placed x ∧
    ∀ result before after, DatedAt p p.schedule.2 x result before after →
      ∃ changed, result = .ok changed := by
  obtain ⟨report, hreport⟩ := hs.exists_report hp
  obtain ⟨layers, hlayers⟩ := Network.exists_layers hs.acyclic
  have horder := Network.isOrder_of_layers hlayers
  refine horder.induction (P := fun x => p.schedule.2.Placed x ∧
    ∀ result before after, DatedAt p p.schedule.2 x result before after →
      ∃ changed, result = .ok changed) (fun x hx ih => ?_) x hx
  obtain ⟨t, ht⟩ := exists_task? hx
  have hmem := mem_of_task? ht
  have hid := id_of_task? ht
  -- the step of a task that is dated, whichever kind it is
  have hstep : ∀ result before after, DatedAt p p.schedule.2 x result before after →
      p.schedule.2.Placed x ∧ ∃ changed, result = .ok changed := by
    intro result before after hdated
    cases hparent : p.hasChildren x with
    | false =>
      refine hdated.placed_leaf hs hp ht hparent fun t' ht' hne => ?_
      refine hs.room t hmem (by rwa [hid]) t' (by rwa [hid]) ?_
      rw [hid, ht]
      exact fun heq => hne (Option.some.inj heq).symm
    | true =>
      have hchildren : ∀ y ∈ p.children x, p.schedule.2.Placed y := by
        intro y hy
        have hroot := hp.ne_root_of_task? ht
        have hparent := (hp.parent?_iff_mem_children hroot).mpr hy
        refine (ih y (hp.mem_of_parent? hparent).1 (Network.leads_iff.mpr ?_)).1
        exact ⟨_, (mem_incoming_network hp).mpr (.inl ⟨y, hparent, rfl⟩), rfl⟩
      obtain ⟨hplaced, hok, -⟩ := hdated.fitted hs hp ht hparent hchildren
      exact ⟨hplaced, hok⟩
  obtain ⟨result, before, after, hdated, -⟩ := exists_datedAt hp hreport ht
  exact ⟨(hstep result before after hdated).1,
    fun result before after hdated => (hstep result before after hdated).2⟩

/-- **A run dates all tasks.** -/
theorem exists_report_without_errors :
    ∃ report, p.schedule.1 = .ok report ∧ report.errors = [] := by
  obtain ⟨report, hreport⟩ := hs.exists_report hp
  refine ⟨report, hreport, ?_⟩
  obtain ⟨layers, trace, hlayers, htrace, hrun, rfl⟩ := schedule_eq_ok_iff.mp (Prod.ext hreport rfl)
  have horder := Network.isOrder_of_layers hlayers
  rw [← htrace] at horder
  rw [RunReport.errors_recordAll, List.nil_append, List.filterMap_eq_nil_iff]
  rintro ⟨x, result⟩ hmem
  obtain ⟨before, after, hdated⟩ := hrun.exists_datedAt hp horder hmem
  have hx : x ∈ p.tasks.map Task.id := horder.perm.subset (List.mem_map_of_mem hmem)
  obtain ⟨changed, rfl⟩ := (hs.placed hp hx).2 result before after hdated
  rfl

/-- **Every container is fitted to its children.** -/
theorem fitted (ht : p.task? x = some t) (hparent : p.hasChildren x) :
    ∃ t' last, p.schedule.2.task? x = some t' ∧
      earliest? (p.schedule.2.childDays x) = some t'.start ∧
      latest? (p.schedule.2.childDays x) = some last ∧
      (t'.milestone = false →
        t'.finish = (p.calendar.pulledBack? .day last t'.start).getD last) := by
  obtain ⟨report, hreport⟩ := hs.exists_report hp
  obtain ⟨result, before, after, hdated, -⟩ := exists_datedAt hp hreport ht
  have hroot := hp.ne_root_of_task? ht
  refine (hdated.fitted hs hp ht hparent fun y hy => ?_).2.2
  exact (hs.placed hp (hp.mem_of_parent? ((hp.parent?_iff_mem_children hroot).mpr hy)).1).1

end Project.Schedulable

end Workplan
