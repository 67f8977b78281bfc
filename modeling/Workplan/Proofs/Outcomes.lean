import Workplan.Proofs.Dating
import Workplan.Proofs.Runs

/-!
# What a run makes of a task

The final dates of a task are given by the final dates of everything that leads to it.

- `LeafOutcome`, `ContainerOutcome`: the ways in which dating a task can end.
- `DatedAt.leaf`, `DatedAt.container`: one of them is what a run makes of the task.
- `Project.HasRoom`: a task that is moved ends up where there is still a working day to come.
-/

namespace Workplan

open Collision

variable {p q before after : Project} {x : TaskId} {t t' : Task} {result : Except Fault Bool}
  {accept : Dependency → Day} {c : Calendar}

/-! ## The ways to end -/

/-- What dating makes of a task without children that is bounded by these days. -/
inductive LeafOutcome (c : Calendar) (t : Task) (floors : List Day) :
    Task → Except Fault Bool → Prop
  | free (h : floors = []) : LeafOutcome c t floors t (.ok false)
  | still (floor : Day) (h : latest? floors = some floor)
    (hstay : c.onOrAfter .day floor = t.start) :
    LeafOutcome c t floors t (.ok false)
  | refused (floor start finish : Day) (h : latest? floors = some floor)
    (hmove : c.onOrAfter .day floor ≠ t.start)
    (hstart : start = c.landing t.start (c.onOrAfter .day floor))
    (hfinish : finish = c.shiftDays start t.duration.count) (hlt : finish < start) :
    LeafOutcome c t floors t (.error (.invalidDates t.id start finish))
  | moved (floor start finish : Day) (h : latest? floors = some floor)
    (hmove : c.onOrAfter .day floor ≠ t.start)
    (hstart : start = c.landing t.start (c.onOrAfter .day floor))
    (hfinish : finish = c.shiftDays start t.duration.count) (hle : start ≤ finish) :
    LeafOutcome c t floors { t with start, finish } (.ok true)

/-- What dating makes of a container that starts on a day and whose children end on another. -/
inductive ContainerOutcome (c : Calendar) (t : Task) (start last : Day) :
    Task → Except Fault Bool → Prop
  | refused (hlt : last < start) :
    ContainerOutcome c t start last t (.error (.unsatisfiable t.id (.noStart (.closed start last))))
  | still (hle : start ≤ last) (hstart : start = t.start)
    (hfinish : (c.pulledBack? t.grain last start).getD last = t.finish) :
    ContainerOutcome c t start last t (.ok false)
  | fitted (finish : Day) (duration : Duration) (hle : start ≤ last)
    (hfinish : finish = Project.containerFinish c t start last)
    (hduration : duration = Project.revisedDuration c t start finish) :
    ContainerOutcome c t start last { t with start, finish, duration }
      (.ok (decide ({ t with start, finish, duration } ≠ t)))

namespace Project

theorem start_le_containerFinish {start last : Day} (h : start ≤ last) :
    start ≤ containerFinish c t start last := by
  rw [containerFinish]
  split
  · exact le_rfl
  · cases hpull : c.pulledBack? t.grain last start with
    | none => exact h
    | some day => exact (lt_of_pulledBack? hpull).le

/-- The row of a task that was not there before is the row after it was replaced. -/
theorem exists_dateLeaf (hc : p.calendar.GapsBelowHorizon) (ht : p.task? x = some t)
    (floors : List Day) :
    ∃ t', (p.dateLeaf t floors).2.task? x = some t' ∧
      LeafOutcome p.calendar t floors t' (p.dateLeaf t floors).1 := by
  have hid := id_of_task? ht
  rw [dateLeaf]
  cases hfloor : latest? floors with
  | none => exact ⟨t, ht, .free (latest?_eq_none_iff.mp hfloor)⟩
  | some floor =>
    dsimp only
    by_cases hstay : p.calendar.onOrAfter .day floor = t.start
    · rw [if_pos hstay]
      exact ⟨t, ht, .still floor hfloor hstay⟩
    · rw [if_neg hstay]
      generalize hstart : p.calendar.landing t.start (p.calendar.onOrAfter .day floor) = start
      generalize hfinish : p.calendar.shiftDays start t.duration.count = finish
      rw [redate]
      by_cases hlt : finish < start
      · rw [if_pos hlt]
        exact ⟨t, ht, .refused floor start finish hfloor hstay hstart.symm hfinish.symm hlt⟩
      · have hne : start ≠ t.start := by
          rw [← hstart]
          exact Calendar.landing_ne hc hstay
        have hnew : decide ({ t with start, finish } ≠ t) = true :=
          decide_eq_true fun heq => hne (congrArg Task.start heq)
        -- the row that is written is the row that is found
        have hrow : (p.replace { t with start, finish }).task? x =
          some { t with start, finish } := task?_replace_self ht rfl
        rw [if_neg hlt]
        dsimp only
        rw [hnew]
        exact ⟨_, hrow, .moved floor start finish hfloor hstay hstart.symm hfinish.symm
          (not_lt.mp hlt)⟩

theorem exists_dateContainer (ht : p.task? x = some t) (start last : Day) :
    ∃ t', (p.dateContainer t start last).2.task? x = some t' ∧
      ContainerOutcome p.calendar t start last t' (p.dateContainer t start last).1 := by
  have hid := id_of_task? ht
  rw [dateContainer]
  by_cases hlt : last < start
  · rw [if_pos hlt]
    exact ⟨t, ht, .refused hlt⟩
  have hle := not_lt.mp hlt
  rw [if_neg hlt]
  by_cases hstay : start = t.start ∧
      (p.calendar.pulledBack? t.grain last start).getD last = t.finish
  · rw [if_pos hstay]
    exact ⟨t, ht, .still hle hstay.1 hstay.2⟩
  · rw [if_neg hstay]
    dsimp only
    generalize hfinish : containerFinish p.calendar t start last = finish
    generalize hduration : revisedDuration p.calendar t start finish = duration
    have hfine : ¬ finish < start := by
      rw [← hfinish]
      exact not_lt.mpr (start_le_containerFinish hle)
    have hrow : (p.replace { t with start, finish, duration }).task? x =
        some { t with start, finish, duration } := task?_replace_self ht rfl
    rw [redate, if_neg hfine]
    exact ⟨_, hrow, .fitted finish duration hle hfinish.symm hduration.symm⟩

end Project

/-- With room for it, a container gets its start, and an end that is not before that. -/
theorem ContainerOutcome.of_le {start last : Day}
    (h : ContainerOutcome c t start last t' result) (hle : start ≤ last) :
    (∃ changed, result = .ok changed) ∧ t'.start = start ∧
      (t'.milestone = false → t'.finish = (c.pulledBack? t.grain last start).getD last) ∧
      (t.start ≤ t.finish → t'.start ≤ t'.finish) := by
  cases h with
  | refused hlt => exact absurd hle (not_le.mpr hlt)
  | still _ hstart hfinish =>
    exact ⟨⟨_, rfl⟩, hstart.symm, fun _ => hfinish.symm, fun hdates => hdates⟩
  | fitted finish duration _ hfinish _ =>
    refine ⟨⟨_, rfl⟩, rfl, fun hms => ?_, fun _ => ?_⟩
    · have hms' : t.milestone = false := hms
      rw [Project.containerFinish, hms'] at hfinish
      exact hfinish
    · show start ≤ finish
      rw [hfinish]
      exact Project.start_le_containerFinish hle

namespace Project

/-- A run does not move the task so far that no working day is left from its start on. -/
def HasRoom (p : Project) (id : TaskId) : Prop :=
  ∀ t, p.schedule.2.task? id = some t → p.task? id ≠ some t → p.calendar.ReachesWork t.start

theorem hasRoom_of_early (hc : p.calendar.GapsBelowHorizon)
    (h : ∀ t ∈ p.schedule.2.tasks, t.start.ordinal + Calendar.horizon ≤ Day.count) (id : TaskId) :
    p.HasRoom id :=
  fun t ht _ => hc.reachesWork (h t (mem_of_task? ht))

theorem not_bindsFinish (hp : p.Sound)
    (hchildless : ∀ d ∈ p.dependencies, d.kind.bindsFinish → p.hasChildren d.dependant = false)
    (hx : p.hasChildren x) : ∀ d ∈ p.binding x, ¬ d.kind.bindsFinish := by
  intro d hd hkind
  obtain ⟨hd, hbound⟩ := mem_binding.mp hd
  have hnone := hchildless d hd hkind
  have hroot := hp.ne_root (hp.dependant_mem d hd)
  rw [hp.isAncestor_iff hroot] at hbound
  rcases hbound with rfl | hinside
  · rw [hx] at hnone
    cases hnone
  · rw [hasChildren_of_inside hinside] at hnone
    cases hnone

end Project

/-! ## What a run makes of a task -/

namespace DatedAt

variable (h : DatedAt p q x result before after) (hp : p.Sound)
include h

theorem exists_accepts (ht : p.task? x = some t) : ∃ accept, before.Accepts x accept := by
  have hstep := h.step
  rw [← h.frame.network] at hstep
  rcases Project.exists_accepts h.sound (h.own.trans ht) with haccept | ⟨d, hd, hover⟩
  · exact haccept
  · rw [Project.attempt_overflow h.sound (h.own.trans ht) hd hover] at hstep
    cases hstep

/-- What a run makes of a task without children, by what the dependencies accept when it is
dated. -/
theorem placed (hc : p.calendar.GapsBelowHorizon) (ht : p.task? x = some t)
    (hleaf : p.hasChildren x = false) (hday : t.grain = .day) :
    ∃ accept t', before.Accepts x accept ∧ q.task? x = some t' ∧
      LeafOutcome p.calendar t (t.floors p.calendar (p.binding x) accept) t' result := by
  obtain ⟨accept, haccept⟩ := h.exists_accepts ht
  have hstep := h.step
  rw [← h.frame.network, Project.attempt_leaf h.sound (h.own.trans ht)
    (by rwa [h.frame.hasChildren]) hday haccept, h.frame.binding, h.frame.calendar] at hstep
  obtain ⟨t', ht', hout⟩ := Project.exists_dateLeaf (by rwa [h.frame.calendar]) (h.own.trans ht)
    (t.floors p.calendar (p.binding x) accept)
  rw [Prod.mk.injEq, Except.ok.injEq] at hstep
  rw [hstep.1, h.frame.calendar] at hout
  rw [hstep.2] at ht'
  exact ⟨accept, t', haccept, h.final.trans ht', hout⟩

include hp

/-- A dependee has its final dates when its dependant is dated. -/
theorem source {d : Dependency} (hd : d ∈ p.binding x) :
    before.task? d.dependee = q.task? d.dependee := by
  have hmem := hp.dependee_mem d (Project.mem_binding.mp hd).1
  refine h.sources d.dependee hmem (Network.leads_iff.mpr ?_)
  exact ⟨_, (Project.mem_incoming_network hp).mpr (.inr ⟨d, hd, rfl⟩), rfl⟩

/-- So has a child when its container is dated. -/
theorem child {y : TaskId} (hroot : x ≠ .root) (hy : y ∈ p.children x) :
    before.task? y = q.task? y := by
  have hparent := (hp.parent?_iff_mem_children hroot).mpr hy
  refine h.sources y (hp.mem_of_parent? hparent).1 (Network.leads_iff.mpr ?_)
  exact ⟨_, (Project.mem_incoming_network hp).mpr (.inl ⟨y, hparent, rfl⟩), rfl⟩

/-- The dependencies accept the same starts on the final dates. -/
theorem accepts (ht : p.task? x = some t) (ht' : q.task? x = some t')
    (hlength : ∀ d ∈ p.binding x, d.kind.bindsFinish → t'.duration = t.duration)
    (haccept : before.Accepts x accept) : q.Accepts x accept := by
  have hbinding : before.binding x = p.binding x := h.frame.binding x
  intro d hd
  rw [h.finalFrame.binding] at hd
  rw [← haccept d (by rwa [hbinding])]
  have hframe := h.frame.symm.trans h.finalFrame
  have hmem : d ∈ before.dependencies := by
    rw [h.frame.dependencies]
    exact (Project.mem_binding.mp hd).1
  exact hframe.acceptable h.sound hmem (h.source hp hd).symm (h.own.trans ht) ht' (hlength d hd)

/-- **What a run makes of a task without children.** -/
theorem leaf (hc : p.calendar.GapsBelowHorizon) (ht : p.task? x = some t)
    (hleaf : p.hasChildren x = false) (hday : t.grain = .day) :
    ∃ accept t', q.Accepts x accept ∧ q.task? x = some t' ∧
      LeafOutcome p.calendar t (t.floors p.calendar (p.binding x) accept) t' result := by
  obtain ⟨accept, t', haccept, ht', hout⟩ := h.placed hc ht hleaf hday
  refine ⟨accept, t', h.accepts hp ht ht' (fun _ _ _ => ?_) haccept, ht', hout⟩
  cases hout <;> rfl

/-- The children come before their container, so their dates are final when it is dated. -/
theorem childDays_eq (hroot : x ≠ .root) : before.childDays x = q.childDays x := by
  have hrows : (p.children x).filterMap before.task? = (p.children x).filterMap q.task? :=
    List.filterMap_congr fun y hy => h.child hp hroot hy
  rw [Project.childDays, Project.childDays, h.frame.children, h.finalFrame.children, hrows]

/-- What a run makes of a container, by what the dependencies accept when it is dated. -/
theorem contained (ht : p.task? x = some t) (hparent : p.hasChildren x) :
    ∃ accept t' first last start, before.Accepts x accept ∧ q.task? x = some t' ∧
      earliest? (q.childDays x) = some first ∧ latest? (q.childDays x) = some last ∧
      latest? (t.snaps p.calendar (p.binding x) accept ++ t.earliestBegin.toList ++ [first]) =
        some start ∧
      ContainerOutcome p.calendar t start last t' result := by
  have hroot := hp.ne_root_of_task? ht
  have hdays := h.childDays_eq hp hroot
  have hne : q.childDays x ≠ [] := by
    rw [← hdays]
    refine Project.childDays_ne_nil h.sound hroot ?_
    rw [h.frame.hasChildren]
    exact hparent
  obtain ⟨first, hfirst⟩ := exists_earliest? hne
  obtain ⟨last, hlast⟩ := exists_latest? hne
  obtain ⟨accept, haccept⟩ := h.exists_accepts ht
  obtain ⟨start, hstart⟩ := exists_latest? (List.append_ne_nil_of_right_ne_nil
    (t.snaps p.calendar (p.binding x) accept ++ t.earliestBegin.toList) (List.cons_ne_nil first []))
  have hstep := h.step
  rw [← h.frame.network, Project.attempt_container h.sound (h.own.trans ht)
    (by rwa [h.frame.hasChildren]) haccept (by rwa [hdays]) (by rwa [hdays])
    (by rwa [h.frame.calendar, h.frame.binding])] at hstep
  obtain ⟨t', ht', hout⟩ := Project.exists_dateContainer (h.own.trans ht) start last
  rw [Prod.mk.injEq, Except.ok.injEq] at hstep
  rw [hstep.1, h.frame.calendar] at hout
  rw [hstep.2] at ht'
  exact ⟨accept, t', first, last, start, haccept, h.final.trans ht', hfirst, hlast, hstart, hout⟩

/-- **What a run makes of a container**, if no dependency links its end. -/
theorem container (ht : p.task? x = some t) (hparent : p.hasChildren x)
    (hstarts : ∀ d ∈ p.binding x, ¬ d.kind.bindsFinish) :
    ∃ accept t' first last start, q.Accepts x accept ∧ q.task? x = some t' ∧
      earliest? (q.childDays x) = some first ∧ latest? (q.childDays x) = some last ∧
      latest? (t.snaps p.calendar (p.binding x) accept ++ t.earliestBegin.toList ++ [first]) =
        some start ∧
      ContainerOutcome p.calendar t start last t' result := by
  obtain ⟨accept, t', first, last, start, haccept, ht', hrest⟩ := h.contained hp ht hparent
  have hfinal := h.accepts hp ht ht' (fun d hd hkind => absurd hkind (hstarts d hd)) haccept
  exact ⟨accept, t', first, last, start, hfinal, ht', hrest⟩

end DatedAt

end Workplan
