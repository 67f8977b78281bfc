import Workplan.Proofs.Demands
import Workplan.Proofs.Engines
import Workplan.Proofs.Moves

/-!
# Dating one task

A task is dated by the days that bound it: the step of the scheduler is a function of these
days and of the task as it is.

- `Project.dateLeaf`, `Project.dateContainer`: the step for a task without children and for a
  container.
- `Project.plan_leaf`, `Project.plan_container`: the plans that these steps carry out.
- `Project.attempt_leaf`, `Project.attempt_container`: the scheduler does just that.
- `Project.attempt_overflow`: the only fault that ends a whole run.
-/

namespace Workplan

open Collision

namespace Project

variable {p : Project} {x : TaskId} {t : Task} {accept : Dependency → Day}

/-- A task without children goes to the next working day from the latest of the days that
bound it. -/
def dateLeaf (p : Project) (t : Task) (floors : List Day) : Except Fault Bool × Project :=
  match latest? floors with
  | none => (.ok false, p)
  | some floor =>
    let target := p.calendar.onOrAfter .day floor
    if target = t.start then (.ok false, p)
    else
      let start := p.calendar.landing t.start target
      p.redate t start (p.calendar.shiftDays start t.duration.count) t.duration

/-- The end of a container that starts on a day and whose children end on another. -/
def containerFinish (c : Calendar) (t : Task) (start last : Day) : Day :=
  if t.milestone then start else (c.pulledBack? t.grain last start).getD last

/-- A container goes from a start to the latest end of its children, if there is room. -/
def dateContainer (p : Project) (t : Task) (start last : Day) : Except Fault Bool × Project :=
  if last < start then (.error (.unsatisfiable t.id (.noStart (.closed start last))), p)
  else if start = t.start ∧ (p.calendar.pulledBack? t.grain last start).getD last = t.finish then
    (.ok false, p)
  else
    let finish := containerFinish p.calendar t start last
    p.redate t start finish (revisedDuration p.calendar t start finish)

theorem attempt_of_ne_overflow {α σ : Type} {act : Act σ α} {s : σ}
    (h : (act s).1 ≠ .error .overflow) : Host.attempt act s = (.ok (act s).1, (act s).2) := by
  unfold Host.attempt
  split
  · next heq =>
    rw [heq] at h
    exact absurd rfl h
  · next heq => rw [heq]

/-- Writing dates refuses a wrong order and never overflows. -/
theorem redate_ne_overflow (start finish : Day) (duration : Duration) :
    (p.redate t start finish duration).1 ≠ .error .overflow := by
  rw [redate]
  split
  · exact fun h => by cases h
  · exact fun h => by cases h

/-- Starts are on working units, whether they bind or advise. -/
theorem mem_snaps {c : Calendar} {ds : List Dependency} {day : Day} :
    day ∈ t.snaps c ds accept ↔
      (∃ d ∈ ds, d.isSlack (accept d) t.start = false ∧ c.onOrAfter t.grain (accept d) = day) ∨
        ∃ d ∈ ds, d.isSlack (accept d) t.start = true ∧ c.onOrAfter t.grain (accept d) = day := by
  rw [Task.snaps, List.mem_map]
  constructor
  · rintro ⟨d, hd, hday⟩
    cases hslack : d.isSlack (accept d) t.start with
    | false => exact .inl ⟨d, hd, hslack, hday⟩
    | true => exact .inr ⟨d, hd, hslack, hday⟩
  · rintro (⟨d, hd, -, hday⟩ | ⟨d, hd, -, hday⟩)
    · exact ⟨d, hd, hday⟩
    · exact ⟨d, hd, hday⟩

/-! ## Tasks without children -/

/-- The ranges of a task without children. -/
theorem ranges_leaf (hp : p.Sound) (ht : p.task? x = some t) (hleaf : p.hasChildren x = false)
    (haccept : p.Accepts x accept) :
    (p.rangesFor t (p.network.incoming x)).outcome =
      .ok ⟨.above (t.floors p.calendar (p.binding x) accept), .all⟩ := by
  obtain ⟨strict, advice, children, hf, hs, hw, hc⟩ := gather_incoming hp ht haccept
  have hnone : children = [] := by
    refine List.eq_nil_iff_forall_not_mem.mpr fun day hday => ?_
    obtain ⟨child, hchild, -⟩ := mem_childDays.mp ((hc day).mp hday)
    rw [hasChildren_iff.mpr ⟨child, hchild⟩] at hleaf
    cases hleaf
  -- the own start counts exactly when every dependency is advice
  have hease : (strict = [] ∧ advice ≠ []) ↔ t.IsAtEase (p.binding x) accept := by
    constructor
    · rintro ⟨hstrict, hadvice⟩
      constructor
      · obtain ⟨day, hday⟩ := List.exists_mem_of_ne_nil advice hadvice
        obtain ⟨d, hd, -⟩ := (hw day).mp hday
        exact List.ne_nil_of_mem hd
      · intro d hd
        by_contra hnot
        have := (hs _).mpr ⟨d, hd, Bool.eq_false_iff.mpr hnot, rfl⟩
        rw [hstrict] at this
        exact List.not_mem_nil this
    · rintro ⟨hne, hslack⟩
      constructor
      · refine List.eq_nil_iff_forall_not_mem.mpr fun day hday => ?_
        obtain ⟨d, hd, hnot, -⟩ := (hs day).mp hday
        rw [hslack d hd] at hnot
        cases hnot
      · obtain ⟨d, hd⟩ := List.exists_mem_of_ne_nil _ hne
        exact List.ne_nil_of_mem ((hw _).mpr ⟨d, hd, hslack d hd, rfl⟩)
  have hsnaps : ∀ day, (day ∈ strict ∨ day ∈ advice) ↔
      day ∈ t.snaps p.calendar (p.binding x) accept := by
    intro day
    rw [hs, hw, mem_snaps]
  rw [rangesFor_outcome, hf, hnone]
  show (Fold.ofDays strict advice []).ranges t = _
  rw [Fold.ranges_ofDays]
  refine congrArg (fun r => Except.ok (Ranges.mk r .all)) (Interval.above_congr fun day => ?_)
  simp only [Fold.floors, Task.floors, List.mem_append, hsnaps, hease]
  exact or_right_comm

/-- A task without children is moved, and its end follows. -/
theorem commit_of_start (start : Day) :
    Plan.commit Host.alone ⟨t, false, some start, none⟩ p =
      Host.alone.commit (.startAt t.id start) p := by
  show (Host.alone.change (.startAt t.id start) >>= fun moved =>
    (pure false : Act Project Bool) >>= fun ended => pure (moved || ended)) p = _
  have hchange : Host.alone.change (.startAt t.id start) p =
      Host.alone.commit (.startAt t.id start) p := rfl
  rw [Act.bind_apply, hchange]
  rcases Host.alone.commit (.startAt t.id start) p with ⟨fault | moved, q⟩
  · rfl
  · show (Except.ok (moved || false), q) = _
    rw [Bool.or_false]

/-- The plan for a task without children: the next working day from the latest of the days that
bound it, unless it starts there. -/
theorem plan_leaf (hp : p.Sound) (ht : p.task? x = some t) (hleaf : p.hasChildren x = false)
    (hday : t.grain = .day) (haccept : p.Accepts x accept) :
    (p.plan x (p.network.incoming x)).outcome =
      .ok ((((latest? (t.floors p.calendar (p.binding x) accept)).map
        (p.calendar.onOrAfter .day)).filter fun start => start ≠ t.start).map
          fun start => ⟨t, false, some start, none⟩) := by
  have hid := id_of_task? ht
  rw [plan_outcome ht, ranges_leaf hp ht hleaf haccept]
  generalize t.floors p.calendar (p.binding x) accept = floors
  have hdraft : p.draft t ⟨.above floors, .all⟩ =
      ⟨t, false, ((latest? floors).map (p.calendar.onOrAfter .day)).filter fun start =>
        start ≠ t.start, none⟩ := by
    rw [draft, newStart?, hid, hleaf, hday, Interval.endpoint_lower_above]
    rfl
  dsimp only [Except.bind]
  rw [hdraft]
  cases ((latest? floors).map (p.calendar.onOrAfter .day)).filter fun start => start ≠ t.start with
  | none => rfl
  | some start => rfl

/-- Scheduling a leaf in days dates it by its floors. -/
theorem scheduleTask_leaf (hp : p.Sound) (ht : p.task? x = some t)
    (hleaf : p.hasChildren x = false) (hday : t.grain = .day) (haccept : p.Accepts x accept) :
    scheduleTask Host.alone p.network x p =
      p.dateLeaf t (t.floors p.calendar (p.binding x) accept) := by
  have hid := id_of_task? ht
  rw [scheduleTask_alone, plan_leaf hp ht hleaf hday haccept, dateLeaf]
  cases latest? (t.floors p.calendar (p.binding x) accept) with
  | none => rfl
  | some floor =>
    dsimp only [Option.map_some]
    rw [Option.filter_some]
    by_cases hstay : p.calendar.onOrAfter .day floor = t.start
    · rw [if_pos hstay, if_neg (by simpa using hstay)]
      rfl
    · rw [if_neg hstay, if_pos (by simpa using hstay)]
      show Plan.commit Host.alone _ p = _
      rw [← hid] at ht hleaf
      rw [commit_of_start, commit_startAt ht hleaf hday (hp.regular_of_task? ht).point,
        Calendar.onOrAfter_idem, if_neg hstay]

/-- **A task without children is dated by the days that bound it.** -/
theorem attempt_leaf (hp : p.Sound) (ht : p.task? x = some t)
    (hleaf : p.hasChildren x = false) (hday : t.grain = .day) (haccept : p.Accepts x accept) :
    Host.attempt (scheduleTask Host.alone p.network x) p =
      (.ok (p.dateLeaf t (t.floors p.calendar (p.binding x) accept)).1,
        (p.dateLeaf t (t.floors p.calendar (p.binding x) accept)).2) := by
  have hstep := scheduleTask_leaf hp ht hleaf hday haccept
  have hfine : (p.dateLeaf t (t.floors p.calendar (p.binding x) accept)).1 ≠ .error .overflow := by
    rw [dateLeaf]
    split
    · exact fun h => by cases h
    · dsimp only
      split
      · exact fun h => by cases h
      · exact redate_ne_overflow _ _ _
  rw [← hstep] at hfine ⊢
  exact attempt_of_ne_overflow hfine

/-! ## Containers -/

/-- The ranges of a container, in terms of its children's days and its floors. -/
theorem ranges_container {first last start : Day} (hp : p.Sound) (ht : p.task? x = some t)
    (haccept : p.Accepts x accept) (hfirst : earliest? (p.childDays x) = some first)
    (hlast : latest? (p.childDays x) = some last)
    (hstart : latest? (t.snaps p.calendar (p.binding x) accept ++ t.earliestBegin.toList ++
      [first]) = some start) :
    (p.rangesFor t (p.network.incoming x)).outcome =
      if last < start then .error (.unsatisfiable t.id (.noStart (.closed start last)))
      else .ok ⟨.closed start last, .closed first last⟩ := by
  obtain ⟨strict, advice, children, hf, hs, hw, hc⟩ := gather_incoming hp ht haccept
  rw [← earliest?_congr hc] at hfirst
  rw [← latest?_congr hc] at hlast
  obtain ⟨m, hm, hranges⟩ := Fold.ranges_ofDays_container strict advice t hfirst hlast
  have hsame : latest? (strict ++ advice ++ t.earliestBegin.toList ++ [first]) =
      latest? (t.snaps p.calendar (p.binding x) accept ++ t.earliestBegin.toList ++ [first]) := by
    refine latest?_congr fun day => ?_
    simp only [List.mem_append]
    rw [hs, hw, ← mem_snaps]
  rw [hsame, hstart] at hm
  cases hm
  rw [rangesFor_outcome, hf]
  exact hranges

/-- A finish is pulled back from a workday to the end of the work before it, where days off lie
between and the start stays before. -/
theorem pulledBack?_eq_some_iff {c : Calendar} {grain : Grain} {finish start day : Day} :
    c.pulledBack? grain finish start = some day ↔ c.isWorking finish ∧
      ∃ workday, c.closest finish grain .backward .working none = some workday ∧
      ∃ dayOff, c.closest finish grain .backward .nonWorking (some workday) = some dayOff ∧
        (workday < dayOff ∧ start < grain.nextStart workday) ∧ grain.nextStart workday = day := by
  simp [Calendar.pulledBack?, Option.bind_eq_some_iff, Option.guard_eq_some']

/-- An end is pulled back to a day after the start only. -/
theorem lt_of_pulledBack? {c : Calendar} {grain : Grain} {finish start day : Day}
    (h : c.pulledBack? grain finish start = some day) : start < day := by
  obtain ⟨-, workday, -, dayOff, -, ⟨-, hlt⟩, rfl⟩ := pulledBack?_eq_some_iff.mp h
  exact hlt

theorem getD_filter_ne (d e : Day) : ((some d).filter fun day => day ≠ e).getD e = d := by
  rw [Option.filter_some]
  by_cases h : d = e <;> simp [h]

theorem filter_ne_isNone (d e : Day) :
    ((some d).filter fun day => day ≠ e).isNone ↔ d = e := by
  rw [Option.filter_some]
  by_cases h : d = e <;> simp [h]

/-- The plan for a container: from its start to the latest end of its children, as far as these
dates are new, if there is room. -/
theorem plan_container {first last start : Day} (hp : p.Sound) (ht : p.task? x = some t)
    (hparent : p.hasChildren x)
    (haccept : p.Accepts x accept) (hfirst : earliest? (p.childDays x) = some first)
    (hlast : latest? (p.childDays x) = some last)
    (hstart : latest? (t.snaps p.calendar (p.binding x) accept ++ t.earliestBegin.toList ++
      [first]) = some start) :
    (p.plan x (p.network.incoming x)).outcome =
      if last < start then .error (.unsatisfiable t.id (.noStart (.closed start last)))
      else if start = t.start ∧
          (p.calendar.pulledBack? t.grain last start).getD last = t.finish then
        .ok none
      else .ok (some ⟨t, true, (some start).filter fun day => day ≠ t.start,
        (some ((p.calendar.pulledBack? t.grain last start).getD last)).filter
          fun day => day ≠ t.finish⟩) := by
  have hid := id_of_task? ht
  rw [plan_outcome ht, ranges_container hp ht haccept hfirst hlast hstart]
  by_cases hlt : last < start
  · rw [if_pos hlt, if_pos hlt]
    rfl
  rw [if_neg hlt, if_neg hlt]
  generalize hfinish : (p.calendar.pulledBack? t.grain last start).getD last = finish
  have hle : start ≤ finish := by
    rw [← hfinish]
    cases hpull : p.calendar.pulledBack? t.grain last start with
    | none => exact not_lt.mp hlt
    | some day => exact (lt_of_pulledBack? hpull).le
  generalize hstart? : (some start).filter (fun day => day ≠ t.start) = start?
  generalize hfinish? : (some finish).filter (fun day => day ≠ t.finish) = finish?
  have hgetStart : start?.getD t.start = start := by rw [← hstart?, getD_filter_ne]
  have hdraft : p.draft t ⟨.closed start last, .closed first last⟩ =
      ⟨t, true, start?, finish?⟩ := by
    have hnew : p.newStart? t (.closed start last) = start? := by
      rw [newStart?, hid, hparent, ← hstart?]
      rfl
    rw [draft, draftFinish?, hnew, hgetStart, hid, hparent]
    show Plan.mk t true start?
      ((some ((p.calendar.pulledBack? t.grain last start).getD last)).filter _) = _
    rw [hfinish, hfinish?]
  have hvoid : (Plan.mk t true start? finish?).isVoid ↔ start = t.start ∧ finish = t.finish := by
    rw [Plan.isVoid, Bool.and_eq_true, ← hstart?, ← hfinish?, filter_ne_isNone, filter_ne_isNone]
  dsimp only [Except.bind]
  rw [hdraft, Plan.settled]
  by_cases hstay : start = t.start ∧ finish = t.finish
  · rw [if_pos hstay, if_pos (hvoid.mpr hstay)]
  · rw [if_neg hstay, if_neg (hvoid.not.mpr hstay)]
    -- the end is not before the start, so the check of the draft passes
    have hfine : ((Plan.mk t true start? finish?).newFinish?.any fun finish =>
        finish < (Plan.mk t true start? finish?).start) = false := by
      show (finish?.any fun finish => finish < start?.getD t.start) = false
      rw [hgetStart, ← hfinish?, Option.filter_some]
      split
      · simpa using hle
      · rfl
    rw [hfine]
    rfl

/-- Scheduling a container dates it from its floors to the last of its children's days, pulled
back. -/
theorem scheduleTask_container {first last start : Day} (hp : p.Sound) (ht : p.task? x = some t)
    (hparent : p.hasChildren x)
    (haccept : p.Accepts x accept) (hfirst : earliest? (p.childDays x) = some first)
    (hlast : latest? (p.childDays x) = some last)
    (hstart : latest? (t.snaps p.calendar (p.binding x) accept ++ t.earliestBegin.toList ++
      [first]) = some start) :
    scheduleTask Host.alone p.network x p = p.dateContainer t start last := by
  have hid := id_of_task? ht
  rw [scheduleTask_alone, plan_container hp ht hparent haccept hfirst hlast hstart, dateContainer]
  split_ifs with hlt hstay
  · rfl
  · rfl
  -- only the dates that differ are written down, which makes no difference to the commit
  show Host.alone.commit (.revise t.id
    { start? := (some start).filter fun day => day ≠ t.start,
      finish? := (some ((p.calendar.pulledBack? t.grain last start).getD last)).filter
        fun day => day ≠ t.finish }) p = _
  rw [← hid] at ht
  rw [commit_revise ht, getD_filter_ne]
  have hend : revisedFinish t start ((some ((p.calendar.pulledBack? t.grain last start).getD
      last)).filter fun day => day ≠ t.finish) = containerFinish p.calendar t start last := by
    rw [revisedFinish, containerFinish, getD_filter_ne]
  rw [hend]

/-- **A container is dated by the days that bound it and by its children.** -/
theorem attempt_container {first last start : Day} (hp : p.Sound) (ht : p.task? x = some t)
    (hparent : p.hasChildren x)
    (haccept : p.Accepts x accept) (hfirst : earliest? (p.childDays x) = some first)
    (hlast : latest? (p.childDays x) = some last)
    (hstart : latest? (t.snaps p.calendar (p.binding x) accept ++ t.earliestBegin.toList ++
      [first]) = some start) :
    Host.attempt (scheduleTask Host.alone p.network x) p =
      (.ok (p.dateContainer t start last).1, (p.dateContainer t start last).2) := by
  have hstep := scheduleTask_container hp ht hparent haccept hfirst hlast hstart
  have hfine : (p.dateContainer t start last).1 ≠ .error .overflow := by
    rw [dateContainer]
    split
    · exact fun h => by cases h
    · split
      · exact fun h => by cases h
      · exact redate_ne_overflow _ _ _
  rw [← hstep] at hfine ⊢
  exact attempt_of_ne_overflow hfine

/-! ## Lengths that are too large -/

/-- A start that cannot be worked out spoils what the edges leave. -/
theorem gather_of_unacceptable {d : Dependency} (hp : p.Sound) (ht : p.task? x = some t)
    (hd : d ∈ p.binding x) (h : p.acceptable d x = .error .overflow) :
    (p.gather .empty (p.network.incoming x)).outcome = .error .overflow := by
  have hcontr : p.contribution? (.ofDependency d x) = .error .overflow := by
    rw [contribution?_ofDependency hp (mem_binding.mp hd).1 ht, h]
    rfl
  exact gather_of_overflow [] [] [] ((mem_incoming_network hp).mpr (.inr ⟨d, hd, rfl⟩)) hcontr

/-- A start that cannot be worked out ends the run. -/
theorem attempt_overflow {d : Dependency} (hp : p.Sound) (ht : p.task? x = some t)
    (hd : d ∈ p.binding x) (h : p.acceptable d x = .error .overflow) :
    Host.attempt (scheduleTask Host.alone p.network x) p = (.error .overflow, p) := by
  rw [Host.attempt, scheduleTask_alone, plan_outcome ht, rangesFor_outcome,
    gather_of_unacceptable hp ht hd h]
  rfl

end Project

end Workplan
