import Workplan.Proofs.Lengths
import Workplan.Proofs.Planned
import Workplan.Proofs.Settled
import Workplan.Proofs.Shifts

/-!
# Delays

In a project without nesting a later start of some tasks makes no task earlier.  A dependency may
turn from advice into a demand by that, or back, but what it gives up is made up for by what it has
asked for: a loose dependency that begins to bind asks for more than the start that the task keeps
otherwise.

- `Calendar.landing_mono`: from a later day to a later day, a move does not land earlier.
- `Dependency.acceptableStart_mono`: later dates of the dependee give a later accepted start.
- `Project.DelayedTo`: the same tasks and dependencies with later starts.
- `DelayedTo.floor_le`: so the latest day that bounds a task is not earlier either.
- `schedule_delayed`: nor are the dates after a run.
-/

namespace Workplan

open Collision

variable {p q : Project} {x : TaskId} {t u t' u' : Task} {c : Calendar}

/-! ## Moves -/

namespace Calendar

variable {a a' b b' y : Day}

theorem landing_eq_onOrAfter (hc : c.GapsBelowHorizon) (hb : c.ReachesWork b) :
    c.landing a (c.onOrAfter .day b) = c.onOrAfter .day b :=
  landing_eq hc (hb.isNextWorkday hc).working

/-- Where no working day is left from either day on, a move ends where it was aimed at. -/
theorem landing_of_idle (ha : ¬ c.ReachesWork a) (hb : ¬ c.ReachesWork b) : c.landing a b = b := by
  have hidle : ∀ {d e}, ¬ c.ReachesWork d → c.workdaysBetween d e = 0 := fun hd =>
    workdaysBetween_eq_zero fun v hv _ hwork => hd ⟨v, hv, hwork⟩
  rcases le_or_gt a b with hab | hba
  · rw [landing_of_le hab, if_pos (hidle ha)]
  · rw [landing_of_lt hba, if_pos (hidle hb)]

/-- A move past the last working day stops right behind it. -/
theorem landing_le_of_idle (hc : c.GapsBelowHorizon) (ha : c.ReachesWork a)
    (hb : ¬ c.ReachesWork b) (hy : ¬ c.ReachesWork y) : c.landing a b ≤ y := by
  have hbefore : ∀ {d}, ¬ c.ReachesWork d → a ≤ d := fun hd =>
    not_lt.mp fun hlt => hd (ha.of_le hlt.le)
  have hland := not_reachesWork_landing hc (a := a) hb
  have hab := hbefore hb
  rw [landing_of_le hab] at hland ⊢
  by_cases hnone : c.workdaysBetween a b = 0
  · -- the working day that is left would lie before `b`
    exfalso
    obtain ⟨w, haw, hw⟩ := ha
    have hwb : w < b := not_le.mp fun hbw => hb ⟨w, hbw, hw⟩
    rw [workdaysBetween_add haw hwb.le] at hnone
    have := workdaysBetween_pos hwb hw
    omega
  rw [if_neg hnone] at hland ⊢
  rw [reachesWork_onOrAfter hc] at hland
  rw [onOrAfter_of_not_reachesWork hland]
  obtain ⟨hstop, -⟩ := ahead_workdaysBetween hc hab
  rcases le_or_gt b y with hby | hyb
  · exact hstop.trans hby
  · have hidle : c.workdaysBetween y b = 0 :=
      workdaysBetween_eq_zero fun v hv _ hwork => hy ⟨v, hv, hwork⟩
    rw [workdaysBetween_add (hbefore hy) hyb.le, hidle, Nat.add_zero]
    exact (ahead_workdaysBetween hc (hbefore hy)).1

/-- **From a later day to a later one, a move does not land earlier.** -/
theorem landing_mono (hc : c.GapsBelowHorizon) (ha : a ≤ a') (hb : b ≤ b') :
    c.landing a (c.onOrAfter .day b) ≤ c.landing a' (c.onOrAfter .day b') := by
  by_cases hb' : c.ReachesWork b'
  · rw [landing_eq_onOrAfter hc (hb'.of_le hb), landing_eq_onOrAfter hc hb']
    exact onOrAfter_mono hc hb
  rw [onOrAfter_of_not_reachesWork hb']
  have hland' := not_reachesWork_landing hc (a := a') hb'
  by_cases hbwork : c.ReachesWork b
  · rw [landing_eq_onOrAfter hc hbwork]
    have hworking := reachesWork_of_working (hbwork.isNextWorkday hc).working
    exact not_lt.mp fun hlt => hland' (hworking.of_le hlt.le)
  rw [onOrAfter_of_not_reachesWork hbwork]
  by_cases hawork : c.ReachesWork a
  · exact landing_le_of_idle hc hawork hbwork hland'
  · have ha' : ¬ c.ReachesWork a' := fun h => hawork (h.of_le ha)
    rw [landing_of_idle hawork hbwork, landing_of_idle ha' hb']
    exact hb

end Calendar

/-- A task without children that is bounded goes to the latest day that bounds it. -/
theorem LeafOutcome.start_eq_landing {floors : List Day} {result : Except Fault Bool}
    (h : LeafOutcome c t floors t' result) (hfine : ∀ fault, result ≠ .error fault) :
    (floors = [] ∧ t' = t) ∨ ∃ floor, latest? floors = some floor ∧
      t'.start = c.landing t.start (c.onOrAfter .day floor) := by
  cases h with
  | free h => exact .inl ⟨h, rfl⟩
  | still floor h hstay =>
    refine .inr ⟨floor, h, ?_⟩
    rw [hstay, Calendar.landing_of_le le_rfl, Calendar.workdaysBetween_of_le le_rfl]
    rfl
  | refused => exact absurd rfl (hfine _)
  | moved floor start finish h hmove hstart hfinish hle => exact .inr ⟨floor, h, hstart⟩

/-! ## Accepted starts -/

namespace Dependency

variable {d : Dependency} {source source' : Task}

theorem barrier_mono (hc : c.GapsBelowHorizon) (hstart : source.start ≤ source'.start)
    (hfinish : source.finish ≤ source'.finish) : d.barrier c source ≤ d.barrier c source' := by
  unfold barrier
  cases d.kind with
  | finishStart | finishFinish => exact Calendar.shiftDays_mono hc d.lag hfinish
  | startStart | startFinish => exact Calendar.shiftDays_mono hc d.lag hstart

/-- **Later dates of the dependee give a later accepted start**, for a dependant counted in days. -/
theorem acceptableStart_mono (hc : c.GapsBelowHorizon) (hstart : source.start ≤ source'.start)
    (hfinish : source.finish ≤ source'.finish) (hsame : u.duration = t.duration)
    (hday : t.grain = .day) {day day' : Day} (h : d.acceptableStart c source t = .ok day)
    (h' : d.acceptableStart c source' u = .ok day') : day ≤ day' := by
  have hbarrier := barrier_mono (d := d) hc hstart hfinish
  -- a linked end goes back from the barrier by the duration of the dependant
  have hback : ∀ {source : Task} {v : Task} {day : Day}, v.duration = t.duration →
      v.duration.negate.bind (c.shift (d.barrier c source)) = .ok day →
        day = c.shiftDays (d.barrier c source) (-t.duration.count) := by
    intro source v day hv hrun
    obtain ⟨length, hlength, hrun⟩ := exists_of_bind_eq_ok hrun
    rw [Duration.eq_of_negate hlength, hv,
      Project.shift_day ⟨-t.duration.count, t.duration.grain⟩ hday] at hrun
    exact (Except.ok.inj hrun).symm
  rw [acceptableStart_eq] at h h'
  by_cases hkind : d.kind.bindsFinish
  · rw [if_pos hkind] at h h'
    rw [hback rfl h, hback hsame h']
    exact Calendar.shiftDays_mono hc _ hbarrier
  · rw [if_neg hkind] at h h'
    cases h
    cases h'
    exact hbarrier

end Dependency

/-! ## Later starts -/

/-- The second project has the tasks and the dependencies of the first one, over the same calendar,
and no task starts earlier in it. -/
structure Project.DelayedTo (p q : Project) : Prop where
  calendar : q.calendar = p.calendar
  contains : ∀ x, q.contains x ↔ p.contains x
  dependencies : ∀ d, d ∈ q.dependencies ↔ d ∈ p.dependencies
  rows : ∀ x t u, p.task? x = some t → q.task? x = some u →
    u.duration = t.duration ∧ u.anchor = t.anchor ∧ t.start ≤ u.start

theorem Project.DelayedTo.of_rows (hcalendar : q.calendar = p.calendar)
    (hids : q.tasks.map Task.id = p.tasks.map Task.id)
    (hdependencies : q.dependencies = p.dependencies)
    (hrows : ∀ t ∈ p.tasks, ∀ u ∈ q.tasks, u.id = t.id →
      u.duration = t.duration ∧ u.anchor = t.anchor ∧ t.start ≤ u.start) : p.DelayedTo q where
  calendar := hcalendar
  contains x := by
    rw [contains_iff, contains_iff, ← List.mem_map, ← List.mem_map, hids]
  dependencies d := by rw [hdependencies]
  rows x t u ht hu := hrows t (mem_of_task? ht) u (mem_of_task? hu)
    ((id_of_task? hu).trans (id_of_task? ht).symm)

/-- All dates follow from the starts: no task contains others, lengths are in days and do not lead
back, and every task ends by its length. -/
structure Project.Startwise (p : Project) : Prop where
  flat : p.Flat
  days : ∀ t ∈ p.tasks, t.grain = .day
  lengths : ∀ t ∈ p.tasks, 0 ≤ t.duration.count
  spans : ∀ t ∈ p.tasks, p.calendar.shift t.start t.duration = .ok t.finish

/-- Nothing bounds a task if no dependency and no anchor does. -/
theorem Task.floors_eq_nil_iff {ds : List Dependency} {accept : Dependency → Day} :
    t.floors c ds accept = [] ↔ ds = [] ∧ t.earliestBegin = none := by
  unfold Task.floors Task.snaps
  constructor
  · intro h
    simp only [List.append_eq_nil_iff, List.map_eq_nil_iff, Option.toList_eq_nil_iff] at h
    exact h.1
  · rintro ⟨rfl, hnone⟩
    simp [hnone, Task.IsAtEase]

namespace Project.DelayedTo

variable {ds ds' : List Dependency} {accept accept' : Dependency → Day}

theorem mem_incoming_iff (h : p.DelayedTo q) {d : Dependency} :
    d ∈ q.incoming x ↔ d ∈ p.incoming x := by
  rw [mem_incoming, mem_incoming, h.dependencies]

theorem exists_task? (h : p.DelayedTo q) (ht : p.task? x = some t) : ∃ u, q.task? x = some u := by
  have hthere : q.contains x := (h.contains x).mpr (by simp [Project.contains, ht])
  exact Option.isSome_iff_exists.mp hthere

/-- A task that nothing bounds is not bounded after a delay either. -/
theorem floors_eq_nil_iff (h : p.DelayedTo q) (hanchor : u.anchor = t.anchor) :
    u.floors c (q.incoming x) accept' = [] ↔ t.floors c (p.incoming x) accept = [] := by
  have hbegin : u.earliestBegin = t.earliestBegin := by
    unfold Task.earliestBegin
    rw [hanchor]
  have hnone : q.incoming x = [] ↔ p.incoming x = [] := by
    simp only [List.eq_nil_iff_forall_not_mem, h.mem_incoming_iff]
  rw [Task.floors_eq_nil_iff, Task.floors_eq_nil_iff, hnone, hbegin]

/-- For each day that bounds a task there is one after a delay that is not earlier. -/
theorem exists_floor_le (hc : c.GapsBelowHorizon) (hds : ∀ d, d ∈ ds' ↔ d ∈ ds)
    (hday : t.grain = .day) (hday' : u.grain = .day) (hanchor : u.anchor = t.anchor)
    (hstart : t.start ≤ u.start) (haccept : ∀ d ∈ ds, accept d ≤ accept' d) {day : Day}
    (h : day ∈ t.floors c ds accept) : ∃ day' ∈ u.floors c ds' accept', day ≤ day' := by
  have hbegin : u.earliestBegin = t.earliestBegin := by
    unfold Task.earliestBegin
    rw [hanchor]
  have hsnap : ∀ d ∈ ds, c.onOrAfter .day (accept' d) ∈ u.floors c ds' accept' := by
    intro d hd
    rw [Task.mem_floors, hday']
    exact .inl ⟨d, (hds d).mpr hd, rfl⟩
  rw [Task.mem_floors, hday] at h
  rcases h with ⟨d, hd, rfl⟩ | hday | ⟨rfl, hne, hease⟩
  · exact ⟨_, hsnap d hd, Calendar.onOrAfter_mono hc (haccept d hd)⟩
  · exact ⟨day, Task.mem_floors.mpr (.inr (.inl (hbegin.trans hday))), le_rfl⟩
  -- the old start counts as long as nothing asks for more
  by_cases hkept : ∀ d ∈ ds, accept' d ≤ u.start
  · refine ⟨u.start, Task.mem_floors.mpr (.inr (.inr ⟨rfl, fun hnil => hne ?_, fun d hd => ?_⟩)),
      hstart⟩
    · rw [List.eq_nil_iff_forall_not_mem] at hnil ⊢
      exact fun d hd => hnil d ((hds d).mpr hd)
    · have hd' := (hds d).mp hd
      exact ⟨(hease d hd').1, hkept d hd'⟩
  · push Not at hkept
    obtain ⟨d, hd, hlater⟩ := hkept
    refine ⟨_, hsnap d hd, ?_⟩
    calc t.start ≤ u.start := hstart
      _ ≤ accept' d := hlater.le
      _ ≤ c.onOrAfter .day (accept' d) := Calendar.le_onOrAfter hc _

/-- **The latest day that bounds a task is not earlier after a delay.** -/
theorem floor_le (hc : c.GapsBelowHorizon) (hds : ∀ d, d ∈ ds' ↔ d ∈ ds)
    (hday : t.grain = .day) (hday' : u.grain = .day) (hanchor : u.anchor = t.anchor)
    (hstart : t.start ≤ u.start) (haccept : ∀ d ∈ ds, accept d ≤ accept' d) {floor floor' : Day}
    (h : latest? (t.floors c ds accept) = some floor)
    (h' : latest? (u.floors c ds' accept') = some floor') : floor ≤ floor' := by
  obtain ⟨hmem, -⟩ := latest?_eq_some_iff.mp h
  obtain ⟨day, hday, hle⟩ := exists_floor_le hc hds hday hday' hanchor hstart haccept hmem
  exact hle.trans ((latest?_eq_some_iff.mp h').2 day hday)

end Project.DelayedTo

/-! ## After a run -/

/-- A task that starts later ends later. -/
theorem Task.finish_movedTo_le (hc : c.GapsBelowHorizon) (hsame : u.duration = t.duration)
    {a b : Day} (hab : a ≤ b) : (t.movedTo c a).finish ≤ (u.movedTo c b).finish := by
  show c.shiftDays a t.duration.count ≤ c.shiftDays b u.duration.count
  rw [hsame]
  exact Calendar.shiftDays_mono hc _ hab

namespace Project.Startwise

variable (hs : p.Startwise)
include hs

theorem spans_movedTo (ht : t ∈ p.tasks) : t.movedTo p.calendar t.start = t := by
  have hfinish := hs.spans t ht
  rw [shift_day t.duration (hs.days t ht), Except.ok.injEq] at hfinish
  rw [Task.movedTo, hfinish]

/-- What a run makes of a task: it is moved as a whole, to where the days that bound it lead. -/
theorem placed (hp : p.Sound) (hc : p.calendar.GapsBelowHorizon) {report : RunReport}
    (hrun : p.schedule.1 = .ok report) (ht : p.task? x = some t) :
    ∃ accept start, p.schedule.2.task? x = some (t.movedTo p.calendar start) ∧
      (∀ d ∈ p.incoming x, p.schedule.2.acceptable d x = .ok (accept d)) ∧
      ((t.floors p.calendar (p.incoming x) accept = [] ∧ start = t.start) ∨
        ∃ floor, latest? (t.floors p.calendar (p.incoming x) accept) = some floor ∧
          start = p.calendar.landing t.start (p.calendar.onOrAfter .day floor)) := by
  have hmem := mem_of_task? ht
  have hleaf : p.hasChildren x = false := id_of_task? ht ▸ hs.flat t hmem
  obtain ⟨result, before, after, hdated, -⟩ := exists_datedAt hp hrun ht
  obtain ⟨accept, t', haccept, ht', hout⟩ := hdated.leaf hp hc ht hleaf (hs.days t hmem)
  have hfine := hout.ne_error (hs.lengths t hmem)
  rw [hs.flat.binding_eq hp] at hout
  refine ⟨accept, t'.start, ?_, fun d hd => ?_, ?_⟩
  · rw [← hout.eq_movedTo hfine (hs.spans_movedTo hmem)]
    exact ht'
  · apply haccept
    rwa [hdated.finalFrame.binding, hs.flat.binding_eq hp]
  · rcases hout.start_eq_landing hfine with ⟨hnil, rfl⟩ | hfloor
    · exact .inl ⟨hnil, rfl⟩
    · exact .inr hfloor

end Project.Startwise

/-- The dates of a task in the second project are not earlier than in the first one. -/
def Project.NotEarlier (p q : Project) (x : TaskId) : Prop :=
  ∀ t u, p.task? x = some t → q.task? x = some u → t.start ≤ u.start ∧ t.finish ≤ u.finish

section

variable (hp : p.Sound) (hq : q.Sound) (hc : p.calendar.GapsBelowHorizon) (hs : p.Startwise)
  (hs' : q.Startwise) (hdelay : p.DelayedTo q)
include hp hq hc hs hs' hdelay

/-- If no dependee of a task is earlier after a run, then the task is not either. -/
theorem notEarlier_of_incoming {report report' : RunReport} (hrun : p.schedule.1 = .ok report)
    (hrun' : q.schedule.1 = .ok report') (ht : p.task? x = some t) (hu : q.task? x = some u)
    (hearlier : ∀ d ∈ p.incoming x, p.schedule.2.NotEarlier q.schedule.2 d.dependee) :
    p.schedule.2.NotEarlier q.schedule.2 x := by
  obtain ⟨hduration, hanchor, hstart⟩ := hdelay.rows x t u ht hu
  have hday := hs.days t (Project.mem_of_task? ht)
  have hday' := hs'.days u (Project.mem_of_task? hu)
  have hframe := frame_schedule hp
  have hframe' := frame_schedule hq
  obtain ⟨accept, start, ht', haccept, hplaced⟩ := hs.placed hp hc hrun ht
  obtain ⟨accept', start', hu', haccept', hplaced'⟩ :=
    hs'.placed hq (hdelay.calendar ▸ hc) hrun' hu
  rw [hdelay.calendar] at hu' hplaced'
  have hle : ∀ d ∈ p.incoming x, accept d ≤ accept' d := by
    intro d hd
    have hd' := hdelay.mem_incoming_iff.mpr hd
    have hday₀ := haccept d hd
    have hday₁ := haccept' d hd'
    obtain ⟨source, hsource⟩ :=
      Project.exists_task? (hp.dependee_mem d (Project.mem_incoming.mp hd).1)
    obtain ⟨source', hsource'⟩ :=
      Project.exists_task? (hq.dependee_mem d (Project.mem_incoming.mp hd').1)
    obtain ⟨final, hfinal, -⟩ := hframe.exists_task? hsource
    obtain ⟨final', hfinal', -⟩ := hframe'.exists_task? hsource'
    obtain ⟨hfrom, hto⟩ := hearlier d hd final final' hfinal hfinal'
    rw [Project.acceptable_eq hfinal ht', hframe.calendar] at hday₀
    rw [Project.acceptable_eq hfinal' hu', hframe'.calendar, hdelay.calendar] at hday₁
    exact Dependency.acceptableStart_mono hc hfrom hto hduration hday hday₀ hday₁
  have hmembers := fun d => hdelay.mem_incoming_iff (x := x) (d := d)
  suffices hstarts : start ≤ start' by
    intro v w hv hw
    cases ht'.symm.trans hv
    cases hu'.symm.trans hw
    exact ⟨hstarts, Task.finish_movedTo_le hc hduration hstarts⟩
  -- a task is bounded in both projects or in neither
  rcases hplaced with ⟨hnil, rfl⟩ | ⟨floor, hfloor, rfl⟩
  · have hnil' : u.floors p.calendar (q.incoming x) accept' = [] :=
      (hdelay.floors_eq_nil_iff hanchor).mpr hnil
    rcases hplaced' with ⟨-, rfl⟩ | ⟨floor', hfloor', -⟩
    · exact hstart
    · rw [hnil'] at hfloor'
      cases hfloor'
  · rcases hplaced' with ⟨hnil', -⟩ | ⟨floor', hfloor', rfl⟩
    · rw [(hdelay.floors_eq_nil_iff hanchor).mp hnil'] at hfloor
      cases hfloor
    · refine Calendar.landing_mono hc hstart ?_
      exact Project.DelayedTo.floor_le hc hmembers hday hday' hanchor hstart hle hfloor hfloor'

end

/-- **Delaying tasks makes no task earlier.**  Two projects without nesting, whose dates follow from
their starts, have the same tasks and dependencies, of any kind and hardness, and no task starts
earlier in the second one.  Then after a run on each, no task starts or ends earlier in the second
one. -/
theorem schedule_delayed {report report' : RunReport} (hp : p.Reachable) (hq : q.Reachable)
    (hc : p.calendar.GapsBelowHorizon) (hs : p.Startwise) (hs' : q.Startwise)
    (hdelay : p.DelayedTo q) (hrun : p.schedule.1 = .ok report)
    (hrun' : q.schedule.1 = .ok report') {x : TaskId} (ht : p.schedule.2.task? x = some t) :
    ∃ u, q.schedule.2.task? x = some u ∧ t.start ≤ u.start ∧ t.finish ≤ u.finish := by
  have hsound := hp.sound
  obtain ⟨layers, trace, hlayers, -⟩ := schedule_eq_ok_iff.mp (Prod.ext hrun rfl)
  -- along the dependencies, each task is dated after what it waits for
  have hall : ∀ x ∈ p.network.nodes, p.schedule.2.NotEarlier q.schedule.2 x := by
    refine (Network.isOrder_of_layers hlayers).induction fun x hx hearlier => ?_
    obtain ⟨t, ht⟩ := Project.exists_task? hx
    obtain ⟨u, hu⟩ := hdelay.exists_task? ht
    refine notEarlier_of_incoming hsound hq.sound hc hs hs' hdelay hrun hrun' ht hu fun d hd => ?_
    obtain ⟨hmem, rfl⟩ := Project.mem_incoming.mp hd
    exact hearlier d.dependee (hsound.dependee_mem d hmem)
      ((hs.flat.leads_iff hsound).mpr ⟨d, hmem, rfl, rfl⟩)
  obtain ⟨told, hold, -⟩ := (frame_schedule hsound).symm.exists_task? ht
  obtain ⟨uold, hold'⟩ := hdelay.exists_task? hold
  obtain ⟨u, hu, -⟩ := (frame_schedule hq.sound).exists_task? hold'
  exact ⟨u, hu, hall x (Project.mem_ids_of_task? hold) t u ht hu⟩

/-- A survey that starts on a day, walls that may wait longer for it than they have to, and a roof
that is done with the walls, but not begun before a day of its own. -/
def barnPlan (survey : Nat) : Project :=
  (Project.empty .standard).after [
    .addTask "survey" (Day.first.advance survey) (.days 5),
    .addTask "walls" (Day.first.advance 14) (.days 3),
    .addTask "roof" (Day.first.advance 4) (.days 2),
    .change (.revise ⟨3⟩ { anchor? := some ⟨some .earliestBegin, some (Day.first.advance 12)⟩ }),
    .addDependency ⟨1⟩ ⟨2⟩ .finishStart .rubber 1,
    .addDependency ⟨2⟩ ⟨3⟩ .finishFinish .strong 0]

/-- Delaying the survey by a week makes the walls wait, which were at ease before, and the roof with
them. -/
theorem schedule_delayed_barnPlan :
    (barnPlan 4).schedule.1 = .ok ⟨3, [⟨3⟩], [], false⟩ ∧
      (barnPlan 11).schedule.1 = .ok ⟨3, [⟨2⟩, ⟨3⟩], [], false⟩ ∧
      ∀ x t, (barnPlan 4).schedule.2.task? x = some t →
        ∃ u, (barnPlan 11).schedule.2.task? x = some u ∧ t.start ≤ u.start ∧
          t.finish ≤ u.finish := by
  have hcalendar : (barnPlan 4).calendar = .standard := by decide +kernel
  have hc : (barnPlan 4).calendar.GapsBelowHorizon := hcalendar ▸ Calendar.gapsBelowHorizon_standard
  have hreachable : ∀ survey, (barnPlan survey).Reachable := fun survey =>
    (Project.Reachable.empty _).after _
  have hs : (barnPlan 4).Startwise :=
    ⟨by unfold Project.Flat; decide +kernel, by decide +kernel, by decide +kernel,
      by decide +kernel⟩
  have hs' : (barnPlan 11).Startwise :=
    ⟨by unfold Project.Flat; decide +kernel, by decide +kernel, by decide +kernel,
      by decide +kernel⟩
  have hdelay : (barnPlan 4).DelayedTo (barnPlan 11) :=
    .of_rows (by decide +kernel) (by decide +kernel) (by decide +kernel) (by decide +kernel)
  have hrun : (barnPlan 4).schedule.1 = .ok ⟨3, [⟨3⟩], [], false⟩ := by decide +kernel
  have hrun' : (barnPlan 11).schedule.1 = .ok ⟨3, [⟨2⟩, ⟨3⟩], [], false⟩ := by decide +kernel
  exact ⟨hrun, hrun', fun x t ht =>
    schedule_delayed (hreachable 4) (hreachable 11) hc hs hs' hdelay hrun hrun' ht⟩

end Workplan
