import Workplan.Proofs.Recorders
import Workplan.Proofs.Runs
import Workplan.Proofs.Simulation

/-!
# A scheduler that hears of its own changes

A scheduler may watch the project that it dates.  While it is at work it is asked to run again on
every commit, and refuses.  So nothing follows from what it commits, and its run is the run of a
project that nobody watches.

- `Watcher.IsEcho`: recorders, and those who ask the scheduler of the desk to run.
- `Desk.runScheduler_busy`: a scheduler at work refuses to run.
- `Desk.Echoes`: from one desk to another, such watchers have heard some events.
- `Desk.announce_echoing`: an event is heard, and nothing else follows from it.
- `Desk.simulates_host`: so the desk works in step with its project alone.
- `Desk.selfWatched_run`: a run of a scheduler that watches itself.
-/

namespace Workplan

/-! ## Who asks the scheduler of the desk -/

/-- A recorder, or someone who asks the scheduler of the desk to run on every event. -/
def Watcher.IsEcho (w : Watcher) : Prop :=
  ∃ who heard, w = .listener who heard ∧ who ≠ .recomputeProbe

/-- The watcher remembers some more events. -/
def Watcher.remembering (events : List Event) : Watcher → Watcher
  | .listener who heard => .listener who (heard ++ events)
  | w => w

/-- What a listener puts down on hearing of an event while the scheduler of the desk is at work. -/
def Listener.echo (event : Event) : Listener → List Happening
  | .recorder => [.heard event]
  | .schedulerProbe => [.scheduled (.ok .refused)]
  | .scheduler | .recomputeProbe => []

/-- What a watcher puts down then. -/
def Watcher.echo (event : Event) : Watcher → List Happening
  | .listener who _ => who.echo event
  | _ => []

namespace Watcher

variable {w : Watcher} {events events' : List Event}

@[simp] theorem remembering_nil (w : Watcher) : w.remembering [] = w := by
  cases w <;> simp [remembering]

@[simp] theorem remembering_remembering :
    (w.remembering events).remembering events' = w.remembering (events ++ events') := by
  cases w <;> simp [remembering]

/-- What a watcher answers does not depend on what it has heard. -/
@[simp] theorem echo_remembering (event : Event) :
    (w.remembering events).echo event = w.echo event := by
  cases w <;> rfl

theorem IsEcho.remembering (h : w.IsEcho) (events : List Event) :
    (w.remembering events).IsEcho := by
  obtain ⟨who, heard, rfl, hwho⟩ := h
  exact ⟨who, heard ++ events, rfl, hwho⟩

end Watcher

namespace Desk

open Act

variable {d d' d'' : Desk} {p q : Project} {events events' : List Event} {event : Event}
  {react : Reaction}

/-- The scheduler of the desk is at work, and nobody watches but recorders and those who ask it to
run. -/
structure Echoing (d : Desk) : Prop where
  busy : d.scheduler.state ≠ .idle
  watchers : ∀ w ∈ d.watchers, w.IsEcho

/-- From one desk to another the project has changed, and the watchers have heard some events. -/
structure Echoes (d : Desk) (p : Project) (events : List Event) (d' : Desk) : Prop where
  project : d'.project = p
  setup : d'.setup = d.setup
  scheduler : d'.scheduler = d.scheduler
  recompute : d'.recompute = d.recompute
  watchers : d'.watchers = d.watchers.map (Watcher.remembering events)
  happenings : d'.outbox.happenings.toList = d.outbox.happenings.toList ++
    events.flatMap fun event => d.watchers.flatMap (Watcher.echo event)

namespace Echoes

theorem refl (d : Desk) : d.Echoes d.project [] d :=
  ⟨rfl, rfl, rfl, rfl, (List.map_id'' Watcher.remembering_nil _).symm, (List.append_nil _).symm⟩

theorem trans (h : d.Echoes p events d') (h' : d'.Echoes q events' d'') :
    d.Echoes q (events ++ events') d'' where
  project := h'.project
  setup := h'.setup.trans h.setup
  scheduler := h'.scheduler.trans h.scheduler
  recompute := h'.recompute.trans h.recompute
  watchers := by
    rw [h'.watchers, h.watchers, List.map_map]
    exact List.map_congr_left fun w _ => Watcher.remembering_remembering
  happenings := by
    rw [h'.happenings, h.happenings, h.watchers, List.flatMap_append, List.append_assoc]
    simp [List.flatMap_map]

theorem echoing (h : d.Echoes p events d') (hd : d.Echoing) : d'.Echoing where
  busy := by
    rw [h.scheduler]
    exact hd.busy
  watchers w hw := by
    rw [h.watchers] at hw
    obtain ⟨v, hv, rfl⟩ := List.mem_map.mp hw
    exact (hd.watchers v hv).remembering events

/-- The project is changed besides. -/
theorem put (h : d.Echoes p events d') (q : Project) :
    d.Echoes q events { d' with project := q } :=
  ⟨rfl, h.setup, h.scheduler, h.recompute, h.watchers, h.happenings⟩

end Echoes

theorem happenings_tell (n : Note) (d : Desk) :
    (tell n d).outbox.happenings = d.outbox.happenings := by
  unfold tell
  dsimp only
  split
  · cases n <;> dsimp only <;> split <;> rfl
  · split <;> rfl

/-- A note is nothing that was heard. -/
theorem Echoes.tell (h : d.Echoes p events d') (n : Note) : d.Echoes p events (tell n d') := by
  rw [tell_eq]
  refine ⟨h.project, h.setup, h.scheduler, h.recompute, h.watchers, ?_⟩
  rw [happenings_tell]
  exact h.happenings

/-! ## Hearing of an event -/

/-- **A scheduler at work refuses to run**, and nothing but a note is left of that. -/
theorem runScheduler_busy (react : Reaction) (hbusy : d.scheduler.state ≠ .idle) :
    ∃ note, runScheduler react d = (.ok .refused, tell note d) := by
  have hnot : ¬ ((d.engine .scheduler).enabled ∧ (d.engine .scheduler).state = .idle) :=
    fun hready => hbusy hready.2
  obtain ⟨note, -, hrefused⟩ := guarded_of_not_idle hnot
  exact ⟨note, hrefused⟩

/-- From one desk to another, something was put down for watchers. -/
structure PutsDown (d : Desk) (happenings : List Happening) (d' : Desk) : Prop where
  same : d' = { d with outbox := d'.outbox }
  happenings : d'.outbox.happenings.toList = d.outbox.happenings.toList ++ happenings

namespace PutsDown

variable {happenings : List Happening}

theorem refl (d : Desk) : d.PutsDown [] d := ⟨rfl, (List.append_nil _).symm⟩

/-- Notes are not put down for watchers. -/
theorem tell (h : d.PutsDown happenings d') (n : Note) : d.PutsDown happenings (tell n d') where
  same := by
    rw [tell_eq, h.same]
  happenings := by
    rw [happenings_tell]
    exact h.happenings

theorem happen (h : d.PutsDown happenings d') (x : Happening) :
    d.PutsDown (happenings ++ [x]) (d'.happen x) where
  same := by
    rw [Desk.happen, h.same]
  happenings := by
    show (d'.outbox.happenings.push x).toList = _
    rw [Array.toList_push, h.happenings, List.append_assoc]

end PutsDown

/-- **A listener puts down what it hears or that the scheduler refuses to run**, and that is all. -/
theorem listen_busy (react : Reaction) (event : Event) (hbusy : d.scheduler.state ≠ .idle)
    {who : Listener} (hwho : who ≠ .recomputeProbe) :
    ∃ d', listen react event who d = (.ok (), d') ∧ d.PutsDown (who.echo event) d' := by
  cases who with
  | recorder =>
    exact ⟨d.happen (.heard event), rfl, (PutsDown.refl d).happen (.heard event)⟩
  | scheduler =>
    -- being asked is told, and then that the scheduler refuses
    set d₁ := tell (.schedulingAsked event) d with hd₁
    have htold : note (.schedulingAsked event) d = (.ok (), d₁) := rfl
    have hbusy₁ : d₁.scheduler.state ≠ .idle := by
      rw [hd₁, tell_eq]
      exact hbusy
    obtain ⟨n, hrefused⟩ := runScheduler_busy react hbusy₁
    have hattempt : Host.attempt (runSchedulerOf .scheduler react) d₁ =
        (.ok (.ok .refused), tell n d₁) := by
      rw [Host.attempt, show runSchedulerOf .scheduler react d₁ = _ from hrefused]
    refine ⟨tell n d₁, ?_, ((PutsDown.refl d).tell (.schedulingAsked event)).tell n⟩
    show reschedule .scheduler react event d = _
    rw [reschedule, bind_of_ok htold, bind_of_ok hattempt]
    rfl
  | schedulerProbe =>
    obtain ⟨n, hrefused⟩ := runScheduler_busy react hbusy
    have hattempt : Host.attempt (runScheduler react) d = (.ok (.ok .refused), tell n d) := by
      rw [Host.attempt, hrefused]
    refine ⟨(tell n d).happen (.scheduled (.ok .refused)), ?_,
      ((PutsDown.refl d).tell n).happen (.scheduled (.ok .refused))⟩
    show (Host.attempt (runScheduler react) >>= fun result => putDown (.scheduled result)) d = _
    rw [bind_of_ok hattempt]
    rfl
  | recomputeProbe => exact absurd rfl hwho

/-- While the engine is at work, a watcher that hears an event remembers it and echoes, and
changes nothing else. -/
theorem hear_busy (react : Reaction) (event : Event) (hbusy : d.scheduler.state ≠ .idle)
    {i : Nat} {w : Watcher} (hw : d.watchers[i]? = some w) (hecho : w.IsEcho) :
    ∃ d', hear react event i d = (.ok (), d') ∧
      (d.setWatcher i (w.remembering [event])).PutsDown (w.echo event) d' := by
  obtain ⟨who, heard, rfl, hwho⟩ := hecho
  set d₁ := d.setWatcher i (.listener who (heard ++ [event]))
  have hget : (get : Act Desk Desk) d = (.ok d, d) := rfl
  have hset : (modify fun d => d.setWatcher i (.listener who (heard ++ [event])) :
      Act Desk Unit) d = (.ok (), d₁) := rfl
  have hbusy₁ : d₁.scheduler.state ≠ .idle := hbusy
  obtain ⟨d', hlisten, hput⟩ := listen_busy react event hbusy₁ hwho
  refine ⟨d', ?_, hput⟩
  rw [hear, bind_of_ok hget, hw]
  exact (bind_of_ok hset).trans hlisten

/-- The first of the watchers have heard of an event. -/
structure HeardBy (d : Desk) (k : Nat) (event : Event) (d' : Desk) : Prop where
  same : d' = { d with watchers := d'.watchers, outbox := d'.outbox }
  watchers : d'.watchers = (d.watchers.take k).map (Watcher.remembering [event]) ++
    d.watchers.drop k
  happenings : d'.outbox.happenings.toList = d.outbox.happenings.toList ++
    (d.watchers.take k).flatMap (Watcher.echo event)

/-- One watcher more hears of it. -/
theorem HeardBy.step (react : Reaction) (hd : d.Echoing) {k : Nat} (hk : k < d.watchers.length)
    (h : d.HeardBy k event d') :
    ∃ d'', hear react event k d' = (.ok (), d'') ∧ d.HeardBy (k + 1) event d'' := by
  have hlength : ((d.watchers.take k).map (Watcher.remembering [event])).length = k := by
    simp [hk.le]
  have hbusy : d'.scheduler.state ≠ .idle := by
    rw [h.same]
    exact hd.busy
  have hsplit := h.watchers
  rw [List.drop_eq_getElem_cons hk] at hsplit
  have hw : d'.watchers[k]? = some d.watchers[k] := by
    rw [hsplit, List.getElem?_append_right hlength.le, hlength]
    simp
  obtain ⟨d'', hhear, hput⟩ := hear_busy react event hbusy hw
    (hd.watchers _ (List.getElem_mem hk))
  refine ⟨d'', hhear, ?_, ?_, ?_⟩
  · rw [hput.same, setWatcher, h.same]
  · rw [hput.same]
    show d'.watchers.set k _ = _
    rw [hsplit, List.set_append_right _ _ hlength.le, hlength, Nat.sub_self, List.set_cons_zero,
      List.take_succ_eq_append_getElem hk, List.map_append, List.append_assoc]
    rfl
  · rw [hput.happenings]
    show d'.outbox.happenings.toList ++ _ = _
    rw [h.happenings, List.take_succ_eq_append_getElem hk, List.flatMap_append, List.append_assoc]
    simp

/-- **All watchers hear of an event, and nothing else follows from it.** -/
theorem announce_echoing (hd : d.Echoing) (n : Nat) (event : Event) :
    ∃ d', announce (n + 1) event d = (.ok (), d') ∧ d.Echoes d.project [event] d' := by
  have hrange : ∀ k ≤ d.watchers.length, ∃ d',
      (List.range k).forM (hear (announce n) event) d = (.ok (), d') ∧ d.HeardBy k event d' := by
    intro k
    induction k with
    | zero => exact fun _ => ⟨d, rfl, rfl, by simp, by simp⟩
    | succ k ih =>
      intro hk
      obtain ⟨d₁, hbefore, hheard⟩ := ih (Nat.le_of_succ_le hk)
      obtain ⟨d₂, hhear, hheard'⟩ := hheard.step (announce n) hd hk
      refine ⟨d₂, ?_, hheard'⟩
      rw [List.range_succ, forM_append_of_ok hbefore]
      exact bind_of_ok hhear
  obtain ⟨d', hrun, hheard⟩ := hrange d.watchers.length le_rfl
  refine ⟨d', hrun, ?_⟩
  have hwatchers := hheard.watchers
  have hhappenings := hheard.happenings
  rw [List.take_length, List.drop_length, List.append_nil] at hwatchers
  rw [List.take_length] at hhappenings
  rw [hheard.same] at hwatchers hhappenings ⊢
  exact ⟨rfl, rfl, rfl, rfl, hwatchers, by simpa using hhappenings⟩

end Desk

/-! ## Runs -/

/-- A project that nobody watches, with a list of the events of its changes. -/
def Host.logging : Host (Project × List Event) where
  view := Prod.fst
  commit k s :=
    match s.1.change k with
    | .ok r => (.ok r.changed, r.project, s.2 ++ r.event?.toList)
    | .error fault => (.error fault, s)
  note _ s := s

/-- The events that a run of the scheduler brings about. -/
def Project.scheduleEvents (p : Project) : List Event :=
  (Workplan.schedule Host.logging (p, [])).2.2

/-- The list of events is only kept. -/
theorem simulates_logging : Host.logging.Simulates Host.alone fun s p => s.1 = p where
  view h := h
  note h _ := h
  change k := by
    rintro ⟨p, events⟩ p' rfl
    show (Host.logging.commit k (p, events)).1 = (Host.alone.commit k p).1 ∧
      (Host.logging.commit k (p, events)).2.1 = (Host.alone.commit k p).2
    cases hk : p.change k with
    | error fault =>
      rw [Project.commit_of_error hk]
      simp [Host.logging, hk]
    | ok done =>
      rw [Project.commit_of_ok hk]
      simp [Host.logging, hk]

/-- A report of a run was not refused. -/
theorem skipped_of_schedule {p : Project} {report : RunReport} (h : p.schedule.1 = .ok report) :
    report.skipped = false := by
  have hrecorded : ∀ (trace : List (TaskId × Except Fault Bool)) (report : RunReport),
      (report.recordAll trace).skipped = report.skipped := by
    intro trace
    induction trace with
    | nil => exact fun _ => rfl
    | cons step trace ih =>
      obtain ⟨x, result⟩ := step
      intro report
      refine (ih (report.record x result)).trans ?_
      rcases result with fault | _ | _ <;> rfl
  obtain ⟨layers, trace, -, -, -, rfl⟩ := schedule_eq_ok_iff.mp (Prod.ext h rfl)
  rw [hrecorded]

namespace Desk

open Act

variable {d : Desk}

/-- **At work, a desk that watches itself goes in step with its project alone.** -/
theorem simulates_host (n : Nat) {d₀ : Desk} (hd₀ : d₀.Echoing) :
    (host (announce (n + 1))).Simulates Host.logging fun d s => d₀.Echoes s.1 s.2 d where
  view h := h.project
  note h note := h.tell note
  -- a commit is the one place where the watchers are heard
  change k := by
    rintro d ⟨p, events⟩ h
    obtain rfl : d.project = p := h.project
    have hget : (get : Act Desk Desk) d = (.ok d, d) := rfl
    show (commit (announce (n + 1)) k d).1 = (Host.logging.commit k (d.project, events)).1 ∧
      d₀.Echoes (Host.logging.commit k (d.project, events)).2.1
        (Host.logging.commit k (d.project, events)).2.2 (commit (announce (n + 1)) k d).2
    rw [commit, bind_of_ok hget]
    cases hk : d.project.change k with
    | error fault =>
      simp only [Host.logging, hk]
      exact ⟨rfl, h⟩
    | ok done =>
      have hput := h.put done.project
      simp only [Host.logging, hk]
      cases done.event? with
      | none =>
        rw [accept_none, Option.toList_none, List.append_nil]
        exact ⟨rfl, hput⟩
      | some event =>
        obtain ⟨d₂, hannounce, hechoes⟩ := announce_echoing (hput.echoing hd₀) n event
        rw [accept_some, hannounce]
        exact ⟨rfl, hput.trans hechoes⟩

/-- The run of an engine that is at rest, with what the watchers make of it. -/
theorem echoes_runScheduler (hidle : d.scheduler = ⟨true, .idle⟩)
    (hwatchers : ∀ w ∈ d.watchers, w.IsEcho) (n : Nat) :
    (runScheduler (announce (n + 1)) d).1 = d.project.schedule.1 ∧
      d.Echoes d.project.schedule.2 d.project.scheduleEvents
        (runScheduler (announce (n + 1)) d).2 := by
  have hon : (d.engine .scheduler).enabled := by
    show d.scheduler.enabled
    rw [hidle]
  have hrest : (d.engine .scheduler).state = .idle := congrArg Engine.state hidle
  set d₁ : Desk := d.setEngine .scheduler ⟨true, .running 1⟩ with hd₁
  have hecho : d₁.Echoing := ⟨by simp [hd₁, setEngine], hwatchers⟩
  obtain ⟨hlogged, hechoes⟩ := (simulates_host n hecho).schedule d₁ (d.project, []) (.refl d₁)
  obtain ⟨halone, hproject⟩ := simulates_logging.schedule (d.project, []) d.project rfl
  rw [runScheduler, runSchedulerOf, guarded_of_idle hon hrest]
  rw [hproject] at hechoes
  refine ⟨hlogged.trans halone, hechoes.project, hechoes.setup, ?_, hechoes.recompute,
    hechoes.watchers, hechoes.happenings⟩
  -- the engine is closed again
  have hopen := hechoes.scheduler
  generalize (Workplan.schedule (host (announce (n + 1))) d₁).2 = d₂ at hopen
  show (⟨d₂.scheduler.enabled, d₂.scheduler.state.leave⟩ : Engine) = d.scheduler
  rw [hopen, hidle]
  rfl

/-- **A scheduler that watches itself runs as if nobody watched.**  It is at rest, and all who watch
are recorders or ask it to run on every event, in whatever order.  Then its run has the same result
as at a desk without watchers, and leaves the same project: those of a run of the project alone.
Everyone who watches hears of every event of that run and of no other; whoever asks the scheduler to
run is refused each time.  In the end the scheduler is at rest, whatever the result, and takes on
the next run. -/
theorem selfWatched_run (hidle : d.scheduler = ⟨true, .idle⟩)
    (hwatchers : ∀ w ∈ d.watchers, w.IsEcho) {n : Nat} (hn : 0 < n) :
    let run := runScheduler (announce n) d
    let unwatched := runScheduler (announce n) { d with watchers := [] }
    let events := d.project.scheduleEvents
    run.1 = unwatched.1 ∧ run.2.project = unwatched.2.project ∧
      run.1 = d.project.schedule.1 ∧ run.2.project = d.project.schedule.2 ∧
      run.2.watchers = d.watchers.map (Watcher.remembering events) ∧
      run.2.outbox.happenings.toList = d.outbox.happenings.toList ++
        events.flatMap (fun event => d.watchers.flatMap (Watcher.echo event)) ∧
      run.2.scheduler = ⟨true, .idle⟩ ∧
      (runScheduler (announce n) run.2).1 = run.2.project.schedule.1 ∧
      ∀ report, run.2.project.schedule.1 = .ok report → report.skipped = false := by
  obtain ⟨n, rfl⟩ := Nat.exists_eq_succ_of_ne_zero hn.ne'
  intro run unwatched events
  obtain ⟨hresult, hechoes⟩ := echoes_runScheduler hidle hwatchers n
  obtain ⟨hresult', hechoes'⟩ := echoes_runScheduler (d := { d with watchers := [] }) hidle
    (fun _ hw => absurd hw List.not_mem_nil) n
  refine ⟨hresult.trans hresult'.symm, hechoes.project.trans hechoes'.project.symm,
    hresult, hechoes.project, hechoes.watchers, hechoes.happenings,
    hechoes.scheduler.trans hidle, ?_, fun report hnext => skipped_of_schedule hnext⟩
  have hwatchers' : ∀ w ∈ run.2.watchers, w.IsEcho := by
    intro w hw
    rw [hechoes.watchers] at hw
    obtain ⟨v, hv, rfl⟩ := List.mem_map.mp hw
    exact (hwatchers v hv).remembering _
  exact (echoes_runScheduler (hechoes.scheduler.trans hidle) hwatchers' n).1

/-- A desk with two recorders and two who ask the scheduler of the desk to run, one of them with a
record of what comes of it. -/
def mirrorDesk : Desk :=
  { new ⟨.standard, 0, false, false, true, true⟩ with
    project := .housePlan
    watchers := [.listener .recorder [], .listener .schedulerProbe [], .listener .scheduler [],
      .listener .recorder []] }

/-- Three tasks are moved, and each time two recorders hear of it and a run is refused. -/
theorem selfWatched_run_mirrorDesk :
    (runScheduler (announce 3) mirrorDesk).1 = .ok ⟨3, [⟨2⟩, ⟨4⟩, ⟨3⟩], [], false⟩ ∧
      (runScheduler (announce 3) mirrorDesk).2.project = mirrorDesk.project.schedule.2 ∧
      (runScheduler (announce 3) mirrorDesk).2.outbox.happenings.size = 9 ∧
      (runScheduler (announce 3) mirrorDesk).2.scheduler = ⟨true, .idle⟩ := by
  have hwatchers : ∀ w ∈ mirrorDesk.watchers, w.IsEcho := by
    simp [mirrorDesk, Watcher.IsEcho]
  obtain ⟨-, -, hresult, hproject, -, hhappenings, hidle, -⟩ :=
    selfWatched_run (d := mirrorDesk) rfl hwatchers (n := 3) (by decide)
  have hok : mirrorDesk.project.schedule.1 = .ok ⟨3, [⟨2⟩, ⟨4⟩, ⟨3⟩], [], false⟩ := by
    decide +kernel
  have hevents : mirrorDesk.project.scheduleEvents.length = 3 := by decide +kernel
  have hempty : mirrorDesk.outbox.happenings.toList = [] := rfl
  have hechoes : ∀ event, (mirrorDesk.watchers.flatMap (Watcher.echo event)).length = 3 :=
    fun _ => rfl
  refine ⟨hresult.trans hok, hproject, ?_, hidle⟩
  rw [← Array.length_toList, hhappenings, hempty]
  simp [List.length_flatMap, hechoes, hevents]

end Desk

end Workplan
