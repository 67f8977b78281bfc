import Workplan.Proofs.Planned
import Workplan.Proofs.Reactions

/-!
# What a diagnostic records

At a desk that nobody watches, a run of the scheduler is a run of its project, and a diagnostic
takes all plans and faults that are told.  A plan is recorded before it is carried out, so the
records need not be what was committed.

- `Desk.Took`: nobody reacts, and the diagnostic takes faults and plans.
- `Desk.Mirrors`: an action does to the project what another one does.
- `Desk.took_schedule`: a run at a desk that nobody watches is a run of its project.
- `Desk.records_of_schedule`: when the records are what was committed.
- `Desk.step_gateDesk`: when they are not.
-/

namespace Workplan

open Act

variable {p q : Project} {n : Network} {α : Type}

/-! ## A desk that nobody watches -/

namespace Desk

variable {d d' d'' : Desk} {faults faults' : List Fault} {plans plans' : List PlannedDates}
  {react : Reaction}

/-- From one desk to another only the project has changed, and the diagnostic has taken faults and
plans. -/
structure Took (d : Desk) (p : Project) (faults : List Fault) (plans : List PlannedDates)
    (d' : Desk) : Prop where
  project : d'.project = p
  setup : d'.setup = d.setup
  watchers : d'.watchers = d.watchers
  faults : d'.outbox.faults.toList = d.outbox.faults.toList ++ faults
  plans : d'.outbox.plans.toList = d.outbox.plans.toList ++ plans

theorem Took.refl (d : Desk) : d.Took d.project [] [] d :=
  ⟨rfl, rfl, rfl, (List.append_nil _).symm, (List.append_nil _).symm⟩

/-- What is taken down in two goes is taken down one after the other. -/
theorem Took.trans (h : d.Took p faults plans d') (h' : d'.Took q faults' plans' d'') :
    d.Took q (faults ++ faults') (plans ++ plans') d'' where
  project := h'.project
  setup := h'.setup.trans h.setup
  watchers := h'.watchers.trans h.watchers
  faults := by rw [h'.faults, h.faults, List.append_assoc]
  plans := by rw [h'.plans, h.plans, List.append_assoc]

/-- The project is changed besides. -/
theorem Took.put (h : d.Took p faults plans d') (q : Project) :
    d.Took q faults plans { d' with project := q } :=
  ⟨rfl, h.setup, h.watchers, h.faults, h.plans⟩

/-- With a diagnostic a note is taken down as the fault or the plan that it tells of. -/
theorem took_tell (hdiag : d.setup.hasDiagnostic) (note : Note) :
    d.Took d.project note.fault?.toList note.planned?.toList (tell note d) := by
  unfold tell
  dsimp only
  rw [if_pos hdiag]
  cases note with
  | failed fault => exact ⟨rfl, rfl, rfl, Array.toList_push, (List.append_nil _).symm⟩
  | planned task start? finish? =>
    exact ⟨rfl, rfl, rfl, (List.append_nil _).symm, Array.toList_push⟩
  | _ =>
    dsimp only
    split <;> exact ⟨rfl, rfl, rfl, (List.append_nil _).symm, (List.append_nil _).symm⟩

theorem took_notes (hdiag : d.setup.hasDiagnostic) (notes : List Note) :
    d.Took d.project (notes.filterMap Note.fault?) (notes.filterMap Note.planned?)
      (notes.foldl (fun d note => tell note d) d) := by
  induction notes generalizing d with
  | nil => exact .refl d
  | cons note notes ih =>
    have hfirst := took_tell hdiag note
    have hrest := ih (d := tell note d) (by rwa [hfirst.setup])
    rw [hfirst.project] at hrest
    have hboth := hfirst.trans hrest
    have hsplit : ∀ {β : Type} (g : Note → Option β),
        (g note).toList ++ notes.filterMap g = (note :: notes).filterMap g := by
      intro β g
      rw [List.filterMap_cons]
      cases g note <;> rfl
    rw [hsplit, hsplit] at hboth
    exact hboth

/-- Nobody is there to react. -/
theorem announce_unwatched (hw : d.watchers = []) (n : Nat) (event : Event) :
    announce n event d = (.ok (), d) := by
  cases n with
  | zero => rfl
  | succ n =>
    show (List.range d.watchers.length).forM (hear (announce n) event) d = _
    rw [hw]
    rfl

/-- Without watchers a change is taken over and nobody reacts. -/
theorem accept_unwatched (hw : d.watchers = []) (n : Nat) (p : Project) (event? : Option Event)
    (reply : α) :
    accept (announce n) p event? reply d = (.ok reply, { d with project := p }) := by
  cases event? with
  | none => exact accept_none p reply d
  | some event =>
    have hsilent : announce n event { d with project := p } = (.ok (), { d with project := p }) :=
      announce_unwatched (d := { d with project := p }) hw n event
    rw [accept_some, hsilent]
    rfl

/-- At a desk that nobody watches, the action does to the project what another one does. -/
def Mirrors (x : Act Desk α) (y : Act Project α) : Prop :=
  ∀ d : Desk, d.watchers = [] → x d = ((y d.project).1, { d with project := (y d.project).2 })

theorem mirrors_pure (a : α) : Mirrors (pure a) (pure a) := fun _ _ => rfl

theorem Mirrors.bind {β : Type} {x : Act Desk α} {y : Act Project α} {f : α → Act Desk β}
    {g : α → Act Project β} (hx : Mirrors x y) (hf : ∀ a, Mirrors (f a) (g a)) :
    Mirrors (x >>= f) (y >>= g) := by
  intro d hw
  rw [bind_apply, bind_apply, hx d hw]
  rcases y d.project with ⟨fault | a, p⟩
  · rfl
  · exact hf a { d with project := p } hw

/-- **A change at a desk that nobody watches is a change of its project.** -/
theorem mirrors_change (n : Nat) (c : Change) :
    Mirrors ((host (announce n)).change c) (Host.alone.change c) := by
  intro d hw
  have hget : (get : Act Desk Desk) d = (.ok d, d) := rfl
  show commit (announce n) c d =
    ((Host.alone.commit c d.project).1, { d with project := (Host.alone.commit c d.project).2 })
  rw [commit, bind_of_ok hget]
  cases hc : d.project.change c with
  | error fault =>
    rw [Project.commit_of_error hc]
    rfl
  | ok r =>
    rw [Project.commit_of_ok hc]
    exact accept_unwatched hw n r.project r.event? r.changed

/-- Without watchers a desk commits a plan as the project alone does. -/
theorem mirrors_commit (n : Nat) (plan : Plan) :
    Mirrors (plan.commit (host (announce n))) (plan.commit Host.alone) := by
  unfold Plan.commit
  dsimp only
  split
  · exact mirrors_change n _
  · have hended : ∀ (moved : Bool) (finish : Day),
        Mirrors (do return moved || (← (host (announce n)).change (.revise plan.task.id
            { finish? := some finish })))
          (do return moved || (← Host.alone.change (.revise plan.task.id
            { finish? := some finish }))) :=
      fun _ _ => (mirrors_change n _).bind fun _ => mirrors_pure _
    cases plan.newStart? with
    | none =>
      cases plan.newFinish? with
      | none => exact mirrors_pure _
      | some finish => exact hended false finish
    | some start =>
      refine (mirrors_change n _).bind fun moved => ?_
      cases plan.newFinish? with
      | none => exact mirrors_pure _
      | some finish => exact hended moved finish

/-- **Dating a task at such a desk dates it in the project, and its plan is recorded.** -/
theorem took_scheduleTask (hdiag : d.setup.hasDiagnostic) (hw : d.watchers = []) (k : Nat)
    (n : Network) (id : TaskId) :
    ∃ d', scheduleTask (host (announce k)) n id d =
        ((scheduleTask Host.alone n id d.project).1, d') ∧
      d.Took (scheduleTask Host.alone n id d.project).2 [] (d.project.planned n id) d' := by
  have htook := took_notes hdiag (d.project.plan id (n.incoming id)).notes
  rw [Project.planned_of_plan, Project.faultless_of_plan] at htook
  generalize hd' : (d.project.plan id (n.incoming id)).notes.foldl (fun d note => tell note d) d =
    d' at htook
  have hreckon : (host (announce k)).reckon (fun p => p.plan id (n.incoming id)) d =
      ((d.project.plan id (n.incoming id)).outcome, d') := by
    rw [reckon_apply, ← hd']
    rfl
  rw [scheduleTask_alone, scheduleTask, bind_apply, hreckon]
  rcases (d.project.plan id (n.incoming id)).outcome with fault | _ | plan
  · exact ⟨d', rfl, htook⟩
  · exact ⟨d', rfl, htook⟩
  · dsimp only
    rw [mirrors_commit k plan d' (htook.watchers.trans hw), htook.project]
    exact ⟨_, rfl, htook.put _⟩

/-- An attempt hands on an overflow and keeps every other outcome as a value. -/
theorem attempt_apply {σ : Type} (act : Act σ α) (s : σ) : Host.attempt act s =
    (match (act s).1 with
      | .error .overflow => .error .overflow
      | outcome => .ok outcome, (act s).2) := by
  unfold Host.attempt
  rcases act s with ⟨fault | a, s'⟩
  · cases fault <;> rfl
  · rfl

/-- A desk without watchers schedules a task as the project alone does, and takes down what there
is to tell. -/
theorem took_attempt (hdiag : d.setup.hasDiagnostic) (hw : d.watchers = []) (k : Nat)
    (n : Network) (id : TaskId) :
    ∃ d', Host.attempt (scheduleTask (host (announce k)) n id) d =
        ((Host.attempt (scheduleTask Host.alone n id) d.project).1, d') ∧
      d.Took (Host.attempt (scheduleTask Host.alone n id) d.project).2 []
        (d.project.planned n id) d' := by
  obtain ⟨d', hrun, htook⟩ := took_scheduleTask hdiag hw k n id
  rw [attempt_apply, attempt_apply, hrun]
  exact ⟨d', rfl, htook⟩

/-- **A run over some tasks at such a desk takes the steps of a run in the project**, and all its
plans and faults are recorded. -/
theorem took_scheduleAll (hdiag : d.setup.hasDiagnostic) (hw : d.watchers = []) (k : Nat)
    {n : Network} {ids : List TaskId} {report report' : RunReport}
    (h : scheduleAll (host (announce k)) n ids report d = (.ok report', d')) :
    ∃ trace faults, trace.map Prod.fst = ids ∧ Runs n d.project trace d'.project ∧
      report' = report.recordAll trace ∧ report'.errors = report.errors ++ faults ∧
      d.Took d'.project faults (Project.plannedAll n ids d.project) d' := by
  -- a task that fails is recorded and passed over, so only an overflow ends the run
  induction ids generalizing d report with
  | nil =>
    cases h
    exact ⟨[], [], rfl, .done _, rfl, (List.append_nil _).symm, .refl _⟩
  | cons id ids ih =>
    obtain ⟨d₁, hattempt, htook⟩ := took_attempt hdiag hw k n id
    rw [Project.plannedAll]
    rcases hstep : Host.attempt (scheduleTask Host.alone n id) d.project with ⟨fault | result, q⟩
    · rw [hstep] at hattempt
      rw [scheduleAll, bind_of_error hattempt] at h
      cases h
    rw [hstep] at hattempt htook
    rw [scheduleAll, bind_of_ok hattempt] at h
    -- a task that fails is recorded at once
    obtain ⟨d₂, faults, hrest, hnext, herrors⟩ : ∃ d₂ faults,
        scheduleAll (host (announce k)) n ids (report.record id result) d₂ = (.ok report', d') ∧
          d.Took q faults (d.project.planned n id) d₂ ∧
          (report.record id result).errors = report.errors ++ faults := by
      cases result with
      | error fault =>
        have htold := took_tell (d := d₁) (by rwa [htook.setup]) (.failed fault)
        rw [htook.project] at htold
        have hboth : d.Took q [fault] (d.project.planned n id) (tell (.failed fault) d₁) := by
          simpa [Note.fault?, Note.planned?] using htook.trans htold
        exact ⟨tell (.failed fault) d₁, [fault], h, hboth, rfl⟩
      | ok changed =>
        refine ⟨d₁, [], h, htook, ?_⟩
        cases changed <;> exact (List.append_nil _).symm
    obtain ⟨trace, faults', hids, hruns, hreport, herrors', htook'⟩ :=
      ih (by rwa [hnext.setup]) (hnext.watchers.trans hw) hrest
    rw [hnext.project] at hruns htook'
    refine ⟨(id, result) :: trace, faults ++ faults', ?_, .step hstep hruns, hreport, ?_,
      hnext.trans htook'⟩
    · rw [List.map_cons, hids]
    · rw [herrors', herrors, List.append_assoc]

/-- **A run at a desk that nobody watches is a run of its project**, with all its plans and faults
recorded. -/
theorem took_schedule (hdiag : d.setup.hasDiagnostic) (hw : d.watchers = []) (k : Nat)
    {report : RunReport} (h : schedule (host (announce k)) d = (.ok report, d')) :
    d.project.schedule = (.ok report, d'.project) ∧
      ∃ layers, d.project.network.layers = .ok layers ∧
        d.Took d'.project report.errors
          (Project.plannedAll d.project.network layers.flatten d.project) d' := by
  have hread : (host (announce k)).read Project.network d = (.ok d.project.network, d) := rfl
  -- the notes on the network tell of no fault and of no date
  have hsilent : ∀ note ∈ d.project.network.notes, note.fault? = none ∧ note.planned? = none := by
    intro note hnote
    rw [Network.notes, List.mem_cons, List.mem_map] at hnote
    rcases hnote with rfl | ⟨entry, -, rfl⟩ <;> exact ⟨rfl, rfl⟩
  have htold := took_notes hdiag d.project.network.notes
  rw [List.filterMap_eq_nil_iff.mpr fun note hnote => (hsilent note hnote).1,
    List.filterMap_eq_nil_iff.mpr fun note hnote => (hsilent note hnote).2] at htold
  generalize hd₁ : d.project.network.notes.foldl (fun d note => tell note d) d = d₁ at htold
  have htellAll : (host (announce k)).tellAll d.project.network.notes d = (.ok (), d₁) := by
    rw [← hd₁]
    rfl
  rw [schedule, bind_of_ok hread, bind_of_ok htellAll] at h
  cases hlayers : d.project.network.layers with
  | error cycle =>
    rw [hlayers] at h
    cases h
  | ok layers =>
    rw [hlayers] at h
    obtain ⟨report', d₂, hall, h⟩ := exists_of_bind_ok h
    cases h
    obtain ⟨trace, faults, hids, hruns, hreport, herrors, htook⟩ :=
      took_scheduleAll (by rwa [htold.setup]) (htold.watchers.trans hw) k hall
    rw [htold.project] at hruns htook
    have hlast := took_tell (d := d₂) (by rwa [htook.setup, htold.setup])
      (.scheduled report.layers report.modified.length report.errors.length)
    have hboth := htold.trans (htook.trans hlast)
    rw [← hlast.project] at hruns hboth
    refine ⟨schedule_eq_ok_iff.mpr ⟨layers, trace, hlayers, hids, hruns, hreport⟩, layers, rfl, ?_⟩
    rw [List.nil_append] at herrors
    rw [← herrors] at hboth
    simp only [Note.fault?, Note.planned?, Option.toList_none, List.append_nil,
      List.nil_append] at hboth
    exact hboth

/-- A run of the scheduler at such a desk, refused or not. -/
theorem took_runScheduler (hdiag : d.setup.hasDiagnostic) (hw : d.watchers = []) (k : Nat)
    {report : RunReport} (h : runScheduler (announce k) d = (.ok report, d')) :
    (report = .refused ∧ d.Took d.project [] [] d') ∨
      d.project.schedule = (.ok report, d'.project) ∧
        ∃ layers, d.project.network.layers = .ok layers ∧
          d.Took d'.project report.errors
            (Project.plannedAll d.project.network layers.flatten d.project) d' := by
  rw [runScheduler, runSchedulerOf] at h
  by_cases hready : (d.engine .scheduler).enabled ∧ (d.engine .scheduler).state = .idle
  · rw [guarded_of_idle hready.1 hready.2] at h
    generalize hd₁ : d.setEngine .scheduler ⟨true, .running 1⟩ = d₁ at h
    rcases hrun : schedule (host (announce k)) d₁ with ⟨result, d₂⟩
    rw [hrun] at h
    cases h
    subst hd₁
    obtain ⟨hschedule, layers, hlayers, htook⟩ :=
      took_schedule (d := d.setEngine .scheduler ⟨true, .running 1⟩) hdiag hw k hrun
    exact .inr ⟨hschedule, layers, hlayers, rfl, htook.setup, htook.watchers, htook.faults,
      htook.plans⟩
  · obtain ⟨note, hnote, hrefused⟩ := guarded_of_not_idle hready
    rw [hrefused] at h
    cases h
    refine .inl ⟨rfl, ?_⟩
    have htold := took_tell hdiag note
    rcases hnote with rfl | rfl <;> exact htold

/-- **What the diagnostic has recorded after a run.**  At a desk that nobody watches, the faults are
those of the report, and everything that was modified is recorded, in this order.  A record of a
task that takes dates is of a modified task, which has the recorded dates; so if all recorded tasks
take dates, then the records are of exactly the modified tasks. -/
theorem records_of_schedule {done : StepReport} {report : RunReport} (hp : d.project.Reachable)
    (hc : d.project.calendar.GapsBelowHorizon) (hdiag : d.setup.hasDiagnostic)
    (hw : d.watchers = []) (hstep : d.step .schedule = (done, d'))
    (hok : done.answer = .scheduled report) :
    done.faults = report.errors ∧
      report.modified.Sublist (done.plans.map PlannedDates.task) ∧
      (∀ record ∈ done.plans, d.project.TakesDates record.task →
        record.task ∈ report.modified ∧ record.Fulfilled d'.project) ∧
      ((∀ record ∈ done.plans, d.project.TakesDates record.task) →
        done.plans.map PlannedDates.task = report.modified) := by
  -- a command that answers with a report has run the scheduler
  obtain ⟨hrun, hfaults, hplans⟩ :
      runScheduler (announce d.announcementDepth) { d with outbox := .empty } = (.ok report, d') ∧
        done.faults = d'.outbox.faults.toList ∧ done.plans = d'.outbox.plans.toList := by
    rcases hrun : runScheduler (announce d.announcementDepth) { d with outbox := .empty } with
      ⟨result, d₁⟩
    have hattempt := attempt_apply (runScheduler (announce d.announcementDepth))
      { d with outbox := .empty }
    rw [hrun] at hattempt
    have hperform : perform (announce d.announcementDepth) .schedule { d with outbox := .empty } =
        (Host.attempt (runScheduler (announce d.announcementDepth)) >>= fun result =>
          pure (.ofExcept .scheduled result)) { d with outbox := .empty } := rfl
    rw [step, hperform, bind_apply, hattempt] at hstep
    rcases result with fault | report'
    · cases fault <;> cases hstep <;> cases hok
    · cases hstep
      cases hok
      exact ⟨rfl, rfl, rfl⟩
  rcases took_runScheduler (d := { d with outbox := .empty }) hdiag hw _ hrun with
    ⟨rfl, htook⟩ | ⟨hschedule, layers, hlayers, htook⟩
  · rw [hfaults, hplans, htook.faults, htook.plans]
    exact ⟨rfl, .slnil, fun _ h => absurd h List.not_mem_nil, fun _ => rfl⟩
  · obtain ⟨hok, hproject⟩ := Prod.mk.inj hschedule
    rw [hfaults, hplans, htook.faults, htook.plans, ← hproject]
    exact ⟨rfl, records_of_run hp.sound hc hok hlayers⟩

/-- A desk with a diagnostic.  A house has walls and a handover, and waits for a survey. -/
def siteDesk : Desk :=
  { new ⟨.standard, 0, true, false, true, true⟩ with project := .housePlan }

/-- All records of the house are of what was committed. -/
theorem records_of_schedule_siteDesk :
    (siteDesk.step .schedule).1.answer = .scheduled ⟨3, [⟨2⟩, ⟨4⟩, ⟨3⟩], [], false⟩ ∧
      (siteDesk.step .schedule).1.plans.map PlannedDates.task = [⟨2⟩, ⟨4⟩, ⟨3⟩] ∧
      ∀ record ∈ (siteDesk.step .schedule).1.plans,
        record.Fulfilled (siteDesk.step .schedule).2.project := by
  have hcalendar : siteDesk.project.calendar = .standard := by decide +kernel
  have hc : siteDesk.project.calendar.GapsBelowHorizon :=
    hcalendar ▸ Calendar.gapsBelowHorizon_standard
  have hok : (siteDesk.step .schedule).1.answer = .scheduled ⟨3, [⟨2⟩, ⟨4⟩, ⟨3⟩], [], false⟩ := by
    decide +kernel
  have htakes : ∀ x, siteDesk.project.TakesDates x := by
    intro x
    have hdays : ∀ t ∈ siteDesk.project.tasks, (siteDesk.project.hasChildren t.id →
        t.milestone = false) ∧ t.grain = .day ∧ 0 ≤ t.duration.count := by
      decide +kernel
    refine ⟨fun t ht hparent => ?_, fun t ht _ => ?_⟩
    · rw [← Project.id_of_task? ht] at hparent
      exact (hdays t (Project.mem_of_task? ht)).1 hparent
    · obtain ⟨-, hday, hcount⟩ := hdays t (Project.mem_of_task? ht)
      exact ⟨hday, hcount, Project.hasRoom_of_early hc (by decide +kernel) x⟩
  obtain ⟨-, -, hfulfilled, hall⟩ := records_of_schedule Project.reachable_housePlan hc rfl rfl
    Prod.mk.eta.symm hok
  exact ⟨hok, hall fun record _ => htakes record.task,
    fun record hrecord => (hfulfilled record hrecord (htakes record.task)).2⟩

/-- A desk with a diagnostic.  A gate, which is a milestone, has walls inside. -/
def gateDesk : Desk :=
  (new ⟨.standard, 0, true, false, true, true⟩).after [
    .edit (.addMilestone "gate" (Day.first.advance 4)),
    .edit (.addTask "walls" (Day.first.advance 4) (.days 2)),
    .edit (.place ⟨2⟩ ⟨1⟩)]

/-- An end is recorded for the gate, which does not get it. -/
theorem step_gateDesk : gateDesk.project.Reachable ∧ gateDesk.watchers = [] ∧
    gateDesk.setup.hasDiagnostic ∧
    (gateDesk.step .schedule).1.answer = .scheduled ⟨2, [], [], false⟩ ∧
    (gateDesk.step .schedule).1.plans = [⟨⟨1⟩, none, some (Day.first.advance 6)⟩] ∧
    ((gateDesk.step .schedule).2.project.task? ⟨1⟩).map Task.finish =
      some (Day.first.advance 4) := by
  have hwatchers : gateDesk.watchers.length = 0 := by decide +kernel
  exact ⟨reachable_after _ _, List.length_eq_zero_iff.mp hwatchers, by decide +kernel,
    by decide +kernel, by decide +kernel, by decide +kernel⟩

end Desk

end Workplan
