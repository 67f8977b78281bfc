import Workplan.Proofs.AnyOrder
import Workplan.Proofs.Levels
import Workplan.Proofs.Recorders

/-!
# Edits that call for a run

A scheduler that listens runs when an edit is announced.  If nothing is left to do before an edit,
something may be left to do after it, and then the edit ought to be announced.  It is, for all edits
but those that leave the dates of a task alone and give it another duration or another anchor:
these are read by the scheduler, but only moved dates and a changed structure are announced.

- `Project.RestsAt`, `Project.Rests`: dating a task comes to nothing, and dating any task does.
- `Project.rests_of_schedule`, `Project.Rests.schedule_eq`: a run that moves nothing, and the next.
- `Project.Rests.insertTask`: a new task, which is not announced, leaves nothing to do.
- `Project.Retunes`: an edit that is not announced although the scheduler reads what it writes.
- `Desk.announced_of_stale`: an edit after which there is something to do is announced or of this
  kind.
-/

namespace Workplan

variable {p q : Project} {id x : TaskId} {t : Task} {report : RunReport}
  {trace : List (TaskId × Except Fault Bool)}

namespace Project

/-! ## Projects at rest -/

/-- Dating the task comes to nothing: it stays as it is, or cannot be dated. -/
structure RestsAt (p : Project) (x : TaskId) : Prop where
  unmoved : (scheduleTask Host.alone p.network x p).1 ≠ .ok true
  bounded : (scheduleTask Host.alone p.network x p).1 ≠ .error .overflow

/-- Dating any task comes to nothing. -/
def Rests (p : Project) : Prop := ∀ x ∈ p.network.nodes, p.RestsAt x

theorem RestsAt.attempt (hp : p.Sound) (hx : x ∈ p.network.nodes) (h : p.RestsAt x) :
    ∃ result, Host.attempt (scheduleTask Host.alone p.network x) p = (.ok result, p) := by
  obtain ⟨t, ht⟩ := exists_task? hx
  have hstep := attempt_of_ne_overflow h.bounded
  have hunmoved := h.unmoved
  rcases hrun : scheduleTask Host.alone p.network x p with ⟨result, q⟩
  rw [hrun] at hstep hunmoved
  cases stepOutcome_of_attempt hp ht hstep with
  | refused => exact ⟨_, hstep⟩
  | still => exact ⟨_, hstep⟩
  | moved => exact absurd rfl hunmoved

/-- **A run of a project at rest changes nothing**, whatever it reports. -/
theorem Rests.schedule_eq (hp : p.Sound) (h : p.Rests) : p.schedule.2 = p := by
  cases hlayers : p.network.layers with
  | error cycle => rw [schedule_of_cycle hlayers]
  | ok layers =>
    rw [schedule_of_layers hlayers]
    have hmem : ∀ x ∈ layers.flatten, x ∈ p.network.nodes :=
      fun x hx => (Network.isOrder_of_layers hlayers).perm.subset hx
    generalize layers.flatten = ids at hmem ⊢
    generalize (⟨layers.length, [], [], false⟩ : RunReport) = report
    induction ids generalizing report with
    | nil => rfl
    | cons x ids ih =>
      have hx := hmem x List.mem_cons_self
      obtain ⟨result, hstep⟩ := (h x hx).attempt hp hx
      rw [scheduleAll_cons ids report hstep]
      exact ih (fun y hy => hmem y (List.mem_cons_of_mem x hy)) (report.record x result)

/-- If no step of a run moves its task, each has found the project as it was. -/
theorem restsAt_of_runs (hp : p.Sound) (hrun : Runs p.network p trace q)
    (hmem : ∀ x ∈ trace.map Prod.fst, x ∈ p.network.nodes) (hunmoved : ∀ x, (x, .ok true) ∉ trace) :
    ∀ x ∈ trace.map Prod.fst, p.RestsAt x := by
  induction trace generalizing q with
  | nil => exact fun x hx => absurd hx List.not_mem_nil
  | cons step trace ih =>
    obtain ⟨y, result⟩ := step
    cases hrun with
    | step hstep hrest =>
      obtain ⟨t, ht⟩ := exists_task? (hmem y List.mem_cons_self)
      have hresult : result ≠ .ok true := by
        rintro rfl
        exact hunmoved y List.mem_cons_self
      obtain ⟨hfine, hfirst, -⟩ := run_of_attempt hstep
      have hrests : p.RestsAt y := ⟨hfirst ▸ hresult, hfine⟩
      obtain ⟨result', hsame⟩ := hrests.attempt hp (hmem y List.mem_cons_self)
      obtain ⟨-, rfl⟩ := Prod.mk.inj (hsame.symm.trans hstep)
      intro x hx
      rcases List.mem_cons.mp hx with rfl | hx
      · exact hrests
      · exact ih hrest (fun z hz => hmem z (List.mem_cons_of_mem y hz))
          (fun z hz => hunmoved z (List.mem_cons_of_mem _ hz)) x hx

/-- **A run that moves nothing shows that the project is at rest.** -/
theorem rests_of_schedule (hp : p.Sound) (h : p.schedule.1 = .ok report)
    (hunmoved : report.modified = []) : p.Rests := by
  obtain ⟨layers, trace, hlayers, htrace, hrun, rfl⟩ := schedule_eq_ok_iff.mp (Prod.ext h rfl)
  have hperm := (Network.isOrder_of_layers hlayers).perm
  rw [← htrace] at hperm
  refine fun x hx => restsAt_of_runs hp hrun (fun y hy => hperm.subset hy) (fun y hy => ?_) x
    (hperm.symm.subset hx)
  have hmodified : y ∈ (RunReport.recordAll ⟨layers.length, [], [], false⟩ trace).modified :=
    RunReport.mem_modified_recordAll.mpr (.inr hy)
  rw [hunmoved] at hmodified
  exact List.not_mem_nil hmodified

/-- What is told by the same things in another project rests there as well. -/
theorem RestsAt.of_alike (hp : p.Sound) (hx : x ∈ p.network.nodes) (h : p.RestsAt x)
    (halike : Alike p.network x p q) (hedges : q.network.incoming x = p.network.incoming x) :
    q.RestsAt x := by
  obtain ⟨t, ht⟩ := exists_task? hx
  obtain ⟨hsame, -⟩ := halike.scheduleTask hedges rfl hp ht
  exact ⟨hsame ▸ h.unmoved, hsame ▸ h.bounded⟩

/-- A task that nothing bounds stays where it is. -/
theorem restsAt_of_free (ht : p.task? x = some t) (hanchor : t.anchor = .absent)
    (hedges : p.network.incoming x = []) : p.RestsAt x := by
  have hplan : (p.plan x (p.network.incoming x)).outcome = .ok none := by
    have hnone : t.earliestBegin = none := by rw [Task.earliestBegin, hanchor]; rfl
    have hranges : Fold.empty.ranges t = .ok ⟨.all, .all⟩ := by
      rw [Fold.ranges, Fold.anchoredStart, hnone]
      rfl
    rw [plan_outcome ht, rangesFor_outcome, hedges]
    show (Fold.empty.ranges t).bind _ = _
    rw [hranges]
    show (p.draft t ⟨.all, .all⟩).settled = _
    have hvoid : (p.draft t ⟨.all, .all⟩).isVoid := by
      rw [Plan.isVoid, draft, newStart?]
      cases p.hasChildren t.id <;> rfl
    rw [Plan.settled, if_pos hvoid]
  have hrun := scheduleTask_alone p.network x p
  rw [hplan] at hrun
  constructor
  · rw [hrun]
    exact fun h => by cases h
  · rw [hrun]
    exact fun h => by cases h

/-! ## New tasks -/

section

variable {name : String} {start finish : Day} {duration : Duration} {milestone : Bool}
  (hp : p.Sound) (h : p.insertTask name start finish duration milestone = .ok (id, q))
include h

theorem parent?_of_insertTask : q.parent? = p.parent? := by
  obtain ⟨rfl, -, keys, -, rfl⟩ := exists_of_insertTask h
  funext x
  rw [parent?, parent?, holder?, holder?, List.find?_append]
  cases p.placements.find? fun s => s.child = x with
  | some s => rfl
  | none =>
    rw [Option.none_or, List.find?_singleton]
    split <;> rfl

theorem children_of_insertTask (hx : x ≠ .root) : q.children x = p.children x := by
  obtain ⟨rfl, -, keys, -, rfl⟩ := exists_of_insertTask h
  rw [children, children, List.filter_append]
  simp [hx.symm]

include hp

theorem descendants_of_insertTask (hx : x ≠ .root) : q.descendants x = p.descendants x := by
  have hlevels : ∀ n level, .root ∉ level → q.levels n level = p.levels n level := by
    intro n
    induction n with
    | zero => exact fun _ _ => rfl
    | succ n ih =>
      intro level hroot
      have hnext : q.nextLevel level = p.nextLevel level :=
        List.flatMap_congr fun y hy => children_of_insertTask h fun e => hroot (e ▸ hy)
      rw [levels_succ, levels_succ, hnext, ih _ (hp.root_notMem_nextLevel level)]
  rw [descendants, children_of_insertTask h hx, hlevels _ _ (hp.root_notMem_children x)]
  -- there is one placement more, and so room for one level more, which holds nothing
  obtain ⟨rfl, -, keys, -, rfl⟩ := exists_of_insertTask h
  exact hp.levels_of_le (by simp) x

/-- No edge leads to a new task or away from it. -/
theorem network_of_insertTask : q.network = ⟨p.network.nodes ++ [id], p.network.edges⟩ := by
  have hparent := parent?_of_insertTask h
  have hnone : p.parent? id = none :=
    Option.eq_none_iff_forall_ne_some.mpr fun y hy =>
      hp.notMem_of_insertTask h (hp.mem_of_parent? hy).1
  have hedges : ∀ d ∈ p.dependencies, q.dependencyEdges d = p.dependencyEdges d := by
    intro d hd
    have hroot := hp.ne_root (hp.dependant_mem d hd)
    rw [dependencyEdges, dependencyEdges, descendants_of_insertTask hp h hroot]
  have hdependencies : q.dependencies.flatMap q.dependencyEdges =
      p.dependencies.flatMap p.dependencyEdges := by
    rw [← List.flatMap_congr hedges]
    obtain ⟨rfl, -, keys, -, rfl⟩ := exists_of_insertTask h
    rfl
  rw [network, hdependencies, containmentEdges, hparent]
  obtain ⟨rfl, -, keys, -, rfl⟩ := exists_of_insertTask h
  simp [network, containmentEdges, hnone]

/-- What was there before is dated as before. -/
theorem alike_of_insertTask (hx : x ∈ p.network.nodes) : Alike p.network x p q := by
  have hrows : ∀ y ∈ p.network.nodes, q.task? y = p.task? y := by
    intro y hy
    obtain ⟨t, ht⟩ := exists_task? hy
    obtain ⟨rfl, -, keys, -, rfl⟩ := exists_of_insertTask h
    rw [task?] at ht
    rw [task?, task?, List.find?_append, ht, Option.some_or]
  refine ⟨?_, parent?_of_insertTask h, ?_, ?_, hrows x hx, fun e he => ?_⟩
  · obtain ⟨rfl, -, keys, -, rfl⟩ := exists_of_insertTask h
    rfl
  · obtain ⟨rfl, -, keys, -, rfl⟩ := exists_of_insertTask h
    rfl
  · rw [hasChildren, hasChildren, children_of_insertTask h (hp.ne_root hx)]
  · exact hrows e.source (hp.closed_network e (Network.mem_incoming.mp he).1).1

/-- **A new task leaves a project at rest.** -/
theorem Rests.insertTask (hrests : p.Rests) : q.Rests := by
  have hnetwork := network_of_insertTask hp h
  have hincoming : ∀ x, q.network.incoming x = p.network.incoming x := by
    intro x
    rw [hnetwork]
    rfl
  intro x hx
  rw [hnetwork] at hx
  rcases List.mem_append.mp hx with hx | hx
  · exact (hrests x hx).of_alike hp hx (alike_of_insertTask hp h hx) (hincoming x)
  · -- the new task is bounded by nothing
    obtain rfl := List.mem_singleton.mp hx
    have hfresh := hp.notMem_of_insertTask h
    have hedges : q.network.incoming x = [] := by
      rw [hincoming]
      refine List.eq_nil_iff_forall_not_mem.mpr fun e he => ?_
      obtain ⟨hedge, rfl⟩ := Network.mem_incoming.mp he
      exact hfresh (hp.closed_network e hedge).2
    have hnew : q.task? x = some ⟨x, name, start, finish, duration, milestone, .absent⟩ := by
      obtain ⟨rfl, -, keys, -, rfl⟩ := exists_of_insertTask h
      rw [task?, List.find?_append, List.find?_eq_none.mpr, Option.none_or]
      · simp
      · intro t ht hid
        exact hfresh (List.mem_map.mpr ⟨t, ht, of_decide_eq_true hid⟩)
    exact restsAt_of_free hnew rfl hedges

end

/-! ## Edits that are not announced -/

/-- The edit leaves start and end of a task alone, and gives it another duration or another
anchor. -/
def Retunes (p : Project) (e : Edit) (q : Project) : Prop :=
  ∃ k old new, e = .change k ∧ p.task? k.task = some old ∧ q = p.replace new ∧
    new = { old with duration := new.duration, anchor := new.anchor } ∧
    (new.duration ≠ old.duration ∨ new.anchor ≠ old.anchor)

/-- A change that is not announced has not moved any dates. -/
theorem Writes.silent {done : Changed} (h : p.Writes id done) (hsilent : done.event? = none) :
    ∃ old new, p.task? id = some old ∧ done.project = p.replace new ∧
      new = { old with duration := new.duration, anchor := new.anchor } := by
  obtain ⟨old, start, finish, duration, anchor?, hold, -, hwrite⟩ := h
  rw [write] at hwrite
  split at hwrite
  · cases hwrite
  rw [get_of_task? hold] at hwrite
  cases hwrite
  have hsame : old.start = start ∧ old.finish = finish := by
    simpa [not_or] using hsilent
  exact ⟨old, _, hold, rfl, by rw [hsame.1, hsame.2]⟩

/-- **After an edit that is not announced, a project at rest stays so**, unless a task has got
another duration or another anchor. -/
theorem Rests.edit {e : Edit} {r : Outcome} (hp : p.Sound) (hrests : p.Rests)
    (hedit : p.edit e = .ok r) (hsilent : r.event? = none) :
    r.project.Rests ∨ p.Retunes e r.project := by
  cases e with
  | addTask name start length =>
    obtain ⟨⟨id, q⟩, hq, rfl⟩ := exists_of_map_eq_ok hedit
    obtain ⟨finish, -, hinsert⟩ := exists_of_bind_eq_ok hq
    exact .inl (hrests.insertTask hp hinsert)
  | addMilestone name day =>
    obtain ⟨⟨id, q⟩, hq, rfl⟩ := exists_of_map_eq_ok hedit
    exact .inl (hrests.insertTask hp hq)
  | removeTask | place | addDependency | removeDependency =>
    obtain ⟨q, -, rfl⟩ := exists_of_map_eq_ok hedit
    cases hsilent
  | change k =>
    obtain ⟨done, hdone, rfl⟩ := exists_of_map_eq_ok hedit
    rcases writes_of_change hdone with rfl | hwrites
    · exact .inl hrests
    obtain ⟨old, new, hold, hproject, hnew⟩ := hwrites.silent hsilent
    by_cases hsame : new = old
    · have hid := id_of_task? hold
      rw [hsame, replace_self hp.ids_nodup (hid.symm ▸ hold)] at hproject
      exact .inl (hproject.symm ▸ hrests)
    · refine .inr ⟨k, old, new, rfl, hold, hproject, hnew, ?_⟩
      by_contra hnot
      rw [not_or, not_not, not_not] at hnot
      rw [hnot.1, hnot.2] at hnew
      exact hsame hnew

end Project

namespace Desk

open Act

variable {d d' : Desk} {react : Reaction} {e : Edit} {reply : Reply}

/-- A successful edit of a desk is one of its project, with what follows from the event if there is
one. -/
theorem cases_of_edit (h : edit react e d = (.ok reply, d')) :
    (∃ q, d.project.edit e = .ok ⟨q, reply, none⟩ ∧ d' = { d with project := q }) ∨
      ∃ q event, d.project.edit e = .ok ⟨q, reply, some event⟩ ∧
        react event { d with project := q } = (.ok (), d') := by
  have hget : (get : Act Desk Desk) d = (.ok d, d) := rfl
  rw [edit, bind_of_ok hget] at h
  rcases hr : d.project.edit e with fault | ⟨q, said, _ | event⟩
  · rw [hr] at h
    cases h
  · rw [hr] at h
    cases h
    exact .inl ⟨q, rfl, rfl⟩
  · rw [hr] at h
    dsimp only at h
    rw [accept_some] at h
    rcases hreact : react event { d with project := q } with ⟨fault | ⟨⟩, d₁⟩
    · rw [hreact] at h
      cases h
    · rw [hreact] at h
      cases h
      exact .inr ⟨q, event, rfl, hreact⟩

/-- **An edit after which there is something to do is announced**, unless it leaves the dates of a
task alone and gives it another duration or another anchor.  Before the edit, a run of the scheduler
on the project alone gets through and moves nothing.  The edit succeeds, and a run on the project
alone would change what it and all that follows from it have left.  Then an event was announced, and
what the listeners have made of it is what is left; or else the edit is of that one kind. -/
theorem announced_of_stale (hd : d.project.Reachable) (hrun : d.project.schedule.1 = .ok report)
    (hunmoved : report.modified = []) (hedit : edit react e d = (.ok reply, d'))
    (hstale : d'.project.schedule.2 ≠ d'.project) :
    (∃ q event, d.project.edit e = .ok ⟨q, reply, some event⟩ ∧
        react event { d with project := q } = (.ok (), d')) ∨
      d.project.Retunes e d'.project := by
  rcases cases_of_edit hedit with ⟨q, hr, rfl⟩ | hannounced
  · refine .inr ?_
    have hrests := Project.rests_of_schedule hd.sound hrun hunmoved
    refine (hrests.edit hd.sound hr rfl).resolve_left fun hrest => ?_
    exact hstale (hrest.schedule_eq (Project.Reachable.edit hd hr).sound)
  · exact .inl hannounced

end Desk

/-- Posts of two days, and boards of five days that follow them after a holiday. -/
def fencePlan : Project :=
  (Project.empty ⟨[.saturday, .sunday], [Day.first.advance 6]⟩).after [
    .addTask "posts" (Day.first.advance 4) (.days 2),
    .addTask "boards" (Day.first.advance 7) (.days 5),
    .addDependency ⟨1⟩ ⟨2⟩ .finishStart .strong 0]

theorem reachable_fencePlan : fencePlan.Reachable := (Project.Reachable.empty _).after _

namespace Desk

/-- The fence on a desk, with someone who watches and a recorder. -/
def fenceDesk (listener : Listener) : Desk :=
  { new ⟨fencePlan.calendar, 0, false, false, true, true⟩ with
    project := fencePlan
    watchers := [.listener listener [], .listener .recorder []] }

/-- Longer posts are announced, and if nobody schedules, the boards are to be moved. -/
theorem announced_of_stale_fenceDesk : ∃ d' q event,
    fencePlan.edit (.change (.revise ⟨1⟩ { duration? := some (.days 4) })) =
      .ok ⟨q, .changed true, some event⟩ ∧
    announce 1 event { fenceDesk .recorder with project := q } = (.ok (), d') ∧
    d'.project.schedule.2 ≠ d'.project := by
  set e : Edit := .change (.revise ⟨1⟩ { duration? := some (.days 4) })
  have hrun : fencePlan.schedule.1 = .ok ⟨2, [], [], false⟩ := by decide +kernel
  have hreply : (edit (announce 1) e (fenceDesk .recorder)).1 = .ok (.changed true) := by
    decide +kernel
  have hboards : (edit (announce 1) e (fenceDesk .recorder)).2.project.schedule.2.task? ⟨2⟩ ≠
      (edit (announce 1) e (fenceDesk .recorder)).2.project.task? ⟨2⟩ := by
    decide +kernel
  have hposts : ((edit (announce 1) e (fenceDesk .recorder)).2.project.task? ⟨1⟩).map Task.dates ≠
      (fencePlan.task? ⟨1⟩).map Task.dates := by
    decide +kernel
  rcases hedit : edit (announce 1) e (fenceDesk .recorder) with ⟨result, d'⟩
  rw [hedit] at hreply hboards hposts
  obtain rfl : result = .ok (.changed true) := hreply
  have hstale : d'.project.schedule.2 ≠ d'.project := fun hsame =>
    hboards (congrArg (fun p => p.task? ⟨2⟩) hsame)
  rcases announced_of_stale reachable_fencePlan hrun rfl hedit hstale with
    ⟨q, event, hannounced, hleft⟩ | ⟨k, old, new, hk, hold, hproject, hnew, -⟩
  · exact ⟨d', q, event, hannounced, hleft, hstale⟩
  · -- the posts end later than before
    obtain rfl := Edit.change.inj hk
    have hid : new.id = old.id := by rw [hnew]
    have hdates : new.dates = old.dates := by rw [hnew]; rfl
    have hrow : d'.project.task? ⟨1⟩ = some new := hproject ▸ Project.task?_replace_self hold hid
    replace hold : fencePlan.task? ⟨1⟩ = some old := hold
    dsimp only at hposts
    rw [hrow, hold, Option.map_some, Option.map_some, hdates] at hposts
    exact absurd rfl hposts

/-- With an earliest begin, or with the same length in weeks, the boards are to be moved, and nobody
hears of it, so a scheduler that listens leaves them where they are. -/
theorem stale_fenceDesk : fencePlan.Reachable ∧ fencePlan.schedule.1 = .ok ⟨2, [], [], false⟩ ∧
    ∀ revision ∈ [
        { anchor? := some ⟨some .earliestBegin, some (Day.first.advance 8)⟩ },
        ({ duration? := some ⟨1, .week⟩ } : Revision)],
      let done := edit (announce 3) (.change (.revise ⟨2⟩ revision)) (fenceDesk .scheduler)
      done.1 = .ok (.changed true) ∧ done.2.heard 1 = [] ∧
        done.2.project.schedule.1 = .ok ⟨2, [⟨2⟩], [], false⟩ :=
  ⟨reachable_fencePlan, by decide +kernel⟩

end Desk

end Workplan
