import Workplan.Session.Desk

/-!
# Reactions (specification §G, listeners)

A change of the project is announced to every watcher in turn while whoever made it is still
at work.  A watcher may change the project again, run an engine or carry out commands.

* `Reaction` — what follows from an event.
* `Desk.host` — the project on a desk, as the engines see it.
* `Desk.runSchedulerOf`, `Desk.runRecompute` — the engines, each refusing to run inside itself.
* `Desk.perform` — carries out a command.
* `Desk.announce` — all watchers hear of an event.
-/

namespace Workplan

/-- What follows from an event. -/
abbrev Reaction := Event → Act Desk Unit

namespace Desk

/-! ## Changing the project -/

/-- Takes over a changed project and announces the change. -/
def accept {α : Type} (react : Reaction) (p : Project) (event? : Option Event) (reply : α) :
    Act Desk α := do
  modify fun d => { d with project := p }
  if let some event := event? then react event
  return reply

/-- Carries out a change and announces it. -/
def commit (react : Reaction) (c : Change) : Act Desk Bool := do
  match (← get).project.change c with
  | .error fault => throw fault
  | .ok r => accept react r.project r.event? r.changed

/-- Carries out an edit and announces it. -/
def edit (react : Reaction) (e : Edit) : Act Desk Reply := do
  match (← get).project.edit e with
  | .error fault => throw fault
  | .ok r => accept react r.project r.event? r.reply

/-- The project on a desk, as the engines see it. -/
def host (react : Reaction) : Host Desk where
  view := project
  commit c d := commit react c d
  note := tell

/-- Tells a note. -/
def note (n : Note) : Act Desk Unit := modify (tell n)

/-- Puts something down for a watcher. -/
def putDown (h : Happening) : Act Desk Unit := modify fun d => d.happen h

/-! ## Engines -/

/-- Runs an engine, unless it is switched off or at work.  However the run ends, it is closed
again (the reentrancy guard of specification §4.4). -/
def guarded {α : Type} (name : EngineName) (off busy : Note) (refused : α) (run : Act Desk α) :
    Act Desk α := do
  let e := (← get).engine name
  if !e.enabled then
    note off
    return refused
  else match e.state.tryEnter with
    | none =>
      note busy
      return refused
    | some state =>
      modify fun d => d.setEngine name { d.engine name with state }
      fun d =>
        let (result, d) := run d
        let e := d.engine name
        (result, d.setEngine name { e with state := e.state.leave })

/-- Dates all tasks with one of the engines for that. -/
def runSchedulerOf (name : EngineName) (react : Reaction) : Act Desk RunReport :=
  guarded name .schedulingOff .schedulingBusy .refused (schedule (host react))

/-- Dates all tasks with the engine of the desk. -/
def runScheduler : Reaction → Act Desk RunReport := runSchedulerOf .scheduler

/-- How containers are fitted after a recomputation. -/
def fitAfter (react : Reaction) (tasks : List TaskId) : Act Desk (List TaskId) := do
  if (← get).setup.recordsFits then
    putDown (.fitAsked tasks)
    return []
  else fit (host react) tasks

/-- Recomputes after changes. -/
def runRecompute (react : Reaction) (tasks : List TaskId) : Act Desk RecomputeReport :=
  guarded .recompute .recomputeOff .recomputeBusy .refused
    (Workplan.recompute (host react) (fitAfter react) tasks)

/-- Recomputes everything. -/
def runRecomputeAll (react : Reaction) : Act Desk RecomputeReport :=
  guarded .recompute .recomputeOff .recomputeBusy .refused
    (Workplan.recomputeAll (host react) (fitAfter react))

/-! ## Commands -/

/-- The answer of an action; only an overflow is passed on. -/
def answering {α : Type} (f : α → Answer) (act : Act Desk α) : Act Desk Answer := do
  return .ofExcept f (← Host.attempt act)

/-- The answer of a question; only an overflow is passed on. -/
def asking (f : Project → Answer) : Act Desk Answer := do
  match f (← get).project with
  | .fault .overflow => throw .overflow
  | answer => return answer

/-- The reply to an edit as an answer. -/
def answerOfReply : Reply → Answer
  | .task id => .task (some id)
  | .dependency id => .dependencyAdded id
  | .changed changed => .flag changed
  | .done => .done

/-- Adds a watcher behind those that are there. -/
def enlist (w : Watcher) : Act Desk Answer := do
  modify fun d => { d with watchers := d.watchers ++ [w] }
  return .done

/-- Carries out a command. -/
def perform (react : Reaction) : Command → Act Desk Answer
  | .edit e => answering answerOfReply (edit react e)
  | .query q => asking fun p => p.answer q
  | .buildNetwork => do
    let n := (← get).project.network
    n.notes.forM note
    modify fun d => { d with network? := some n }
    return .network n
  | .refreshNetwork => do
    match (← get).network? with
    | none => return .refreshed none
    | some n => asking fun p => .ofExcept (fun edges => .refreshed (some edges)) (p.refreshAll n)
  | .networkNode id => do return .node ((← get).network?.bind fun n => n.node? id)
  | .schedule => answering .scheduled (runScheduler react)
  | .recompute tasks => answering .recomputed (runRecompute react tasks)
  | .recomputeAll => answering .recomputed (runRecomputeAll react)
  | .fit tasks => answering .fitted (fit (host react) tasks)
  | .enable name on => do
    modify fun d => d.setEngine name { d.engine name with enabled := on }
    return .done
  | .engines => do
    let d ← get
    return .engines d.scheduler.status d.recompute.status
  | .listen listener => enlist (.listener listener [])
  | .engage enabled => enlist (.scheduler ⟨enabled, .idle⟩)
  | .listenOnce number commands => enlist (.script number 0 commands)

/-! ## Watchers -/

/-- Schedules on hearing of an event, and reports a failure (specification §G). -/
def reschedule (name : EngineName) (react : Reaction) (event : Event) : Act Desk Unit := do
  note (.schedulingAsked event)
  if let .error fault ← Host.attempt (runSchedulerOf name react) then note (.failed fault)

/-- What a listener does when it hears of an event. -/
def listen (react : Reaction) (event : Event) : Listener → Act Desk Unit
  | .recorder => putDown (.heard event)
  | .scheduler => reschedule .scheduler react event
  | .schedulerProbe => do putDown (.scheduled (← Host.attempt (runScheduler react)))
  | .recomputeProbe => do
    let run := match event with
      | .datesChanged task .. => runRecompute react [task]
      | .graphChanged => runRecomputeAll react
    putDown (.recomputed (← Host.attempt run))

/-- What the watcher at a position does when it hears of an event.  A listener remembers the event
and a script counts it before anything else. -/
def hear (react : Reaction) (event : Event) (position : Nat) : Act Desk Unit := do
  match (← get).watchers[position]? with
  | none => return
  | some (.listener listener heard) =>
    modify fun d => d.setWatcher position (.listener listener (heard ++ [event]))
    listen react event listener
  | some (.scheduler _) => reschedule (.own position) react event
  | some (.script number heard commands) =>
    let heard := heard + 1
    modify fun d => d.setWatcher position (.script number heard commands)
    if heard = number then
      putDown (.scripted (← commands.mapM (perform react)))

/-- Every watcher that is there when an event is announced hears of it, one after the other
(specification §G).  What they do is announced in turn, for at most `n` announcements inside each
other. -/
def announce : (n : Nat) → Reaction
  | 0, _ => return
  | n + 1, event => do
    let count := (← get).watchers.length
    (List.range count).forM (hear (announce n) event)

end Desk

end Workplan
