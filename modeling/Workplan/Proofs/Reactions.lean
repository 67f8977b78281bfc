import Workplan.Proofs.Reachable
import Workplan.Session.Run

/-!
# What reactions keep

On a desk, a change of the project is announced to watchers, who may change it again.  All of that
is edits and engines at work: what these keep is kept by every command, also by one that fails on
the way.

- `Desk.Essential`: a property of desks that is not about what was put down.
- `Desk.KeptByRuns`: the engines keep a property; `Desk.keptByRuns`: if their commits do.
- `Desk.keeps_perform`, `Desk.keeps_listen`: so commands and listeners do.
- `Desk.Holds`: a property of the project on a desk; `Desk.holds_announce`: reactions keep it.
- `Desk.after`, `Desk.reachable_after`: a session reaches reachable projects only.
-/

namespace Workplan

/-- A property of projects that edits keep. -/
def Project.KeptByEdits (P : Project → Prop) : Prop :=
  ∀ ⦃p : Project⦄ ⦃e : Edit⦄ ⦃r : Outcome⦄, P p → p.edit e = .ok r → P r.project

/-- The watcher that a command adds. -/
def Command.watcher? : Command → Option Watcher
  | .listen listener => some (.listener listener [])
  | .engage enabled => some (.scheduler ⟨enabled, .idle⟩)
  | .listenOnce number commands => some (.script number 0 commands)
  | _ => none

namespace Desk

open Act

variable {I J : Desk → Prop} {react : Reaction} {α : Type}

/-! ## Actions on a desk -/

/-- A note is put down, and that is all. -/
theorem tell_eq (n : Note) (d : Desk) : tell n d = { d with outbox := (tell n d).outbox } := by
  unfold tell
  dsimp only
  split
  · cases n <;> dsimp only <;> split <;> rfl
  · split <;> rfl

@[simp] theorem tell_project (n : Note) (d : Desk) : (tell n d).project = d.project := by
  rw [tell_eq]

@[simp] theorem setEngine_project (d : Desk) (name : EngineName) (e : Engine) :
    (d.setEngine name e).project = d.project := by
  cases name with
  | scheduler => rfl
  | recompute => rfl
  | own position =>
    dsimp only [setEngine]
    split <;> rfl

theorem keeps_modify {f : Desk → Desk} (hf : ∀ d, I d → I (f d)) :
    Keeps I (modify f : Act Desk Unit) :=
  fun d hd => hf d hd

/-- What is read off a desk is read off the desk as it is. -/
theorem keeps_get_bind {f : Desk → Act Desk α} (hf : ∀ d, I d → I (f d d).2) :
    Keeps I (get >>= f) :=
  fun d hd => hf d hd

theorem keeps_get {f : Desk → Act Desk α} (hf : ∀ d, Keeps I (f d)) : Keeps I (get >>= f) :=
  keeps_get_bind fun d hd => hf d d hd

theorem keeps_forM {β : Type} {f : β → Act Desk Unit} {bs : List β}
    (hf : ∀ b ∈ bs, Keeps I (f b)) : Keeps I (bs.forM f) := by
  induction bs with
  | nil => exact keeps_pure _
  | cons b bs ih =>
    rw [List.forall_mem_cons] at hf
    exact hf.1.bind fun _ => ih hf.2

theorem keeps_mapM {β : Type} {f : β → Act Desk α} (hf : ∀ b, Keeps I (f b)) (bs : List β) :
    Keeps I (bs.mapM f) := by
  induction bs with
  | nil => exact keeps_pure _
  | cons b bs ih =>
    rw [List.mapM_cons]
    exact (hf b).bind fun _ => ih.bind fun _ => keeps_pure _

/-- A property of desks that depends neither on what was put down nor on the network that was kept
nor on which engines are switched on. -/
structure Essential (I : Desk → Prop) : Prop where
  aside : ∀ {d : Desk} outbox network?, I d → I { d with outbox, network? }
  enable : ∀ {d : Desk} name on, I d → I (d.setEngine name { d.engine name with enabled := on })

namespace Essential

variable (hI : Essential I)
include hI

theorem tell {d : Desk} (n : Note) (hd : I d) : I (d.tell n) := by
  rw [tell_eq]
  exact hI.aside _ d.network? hd

theorem keeps_note (n : Note) : Keeps I (note n) := keeps_modify fun _ hd => hI.tell n hd

theorem keeps_putDown (h : Happening) : Keeps I (putDown h) :=
  keeps_modify fun d hd => hI.aside (d.happen h).outbox d.network? hd

end Essential

/-! ## Edits and commits -/

theorem accept_none (p : Project) (reply : α) (d : Desk) :
    accept react p none reply d = (.ok reply, { d with project := p }) := rfl

/-- What follows from an event is all that follows from a change, and only a fault takes the place
of the reply. -/
theorem accept_some (p : Project) (event : Event) (reply : α) (d : Desk) :
    accept react p (some event) reply d =
      ((react event { d with project := p }).1.map fun _ => reply,
        (react event { d with project := p }).2) := by
  have hmodify : (modify fun d => { d with project := p } : Act Desk Unit) d =
      (.ok (), { d with project := p }) := rfl
  rw [accept, bind_of_ok hmodify]
  dsimp only
  rw [bind_apply]
  rcases react event { d with project := p } with ⟨_ | _, _⟩ <;> rfl

/-- An edit keeps a property, with all that follows from it. -/
def KeptByEdits (react : Reaction) (I : Desk → Prop) : Prop :=
  ∀ ⦃d : Desk⦄ ⦃e : Edit⦄ ⦃r : Outcome⦄, I d → d.project.edit e = .ok r →
    ∀ ⦃α : Type⦄ (reply : α), I (accept react r.project r.event? reply d).2

namespace KeptByEdits

variable (hedits : KeptByEdits react I)
include hedits

/-- An edit with its announcements keeps what edits and reactions keep. -/
theorem keeps_edit (e : Edit) : Keeps I (edit react e) := by
  refine keeps_get_bind fun d hd => ?_
  cases hedit : d.project.edit e with
  | error fault => exact hd
  | ok r => exact hedits hd hedit r.reply

theorem keeps_commit (c : Change) : Keeps I (commit react c) := by
  refine keeps_get_bind fun d hd => ?_
  cases hchange : d.project.change c with
  | error fault => exact hd
  | ok r => exact hedits hd (Project.edit_change hchange) r.changed

/-- So do the engines at work. -/
theorem host (hI : Essential I) (id : TaskId) : KeptByCommits (host react) I id where
  note hd n := hI.tell n hd
  revise hd _ _ := hedits.keeps_commit _ _ hd
  startAt hd _ := hedits.keeps_commit _ _ hd

/-- The fitting that follows a run keeps what commits keep. -/
theorem keeps_fitAfter (hI : Essential I) (tasks : List TaskId) :
    Keeps I (fitAfter react tasks) := by
  refine keeps_get fun d => ?_
  split
  · exact (hI.keeps_putDown _).bind fun _ => keeps_pure _
  · exact keeps_fit (hedits.host hI) tasks

end KeptByEdits

/-! ## Runs of an engine -/

section Guarded

variable {name : EngineName} {off busy : Note} {refused : α} {run : Act Desk α} {d : Desk}

/-- An engine that is switched on and at rest does its run, and is closed again. -/
theorem guarded_of_idle (hon : (d.engine name).enabled) (hidle : (d.engine name).state = .idle) :
    guarded name off busy refused run d =
      ((run (d.setEngine name ⟨true, .running 1⟩)).1,
        let d' := (run (d.setEngine name ⟨true, .running 1⟩)).2
        d'.setEngine name
          { d'.engine name with state := (d'.engine name).state.leave }) := by
  have hget : (get : Act Desk Desk) d = (.ok d, d) := rfl
  have hmodify : (modify fun d => d.setEngine name { d.engine name with state := .running 1 } :
      Act Desk Unit) d = (.ok (), d.setEngine name ⟨true, .running 1⟩) := by
    rw [← hon]
    rfl
  have henter : (d.engine name).state.tryEnter = some (.running 1) := by
    rw [hidle]
    rfl
  rw [guarded, bind_of_ok hget]
  dsimp only
  rw [hon, henter, if_neg (by decide)]
  dsimp only
  rw [bind_of_ok hmodify]
  rfl

/-- Otherwise it is refused, and nothing but a note is left of that. -/
theorem guarded_of_not_idle
    (h : ¬ ((d.engine name).enabled ∧ (d.engine name).state = .idle)) :
    ∃ note, (note = off ∨ note = busy) ∧
      guarded name off busy refused run d = (.ok refused, tell note d) := by
  have hget : (get : Act Desk Desk) d = (.ok d, d) := rfl
  rw [guarded, bind_of_ok hget]
  dsimp only
  cases hon : (d.engine name).enabled with
  | false => exact ⟨off, .inl rfl, rfl⟩
  | true =>
    cases hstate : (d.engine name).state with
    | idle => exact absurd ⟨hon, hstate⟩ h
    | running depth => exact ⟨busy, .inr rfl, rfl⟩

end Guarded

/-- While an engine is at work, another property holds. -/
structure Opens (I J : Desk → Prop) : Prop where
  enter : ∀ {d : Desk} {name : EngineName}, I d → (d.engine name).enabled →
    (d.engine name).state = .idle → J (d.setEngine name ⟨true, .running 1⟩)
  leave : ∀ {d : Desk} (name : EngineName), J d →
    I (d.setEngine name { d.engine name with state := (d.engine name).state.leave })

/-- A guarded run keeps the outer invariant when the run keeps the inner one, whether it is let
through or refused. -/
theorem keeps_guarded (hI : Essential I) (hopens : Opens I J) {name : EngineName}
    {off busy : Note} {refused : α} {run : Act Desk α} (hrun : Keeps J run) :
    Keeps I (guarded name off busy refused run) := by
  intro d hd
  by_cases hready : (d.engine name).enabled ∧ (d.engine name).state = .idle
  · rw [guarded_of_idle hready.1 hready.2]
    exact hopens.leave name (hrun _ (hopens.enter hd hready.1 hready.2))
  · obtain ⟨note, -, hrefused⟩ := @guarded_of_not_idle _ name off busy refused run d hready
    rw [hrefused]
    exact hI.tell note hd

/-- Runs of the engines keep a property. -/
structure KeptByRuns (react : Reaction) (I : Desk → Prop) : Prop where
  schedule : ∀ name, Keeps I (runSchedulerOf name react)
  recompute : ∀ tasks, Keeps I (runRecompute react tasks)
  recomputeAll : Keeps I (runRecomputeAll react)

/-- **What holds while an engine is at work and is kept by its commits makes the runs keep what
holds before.** -/
theorem keptByRuns (hI : Essential I) (hJ : Essential J) (hopens : Opens I J)
    (hedits : KeptByEdits react J) : KeptByRuns react I where
  schedule _ := keeps_guarded hI hopens (keeps_schedule (hedits.host hJ))
  recompute tasks := keeps_guarded hI hopens
    (keeps_recompute (hedits.host hJ) (hedits.keeps_fitAfter hJ) tasks)
  recomputeAll := keeps_guarded hI hopens
    (keeps_recomputeAll (hedits.host hJ) (hedits.keeps_fitAfter hJ))

/-! ## Commands and listeners -/

theorem keeps_answering {f : α → Answer} {act : Act Desk α} (hact : Keeps I act) :
    Keeps I (answering f act) :=
  hact.attempt.bind fun _ => keeps_pure _

theorem keeps_asking (f : Project → Answer) : Keeps I (asking f) := by
  refine keeps_get fun d => ?_
  split
  · exact keeps_throw _
  · exact keeps_pure _

theorem perform_of_watcher {c : Command} {w : Watcher} (hc : c.watcher? = some w) :
    perform react c = enlist w := by
  cases c <;> cases hc <;> rfl

/-- **A command that adds no watcher keeps what edits and runs keep.** -/
theorem keeps_perform (hI : Essential I) (hruns : KeptByRuns react I)
    (hedits : KeptByEdits react I) {c : Command} (hc : c.watcher? = none) :
    Keeps I (perform react c) := by
  cases c with
  | edit e => exact keeps_answering (hedits.keeps_edit e)
  | query q => exact keeps_asking _
  | buildNetwork =>
    unfold perform
    refine keeps_get fun d => (keeps_forM fun n _ => hI.keeps_note n).bind fun _ => ?_
    exact (keeps_modify fun d hd => hI.aside d.outbox _ hd).bind fun _ => keeps_pure _
  | refreshNetwork =>
    refine keeps_get fun d => ?_
    split
    · exact keeps_pure _
    · exact keeps_asking _
  | networkNode id => exact keeps_get fun d => keeps_pure _
  | schedule => exact keeps_answering (hruns.schedule _)
  | recompute tasks => exact keeps_answering (hruns.recompute tasks)
  | recomputeAll => exact keeps_answering hruns.recomputeAll
  | fit tasks => exact keeps_answering (keeps_fit (hedits.host hI) tasks)
  | enable name on =>
    exact (keeps_modify fun d hd => hI.enable name on hd).bind fun _ => keeps_pure _
  | engines => exact keeps_get fun d => keeps_pure _
  | listen | engage | listenOnce => cases hc

/-- A self-scheduling listener keeps what runs keep. -/
theorem keeps_reschedule (hI : Essential I) (hruns : KeptByRuns react I) (name : EngineName)
    (event : Event) : Keeps I (reschedule name react event) := by
  refine (hI.keeps_note _).bind fun _ => (hruns.schedule name).attempt.bind fun result => ?_
  cases result with
  | error fault => exact hI.keeps_note _
  | ok report => exact keeps_pure _

/-- Every kind of listener keeps what runs keep. -/
theorem keeps_listen (hI : Essential I) (hruns : KeptByRuns react I) (event : Event)
    (listener : Listener) : Keeps I (listen react event listener) := by
  cases listener with
  | recorder => exact hI.keeps_putDown _
  | scheduler => exact keeps_reschedule hI hruns _ event
  | schedulerProbe => exact (hruns.schedule _).attempt.bind fun _ => hI.keeps_putDown _
  | recomputeProbe =>
    unfold listen
    cases event with
    | datesChanged task =>
      exact (hruns.recompute [task]).attempt.bind fun _ => hI.keeps_putDown _
    | graphChanged => exact hruns.recomputeAll.attempt.bind fun _ => hI.keeps_putDown _

/-! ## The project on a desk -/

/-- The project on a desk has the property. -/
def Holds (P : Project → Prop) (d : Desk) : Prop := P d.project

section

variable {P : Project → Prop}

/-- A property of the project alone does not see the desk's bookkeeping. -/
theorem essential_holds : Essential (Holds P) where
  aside _ _ hd := hd
  enable _ _ hd := by
    unfold Holds
    rwa [setEngine_project]

theorem opens_holds : Opens (Holds P) (Holds P) where
  enter hd _ _ := by
    unfold Holds
    rwa [setEngine_project]
  leave _ hd := by
    unfold Holds
    rwa [setEngine_project]

variable (hP : Project.KeptByEdits P)
include hP

/-- Edits announced to reactions that keep a property of projects keep it. -/
theorem holds_edits (hreact : ∀ event, Keeps (Holds P) (react event)) :
    KeptByEdits react (Holds P) := by
  intro d e r hd he α reply
  have hr : Holds P { d with project := r.project } := hP hd he
  cases r.event? with
  | none => exact hr
  | some event =>
    rw [accept_some]
    exact hreact event _ hr

/-- Every command keeps a property of projects that edits keep, listeners included. -/
theorem holds_perform (hreact : ∀ event, Keeps (Holds P) (react event)) (c : Command) :
    Keeps (Holds P) (perform react c) := by
  have hedits := holds_edits hP hreact
  cases hc : c.watcher? with
  | none =>
    exact keeps_perform essential_holds
      (keptByRuns essential_holds essential_holds opens_holds hedits) hedits hc
  | some w =>
    rw [perform_of_watcher hc]
    exact fun d hd => hd

/-- Hearing an event keeps a property of projects that edits keep. -/
theorem holds_hear (hreact : ∀ event, Keeps (Holds P) (react event)) (event : Event)
    (position : Nat) : Keeps (Holds P) (hear react event position) := by
  have hruns := keptByRuns essential_holds essential_holds opens_holds (holds_edits hP hreact)
  refine keeps_get fun d => ?_
  split
  · exact keeps_pure _
  · refine Keeps.bind (keeps_modify fun _ hd => hd) fun _ => ?_
    exact keeps_listen essential_holds hruns event _
  · exact keeps_reschedule essential_holds hruns _ event
  · refine Keeps.bind (keeps_modify fun _ hd => hd) fun _ => ?_
    split
    · exact (keeps_mapM (holds_perform hP hreact) _).bind fun _ => essential_holds.keeps_putDown _
    · exact keeps_pure _

/-- **Reactions keep what edits keep**, however deep they go. -/
theorem holds_announce (n : Nat) (event : Event) : Keeps (Holds P) (announce n event) := by
  induction n generalizing event with
  | zero => exact keeps_pure _
  | succ n ih =>
    exact keeps_get fun d => keeps_forM fun position _ => holds_hear hP ih event position

end

/-! ## Sessions -/

variable {P : Project → Prop}

/-- **One step of a session keeps what edits keep.** -/
theorem holds_step (hP : Project.KeptByEdits P) {d : Desk} (hd : Holds P d) (c : Command) :
    Holds P (d.step c).2 :=
  holds_perform hP (holds_announce hP _) c { d with outbox := .empty } hd

/-- The desk after some commands. -/
def after (d : Desk) (commands : List Command) : Desk :=
  commands.foldl (fun d c => (d.step c).2) d

/-- A property of projects that edits keep survives any list of commands. -/
theorem holds_after (hP : Project.KeptByEdits P) {d : Desk} (hd : Holds P d)
    (commands : List Command) : Holds P (d.after commands) := by
  induction commands generalizing d with
  | nil => exact hd
  | cons c commands ih => exact ih (holds_step hP hd c)

/-- **A session reaches reachable projects only**, whoever watches and reacts. -/
theorem reachable_after (setup : Setup) (commands : List Command) :
    ((new setup).after commands).project.Reachable :=
  holds_after (fun _ _ _ hp h => .edit hp h) (.empty setup.calendar) commands

end Desk

end Workplan
