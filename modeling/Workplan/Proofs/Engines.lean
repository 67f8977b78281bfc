import Workplan.Host
import Workplan.Proofs.Moves
import Workplan.Proofs.Planning
import Workplan.Recompute.Run
import Workplan.Scheduling.Run

/-!
# What the engines keep

The engines change dates through two kinds of commits only.  What these keep is kept by every run,
also by one that fails on the way, and also where others watch the project and react.

- `Act.Keeps`: an action keeps a property of the state, however it ends.
- `KeptByCommits`: the property is kept by the commits that engines make to one task.
- `keeps_scheduleTask`: so it is kept when that task is dated.
- `keeps_schedule`, `keeps_recompute`, `keeps_fit`: whole runs, if this holds of every task.
- `Project.recompute_of_reaches`, `Project.recomputeAll_eq`: what follows the beginning of a run.
-/

namespace Workplan

/-! ## Actions -/

namespace Act

variable {α β σ : Type}

/-- Sequencing stops at the first fault and hands on the state it leaves. -/
theorem bind_apply (x : Act σ α) (f : α → Act σ β) (s : σ) :
    (x >>= f) s = match x s with
      | (.ok a, s') => f a s'
      | (.error fault, s') => (.error fault, s') := by
  show ExceptT.bindCont f (x s).1 (x s).2 = _
  rcases x s with ⟨_ | _, _⟩ <;> rfl

theorem bind_of_ok {x : Act σ α} {f : α → Act σ β} {s s' : σ} {a : α} (h : x s = (.ok a, s')) :
    (x >>= f) s = f a s' := by
  rw [bind_apply, h]

theorem bind_of_error {x : Act σ α} {f : α → Act σ β} {s s' : σ} {fault : Fault}
    (h : x s = (.error fault, s')) : (x >>= f) s = (.error fault, s') := by
  rw [bind_apply, h]

/-- A sequence that succeeds has succeeded in both of its parts. -/
theorem exists_of_bind_ok {x : Act σ α} {f : α → Act σ β} {s s'' : σ} {b : β}
    (h : (x >>= f) s = (.ok b, s'')) : ∃ a s', x s = (.ok a, s') ∧ f a s' = (.ok b, s'') := by
  rw [bind_apply] at h
  rcases hx : x s with ⟨fault | a, s'⟩
  · rw [hx] at h
    cases h
  · rw [hx] at h
    exact ⟨a, s', rfl, h⟩

/-- What the first action leaves behind is what the second one sets out from, or is all. -/
theorem bind_snd {P Q : σ → Prop} {x : Act σ α} {f : α → Act σ β} {s : σ}
    (hPQ : ∀ s, P s → Q s) (hx : P (x s).2) (hf : ∀ a s', P s' → Q (f a s').2) :
    Q ((x >>= f) s).2 := by
  rw [bind_apply]
  rcases h : x s with ⟨_ | a, s'⟩
  · rw [h] at hx
    exact hPQ s' hx
  · rw [h] at hx
    exact hf a s' hx

/-- However the action ends, it leaves a state with the property. -/
def Keeps (P : σ → Prop) (x : Act σ α) : Prop := ∀ s, P s → P (x s).2

variable {P : σ → Prop}

theorem keeps_pure (a : α) : Keeps P (pure a : Act σ α) := fun _ hs => hs

theorem keeps_throw (fault : Fault) : Keeps P (throw fault : Act σ α) := fun _ hs => hs

/-- What both parts keep, the sequence keeps. -/
theorem Keeps.bind {x : Act σ α} {f : α → Act σ β} (hx : Keeps P x)
    (hf : ∀ a, Keeps P (f a)) : Keeps P (x >>= f) :=
  fun s hs => bind_snd (fun _ h => h) (hx s hs) fun a s' hs' => hf a s' hs'

/-- Attempting keeps what the attempted act keeps, since a fault does not undo its writes. -/
theorem Keeps.attempt {x : Act σ α} (hx : Keeps P x) : Keeps P (Host.attempt x) := by
  intro s hs
  have hs' := hx s hs
  unfold Host.attempt
  split
  · next h => rwa [h] at hs'
  · next h => rwa [h] at hs'

theorem keeps_read (h : Host σ) (f : Project → α) : Keeps P (h.read f) := fun _ hs => hs

theorem keeps_ask (h : Host σ) (f : Project → Except Fault α) : Keeps P (h.ask f) :=
  fun _ hs => hs

/-- A reckoning is its outcome, and tells its notes. -/
theorem reckon_apply (h : Host σ) (f : Project → Traced α) (s : σ) :
    h.reckon f s = ((f (h.view s)).outcome,
      (f (h.view s)).notes.foldl (fun s note => h.note note s) s) := rfl

/-! ## A lone project -/

theorem read_alone (f : Project → α) (p : Project) : Host.alone.read f p = (.ok (f p), p) := rfl

theorem ask_alone (f : Project → Except Fault α) (p : Project) : Host.alone.ask f p = (f p, p) :=
  rfl

theorem foldl_note_alone (notes : List Note) (p : Project) :
    notes.foldl (fun p note => Host.alone.note note p) p = p := by
  induction notes generalizing p with
  | nil => rfl
  | cons note notes ih => exact ih p

theorem tellAll_alone (notes : List Note) (p : Project) :
    Host.alone.tellAll notes p = (.ok (), p) := by
  rw [Host.tellAll, foldl_note_alone]

/-- On a lone project a reckoning is its outcome. -/
theorem reckon_alone (f : Project → Traced α) (p : Project) :
    Host.alone.reckon f p = ((f p).outcome, p) := by
  have hread : Host.alone.read f p = (.ok (f p), p) := rfl
  rw [Host.reckon, bind_of_ok hread, bind_of_ok (tellAll_alone (f p).notes p)]
  rfl

end Act

/-! ## Dating one task -/

/-- A property of states that telling and the commits of the engines to one task keep. -/
structure KeptByCommits {σ : Type} (h : Host σ) (P : σ → Prop) (id : TaskId) : Prop where
  note : ∀ {s}, P s → ∀ note, P (h.note note s)
  revise : ∀ {s}, P s → ∀ start? finish?, P (h.commit (.revise id { start?, finish? }) s).2
  startAt : ∀ {s}, P s → ∀ day, P (h.commit (.startAt id day) s).2

theorem KeptByCommits.and {σ : Type} {host : Host σ} {P Q : σ → Prop} {id : TaskId}
    (h : KeptByCommits host P id) (h' : KeptByCommits host Q id) :
    KeptByCommits host (fun s => P s ∧ Q s) id where
  note hs note := ⟨h.note hs.1 note, h'.note hs.2 note⟩
  revise hs start? finish? := ⟨h.revise hs.1 start? finish?, h'.revise hs.2 start? finish?⟩
  startAt hs day := ⟨h.startAt hs.1 day, h'.startAt hs.2 day⟩

open Act

section Alone

variable {P : Project → Prop}

/-- Commits keep what the changes behind them keep, as a refused change leaves no trace. -/
theorem KeptByCommits.of_changes {id : TaskId}
    (hrevise : ∀ {p : Project} {r : Changed} {start? finish?}, P p →
      p.revise id { start?, finish? } = .ok r → P r.project)
    (hstartAt : ∀ {p : Project} {r : Changed} {day}, P p → p.startAt id day = .ok r → P r.project) :
    KeptByCommits Host.alone P id := by
  have hcommit : ∀ {p : Project} {k : Change}, P p → (∀ r, p.change k = .ok r → P r.project) →
      P (Host.alone.commit k p).2 := by
    intro p k hp hchange
    cases hk : p.change k with
    | error fault =>
      rw [Project.commit_of_error hk]
      exact hp
    | ok r =>
      rw [Project.commit_of_ok hk]
      exact hchange r hk
  exact ⟨fun hp _ => hp, fun hp _ _ => hcommit hp fun _ hr => hrevise hp hr,
    fun hp _ => hcommit hp fun _ hr => hstartAt hp hr⟩

/-- One task is dated according to its plan, if it gets one. -/
theorem scheduleTask_alone (n : Network) (id : TaskId) (p : Project) :
    scheduleTask Host.alone n id p = match (p.plan id (n.incoming id)).outcome with
      | .error fault => (.error fault, p)
      | .ok none => (.ok false, p)
      | .ok (some plan) => plan.commit Host.alone p := by
  rw [scheduleTask, bind_apply, reckon_alone]
  rcases (p.plan id (n.incoming id)).outcome with fault | _ | plan
  · rfl
  · rfl
  · rfl

end Alone

variable {σ : Type} {host : Host σ} {P : σ → Prop}

namespace KeptByCommits

variable {id : TaskId} (h : KeptByCommits host P id)
include h

theorem keeps_revise (start? finish? : Option Day) :
    Keeps P (host.change (.revise id { start?, finish? })) :=
  fun _ hs => h.revise hs start? finish?

theorem keeps_startAt (day : Day) : Keeps P (host.change (.startAt id day)) :=
  fun _ hs => h.startAt hs day

theorem keeps_tell (note : Note) : Keeps P (host.tell note) := fun _ hs => h.note hs note

theorem foldl_note {s : σ} (hs : P s) (notes : List Note) :
    P (notes.foldl (fun s note => host.note note s) s) := by
  induction notes generalizing s with
  | nil => exact hs
  | cons note notes ih => exact ih (h.note hs note)

theorem keeps_tellAll (notes : List Note) : Keeps P (host.tellAll notes) :=
  fun _ hs => h.foldl_note hs notes

end KeptByCommits

/-- Committing a plan keeps what commits on its task keep. -/
theorem keeps_commit {plan : Plan} (h : KeptByCommits host P plan.task.id) :
    Keeps P (plan.commit host) := by
  unfold Plan.commit
  split
  · exact h.keeps_revise _ _
  · cases plan.newStart? with
    | none =>
      cases plan.newFinish? with
      | none => exact keeps_pure _
      | some finish => exact (h.keeps_revise none _).bind fun ended => keeps_pure _
    | some start =>
      refine (h.keeps_startAt start).bind fun moved => ?_
      cases plan.newFinish? with
      | none => exact keeps_pure _
      | some finish => exact (h.keeps_revise none _).bind fun ended => keeps_pure _

theorem keeps_scheduleTask (n : Network) {id : TaskId} (h : KeptByCommits host P id) :
    Keeps P (scheduleTask host n id) := by
  intro s hs
  rw [scheduleTask, bind_apply, reckon_apply]
  have htold := h.foldl_note hs ((host.view s).plan id (n.incoming id)).notes
  rcases hplan : ((host.view s).plan id (n.incoming id)).outcome with fault | _ | plan
  · exact htold
  · exact htold
  · rw [← Project.id_of_task? (Project.task?_of_plan hplan)] at h
    exact keeps_commit h _ htold

/-- Scheduling a list of tasks keeps what commits on each of them keep. -/
theorem keeps_scheduleAll (n : Network) {ids : List TaskId}
    (h : ∀ id ∈ ids, KeptByCommits host P id) (report : RunReport) :
    Keeps P (scheduleAll host n ids report) := by
  induction ids generalizing report with
  | nil => exact keeps_pure _
  | cons id ids ih =>
    have hrest := ih fun x hx => h x (List.mem_cons_of_mem id hx)
    have hid := h id List.mem_cons_self
    refine (keeps_scheduleTask n hid).attempt.bind fun result => ?_
    cases result with
    | error fault => exact (hid.keeps_tell _).bind fun _ => hrest _
    | ok changed => exact hrest _

theorem keeps_fitContainer {container : TaskId} (h : KeptByCommits host P container) :
    Keeps P (fitContainer host container) := by
  refine (keeps_read _ _).bind fun span? => ?_
  rcases span? with _ | ⟨start, finish⟩
  · exact keeps_pure _
  · refine (keeps_ask _ _).bind fun t => ?_
    split
    · exact keeps_pure _
    · exact (h.keeps_tell _).bind fun _ => h.keeps_revise _ _

theorem keeps_resolveTask {id : TaskId} (h : KeptByCommits host P id) :
    Keeps P (resolveTask host id) := by
  refine (keeps_ask _ _).bind fun old => (keeps_ask _ _).bind fun collisions => ?_
  dsimp only
  split
  · exact keeps_pure _
  · refine (keeps_ask _ _).bind fun start => (h.keeps_startAt _).bind fun changed => ?_
    split
    · exact (keeps_ask _ _).bind fun t => (h.keeps_tell _).bind fun _ => keeps_pure _
    · exact keeps_pure _

/-! ## Runs of the engines -/

variable (h : ∀ id, KeptByCommits host P id)
include h

theorem keeps_tell (note : Note) : Keeps P (host.tell note) := (h .root).keeps_tell note

theorem keeps_tellAll (notes : List Note) : Keeps P (host.tellAll notes) :=
  (h .root).keeps_tellAll notes

/-- **A run of the scheduler keeps what its commits keep.** -/
theorem keeps_schedule : Keeps P (Workplan.schedule host) := by
  refine (keeps_read _ _).bind fun n => (keeps_tellAll h _).bind fun _ => ?_
  cases n.layers with
  | error cycle => exact keeps_throw _
  | ok layers =>
    refine (keeps_scheduleAll n (fun id _ => h id) _).bind fun _ => ?_
    exact (keeps_tell h _).bind fun _ => keeps_pure _

theorem keeps_fitAll (containers : List TaskId) : Keeps P (fitAll host containers) := by
  induction containers with
  | nil => exact keeps_pure _
  | cons container rest ih =>
    refine (keeps_fitContainer (h container)).bind fun changed => ih.bind fun others => keeps_pure _

/-- **Fitting containers keeps what its commits keep.** -/
theorem keeps_fit (tasks : List TaskId) : Keeps P (Workplan.fit host tasks) :=
  (keeps_read _ _).bind fun _ => keeps_fitAll h _

theorem keeps_resolveDependency (id : DependencyId) (report : RecomputeReport)
    (givenUp : List TaskId) : Keeps P (resolveDependency host id report givenUp) := by
  refine (keeps_read _ _).bind fun dependency? => ?_
  cases dependency? with
  | none => exact keeps_pure _
  | some d =>
    dsimp only
    split
    · exact keeps_pure _
    · refine (keeps_ask _ _).bind fun k => ?_
      split
      · exact keeps_pure _
      · refine (keeps_tell h _).bind fun _ =>
          (keeps_resolveTask (h d.dependant)).attempt.bind fun result => ?_
        rcases result with fault | changed
        · cases fault with
          | unsatisfiable task reason => exact (keeps_tell h _).bind fun _ => keeps_pure _
          | _ => exact keeps_throw _
        · cases changed <;> exact keeps_pure _

theorem keeps_resolveAll (ids : List DependencyId) (report : RecomputeReport)
    (givenUp : List TaskId) : Keeps P (resolveAll host ids report givenUp) := by
  induction ids generalizing report givenUp with
  | nil => exact keeps_pure _
  | cons id ids ih => exact (keeps_resolveDependency h id report givenUp).bind fun _ => ih _ _

/-- Working off a reach keeps what every commit keeps. -/
theorem keeps_resolveReach (reach : Reach) (report : RecomputeReport) (givenUp : List TaskId) :
    Keeps P (resolveReach host reach report givenUp) := by
  induction reach generalizing report givenUp with
  | nil => exact keeps_pure _
  | cons wave farther ih =>
    exact (keeps_tell h _).bind fun _ => (keeps_resolveAll h _ _ _).bind fun _ => ih _ _

theorem keeps_resolveReaches (reaches : List (TaskId × Reach)) (report : RecomputeReport) :
    Keeps P (resolveReaches host reaches report) := by
  induction reaches generalizing report with
  | nil => exact keeps_pure _
  | cons first rest ih =>
    exact (keeps_tell h _).bind fun _ => (keeps_resolveReach h _ _ _).bind fun _ => ih _

section

variable {fit : List TaskId → Act σ (List TaskId)} (hfit : ∀ tasks, Keeps P (fit tasks))
include hfit

/-- **A recomputation keeps what its commits and the fitting after it keep.** -/
theorem keeps_recompute (changed : List TaskId) :
    Keeps P (Workplan.recompute host fit changed) :=
  (keeps_ask _ _).bind fun _ => (keeps_resolveReaches h _ _).bind fun _ =>
    (hfit _).bind fun _ => keeps_pure _

/-- **A recomputation of the whole project keeps what its commits and the fitting keep.** -/
theorem keeps_recomputeAll : Keeps P (Workplan.recomputeAll host fit) := by
  refine (keeps_read _ _).bind fun sources => (keeps_tell h _).bind fun _ =>
    (keeps_read _ _).bind fun reach? => ?_
  cases reach? with
  | error cycle => exact keeps_throw _
  | ok reach =>
    exact (keeps_resolveReach h _ _ _).bind fun _ => (hfit _).bind fun _ => keeps_pure _

end

/-! ## Recomputations of a lone project -/

namespace Project

omit h

variable {p : Project}

/-- When the exploration succeeds, the run resolves the reaches it found and then fits the
containers. -/
theorem recompute_of_reaches {changed : List TaskId} {reaches : List (TaskId × Reach)}
    (h : p.reaches changed = .ok reaches) : p.recompute changed = (do
      let report ← resolveReaches Host.alone reaches .empty
      let adjusted ← Workplan.fit Host.alone (changed ++ report.modified)
      return { report with adjusted } : Act Project RecomputeReport) p := by
  have hask : Host.alone.ask (fun p => p.reaches changed) p = (.ok reaches, p) := by
    rw [ask_alone, h]
  show Workplan.recompute Host.alone (Workplan.fit Host.alone) changed p = _
  rw [Workplan.recompute, bind_of_ok hask]

/-- An unknown task or a cycle ends a recomputation before it begins. -/
theorem recompute_of_error {changed : List TaskId} {fault : Fault}
    (h : p.reaches changed = .error fault) : p.recompute changed = (.error fault, p) := by
  have hask : Host.alone.ask (fun p => p.reaches changed) p = (.error fault, p) := by
    rw [ask_alone, h]
  show Workplan.recompute Host.alone (Workplan.fit Host.alone) changed p = _
  rw [Workplan.recompute, bind_of_error hask]

/-- A cycle ends a recomputation of the whole project before it begins. -/
theorem recomputeAll_eq : p.recomputeAll = (match p.reach p.independent with
    | .error cycle => throw (.cyclic cycle)
    | .ok reach => do
      let report ← resolveReach Host.alone reach .empty []
      let adjusted ← Workplan.fit Host.alone report.modified
      return { report with adjusted } : Act Project RecomputeReport) p := by
  have hsources : Host.alone.read Project.independent p = (.ok p.independent, p) := rfl
  have htell : Host.alone.tell (.recomputeFromAll p.independent.length) p = (.ok (), p) := rfl
  have hread : Host.alone.read (fun q => q.reach p.independent) p =
      (.ok (p.reach p.independent), p) := rfl
  show Workplan.recomputeAll Host.alone (Workplan.fit Host.alone) p = _
  rw [Workplan.recomputeAll, bind_of_ok hsources, bind_of_ok htell]
  exact bind_of_ok hread

end Project

end Workplan
