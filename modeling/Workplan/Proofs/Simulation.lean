import Workplan.Proofs.Engines

/-!
# One host simulates another

An engine gets at a project through its host only.  So if two hosts show the same project, and a
commit has the same result with both and leads to states that again show the same project, then a
run of the engine has the same result with both.  What else there is in the states, and what
happens to it while something is committed, is for a relation between them to say.

- `Act.Simulated`: related states lead to the same result and to related states.
- `Host.Simulates`: two hosts commit and tell in step.
- `Host.Simulates.schedule`, `Host.Simulates.recompute`, `Host.Simulates.recomputeAll`,
  `Host.Simulates.fit`: then engines work in step.
-/

namespace Workplan

variable {σ τ α β : Type} {S : σ → τ → Prop}

namespace Act

/-- From related states both actions have the same result and lead to related states. -/
def Simulated (S : σ → τ → Prop) (x : Act σ α) (y : Act τ α) : Prop :=
  ∀ s t, S s t → (x s).1 = (y t).1 ∧ S (x s).2 (y t).2

theorem simulated_pure (a : α) : Simulated S (pure a : Act σ α) (pure a) :=
  fun _ _ h => ⟨rfl, h⟩

theorem simulated_throw (fault : Fault) : Simulated S (throw fault : Act σ α) (throw fault) :=
  fun _ _ h => ⟨rfl, h⟩

/-- Sequencing keeps two hosts in step. -/
theorem Simulated.bind {x : Act σ α} {y : Act τ α} {f : α → Act σ β} {g : α → Act τ β}
    (hx : Simulated S x y) (hf : ∀ a, Simulated S (f a) (g a)) :
    Simulated S (x >>= f) (y >>= g) := by
  intro s t h
  obtain ⟨hresult, hstates⟩ := hx s t h
  rw [bind_apply, bind_apply]
  rcases hs : x s with ⟨outcome, s'⟩
  rcases ht : y t with ⟨outcome', t'⟩
  rw [hs, ht] at hresult hstates
  obtain rfl : outcome = outcome' := hresult
  cases outcome with
  | error fault => exact ⟨rfl, hstates⟩
  | ok a => exact hf a s' t' hstates

theorem Simulated.attempt {x : Act σ α} {y : Act τ α} (hx : Simulated S x y) :
    Simulated S (Host.attempt x) (Host.attempt y) := by
  intro s t h
  obtain ⟨hresult, hstates⟩ := hx s t h
  unfold Host.attempt
  rcases hs : x s with ⟨outcome, s'⟩
  rcases ht : y t with ⟨outcome', t'⟩
  rw [hs, ht] at hresult hstates
  obtain rfl : outcome = outcome' := hresult
  rcases outcome with fault | a
  · cases fault <;> exact ⟨rfl, hstates⟩
  · exact ⟨rfl, hstates⟩

end Act

open Act

/-- In related states the hosts show the same project, and they commit and tell in step. -/
structure Host.Simulates (host : Host σ) (host' : Host τ) (S : σ → τ → Prop) : Prop where
  view : ∀ {s t}, S s t → host.view s = host'.view t
  change : ∀ k, Simulated S (host.change k) (host'.change k)
  note : ∀ {s t}, S s t → ∀ note, S (host.note note s) (host'.note note t)

namespace Host.Simulates

variable {host : Host σ} {host' : Host τ} (h : host.Simulates host' S)
include h

theorem read (f : Project → α) : Simulated S (host.read f) (host'.read f) := fun _ _ hs =>
  ⟨congrArg (fun p => Except.ok (f p)) (h.view hs), hs⟩

theorem ask (f : Project → Except Fault α) : Simulated S (host.ask f) (host'.ask f) :=
  fun _ _ hs => ⟨congrArg f (h.view hs), hs⟩

theorem tell (note : Note) : Simulated S (host.tell note) (host'.tell note) :=
  fun _ _ hs => ⟨rfl, h.note hs note⟩

theorem tellAll (notes : List Note) : Simulated S (host.tellAll notes) (host'.tellAll notes) := by
  induction notes with
  | nil => exact simulated_pure ()
  | cons note notes ih => exact fun _ _ hs => ih _ _ (h.note hs note)

/-- A reckoning is about the project that both show. -/
theorem reckon (f : Project → Traced α) : Simulated S (host.reckon f) (host'.reckon f) :=
  (h.read f).bind fun result => (h.tellAll result.notes).bind fun _ => h.ask _

/-! ## Engines -/

/-- Committing a plan keeps two hosts in step. -/
theorem commit (plan : Plan) : Simulated S (plan.commit host) (plan.commit host') := by
  unfold Plan.commit
  dsimp only
  split
  · exact h.change _
  -- an end, if there is one, is committed after the start
  cases plan.newStart? with
  | none =>
    cases plan.newFinish? with
    | none => exact simulated_pure _
    | some finish => exact (h.change _).bind fun ended => simulated_pure _
  | some start =>
    refine (h.change _).bind fun moved => ?_
    cases plan.newFinish? with
    | none => exact simulated_pure _
    | some finish => exact (h.change _).bind fun ended => simulated_pure _

/-- **Dating a task goes in step.** -/
theorem scheduleTask (n : Network) (id : TaskId) :
    Simulated S (Workplan.scheduleTask host n id) (Workplan.scheduleTask host' n id) := by
  refine (h.reckon _).bind fun plan? => ?_
  cases plan? with
  | none => exact simulated_pure false
  | some plan => exact h.commit plan

/-- A whole run keeps two hosts in step. -/
theorem scheduleAll (n : Network) (ids : List TaskId) (report : RunReport) :
    Simulated S (Workplan.scheduleAll host n ids report)
      (Workplan.scheduleAll host' n ids report) := by
  induction ids generalizing report with
  | nil => exact simulated_pure report
  | cons id ids ih =>
    refine (h.scheduleTask n id).attempt.bind fun result => ?_
    cases result with
    | error fault => exact (h.tell _).bind fun _ => ih _
    | ok changed => exact ih _

/-- **A run of the scheduler goes in step.** -/
theorem schedule : Simulated S (Workplan.schedule host) (Workplan.schedule host') := by
  refine (h.read _).bind fun n => (h.tellAll _).bind fun _ => ?_
  cases n.layers with
  | error cycle => exact simulated_throw _
  | ok layers => exact (h.scheduleAll n _ _).bind fun _ => (h.tell _).bind fun _ => simulated_pure _

theorem fitContainer (container : TaskId) :
    Simulated S (Workplan.fitContainer host container) (Workplan.fitContainer host' container) := by
  refine (h.read _).bind fun span? => ?_
  rcases span? with _ | ⟨start, finish⟩
  · exact simulated_pure false
  refine (h.ask _).bind fun t => ?_
  split
  · exact simulated_pure false
  · exact (h.tell _).bind fun _ => h.change _

theorem fitAll (containers : List TaskId) :
    Simulated S (Workplan.fitAll host containers) (Workplan.fitAll host' containers) := by
  induction containers with
  | nil => exact simulated_pure []
  | cons container rest ih =>
    exact (h.fitContainer container).bind fun changed => ih.bind fun others => simulated_pure _

/-- **Fitting goes in step.** -/
theorem fit (tasks : List TaskId) :
    Simulated S (Workplan.fit host tasks) (Workplan.fit host' tasks) :=
  (h.read _).bind fun containers => h.fitAll containers

theorem resolveTask (id : TaskId) :
    Simulated S (Workplan.resolveTask host id) (Workplan.resolveTask host' id) := by
  refine (h.ask _).bind fun t => (h.ask _).bind fun collisions => ?_
  split
  · exact simulated_pure false
  refine (h.ask _).bind fun start => (h.change _).bind fun changed => ?_
  cases changed with
  | false => exact simulated_pure false
  | true => exact (h.ask _).bind fun u => (h.tell _).bind fun _ => simulated_pure true

/-- Resolving one dependency goes in step, whatever it comes to. -/
theorem resolveDependency (id : DependencyId) (report : RecomputeReport) (givenUp : List TaskId) :
    Simulated S (Workplan.resolveDependency host id report givenUp)
      (Workplan.resolveDependency host' id report givenUp) := by
  refine (h.read _).bind fun d? => ?_
  cases d? with
  | none => exact simulated_pure _
  | some d =>
    dsimp only
    split
    · exact simulated_pure _
    refine (h.ask _).bind fun k => ?_
    split
    · exact simulated_pure _
    refine (h.tell _).bind fun _ => (h.resolveTask d.dependant).attempt.bind fun result => ?_
    rcases result with fault | _ | _
    · cases fault with
      | unsatisfiable => exact (h.tell _).bind fun _ => simulated_pure _
      | _ => exact simulated_throw _
    · exact simulated_pure _
    · exact simulated_pure _

theorem resolveAll (ids : List DependencyId) (report : RecomputeReport) (givenUp : List TaskId) :
    Simulated S (Workplan.resolveAll host ids report givenUp)
      (Workplan.resolveAll host' ids report givenUp) := by
  induction ids generalizing report givenUp with
  | nil => exact simulated_pure _
  | cons id ids ih => exact (h.resolveDependency id report givenUp).bind fun r => ih r.1 r.2

theorem resolveReach (reach : Reach) (report : RecomputeReport) (givenUp : List TaskId) :
    Simulated S (Workplan.resolveReach host reach report givenUp)
      (Workplan.resolveReach host' reach report givenUp) := by
  induction reach generalizing report givenUp with
  | nil => exact simulated_pure _
  | cons entry farther ih =>
    exact (h.tell _).bind fun _ => (h.resolveAll entry.2 report givenUp).bind fun r => ih r.1 r.2

theorem resolveReaches (reaches : List (TaskId × Reach)) (report : RecomputeReport) :
    Simulated S (Workplan.resolveReaches host reaches report)
      (Workplan.resolveReaches host' reaches report) := by
  induction reaches generalizing report with
  | nil => exact simulated_pure _
  | cons entry rest ih =>
    exact (h.tell _).bind fun _ => (h.resolveReach entry.2 report []).bind fun r => ih r

/-- **A recomputation goes in step.** -/
theorem recompute (changed : List TaskId) :
    Simulated S (Workplan.recompute host (Workplan.fit host) changed)
      (Workplan.recompute host' (Workplan.fit host') changed) :=
  (h.ask _).bind fun reaches => (h.resolveReaches reaches .empty).bind fun _ =>
    (h.fit _).bind fun _ => simulated_pure _

/-- **A full recomputation goes in step.** -/
theorem recomputeAll :
    Simulated S (Workplan.recomputeAll host (Workplan.fit host))
      (Workplan.recomputeAll host' (Workplan.fit host')) := by
  refine (h.read _).bind fun sources => (h.tell _).bind fun _ => (h.read _).bind fun reach? => ?_
  cases reach? with
  | error cycle => exact simulated_throw _
  | ok reach =>
    exact (h.resolveReach reach .empty []).bind fun _ => (h.fit _).bind fun _ => simulated_pure _

end Host.Simulates

end Workplan
