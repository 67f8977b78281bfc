import Workplan.Proofs.Refusals
import Workplan.Session.React

/-!
# What watchers can fail for

Whoever watches a project answers nobody.  What goes wrong while they run an engine or carry out a
command stays with them, and only an overflow, which ends everything, comes back to whoever has made
the change that they heard of.

- `Act.Answers`: an action is not refused.
- `Desk.failsOnly_accept`: a change that is taken over fails for what is announced only.
- `Desk.failsOnly_perform`: a command is not refused; faults are among its answers.
- `Desk.failsOnly_hear`, `Desk.failsOnly_announce`: neither is anyone who hears of an event.
-/

namespace Workplan

open Act

variable {σ α β : Type} {E : Fault → Prop}

namespace Act

/-- From any state, one action after the other fails for expected reasons only. -/
theorem FailsOnly.seq {x : Act σ α} {f : α → Act σ β}
    (hx : FailsOnly (fun _ => True) E x) (hf : ∀ a, FailsOnly (fun _ => True) E (f a)) :
    FailsOnly (fun _ => True) E (x >>= f) :=
  .bind (fun _ _ => trivial) hx fun _ a _ _ => hf a

theorem failsOnly_get : FailsOnly (fun _ => True) E (get : Act σ σ) := fun _ _ _ h => by cases h

theorem failsOnly_modify (f : σ → σ) :
    FailsOnly (fun _ => True) E (modify f : Act σ Unit) := fun _ _ _ h => by cases h

theorem failsOnly_forM {f : α → Act σ Unit} (hf : ∀ a, FailsOnly (fun _ => True) E (f a))
    (as : List α) : FailsOnly (fun _ => True) E (as.forM f) := by
  induction as with
  | nil => exact failsOnly_pure _
  | cons a as ih => exact (hf a).seq fun _ => ih

theorem failsOnly_mapM {f : α → Act σ β} (hf : ∀ a, FailsOnly (fun _ => True) E (f a))
    (as : List α) : FailsOnly (fun _ => True) E (as.mapM f) := by
  induction as with
  | nil => exact failsOnly_pure _
  | cons a as ih =>
    rw [List.mapM_cons]
    exact (hf a).seq fun _ => ih.seq fun _ => failsOnly_pure _

/-- The action is not refused, whatever the state.  Only an overflow ends it. -/
abbrev Answers (x : Act σ α) : Prop := FailsOnly (fun _ => True) (· = .overflow) x

end Act

namespace Desk

/-- Taking over a changed project fails for what the announcement fails for. -/
theorem failsOnly_accept {react : Reaction}
    (hreact : ∀ event, FailsOnly (fun _ => True) E (react event)) (p : Project)
    (event? : Option Event) (reply : α) :
    FailsOnly (fun _ => True) E (accept react p event? reply) := by
  refine (failsOnly_modify _).seq fun _ => ?_
  cases event? with
  | none => exact failsOnly_pure _
  | some event => exact (hreact event).seq fun _ => failsOnly_pure _

variable (hE : E .overflow) (react : Reaction)
include hE

theorem failsOnly_asking (f : Project → Answer) : FailsOnly (fun _ => True) E (asking f) := by
  refine failsOnly_get.seq fun d => ?_
  split
  · exact failsOnly_throw hE
  · exact failsOnly_pure _

/-- What fails inside a command is its answer. -/
theorem failsOnly_perform (c : Command) : FailsOnly (fun _ => True) E (perform react c) := by
  cases c with
  | query q => exact failsOnly_asking hE _
  | edit | schedule | recompute | recomputeAll | fit =>
    exact (failsOnly_attempt hE).seq fun _ => failsOnly_pure _
  | buildNetwork =>
    exact failsOnly_get.seq fun d => (failsOnly_forM (fun _ => failsOnly_modify _) _).seq fun _ =>
      (failsOnly_modify _).seq fun _ => failsOnly_pure _
  | refreshNetwork =>
    refine failsOnly_get.seq fun d => ?_
    split
    · exact failsOnly_pure _
    · exact failsOnly_asking hE _
  | networkNode | engines => exact failsOnly_get.seq fun d => failsOnly_pure _
  | enable | listen | engage | listenOnce =>
    exact (failsOnly_modify _).seq fun _ => failsOnly_pure _

/-- A self-scheduling listener notes the fault of its run and hands on an overflow only. -/
theorem failsOnly_reschedule (name : EngineName) (event : Event) :
    FailsOnly (fun _ => True) E (reschedule name react event) := by
  refine (failsOnly_modify _).seq fun _ => (failsOnly_attempt hE).seq fun result => ?_
  cases result with
  | error fault => exact failsOnly_modify _
  | ok report => exact failsOnly_pure _

/-- No listener hands on more than an overflow. -/
theorem failsOnly_listen (event : Event) (listener : Listener) :
    FailsOnly (fun _ => True) E (listen react event listener) := by
  cases listener with
  | recorder => exact failsOnly_modify _
  | scheduler => exact failsOnly_reschedule hE react _ event
  | schedulerProbe | recomputeProbe =>
    exact (failsOnly_attempt hE).seq fun _ => failsOnly_modify _

/-- Hearing an event, a watcher hands on an overflow only, whatever its kind. -/
theorem failsOnly_hear (event : Event) (position : Nat) :
    FailsOnly (fun _ => True) E (hear react event position) := by
  refine failsOnly_get.seq fun d => ?_
  split
  · exact failsOnly_pure _
  · exact (failsOnly_modify _).seq fun _ => failsOnly_listen hE react event _
  · exact failsOnly_reschedule hE react _ event
  · refine (failsOnly_modify _).seq fun _ => ?_
    split
    · exact (failsOnly_mapM (failsOnly_perform hE react) _).seq fun _ => failsOnly_modify _
    · exact failsOnly_pure _

/-- **Whoever watches a project reports no fault to whoever changes it**, save an overflow. -/
theorem failsOnly_announce (n : Nat) (event : Event) :
    FailsOnly (fun _ => True) E (announce n event) := by
  cases n with
  | zero => exact failsOnly_pure _
  | succ n => exact failsOnly_get.seq fun d => failsOnly_forM (failsOnly_hear hE _ event) _

end Desk

end Workplan
