import Workplan.Journal.Note

/-!
# Reckonings with notes

A reckoning reads a project and changes nothing.  It ends with a value or a fault and tells
notes on the way.

* `Traced` — the outcome of a reckoning together with its notes.
* `Traced.outcome_bind`, `Traced.outcome_pure` — the outcome does not depend on the notes.
-/

namespace Workplan

/-- The outcome of a reckoning and the notes told until then. -/
structure Traced (α : Type) where
  /-- The notes, in order. -/
  notes : List Note
  /-- The value or the fault. -/
  outcome : Except Fault α

namespace Traced

variable {α β : Type}

/-- Goes on with the value of a reckoning. -/
def andThen (x : Traced α) (f : α → Traced β) : Traced β :=
  match x.outcome with
  | .error fault => ⟨x.notes, .error fault⟩
  | .ok a => ⟨x.notes ++ (f a).notes, (f a).outcome⟩

instance : Monad Traced where
  pure a := ⟨[], .ok a⟩
  bind := andThen

/-- Tells a note. -/
def tell (note : Note) : Traced Unit := ⟨[note], .ok ()⟩

/-- An outcome without notes. -/
def lift (outcome : Except Fault α) : Traced α := ⟨[], outcome⟩

@[simp]
theorem outcome_pure (a : α) : (pure a : Traced α).outcome = .ok a := rfl

@[simp]
theorem outcome_tell (note : Note) : (tell note).outcome = .ok () := rfl

@[simp]
theorem outcome_lift (outcome : Except Fault α) : (lift outcome).outcome = outcome := rfl

/-- Seen without its notes, a traced sequence is the sequence of the outcomes. -/
@[simp]
theorem outcome_bind (x : Traced α) (f : α → Traced β) :
    (x >>= f).outcome = x.outcome.bind fun a => (f a).outcome := by
  change (andThen x f).outcome = _
  unfold andThen
  cases x.outcome <;> rfl

end Traced

end Workplan
