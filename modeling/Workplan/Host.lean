import Workplan.Journal.Traced
import Workplan.Project.Change

/-!
# Where engines work

An engine reads a project, commits changes to it and tells notes.  A `Host` gives these three
for some state, so that one engine works on a lone project as well as on one that others
watch and react to.

* `Host` — reading, committing and telling over a state.
* `Act` — an action over that state, which can be refused.
* `Host.alone` — a project that nobody watches.
-/

namespace Workplan

/-- How an engine gets at a project inside a state. -/
structure Host (σ : Type) where
  /-- The project as it is. -/
  view : σ → Project
  /-- Carries out a change, and whatever follows from it. -/
  commit : Change → σ → Except Fault Bool × σ
  /-- Tells a note. -/
  note : Note → σ → σ

/-- An action over a state.  What was done before a fault stays done. -/
abbrev Act (σ : Type) := ExceptT Fault (StateM σ)

namespace Host

variable {σ α : Type}

/-- A project that nobody watches. -/
def alone : Host Project where
  view p := p
  commit c p :=
    match p.change c with
    | .ok r => (.ok r.changed, r.project)
    | .error fault => (.error fault, p)
  note _ p := p

/-- Reads something off the project. -/
def read (h : Host σ) (f : Project → α) : Act σ α := fun s => (.ok (f (h.view s)), s)

/-- Reads something off the project that can be refused. -/
def ask (h : Host σ) (f : Project → Except Fault α) : Act σ α := fun s => (f (h.view s), s)

/-- Carries out a change; the answer is whether the task is different now. -/
def change (h : Host σ) (c : Change) : Act σ Bool := fun s => h.commit c s

/-- Tells a note. -/
def tell (h : Host σ) (note : Note) : Act σ Unit := fun s => (.ok (), h.note note s)

/-- Tells several notes. -/
def tellAll (h : Host σ) (notes : List Note) : Act σ Unit :=
  fun s => (.ok (), notes.foldl (fun s note => h.note note s) s)

/-- Makes a reckoning about the project and tells its notes. -/
def reckon (h : Host σ) (f : Project → Traced α) : Act σ α := do
  let result ← h.read f
  h.tellAll result.notes
  h.ask fun _ => result.outcome

/-- The outcome of an action as a value, except that an overflow ends everything. -/
def attempt (act : Act σ α) : Act σ (Except Fault α) := fun s =>
  match act s with
  | (.error .overflow, s) => (.error .overflow, s)
  | (outcome, s) => (.ok outcome, s)

end Host

end Workplan
