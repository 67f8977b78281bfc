import Workplan.Proofs.Sound

/-!
# Histories of dates

An event tells from which dates a task was moved to which.  The events of a project, in the order in
which they were made, are a history of the dates of each task: they lead from the dates that it had
before the first one to those that it has after the last one.

- `Move`, `moves`: the moves of one task that some events tell of.
- `Leads`: moves that lead from some dates to others.
- `Project.History`: the events between two states of a project.
- `Project.History.edit`: an edit adds its event to the history.
-/

namespace Workplan

/-- Start and end of a task. -/
def Task.dates (t : Task) : Day × Day := (t.start, t.finish)

/-- The dates of a task before and after a change. -/
structure Move where
  /-- Before. -/
  source : Day × Day
  /-- After. -/
  target : Day × Day
deriving DecidableEq

/-- The move of a task that an event tells of. -/
def Event.move? (x : TaskId) : Event → Option Move
  | .datesChanged task oldStart oldFinish newStart newFinish =>
    if task = x then some ⟨(oldStart, oldFinish), (newStart, newFinish)⟩ else none
  | .graphChanged => none

/-- The moves of a task that some events tell of, in this order. -/
def moves (x : TaskId) (events : List Event) : List Move := events.filterMap (Event.move? x)

/-- The moves lead from some dates to others: each sets out from where the one before arrives. -/
inductive Leads : List Move → Day × Day → Day × Day → Prop
  /-- Without moves, all stays as it is. -/
  | still (a : Day × Day) : Leads [] a a
  /-- A move comes first. -/
  | move (m : Move) {ms : List Move} {b : Day × Day} (h : Leads ms m.target b) :
    Leads (m :: ms) m.source b

variable {x : TaskId} {events : List Event} {m : Move} {ms : List Move} {a b : Day × Day}

@[simp] theorem leads_nil : Leads [] a b ↔ a = b := by
  constructor
  · rintro ⟨⟩
    rfl
  · rintro rfl
    exact .still a

@[simp] theorem leads_cons : Leads (m :: ms) a b ↔ m.source = a ∧ Leads ms m.target b := by
  constructor
  · rintro ⟨⟩
    next h => exact ⟨rfl, h⟩
  · rintro ⟨rfl, h⟩
    exact .move m h

/-- One move more leads farther. -/
theorem Leads.concat (h : Leads ms a b) (c : Day × Day) : Leads (ms ++ [⟨b, c⟩]) a c := by
  induction h with
  | still a => exact .move ⟨a, c⟩ (.still c)
  | move m _ ih => exact .move m ih

/-- Only moves of the task itself lengthen its trail. -/
theorem moves_append_of_none {event : Event} (h : event.move? x = none) :
    moves x (events ++ [event]) = moves x events := by
  simp [moves, List.filterMap_append, h]

/-- An announced move of the task ends its trail. -/
theorem moves_append_of_some {event : Event} (h : event.move? x = some m) :
    moves x (events ++ [event]) = moves x events ++ [m] := by
  simp [moves, List.filterMap_append, h]

namespace Project

variable {p₀ p q : Project} {id : TaskId} {old new : Task}

/-- The events tell how the dates in one project have come from those in another.  The moves of each
task lead from its old dates to its new ones, as far as it was or is there. -/
structure History (events : List Event) (p₀ p : Project) : Prop where
  leads : ∀ x, ∃ a b, Leads (moves x events) a b ∧
    (∀ t, p₀.task? x = some t → a = t.dates) ∧ ∀ t, p.task? x = some t → b = t.dates
  known : ∀ x, moves x events ≠ [] ∨ p₀.contains x → x.number ≤ p.tasksAdded

/-- No key runs ahead of the counter of tasks added. -/
theorem Sound.number_le (hp : p.Sound) {t : Task} (ht : p.task? x = some t) :
    x.number ≤ p.tasksAdded := by
  rw [← id_of_task? ht]
  exact hp.numbered t (mem_of_task? ht)

/-- Without events, all dates are as they were. -/
theorem history_nil (hp : p.Sound) : History [] p p where
  leads x := by
    cases ht : p.task? x with
    | none => exact ⟨(Day.first, Day.first), (Day.first, Day.first), .still _, nofun, nofun⟩
    | some t =>
      have hdates : ∀ u, some t = some u → t.dates = u.dates :=
        fun u hu => congrArg Task.dates (Option.some.inj hu)
      exact ⟨t.dates, t.dates, .still _, hdates, hdates⟩
  known x hx := by
    obtain ⟨t, ht⟩ := Option.isSome_iff_exists.mp (hx.resolve_left fun h => h rfl)
    exact hp.number_le ht

namespace History

variable (h : History events p₀ p)
include h

/-- Tasks may go, and new ones come with numbers that were not given out before. -/
theorem of_rows (hadded : p.tasksAdded ≤ q.tasksAdded)
    (hrows : ∀ x t, q.task? x = some t →
      (∃ u, p.task? x = some u ∧ u.dates = t.dates) ∨ p.tasksAdded < x.number) :
    History events p₀ q where
  leads x := by
    obtain ⟨a, b, hleads, hbefore, hafter⟩ := h.leads x
    cases ht : q.task? x with
    | none => exact ⟨a, b, hleads, hbefore, nofun⟩
    | some t =>
      rcases hrows x t ht with ⟨u, hu, hdates⟩ | hnew
      · refine ⟨a, b, hleads, hbefore, fun v hv => ?_⟩
        cases hv
        exact (hafter u hu).trans hdates
      · -- nobody has told of a task that is new
        have hnever : ¬ (moves x events ≠ [] ∨ p₀.contains x) :=
          fun hx => absurd (h.known x hx) (not_le.mpr hnew)
        rw [not_or, not_not] at hnever
        refine ⟨t.dates, t.dates, ?_, fun u hu => ?_, fun v hv => ?_⟩
        · rw [hnever.1]
          exact .still t.dates
        · exact absurd (by rw [contains, hu]; rfl) hnever.2
        · cases hv
          rfl
  known x hx := (h.known x hx).trans hadded

/-- What leaves the rows and the counter alone leaves every trail as it is. -/
theorem of_same (htasks : q.tasks = p.tasks) (hadded : q.tasksAdded = p.tasksAdded) :
    History events p₀ q := by
  refine h.of_rows hadded.ge fun x t ht => .inl ⟨t, ?_, rfl⟩
  rwa [task?, ← htasks]

/-- A change of structure is announced without a date and lengthens no trail. -/
theorem graphChanged : History (events ++ [.graphChanged]) p₀ p := by
  have hmoves : ∀ x, moves x (events ++ [.graphChanged]) = moves x events :=
    fun x => moves_append_of_none rfl
  constructor
  · simpa only [hmoves] using h.leads
  · simpa only [hmoves] using h.known

/-- A task is moved, and the event tells of that. -/
theorem datesChanged (hp : p.Sound) (hold : p.task? id = some old) (hid : new.id = old.id) :
    History (events ++ [.datesChanged id old.start old.finish new.start new.finish]) p₀
      (p.replace new) := by
  set event : Event := .datesChanged id old.start old.finish new.start new.finish with hevent
  have hself : moves id (events ++ [event]) = moves id events ++ [⟨old.dates, new.dates⟩] :=
    moves_append_of_some (if_pos rfl)
  have hother : ∀ {x}, x ≠ id → moves x (events ++ [event]) = moves x events :=
    fun hx => moves_append_of_none (if_neg hx.symm)
  have hnew : (p.replace new).task? id = some new := task?_replace_self hold hid
  have hnewid : new.id = id := hid.trans (id_of_task? hold)
  constructor
  · intro x
    obtain ⟨a, b, hleads, hbefore, hafter⟩ := h.leads x
    by_cases hx : x = id
    · subst hx
      rw [hself, ← hafter old hold]
      refine ⟨a, new.dates, hleads.concat new.dates, hbefore, fun t ht => ?_⟩
      cases hnew.symm.trans ht
      rfl
    · rw [hother hx, task?_replace_of_ne (by rwa [hnewid])]
      exact ⟨a, b, hleads, hbefore, hafter⟩
  · intro x hx
    by_cases hx' : x = id
    · subst hx'
      exact hp.number_le hold
    · rw [hother hx'] at hx
      exact h.known x hx

end History

/-! ## Edits -/

namespace History

variable (hp : p.Sound) (h : History events p₀ p)
include hp h

/-- A write that announces its move keeps the history: the trail ends at the new dates. -/
theorem writes {done : Changed} (hdone : p.Writes id done) :
    History (events ++ done.event?.toList) p₀ done.project := by
  obtain ⟨old, start, finish, duration, anchor?, hold, -, hwrite⟩ := hdone
  rw [write] at hwrite
  split at hwrite
  · cases hwrite
  rw [get_of_task? hold] at hwrite
  cases hwrite
  dsimp only
  set new : Task := { old with start, finish, duration, anchor := anchor?.getD old.anchor }
  have hid : new.id = old.id := rfl
  have hnewid : new.id = id := hid.trans (id_of_task? hold)
  split
  · exact h.datesChanged hp hold hid
  · next hsame =>
    rw [not_or, not_not, not_not] at hsame
    rw [Option.toList_none, List.append_nil]
    refine h.of_rows le_rfl fun x t ht => .inl ?_
    by_cases hx : x = id
    · subst hx
      cases (task?_replace_self hold hid).symm.trans ht
      exact ⟨old, hold, Prod.ext hsame.1 hsame.2⟩
    · rw [task?_replace_of_ne (by rwa [hnewid])] at ht
      exact ⟨t, ht, rfl⟩

theorem change {k : Change} {done : Changed} (hdone : p.change k = .ok done) :
    History (events ++ done.event?.toList) p₀ done.project := by
  rcases writes_of_change hdone with rfl | hwrites
  · rwa [Option.toList_none, List.append_nil]
  · exact h.writes hp hwrites

/-- A new task has no trail yet, since its key is new. -/
theorem insertTask {name : String} {start finish : Day} {duration : Duration} {milestone : Bool}
    (hinsert : p.insertTask name start finish duration milestone = .ok (id, q)) :
    History events p₀ q := by
  obtain ⟨rfl, -, keys, -, rfl⟩ := exists_of_insertTask hinsert
  refine h.of_rows (Nat.le_succ _) fun x t ht => ?_
  have hx := id_of_task? ht
  rcases List.mem_append.mp (mem_of_task? ht) with hmem | hmem
  · rw [← hx]
    exact .inl ⟨t, hp.task?_of_mem hmem, rfl⟩
  · rw [List.mem_singleton.mp hmem] at hx
    rw [← hx]
    exact .inr (Nat.lt_succ_self _)

/-- **An edit adds its event to the history.** -/
theorem edit {e : Edit} {r : Outcome} (he : p.edit e = .ok r) :
    History (events ++ r.event?.toList) p₀ r.project := by
  cases e with
  | addTask name start duration =>
    obtain ⟨⟨id, q⟩, hq, rfl⟩ := exists_of_map_eq_ok he
    obtain ⟨finish, -, hinsert⟩ := exists_of_bind_eq_ok hq
    rw [Option.toList_none, List.append_nil]
    exact h.insertTask hp hinsert
  | addMilestone name day =>
    obtain ⟨⟨id, q⟩, hq, rfl⟩ := exists_of_map_eq_ok he
    rw [Option.toList_none, List.append_nil]
    exact h.insertTask hp hq
  -- a removed task keeps its trail, which nothing can lengthen any more
  | removeTask id =>
    obtain ⟨q, hq, rfl⟩ := exists_of_map_eq_ok he
    obtain ⟨old, doomed, -, -, rfl⟩ := exists_of_removeTask hq
    refine History.graphChanged (h.of_rows le_rfl fun x t ht => .inl ⟨t, ?_, rfl⟩)
    rw [← id_of_task? ht]
    exact hp.task?_of_mem (List.mem_of_mem_filter (mem_of_task? ht))
  | place child parent =>
    obtain ⟨q, hq, rfl⟩ := exists_of_map_eq_ok he
    obtain ⟨-, -, -, rfl⟩ := exists_of_place hq
    exact History.graphChanged (h.of_same rfl rfl)
  | addDependency dependee dependant kind hardness lag =>
    obtain ⟨⟨id, q⟩, hq, rfl⟩ := exists_of_map_eq_ok he
    obtain ⟨-, -, -, -, -, -, -, rfl⟩ := exists_of_addDependency hq
    exact History.graphChanged (h.of_same rfl rfl)
  | removeDependency id =>
    obtain ⟨q, hq, rfl⟩ := exists_of_map_eq_ok he
    obtain ⟨-, rfl⟩ := exists_of_removeDependency hq
    exact History.graphChanged (h.of_same rfl rfl)
  | change k =>
    obtain ⟨done, hdone, rfl⟩ := exists_of_map_eq_ok he
    exact h.change hp hdone

end History

end Project

end Workplan
