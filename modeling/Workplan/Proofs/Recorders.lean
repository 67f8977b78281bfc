import Workplan.Proofs.Histories
import Workplan.Proofs.Reactions

/-!
# What recorders hear

Who reacts to a change does so while the change is announced, and what follows is announced inside.
A recorder that was there before all who react has heard of a change before anything follows from
it, so what it hears is a history of the dates.  One behind a scheduler hears of what the scheduler
has done before it hears of what the scheduler has reacted to.

- `Desk.room`: how many announcements can be opened inside those that are open.
- `Desk.room_lt_announcementDepth`: there always is an announcement left for them.
- `Desk.Follows`: what a recorder has heard is a history, but for the events it is to hear yet.
- `Desk.follows_announce`, `Desk.Follows.step`: reactions and commands see to that.
- `Desk.heard_in_order`: what the recorders in front hear of a session.
-/

namespace Workplan

/-- Watchers that only put down what they hear. -/
def Watcher.IsRecorder (w : Watcher) : Prop := ∃ heard, w = .listener .recorder heard

/-! ## Room for announcements -/

/-- Announcements that can come from a run that is not open yet. -/
def Engine.room (e : Engine) : Nat := if e.state = .idle then 1 else 0

/-- Announcements that can still come from a watcher: from the run of a scheduler, or from a script
that was not carried out yet and from what it brings along. -/
def Watcher.room : Watcher → Nat
  | .listener _ _ => 0
  | .scheduler e => e.room
  | .script number heard commands =>
    if heard < number then 1 + Command.openingsOf commands else 0

theorem Engine.room_le_one (e : Engine) : e.room ≤ 1 := by
  unfold room
  split <;> omega

/-- No more announcements can come from a watcher than enlisting it opens. -/
theorem Watcher.room_le_openings (w : Watcher) : w.room ≤ w.openings := by
  cases w with
  | listener listener heard => exact le_rfl
  | scheduler e => exact e.room_le_one
  | script number heard commands =>
    simp only [room, openings]
    split <;> omega

theorem Command.openings_of_watcher {c : Command} {w : Watcher} (hc : c.watcher? = some w) :
    w.openings ≤ c.openings := by
  cases c <;> cases hc <;> simp [Watcher.openings, Command.openings]

/-- Announcements that can still come from some watchers. -/
def Watcher.roomOf : List Watcher → Nat
  | [] => 0
  | w :: ws => w.room + roomOf ws

namespace Watcher

variable {ws : List Watcher} {w : Watcher}

theorem roomOf_concat (ws : List Watcher) (w : Watcher) :
    roomOf (ws ++ [w]) = roomOf ws + w.room := by
  induction ws with
  | nil => exact Nat.add_comm w.room 0
  | cons v ws ih =>
    rw [List.cons_append, roomOf, roomOf, ih]
    omega

theorem roomOf_set {i : Nat} (h : ws[i]? = some w) (w' : Watcher) :
    roomOf (ws.set i w') + w.room = roomOf ws + w'.room := by
  induction ws generalizing i with
  | nil => cases h
  | cons v ws ih =>
    cases i with
    | zero =>
      cases h
      rw [List.set_cons_zero, roomOf, roomOf]
      omega
    | succ i =>
      have hrest := ih h
      rw [List.set_cons_succ, roomOf, roomOf]
      omega

/-- No more announcements can come from a list of watchers than enlisting them opens. -/
theorem roomOf_le (ws : List Watcher) (n : Nat) :
    n + roomOf ws ≤ (ws.map openings).foldl (· + ·) n := by
  induction ws generalizing n with
  | nil => exact le_rfl
  | cons v ws ih =>
    have hrest := ih (n + v.openings)
    have hfirst := v.room_le_openings
    rw [List.map_cons, List.foldl_cons, roomOf]
    omega

end Watcher

namespace Desk

open Act

/-- How many announcements can be opened inside those that are open. -/
def room (d : Desk) : Nat :=
  d.scheduler.room + d.recompute.room + Watcher.roomOf d.watchers

variable {d d' : Desk} {name : EngineName} {e : Engine} {w : Watcher} {position : Nat}

theorem room_setWatcher (h : d.watchers[position]? = some w) (w' : Watcher) :
    (d.setWatcher position w').room + w.room = d.room + w'.room := by
  have hwatchers := Watcher.roomOf_set h w'
  simp only [room, setWatcher]
  omega

/-- Where there is an engine, only its own room is another one. -/
theorem room_setEngine (d : Desk) (name : EngineName) (e : Engine) :
    (d.setEngine name e = d ∧ d.engine name = ⟨false, .idle⟩) ∨
      (d.setEngine name e).room + (d.engine name).room = d.room + e.room := by
  cases name with
  | scheduler =>
    refine .inr ?_
    simp only [room, setEngine, engine]
    omega
  | recompute =>
    refine .inr ?_
    simp only [room, setEngine, engine]
    omega
  | own position =>
    dsimp only [setEngine, engine]
    split
    · next old h => exact .inr (room_setWatcher h (.scheduler e))
    · exact .inl ⟨rfl, rfl⟩

theorem room_enlist (d : Desk) (w : Watcher) :
    ({ d with watchers := d.watchers ++ [w] } : Desk).room ≤ d.room + w.room := by
  simp only [room, Watcher.roomOf_concat]
  omega

/-- Switching an engine on or off opens no room. -/
theorem room_enable (d : Desk) (name : EngineName) (on : Bool) :
    (d.setEngine name { d.engine name with enabled := on }).room = d.room := by
  rcases room_setEngine d name { d.engine name with enabled := on } with ⟨hsame, -⟩ | hroom
  · rw [hsame]
  · have hidle : ({ d.engine name with enabled := on } : Engine).room = (d.engine name).room := rfl
    omega

/-- A run that is opened takes one announcement away. -/
theorem room_enter (hon : (d.engine name).enabled) (hidle : (d.engine name).state = .idle) :
    (d.setEngine name ⟨true, .running 1⟩).room + 1 = d.room := by
  rcases room_setEngine d name ⟨true, .running 1⟩ with ⟨-, hnone⟩ | hroom
  · rw [hnone] at hon
    cases hon
  · have hone : (d.engine name).room = 1 := if_pos hidle
    have hzero : (⟨true, .running 1⟩ : Engine).room = 0 := rfl
    omega

/-- One that is closed gives back no more. -/
theorem room_leave (d : Desk) (name : EngineName) (e : Engine) :
    (d.setEngine name e).room ≤ d.room + 1 := by
  have hone := e.room_le_one
  rcases room_setEngine d name e with ⟨hsame, -⟩ | hroom
  · rw [hsame]
    omega
  · omega

/-- **Whatever comes from the engines and watchers, one announcement more can be open.** -/
theorem room_lt_announcementDepth (d : Desk) : d.room < d.announcementDepth := by
  have hwatchers := Watcher.roomOf_le d.watchers 3
  have hscheduler := d.scheduler.room_le_one
  have hrecompute := d.recompute.room_le_one
  unfold room announcementDepth
  omega

/-! ## Recorders in front -/

/-- There is a recorder at a position and only recorders in front of it.  What it has heard, with
the events that it is to hear yet, tells how the dates have come from those in another project. -/
structure Follows (p₀ : Project) (position : Nat) (due : List Event) (d : Desk) : Prop where
  sound : d.project.Sound
  front : ∀ j < position, ∃ heard, d.watchers[j]? = some (.listener .recorder heard)
  history : ∃ heard, d.watchers[position]? = some (.listener .recorder heard) ∧
    Project.History (heard ++ due) p₀ d.project

/-- The recorder is up to date, and there is room for less than `k` announcements. -/
def FollowsWithin (p₀ : Project) (position k : Nat) (d : Desk) : Prop :=
  Follows p₀ position [] d ∧ d.room < k

variable {p₀ : Project} {k n : Nat} {due : List Event} {event : Event}

namespace Follows

/-- Only the project and the recorders matter. -/
theorem of_same (h : Follows p₀ position due d) (hproject : d'.project = d.project)
    (hsame : ∀ j ≤ position, ∀ heard, d.watchers[j]? = some (.listener .recorder heard) →
      d'.watchers[j]? = some (.listener .recorder heard)) : Follows p₀ position due d' where
  sound := hproject ▸ h.sound
  front j hj := by
    obtain ⟨heard, hheard⟩ := h.front j hj
    exact ⟨heard, hsame j hj.le heard hheard⟩
  history := by
    obtain ⟨heard, hheard, hhistory⟩ := h.history
    exact ⟨heard, hsame position le_rfl heard hheard, hproject ▸ hhistory⟩

theorem setEngine (h : Follows p₀ position due d) (name : EngineName) (e : Engine) :
    Follows p₀ position due (d.setEngine name e) := by
  refine h.of_same (setEngine_project d name e) fun j _ heard hj => ?_
  cases name with
  | scheduler => exact hj
  | recompute => exact hj
  | own other =>
    dsimp only [Desk.setEngine]
    split
    · next old hold =>
      have hne : other ≠ j := by
        rintro rfl
        rw [hj] at hold
        cases hold
      exact (List.getElem?_set_ne hne).trans hj
    · exact hj

/-- What happens to a later watcher leaves this one's trail alone. -/
theorem setWatcher_behind (h : Follows p₀ position due d) {j : Nat} (hj : position < j)
    (w : Watcher) : Follows p₀ position due (d.setWatcher j w) :=
  h.of_same rfl fun _ hi _ hold => (List.getElem?_set_ne (hi.trans_lt hj).ne').trans hold

theorem enlist (h : Follows p₀ position due d) (w : Watcher) :
    Follows p₀ position due { d with watchers := d.watchers ++ [w] } := by
  refine h.of_same rfl fun j _ heard hj => ?_
  have hlt : j < d.watchers.length := (List.getElem?_eq_some_iff.mp hj).1
  exact (List.getElem?_append_left hlt).trans hj

/-- An edit of the project is to be heard of yet. -/
theorem edit (h : Follows p₀ position [] d) {e : Edit} {r : Outcome}
    (he : d.project.edit e = .ok r) :
    Follows p₀ position r.event?.toList { d with project := r.project } where
  sound := h.sound.edit he
  front := h.front
  history := by
    obtain ⟨heard, hheard, hhistory⟩ := h.history
    rw [List.append_nil] at hhistory
    exact ⟨heard, hheard, hhistory.edit h.sound he⟩

end Follows

/-! ## Hearing of an event -/

/-- A recorder remembers an event and puts it down. -/
theorem hear_recorder {react : Reaction} {heard : List Event}
    (h : d.watchers[position]? = some (.listener .recorder heard)) :
    hear react event position d = (.ok (),
      (d.setWatcher position (.listener .recorder (heard ++ [event]))).happen (.heard event)) := by
  have hget : (get : Act Desk Desk) d = (.ok d, d) := rfl
  rw [hear, bind_of_ok hget, h]
  rfl

/-- Remembering an event takes no room. -/
theorem room_remember {listener : Listener} {heard : List Event}
    (h : d.watchers[position]? = some (.listener listener heard)) (heard' : List Event) :
    (d.setWatcher position (.listener listener heard')).room = d.room :=
  room_setWatcher h (.listener listener heard')

/-- A recorder in front has heard of an event. -/
theorem Follows.remember_front (h : Follows p₀ position due d) {j : Nat} (hj : j < position)
    (heard : List Event) :
    Follows p₀ position due (d.setWatcher j (.listener .recorder heard)) where
  sound := h.sound
  front i hi := by
    obtain ⟨heard', hheard⟩ := h.front i hi
    by_cases hij : j = i
    · subst hij
      exact ⟨heard, List.getElem?_set_self (List.getElem?_eq_some_iff.mp hheard).1⟩
    · exact ⟨heard', (List.getElem?_set_ne hij).trans hheard⟩
  history := by
    obtain ⟨heard', hheard, hhistory⟩ := h.history
    exact ⟨heard', (List.getElem?_set_ne hj.ne).trans hheard, hhistory⟩

/-- The recorder itself has heard of the event, and now is up to date. -/
theorem Follows.remember (h : Follows p₀ position [event] d) {heard : List Event}
    (hheard : d.watchers[position]? = some (.listener .recorder heard)) :
    Follows p₀ position [] (d.setWatcher position (.listener .recorder (heard ++ [event]))) where
  sound := h.sound
  front i hi := by
    obtain ⟨heard', hheard'⟩ := h.front i hi
    exact ⟨heard', (List.getElem?_set_ne hi.ne').trans hheard'⟩
  history := by
    obtain ⟨heard', hheard', hhistory⟩ := h.history
    cases hheard.symm.trans hheard'
    refine ⟨heard ++ [event], List.getElem?_set_self (List.getElem?_eq_some_iff.mp hheard).1, ?_⟩
    rwa [List.append_nil]

theorem forM_append_of_ok {α : Type} {f : α → Act Desk Unit} {as : List α}
    (h : as.forM f d = (.ok (), d')) (bs : List α) : (as ++ bs).forM f d = bs.forM f d' := by
  rw [List.forM_eq_forM] at h ⊢
  rw [List.forM_append, bind_of_ok h]

/-- The recorders in front hear of an event, and nothing else happens. -/
theorem hear_front (react : Reaction) (event : Event) (h : Follows p₀ position due d) {j : Nat}
    (hj : j ≤ position) :
    ∃ d', (List.range j).forM (hear react event) d = (.ok (), d') ∧ Follows p₀ position due d' ∧
      d'.room = d.room := by
  induction j with
  | zero => exact ⟨d, rfl, h, rfl⟩
  | succ j ih =>
    obtain ⟨d₁, hbefore, hfollows, hroom⟩ := ih (Nat.le_of_succ_le hj)
    obtain ⟨heard, hheard⟩ := hfollows.front j hj
    set d₂ := d₁.setWatcher j (.listener .recorder (heard ++ [event]))
    refine ⟨d₂.happen (.heard event), ?_, ?_, ?_⟩
    · rw [List.range_succ, forM_append_of_ok hbefore]
      exact bind_of_ok (hear_recorder hheard)
    · exact (hfollows.remember_front hj (heard ++ [event])).of_same rfl fun _ _ _ hold => hold
    · exact (room_remember hheard (heard ++ [event])).trans hroom

/-! ## Engines, commands and watchers behind -/

theorem FollowsWithin.mono {k' : Nat} (h : FollowsWithin p₀ position k d) (hk : k ≤ k') :
    FollowsWithin p₀ position k' d :=
  ⟨h.1, h.2.trans_le hk⟩

/-- Following does not see the desk's other bookkeeping. -/
theorem essential_followsWithin : Essential (FollowsWithin p₀ position k) where
  aside _ _ hd := ⟨hd.1.of_same rfl fun _ _ _ hold => hold, hd.2⟩
  enable name on hd := ⟨hd.1.setEngine name _, (room_enable _ name on).trans_lt hd.2⟩

/-- A run takes away an announcement while it is open. -/
theorem opens_followsWithin :
    Opens (FollowsWithin p₀ position k) (FollowsWithin p₀ position (k - 1)) where
  enter {d name} hd hon hidle := by
    have hroom := room_enter hon hidle
    have hlt := hd.2
    exact ⟨hd.1.setEngine name _, by omega⟩
  leave {d} name hd := by
    have hroom := room_leave d name { d.engine name with state := (d.engine name).state.leave }
    have hlt := hd.2
    exact ⟨hd.1.setEngine name _, by omega⟩

section

-- all that follows from a change is announced, as long as there is room
variable (hedits : ∀ k ≤ n, KeptByEdits (announce n) (FollowsWithin p₀ position k))
include hedits

/-- Runs of the engines keep the trail followed, as long as the nesting allows for the room
left. -/
theorem keptByRuns_followsWithin (hk : k ≤ n + 1) :
    KeptByRuns (announce n) (FollowsWithin p₀ position k) :=
  keptByRuns essential_followsWithin essential_followsWithin opens_followsWithin
    (hedits (k - 1) (by omega))

/-- A command keeps the trail followed, within the room it opens. -/
theorem followsWithin_perform (c : Command) (hk : k ≤ n) (hd : FollowsWithin p₀ position k d) :
    FollowsWithin p₀ position (k + c.openings) (perform (announce n) c d).2 := by
  cases hc : c.watcher? with
  | none =>
    have hruns := keptByRuns_followsWithin hedits (hk.trans n.le_succ)
    exact (keeps_perform essential_followsWithin hruns (hedits k hk) hc d hd).mono (by omega)
  | some w =>
    have hw := w.room_le_openings.trans (Command.openings_of_watcher hc)
    rw [perform_of_watcher hc]
    exact ⟨hd.1.enlist w, (room_enlist d w).trans_lt (Nat.add_lt_add_of_lt_of_le hd.2 hw)⟩

/-- Commands in a row keep the trail followed, within the room they open together. -/
theorem followsWithin_mapM (commands : List Command)
    (hk : k + Command.openingsOf commands ≤ n) (hd : FollowsWithin p₀ position k d) :
    FollowsWithin p₀ position (k + Command.openingsOf commands)
      (commands.mapM (perform (announce n)) d).2 := by
  induction commands generalizing d k with
  | nil => exact hd
  | cons c commands ih =>
    rw [Command.openingsOf, ← Nat.add_assoc] at hk ⊢
    have hfirst := followsWithin_perform hedits c (by omega) hd
    rw [List.mapM_cons]
    refine bind_snd (fun _ h => h.mono (Nat.le_add_right _ _)) hfirst fun answer d₁ h₁ => ?_
    exact bind_snd (fun _ h => h) (ih hk h₁) fun answers d₂ h₂ => h₂

/-- What is behind the recorder may react as it likes. -/
theorem keeps_hear_behind (hk : k ≤ n + 1) {j : Nat} (hj : position < j) :
    Keeps (FollowsWithin p₀ position k) (hear (announce n) event j) := by
  have hruns := keptByRuns_followsWithin hedits hk
  refine keeps_get_bind fun d hd => ?_
  rcases hw : d.watchers[j]? with _ | ⟨listener, heard⟩ | ⟨e⟩ | ⟨number, heard, commands⟩
  · exact hd
  · refine keeps_listen essential_followsWithin hruns event listener _ ?_
    exact ⟨hd.1.setWatcher_behind hj _, (room_remember hw _).trans_lt hd.2⟩
  · exact keeps_reschedule essential_followsWithin hruns _ event d hd
  · set d₁ := d.setWatcher j (.script number (heard + 1) commands) with hd₁
    have hfollows : Follows p₀ position [] d₁ := hd.1.setWatcher_behind hj _
    have hlt := hd.2
    have hroom := room_setWatcher hw (.script number (heard + 1) commands)
    rw [← hd₁] at hroom
    have hmodify : (modify fun d => d.setWatcher j (.script number (heard + 1) commands) :
        Act Desk Unit) d = (.ok (), d₁) := rfl
    dsimp only
    rw [bind_of_ok hmodify]
    by_cases hnow : heard + 1 = number
    · -- the script gives up what it and the watchers that it brings along may open
      have hbefore : (Watcher.script number heard commands).room =
          1 + Command.openingsOf commands := if_pos (by omega)
      have hafter : (Watcher.script number (heard + 1) commands).room = 0 := if_neg (by omega)
      have hrest : FollowsWithin p₀ position (k - 1 - Command.openingsOf commands) d₁ :=
        ⟨hfollows, by omega⟩
      have hscript := followsWithin_mapM hedits commands (by omega) hrest
      rw [if_pos hnow]
      refine bind_snd (fun _ h => h.mono (by omega)) hscript fun answers d₂ h₂ => ?_
      exact essential_followsWithin.keeps_putDown _ d₂ (h₂.mono (by omega))
    · have hless : (Watcher.script number (heard + 1) commands).room ≤
          (Watcher.script number heard commands).room := by
        simp only [Watcher.room]
        split_ifs <;> omega
      have hroom₁ : d₁.room < k := by omega
      rw [if_neg hnow]
      exact ⟨hfollows, hroom₁⟩

end

/-- An edit keeps the recorder up to date if its announcement does. -/
theorem keptByEdits_of_announce {react : Reaction}
    (hreact : ∀ {event d}, Follows p₀ position [event] d → d.room < k →
      FollowsWithin p₀ position k (react event d).2) :
    KeptByEdits react (FollowsWithin p₀ position k) := by
  intro d e r hd he α reply
  have hdue := hd.1.edit he
  cases hevent : r.event? with
  | none =>
    rw [hevent] at hdue
    exact ⟨hdue, hd.2⟩
  | some event =>
    rw [hevent] at hdue
    rw [accept_some]
    exact hreact hdue hd.2

/-- **An event is heard by the recorder before anything follows from it.** -/
theorem follows_announce (n : Nat) {k : Nat} (hk : k ≤ n) {event : Event}
    (hd : Follows p₀ position [event] d) (hroom : d.room < k) :
    FollowsWithin p₀ position k (announce n event d).2 := by
  induction n generalizing k event d with
  | zero => omega
  | succ n ih =>
    have hedits : ∀ k ≤ n, KeptByEdits (announce n) (FollowsWithin p₀ position k) :=
      fun k hk => keptByEdits_of_announce fun hd hroom => ih hk hd hroom
    obtain ⟨heard, hheard, -⟩ := hd.history
    -- the recorders in front, the recorder itself, and what is behind it
    obtain ⟨behind, hlength⟩ := Nat.exists_eq_add_of_lt (List.getElem?_eq_some_iff.mp hheard).1
    have hget : (get : Act Desk Desk) d = (.ok d, d) := rfl
    rw [announce, bind_of_ok hget, hlength, Nat.add_right_comm, List.range_add, List.range_succ]
    obtain ⟨d₁, hfront, hfollows, hsame⟩ := hear_front (announce n) event hd le_rfl
    obtain ⟨heard, hheard, hhistory⟩ := hfollows.history
    set d₂ := d₁.setWatcher position (.listener .recorder (heard ++ [event])) with hd₂
    have hself : (List.range position ++ [position]).forM (hear (announce n) event) d =
        (.ok (), d₂.happen (.heard event)) := by
      rw [forM_append_of_ok hfront]
      exact bind_of_ok (hear_recorder hheard)
    have hroom₂ : d₂.room = d.room := (room_remember hheard _).trans hsame
    have hfollows₂ : FollowsWithin p₀ position k (d₂.happen (.heard event)) :=
      essential_followsWithin.aside _ _ ⟨hfollows.remember hheard, hroom₂.trans_lt hroom⟩
    rw [forM_append_of_ok hself]
    refine keeps_forM (fun j hj => ?_) _ hfollows₂
    obtain ⟨i, -, rfl⟩ := List.mem_map.mp hj
    exact keeps_hear_behind hedits hk (by omega)

/-! ## Sessions -/

/-- The recorder is up to date after every command. -/
theorem Follows.step (h : Follows p₀ position [] d) (c : Command) :
    Follows p₀ position [] (d.step c).2 := by
  set d₀ : Desk := { d with outbox := .empty }
  set n := d.announcementDepth
  have hd₀ : FollowsWithin p₀ position n d₀ :=
    ⟨h.of_same rfl fun _ _ _ hold => hold, d.room_lt_announcementDepth⟩
  have hedits : ∀ k ≤ n, KeptByEdits (announce n) (FollowsWithin p₀ position k) :=
    fun k hk => keptByEdits_of_announce (follows_announce n hk)
  exact (followsWithin_perform hedits c le_rfl hd₀).1

/-- A recorder follows its trail through any list of commands. -/
theorem Follows.after (h : Follows p₀ position [] d) (commands : List Command) :
    Follows p₀ position [] (d.after commands) := by
  induction commands generalizing d with
  | nil => exact h
  | cons c commands ih => exact ih (h.step c)

/-- A recorder that joins other recorders has heard of nothing yet. -/
theorem follows_listen (hd : d.project.Sound) (hfirst : ∀ w ∈ d.watchers, w.IsRecorder) :
    Follows d.project d.watchers.length [] (d.step (.listen .recorder)).2 where
  sound := hd
  front j hj := by
    obtain ⟨heard, hheard⟩ := hfirst d.watchers[j] (List.getElem_mem hj)
    refine ⟨heard, (List.getElem?_append_left hj).trans ?_⟩
    rw [List.getElem?_eq_getElem hj, hheard]
  history := ⟨[], List.getElem?_concat_length, Project.history_nil hd⟩

/-- What the listener at a position has heard. -/
def heard (d : Desk) (position : Nat) : List Event :=
  match d.watchers[position]? with
  | some (.listener _ events) => events
  | _ => []

/-- **What a recorder in front hears is in order.**  It has joined when all others were recorders,
so whoever reacts to changes comes behind it.  Then the moves of a task that it has heard of since,
one setting out from where the one before has arrived, lead from the dates that the task had when it
joined, if it was there, to those that the task has now, if it is there, whatever the others do
meanwhile. -/
theorem heard_in_order {setup : Setup} {before commands : List Command} {d₀ : Desk}
    {position : Nat} (hd₀ : d₀ = (new setup).after before)
    (hfront : ∀ w ∈ d₀.watchers, w.IsRecorder) (hposition : position = d₀.watchers.length)
    (hd : d = d₀.after (.listen .recorder :: commands)) :
    d.watchers[position]? = some (.listener .recorder (d.heard position)) ∧
      ∀ x, ∃ a b, Leads (moves x (d.heard position)) a b ∧
        (∀ t, d₀.project.task? x = some t → a = t.dates) ∧
        ∀ t, d.project.task? x = some t → b = t.dates := by
  have hsound : d₀.project.Sound := by
    rw [hd₀]
    exact (reachable_after setup before).sound
  have hfollows : Follows d₀.project position [] d := by
    rw [hd, hposition]
    exact (follows_listen hsound hfront).after commands
  obtain ⟨events, hevents, hhistory⟩ := hfollows.history
  have hheard : d.heard position = events := by
    rw [heard, hevents]
  rw [List.append_nil] at hhistory
  rw [hheard]
  exact ⟨hevents, hhistory.leads⟩

/-- A survey of two days, and walls of one day that follow it. -/
def wallsDesk : Desk :=
  (new ⟨.standard, 0, false, false, true, true⟩).after [
    .edit (.addTask "survey" (Day.first.advance 4) (.days 2)),
    .edit (.addTask "walls" (Day.first.advance 6) (.days 1)),
    .edit (.addDependency ⟨1⟩ ⟨2⟩ .finishStart .strong 0)]

/-- When two others have joined, the walls are sent to the start of the survey. -/
def pushedDesk (first second : Command) : Desk :=
  wallsDesk.after [
    first,
    second,
    .edit (.change (.revise ⟨2⟩ { start? := some (Day.first.advance 4) }))]

/-- A recorder in front of a scheduler hears that the walls are sent to the survey, and then that
they are sent back behind it. -/
theorem heard_in_order_pushedDesk :
    moves ⟨2⟩ ((pushedDesk (.listen .recorder) (.listen .scheduler)).heard 0) = [
        ⟨(Day.first.advance 6, Day.first.advance 7), (Day.first.advance 4, Day.first.advance 7)⟩,
        ⟨(Day.first.advance 4, Day.first.advance 7), (Day.first.advance 6, Day.first.advance 9)⟩] ∧
      ∀ t, (pushedDesk (.listen .recorder) (.listen .scheduler)).project.task? ⟨2⟩ = some t →
        t.dates = (Day.first.advance 6, Day.first.advance 9) := by
  have hmoves : moves ⟨2⟩ ((pushedDesk (.listen .recorder) (.listen .scheduler)).heard 0) = [
      ⟨(Day.first.advance 6, Day.first.advance 7), (Day.first.advance 4, Day.first.advance 7)⟩,
      ⟨(Day.first.advance 4, Day.first.advance 7), (Day.first.advance 6, Day.first.advance 9)⟩] :=
    by decide +kernel
  have hnobody : wallsDesk.watchers.length = 0 := by decide +kernel
  have hfront : ∀ w ∈ wallsDesk.watchers, w.IsRecorder := by
    rw [List.length_eq_zero_iff.mp hnobody]
    exact List.forall_mem_nil _
  have hwalls : wallsDesk = (new ⟨.standard, 0, false, false, true, true⟩).after _ := rfl
  have hpushed : pushedDesk (.listen .recorder) (.listen .scheduler) =
      wallsDesk.after (.listen .recorder :: _) := rfl
  obtain ⟨-, hinorder⟩ := heard_in_order hwalls hfront hnobody.symm hpushed
  obtain ⟨a, b, hleads, -, hafter⟩ := hinorder ⟨2⟩
  rw [hmoves, leads_cons, leads_cons, leads_nil] at hleads
  exact ⟨hmoves, fun t ht => (hafter t ht).symm.trans hleads.2.2.symm⟩

/-- One behind the scheduler hears of it the other way round: no move sets out from where the one
before has arrived, and what it has heard last is not where the walls are. -/
theorem heard_pushedDesk :
    moves ⟨2⟩ ((pushedDesk (.listen .scheduler) (.listen .recorder)).heard 1) = [
        ⟨(Day.first.advance 4, Day.first.advance 7), (Day.first.advance 6, Day.first.advance 9)⟩,
        ⟨(Day.first.advance 6, Day.first.advance 7), (Day.first.advance 4, Day.first.advance 7)⟩] ∧
      (¬ ∃ a b, Leads (moves ⟨2⟩
        ((pushedDesk (.listen .scheduler) (.listen .recorder)).heard 1)) a b) ∧
      ((pushedDesk (.listen .scheduler) (.listen .recorder)).project.task? ⟨2⟩).map Task.dates =
        some (Day.first.advance 6, Day.first.advance 9) := by
  have hmoves : moves ⟨2⟩ ((pushedDesk (.listen .scheduler) (.listen .recorder)).heard 1) = [
      ⟨(Day.first.advance 4, Day.first.advance 7), (Day.first.advance 6, Day.first.advance 9)⟩,
      ⟨(Day.first.advance 6, Day.first.advance 7), (Day.first.advance 4, Day.first.advance 7)⟩] :=
    by decide +kernel
  refine ⟨hmoves, ?_, by decide +kernel⟩
  rintro ⟨a, b, hleads⟩
  rw [hmoves, leads_cons, leads_cons] at hleads
  exact absurd hleads.2.1 (by decide +kernel)

end Desk

end Workplan
