import Workplan.Proofs.Workdays

/-!
# Walks over working days

A walk forward or backward over as many working days as lie between two days gets from one to
the other, but for days off on the way.

- `Calendar.ahead_workdaysBetween`, `Calendar.behind_workdaysBetween`: the two directions.
- `Calendar.le_shiftDays`, `Calendar.shiftDays_lt`: which way a walk goes.
- `Calendar.WalkStaysInside`: a walk is not cut off at an end of the line.
- `Calendar.walkByDay`: a move as one loop that goes day by day and counts the days off in a row;
  `Calendar.shiftDays_eq_walkByDay`.
-/

namespace Workplan.Calendar

variable {c : Calendar}

/-! ## Walks forward -/

theorem le_ahead (n : Nat) (d : Day) : d ≤ c.ahead n d := by
  have hfound : ∀ (n : Nat) (d w : Day), c.workdayFrom? n d = some w → d ≤ w := by
    intro n
    induction n with
    | zero => intro d w h; cases h
    | succ n ih =>
      intro d w h
      simp only [workdayFrom?] at h
      split at h
      · cases h
        exact le_rfl
      · exact (Day.le_next d).trans (ih d.next w h)
  induction n generalizing d with
  | zero => exact le_rfl
  | succ n ih =>
    simp only [ahead]
    split
    · next w hw => exact (hfound _ d w hw).trans ((Day.le_next w).trans (ih w.next))
    · have := d.ordinal_lt
      rw [Day.le_def, Day.ordinal_advance]
      omega

/-- The search onwards finds the next workday if it lies within its steps. -/
theorem workdayFrom?_eq {n : Nat} {d w : Day} (h : c.IsNextWorkday d w)
    (hn : w.ordinal < d.ordinal + n) : c.workdayFrom? n d = some w := by
  induction n generalizing d with
  | zero =>
    have := h.le
    rw [Day.le_def] at this
    omega
  | succ n ih =>
    rw [workdayFrom?]
    split
    · next hd => rw [(isNextWorkday_self hd).eq h]
    · next hd =>
      obtain ⟨hlt, hnext⟩ := h.next hd
      refine ih hnext ?_
      rw [Day.ordinal_next_of_lt hlt]
      omega

/-- A walk forward over one more working day first goes past the next one. -/
theorem ahead_succ (hc : c.GapsBelowHorizon) {d w : Day} (h : c.IsNextWorkday d w) (n : Nat) :
    c.ahead (n + 1) d = c.ahead n w.next := by
  rw [ahead, workdayFrom?_eq h (hc.idle_lt h.idle)]

/-- The walk forward over the working days before `b` does not get past `b`, and leaves only
days off before it. -/
theorem ahead_workdaysBetween (hc : c.GapsBelowHorizon) {a b : Day} (h : a ≤ b) :
    c.ahead (c.workdaysBetween a b) a ≤ b ∧
      c.IdleBetween (c.ahead (c.workdaysBetween a b) a) b := by
  refine Day.upward (P := fun a => c.ahead (c.workdaysBetween a b) a ≤ b ∧
    c.IdleBetween (c.ahead (c.workdaysBetween a b) a) b) ?_ (fun a hab ih => ?_) h
  · rw [workdaysBetween_of_le le_rfl]
    exact ⟨le_rfl, idleBetween_of_le le_rfl⟩
  · rw [workdaysBetween_next hab]
    by_cases ha : c.isWorking a
    · rw [if_pos ha, Nat.add_comm, ahead_succ hc (isNextWorkday_self ha)]
      exact ih
    · rw [if_neg ha, Nat.zero_add]
      cases hk : c.workdaysBetween a.next b with
      | zero =>
        rw [hk] at ih
        refine ⟨hab.le, fun x hx hxb => ?_⟩
        rcases eq_or_lt_of_le hx with rfl | hlt
        · exact ha
        · exact ih.2 x ((Day.next_le_iff hab x).mpr hlt) hxb
      | succ k =>
        -- the next working day is the same from `a` and from the day after it
        rw [hk] at ih
        have hreach : c.ReachesWork a := by
          by_contra hnone
          rw [workdaysBetween_eq_zero fun x hx _ hwork =>
            hnone ⟨x, (Day.le_next a).trans hx, hwork⟩] at hk
          exact absurd hk (Nat.succ_ne_zero k).symm
        obtain ⟨w, hw⟩ := hreach.exists_next
        rw [ahead_succ hc hw, ← ahead_succ hc (hw.next ha).2]
        exact ih

/-! ## Walks backward -/

theorem workdayBefore?_le {n : Nat} {d w : Day} (h : c.workdayBefore? n d = some w) :
    w ≤ d.prev := by
  induction n generalizing d with
  | zero => cases h
  | succ n ih =>
    simp only [workdayBefore?] at h
    split at h
    · cases h
      exact le_rfl
    · exact (ih h).trans (Day.prev_le d.prev)

/-- A walk backward over a working day moves, as long as the line goes on. -/
theorem behind_succ_le (n : Nat) (d : Day) : c.behind (n + 1) d ≤ d.prev := by
  induction n generalizing d with
  | zero =>
    simp only [behind]
    split
    · next w hw => exact workdayBefore?_le hw
    · rw [Day.le_def, Day.ordinal_retreat, Day.ordinal_prev, horizon]
      omega
  | succ n ih =>
    rw [behind]
    split
    · next w hw => exact (ih w).trans ((Day.prev_le w).trans (workdayBefore?_le hw))
    · rw [Day.le_def, Day.ordinal_retreat, Day.ordinal_prev, horizon]
      omega

/-- The search back finds the last workday before if it lies within its steps. -/
theorem workdayBefore?_eq {n : Nat} {d w : Day} (h : c.IsLastWorkday d w)
    (hn : d.ordinal ≤ w.ordinal + n) : c.workdayBefore? n d = some w := by
  induction n generalizing d with
  | zero =>
    have := h.lt
    rw [Day.lt_def] at this
    omega
  | succ n ih =>
    rw [workdayBefore?]
    split
    · next hd =>
      have hle : w ≤ d.prev := (Day.le_prev_iff h.lt w).mpr h.lt
      rcases eq_or_lt_of_le hle with rfl | hlt
      · rfl
      · exact absurd hd (h.idle _ hlt (Day.prev_lt h.lt))
    · next hd =>
      refine ih (h.prev hd) ?_
      have := h.lt
      rw [Day.lt_def] at this
      rw [Day.ordinal_prev]
      omega

/-- A walk backward over one more working day first gets to the last one. -/
theorem behind_succ (hc : c.GapsBelowHorizon) {d w : Day} (h : c.IsLastWorkday d w) (n : Nat) :
    c.behind (n + 1) d = c.behind n w := by
  have hlt := h.lt
  have hgap : d.ordinal < w.next.ordinal + horizon := by
    refine hc.idle_lt fun x hx hxd => h.idle x ((Day.next_le_iff hlt x).mp hx) hxd
  rw [Day.ordinal_next_of_lt hlt] at hgap
  rw [behind, workdayBefore?_eq h (by omega)]

/-- The walk backward over the working days from a working day on gets back to it. -/
theorem behind_workdaysBetween (hc : c.GapsBelowHorizon) {a b : Day} (h : a ≤ b)
    (ha : c.isWorking a) : c.behind (c.workdaysBetween a b) b = a := by
  refine Day.downward (P := fun b => c.behind (c.workdaysBetween a b) b = a) ?_
    (fun b hab ih => ?_) h
  · rw [workdaysBetween_of_le le_rfl]
    rfl
  · rw [workdaysBetween_prev hab]
    by_cases hb : c.isWorking b.prev
    · have hlast : c.IsLastWorkday b b.prev := by
        refine ⟨Day.prev_lt hab, hb, fun x hx hxb => ?_⟩
        exact absurd hx (not_lt.mpr ((Day.le_prev_iff hab x).mpr hxb))
      rw [if_pos hb, behind_succ hc hlast]
      exact ih
    · -- `a` itself is still to be passed, so the day off before `b` does not matter
      have hlt : a < b.prev :=
        lt_of_le_of_ne ((Day.le_prev_iff hab a).mpr hab) fun e => hb (e ▸ ha)
      obtain ⟨w, hw⟩ := exists_isLastWorkday hab ha
      obtain ⟨k, hk⟩ := Nat.exists_eq_succ_of_ne_zero (workdaysBetween_pos hlt ha).ne'
      rw [hk] at ih ⊢
      rw [if_neg hb, Nat.add_zero, behind_succ hc hw, ← behind_succ hc (hw.prev hb)]
      exact ih

/-! ## Walks of either direction -/

@[simp] theorem shiftDays_natCast (d : Day) (n : Nat) : c.shiftDays d n = c.ahead n d := rfl

@[simp] theorem shiftDays_neg_natCast (d : Day) (n : Nat) :
    c.shiftDays d (-(n : Int)) = c.behind n d := by
  cases n <;> rfl

@[simp] theorem shiftDays_zero (d : Day) : c.shiftDays d 0 = d := rfl

theorem le_shiftDays {n : Int} (h : 0 ≤ n) (d : Day) : d ≤ c.shiftDays d n := by
  obtain ⟨k, rfl⟩ := Int.eq_ofNat_of_zero_le h
  exact le_ahead k d

/-- Shifting back leads back from every day but the first of all. -/
theorem shiftDays_lt {n : Int} (h : n < 0) {d : Day} (hd : d ≠ Day.first) :
    c.shiftDays d n < d := by
  obtain ⟨k, rfl⟩ := Int.eq_negSucc_of_lt_zero h
  exact (behind_succ_le k d).trans_lt (Day.prev_lt_of_ne_first hd)

/-- A walk of so many working days from `d` is not cut off at either end of the line. -/
def WalkStaysInside (c : Calendar) (d : Day) : Int → Prop
  | .ofNat n => n ≤ c.workdaysBetween d Day.last
  | .negSucc n => n + 1 ≤ c.workdaysBetween Day.first d

/-- There are no more workdays between two days than days. -/
theorem workdaysBetween_le_distance (a b : Day) : c.workdaysBetween a b ≤ a.distance b := by
  have hcount : ∀ (n : Nat) (d : Day), c.countFrom n d 0 ≤ n := by
    intro n
    induction n with
    | zero => exact fun _ => le_rfl
    | succ n ih =>
      intro d
      rw [countFrom, countFrom_eq_add]
      have := ih d.next
      split <;> omega
  exact hcount _ a

/-- A walk inside the range of dates has fewer steps than the range has days. -/
theorem WalkStaysInside.natAbs_lt_count {d : Day} {n : Int} (h : c.WalkStaysInside d n) :
    n.natAbs < Day.count := by
  cases n with
  | ofNat k =>
    have hk : k ≤ c.workdaysBetween d Day.last := h
    have hdist := c.workdaysBetween_le_distance d Day.last
    have hlast := Day.last.ordinal_lt
    rw [Day.distance] at hdist
    show k < Day.count
    omega
  | negSucc k =>
    have hk : k + 1 ≤ c.workdaysBetween Day.first d := h
    have hdist := c.workdaysBetween_le_distance Day.first d
    have hd := d.ordinal_lt
    rw [Day.distance] at hdist
    show k + 1 < Day.count
    omega

theorem WalkStaysInside.lt_count {d : Day} {n : Int} (h : c.WalkStaysInside d n) :
    n < Day.count := by
  have := h.natAbs_lt_count
  omega

/-- A walk starts with the first of its working days. -/
theorem WalkStaysInside.succ {d : Day} {n : Nat} (hd : c.isWorking d) (hlt : d < Day.last)
    (h : c.WalkStaysInside d.next n) : c.WalkStaysInside d (n + 1 : Nat) := by
  show n + 1 ≤ c.workdaysBetween d Day.last
  rw [workdaysBetween_next hlt, if_pos hd, Nat.add_comm]
  exact Nat.add_le_add_left h 1

/-- A walk over successive working days stays inside if they do. -/
theorem walkStaysInside_of_successive {d : Day} {n : Nat}
    (h : ∀ k < n, c.isWorking (d.advance k) ∧ d.advance k < Day.last) : c.WalkStaysInside d n := by
  induction n generalizing d with
  | zero => exact Nat.zero_le _
  | succ n ih =>
    obtain ⟨hwork, hlt⟩ := h 0 (Nat.succ_pos n)
    rw [Day.advance_zero] at hwork hlt
    refine .succ hwork hlt (ih fun k hk => ?_)
    rw [Day.advance_next]
    exact h (k + 1) (Nat.succ_lt_succ hk)

/-- From the first day no walk goes back. -/
theorem WalkStaysInside.ne_first {d : Day} {n : Int} (h : c.WalkStaysInside d n) (hn : n < 0) :
    d ≠ Day.first := by
  rintro rfl
  obtain ⟨k, rfl⟩ := Int.eq_negSucc_of_lt_zero hn
  have hk : k + 1 ≤ c.workdaysBetween Day.first Day.first := h
  rw [workdaysBetween_of_le le_rfl] at hk
  omega

/-! ## One day after the other -/

/-- A move by working days as one loop.  Forward, a day is looked at before it is left; backward,
after it is come to.  A working day is one less of those that remain, and ends a run of days off;
another day makes the run longer, and a run as long as the horizon ends the walk. -/
def walkByDay (c : Calendar) (direction : Direction) (remaining idle : Nat) (d : Day) : Day :=
  if 0 < remaining ∧ idle < horizon then
    match direction with
    | .forward =>
      if c.isWorking d then c.walkByDay .forward (remaining - 1) 0 d.next
      else c.walkByDay .forward remaining (idle + 1) d.next
    | .backward =>
      if c.isWorking d.prev then c.walkByDay .backward (remaining - 1) 0 d.prev
      else c.walkByDay .backward remaining (idle + 1) d.prev
  else d
termination_by (remaining, horizon - idle)

variable {idle : Nat}

/-- A loop that has idled through the horizon stops where it is. -/
theorem walkByDay_of_idle (direction : Direction) (n : Nat) (d : Day) (h : horizon ≤ idle) :
    c.walkByDay direction n idle d = d := by
  rw [walkByDay.eq_def]
  exact if_neg fun hgo => absurd hgo.2 (not_lt.mpr h)

theorem walkByDay_zero (direction : Direction) (idle : Nat) (d : Day) :
    c.walkByDay direction 0 idle d = d := by
  rw [walkByDay.eq_def]
  exact if_neg fun hgo => lt_irrefl 0 hgo.1

/-- Forward, the loop goes on from the day after the next working day, where the count of days off
begins anew; without one, it ends when the count is up. -/
theorem walkByDay_forward_succ (n : Nat) (h : idle ≤ horizon) (d : Day) :
    c.walkByDay .forward (n + 1) idle d = match c.workdayFrom? (horizon - idle) d with
      | some w => c.walkByDay .forward n 0 w.next
      | none => d.advance (horizon - idle) := by
  induction hk : horizon - idle generalizing idle d with
  | zero =>
    rw [walkByDay_of_idle .forward _ d (by omega), workdayFrom?, Day.advance_zero]
  | succ k ih =>
    rw [walkByDay, if_pos ⟨Nat.succ_pos n, by omega⟩, workdayFrom?]
    split
    · rfl
    · rw [ih (by omega) d.next (by omega), Day.advance_next]

/-- Backwards likewise: the idle steps already made shorten the search, and a find starts them
afresh. -/
theorem walkByDay_backward_succ (n : Nat) (h : idle ≤ horizon) (d : Day) :
    c.walkByDay .backward (n + 1) idle d = match c.workdayBefore? (horizon - idle) d with
      | some w => c.walkByDay .backward n 0 w
      | none => d.retreat (horizon - idle) := by
  induction hk : horizon - idle generalizing idle d with
  | zero =>
    rw [walkByDay_of_idle .backward _ d (by omega), workdayBefore?]
    rfl
  | succ k ih =>
    rw [walkByDay, if_pos ⟨Nat.succ_pos n, by omega⟩, workdayBefore?]
    split
    · rfl
    · rw [ih (by omega) d.prev (by omega), Day.retreat_prev]

/-- **A move by working days is the loop that goes day by day.** -/
theorem shiftDays_eq_walkByDay (d : Day) (n : Int) : c.shiftDays d n =
    c.walkByDay (if 0 < n then .forward else .backward) n.natAbs 0 d := by
  -- each search begins with the counter at zero, where the loop has just reset it
  have hahead : ∀ (n : Nat) (d : Day), c.walkByDay .forward n 0 d = c.ahead n d := by
    intro n
    induction n with
    | zero => exact walkByDay_zero .forward 0
    | succ n ih =>
      intro d
      rw [walkByDay_forward_succ n (Nat.zero_le _), ahead, Nat.sub_zero]
      cases c.workdayFrom? horizon d with
      | none => rfl
      | some w => exact ih w.next
  have hbehind : ∀ (n : Nat) (d : Day), c.walkByDay .backward n 0 d = c.behind n d := by
    intro n
    induction n with
    | zero => exact walkByDay_zero .backward 0
    | succ n ih =>
      intro d
      rw [walkByDay_backward_succ n (Nat.zero_le _), behind, Nat.sub_zero]
      cases c.workdayBefore? horizon d with
      | none => rfl
      | some w => exact ih w
  cases n with
  | ofNat n =>
    cases n with
    | zero => exact (walkByDay_zero _ 0 d).symm
    | succ n =>
      have hpos : (0 : Int) < Int.ofNat (n + 1) := Int.natCast_succ_pos n
      rw [if_pos hpos]
      exact (hahead (n + 1) d).symm
  | negSucc n =>
    rw [if_neg (not_lt.mpr (Int.negSucc_lt_zero n).le)]
    exact (hbehind (n + 1) d).symm

end Workplan.Calendar
