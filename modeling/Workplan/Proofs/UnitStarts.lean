import Mathlib.Tactic.IntervalCases
import Workplan.Calendar.Search
import Workplan.Proofs.Days

/-!
# Starts of units

Every day starts a unit of the grain day, and every Monday starts a week.  A search goes from one
start to the next, so it finds the nearest one of the kind, and nothing but starts.

- `Grain.IsStart`, `Grain.span`: the starts of units, and the days from one to the next.
- `Grain.step_spec`: a step goes to the nearest start on its side.
- `Calendar.IsNearest`: the nearest start of a kind.
- `Calendar.closest_eq_some_iff`, `Calendar.closest_eq_none_iff`: what a search finds, and when it
  finds nothing.
- `Calendar.onOrAfter_cases`: where a day goes on to that is to be a working day.
-/

namespace Workplan

variable {g : Grain} {way : Direction} {a b d x r : Day}

/-! ## Ways along the line -/

/-- On this way, `a` comes before `b`. -/
def Direction.Before : Direction → Day → Day → Prop
  | forward, a, b => a < b
  | backward, a, b => b < a

theorem Direction.Before.trans (hab : way.Before a b) (hbd : way.Before b d) : way.Before a d := by
  cases way with
  | forward => exact lt_trans (a := a) hab hbd
  | backward => exact lt_trans (a := d) hbd hab

theorem Direction.eq_or_before (h : ¬ way.Before b a) : b = a ∨ way.Before a b := by
  cases way with
  | forward => exact (eq_or_lt_of_not_gt (a := a) h).imp_left Eq.symm
  | backward => exact eq_or_lt_of_not_gt (a := b) h

/-- From one day to the other it is at most `n` days, whichever comes first. -/
def Day.Within (n : Nat) (a b : Day) : Prop :=
  a.ordinal ≤ b.ordinal + n ∧ b.ordinal ≤ a.ordinal + n

instance (n : Nat) (a b : Day) : Decidable (a.Within n b) := inferInstanceAs (Decidable (_ ∧ _))

/-- A day on the way to another one is not further away. -/
theorem Day.Within.of_not_before {n : Nat} (h : a.Within n b) (had : way.Before a d)
    (hbd : ¬ way.Before b d) : a.Within n d := by
  cases way <;> simp only [Within, Direction.Before, lt_def] at * <;> omega

/-! ## Starts -/

namespace Grain

/-- Days from one start to the next. -/
def span : Grain → Nat
  | day => 1
  | week => 7

/-- A unit starts on the day: any day, or a Monday. -/
def IsStart : Grain → Day → Prop
  | day, _ => True
  | week, d => d.weekday = .monday

theorem sinceMonday_weekday (d : Day) : d.weekday.sinceMonday = (d.ordinal + 3) % 7 := by
  have hlt : (d.ordinal + 3) % 7 < 7 := Nat.mod_lt _ (by decide)
  rw [Day.weekday, Weekday.ofSinceMonday]
  generalize (d.ordinal + 3) % 7 = n at hlt
  interval_cases n <;> rfl

theorem isStart_iff : g.IsStart d ↔ (d.ordinal + 3) % g.span = 0 := by
  cases g with
  | day => simp [IsStart, span, Nat.mod_one]
  | week =>
    have hsince := sinceMonday_weekday d
    rw [IsStart, span, ← hsince]
    cases d.weekday <;> decide

instance (g : Grain) (d : Day) : Decidable (g.IsStart d) := decidable_of_iff _ isStart_iff.symm

/-- From a start on, every day lies in a unit. -/
theorem exists_isStart (hr : g.IsStart r) (h : r ≤ x) :
    ∃ m, g.IsStart m ∧ r ≤ m ∧ m ≤ x ∧ x.ordinal < m.ordinal + g.span := by
  have hx := x.ordinal_lt
  rw [isStart_iff] at hr
  rw [Day.le_def] at h
  refine ⟨⟨x.ordinal - (x.ordinal + 3) % g.span, by omega⟩, ?_⟩
  rw [isStart_iff, Day.le_def, Day.le_def]
  cases g <;> simp only [span] at * <;> omega

/-- A step forward goes on to where the next unit starts, if the line reaches that far. -/
theorem ordinal_nextStart (g : Grain) (d : Day) :
    (g.nextStart d).ordinal = d.ordinal + (g.span - (d.ordinal + 3) % g.span) ∨
      Day.count ≤ d.ordinal + (g.span - (d.ordinal + 3) % g.span) ∧
        (g.nextStart d).ordinal = d.ordinal := by
  have hd := d.ordinal_lt
  cases g with
  | day =>
    have hnext : (Grain.day.nextStart d).ordinal = _ := d.ordinal_next
    rw [span]
    omega
  | week =>
    rw [nextStart, sinceMonday_weekday, Day.plus?, Day.ofOrdinal?, span]
    split
    · exact .inl rfl
    · next hout => exact .inr ⟨not_lt.mp hout, rfl⟩

/-- A step backward goes to where the unit of the day before starts, if the line reaches that
far. -/
theorem ordinal_prevStart (g : Grain) (d : Day) :
    (g.prevStart d).ordinal + ((d.ordinal + 2) % g.span + 1) = d.ordinal ∨
      d.ordinal < (d.ordinal + 2) % g.span + 1 ∧ (g.prevStart d).ordinal = d.ordinal := by
  cases g with
  | day =>
    have hprev : (Grain.day.prevStart d).ordinal = _ := d.ordinal_prev
    rw [span]
    omega
  | week =>
    have hback : (if (d.ordinal + 3) % 7 = 0 then 7 else (d.ordinal + 3) % 7) =
        (d.ordinal + 2) % 7 + 1 := by
      split <;> omega
    rw [prevStart, sinceMonday_weekday, Day.minus?, hback, span]
    split
    · next hle => exact .inl (Nat.sub_add_cancel hle)
    · next hout => exact .inr ⟨not_le.mp hout, rfl⟩

/-- A step goes to the nearest start on its side, or stays where there is none. -/
theorem step_cases (g : Grain) (way : Direction) (d : Day) :
    (g.step way d = d ∧ ∀ x, g.IsStart x → ¬ way.Before d x) ∨
      (g.IsStart (g.step way d) ∧ way.Before d (g.step way d) ∧
        ∀ x, g.IsStart x → way.Before d x → ¬ way.Before x (g.step way d)) := by
  simp only [Day.eq_iff, isStart_iff]
  cases way with
  | forward =>
    have hstep := ordinal_nextStart g d
    simp only [Direction.Before, Day.lt_def, step]
    rcases hstep with hstep | ⟨hout, hstep⟩
    · refine .inr ⟨?_, ?_, fun x hx hbefore => ?_⟩ <;>
        cases g <;> simp only [span] at * <;> omega
    · refine .inl ⟨hstep, fun x hx => ?_⟩
      have := x.ordinal_lt
      cases g <;> simp only [span] at * <;> omega
  | backward =>
    have hstep := ordinal_prevStart g d
    simp only [Direction.Before, Day.lt_def, step]
    rcases hstep with hstep | ⟨hout, hstep⟩
    · refine .inr ⟨?_, ?_, fun x hx hbefore => ?_⟩ <;>
        cases g <;> simp only [span] at * <;> omega
    · refine .inl ⟨hstep, fun x hx => ?_⟩
      cases g <;> simp only [span] at * <;> omega

/-- **A step that moves goes to the nearest start on its side.** -/
theorem step_spec (h : g.step way d ≠ d) : g.IsStart (g.step way d) ∧
    way.Before d (g.step way d) ∧
    ∀ x, g.IsStart x → way.Before d x → ¬ way.Before x (g.step way d) :=
  (step_cases g way d).resolve_left fun hstay => h hstay.1

/-- A step to a side where there are starts moves. -/
theorem step_ne (hx : g.IsStart x) (h : way.Before d x) : g.step way d ≠ d := by
  rcases step_cases g way d with ⟨-, hnone⟩ | ⟨-, hbefore, -⟩
  · exact absurd h (hnone x hx)
  · intro heq
    rw [heq] at hbefore
    cases way <;> exact lt_irrefl d hbefore

/-- A step from a start goes over one unit, so it brings the starts beyond nearer by one unit. -/
theorem lt_step_iff (hd : g.IsStart d) (hr : g.IsStart r) (h : way.Before d r) (n : Nat) :
    r.ordinal < (g.step way d).ordinal + n * g.span ∧
        (g.step way d).ordinal < r.ordinal + n * g.span ↔
      r.ordinal < d.ordinal + (n + 1) * g.span ∧ d.ordinal < r.ordinal + (n + 1) * g.span := by
  have hlt := r.ordinal_lt
  rw [isStart_iff] at hd hr
  cases way with
  | forward =>
    have hstep := ordinal_nextStart g d
    simp only [Direction.Before, Day.lt_def, step] at *
    cases g <;> simp only [span] at * <;> omega
  | backward =>
    have hstep := ordinal_prevStart g d
    simp only [Direction.Before, Day.lt_def, step] at *
    cases g <;> simp only [span] at * <;> omega

/-- Counted from the nearest start or from the day itself, a start lies among the same `n`. -/
theorem lt_step_iff_within (hr : g.IsStart r) (h : way.Before d r) (n : Nat) :
    r.ordinal < (g.step way d).ordinal + n * g.span ∧
        (g.step way d).ordinal < r.ordinal + n * g.span ↔ d.Within (n * g.span) r := by
  have hlt := r.ordinal_lt
  rw [isStart_iff] at hr
  rw [Day.Within]
  cases way with
  | forward =>
    have hstep := ordinal_nextStart g d
    simp only [Direction.Before, Day.lt_def, step] at *
    cases g <;> simp only [span] at * <;> omega
  | backward =>
    have hstep := ordinal_prevStart g d
    simp only [Direction.Before, Day.lt_def, step] at *
    cases g <;> simp only [span] at * <;> omega

end Grain

/-! ## Searches -/

namespace Calendar

variable {c : Calendar} {kind : DayKind} {limit? : Option Day} {n : Nat}

theorem not_reached_iff : ¬ reached way limit? d ↔ ∀ limit ∈ limit?, way.Before d limit := by
  cases limit? <;> cases way <;> simp [reached, Direction.Before]

theorem not_reached_of_before (h : ¬ reached way limit? b) (hab : way.Before a b) :
    ¬ reached way limit? a :=
  not_reached_iff.mpr fun limit hlimit => hab.trans (not_reached_iff.mp h limit hlimit)

/-- On the side of `d` to which the way leads, `r` is the nearest start that is of the kind. -/
structure IsNearest (c : Calendar) (g : Grain) (way : Direction) (kind : DayKind) (d r : Day) :
    Prop where
  isStart : g.IsStart r
  before : way.Before d r
  isOfKind : c.isOfKind kind r
  nearest : ∀ x, g.IsStart x → way.Before d x → way.Before x r → ¬ c.isOfKind kind x

/-- The nearest start of a kind is the nearest start, or comes after it. -/
theorem isNearest_step_iff (h : g.step way d ≠ d) : c.IsNearest g way kind d r ↔
    r = g.step way d ∧ c.isOfKind kind (g.step way d) ∨
      ¬ c.isOfKind kind (g.step way d) ∧ c.IsNearest g way kind (g.step way d) r := by
  obtain ⟨hstart, hbefore, hnext⟩ := Grain.step_spec h
  generalize g.step way d = s at *
  constructor
  · intro hr
    rcases Direction.eq_or_before (hnext r hr.isStart hr.before) with rfl | hsr
    · exact .inl ⟨rfl, hr.isOfKind⟩
    · exact .inr ⟨hr.nearest s hstart hbefore hsr, hr.isStart, hsr, hr.isOfKind,
        fun x hx hsx => hr.nearest x hx (hbefore.trans hsx)⟩
  · rintro (⟨rfl, hkind⟩ | ⟨hkind, hr⟩)
    · exact ⟨hstart, hbefore, hkind, fun x hx hdx hxr => absurd hxr (hnext x hx hdx)⟩
    · refine ⟨hr.isStart, hbefore.trans hr.before, hr.isOfKind, fun x hx hdx hxr => ?_⟩
      rcases Direction.eq_or_before (hnext x hx hdx) with rfl | hsx
      · exact hkind
      · exact hr.nearest x hx hsx hxr

/-- From a start on, a search finds that start or else the nearest one of the kind, if it comes
before the limit and is one of the candidates. -/
theorem search_eq_some_iff_of_isStart (hd : g.IsStart d) :
    c.search g way kind limit? n d = some r ↔
      (r = d ∧ c.isOfKind kind d ∨ ¬ c.isOfKind kind d ∧ c.IsNearest g way kind d r) ∧
        ¬ reached way limit? r ∧
        r.ordinal < d.ordinal + n * g.span ∧ d.ordinal < r.ordinal + n * g.span := by
  -- on the candidates that are left, from one start to the next
  induction n generalizing d with
  | zero =>
    rw [search, Nat.zero_mul]
    refine iff_of_false (fun h => by cases h) ?_
    rintro ⟨-, -, hlt, hgt⟩
    exact absurd hlt hgt.not_gt
  | succ n ih =>
    have hspan : 0 < (n + 1) * g.span := by cases g <;> simp [Grain.span]
    rw [search]
    dsimp only
    split_ifs with hreached hkind hstay
    · refine iff_of_false (fun h => by cases h) ?_
      rintro ⟨⟨rfl, -⟩ | ⟨-, h⟩, hr, -⟩
      · exact hr hreached
      · exact not_reached_of_before hr h.before hreached
    · constructor
      · intro h
        cases h
        exact ⟨.inl ⟨rfl, hkind⟩, hreached, by omega, by omega⟩
      · rintro ⟨⟨rfl, -⟩ | ⟨h, -⟩, -⟩
        · rfl
        · exact absurd hkind h
    · refine iff_of_false (fun h => by cases h) ?_
      rintro ⟨⟨-, h⟩ | ⟨-, h⟩, -⟩
      · exact hkind h
      · exact Grain.step_ne h.isStart h.before hstay
    · rw [ih (Grain.step_spec hstay).1, ← isNearest_step_iff hstay]
      constructor
      · rintro ⟨h, hr, hwithin⟩
        exact ⟨.inr ⟨hkind, h⟩, hr, (Grain.lt_step_iff hd h.isStart h.before n).mp hwithin⟩
      · rintro ⟨⟨-, h⟩ | ⟨-, h⟩, hr, hwithin⟩
        · exact absurd h hkind
        · exact ⟨h, hr, (Grain.lt_step_iff hd h.isStart h.before n).mpr hwithin⟩

/-- **A search finds the nearest start of the kind, if that comes before the limit and is one of the
first starts up to the horizon.**  Where there is no start on its side, the search looks at the day
itself, which must not be of the kind then. -/
theorem closest_eq_some_iff (h : g.step way d ≠ d ∨ ¬ c.isOfKind kind d) :
    c.closest d g way kind limit? = some r ↔
      c.IsNearest g way kind d r ∧ (∀ limit ∈ limit?, way.Before r limit) ∧
        d.Within (horizon * g.span) r := by
  rw [closest]
  by_cases hstay : g.step way d = d
  · refine iff_of_false ?_ fun ⟨hr, _⟩ => Grain.step_ne hr.isStart hr.before hstay
    have hkind := h.resolve_left fun hmoved => hmoved hstay
    rw [hstay, horizon, search]
    dsimp only
    split_ifs
    all_goals exact fun h => by cases h
  · rw [search_eq_some_iff_of_isStart (Grain.step_spec hstay).1, ← isNearest_step_iff hstay,
      not_reached_iff]
    refine and_congr_right fun hr => and_congr_right fun _ => ?_
    exact Grain.lt_step_iff_within hr.isStart hr.before horizon

/-- Where there is a start of the kind, there is a nearest one. -/
theorem exists_isNearest (hr : g.IsStart r) (hbefore : way.Before d r) (hkind : c.isOfKind kind r) :
    ∃ s, c.IsNearest g way kind d s ∧ ¬ way.Before r s := by
  cases way with
  | forward =>
    obtain ⟨m, -, ⟨hstart, hdm, hm⟩, hleast⟩ := Day.exists_least
      (P := fun x => g.IsStart x ∧ d < x ∧ c.isOfKind kind x) (le_of_lt hbefore)
      ⟨hr, hbefore, hkind⟩
    refine ⟨m, ⟨hstart, hdm, hm, fun x hx hdx hxm hk => ?_⟩, fun hrm => ?_⟩
    · exact hleast x (le_of_lt hdx) hxm ⟨hx, hdx, hk⟩
    · exact hleast r (le_of_lt hbefore) hrm ⟨hr, hbefore, hkind⟩
  | backward =>
    obtain ⟨m, hmd, ⟨hstart, hm⟩, hgreatest⟩ := Day.exists_greatest
      (P := fun x => g.IsStart x ∧ c.isOfKind kind x) hbefore ⟨hr, hkind⟩
    refine ⟨m, ⟨hstart, hmd, hm, fun x hx hxd hmx hk => ?_⟩, fun hmr => ?_⟩
    · exact hgreatest x hmx hxd ⟨hx, hk⟩
    · exact hgreatest r hmr hbefore ⟨hr, hkind⟩

/-- **A search finds nothing exactly if none of the starts that it looks at is of the kind.** -/
theorem closest_eq_none_iff (h : g.step way d ≠ d ∨ ¬ c.isOfKind kind d) :
    c.closest d g way kind limit? = none ↔
      ∀ r, g.IsStart r → way.Before d r → (∀ limit ∈ limit?, way.Before r limit) →
        d.Within (horizon * g.span) r → ¬ c.isOfKind kind r := by
  constructor
  · intro hnone r hr hbefore hlimit hwithin hkind
    obtain ⟨s, hs, hrs⟩ := exists_isNearest hr hbefore hkind
    have hfound : c.closest d g way kind limit? = some s := by
      refine (closest_eq_some_iff h).mpr
        ⟨hs, fun limit hmem => ?_, hwithin.of_not_before hs.before hrs⟩
      rcases Direction.eq_or_before hrs with rfl | hsr
      · exact hlimit limit hmem
      · exact hsr.trans (hlimit limit hmem)
    rw [hnone] at hfound
    cases hfound
  · intro hnone
    refine Option.eq_none_iff_forall_ne_some.mpr fun r hr => ?_
    obtain ⟨hnear, hlimit, hwithin⟩ := (closest_eq_some_iff h).mp hr
    exact hnone r hnear.isStart hnear.before hlimit hwithin hnear.isOfKind

/-! ## Going on to a working day -/

theorem onOrAfter_of_working (h : c.isWorking d) : c.onOrAfter g d = d := if_pos h

/-- **A day off goes on to the nearest start on a working day**, or stays where the search finds
none. -/
theorem onOrAfter_cases (g : Grain) (hd : ¬ c.isWorking d) :
    c.IsNearest g .forward .working d (c.onOrAfter g d) ∧
        d.Within (horizon * g.span) (c.onOrAfter g d) ∨
      c.onOrAfter g d = d ∧ ∀ r, g.IsStart r → d < r → d.Within (horizon * g.span) r →
        ¬ c.isWorking r := by
  have hkind : ¬ c.isOfKind .working d := hd
  rw [onOrAfter, snap, if_neg hd]
  cases hfound : c.closest d g .forward .working none with
  | some r =>
    obtain ⟨hnear, -, hwithin⟩ := (closest_eq_some_iff (.inr hkind)).mp hfound
    exact .inl ⟨hnear, hwithin⟩
  | none =>
    refine .inr ⟨rfl, fun r hr hlt => ?_⟩
    exact (closest_eq_none_iff (.inr hkind)).mp hfound r hr hlt (by simp)

/-- A search forward does not go back. -/
theorem le_snap_forward (g : Grain) (d : Day) : d ≤ c.onOrAfter g d := by
  by_cases hd : c.isWorking d
  · rw [onOrAfter_of_working hd]
  · rcases onOrAfter_cases g hd with ⟨hnear, -⟩ | ⟨hstay, -⟩
    · exact le_of_lt hnear.before
    · rw [hstay]

/-- What a search forward has found is found again from there. -/
theorem onOrAfter_idem (g : Grain) (d : Day) :
    c.onOrAfter g (c.onOrAfter g d) = c.onOrAfter g d := by
  by_cases hd : c.isWorking d
  · rw [onOrAfter_of_working hd, onOrAfter_of_working hd]
  · rcases onOrAfter_cases g hd with ⟨hnear, -⟩ | ⟨hstay, -⟩
    · exact onOrAfter_of_working hnear.isOfKind
    · rw [hstay, hstay]

end Calendar

end Workplan
