import Mathlib.Data.Set.Card
import Workplan.Proofs.UnitStarts

/-!
# What a search finds

A search looks at one start of a unit after the other, and at no more of them than the horizon says.
How far it gets is a number of starts, whatever the days between them.

- `Grain.startsUpTo`: the starts on the way from one day up to another.
- `Grain.ncard_startsUpTo_le_iff`: their number says how many days away the other day is.
- `Calendar.closest_among_starts`: a search finds the nearest start of the kind among as many starts
  as the horizon says, and nothing if none of them is of the kind.
-/

namespace Workplan

variable {g : Grain} {way : Direction} {d r s x : Day} {n : Nat}

/-- There are only so many days. -/
instance : Finite Day :=
  .of_injective (fun d : Day => (⟨d.ordinal, d.ordinal_lt⟩ : Fin Day.count)) fun _ _ h =>
    Day.ext (Fin.mk.inj h)

theorem Direction.Before.irrefl (d : Day) : ¬ way.Before d d := by
  cases way <;> exact lt_irrefl d

/-! ## Counting starts -/

namespace Grain

/-- The starts of units that come after `d` on this way, up to `r`. -/
def startsUpTo (g : Grain) (way : Direction) (d r : Day) : Set Day :=
  {x | g.IsStart x ∧ way.Before d x ∧ ¬ way.Before r x}

/-- A unit can be gone over exactly where there is a start on that side. -/
theorem exists_isStart_iff : (∃ x, g.IsStart x ∧ way.Before d x) ↔ g.step way d ≠ d := by
  constructor
  · rintro ⟨x, hx, hbefore⟩
    exact step_ne hx hbefore
  · intro hmoves
    obtain ⟨hstart, hbefore, -⟩ := step_spec hmoves
    exact ⟨_, hstart, hbefore⟩

/-- Up to the nearest start, it is the only one. -/
theorem startsUpTo_step (h : g.step way d ≠ d) :
    g.startsUpTo way d (g.step way d) = {g.step way d} := by
  obtain ⟨hstart, hbefore, hnext⟩ := step_spec h
  ext x
  rw [startsUpTo, Set.mem_ofPred_eq, Set.mem_singleton_iff]
  constructor
  · rintro ⟨hx, hdx, hxs⟩
    exact (Direction.eq_or_before hxs).elim Eq.symm fun hlt => absurd hlt (hnext x hx hdx)
  · rintro rfl
    exact ⟨hstart, hbefore, Direction.Before.irrefl _⟩

/-- Up to a later start, the nearest one comes first and the others after it. -/
theorem startsUpTo_of_before (h : g.step way d ≠ d) (hr : way.Before (g.step way d) r) :
    g.startsUpTo way d r = insert (g.step way d) (g.startsUpTo way (g.step way d) r) := by
  obtain ⟨hstart, hbefore, hnext⟩ := step_spec h
  ext x
  simp only [startsUpTo, Set.mem_ofPred_eq, Set.mem_insert_iff]
  constructor
  · rintro ⟨hx, hdx, hxr⟩
    exact (Direction.eq_or_before (hnext x hx hdx)).imp_right fun hsx => ⟨hx, hsx, hxr⟩
  · rintro (rfl | ⟨hx, hsx, hxr⟩)
    · exact ⟨hstart, hbefore, fun hback => Direction.Before.irrefl r (hback.trans hr)⟩
    · exact ⟨hx, hbefore.trans hsx, hxr⟩

theorem ncard_startsUpTo_of_before (h : g.step way d ≠ d) (hr : way.Before (g.step way d) r) :
    (g.startsUpTo way d r).ncard = (g.startsUpTo way (g.step way d) r).ncard + 1 := by
  rw [startsUpTo_of_before h hr, Set.ncard_insert_of_notMem]
  exact fun hmem => Direction.Before.irrefl _ hmem.2.1

/-- Between two starts there are whole units. -/
theorem within_iff_of_isStart (hs : g.IsStart s) (hr : g.IsStart r) (n : Nat) :
    s.Within (n * g.span) r ↔
      r.ordinal < s.ordinal + (n + 1) * g.span ∧ s.ordinal < r.ordinal + (n + 1) * g.span := by
  rw [isStart_iff] at hs hr
  rw [Day.Within]
  cases g <;> simp only [span] at * <;> omega

/-- **A start is one of the next `n` exactly if it is no more than `n` units away.** -/
theorem ncard_startsUpTo_le_iff (hr : g.IsStart r) (h : way.Before d r) :
    (g.startsUpTo way d r).ncard ≤ n ↔ d.Within (n * g.span) r := by
  -- on the number of units, going from each start to the next
  induction n generalizing d with
  | zero =>
    refine iff_of_false (fun hnone => ?_) fun hwithin => ?_
    · rw [Nat.le_zero, Set.ncard_eq_zero] at hnone
      have hmem : r ∈ g.startsUpTo way d r := ⟨hr, h, Direction.Before.irrefl r⟩
      rw [hnone] at hmem
      exact hmem
    · have hsame : d = r := by
        rw [Day.eq_iff]
        simp only [Day.Within, Nat.zero_mul] at hwithin
        omega
      exact Direction.Before.irrefl r (hsame ▸ h)
  | succ n ih =>
    have hmoves := step_ne hr h
    have hstep := (step_spec hmoves).1
    rw [← lt_step_iff_within hr h, ← within_iff_of_isStart hstep hr]
    rcases Direction.eq_or_before ((step_spec hmoves).2.2 r hr h) with rfl | hbefore
    · rw [startsUpTo_step hmoves, Set.ncard_singleton]
      refine iff_of_true (Nat.le_add_left 1 n) ?_
      simp [Day.Within]
    · rw [ncard_startsUpTo_of_before hmoves hbefore, Nat.add_le_add_iff_right, ih hbefore]

end Grain

/-! ## Searches -/

namespace Calendar

variable {c : Calendar} {kind : DayKind} {limit? : Option Day}

/-- **A search finds the nearest start of the kind, if that comes before the limit and is among the
first starts up to the horizon.**  It finds nothing exactly if no start before the limit and among
these is of the kind.  A calendar without any working day makes no difference. -/
theorem closest_among_starts (h : ∃ x, g.IsStart x ∧ way.Before d x) :
    (∀ r, c.closest d g way kind limit? = some r ↔
      g.IsStart r ∧ way.Before d r ∧ c.isOfKind kind r ∧ (∀ limit ∈ limit?, way.Before r limit) ∧
        (∀ x, g.IsStart x → way.Before d x → way.Before x r → ¬ c.isOfKind kind x) ∧
        (g.startsUpTo way d r).ncard ≤ horizon) ∧
    (c.closest d g way kind limit? = none ↔
      ∀ r, g.IsStart r → way.Before d r → (∀ limit ∈ limit?, way.Before r limit) →
        (g.startsUpTo way d r).ncard ≤ horizon → ¬ c.isOfKind kind r) := by
  have hmoves := Grain.exists_isStart_iff.mp h
  constructor
  · intro r
    rw [closest_eq_some_iff (.inl hmoves)]
    constructor
    · rintro ⟨hr, hlimit, hwithin⟩
      exact ⟨hr.isStart, hr.before, hr.isOfKind, hlimit, hr.nearest,
        (Grain.ncard_startsUpTo_le_iff hr.isStart hr.before).mpr hwithin⟩
    · rintro ⟨hstart, hbefore, hkind, hlimit, hnearest, hcount⟩
      exact ⟨⟨hstart, hbefore, hkind, hnearest⟩, hlimit,
        (Grain.ncard_startsUpTo_le_iff hstart hbefore).mp hcount⟩
  · rw [closest_eq_none_iff (.inl hmoves)]
    refine forall_congr' fun r => forall_congr' fun hr => forall_congr' fun hbefore => ?_
    rw [Grain.ncard_startsUpTo_le_iff hr hbefore]

/-- Work is done on Tuesdays alone. -/
def tuesdays : Calendar := .withWorkingDays .standard [.tuesday]

/-- From a Wednesday on, the next working day is found before the day after it, and no week is found
that starts on a working day. -/
theorem closest_among_starts_tuesdays :
    (Grain.day.IsStart (Day.first.advance 12) ∧
      Direction.forward.Before (Day.first.advance 6) (Day.first.advance 12)) ∧
    (Grain.week.IsStart (Day.first.advance 11) ∧
      Direction.forward.Before (Day.first.advance 6) (Day.first.advance 11)) ∧
    tuesdays.closest (Day.first.advance 6) .day .forward .working (some (Day.first.advance 13)) =
      some (Day.first.advance 12) ∧
    (Grain.day.startsUpTo .forward (Day.first.advance 6) (Day.first.advance 12)).ncard ≤ horizon ∧
    tuesdays.closest (Day.first.advance 6) .week .forward .working none = none ∧
    ∀ r, Grain.week.IsStart r → Direction.forward.Before (Day.first.advance 6) r →
      (Grain.week.startsUpTo .forward (Day.first.advance 6) r).ncard ≤ horizon →
      ¬ tuesdays.isOfKind .working r := by
  have hday : Grain.day.IsStart (Day.first.advance 12) ∧
      Direction.forward.Before (Day.first.advance 6) (Day.first.advance 12) :=
    ⟨trivial, by show _ < _; decide +kernel⟩
  have hweek : Grain.week.IsStart (Day.first.advance 11) ∧
      Direction.forward.Before (Day.first.advance 6) (Day.first.advance 11) :=
    ⟨by decide +kernel, by show _ < _; decide +kernel⟩
  have hfound : tuesdays.closest (Day.first.advance 6) .day .forward .working
      (some (Day.first.advance 13)) = some (Day.first.advance 12) := by decide +kernel
  have hnone : tuesdays.closest (Day.first.advance 6) .week .forward .working none = none := by
    decide +kernel
  obtain ⟨-, -, -, -, -, hcount⟩ := ((closest_among_starts ⟨_, hday⟩).1 _).mp hfound
  refine ⟨hday, hweek, hfound, hcount, hnone, fun r hr hbefore => ?_⟩
  exact (closest_among_starts ⟨_, hweek⟩).2.mp hnone r hr hbefore (by simp)

end Calendar

end Workplan
