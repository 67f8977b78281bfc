import Mathlib.Order.Bounds.Basic
import Workplan.Proofs.Bounds

/-!
# Windows for a start

Collisions that let the start of a task move leave a window for it, from the latest start that some
of them demand to the earliest that others demand.  The start that suits them all is the floor of
the window, or the one fixed start in it.  The window knows the collisions by the sets of their
starts, so their order does not matter, and whether they are violated at present is not asked.

- `Collision.days`, `Collision.IsFloor`, `Collision.IsCap`: the starts demanded, and the two ends of
  their window.
- `Collision.window?_eq_some_iff`: the window that is computed is that one.
- `resolveStart_eq_ok_iff`, `resolveStart_eq_error_iff`: what becomes of a start in a window.
- `resolveStart_suits`: the start found suits all collisions, and none is found if there is none.
- `resolveStart_of_later`: collisions that only demand later starts are never given up.
-/

namespace Workplan

open Collision

variable {x : TaskId} {ks ks' : List Collision} {variation : Variation}
  {current floor cap s d m : Day} {fault : Fault}

/-! ## The window of some collisions -/

namespace Collision

/-- The starts accepted by collisions with a given variation. -/
def days (variation : Variation) (ks : List Collision) : Set Day :=
  {d | ∃ k ∈ ks, k.variation = variation ∧ k.acceptableStart = d}

/-- The latest of the starts that collisions move later to, and where there are none, the earliest
of those that collisions move earlier to. -/
def IsFloor (ks : List Collision) (floor : Day) : Prop :=
  IsGreatest (days .later ks) floor ∨ days .later ks = ∅ ∧ IsLeast (days .earlier ks) floor

/-- The earliest of the starts that collisions move earlier to, and where there are none, the latest
of those that collisions move later to. -/
def IsCap (ks : List Collision) (cap : Day) : Prop :=
  IsLeast (days .earlier ks) cap ∨ days .earlier ks = ∅ ∧ IsGreatest (days .later ks) cap

theorem mem_starts : d ∈ starts variation ks ↔ d ∈ days variation ks := by
  simp [starts, days, and_assoc]

theorem starts_eq_nil_iff : starts variation ks = [] ↔ days variation ks = ∅ := by
  rw [List.eq_nil_iff_forall_not_mem, Set.eq_empty_iff_forall_notMem]
  simp only [mem_starts]

theorem latest?_starts : latest? (starts variation ks) = some m ↔
    IsGreatest (days variation ks) m := by
  rw [latest?_eq_some_iff]
  simp only [mem_starts]
  rfl

theorem earliest?_starts : earliest? (starts variation ks) = some m ↔
    IsLeast (days variation ks) m := by
  rw [earliest?_eq_some_iff]
  simp only [mem_starts]
  rfl

/-- The floor is the latest of the starts asked from below or, with none, the earliest asked from
above. -/
theorem isFloor_iff : IsFloor ks floor ↔
    (latest? (starts .later ks)).or (earliest? (starts .earlier ks)) = some floor := by
  rw [Option.or_eq_some_iff, latest?_starts, latest?_eq_none_iff, starts_eq_nil_iff,
    earliest?_starts, IsFloor]

theorem isCap_iff : IsCap ks cap ↔
    (earliest? (starts .earlier ks)).or (latest? (starts .later ks)) = some cap := by
  rw [Option.or_eq_some_iff, latest?_starts, earliest?_eq_none_iff, starts_eq_nil_iff,
    earliest?_starts, IsCap]

/-- **The window reaches from the floor to the cap.** -/
theorem window?_eq_some_iff : window? ks = some (floor, cap) ↔ IsFloor ks floor ∧ IsCap ks cap := by
  rw [isFloor_iff, isCap_iff, window?]
  cases latest? (starts .later ks) <;> cases earliest? (starts .earlier ks) <;> simp

/-- There is no window when nothing is asked from either side. -/
theorem window?_eq_none_iff :
    window? ks = none ↔ starts .later ks = [] ∧ starts .earlier ks = [] := by
  rw [← latest?_eq_none_iff, ← earliest?_eq_none_iff, window?]
  cases latest? (starts .later ks) <;> cases earliest? (starts .earlier ks) <;> simp

/-- There is a window as soon as one collision lets the start move. -/
theorem exists_window? (h : ∃ k ∈ ks, k.variation ≠ .fixed) :
    ∃ floor cap, window? ks = some (floor, cap) := by
  obtain ⟨k, hk, hmoves⟩ := h
  have hstart : k.acceptableStart ∈ starts k.variation ks := mem_starts.mpr ⟨k, hk, rfl, rfl⟩
  have hwindow : window? ks ≠ none := by
    intro hnone
    obtain ⟨hlater, hearlier⟩ := window?_eq_none_iff.mp hnone
    cases hvariation : k.variation with
    | fixed => exact hmoves hvariation
    | earlier =>
      rw [hvariation, hearlier] at hstart
      exact List.not_mem_nil hstart
    | later =>
      rw [hvariation, hlater] at hstart
      exact List.not_mem_nil hstart
  obtain ⟨⟨floor, cap⟩, hsome⟩ := Option.ne_none_iff_exists'.mp hwindow
  exact ⟨floor, cap, hsome⟩

theorem IsFloor.unique (h : IsFloor ks floor) (h' : IsFloor ks d) : floor = d := by
  rw [isFloor_iff] at h h'
  exact Option.some.inj (h.symm.trans h')

theorem IsCap.unique (h : IsCap ks cap) (h' : IsCap ks d) : cap = d := by
  rw [isCap_iff] at h h'
  exact Option.some.inj (h.symm.trans h')

/-- The floor is as late as every collision demands. -/
theorem IsFloor.le (h : IsFloor ks floor) (hd : d ∈ days .later ks) : d ≤ floor := by
  rcases h with hgreatest | ⟨hnone, -⟩
  · exact hgreatest.2 hd
  · exact absurd (hnone ▸ hd) (Set.notMem_empty d)

/-- The cap is as early as every collision demands. -/
theorem IsCap.le (h : IsCap ks cap) (hd : d ∈ days .earlier ks) : cap ≤ d := by
  rcases h with hleast | ⟨hnone, -⟩
  · exact hleast.2 hd
  · exact absurd (hnone ▸ hd) (Set.notMem_empty d)

/-- **The window is reversed only by two collisions that exclude each other.** -/
theorem cap_lt_floor_iff (hfloor : IsFloor ks floor) (hcap : IsCap ks cap) :
    cap < floor ↔ ∃ l ∈ days .later ks, ∃ e ∈ days .earlier ks, e < l := by
  constructor
  · intro hlt
    rcases hfloor with hgreatest | ⟨hnone, hleast⟩
    · rcases hcap with hleast | ⟨-, hgreatest'⟩
      · exact ⟨floor, hgreatest.1, cap, hleast.1, hlt⟩
      · exact absurd hlt (not_lt.mpr (hgreatest.unique hgreatest').le)
    · rcases hcap with hleast' | ⟨-, hgreatest⟩
      · exact absurd hlt (not_lt.mpr (hleast.unique hleast').le)
      · exact absurd (hnone ▸ hgreatest.1) (Set.notMem_empty cap)
  · rintro ⟨l, hl, e, he, hlt⟩
    calc cap ≤ e := hcap.le he
      _ < l := hlt
      _ ≤ floor := hfloor.le hl

end Collision

/-! ## The start in a window -/

/-- A start that suits all collisions is missed only for reasons that concern the one task. -/
theorem resolveStart_error (h : resolveStart x current ks = .error fault) :
    ∃ reason, fault = .unsatisfiable x reason := by
  unfold resolveStart at h
  dsimp only at h
  split at h
  · cases h
    exact ⟨_, rfl⟩
  split at h
  · cases h
  split at h
  · cases h
    exact ⟨_, rfl⟩
  split at h
  · cases h
  split at h
  · cases h
    exact ⟨_, rfl⟩
  · cases h

/-- **In a window, the start is the floor or the one fixed start.** -/
theorem resolveStart_eq_ok_iff (h : window? ks = some (floor, cap)) :
    resolveStart x current ks = .ok s ↔ floor ≤ cap ∧
      (starts .fixed ks = [] ∧ s = floor ∨ starts .fixed ks = [s] ∧ floor ≤ s ∧ s ≤ cap) := by
  unfold resolveStart
  rw [h]
  -- no fixed start, one, or more than one: the three ways out of the function
  rcases starts .fixed ks with _ | ⟨a, _ | ⟨b, rest⟩⟩
  · show (if cap < floor then _ else Except.ok floor) = _ ↔ _
    split
    · next hlt => simp [not_le.mpr hlt]
    · next hle => simp [not_lt.mp hle, eq_comm]
  · show (if cap < floor then _ else if a < floor ∨ cap < a then _ else Except.ok a) = _ ↔ _
    split
    · next hlt => simp [not_le.mpr hlt]
    · next hle =>
      split
      · next hout =>
        refine iff_of_false (fun h => by cases h) ?_
        rintro ⟨-, ⟨hnil, -⟩ | ⟨hone, hfloor, hcap⟩⟩
        · cases hnil
        · cases hone
          exact hout.elim (not_lt.mpr hfloor) (not_lt.mpr hcap)
      · next hin =>
        push Not at hin
        constructor
        · intro h
          cases h
          exact ⟨not_lt.mp hle, .inr ⟨rfl, hin⟩⟩
        · rintro ⟨-, ⟨hnil, -⟩ | ⟨hone, -⟩⟩
          · cases hnil
          · cases hone
            rfl
  · show (if 1 < rest.length + 2 then _ else _) = _ ↔ _
    rw [if_pos (by omega)]
    simp

/-- **In a window, no start is found if several are fixed, the window is reversed, or the one fixed
start lies outside.** -/
theorem resolveStart_eq_error_iff (h : window? ks = some (floor, cap)) :
    (∃ fault, resolveStart x current ks = .error fault) ↔
      1 < (starts .fixed ks).length ∨ cap < floor ∨
        ∃ d ∈ starts .fixed ks, d < floor ∨ cap < d := by
  have hnone : (∃ fault, resolveStart x current ks = .error fault) ↔
      ¬ ∃ s, resolveStart x current ks = .ok s := by
    cases resolveStart x current ks <;> simp
  simp only [hnone, resolveStart_eq_ok_iff h]
  rcases starts .fixed ks with _ | ⟨a, _ | ⟨b, rest⟩⟩
  · simp
  · simp only [List.cons_ne_nil, List.cons.injEq, List.length_singleton, List.mem_singleton]
    grind
  · simp

/-- The start found suits all collisions. -/
theorem suits_of_resolveStart (hfloor : IsFloor ks floor) (hcap : IsCap ks cap)
    (hs : resolveStart x current ks = .ok s) :
    (∀ d ∈ days .later ks, d ≤ s) ∧ (∀ d ∈ days .earlier ks, s ≤ d) ∧
      (∀ d ∈ days .fixed ks, s = d) ∧ (days .fixed ks = ∅ → IsFloor ks s) := by
  have hwindow := window?_eq_some_iff.mpr ⟨hfloor, hcap⟩
  obtain ⟨hle, hcases⟩ := (resolveStart_eq_ok_iff hwindow).mp hs
  have hinside : floor ≤ s ∧ s ≤ cap := by
    rcases hcases with ⟨-, rfl⟩ | ⟨-, hinside⟩
    · exact ⟨le_rfl, hle⟩
    · exact hinside
  refine ⟨fun d hd => (hfloor.le hd).trans hinside.1, fun d hd => hinside.2.trans (hcap.le hd),
    fun d hd => ?_, fun hnone => ?_⟩
  · rw [← mem_starts] at hd
    rcases hcases with ⟨hnil, -⟩ | ⟨hone, -⟩
    · exact absurd (hnil ▸ hd) List.not_mem_nil
    · exact (List.mem_singleton.mp (hone ▸ hd)).symm
  · rw [← starts_eq_nil_iff] at hnone
    rcases hcases with ⟨-, rfl⟩ | ⟨hone, -⟩
    · exact hfloor
    · exact absurd (hone.symm.trans hnone) (List.cons_ne_nil s [])

/-- No start is found exactly if no start in the window suits all collisions. -/
theorem resolveStart_fails_iff (hfloor : IsFloor ks floor) (hcap : IsCap ks cap) :
    (∃ fault, resolveStart x current ks = .error fault) ↔
      1 < ks.countP (fun k => k.variation = .fixed) ∨
        (∃ l ∈ days .later ks, ∃ e ∈ days .earlier ks, e < l) ∨
        ∃ d ∈ days .fixed ks,
          (∃ floor, IsFloor ks floor ∧ d < floor) ∨ ∃ cap, IsCap ks cap ∧ cap < d := by
  have hfloors : ∀ d, (∃ floor, IsFloor ks floor ∧ d < floor) ↔ d < floor := fun d =>
    ⟨fun ⟨_, hother, hlt⟩ => hother.unique hfloor ▸ hlt, fun hlt => ⟨floor, hfloor, hlt⟩⟩
  have hcaps : ∀ d, (∃ cap, IsCap ks cap ∧ cap < d) ↔ cap < d := fun d =>
    ⟨fun ⟨_, hother, hlt⟩ => hother.unique hcap ▸ hlt, fun hlt => ⟨cap, hcap, hlt⟩⟩
  have hcount : (starts .fixed ks).length = ks.countP fun k => k.variation = .fixed := by
    rw [starts, List.length_map, List.countP_eq_length_filter]
  rw [resolveStart_eq_error_iff (window?_eq_some_iff.mpr ⟨hfloor, hcap⟩),
    cap_lt_floor_iff hfloor hcap, hcount]
  simp only [hfloors, hcaps, mem_starts]

/-- Collisions that only demand later starts are met by the latest of these. -/
theorem resolveStart_of_later (hlater : ∀ k ∈ ks, k.variation = .later)
    (hfloor : latest? (ks.map acceptableStart) = some floor) :
    resolveStart x current ks = .ok floor := by
  have hall : starts .later ks = ks.map acceptableStart := by
    rw [starts, List.filter_eq_self.mpr fun k hk => decide_eq_true (hlater k hk)]
  have hnone : ∀ variation, variation ≠ .later → days variation ks = ∅ := by
    intro variation hne
    refine Set.eq_empty_iff_forall_notMem.mpr ?_
    rintro d ⟨k, hk, hvariation, -⟩
    exact hne (hvariation.symm.trans (hlater k hk))
  have hgreatest : IsGreatest (days .later ks) floor := latest?_starts.mp (hall ▸ hfloor)
  have hwindow : window? ks = some (floor, floor) :=
    window?_eq_some_iff.mpr ⟨.inl hgreatest, .inr ⟨hnone .earlier (by decide), hgreatest⟩⟩
  refine (resolveStart_eq_ok_iff hwindow).mpr ⟨le_rfl, .inl ⟨?_, rfl⟩⟩
  exact starts_eq_nil_iff.mpr (hnone .fixed (by decide))

/-! ## Collisions in any order -/

/-- What a collision asks, whether the present start violates it or not. -/
def Collision.terms (k : Collision) : Day × Variation := (k.acceptableStart, k.variation)

theorem Collision.starts_eq_filterMap (variation : Variation) (ks : List Collision) :
    starts variation ks =
      (ks.map terms).filterMap fun ask => if ask.2 = variation then some ask.1 else none := by
  induction ks with
  | nil => rfl
  | cons k ks ih =>
    rw [starts] at ih ⊢
    by_cases h : k.variation = variation
    · simp [terms, h, ih]
    · simp [terms, h, ih]

/-- The starts asked for follow the order of the collisions and nothing else. -/
theorem Collision.starts_perm (h : (ks.map terms).Perm (ks'.map terms)) (variation : Variation) :
    (starts variation ks).Perm (starts variation ks') := by
  rw [starts_eq_filterMap, starts_eq_filterMap]
  exact h.filterMap _

theorem Collision.window?_perm (h : (ks.map terms).Perm (ks'.map terms)) :
    window? ks = window? ks' := by
  rw [window?, window?, latest?_congr fun d => (starts_perm h .later).mem_iff,
    earliest?_congr fun d => (starts_perm h .earlier).mem_iff]

/-- The resolved start depends on the fixed starts and on the window only. -/
theorem resolveStart_congr (hfixed : starts .fixed ks = starts .fixed ks')
    (hwindow : window? ks = window? ks') :
    resolveStart x current ks = resolveStart x current ks' := by
  unfold resolveStart
  rw [hfixed, hwindow]

/-- Only several fixed starts are told in the order of the collisions. -/
theorem resolveStart_perm (h : (ks.map terms).Perm (ks'.map terms)) :
    resolveStart x current ks = resolveStart x current ks' ∨
      ∃ fault fault', resolveStart x current ks = .error fault ∧
        resolveStart x current ks' = .error fault' := by
  have hperm := starts_perm h .fixed
  have hwindow := window?_perm h
  by_cases hseveral : 1 < (starts .fixed ks).length
  · exact .inr ⟨_, _, if_pos hseveral, if_pos (hperm.length_eq ▸ hseveral)⟩
  · left
    rcases hfixed : starts .fixed ks with _ | ⟨a, _ | ⟨b, rest⟩⟩
    · rw [hfixed, List.nil_perm] at hperm
      exact resolveStart_congr (hfixed.trans hperm.symm) hwindow
    · rw [hfixed, List.singleton_perm] at hperm
      exact resolveStart_congr (hfixed.trans hperm) hwindow
    · rw [hfixed] at hseveral
      exact absurd (Nat.succ_lt_succ (Nat.succ_pos rest.length)) hseveral

/-- **The start found suits all collisions, and none is found only if there is none in the
window.**  As soon as one collision lets the start move, the start is no earlier than any start
demanded and no later than any allowed, and it is the fixed one if there is one.  Otherwise it is
the latest of those demanded, or without these the earliest of those allowed.  None is found
exactly if several are fixed, two collisions exclude each other, or the fixed one lies outside the
window.  Neither the order of the collisions matters nor which of them are violated at present. -/
theorem resolveStart_suits (x : TaskId) (current : Day) (ks : List Collision) :
    ((∃ k ∈ ks, k.variation ≠ .fixed) →
      (∀ s, resolveStart x current ks = .ok s →
        (∀ d ∈ days .later ks, d ≤ s) ∧ (∀ d ∈ days .earlier ks, s ≤ d) ∧
          (∀ d ∈ days .fixed ks, s = d) ∧ (days .fixed ks = ∅ → IsFloor ks s)) ∧
      ((∃ fault, resolveStart x current ks = .error fault) ↔
        1 < ks.countP (fun k => k.variation = .fixed) ∨
          (∃ l ∈ days .later ks, ∃ e ∈ days .earlier ks, e < l) ∨
          ∃ d ∈ days .fixed ks,
            (∃ floor, IsFloor ks floor ∧ d < floor) ∨ ∃ cap, IsCap ks cap ∧ cap < d)) ∧
    (∀ ks', (ks.map terms).Perm (ks'.map terms) →
      (∀ s, resolveStart x current ks = .ok s ↔ resolveStart x current ks' = .ok s) ∧
      ((∃ fault, resolveStart x current ks = .error fault) ↔
        ∃ fault, resolveStart x current ks' = .error fault)) ∧
    ∀ ks', ks.map terms = ks'.map terms →
      resolveStart x current ks = resolveStart x current ks' := by
  refine ⟨fun hmoves => ?_, fun ks' hperm => ?_, fun ks' hterms => ?_⟩
  · obtain ⟨floor, cap, hwindow⟩ := exists_window? hmoves
    obtain ⟨hfloor, hcap⟩ := window?_eq_some_iff.mp hwindow
    exact ⟨fun s hs => suits_of_resolveStart hfloor hcap hs, resolveStart_fails_iff hfloor hcap⟩
  · rcases resolveStart_perm hperm with heq | ⟨fault, fault', hfault, hfault'⟩
    · rw [heq]
      exact ⟨fun _ => Iff.rfl, Iff.rfl⟩
    · rw [hfault, hfault']
      exact ⟨fun _ => by simp, iff_of_true ⟨fault, rfl⟩ ⟨fault', rfl⟩⟩
  · refine resolveStart_congr ?_ (window?_perm (hterms ▸ .refl _))
    rw [starts_eq_filterMap, starts_eq_filterMap, hterms]

/-- Two starts to be met from above, one from below, and a fixed one between them. -/
def narrowing : List Collision := [
  ⟨Day.first.advance 12, .later, true⟩, ⟨Day.first.advance 16, .earlier, false⟩,
  ⟨Day.first.advance 10, .later, false⟩, ⟨Day.first.advance 14, .fixed, true⟩]

/-- The fixed start lies in the window, so it is found, also with the collisions turned around and
others of them violated. -/
theorem resolveStart_suits_narrowing : (∃ k ∈ narrowing, k.variation ≠ .fixed) ∧
    resolveStart ⟨1⟩ (Day.first.advance 4) narrowing = .ok (Day.first.advance 14) ∧
    (∀ d ∈ days .later narrowing, d ≤ Day.first.advance 14) ∧
    (∀ d ∈ days .earlier narrowing, Day.first.advance 14 ≤ d) ∧
    (∀ d ∈ days .fixed narrowing, Day.first.advance 14 = d) ∧
    (narrowing.map terms).Perm
      ((narrowing.reverse.map fun k => { k with active := !k.active }).map terms) ∧
    resolveStart ⟨1⟩ (Day.first.advance 4)
      (narrowing.reverse.map fun k => { k with active := !k.active }) =
        .ok (Day.first.advance 14) ∧
    resolveStart ⟨1⟩ (Day.first.advance 4) narrowing = resolveStart ⟨1⟩ (Day.first.advance 4)
      (narrowing.map fun k => { k with active := !k.active }) := by
  have hmoves : ∃ k ∈ narrowing, k.variation ≠ .fixed := by decide
  have hfound : resolveStart ⟨1⟩ (Day.first.advance 4) narrowing =
      .ok (Day.first.advance 14) := by
    decide +kernel
  have hperm : (narrowing.map terms).Perm
      ((narrowing.reverse.map fun k => { k with active := !k.active }).map terms) := by
    decide +kernel
  obtain ⟨hsuits, horder, hactive⟩ :=
    resolveStart_suits ⟨1⟩ (Day.first.advance 4) narrowing
  obtain ⟨hlater, hearlier, hfixed, -⟩ := (hsuits hmoves).1 _ hfound
  exact ⟨hmoves, hfound, hlater, hearlier, hfixed, hperm, ((horder _ hperm).1 _).mp hfound,
    hactive _ rfl⟩

end Workplan
