import Mathlib.Order.MinMax
import Workplan.Proofs.Days
import Workplan.Recompute.Resolution
import Workplan.Scheduling.Fold

/-!
# Bounds from below

Every edge but those from children bounds a start from below.  So what the edges leave is
known from the days that they name, and the order of the edges does not matter.

- `Collision.latest?_eq_some_iff`, `Collision.earliest?_eq_some_iff`: extremal days of a list.
- `Interval.above`: the days from the latest of some days on.
- `Fold.ofDays`: what is left by edges that name these days.
- `Fold.ranges_ofDays`, `Fold.ranges_ofDays_container`: the ranges of a task without children
  and of a container.
-/

namespace Workplan

/-! ## The latest and the earliest of some days -/

namespace Collision

variable {ds es : List Day} {m d : Day}

/-- Folding `max` from `a` gives the greatest element of `a :: xs`. -/
theorem foldl_max_spec {α : Type} [LinearOrder α] (xs : List α) (a : α) :
    xs.foldl max a ∈ a :: xs ∧ ∀ x ∈ a :: xs, x ≤ xs.foldl max a := by
  induction xs generalizing a with
  | nil => simp
  | cons b xs ih =>
    obtain ⟨hmem, hle⟩ := ih (max a b)
    rw [List.foldl_cons]
    constructor
    · rcases List.mem_cons.mp hmem with heq | hmem
      · rw [heq]
        rcases max_choice a b with h | h
        · rw [h]
          exact List.mem_cons_self
        · rw [h]
          exact List.mem_cons_of_mem a List.mem_cons_self
      · exact List.mem_cons_of_mem a (List.mem_cons_of_mem b hmem)
    · have hmax := hle _ List.mem_cons_self
      intro x hx
      rcases List.mem_cons.mp hx with rfl | hx
      · exact (le_max_left x b).trans hmax
      · rcases List.mem_cons.mp hx with rfl | hx
        · exact (le_max_right a x).trans hmax
        · exact hle x (List.mem_cons_of_mem _ hx)

/-- The latest day of a list is the one of its days that no other exceeds. -/
theorem latest?_eq_some_iff : latest? ds = some m ↔ m ∈ ds ∧ ∀ d ∈ ds, d ≤ m := by
  cases ds with
  | nil => simp [latest?]
  | cons d ds =>
    obtain ⟨hmem, hle⟩ := foldl_max_spec ds d
    rw [latest?, Option.some.injEq]
    constructor
    · rintro rfl
      exact ⟨hmem, hle⟩
    · rintro ⟨hm, hmax⟩
      exact le_antisymm (hmax _ hmem) (hle m hm)

theorem latest?_eq_none_iff : latest? ds = none ↔ ds = [] := by
  cases ds <;> simp [latest?]

/-- The latest day does not depend on order and repetitions. -/
theorem latest?_congr (h : ∀ d, d ∈ ds ↔ d ∈ es) : latest? ds = latest? es := by
  refine Option.ext fun m => ?_
  rw [latest?_eq_some_iff, latest?_eq_some_iff]
  simp only [h]

theorem exists_latest? (h : ds ≠ []) : ∃ m, latest? ds = some m :=
  Option.ne_none_iff_exists'.mp (latest?_eq_none_iff.not.mpr h)

/-- The latest day stays the latest when all are moved without overtaking. -/
theorem latest?_map {f : Day → Day} (hf : Monotone f) (h : latest? ds = some m) :
    latest? (ds.map f) = some (f m) := by
  obtain ⟨hmem, hmax⟩ := latest?_eq_some_iff.mp h
  refine latest?_eq_some_iff.mpr ⟨List.mem_map_of_mem hmem, fun day hday => ?_⟩
  obtain ⟨d, hd, rfl⟩ := List.mem_map.mp hday
  exact hf (hmax d hd)

theorem earliest?_eq_some_iff : earliest? ds = some m ↔ m ∈ ds ∧ ∀ d ∈ ds, m ≤ d := by
  cases ds with
  | nil => simp [earliest?]
  | cons d ds =>
    -- the order turned around
    obtain ⟨hmem, hle⟩ := foldl_max_spec (α := Dayᵒᵈ) ds d
    rw [earliest?, Option.some.injEq]
    constructor
    · rintro rfl
      exact ⟨hmem, hle⟩
    · rintro ⟨hm, hmin⟩
      exact le_antisymm (hle m hm) (hmin _ hmem)

theorem earliest?_eq_none_iff : earliest? ds = none ↔ ds = [] := by
  cases ds <;> simp [earliest?]

theorem earliest?_congr (h : ∀ d, d ∈ ds ↔ d ∈ es) : earliest? ds = earliest? es := by
  refine Option.ext fun m => ?_
  rw [earliest?_eq_some_iff, earliest?_eq_some_iff]
  simp only [h]

theorem exists_earliest? (h : ds ≠ []) : ∃ m, earliest? ds = some m :=
  Option.ne_none_iff_exists'.mp (earliest?_eq_none_iff.not.mpr h)

end Collision

open Collision

/-! ## Intervals without an upper end -/

namespace Interval

variable {ds es : List Day} {m d a b : Day}

/-- The days that are not before any of the given ones. -/
def above (ds : List Day) : Interval := ((latest? ds).map atLeast).getD all

@[simp] theorem above_nil : above [] = all := rfl

/-- Bounding from below by several days is bounding by the latest of them. -/
theorem above_of_latest? (h : latest? ds = some m) : above ds = atLeast m := by
  rw [above, h]
  rfl

/-- The bound from below depends only on which days the list holds. -/
theorem above_congr (h : ∀ d, d ∈ ds ↔ d ∈ es) : above ds = above es := by
  rw [above, above, latest?_congr h]

@[simp] theorem upper_above : (above ds).upper = .unbounded := by
  rw [above]
  cases latest? ds <;> rfl

theorem endpoint_lower_above : (above ds).lower.endpoint = latest? ds := by
  rw [above]
  cases latest? ds <;> rfl

theorem isAll_above : (above ds).isAll ↔ ds = [] := by
  cases ds with
  | nil => exact iff_of_true rfl rfl
  | cons d ds => exact iff_of_false Bool.false_ne_true (List.cons_ne_nil d ds)

@[simp] theorem all_inter (r : Interval) : all.inter r = r := by
  rcases r with ⟨_ | _, _ | _⟩ <;> rfl

@[simp] theorem inter_all (r : Interval) : r.inter all = r := by
  rcases r with ⟨_ | _ | _, _ | _ | _⟩ <;> rfl

/-- Of two lower bounds the later one holds. -/
theorem atLeast_inter_atLeast : (atLeast a).inter (atLeast b) = atLeast (max a b) := by
  simp only [atLeast, inter, Bound.looserBelow, Bound.looserAbove, decide_eq_true_eq]
  rcases le_or_gt a b with h | h
  · rw [if_pos h, max_eq_right h]
    rfl
  · rw [if_neg (not_le.mpr h), max_eq_left h.le]
    rfl

theorem atLeast_inter_closed : (atLeast d).inter (closed a b) = closed (max d a) b := by
  simp only [atLeast, closed, inter, Bound.looserBelow, Bound.looserAbove, decide_eq_true_eq]
  rcases le_or_gt d a with h | h
  · rw [if_pos h, max_eq_right h]
    rfl
  · rw [if_neg (not_le.mpr h), max_eq_left h.le]
    rfl

theorem closed_hull_atLeast : (closed a b).hull (atLeast d) = atLeast (min a d) := by
  simp only [atLeast, closed, hull, Bound.looserBelow, Bound.looserAbove, decide_eq_true_eq]
  rcases le_or_gt a d with h | h
  · rw [if_pos h, min_eq_left h]
    rfl
  · rw [if_neg (not_le.mpr h), min_eq_right h.le]
    rfl

/-- Narrowing adds the days. -/
theorem above_inter : (above ds).inter (above es) = above (ds ++ es) := by
  cases hds : latest? ds with
  | none =>
    rw [latest?_eq_none_iff.mp hds]
    simp
  | some a =>
    cases hes : latest? es with
    | none =>
      rw [latest?_eq_none_iff.mp hes]
      simp
    | some b =>
      rw [above_of_latest? hds, above_of_latest? hes, atLeast_inter_atLeast]
      refine (above_of_latest? ?_).symm
      rw [latest?_eq_some_iff] at hds hes ⊢
      refine ⟨?_, fun d hd => ?_⟩
      · rcases max_choice a b with h | h
        · rw [h]
          exact List.mem_append_left es hds.1
        · rw [h]
          exact List.mem_append_right ds hes.1
      · rcases List.mem_append.mp hd with hd | hd
        · exact (hds.2 d hd).trans (le_max_left a b)
        · exact (hes.2 d hd).trans (le_max_right a b)

theorem above_singleton (d : Day) : above [d] = atLeast d := rfl

/-- Cutting a closed interval from below moves its lower end to the latest of the days and its
own. -/
theorem above_inter_closed (ds : List Day) :
    ∃ m, latest? (ds ++ [a]) = some m ∧ (above ds).inter (closed a b) = closed m b := by
  obtain ⟨m, hm⟩ := exists_latest? (List.append_ne_nil_of_right_ne_nil ds (List.cons_ne_nil a []))
  refine ⟨m, hm, ?_⟩
  cases hds : latest? ds with
  | none =>
    rw [latest?_eq_none_iff.mp hds] at hm ⊢
    cases hm
    exact all_inter _
  | some d =>
    rw [above_of_latest? hds, atLeast_inter_closed]
    have := above_of_latest? hm
    rw [← above_inter, above_of_latest? hds, above_singleton, atLeast_inter_atLeast] at this
    cases this
    rfl

/-- The days' enclosing interval runs from the earliest to the latest of them. -/
theorem enclosing?_eq (hmin : earliest? ds = some a) (hmax : latest? ds = some b) :
    enclosing? ds = some (closed a b) := by
  cases ds with
  | nil => cases hmin
  | cons d ds =>
    cases hmin
    cases hmax
    rfl

end Interval

/-! ## What the edges leave -/

namespace Fold

variable {strict advice children : List Day} {t : Task}

/-- What is left by edges that name these days: the ones that bind, those that advise, and
starts and ends of children. -/
def ofDays (strict advice children : List Day) : Fold :=
  ⟨.above strict, .above advice, .all, .all, children⟩

/-- The days that bound the start of a task from below.  Advice on its own does not bring a
task forward. -/
def floors (strict advice : List Day) (t : Task) : List Day :=
  strict ++ advice ++ (if strict = [] ∧ advice ≠ [] then [t.start] else []) ++
    t.earliestBegin.toList

theorem combinedFinish_ofDays : (ofDays strict advice children).combinedFinish t = .all := rfl

/-- Rubber bounds alone cut the children's extent; as soon as a strong bound exists, bounds of
both hardnesses count alike and the
extent is not asked. -/
theorem combine_above (extent : Interval) :
    combine (.above strict) (.above advice) extent =
      if strict = [] ∧ advice ≠ [] then (Interval.above advice).inter extent
      else .above (strict ++ advice) := by
  by_cases hstrict : strict = []
  · subst hstrict
    by_cases hadvice : advice = []
    · subst hadvice
      rfl
    · rw [if_pos ⟨rfl, hadvice⟩, combine, if_neg, if_pos]
      · simpa using Interval.isAll_above.not.mpr hadvice
      · simp [Interval.isAll, Interval.all, Bound.isBounded, Bound.endpoint]
  · rw [if_neg fun h => hstrict h.1, combine, if_pos, Interval.above_inter]
    simpa using Interval.isAll_above.not.mpr hstrict

/-- The lower ends a container keeps: its bounds, its own start where only rubber bounds hold it,
and its anchor. -/
theorem anchoredStart_ofDays {first last : Day}
    (hextent : (ofDays strict advice children).extent t = .closed first last) :
    (ofDays strict advice children).anchoredStart t =
      .above (strict ++ advice ++
        (if strict = [] ∧ advice ≠ [] then [min first t.start] else []) ++
          t.earliestBegin.toList) := by
  have hcombined : (ofDays strict advice children).combinedStart t =
      .above
        (strict ++ advice ++ if strict = [] ∧ advice ≠ [] then [min first t.start] else []) := by
    rw [combinedStart, hextent, Interval.closed_hull_atLeast]
    show combine (.above strict) (.above advice) _ = _
    rw [combine_above]
    split
    · next h => rw [h.1, List.nil_append, ← Interval.above_inter, Interval.above_singleton]
    · rw [List.append_nil]
  rw [anchoredStart, hcombined]
  cases t.earliestBegin with
  | none => simp
  | some anchor =>
    show Interval.inter _ (.above [anchor]) = _
    rw [Interval.above_inter]
    rfl

/-- The ranges of a task without children. -/
theorem ranges_ofDays : (ofDays strict advice []).ranges t =
    .ok ⟨.above (floors strict advice t), .all⟩ := by
  have hstart := anchoredStart_ofDays
    (show (ofDays strict advice []).extent t = .closed t.start t.finish from rfl)
  rw [min_self] at hstart
  have hempty : (Interval.above (floors strict advice t)).isEmpty = false := by
    rw [Interval.isEmpty, Interval.upper_above]
    cases (Interval.above (floors strict advice t)).lower <;> rfl
  rw [ranges]
  show (if ((ofDays strict advice []).anchoredStart t).isEmpty then _
    else if Interval.all.isEmpty then _ else _) = _
  rw [hstart]
  show (if (Interval.above (floors strict advice t)).isEmpty then _ else _) = _
  rw [hempty]
  rfl

/-- **The ranges of a container.**  Its own start does not matter. -/
theorem ranges_ofDays_container (strict advice : List Day) (t : Task) {first last : Day}
    (hfirst : earliest? children = some first)
    (hlast : latest? children = some last) :
    ∃ m, latest? (strict ++ advice ++ t.earliestBegin.toList ++ [first]) = some m ∧
      (ofDays strict advice children).ranges t =
        if last < m then .error (.unsatisfiable t.id (.noStart (.closed m last)))
        else .ok ⟨.closed m last, .closed first last⟩ := by
  have hextent : (ofDays strict advice children).extent t = .closed first last := by
    rw [extent]
    show (Interval.enclosing? children).getD _ = _
    rw [Interval.enclosing?_eq hfirst hlast]
    rfl
  have hne : children.isEmpty = false := by
    rw [List.isEmpty_eq_false_iff_exists_mem]
    exact ⟨first, (earliest?_eq_some_iff.mp hfirst).1⟩
  have hle : first ≤ last :=
    (earliest?_eq_some_iff.mp hfirst).2 last (latest?_eq_some_iff.mp hlast).1
  have hconfined : ∀ r, (ofDays strict advice children).confined t r =
    r.inter (.closed first last) := by
    intro r
    rw [confined, hextent]
    show (if children.isEmpty then r else _) = _
    rw [hne]
    rfl
  obtain ⟨m, hm, hinter⟩ := Interval.above_inter_closed (a := first) (b := last)
    (strict ++ advice ++ (if strict = [] ∧ advice ≠ [] then [min first t.start] else []) ++
      t.earliestBegin.toList)
  refine ⟨m, ?_, ?_⟩
  · -- the start of the task is outdone by the earliest child
    rw [latest?_eq_some_iff] at hm ⊢
    obtain ⟨hmem, hmax⟩ := hm
    have hle : first ≤ m := hmax first (by simp)
    refine ⟨?_, fun d hd => hmax d ?_⟩
    · simp only [List.mem_append] at hmem ⊢
      rcases hmem with ((h | h) | h) | h
      · exact .inl (.inl h)
      · split at h
        · have hm : m ≤ first := by
            rw [List.mem_singleton.mp h]
            exact min_le_left first t.start
          exact .inr (List.mem_singleton.mpr (le_antisymm hm hle))
        · exact absurd h List.not_mem_nil
      · exact .inl (.inr h)
      · exact .inr h
    · simp only [List.mem_append] at hd ⊢
      rcases hd with (h | h) | h
      · exact .inl (.inl (.inl h))
      · exact .inl (.inr h)
      · exact .inr h
  · -- the children are never reversed, so the range is empty only for bounds after them
    have hstart : (Interval.closed m last).isEmpty = decide (last < m) := rfl
    have hfinish : (Interval.closed first last).isEmpty = false := by
      show decide (last < first) = false
      simpa using hle
    rw [ranges, hconfined, hconfined, anchoredStart_ofDays hextent, hinter, combinedFinish_ofDays,
      Interval.all_inter, hstart, hfinish]
    by_cases hlt : last < m
    · simp [hlt]
    · simp [hlt]

end Fold

end Workplan
