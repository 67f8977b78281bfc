import Workplan.Proofs.Cuts
import Workplan.Proofs.Demands
import Workplan.Proofs.Planning

/-!
# The order of edges

The ranges of a task do not depend on the order in which the edges into it are folded, and not on
where the fold stops because nothing is left.  Narrowing is commutative, of the dates of children
only the extremal ones matter, and a strict range that is empty stays so, whatever else narrows it.
All this holds of contributions with any ranges, not only of those that edges make.

- `Fold.Alike`, `Fold.alike_of_perm`: contributions can be added in any order.
- `Fold.ranges_of_isStuck`: where nothing is left, no ranges are left for the task.
- `Fold.addUntilStuck`, `Project.gather_outcome`: contributions up to where nothing is left.
- `SameRanges`: the same ranges, or none for the task on either side.
- `Fold.ranges_of_perm`: neither order nor stopping matters.
-/

namespace Workplan

variable {f g : Fold} {k : Contribution} {ks ks' : List Contribution} {t : Task}

/-! ## Contributions in any order -/

namespace Contribution

/-- A range that the contribution gives, if it is strict. -/
def demands (k : Contribution) (r : Interval) : Interval :=
  if k.boundaries?.isNone ∧ ¬ k.weak then r else .all

/-- A range that the contribution gives, if it is advice. -/
def advises (k : Contribution) (r : Interval) : Interval :=
  if k.boundaries?.isNone ∧ k.weak then r else .all

/-- Start and end of the child, on the way from a child to its parent. -/
def childDates (k : Contribution) : List Day :=
  match k.boundaries? with
  | some (start, finish) => [start, finish]
  | none => []

end Contribution

/-- The enclosing interval does not depend on the order of the days. -/
theorem Interval.enclosing?_perm {ds es : List Day} (h : ds.Perm es) :
    enclosing? ds = enclosing? es := by
  rcases eq_or_ne ds [] with rfl | hne
  · rw [List.nil_perm.mp h]
  · obtain ⟨a, ha⟩ := Collision.exists_earliest? hne
    obtain ⟨b, hb⟩ := Collision.exists_latest? hne
    rw [enclosing?_eq ha hb]
    rw [Collision.earliest?_congr fun d => h.mem_iff] at ha
    rw [Collision.latest?_congr fun d => h.mem_iff] at hb
    rw [enclosing?_eq ha hb]

namespace Fold

/-- A contribution narrows each range, if only by nothing, and adds dates of children. -/
theorem add_eq (f : Fold) (k : Contribution) : f.add k =
    ⟨f.start.inter (k.demands k.start), f.weakStart.inter (k.advises k.start),
      f.finish.inter (k.demands k.finish), f.weakFinish.inter (k.advises k.finish),
      f.boundaries ++ k.childDates⟩ := by
  obtain ⟨start, finish, weak, boundaries?⟩ := k
  cases boundaries? with
  | some span => simp [add, Contribution.demands, Contribution.advises, Contribution.childDates]
  | none =>
    cases weak <;> simp [add, Contribution.demands, Contribution.advises, Contribution.childDates]

/-- The same ranges, and the same dates of children in any order. -/
structure Alike (f g : Fold) : Prop where
  start : f.start = g.start
  weakStart : f.weakStart = g.weakStart
  finish : f.finish = g.finish
  weakFinish : f.weakFinish = g.weakFinish
  boundaries : f.boundaries.Perm g.boundaries

theorem Alike.refl (f : Fold) : f.Alike f := ⟨rfl, rfl, rfl, rfl, .refl _⟩

theorem Alike.trans {u : Fold} (hfg : f.Alike g) (hgu : g.Alike u) : f.Alike u where
  start := hfg.start.trans hgu.start
  weakStart := hfg.weakStart.trans hgu.weakStart
  finish := hfg.finish.trans hgu.finish
  weakFinish := hfg.weakFinish.trans hgu.weakFinish
  boundaries := hfg.boundaries.trans hgu.boundaries

/-- Alike folds stay alike under one more contribution. -/
theorem Alike.add (h : f.Alike g) (k : Contribution) : (f.add k).Alike (g.add k) := by
  rw [add_eq, add_eq, h.start, h.weakStart, h.finish, h.weakFinish]
  exact ⟨rfl, rfl, rfl, rfl, h.boundaries.append_right _⟩

/-- Alike folds stay alike under a list of contributions. -/
theorem Alike.foldl (h : f.Alike g) (ks : List Contribution) :
    (ks.foldl Fold.add f).Alike (ks.foldl Fold.add g) := by
  induction ks generalizing f g with
  | nil => exact h
  | cons k ks ih => exact ih (h.add k)

/-- Of two contributions, either can come first. -/
theorem alike_add_add (f : Fold) (k k' : Contribution) :
    ((f.add k).add k').Alike ((f.add k').add k) := by
  simp only [add_eq]
  refine ⟨Interval.inter_right_comm _ _ _, Interval.inter_right_comm _ _ _,
    Interval.inter_right_comm _ _ _, Interval.inter_right_comm _ _ _, ?_⟩
  rw [List.append_assoc, List.append_assoc]
  exact List.perm_append_comm.append_left f.boundaries

/-- **Contributions can be added in any order.** -/
theorem alike_of_perm (h : ks.Perm ks') (f : Fold) :
    (ks.foldl Fold.add f).Alike (ks'.foldl Fold.add f) := by
  induction h generalizing f with
  | nil => exact .refl f
  | cons k _ ih => exact ih (f.add k)
  | swap k k' ks => exact (alike_add_add f k' k).foldl ks
  | trans _ _ ih ih' => exact (ih f).trans (ih' f)

namespace Alike

variable (h : f.Alike g) (t : Task)
include h

theorem extent : f.extent t = g.extent t := by
  rw [Fold.extent, Fold.extent, Interval.enclosing?_perm h.boundaries]

theorem combinedStart : f.combinedStart t = g.combinedStart t := by
  rw [Fold.combinedStart, Fold.combinedStart, h.start, h.weakStart, h.extent]

theorem combinedFinish : f.combinedFinish t = g.combinedFinish t := by
  rw [Fold.combinedFinish, Fold.combinedFinish, h.finish, h.weakFinish, h.extent]

theorem anchoredStart : f.anchoredStart t = g.anchoredStart t := by
  rw [Fold.anchoredStart, Fold.anchoredStart, h.combinedStart]

theorem confined (r : Interval) : f.confined t r = g.confined t r := by
  rw [Fold.confined, Fold.confined, h.boundaries.isEmpty_eq, h.extent]

/-- Folds that are alike leave the same ranges. -/
theorem ranges : f.ranges t = g.ranges t := by
  rw [Fold.ranges, Fold.ranges, h.anchoredStart, h.combinedFinish, h.confined, h.confined]

end Alike

end Fold

/-! ## Where nothing is left -/

/-- A strict range that is empty wins over any advice. -/
theorem isEmpty_combine {strong : Interval} (h : strong.isEmpty) (weak extent : Interval) :
    (combine strong weak extent).isEmpty := by
  rw [combine, if_pos (by simpa using Interval.not_isAll_of_isEmpty h)]
  exact Interval.isEmpty_inter h weak

namespace Fold

/-- A fold is stuck when no start or no finish is left. -/
theorem isStuck_iff : f.isStuck ↔ f.start.isEmpty ∨ f.finish.isEmpty := by
  rw [isStuck, Bool.or_eq_true]

/-- **Once nothing is left, nothing is left**, whatever is added. -/
theorem isStuck_add (h : f.isStuck) (k : Contribution) : (f.add k).isStuck := by
  rw [isStuck_iff] at h
  rw [isStuck_iff, add_eq]
  exact h.imp (fun hstart => Interval.isEmpty_inter hstart _)
    fun hfinish => Interval.isEmpty_inter hfinish _

/-- A stuck fold stays stuck: contributions only narrow it. -/
theorem isStuck_foldl (h : f.isStuck) (ks : List Contribution) : (ks.foldl add f).isStuck := by
  induction ks generalizing f with
  | nil => exact h
  | cons k ks ih => exact ih (isStuck_add h k)

/-- Confining leaves an empty range empty. -/
theorem isEmpty_confined {r : Interval} (h : r.isEmpty) : (f.confined t r).isEmpty := by
  rw [confined]
  split
  · exact h
  · exact Interval.isEmpty_inter h _

theorem isEmpty_anchoredStart (h : f.start.isEmpty) : (f.anchoredStart t).isEmpty := by
  have hcombined : (f.combinedStart t).isEmpty := isEmpty_combine h _ _
  rw [anchoredStart]
  cases t.earliestBegin with
  | none => exact hcombined
  | some anchor => exact Interval.isEmpty_inter hcombined _

/-- A task has ranges, or there is a reason why it has none. -/
theorem ranges_cases (f : Fold) (t : Task) : (∃ r, f.ranges t = .ok r) ∨
    ∃ reason, f.ranges t = .error (.unsatisfiable t.id reason) := by
  rw [ranges]
  split_ifs
  · exact .inr ⟨_, rfl⟩
  · exact .inr ⟨_, rfl⟩
  · exact .inl ⟨_, rfl⟩

/-- **Where nothing is left, no ranges are left for the task**, whatever it brings along. -/
theorem ranges_of_isStuck (h : f.isStuck) (t : Task) :
    ∃ reason, f.ranges t = .error (.unsatisfiable t.id reason) := by
  rw [ranges]
  rcases isStuck_iff.mp h with hstart | hfinish
  · exact ⟨_, if_pos (isEmpty_confined (isEmpty_anchoredStart hstart))⟩
  · have hempty : (f.confined t (f.combinedFinish t)).isEmpty :=
      isEmpty_confined (isEmpty_combine hfinish _ _)
    rw [if_pos hempty]
    split
    · exact ⟨_, rfl⟩
    · exact ⟨_, rfl⟩

/-! ## Stopping -/

/-- Adds contributions, up to the first one after which nothing is left. -/
def addUntilStuck : Fold → List Contribution → Fold
  | f, [] => f
  | f, k :: ks => if (f.add k).isStuck then f.add k else (f.add k).addUntilStuck ks

/-- Stopping changes nothing, or nothing is left with stopping and without. -/
theorem addUntilStuck_cases (f : Fold) (ks : List Contribution) :
    f.addUntilStuck ks = ks.foldl add f ∨
      (f.addUntilStuck ks).isStuck ∧ (ks.foldl add f).isStuck := by
  induction ks generalizing f with
  | nil => exact .inl rfl
  | cons k ks ih =>
    rw [addUntilStuck, List.foldl_cons]
    split
    · next hstuck => exact .inr ⟨hstuck, isStuck_foldl hstuck ks⟩
    · exact ih (f.add k)

end Fold

/-- Both are the same ranges, or there are none for the task on either side.  The reasons may be
different. -/
inductive SameRanges (t : Task) : Except Fault Ranges → Except Fault Ranges → Prop
  | same (r : Ranges) : SameRanges t (.ok r) (.ok r)
  | none (reason reason' : Conflict) : SameRanges t
      (.error (.unsatisfiable t.id reason)) (.error (.unsatisfiable t.id reason'))

namespace SameRanges

variable {a b d : Except Fault Ranges}

theorem symm (h : SameRanges t a b) : SameRanges t b a := by
  cases h with
  | same r => exact .same r
  | none reason reason' => exact .none reason' reason

theorem trans (hab : SameRanges t a b) (hbd : SameRanges t b d) : SameRanges t a d := by
  cases hab with
  | same r => exact hbd
  | none reason reason' =>
    cases hbd with
    | none _ reason'' => exact .none reason reason''

end SameRanges

namespace Fold

theorem sameRanges_self (f : Fold) (t : Task) : SameRanges t (f.ranges t) (f.ranges t) := by
  rcases f.ranges_cases t with ⟨r, h⟩ | ⟨reason, h⟩
  · rw [h]
    exact .same r
  · rw [h]
    exact .none reason reason

/-- Stopping, on the one side only and in another order, changes nothing about the ranges. -/
theorem sameRanges_addUntilStuck (h : ks.Perm ks') (f : Fold) (t : Task) :
    SameRanges t ((f.addUntilStuck ks).ranges t) ((ks'.foldl add f).ranges t) := by
  rw [← (alike_of_perm h f).ranges t]
  rcases f.addUntilStuck_cases ks with heq | ⟨hstopped, hall⟩
  · rw [heq]
    exact sameRanges_self _ t
  · obtain ⟨reason, hreason⟩ := ranges_of_isStuck hstopped t
    obtain ⟨reason', hreason'⟩ := ranges_of_isStuck hall t
    rw [hreason, hreason']
    exact .none reason reason'

/-- Stopping on both sides, each in its own order, changes nothing about the ranges. -/
theorem sameRanges_of_perm (h : ks.Perm ks') (f : Fold) (t : Task) :
    SameRanges t ((f.addUntilStuck ks).ranges t) ((f.addUntilStuck ks').ranges t) :=
  (sameRanges_addUntilStuck h f t).trans (sameRanges_addUntilStuck (.refl ks') f t).symm

end Fold

/-! ## The edges into a task -/

namespace Project

variable {p : Project} {edges edges' : List Edge}

/-- What edges contribute, in order. -/
def contributions (p : Project) (edges : List Edge) : List Contribution :=
  edges.filterMap fun e => (p.contribution? e).toOption.join

/-- Edges are folded as their contributions are. -/
theorem gather_outcome (h : ∀ e ∈ edges, ∃ k?, p.contribution? e = .ok k?) (f : Fold) :
    (p.gather f edges).outcome = .ok (f.addUntilStuck (p.contributions edges)) := by
  induction edges generalizing f with
  | nil => rfl
  | cons e edges ih =>
    have hrest := fun e' he' => h e' (List.mem_cons_of_mem e he')
    obtain ⟨k?, hk⟩ := h e List.mem_cons_self
    rw [gather_cons, contributions, List.filterMap_cons, hk]
    cases k? with
    | none => exact ih hrest f
    | some k =>
      show (if (f.add k).isStuck then .ok (f.add k) else (p.gather (f.add k) edges).outcome) =
        .ok (if (f.add k).isStuck then f.add k
          else (f.add k).addUntilStuck (p.contributions edges))
      split
      · rfl
      · exact ih hrest (f.add k)

/-- Edges that all contribute give the ranges of their contributions, added until the fold is
stuck. -/
theorem rangesFor_eq (h : ∀ e ∈ edges, ∃ k?, p.contribution? e = .ok k?) (t : Task) :
    (p.rangesFor t edges).outcome =
      (Fold.empty.addUntilStuck (p.contributions edges)).ranges t := by
  rw [rangesFor_outcome, gather_outcome h]
  rfl

end Project

/-- **The ranges of a task depend neither on the order of contributions nor on stopping.**  For
contributions with any ranges, a fold that stops as soon as nothing is left and a fold over all of
them in any other order, stopping or not, leave the same ranges for the task, or none on either
side.  The edges into a task are folded in this way, so their order does not matter. -/
theorem Fold.ranges_of_perm (h : ks.Perm ks') (t : Task) :
    SameRanges t ((empty.addUntilStuck ks).ranges t) ((ks'.foldl add empty).ranges t) ∧
      SameRanges t ((empty.addUntilStuck ks).ranges t) ((empty.addUntilStuck ks').ranges t) ∧
      ∀ (p : Project) (edges edges' : List Edge),
        (∀ e ∈ edges, ∃ k?, p.contribution? e = .ok k?) → edges.Perm edges' →
        (p.rangesFor t edges).outcome =
            (empty.addUntilStuck (p.contributions edges)).ranges t ∧
          SameRanges t (p.rangesFor t edges).outcome (p.rangesFor t edges').outcome := by
  refine ⟨sameRanges_addUntilStuck h empty t, sameRanges_of_perm h empty t,
    fun p edges edges' hedges hperm => ?_⟩
  have hedges' : ∀ e ∈ edges', ∃ k?, p.contribution? e = .ok k? :=
    fun e he => hedges e (hperm.mem_iff.mpr he)
  rw [Project.rangesFor_eq hedges, Project.rangesFor_eq hedges']
  exact ⟨rfl, sameRanges_of_perm (hperm.filterMap _) empty t⟩

/-- A start from a day on and a start before that day, with advice before them and a child
behind. -/
def crossing : List Contribution := [
  ⟨.atMost (Day.first.advance 30), .atLeast (Day.first.advance 8), true, none⟩,
  ⟨.atLeast (Day.first.advance 11), .all, false, none⟩,
  ⟨.before (Day.first.advance 11), .after (Day.first.advance 2), false, none⟩,
  ⟨.all, .all, false, some (Day.first.advance 15, Day.first.advance 12)⟩]

/-- A lodge that must not begin before its third day and waits for a survey, with its walls. -/
def lodgePlan : Project :=
  (Project.empty .standard).after [
    .addTask "survey" (Day.first.advance 4) (.days 5),
    .addTask "walls" (Day.first.advance 6) (.days 2),
    .addTask "lodge" (Day.first.advance 4) (.days 5),
    .place ⟨2⟩ ⟨3⟩,
    .addDependency ⟨1⟩ ⟨3⟩ .finishStart .rubber 0,
    .change (.revise ⟨3⟩ { anchor? := some ⟨some .earliestBegin, some (Day.first.advance 6)⟩ })]

/-- No start is left for the lodge if two of them exclude each other, and the reason is another one
where the child comes first.  The walls and the survey leave the same in either order. -/
theorem ranges_of_perm_lodgePlan : ∃ lodge, lodgePlan.task? ⟨3⟩ = some lodge ∧
    crossing.Perm crossing.reverse ∧
    (Fold.empty.addUntilStuck crossing).ranges lodge ≠
      (crossing.reverse.foldl Fold.add .empty).ranges lodge ∧
    SameRanges lodge ((Fold.empty.addUntilStuck crossing).ranges lodge)
      ((crossing.reverse.foldl Fold.add .empty).ranges lodge) ∧
    SameRanges lodge ((Fold.empty.addUntilStuck crossing).ranges lodge)
      ((Fold.empty.addUntilStuck crossing.reverse).ranges lodge) ∧
    lodgePlan.network.incoming ⟨3⟩ = [.ofChild ⟨2⟩ ⟨3⟩, ⟨.waiting ⟨0⟩ false, ⟨1⟩, ⟨3⟩⟩] ∧
    SameRanges lodge (lodgePlan.rangesFor lodge (lodgePlan.network.incoming ⟨3⟩)).outcome
      (lodgePlan.rangesFor lodge (lodgePlan.network.incoming ⟨3⟩).reverse).outcome := by
  have hlodge : lodgePlan.task? ⟨3⟩ = some ⟨⟨3⟩, "lodge", ⟨4, by decide⟩, ⟨9, by decide⟩, .days 5,
      false, ⟨some .earliestBegin, some (Day.first.advance 6)⟩⟩ := by
    decide +kernel
  have hincoming : lodgePlan.network.incoming ⟨3⟩ =
      [.ofChild ⟨2⟩ ⟨3⟩, ⟨.waiting ⟨0⟩ false, ⟨1⟩, ⟨3⟩⟩] := by
    decide +kernel
  have hfound : (lodgePlan.network.incoming ⟨3⟩).mapM lodgePlan.contribution? = .ok [
      some ⟨.atMost (Day.first.advance 6), .atLeast (Day.first.advance 8), false,
        some (Day.first.advance 6, Day.first.advance 8)⟩,
      some ⟨.atLeast (Day.first.advance 11), .all, false, none⟩] := by
    decide +kernel
  have hperm : crossing.Perm crossing.reverse := (List.reverse_perm crossing).symm
  obtain ⟨hstopped, hboth, hedges⟩ := Fold.ranges_of_perm hperm ⟨⟨3⟩, "lodge", ⟨4, by decide⟩,
    ⟨9, by decide⟩, .days 5, false, ⟨some .earliestBegin, some (Day.first.advance 6)⟩⟩
  obtain ⟨-, hsame⟩ := hedges lodgePlan _ _ (exists_of_mapM_eq_ok hfound)
    (List.reverse_perm (lodgePlan.network.incoming ⟨3⟩)).symm
  exact ⟨_, hlodge, hperm, by decide +kernel, hstopped, hboth, hincoming, hsame⟩

end Workplan
