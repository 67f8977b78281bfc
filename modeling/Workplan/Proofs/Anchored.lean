import Mathlib.Order.Bounds.Defs
import Workplan.Proofs.LeafStart

/-!
# Containers with an anchor

A container that waits for nothing starts with the first day of its children, or at its anchor if
that is later.  The anchor does not reach the children, which may start before it.

- `ContainerOutcome.task?_of_error`: a container that cannot be fitted is named.
- `ContainerOutcome.start_eq`: every other one gets its start.
- `anchored_start`: where a container with an anchor starts, and when it is around its children.
- `schedule_porchPlan`: where it is not.
-/

namespace Workplan

open Collision

variable {p : Project} {x : TaskId} {t t' : Task} {result : Except Fault Bool} {c : Calendar}
  {start last : Day}

namespace ContainerOutcome

/-- Only the container itself is named by a fault. -/
theorem task?_of_error {fault : Fault} (h : ContainerOutcome c t start last t' (.error fault)) :
    fault.task? = some t.id := by
  cases h
  rfl

/-- Without a fault there was room, and the container has its start. -/
theorem start_eq (h : ContainerOutcome c t start last t' result)
    (hfine : ∀ fault, result ≠ .error fault) : start ≤ last ∧ t'.start = start := by
  cases h with
  | refused => exact absurd rfl (hfine _)
  | still hle hstart => exact ⟨hle, hstart.symm⟩
  | fitted _ _ hle => exact ⟨hle, rfl⟩

end ContainerOutcome

/-- A task is bound by nothing if neither it nor anything that contains it is a dependant. -/
theorem Project.binding_eq_nil (hp : p.Sound)
    (h : ∀ d ∈ p.dependencies, d.dependant ≠ x ∧ ¬ p.Inside x d.dependant) : p.binding x = [] := by
  refine List.eq_nil_iff_forall_not_mem.mpr fun d hd => ?_
  obtain ⟨hd, hbound⟩ := mem_binding.mp hd
  rw [hp.isAncestor_iff (hp.ne_root (hp.dependant_mem d hd))] at hbound
  exact hbound.elim (h d hd).1 (h d hd).2

/-- **The start of a container with an anchor, exactly.**  If neither the container nor anything
that contains it is a dependant, then it starts on the first of the final days of its children, or
at its anchor if that is later.  So it starts no later than its children if and only if none of
them starts before the anchor. -/
theorem anchored_start {report : RunReport} {anchor : Day} (hp : p.Reachable)
    (hrun : p.schedule.1 = .ok report) (ht : p.task? x = some t) (hparent : p.hasChildren x)
    (hanchor : t.earliestBegin = some anchor)
    (hfree : ∀ d ∈ p.dependencies, d.dependant ≠ x ∧ ¬ p.Inside x d.dependant)
    (hfine : ∀ fault ∈ report.errors, fault.task? ≠ some x) :
    ∃ (t' : Task) (first : Day), p.schedule.2.task? x = some t' ∧
      IsLeast {day | ∃ child ∈ p.children x, ∃ u, p.schedule.2.task? child = some u ∧
        (day = u.start ∨ day = u.finish)} first ∧
      t'.start = max anchor first ∧
      ((∀ child ∈ p.children x, ∀ u, p.schedule.2.task? child = some u → t'.start ≤ u.start) ↔
        ∀ child ∈ p.children x, ∀ u, p.schedule.2.task? child = some u → anchor ≤ u.start) := by
  have hsound := hp.sound
  have hnone := Project.binding_eq_nil hsound hfree
  obtain ⟨result, before, after, hdated, herrors⟩ := exists_datedAt hsound hrun ht
  obtain ⟨accept, t', first, last, start, -, ht', hfirst, -, hstart, hout⟩ :=
    hdated.container hsound ht hparent fun d hd => by
      rw [hnone] at hd
      exact absurd hd List.not_mem_nil
  -- a fault would name the container
  obtain ⟨-, hgiven⟩ := hout.start_eq fun fault hfault => by
    subst hfault
    refine hfine fault (herrors fault rfl) ?_
    rw [hout.task?_of_error, Project.id_of_task? ht]
  have hmax : t'.start = max anchor first := by
    rw [hgiven]
    rw [hnone, hanchor] at hstart
    exact (Option.some.inj hstart).symm
  have hleast : IsLeast {day | ∃ child ∈ p.children x, ∃ u, p.schedule.2.task? child = some u ∧
      (day = u.start ∨ day = u.finish)} first := by
    rw [earliest?_eq_some_iff] at hfirst
    rw [← hdated.finalFrame.children]
    exact ⟨Project.mem_childDays.mp hfirst.1,
      fun day hday => hfirst.2 day (Project.mem_childDays.mpr hday)⟩
  refine ⟨t', first, ht', hleast, hmax, ?_⟩
  rw [hmax]
  refine forall₂_congr fun child hchild => forall₂_congr fun u hu => ?_
  exact max_le_iff.trans (and_iff_left (hleast.2 ⟨child, hchild, u, hu, .inl rfl⟩))

/-- A house of five days with its walls.  The house does not begin before a day. -/
def porchPlan (anchor : Day) : Project :=
  (Project.empty .standard).after [
    .addTask "house" (Day.first.advance 4) (.days 5),
    .addTask "walls" (Day.first.advance 4) (.days 5),
    .place ⟨2⟩ ⟨1⟩,
    .change (.revise ⟨1⟩ { anchor? := some ⟨some .earliestBegin, some anchor⟩ })]

/-- An anchor before the walls does not keep the house away from them. -/
theorem anchored_start_porchPlan :
    ∃ house first, (porchPlan (Day.first.advance 1)).schedule.2.task? ⟨1⟩ = some house ∧
      house.start = max (Day.first.advance 1) first ∧
      ∀ child ∈ (porchPlan (Day.first.advance 1)).children ⟨1⟩, ∀ u,
        (porchPlan (Day.first.advance 1)).schedule.2.task? child = some u →
          house.start ≤ u.start := by
  have hp : (porchPlan (Day.first.advance 1)).Reachable := (Project.Reachable.empty _).after _
  have hrun : (porchPlan (Day.first.advance 1)).schedule.1 = .ok ⟨2, [], [], false⟩ := by
    decide +kernel
  have hhouse : (porchPlan (Day.first.advance 1)).task? ⟨1⟩ = some ⟨⟨1⟩, "house",
      ⟨4, by decide⟩, ⟨9, by decide⟩, .days 5, false,
      ⟨some .earliestBegin, some (Day.first.advance 1)⟩⟩ := by
    decide +kernel
  have hwalls : ((porchPlan (Day.first.advance 1)).schedule.2.task? ⟨2⟩).map Task.start =
      some (Day.first.advance 4) := by
    decide +kernel
  have hchildren : (porchPlan (Day.first.advance 1)).children ⟨1⟩ = [⟨2⟩] := by decide +kernel
  have hfree : (porchPlan (Day.first.advance 1)).dependencies = [] := by decide +kernel
  obtain ⟨house, first, hfinal, -, hmax, henclosed⟩ := anchored_start hp hrun hhouse
    (by decide +kernel) rfl
    (fun _ hd => absurd (hfree ▸ hd) List.not_mem_nil) fun _ h => absurd h List.not_mem_nil
  refine ⟨house, first, hfinal, hmax, henclosed.mpr ?_⟩
  rw [hchildren]
  intro child hchild u hu
  rw [List.mem_singleton.mp hchild] at hu
  rw [hu] at hwalls
  rw [Option.some.inj hwalls]
  decide

/-- An anchor in the days of the walls puts the house after their start. -/
theorem schedule_porchPlan : ∃ house walls report,
    (porchPlan (Day.first.advance 6)).Reachable ∧
      (porchPlan (Day.first.advance 6)).schedule.1 = .ok report ∧ report.errors = [] ∧
      (porchPlan (Day.first.advance 6)).children ⟨1⟩ = [⟨2⟩] ∧
      (porchPlan (Day.first.advance 6)).dependencies = [] ∧
      (porchPlan (Day.first.advance 6)).schedule.2.task? ⟨1⟩ = some house ∧
      house.milestone = false ∧ house.earliestBegin = some (Day.first.advance 6) ∧
      (porchPlan (Day.first.advance 6)).schedule.2.task? ⟨2⟩ = some walls ∧
      walls.start < house.start := by
  have hhouse : (porchPlan (Day.first.advance 6)).schedule.2.task? ⟨1⟩ = some ⟨⟨1⟩, "house",
      ⟨6, by decide⟩, ⟨9, by decide⟩, .days 3, false,
      ⟨some .earliestBegin, some (Day.first.advance 6)⟩⟩ := by
    decide +kernel
  have hwalls : (porchPlan (Day.first.advance 6)).schedule.2.task? ⟨2⟩ = some ⟨⟨2⟩, "walls",
      ⟨4, by decide⟩, ⟨9, by decide⟩, .days 5, false, .absent⟩ := by
    decide +kernel
  have hrun : (porchPlan (Day.first.advance 6)).schedule.1 = .ok ⟨2, [⟨1⟩], [], false⟩ := by
    decide +kernel
  exact ⟨_, _, _, (Project.Reachable.empty _).after _, hrun, rfl, by decide +kernel,
    by decide +kernel, hhouse, rfl, rfl, hwalls, by decide⟩

end Workplan
