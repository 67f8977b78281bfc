import Workplan.Proofs.Resolving

/-!
# Projects settled by the scheduler

In a project without nesting and with strong dependencies only, a run of the scheduler puts
every task on the start that its dependencies demand on the final dates.

- `Project.FlatStrong`: the projects on which both engines can be compared.
- `Project.Settled`: every task starts where its dependencies demand.
- `settled_schedule`: so it is after a run of the scheduler.
-/

namespace Workplan

open Collision

variable {p q : Project} {x : TaskId} {t t' : Task} {c : Calendar} {accept : Dependency → Day}

/-- No nesting and no anchors, strong dependencies without a cycle, and tasks counted in days
that start on a working day and are as long as they are said to be. -/
structure Project.FlatStrong (p : Project) : Prop where
  gaps : p.calendar.GapsBelowHorizon
  flat : p.Flat
  days : ∀ t ∈ p.tasks, t.grain = .day
  lengths : ∀ t ∈ p.tasks, 0 ≤ t.duration.count ∧ t.duration.count < Day.count
  working : ∀ t ∈ p.tasks, p.calendar.isWorking t.start
  spans : ∀ t ∈ p.tasks, t.movedTo p.calendar t.start = t
  unanchored : ∀ t ∈ p.tasks, t.earliestBegin = none
  strong : ∀ d ∈ p.dependencies, d.hardness = .strong
  acyclic : ∀ x, ¬ Relation.TransGen p.WaitsFor x x
  room : ∀ t ∈ p.tasks, p.HasRoom t.id

theorem Project.FlatStrong.schedulable (hs : p.FlatStrong) (hp : p.Sound) : p.Schedulable where
  gaps := hs.gaps
  days := hs.days
  dates t ht := by
    have hle := Calendar.le_shiftDays (c := p.calendar) (hs.lengths t ht).1 t.start
    rwa [← congrArg Task.finish (hs.spans t ht)]
  unanchored t ht _ := hs.unanchored t ht
  childless d hd _ := by
    obtain ⟨t, ht, hid⟩ := List.mem_map.mp (hp.dependant_mem d hd)
    rw [← hid]
    exact hs.flat t ht
  acyclic := hs.flat.acyclic_network hp hs.acyclic
  lengths t ht _ := hs.lengths t ht
  room t ht _ := hs.room t ht

/-- The second project is the first one with other dates: a task keeps its duration, and starts
on the next working day from the latest start that the dependencies on it accept, or where it
was if there are none. -/
structure Project.Settled (p q : Project) : Prop where
  frame : p.SameFrame q
  row : ∀ x t, p.task? x = some t → ∃ start, q.task? x = some (t.movedTo p.calendar start) ∧
    p.calendar.ReachesWork start ∧ (p.incoming x = [] → start = t.start) ∧
    ∀ accept floor, (∀ d ∈ p.incoming x, q.acceptable d x = .ok (accept d)) →
      latest? ((p.incoming x).map accept) = some floor → start = p.calendar.onOrAfter .day floor

/-- What bounds a task without an anchor whose dependencies are strong. -/
theorem Task.floors_of_strong {ds : List Dependency} (hanchor : t.earliestBegin = none)
    (hstrong : ∀ d ∈ ds, d.hardness = .strong) (hday : t.grain = .day) :
    t.floors c ds accept = ds.map fun d => c.onOrAfter .day (accept d) := by
  have hbusy : ¬ t.IsAtEase ds accept := by
    rintro ⟨hne, hslack⟩
    obtain ⟨d, hd⟩ := List.exists_mem_of_ne_nil ds hne
    have := hslack d hd
    simp [Dependency.isSlack, hstrong d hd] at this
  rw [floors, if_neg hbusy, hanchor, Option.toList_none, List.append_nil, List.append_nil, snaps,
    hday]

/-- A task that is dated without a fault keeps its duration, and its end follows. -/
theorem LeafOutcome.eq_movedTo {floors : List Day} {result : Except Fault Bool}
    (h : LeafOutcome c t floors t' result) (hfine : ∀ fault, result ≠ .error fault)
    (hspan : t.movedTo c t.start = t) : t' = t.movedTo c t'.start := by
  cases h with
  | free => exact hspan.symm
  | still => exact hspan.symm
  | refused => exact absurd rfl (hfine _)
  | moved floor start finish h hmove hstart hfinish hle =>
    rw [hfinish]
    rfl

/-- **A run of the scheduler settles the project.** -/
theorem settled_schedule (hs : p.FlatStrong) (hp : p.Sound) : p.Settled p.schedule.2 := by
  have hsched := hs.schedulable hp
  obtain ⟨report, hreport⟩ := hsched.exists_report hp
  refine ⟨frame_schedule hp, fun x t ht => ?_⟩
  have hmem := Project.mem_of_task? ht
  have hid := Project.id_of_task? ht
  obtain ⟨result, before, after, hdated, -⟩ := exists_datedAt hp hreport ht
  obtain ⟨accept, t', haccept, ht', hout⟩ :=
    hdated.leaf hp hs.gaps ht (hid ▸ hs.flat t hmem) (hs.days t hmem)
  have hbinding : p.binding x = p.incoming x := hs.flat.binding_eq hp x
  rw [hbinding, Task.floors_of_strong (hs.unanchored t hmem)
    (fun d hd => hs.strong d (Project.mem_incoming.mp hd).1) (hs.days t hmem)] at hout
  have hfine : ∀ fault, result ≠ .error fault := by
    rintro fault rfl
    obtain ⟨changed, hchanged⟩ :=
      (hsched.placed hp (Project.mem_ids_of_task? ht)).2 _ before after hdated
    cases hchanged
  -- a start that was not moved is a working day by assumption
  have hreach : p.calendar.ReachesWork t'.start := by
    by_cases hsame : p.task? x = some t'
    · rw [Option.some.inj (hsame.symm.trans ht)]
      exact Calendar.reachesWork_of_working (hs.working t hmem)
    · exact hs.room t hmem t' (by rwa [hid]) (by rwa [hid])
  have hstart := hout.start_eq hs.gaps hfine fun _ => hreach
  refine ⟨t'.start, ?_, hreach, fun hnone => ?_, fun accept' floor haccept' hfloor => ?_⟩
  · rw [← hout.eq_movedTo hfine (hs.spans t hmem)]
    exact ht'
  · rcases hstart with ⟨-, heq⟩ | ⟨floor, hfloor, -⟩
    · rw [heq]
    · rw [hnone] at hfloor
      cases hfloor
  · have hsame : ∀ d ∈ p.incoming x, accept d = accept' d := by
      intro d hd
      have := haccept d (by rwa [hdated.finalFrame.binding, hbinding])
      rw [haccept' d hd] at this
      exact (Except.ok.inj this).symm
    rw [List.map_congr_left fun d hd => (hsame d hd).symm] at hfloor
    -- the latest accepted start, put on a working day, is the latest of those put on working days
    have hsnapped := latest?_map (fun _ _ => Calendar.onOrAfter_mono hs.gaps) hfloor
    rw [List.map_map] at hsnapped
    rcases hstart with ⟨hnil, -⟩ | ⟨snapped, hlatest, heq⟩
    · rw [List.map_eq_nil_iff] at hnil
      rw [hnil] at hfloor
      cases hfloor
    · cases hsnapped.symm.trans hlatest
      rw [heq, Calendar.onOrAfter_idem]

end Workplan
