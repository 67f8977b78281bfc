import Workplan.Proofs.AnyOrder
import Workplan.Proofs.Upheld

/-!
# Resolving reads no container

Where every dependency links two tasks without children, resolving one reads and writes the rows of
such tasks only.  Two projects that differ in the dates of containers are taken along the same way:
the same tasks are moved to the same days.

- `Project.SameLeaves`: two projects differ in the dates of containers only.
- `Project.SameLeaves.resolveTask`: moving a task comes to the same in both.
- `resolveDependency_alone`: what resolving one dependency comes to.
- `SideBySide`: two projects on the way, and what has been reported.
- `SideBySide.resolveReach`: they stay side by side, until all that was reached is resolved.
-/

namespace Workplan

open Act

variable {p q q' b b' r r' : Project} {x : TaskId} {d : Dependency}
  {report report' single : RecomputeReport} {givenUp givenUp' before : List TaskId}

namespace Project

/-- Every dependency links two tasks without children. -/
def LinksLeaves (p : Project) : Prop :=
  ∀ d ∈ p.dependencies, p.hasChildren d.dependee = false ∧ p.hasChildren d.dependant = false

/-- Whether all dependencies link leaves is read off the frame. -/
theorem LinksLeaves.congr (h : p.LinksLeaves) (hframe : p.SameFrame q) : q.LinksLeaves := by
  intro d hd
  rw [hframe.hasChildren]
  exact h d (hframe.dependencies ▸ hd)

/-- The two projects differ in the dates of containers only. -/
structure SameLeaves (q q' : Project) : Prop where
  frame : q.SameFrame q'
  rows : ∀ x, q.hasChildren x = false → q'.task? x = q.task? x

theorem SameLeaves.refl (p : Project) : p.SameLeaves p := ⟨.refl p, fun _ _ => rfl⟩

theorem SameLeaves.trans (h : q.SameLeaves q') (h' : q'.SameLeaves r) : q.SameLeaves r where
  frame := h.frame.trans h'.frame
  rows x hx := by
    rw [h'.rows x (by rw [h.frame.hasChildren, hx]), h.rows x hx]

/-! ## Moving one task -/

namespace SameLeaves

variable (h : q.SameLeaves q') (hlinks : q.LinksLeaves)
include h

theorem get (hx : q.hasChildren x = false) : q'.get x = q.get x := by
  rw [Project.get, Project.get, h.rows x hx]

include hlinks

/-- What leads to a task without children has none itself. -/
theorem agreeAt (hq : q.Sound) (hx : q.hasChildren x = false) : AgreeAt x q q' := by
  refine ⟨h.frame, h.rows x hx, fun y hlead => ?_⟩
  obtain ⟨e, he, rfl⟩ := Network.leads_iff.mp hlead
  rcases (mem_incoming_network hq).mp he with ⟨child, hparent, -⟩ | ⟨d, hd, rfl⟩
  · rw [hasChildren_of_parent? hparent] at hx
    cases hx
  · exact h.rows _ (hlinks d (mem_binding.mp hd).1).1

theorem collision (hd : d ∈ q.dependencies) :
    q'.collision d d.dependant = q.collision d d.dependant := by
  rw [Project.collision, Project.collision, h.get (hlinks d hd).1, h.get (hlinks d hd).2,
    h.frame.calendar]

/-- Projects that agree on the leaves resolve a leaf to the same start. -/
theorem startFor (hx : q.hasChildren x = false) : q'.startFor x = q.startFor x := by
  have hcollisions : ∀ ds : List Dependency, (∀ d ∈ ds, d ∈ q.incoming x) →
      ds.mapM (fun d => q'.collision d x) = ds.mapM fun d => q.collision d x := by
    intro ds hds
    induction ds with
    | nil => rw [List.mapM_nil, List.mapM_nil]
    | cons d ds ih =>
      obtain ⟨hd, rfl⟩ := mem_incoming.mp (hds d List.mem_cons_self)
      rw [List.mapM_cons, List.mapM_cons, h.collision hlinks hd,
        ih fun e he => hds e (List.mem_cons_of_mem d he)]
  rw [Project.startFor, Project.startFor, h.get hx, h.frame.incoming,
    hcollisions _ fun d hd => hd]

/-- **Moving a task without children comes to the same in both projects.** -/
theorem resolveTask (hq : q.Sound) (hq' : q'.Sound) (hx : q.hasChildren x = false)
    {outcome : Except Fault Bool} (hrun : Workplan.resolveTask Host.alone x q = (outcome, r)) :
    ∃ r', Workplan.resolveTask Host.alone x q' = (outcome, r') ∧ r.SameLeaves r' := by
  have hagree := h.agreeAt hlinks hq hx
  have hsame : (Workplan.resolveTask Host.alone x q').1 =
        (Workplan.resolveTask Host.alone x q).1 ∧
      (Workplan.resolveTask Host.alone x q').2.task? x =
        (Workplan.resolveTask Host.alone x q).2.task? x := by
    rw [resolveTask_alone, resolveTask_alone, h.startFor hlinks hx]
    rcases q.startFor x with fault | _ | start
    · exact ⟨rfl, hagree.own⟩
    · exact ⟨rfl, hagree.own⟩
    · exact hagree.alike.commit (k := .startAt x start) rfl
  rw [hrun] at hsame
  rcases hrun' : Workplan.resolveTask Host.alone x q' with ⟨outcome', r'⟩
  rw [hrun'] at hsame
  obtain ⟨rfl, hrow⟩ := hsame
  have hone := redates_of_resolveTask hq.ids_nodup hrun
  have htwo := redates_of_resolveTask hq'.ids_nodup hrun'
  refine ⟨r', rfl, (hone.frame.symm.trans h.frame).trans htwo.frame, fun y hy => ?_⟩
  rw [hone.frame.hasChildren] at hy
  by_cases hyx : y = x
  · rw [hyx]
    exact hrow
  · rw [htwo.others y hyx, hone.others y hyx, h.rows y hy]

end SameLeaves

end Project

/-! ## Resolving one dependency -/

/-- What is noted down of a task that was to be moved. -/
def settle (report : RecomputeReport) (givenUp : List TaskId) (x : TaskId) :
    Except Fault Bool → Except Fault (RecomputeReport × List TaskId)
  | .ok true => .ok (report.addModified x, givenUp)
  | .ok false => .ok (report, givenUp)
  | .error (.unsatisfiable task reason) =>
    .ok ({ report with failures := report.failures ++ [.unsatisfiable task reason] }, x :: givenUp)
  | .error fault => .error fault

/-- **To resolve a dependency is to move its dependant**, if it is violated and the dependant was
not given up. -/
theorem resolveDependency_alone (id : DependencyId) (report : RecomputeReport)
    (givenUp : List TaskId) (p : Project) :
    resolveDependency Host.alone id report givenUp p = match p.dependency? id with
      | none => (.ok (report, givenUp), p)
      | some d => if givenUp.contains d.dependant then (.ok (report, givenUp), p)
        else match p.collision d d.dependant with
          | .error fault => (.error fault, p)
          | .ok k => if k.active then
              (settle report givenUp d.dependant (resolveTask Host.alone d.dependant p).1,
                (resolveTask Host.alone d.dependant p).2)
            else (.ok (report, givenUp), p) := by
  have hread : Host.alone.read (fun p => p.dependency? id) p = (.ok (p.dependency? id), p) := rfl
  rw [resolveDependency, bind_of_ok hread]
  rcases p.dependency? id with _ | d
  · rfl
  dsimp only
  split
  · rfl
  rcases hk : p.collision d d.dependant with fault | k
  · exact bind_of_error (by rw [ask_alone, hk])
  have hasked : Host.alone.ask (fun p => p.collision d d.dependant) p = (.ok k, p) := by
    rw [ask_alone, hk]
  rw [bind_of_ok hasked]
  dsimp only
  cases k.active with
  | false => rfl
  | true =>
    have htold : Host.alone.tell (.violated d.dependee d.dependant k.acceptableStart) p =
        (.ok (), p) := rfl
    rw [if_neg (by decide), if_pos rfl, bind_of_ok htold]
    -- an overflow ends the attempt, every other fault is settled like an answer
    rcases hrun : resolveTask Host.alone d.dependant p with ⟨fault | _ | _, q⟩
    · by_cases hover : fault = .overflow
      · subst hover
        refine bind_of_error ?_
        rw [Host.attempt, hrun]
      · have hfine : (resolveTask Host.alone d.dependant p).1 ≠ .error .overflow := by
          simpa [hrun] using hover
        rw [bind_of_ok (Project.attempt_of_ne_overflow hfine), hrun]
        cases fault <;> rfl
    all_goals
      have hfine : (resolveTask Host.alone d.dependant p).1 ≠ .error .overflow := by
        simp [hrun]
      rw [bind_of_ok (Project.attempt_of_ne_overflow hfine), hrun]
      rfl

/-! ## Two runs side by side -/

/-- The first report has the moved tasks of the second one, and those that were moved before. -/
def Adds (before : List TaskId) (report single : RecomputeReport) : Prop :=
  ∀ x, x ∈ report.modified ↔ x ∈ before ∨ x ∈ single.modified

theorem Adds.addModified (h : Adds before report single) (x : TaskId) :
    Adds before (report.addModified x) (single.addModified x) := by
  intro y
  rw [RecomputeReport.mem_addModified, RecomputeReport.mem_addModified, h y, or_assoc]

/-- What is noted down adds the same to both reports. -/
theorem Adds.settle (h : Adds before report single) {outcome : Except Fault Bool}
    (hsettled : Workplan.settle report givenUp x outcome = .ok (report', givenUp')) :
    ∃ single', Workplan.settle single givenUp x outcome = .ok (single', givenUp') ∧
      Adds before report' single' := by
  rcases outcome with fault | _ | _
  · cases fault with
    | unsatisfiable task reason =>
      cases hsettled
      exact ⟨_, rfl, h⟩
    | _ => cases hsettled
  · cases hsettled
    exact ⟨single, rfl, h⟩
  · cases hsettled
    exact ⟨_, rfl, h.addModified x⟩

/-- Two projects that differ in the dates of containers only are worked off at the same time. -/
structure SideBySide (before : List TaskId) (report single : RecomputeReport) (b r : Project) :
    Prop where
  sound : b.Sound
  sound' : r.Sound
  links : b.LinksLeaves
  same : b.SameLeaves r
  adds : Adds before report single

namespace SideBySide

variable (h : SideBySide before report single b r)
include h

/-- **Resolving a dependency comes to the same on both sides.** -/
theorem resolveDependency {id : DependencyId}
    (hrun : Workplan.resolveDependency Host.alone id report givenUp b =
      (.ok (report', givenUp'), b')) :
    ∃ single' r', Workplan.resolveDependency Host.alone id single givenUp r =
        (.ok (single', givenUp'), r') ∧ SideBySide before report' single' b' r' := by
  have hkept : ∀ (s : Project) (report), s.Sound →
      (Workplan.resolveDependency Host.alone id report givenUp s).2.Sound ∧
        s.SameFrame (Workplan.resolveDependency Host.alone id report givenUp s).2 := by
    intro s report hs
    have hredates : ∀ x, KeptByCommits Host.alone (s.Redates fun _ => True) x :=
      fun x => Project.keptByCommits_redates hs.ids_nodup trivial
    exact ⟨keeps_resolveDependency Project.keptByCommits_sound id report givenUp s hs,
      (keeps_resolveDependency hredates id report givenUp s (.refl _ s)).frame⟩
  -- soundness and frame come from the runs alone: the answers and the leaves are left to compare
  suffices hnext : ∃ single' r', Workplan.resolveDependency Host.alone id single givenUp r =
      (.ok (single', givenUp'), r') ∧ b'.SameLeaves r' ∧ Adds before report' single' by
    obtain ⟨single', r', hrun', hsame, hadds⟩ := hnext
    obtain ⟨hsound, hframe⟩ := hkept b report h.sound
    have hsound' := (hkept r single h.sound').1
    rw [hrun] at hsound hframe
    rw [hrun'] at hsound'
    exact ⟨single', r', hrun', hsound, hsound', h.links.congr hframe, hsame, hadds⟩
  rw [resolveDependency_alone] at hrun
  rw [resolveDependency_alone, h.same.frame.dependency?]
  cases hd : b.dependency? id with
  | none =>
    rw [hd] at hrun
    cases hrun
    exact ⟨single, r, rfl, h.same, h.adds⟩
  | some d =>
    have hmem : d ∈ b.dependencies := List.mem_of_find?_eq_some hd
    rw [hd] at hrun
    dsimp only at hrun ⊢
    rw [h.same.collision h.links hmem]
    split at hrun
    · next hgiven =>
      cases hrun
      exact ⟨single, r, if_pos hgiven, h.same, h.adds⟩
    next hgiven =>
    rw [if_neg hgiven]
    rcases hk : b.collision d d.dependant with fault | k
    · rw [hk] at hrun
      cases hrun
    rw [hk] at hrun
    dsimp only at hrun ⊢
    split at hrun
    · next hactive =>
      rw [if_pos hactive]
      obtain ⟨hsettled, rfl⟩ := Prod.mk.inj hrun
      obtain ⟨r', hmoved, hsame⟩ := h.same.resolveTask h.links h.sound h.sound'
        (h.links d hmem).2 (Prod.ext rfl rfl)
      obtain ⟨single', hsettled', hadds⟩ := h.adds.settle hsettled
      rw [hmoved]
      exact ⟨single', r', Prod.ext hsettled' rfl, hsame, hadds⟩
    · next hkept =>
      cases hrun
      exact ⟨single, r, if_neg hkept, h.same, h.adds⟩

/-- Resolving dependencies between leaves goes the same way whether containers are fitted or
not. -/
theorem resolveAll {ids : List DependencyId}
    (hrun : Workplan.resolveAll Host.alone ids report givenUp b =
      (.ok (report', givenUp'), b')) :
    ∃ single' r', Workplan.resolveAll Host.alone ids single givenUp r =
        (.ok (single', givenUp'), r') ∧ SideBySide before report' single' b' r' := by
  induction ids generalizing report single givenUp b r with
  | nil =>
    cases hrun
    exact ⟨single, r, rfl, h⟩
  | cons id ids ih =>
    obtain ⟨⟨middle, given⟩, s, hfirst, hrest⟩ := exists_of_bind_ok hrun
    obtain ⟨other, s', hfirst', hnext⟩ := h.resolveDependency hfirst
    obtain ⟨single', r', hrest', hlast⟩ := ih hnext hrest
    refine ⟨single', r', ?_, hlast⟩
    rw [Workplan.resolveAll, bind_of_ok hfirst']
    exact hrest'

/-- **So does resolving everything that was reached.** -/
theorem resolveReach {reach : Reach}
    (hrun : Workplan.resolveReach Host.alone reach report [] b = (.ok report', b')) :
    ∃ single' r', Workplan.resolveReach Host.alone reach single [] r = (.ok single', r') ∧
      SideBySide before report' single' b' r' := by
  obtain ⟨givenUp, hall⟩ := exists_of_resolveReach hrun
  obtain ⟨single', r', hall', hlast⟩ := h.resolveAll hall
  exact ⟨single', r', resolveReach_of_resolveAll hall', hlast⟩

end SideBySide

end Workplan
