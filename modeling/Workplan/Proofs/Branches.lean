import Mathlib.Data.List.Induction
import Workplan.Proofs.Names

/-!
# Dependencies and containment branches

A dependency between a task and something that contains it is refused where dependencies are
added.  Moving a task inside the nesting asks nothing of the dependencies, so it is the one edit
that can bring the two ends of a dependency into one branch.

- `Project.LinksApart`: no dependency joins a task with something that contains it.
- `Project.LinkedAcross`: a task and a container between whose branches there is a dependency.
- `Project.LinksApart.edit_iff`: what an edit keeps, and the one way to break it.
- `Project.linksApart_throughout_iff`: the same for whole histories from an empty project.
-/

namespace Workplan

/-- The dependency links the two tasks, in one direction or the other. -/
def Dependency.Joins (d : Dependency) (x y : TaskId) : Prop :=
  (d.dependee = x ∧ d.dependant = y) ∨ (d.dependee = y ∧ d.dependant = x)

namespace Project

variable {p q : Project} {child parent a b x y : TaskId}

/-- No dependency joins a task with something that contains it. -/
def LinksApart (p : Project) : Prop :=
  ∀ d ∈ p.dependencies, ∀ x y, d.Joins x y → ¬ p.Inside x y

/-- Some dependency joins a task of one branch with a container above the other task, or with
that task itself. -/
def LinkedAcross (p : Project) (child parent : TaskId) : Prop :=
  ∃ d ∈ p.dependencies, ∃ x y, d.Joins x y ∧
    (x = child ∨ p.Inside x child) ∧ (y = parent ∨ p.Inside parent y)

theorem linksApart_empty (c : Calendar) : (empty c).LinksApart :=
  fun _ hd => absurd hd List.not_mem_nil

theorem Sound.ne_root_of_joins (hp : p.Sound) {d : Dependency} (hd : d ∈ p.dependencies)
    (h : d.Joins x y) : y ≠ .root := by
  rcases h with ⟨-, rfl⟩ | ⟨rfl, -⟩
  · exact hp.ne_root (hp.dependant_mem d hd)
  · exact hp.ne_root (hp.dependee_mem d hd)

namespace LinksApart

variable (hp : p.Sound) (h : p.LinksApart)
include hp h

/-- Dependencies and placements that are taken away join nothing. -/
theorem of_subset (hdeps : ∀ d ∈ q.dependencies, d ∈ p.dependencies)
    (hplaces : ∀ a b, ⟨a, b⟩ ∈ q.placements → b ≠ .root → ⟨a, b⟩ ∈ p.placements) :
    q.LinksApart :=
  fun d hd x y hjoins hin => h d (hdeps d hd) x y hjoins (hp.inside_of_subset hplaces hin)

/-- A new task has no dependencies, so all links stay apart. -/
theorem insertTask {id : TaskId} {name : String} {start finish : Day} {duration : Duration}
    {milestone : Bool} (hq : p.insertTask name start finish duration milestone = .ok (id, q)) :
    q.LinksApart := by
  obtain ⟨-, -, keys, -, rfl⟩ := exists_of_insertTask hq
  refine h.of_subset hp (fun d hd => hd) fun a b hab hb => ?_
  rcases List.mem_append.mp hab with hab | hab
  · exact hab
  · cases List.mem_singleton.mp hab
    exact absurd rfl hb

theorem removeTask {id : TaskId} (hq : p.removeTask id = .ok q) : q.LinksApart := by
  obtain ⟨t, doomed, -, -, rfl⟩ := exists_of_removeTask hq
  exact h.of_subset hp (fun d hd => List.mem_of_mem_filter hd)
    fun a b hab _ => List.mem_of_mem_filter hab

theorem removeDependency {id : DependencyId} (hq : p.removeDependency id = .ok q) :
    q.LinksApart := by
  obtain ⟨-, rfl⟩ := exists_of_removeDependency hq
  exact h.of_subset hp (fun d hd => List.mem_of_mem_filter hd) fun a b hab _ => hab

theorem rewritten (hq : p.Rewritten q) : q.LinksApart := by
  rcases hq with rfl | ⟨t, new, -, -, rfl⟩
  · exact h
  · exact h.of_subset hp (fun d hd => hd) fun a b hab _ => hab

/-- A new dependency is refused within a branch. -/
theorem addDependency {dependee dependant : TaskId} {kind : LinkKind} {hardness : Hardness}
    {lag : Int} {id : DependencyId}
    (hq : p.addDependency dependee dependant kind hardness lag = .ok (id, q)) :
    q.LinksApart := by
  obtain ⟨⟨source, hsource⟩, ⟨target, htarget⟩, -, hbranch, -, -, -, rfl⟩ :=
    exists_of_addDependency hq
  rw [not_or, hp.isAncestor_iff (hp.ne_root_of_task? (get_eq_ok_iff.mp hsource)),
    hp.isAncestor_iff (hp.ne_root_of_task? (get_eq_ok_iff.mp htarget))] at hbranch
  intro d hd x y hjoins
  show ¬ p.Inside x y
  rcases List.mem_append.mp hd with hd | hd
  · exact h d hd x y hjoins
  · cases List.mem_singleton.mp hd
    rcases hjoins with ⟨rfl, rfl⟩ | ⟨rfl, rfl⟩
    · exact hbranch.2
    · exact hbranch.1

end LinksApart

/-! ## Moving a task inside the nesting -/

/-- After placing, the child is placed under its new parent and every other task where it was. -/
theorem mem_placements_place {s : Placement} (hq : p.place child parent = .ok q) :
    s ∈ q.placements ↔ (s ∈ p.placements ∧ s.child ≠ child) ∨ s = ⟨child, parent⟩ := by
  obtain ⟨-, -, -, rfl⟩ := exists_of_place hq
  simp

namespace Sound

variable (hp : p.Sound) (hq : p.place child parent = .ok q)
include hp hq

/-- A way up that does not go over the moved task is still there. -/
theorem inside_place (hab : p.Inside a b) (hfree : ¬ p.Inside child b) : q.Inside a b := by
  have hstep : ∀ {a c}, p.parent? a = some c → p.Inside a b → q.parent? a = some c := by
    intro a c hac hin
    obtain ⟨hplace, hc⟩ := hp.parent?_eq_some_iff.mp hac
    have hne : a ≠ child := fun e => hfree (e ▸ hin)
    exact (hp.place hq).parent?_eq_some_iff.mpr
      ⟨(mem_placements_place hq).mpr (.inl ⟨hplace, hne⟩), hc⟩
  induction hab using Relation.TransGen.head_induction_on with
  | single hac => exact .single (hstep hac (.single hac))
  | head hac hrest ih => exact .head (hstep hac (.head hac hrest)) ih

/-- The moved task and all inside it get inside the new container and all above that. -/
theorem inside_place_across (hx : x = child ∨ p.Inside x child)
    (hy : y = parent ∨ p.Inside parent y) (hroot : y ≠ .root) (hfree : ¬ p.Inside child y) :
    q.Inside x y := by
  have hqs := hp.place hq
  have hparent : parent ≠ .root := by
    rintro rfl
    rcases hy with rfl | hy
    · exact hroot rfl
    · exact hp.ne_root (hp.mem_of_inside hy).1 rfl
  have hlink : q.Inside child parent := .single
    (hqs.parent?_eq_some_iff.mpr ⟨(mem_placements_place hq).mpr (.inr rfl), hparent⟩)
  have htop : q.Inside child y := by
    rcases hy with rfl | hy
    · exact hlink
    · exact hlink.trans (hp.inside_place hq hy hfree)
  rcases hx with rfl | hx
  · exact htop
  · exact (hp.inside_place hq hx (hp.acyclic child)).trans htop

/-- **Moving a task keeps dependencies out of the branches, unless one leads from the branch of
the task to its new container or above.** -/
theorem linksApart_place_iff (h : p.LinksApart) : q.LinksApart ↔ ¬ p.LinkedAcross child parent := by
  have hdeps : q.dependencies = p.dependencies := by
    obtain ⟨-, -, -, rfl⟩ := exists_of_place hq
    rfl
  constructor
  · rintro hapart ⟨d, hd, x, y, hjoins, hx, hy⟩
    -- the dependency was apart before, so the way above the container does not pass the task
    have hfree : ¬ p.Inside child y := by
      intro hin
      rcases hx with rfl | hx
      · exact h d hd _ _ hjoins hin
      · exact h d hd _ _ hjoins (hx.trans hin)
    exact hapart d (hdeps ▸ hd) x y hjoins
      (hp.inside_place_across hq hx hy (hp.ne_root_of_joins hd hjoins) hfree)
  · intro hacross d hd x y hjoins hin
    rw [hdeps] at hd
    rcases inside_of_link (fun a b => hp.parent?_of_place hq) hin with hin | ⟨hx, hy⟩
    · exact h d hd x y hjoins hin
    · exact hacross ⟨d, hd, x, y, hjoins, hx, hy⟩

end Sound

/-! ## Histories -/

/-- **Only moving a task over a dependency brings the ends of a dependency into one branch.** -/
theorem LinksApart.edit_iff (hp : p.Sound) (h : p.LinksApart) {e : Edit} {r : Outcome}
    (hr : p.edit e = .ok r) :
    r.project.LinksApart ↔
      ∀ child parent, e = .place child parent → ¬ p.LinkedAcross child parent := by
  cases e with
  | place child parent =>
    obtain ⟨q, hq, rfl⟩ := exists_of_map_eq_ok hr
    rw [hp.linksApart_place_iff hq h]
    constructor
    · rintro hacross _ _ ⟨rfl, rfl⟩
      exact hacross
    · exact fun hacross => hacross child parent rfl
  | addTask name start duration =>
    obtain ⟨⟨id, q⟩, hq, rfl⟩ := exists_of_map_eq_ok hr
    obtain ⟨finish, -, hinsert⟩ := exists_of_bind_eq_ok hq
    exact iff_of_true (h.insertTask hp hinsert) fun _ _ he => by cases he
  | addMilestone name day =>
    obtain ⟨⟨id, q⟩, hq, rfl⟩ := exists_of_map_eq_ok hr
    exact iff_of_true (h.insertTask hp hq) fun _ _ he => by cases he
  | removeTask id =>
    obtain ⟨q, hq, rfl⟩ := exists_of_map_eq_ok hr
    exact iff_of_true (h.removeTask hp hq) fun _ _ he => by cases he
  | addDependency dependee dependant kind hardness lag =>
    obtain ⟨⟨id, q⟩, hq, rfl⟩ := exists_of_map_eq_ok hr
    exact iff_of_true (h.addDependency hp hq) fun _ _ he => by cases he
  | removeDependency id =>
    obtain ⟨q, hq, rfl⟩ := exists_of_map_eq_ok hr
    exact iff_of_true (h.removeDependency hp hq) fun _ _ he => by cases he
  | change k =>
    obtain ⟨changed, hchanged, rfl⟩ := exists_of_map_eq_ok hr
    exact iff_of_true (h.rewritten hp (rewritten_of_change hchanged)) fun _ _ he => by cases he

/-- Edits made in two goes are edits made in one. -/
theorem after_append (p : Project) (done edits : List Edit) :
    p.after (done ++ edits) = (p.after done).after edits := by
  induction done generalizing p with
  | nil => rfl
  | cons e done ih =>
    rw [List.cons_append, after, after]
    split
    · exact ih _
    · exact ih p

/-- A step of a history is its last edit, or nothing if that was refused. -/
theorem after_concat_of_ok {done : List Edit} {e : Edit} {r : Outcome}
    (h : (p.after done).edit e = .ok r) : p.after (done ++ [e]) = r.project := by
  rw [after_append, after, h]
  rfl

theorem after_concat_of_error {done : List Edit} {e : Edit} {fault : Fault}
    (h : (p.after done).edit e = .error fault) : p.after (done ++ [e]) = p.after done := by
  rw [after_append, after, h]
  rfl

/-- **In a history from an empty project no dependency ever joins a task with something that
contains it, if and only if no task is moved under a container with a dependency between its
branch and the container or what is above that.** -/
theorem linksApart_throughout_iff (c : Calendar) (edits : List Edit) :
    (∀ done, done <+: edits → ((empty c).after done).LinksApart) ↔
      ∀ done child parent, done ++ [.place child parent] <+: edits →
        (∃ q, ((empty c).after done).place child parent = .ok q) →
        ¬ ((empty c).after done).LinkedAcross child parent := by
  have hsound : ∀ done, ((empty c).after done).Sound :=
    fun done => ((Reachable.empty c).after done).sound
  constructor
  · rintro hapart done child parent hprefix ⟨q, hq⟩
    have hbefore := hapart done ((List.prefix_append _ _).trans hprefix)
    have hedit : ((empty c).after done).edit (.place child parent) =
        .ok ⟨q, .done, some .graphChanged⟩ := by
      rw [edit, hq]
      rfl
    have hafter := hapart _ hprefix
    rw [after_concat_of_ok hedit, hbefore.edit_iff (hsound done) hedit] at hafter
    exact hafter child parent rfl
  · -- by induction on the history, whose last edit alone can break what held before it
    intro hmoves done
    induction done using List.reverseRecOn with
    | nil => exact fun _ => linksApart_empty c
    | append_singleton done e ih =>
      intro hprefix
      have hbefore := ih ((List.prefix_append _ _).trans hprefix)
      cases he : ((empty c).after done).edit e with
      | error fault =>
        rw [after_concat_of_error he]
        exact hbefore
      | ok r =>
        rw [after_concat_of_ok he, hbefore.edit_iff (hsound done) he]
        rintro child parent rfl
        obtain ⟨q, hq, -⟩ := exists_of_map_eq_ok he
        exact hmoves done child parent hprefix ⟨q, hq⟩

/-- A house that a roof waits for, and the roof moved into the house. -/
def roofedPlan : Project :=
  (empty .standard).after [
    .addTask "house" (Day.first.advance 4) (.days 1),
    .addTask "roof" (Day.first.advance 4) (.days 1),
    .addDependency ⟨1⟩ ⟨2⟩ .finishStart .strong 0,
    .place ⟨2⟩ ⟨1⟩]

/-- A dependency may join a task with what contains it, as nothing is asked of the dependencies
when a task is moved. -/
theorem not_linksApart_roofedPlan : roofedPlan.Reachable ∧ ¬ roofedPlan.LinksApart := by
  refine ⟨(Reachable.empty _).after _, fun hapart => ?_⟩
  have hdep : ⟨⟨0⟩, ⟨1⟩, ⟨2⟩, .finishStart, .strong, 0⟩ ∈ roofedPlan.dependencies := by
    decide +kernel
  have hin : roofedPlan.parent? ⟨2⟩ = some ⟨1⟩ := by decide +kernel
  exact hapart _ hdep ⟨2⟩ ⟨1⟩ (.inr ⟨rfl, rfl⟩) (.single hin)

end Project

end Workplan
