import Workplan.Proofs.Fitting
import Workplan.Proofs.Levels
import Workplan.Proofs.Refusals
import Workplan.Proofs.Steps

/-!
# Containers around their children

Fitting goes from the innermost containers outwards, so that no container is touched after one that
it lies in.  In the end each of them reaches exactly from its first child to its last.  After a
recomputation this holds of all containers of tasks that were moved, but a container that was itself
moved is not fitted for that.

- `Project.Fits`: a container reaches from the first start to the last end of its children.
- `Project.Fitted`: it has the dates that fitting gives it.
- `Project.Nested.pairwise_containersOf`: the order of fitting.
- `Project.fitted_of_fit`, `Project.fits_of_fit`: what fitting does.
- `encloses_of_recompute`: where a recomputation leaves a container around its children.
- `recompute_shiftedPlan`: where it does not.
-/

namespace Workplan

open Act

variable {p q r : Project} {x y c : TaskId} {t u : Task} {changed : Bool} {first last : Day}

namespace Project

/-! ## Dates of children -/

/-- Unless it is a milestone, the container starts with its first child and ends with its last. -/
def Fits (p : Project) (c : TaskId) : Prop :=
  ∀ t, p.task? c = some t → t.milestone = false →
    IsLeast (p.startsOf c) t.start ∧ IsGreatest (p.finishesOf c) t.finish

/-- **The span of the children goes from their first start to their last end.** -/
theorem childSpan?_spec (h : p.childSpan? c = some (first, last)) :
    IsLeast (p.startsOf c) first ∧ IsGreatest (p.finishesOf c) last := by
  rw [childSpan?] at h
  split at h
  · cases h
  next v vs hrows =>
  cases h
  have hrow : ∀ u, u ∈ v :: vs ↔ ∃ x ∈ p.children c, p.task? x = some u := by
    intro u
    rw [← hrows, List.mem_filterMap]
  have hfirst : Collision.earliest? ((v :: vs).map Task.start) =
      some ((vs.map Task.start).foldl min v.start) := rfl
  have hlast : Collision.latest? ((v :: vs).map Task.finish) =
      some ((vs.map Task.finish).foldl max v.finish) := rfl
  obtain ⟨hleast, hlower⟩ := Collision.earliest?_eq_some_iff.mp hfirst
  obtain ⟨hgreatest, hupper⟩ := Collision.latest?_eq_some_iff.mp hlast
  constructor
  · obtain ⟨u, hu, heq⟩ := List.mem_map.mp hleast
    obtain ⟨x, hx, hxu⟩ := (hrow u).mp hu
    refine ⟨⟨x, hx, u, hxu, heq⟩, ?_⟩
    rintro day ⟨y, hy, w, hw, rfl⟩
    exact hlower _ (List.mem_map_of_mem ((hrow w).mpr ⟨y, hy, hw⟩))
  · obtain ⟨u, hu, heq⟩ := List.mem_map.mp hgreatest
    obtain ⟨x, hx, hxu⟩ := (hrow u).mp hu
    refine ⟨⟨x, hx, u, hxu, heq⟩, ?_⟩
    rintro day ⟨y, hy, w, hw, rfl⟩
    exact hupper _ (List.mem_map_of_mem ((hrow w).mpr ⟨y, hy, hw⟩))

theorem childSpan?_ne_none (hx : x ∈ p.children c) (hu : p.task? x = some u) :
    p.childSpan? c ≠ none := by
  have hmem : u ∈ (p.children c).filterMap p.task? := List.mem_filterMap.mpr ⟨x, hx, hu⟩
  rw [childSpan?]
  split
  · next hnone =>
    rw [hnone] at hmem
    exact absurd hmem List.not_mem_nil
  · intro hnone
    cases hnone

/-- The container has the dates that fitting gives it: those of the span of its children, but a
milestone is not given an end. -/
def Fitted (p : Project) (c : TaskId) : Prop :=
  ∀ t first last, p.task? c = some t → p.childSpan? c = some (first, last) →
    t.start = first ∧ (t.milestone = false → t.finish = last)

theorem childSpan?_congr (hframe : p.SameFrame q)
    (hrows : ∀ x ∈ p.children c, q.task? x = p.task? x) : q.childSpan? c = p.childSpan? c := by
  rw [childSpan?, childSpan?, hframe.children, List.filterMap_congr hrows]

/-- Being fitted is told by the rows of a container and its children. -/
theorem Fitted.congr (hframe : p.SameFrame q)
    (hrows : ∀ x ∈ p.children c, q.task? x = p.task? x) (hself : q.task? c = p.task? c)
    (h : p.Fitted c) : q.Fitted c := by
  intro t first last ht hspan
  rw [childSpan?_congr hframe hrows] at hspan
  exact h t first last (hself ▸ ht) hspan

/-- **A container that was fitted is around its children.** -/
theorem Fitted.fits (hp : p.Nested) (hx : p.parent? x = some c) (h : p.Fitted c) : p.Fits c := by
  obtain ⟨u, hu⟩ := exists_task? (hp.mem_of_parent? hx).1
  intro t ht hms
  rcases hspan : p.childSpan? c with _ | ⟨first, last⟩
  · exact absurd hspan (childSpan?_ne_none (mem_children_of_parent? hx) hu)
  · obtain ⟨hstart, hfinish⟩ := h t first last ht hspan
    rw [hstart, hfinish hms]
    exact childSpan?_spec hspan

/-! ## Fitting one container -/

/-- A container that does not fit is given the span of its children. -/
theorem fitContainer_alone (ht : p.task? c = some t) :
    fitContainer Host.alone c p = match p.childSpan? c with
      | none => (.ok false, p)
      | some (first, last) =>
        if t.start = first ∧ t.finish = last then (.ok false, p)
        else p.redate t first (revisedFinish t first (some last))
          (revisedDuration p.calendar t first (revisedFinish t first (some last))) := by
  have hread : Host.alone.read (fun p => p.childSpan? c) p = (.ok (p.childSpan? c), p) := rfl
  rw [fitContainer, bind_of_ok hread]
  rcases p.childSpan? c with _ | ⟨first, last⟩
  · rfl
  have hget : Host.alone.ask (fun p => p.get c) p = (.ok t, p) := by
    rw [ask_alone, get_of_task? ht]
  have htell : Host.alone.tell (.fitting t first last) p = (.ok (), p) := rfl
  dsimp only
  rw [bind_of_ok hget]
  split
  · rfl
  · rw [bind_of_ok htell]
    exact commit_revise ht (some first) (some last)

/-- **A container gets the dates of its children**, and nothing else has changed. -/
theorem fitted_of_fitContainer (hp : p.Nested) (hx : p.parent? x = some c)
    (h : fitContainer Host.alone c p = (.ok changed, q)) :
    p.Redates (fun y => y = c) q ∧ q.Fitted c := by
  obtain ⟨-, hcmem⟩ := hp.mem_of_parent? hx
  obtain ⟨t, ht⟩ := exists_task? hcmem
  have hredates : p.Redates (fun y => y = c) q := by
    have hkept : KeptByCommits Host.alone (p.Redates fun y => y = c) c :=
      keptByCommits_redates hp.ids_nodup rfl
    have := keeps_fitContainer hkept p (.refl _ p)
    rwa [h] at this
  refine ⟨hredates, fun v first last hv hspan => ?_⟩
  -- no container is its own child, so the children are as they were
  have hrows : ∀ y ∈ p.children c, q.task? y = p.task? y := by
    intro y hy
    refine hredates.others y ?_
    rintro rfl
    exact hp.acyclic y (.single ((hp.parent?_iff_mem_children (hp.ne_root hcmem)).mpr hy))
  rw [childSpan?_congr hredates.frame hrows] at hspan
  rw [fitContainer_alone ht, hspan] at h
  dsimp only at h
  split at h
  · next hsame =>
    cases h
    cases hv.symm.trans ht
    exact ⟨hsame.1, fun _ => hsame.2⟩
  · rw [redate] at h
    split at h
    · cases h
    cases h
    cases hv.symm.trans (task?_replace_self ht rfl)
    refine ⟨rfl, fun hms => ?_⟩
    show revisedFinish t first (some last) = last
    rw [revisedFinish, if_neg (by rw [show t.milestone = false from hms]; decide)]
    rfl

/-! ## The order of fitting -/

theorem Nested.depth_of_parent? (hp : p.Nested) (h : p.parent? x = some y) :
    p.depth x = p.depth y + 1 := by
  have hclimb : p.ancestors x = y :: p.ancestors y := by
    rw [← hp.climb_of_le (Nat.le_succ _) x, climb_succ, h]
    rfl
  rw [depth, depth, hclimb, List.length_cons]

theorem fitsBefore_iff {a b : TaskId} : p.fitsBefore a b ↔
    p.depth b < p.depth a ∨ (p.depth a = p.depth b ∧ a.number ≤ b.number) := by
  simp [fitsBefore]

theorem nodup_eraseDups (l : List TaskId) : l.eraseDups.Nodup := by
  match l with
  | [] => simp
  | a :: l =>
    rw [List.eraseDups_cons, List.nodup_cons, List.mem_eraseDups]
    exact ⟨by simp, nodup_eraseDups _⟩
termination_by l.length
decreasing_by exact Nat.lt_succ_of_le (List.length_filter_le _ _)

/-- Sorted for fitting, deeper containers come first, and older ones among those of one level. -/
theorem sorted_mergeSort {containers : List TaskId} (hnodup : containers.Nodup) :
    (containers.mergeSort p.fitsBefore).Pairwise fun a b =>
      p.depth b < p.depth a ∨ (p.depth a = p.depth b ∧ a.number < b.number) := by
  have hnodup' := (List.mergeSort_perm containers p.fitsBefore).nodup_iff.mpr hnodup
  have hsorted : (containers.mergeSort p.fitsBefore).Pairwise fun a b => p.fitsBefore a b := by
    refine List.pairwise_mergeSort (fun a b c hab hbc => ?_) (fun a b => ?_) _
    · rw [fitsBefore_iff] at hab hbc ⊢
      omega
    · rw [Bool.or_eq_true, fitsBefore_iff, fitsBefore_iff]
      omega
  refine (hnodup'.and hsorted).imp ?_
  rintro a b ⟨hne, hbefore⟩
  refine (fitsBefore_iff.mp hbefore).imp_right fun ⟨hdepth, hle⟩ => ⟨hdepth, ?_⟩
  exact lt_of_le_of_ne hle fun heq => hne (TaskId.ext heq)

theorem sorted_containersOf (tasks : List TaskId) : (p.containersOf tasks).Pairwise fun a b =>
    p.depth b < p.depth a ∨ (p.depth a = p.depth b ∧ a.number < b.number) :=
  sorted_mergeSort (nodup_eraseDups _)

/-- **Containers come before what they lie in**, each once. -/
theorem Nested.pairwise_containersOf (hp : p.Nested) (tasks : List TaskId) :
    (p.containersOf tasks).Pairwise fun a b => b ≠ a ∧ b ∉ p.children a := by
  refine (sorted_containersOf tasks).imp_of_mem ?_
  rintro a b ha - hbefore
  refine ⟨fun heq => ?_, fun hb => ?_⟩
  · rw [heq] at hbefore
    omega
  · -- a child is deeper, and would have come before
    obtain ⟨x, -, hin⟩ := hp.mem_containersOf.mp ha
    have hroot := hp.ne_root (hp.mem_of_inside hin).2
    have hdepth := hp.depth_of_parent? ((hp.parent?_iff_mem_children hroot).mpr hb)
    omega

/-! ## Fitting all containers -/

/-- What fitting some containers one after the other does, if none of them comes after one that it
lies in. -/
theorem fitted_of_fitAll (hp : p.Sound) {containers adjusted : List TaskId}
    (hinner : ∀ c ∈ containers, ∃ x, p.parent? x = some c)
    (horder : containers.Pairwise fun a b => b ≠ a ∧ b ∉ p.children a)
    (h : fitAll Host.alone containers p = (.ok adjusted, q)) :
    p.Redates (· ∈ containers) q ∧ ∀ c ∈ containers, q.Fitted c := by
  induction containers generalizing p adjusted with
  | nil =>
    cases h
    exact ⟨.refl _ _, fun _ hc => absurd hc List.not_mem_nil⟩
  | cons c rest ih =>
    obtain ⟨changed, s, hfirst, h⟩ := exists_of_bind_ok h
    obtain ⟨others, s', hrest, h⟩ := exists_of_bind_ok h
    cases h
    obtain ⟨x, hx⟩ := hinner c List.mem_cons_self
    obtain ⟨hone, hfitted⟩ := fitted_of_fitContainer hp.toNested hx hfirst
    obtain ⟨hbefore, hlater⟩ := List.pairwise_cons.mp horder
    have hs : s.Sound := by
      have := keeps_fitContainer (keptByCommits_sound c) p hp
      rwa [hfirst] at this
    rw [← hone.frame.children] at hlater
    obtain ⟨hothers, hall⟩ := ih hs (fun b hb => by
      rw [hone.frame.parent?]
      exact hinner b (List.mem_cons_of_mem c hb)) hlater hrest
    refine ⟨(hone.trans hothers).mono fun y hy => ?_, fun b hb => ?_⟩
    · rcases hy with rfl | hy
      · exact List.mem_cons_self
      · exact List.mem_cons_of_mem c hy
    rcases List.mem_cons.mp hb with rfl | hb
    · -- neither the container nor a child of it is touched any more
      refine hfitted.congr hothers.frame (fun y hy => hothers.others y fun hmem => ?_)
        (hothers.others b fun hmem => (hbefore b hmem).1 rfl)
      rw [hone.frame.children] at hy
      exact (hbefore y hmem).2 hy
    · exact hall b hb

theorem Sound.of_fit (hp : p.Sound) {tasks adjusted : List TaskId}
    (h : p.fit tasks = (.ok adjusted, q)) : q.Sound := by
  have := keeps_fit keptByCommits_sound tasks p hp
  rwa [show Workplan.fit Host.alone tasks p = _ from h] at this

theorem fit_eq (tasks : List TaskId) :
    p.fit tasks = fitAll Host.alone (p.containersOf tasks) p := rfl

/-- What is fitted directly contains some task. -/
theorem Nested.exists_child (hp : p.Nested) {tasks : List TaskId} (hc : c ∈ p.containersOf tasks) :
    ∃ x, p.parent? x = some c := by
  obtain ⟨x, -, hin⟩ := hp.mem_containersOf.mp hc
  obtain ⟨y, -, hy⟩ := Relation.TransGen.tail'_iff.mp hin
  exact ⟨y, hy⟩

/-- **Fitting gives exactly the containers of the tasks the dates of their children**, and touches
nothing else. -/
theorem fitted_of_fit (hp : p.Sound) {tasks adjusted : List TaskId}
    (h : p.fit tasks = (.ok adjusted, q)) :
    p.Redates (fun c => ∃ x ∈ tasks, p.Inside x c) q ∧
      ∀ c, (∃ x ∈ tasks, p.Inside x c) → q.Fitted c := by
  rw [fit_eq] at h
  obtain ⟨hredates, hfitted⟩ := fitted_of_fitAll hp (fun c => hp.exists_child)
    (hp.pairwise_containersOf tasks) h
  exact ⟨hredates.mono fun c => hp.mem_containersOf.mp,
    fun c hc => hfitted c (hp.mem_containersOf.mpr hc)⟩

/-- **Fitting leaves exactly the containers of the tasks around their children**, and touches
nothing else. -/
theorem fits_of_fit (hp : p.Sound) {tasks adjusted : List TaskId}
    (h : p.fit tasks = (.ok adjusted, q)) :
    p.Redates (fun c => ∃ x ∈ tasks, p.Inside x c) q ∧
      ∀ c, (∃ x ∈ tasks, p.Inside x c) → q.Fits c := by
  obtain ⟨hredates, hfitted⟩ := fitted_of_fit hp h
  refine ⟨hredates, ?_⟩
  rintro c ⟨x, hx, hin⟩
  obtain ⟨y, -, hy⟩ := Relation.TransGen.tail'_iff.mp hin
  exact (hfitted c ⟨x, hx, hin⟩).fits (hp.of_fit h).toNested (hredates.frame.parent? ▸ hy)

/-- A task without children is not fitted. -/
theorem task?_of_fit (hp : p.Sound) {tasks adjusted : List TaskId}
    (h : p.fit tasks = (.ok adjusted, q)) (hleaf : p.hasChildren x = false) :
    q.task? x = p.task? x := by
  refine (fits_of_fit hp h).1.others x ?_
  rintro ⟨y, -, hin⟩
  rw [hasChildren_of_inside hin] at hleaf
  cases hleaf

end Project

/-! ## After a recomputation -/

/-- Whatever has other dates after the containers were fitted was moved before, or contains a task
whose containers were fitted. -/
theorem Accounted.cases_of_ne {report : RecomputeReport} {tasks adjusted : List TaskId}
    (h : Accounted p report q) (hfit : q.fit tasks = (.ok adjusted, r))
    (hne : r.task? x ≠ p.task? x) : x ∈ report.modified ∨ ∃ y ∈ tasks, p.Inside y x := by
  by_contra hnot
  rw [not_or, ← h.redates.frame.inside] at hnot
  have hfitted := (Project.fits_of_fit h.sound hfit).1.others x hnot.2
  exact hne (hfitted.trans (h.redates.others x hnot.1))

/-- **After a recomputation a container is around its children** if its dates, or those of anything
inside it, have changed, unless it was itself moved and nothing inside it was moved or given. -/
theorem encloses_of_recompute (hp : p.Reachable) {run : Except Fault RecomputeReport × Project}
    {given : List TaskId} (hrun : run = p.recomputeAll ∧ given = [] ∨ run = p.recompute given)
    {report : RecomputeReport} (hok : run.1 = .ok report) (ht : run.2.task? c = some t)
    (hspan : t.milestone = false)
    (hchanged : run.2.task? c ≠ p.task? c ∨ ∃ x, p.Inside x c ∧ run.2.task? x ≠ p.task? x)
    (hmoved : c ∈ report.modified → ∃ x ∈ given ++ report.modified, p.Inside x c) :
    ∀ x ∈ p.children c, ∀ u, run.2.task? x = some u → t.start ≤ u.start ∧ u.finish ≤ t.finish := by
  have hsound := hp.sound
  -- either way, containers of everything that was moved have been fitted in the end
  obtain ⟨resolved, adjusted, q, hresolved, hfit, hmodified⟩ :
      ∃ resolved adjusted q, Accounted p resolved q ∧
        q.fit (given ++ resolved.modified) = (.ok adjusted, run.2) ∧
          report.modified = resolved.modified := by
    rcases hrun with ⟨rfl, rfl⟩ | rfl
    · obtain ⟨reach, resolved, givenUp, adjusted, q, -, hall, hfit, rfl⟩ :=
        Project.exists_of_recomputeAll (Prod.ext hok rfl)
      exact ⟨resolved, adjusted, q, (Accounted.initial hsound).resolveAll hsound hall, hfit, rfl⟩
    · obtain ⟨reaches, resolved, adjusted, q, -, hall, hfit, rfl⟩ :=
        Project.exists_of_recompute (Prod.ext hok rfl)
      exact ⟨resolved, adjusted, q, (Accounted.initial hsound).resolveReaches hsound hall, hfit,
        rfl⟩
  have hcontains : ∃ y ∈ given ++ resolved.modified, p.Inside y c := by
    rcases hchanged with hne | ⟨x, hx, hne⟩
    · rcases hresolved.cases_of_ne hfit hne with hmem | hcontains
      · exact hmodified ▸ hmoved (hmodified ▸ hmem)
      · exact hcontains
    · rcases hresolved.cases_of_ne hfit hne with hmem | ⟨y, hy, hyx⟩
      · exact ⟨x, List.mem_append_right given hmem, hx⟩
      · exact ⟨y, hy, hyx.trans hx⟩
  obtain ⟨hredates, hfits⟩ := Project.fits_of_fit hresolved.sound hfit
  rw [← hresolved.redates.frame.inside] at hcontains
  obtain ⟨hstart, hfinish⟩ := hfits c hcontains t ht hspan
  intro x hx u hu
  rw [← hresolved.redates.frame.children, ← hredates.frame.children] at hx
  exact ⟨hstart.2 ⟨x, hx, u, hu, rfl⟩, hfinish.2 ⟨x, hx, u, hu, rfl⟩⟩

/-- A house with walls that follow a survey, and a cellar that is there already. -/
def cottagePlan : Project :=
  (Project.empty .standard).after [
    .addTask "survey" (Day.first.advance 4) (.days 5),
    .addTask "walls" (Day.first.advance 4) (.days 2),
    .addTask "cellar" (Day.first.advance 4) (.days 1),
    .addTask "house" (Day.first.advance 4) (.days 3),
    .place ⟨2⟩ ⟨4⟩,
    .place ⟨3⟩ ⟨4⟩,
    .addDependency ⟨1⟩ ⟨2⟩ .finishStart .strong 0]

/-- The walls are moved, and the house reaches from the cellar to where they are. -/
theorem encloses_of_recompute_cottagePlan :
    (cottagePlan.recompute [⟨1⟩]).1 = .ok ⟨[⟨2⟩], [⟨4⟩], [], false⟩ ∧
      cottagePlan.children ⟨4⟩ = [⟨2⟩, ⟨3⟩] ∧
      ∃ house, (cottagePlan.recompute [⟨1⟩]).2.task? ⟨4⟩ = some house ∧
        ∀ x ∈ cottagePlan.children ⟨4⟩, ∀ u, (cottagePlan.recompute [⟨1⟩]).2.task? x = some u →
          house.start ≤ u.start ∧ u.finish ≤ house.finish := by
  have hp : cottagePlan.Reachable := (Project.Reachable.empty _).after _
  have hok : (cottagePlan.recompute [⟨1⟩]).1 = .ok ⟨[⟨2⟩], [⟨4⟩], [], false⟩ := by decide +kernel
  have hhouse : ((cottagePlan.recompute [⟨1⟩]).2.task? ⟨4⟩).map Task.milestone = some false := by
    decide +kernel
  obtain ⟨house, hhouse, hspan⟩ := Option.map_eq_some_iff.mp hhouse
  have hmoved : (cottagePlan.recompute [⟨1⟩]).2.task? ⟨2⟩ ≠ cottagePlan.task? ⟨2⟩ := by
    decide +kernel
  have hwalls : cottagePlan.parent? ⟨2⟩ = some ⟨4⟩ := by decide +kernel
  have hinside : cottagePlan.Inside ⟨2⟩ ⟨4⟩ := .single hwalls
  exact ⟨hok, by decide +kernel, house, hhouse, encloses_of_recompute hp (.inr rfl) hok hhouse hspan
    (.inr ⟨⟨2⟩, hinside, hmoved⟩) fun _ => ⟨⟨2⟩, by decide, hinside⟩⟩

/-- A house of five days with its walls.  The house follows a survey. -/
def shiftedPlan : Project :=
  (Project.empty .standard).after [
    .addTask "survey" (Day.first.advance 4) (.days 2),
    .addTask "house" (Day.first.advance 4) (.days 5),
    .addTask "walls" (Day.first.advance 4) (.days 1),
    .place ⟨3⟩ ⟨2⟩,
    .addDependency ⟨1⟩ ⟨2⟩ .finishStart .strong 0]

/-- The house is moved for the survey, and the walls stay behind. -/
theorem recompute_shiftedPlan : shiftedPlan.Reachable ∧
    (shiftedPlan.recompute [⟨1⟩]).1 = .ok ⟨[⟨2⟩], [], [], false⟩ ∧
    ⟨3⟩ ∈ shiftedPlan.children ⟨2⟩ ∧
    (shiftedPlan.recompute [⟨1⟩]).2.task? ⟨2⟩ ≠ shiftedPlan.task? ⟨2⟩ ∧
    ∃ house walls, (shiftedPlan.recompute [⟨1⟩]).2.task? ⟨2⟩ = some house ∧
      (shiftedPlan.recompute [⟨1⟩]).2.task? ⟨3⟩ = some walls ∧ house.milestone = false ∧
      walls.start < house.start := by
  have hrows : ((shiftedPlan.recompute [⟨1⟩]).2.task? ⟨2⟩).map
        (fun t => (t.milestone, t.start.ordinal)) = some (false, 6) ∧
      ((shiftedPlan.recompute [⟨1⟩]).2.task? ⟨3⟩).map (fun t => t.start.ordinal) = some 4 := by
    decide +kernel
  obtain ⟨hhouse, hwalls⟩ := hrows
  obtain ⟨house, hhouse, heq⟩ := Option.map_eq_some_iff.mp hhouse
  obtain ⟨walls, hwalls, hday⟩ := Option.map_eq_some_iff.mp hwalls
  obtain ⟨hspan, hlater⟩ := Prod.mk.inj heq
  refine ⟨(Project.Reachable.empty _).after _, by decide +kernel, by decide +kernel,
    by decide +kernel, house, walls, hhouse, hwalls, hspan, ?_⟩
  rw [Day.lt_def, hday, hlater]
  decide

end Workplan
