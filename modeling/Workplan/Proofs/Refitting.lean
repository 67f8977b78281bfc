import Workplan.Proofs.Collecting
import Workplan.Proofs.Ordered
import Workplan.Session.Query

/-!
# What fitting reports

Fitting tells which containers are different afterwards.  Each container is looked at once, after
everything that lies inside it, so what it is given is not looked at again, and it is told just when
its row is another one in the end.  There is nothing left to do for a second time.

- `Project.changed_iff_of_fitContainer`: what one step reports.
- `Project.mem_of_fitAll`: what the steps report together.
- `Project.fitAll_of_fitted`: containers that are fitted are left alone.
- `Project.exact_of_fit`: all that fitting does.
-/

namespace Workplan

open Act

variable {p q : Project} {c x : TaskId} {t : Task} {changed : Bool}
  {tasks containers told : List TaskId}

namespace Project

/-! ## What one step reports -/

theorem changed_iff_of_redate {start finish : Day} {duration : Duration} (ht : p.task? c = some t)
    (h : p.redate t start finish duration = (.ok changed, q)) :
    changed = true ↔ q.task? c ≠ p.task? c := by
  rw [redate] at h
  split at h
  · cases h
  · cases h
    have hrow : (p.replace { t with start, finish, duration }).task? c =
        some { t with start, finish, duration } := task?_replace_self ht rfl
    rw [hrow, ht, decide_eq_true_iff]
    exact not_congr Option.some_inj.symm

/-- **A container is reported exactly if its row is another one.** -/
theorem changed_iff_of_fitContainer (ht : p.task? c = some t)
    (h : fitContainer Host.alone c p = (.ok changed, q)) :
    changed = true ↔ q.task? c ≠ p.task? c := by
  have hsame : ∀ {r : Project}, (.ok false, p) = ((.ok changed, r) : Except Fault Bool × Project) →
      (changed = true ↔ r.task? c ≠ p.task? c) := by
    rintro r heq
    cases heq
    exact iff_of_false Bool.false_ne_true fun hne => hne rfl
  rw [fitContainer_alone ht] at h
  split at h
  · exact hsame h
  · split at h
    · exact hsame h
    · exact changed_iff_of_redate ht h

/-- A container that is fitted is left alone.  A milestone cannot be given the end of its children,
and so stays as it is. -/
theorem fitContainer_of_fitted (hnodup : (p.tasks.map Task.id).Nodup) (ht : p.task? c = some t)
    (hpoint : t.IsPoint) (h : p.Fitted c) : fitContainer Host.alone c p = (.ok false, p) := by
  rw [fitContainer_alone ht]
  rcases hspan : p.childSpan? c with _ | ⟨first, last⟩
  · rfl
  obtain ⟨hstart, hfinish⟩ := h t first last ht hspan
  dsimp only
  split
  · rfl
  next hne =>
  have hms : t.milestone = true := by
    by_contra hextended
    exact hne ⟨hstart, hfinish (Bool.eq_false_iff.mpr hextended)⟩
  obtain ⟨hend, hcount⟩ := hpoint hms
  have hrow :
      ({ t with start := first, finish := first, duration := ⟨0, t.grain⟩ } : Task) = t := by
    rw [← hcount, ← hstart]
    exact congrArg (fun finish => { t with finish }) hend.symm
  rw [revisedFinish, if_pos hms, revisedDuration, if_pos hms, redate, if_neg (lt_irrefl first)]
  dsimp only
  rw [hrow, decide_eq_false (not_not.mpr rfl),
    replace_self hnodup (by rwa [id_of_task? ht])]

/-! ## What all steps report -/

/-- **What is reported are the containers whose rows are other ones in the end**, in the order in
which they were fitted. -/
theorem mem_of_fitAll (hp : p.Sound) (hinner : ∀ c ∈ containers, ∃ x, p.parent? x = some c)
    (horder : containers.Pairwise fun a b => b ≠ a ∧ b ∉ p.children a)
    (h : fitAll Host.alone containers p = (.ok told, q)) :
    told.Sublist containers ∧ ∀ c ∈ containers, c ∈ told ↔ q.task? c ≠ p.task? c := by
  induction containers generalizing p told with
  | nil =>
    cases h
    exact ⟨.refl [], fun _ hc => absurd hc List.not_mem_nil⟩
  | cons c rest ih =>
    obtain ⟨changed, s, hfirst, h⟩ := exists_of_bind_ok h
    obtain ⟨others, s', hrest, h⟩ := exists_of_bind_ok h
    cases h
    obtain ⟨x, hx⟩ := hinner c List.mem_cons_self
    obtain ⟨t, ht⟩ := exists_task? (hp.mem_of_parent? hx).2
    obtain ⟨hone, -⟩ := fitted_of_fitContainer hp.toNested hx hfirst
    have hchanged := changed_iff_of_fitContainer ht hfirst
    have hs : s.Sound := by
      have := keeps_fitContainer (keptByCommits_sound c) p hp
      rwa [hfirst] at this
    obtain ⟨hbefore, hlater⟩ := List.pairwise_cons.mp horder
    rw [← hone.frame.children] at hlater
    have hinner' : ∀ b ∈ rest, ∃ x, s.parent? x = some b := by
      intro b hb
      rw [hone.frame.parent?]
      exact hinner b (List.mem_cons_of_mem c hb)
    obtain ⟨hsub, hmem⟩ := ih hs hinner' hlater hrest
    -- the first container is not touched later, nor are the later ones by the first step
    have hself : q.task? c = s.task? c :=
      (fitted_of_fitAll hs hinner' hlater hrest).1.others c fun hc => (hbefore c hc).1 rfl
    have hothers : ∀ b ∈ rest, s.task? b = p.task? b :=
      fun b hb => hone.others b (hbefore b hb).1
    have hfresh : c ∉ others := fun hc => (hbefore c (hsub.subset hc)).1 rfl
    refine ⟨?_, fun b hb => ?_⟩
    · split
      · exact hsub.cons_cons c
      · exact hsub.cons c
    rcases List.mem_cons.mp hb with rfl | hb
    · rw [hself, ← hchanged]
      split
      · next hyes => exact iff_of_true List.mem_cons_self hyes
      · next hno => exact iff_of_false hfresh hno
    · rw [← hothers b hb, ← hmem b hb]
      have hne : b ≠ c := (hbefore b hb).1
      split
      · exact List.mem_cons.trans (or_iff_right hne)
      · rfl

/-- **Containers that are fitted are left alone**, one after the other. -/
theorem fitAll_of_fitted (hp : p.Reachable)
    (h : ∀ c ∈ containers, p.contains c ∧ p.Fitted c) :
    fitAll Host.alone containers p = (.ok [], p) := by
  induction containers with
  | nil => rfl
  | cons c rest ih =>
    obtain ⟨hc, hfitted⟩ := h c List.mem_cons_self
    obtain ⟨t, ht⟩ := Option.isSome_iff_exists.mp hc
    have hfirst := fitContainer_of_fitted hp.sound.ids_nodup ht (hp.isPoint t (mem_of_task? ht))
      hfitted
    rw [fitAll, bind_of_ok hfirst, bind_of_ok (ih fun b hb => h b (List.mem_cons_of_mem c hb))]
    rfl

/-! ## Fitting -/

/-- A row of a project that fitting has changed is that of a task with other dates. -/
theorem SameFrame.rowOf_eq_iff (hframe : p.SameFrame q) :
    (q.task? x).map q.rowOf = (p.task? x).map p.rowOf ↔ q.task? x = p.task? x := by
  have hrow : q.rowOf = p.rowOf := by
    funext t
    rw [rowOf, rowOf, hframe.parent?]
  have hinj : Function.Injective p.rowOf := fun t u heq => congrArg TaskRow.task heq
  rw [hrow, (Option.map_injective hinj).eq_iff]

/-- **Fitting is exact.**  It works off the containers that are collected on the ways up from the
tasks, with an early stop at known ones, and sorted from whatever order they come in.  The
containers of the tasks reach from the first start of their children to the last end, all other
rows are as before, and it reports the containers whose rows are other ones, the deeper ones
first.  A second time there is nothing to do. -/
theorem exact_of_fit (hp : p.Reachable) (h : p.fit tasks = (.ok told, q)) :
    (∀ order : List TaskId, order.Perm (p.collectAll tasks) →
      order.mergeSort p.fitsBefore = p.containersOf tasks ∧
        fitAll Host.alone (order.mergeSort p.fitsBefore) p = (.ok told, q)) ∧
    (∀ c, (∃ x ∈ tasks, p.Inside x c) → q.Fits c) ∧
    (∀ x, (¬ ∃ y ∈ tasks, p.Inside y x) → (q.task? x).map q.rowOf = (p.task? x).map p.rowOf) ∧
    told.Nodup ∧
    (∀ x, x ∈ told ↔ (q.task? x).map q.rowOf ≠ (p.task? x).map p.rowOf) ∧
    told.Pairwise (fun a b =>
      p.depth b < p.depth a ∨ (p.depth a = p.depth b ∧ a.number < b.number)) ∧
    q.fit tasks = (.ok [], q) := by
  have hnested := hp.sound.toNested
  obtain ⟨hredates, hfits⟩ := fits_of_fit hp.sound h
  obtain ⟨-, hfitted⟩ := fitted_of_fit hp.sound h
  have hq : q.Reachable := by
    have := hp.fit tasks
    rwa [h] at this
  obtain ⟨hsub, hmem⟩ := mem_of_fitAll hp.sound (fun c => hnested.exists_child)
    (hnested.pairwise_containersOf tasks) (fit_eq tasks ▸ h)
  have hsorted := (sorted_containersOf tasks).sublist hsub
  refine ⟨fun order horder => ?_, hfits,
    fun x hx => hredates.frame.rowOf_eq_iff.mpr (hredates.others x hx),
    hsorted.imp fun hbefore heq => ?_, fun x => ?_, hsorted, ?_⟩
  · have hcontainers := hnested.mergeSort_collectAll horder
    rw [hcontainers]
    exact ⟨rfl, h⟩
  · -- a container told twice would come before itself
    rw [heq] at hbefore
    omega
  · rw [Ne, hredates.frame.rowOf_eq_iff]
    by_cases hx : x ∈ p.containersOf tasks
    · exact hmem x hx
    · refine iff_of_false (fun htold => hx (hsub.subset htold)) (not_not.mpr ?_)
      exact hredates.others x (mt hnested.mem_containersOf.mpr hx)
  · -- the second fitting finds every container as its children ask for it
    rw [fit_eq]
    refine fitAll_of_fitted hq fun c hc => ?_
    obtain ⟨x, hx, hin⟩ := hq.sound.toNested.mem_containersOf.mp hc
    refine ⟨?_, hfitted c ⟨x, hx, hredates.frame.inside ▸ hin⟩⟩
    obtain ⟨t, ht⟩ := exists_task? (hq.sound.toNested.mem_of_inside hin).2
    exact Option.isSome_iff_exists.mpr ⟨t, ht⟩

end Project

/-- A site with a house on it, and the walls of the house, which are put up later than the house is
planned.  The topping-out is a milestone with a speech. -/
def ceremonyPlan : Project :=
  (Project.empty .standard).after [
    .addTask "site" (Day.first.advance 4) (.days 5),
    .addTask "house" (Day.first.advance 4) (.days 5),
    .addTask "walls" (Day.first.advance 11) (.days 2),
    .addMilestone "topping-out" (Day.first.advance 4),
    .addTask "speech" (Day.first.advance 14) (.days 1),
    .place ⟨2⟩ ⟨1⟩,
    .place ⟨3⟩ ⟨2⟩,
    .place ⟨4⟩ ⟨2⟩,
    .place ⟨5⟩ ⟨4⟩]

/-- The milestone is moved to the speech, then the house and the site are fitted around it.  On the
way up from the walls the house is met again, which is the early stop. -/
theorem exact_of_fit_ceremonyPlan :
    ∃ q, ceremonyPlan.fit [⟨5⟩, ⟨3⟩] = (.ok [⟨4⟩, ⟨2⟩, ⟨1⟩], q) ∧
      fitAll Host.alone ((ceremonyPlan.collectAll [⟨5⟩, ⟨3⟩]).mergeSort ceremonyPlan.fitsBefore)
        ceremonyPlan = (.ok [⟨4⟩, ⟨2⟩, ⟨1⟩], q) ∧
      q.Fits ⟨2⟩ ∧ q.Fits ⟨1⟩ ∧
      (q.task? ⟨3⟩).map q.rowOf = (ceremonyPlan.task? ⟨3⟩).map ceremonyPlan.rowOf ∧
      q.fit [⟨5⟩, ⟨3⟩] = (.ok [], q) := by
  have hp : ceremonyPlan.Reachable := (Project.Reachable.empty _).after _
  -- the containers happen to be found in the order of fitting
  have hcontainers : ceremonyPlan.containersOf [⟨5⟩, ⟨3⟩] = [⟨4⟩, ⟨2⟩, ⟨1⟩] :=
    (List.mergeSort_of_pairwise (by decide +kernel)).trans (by decide +kernel)
  have hrun : (ceremonyPlan.fit [⟨5⟩, ⟨3⟩]).1 = .ok [⟨4⟩, ⟨2⟩, ⟨1⟩] := by
    rw [Project.fit_eq, hcontainers]
    decide +kernel
  have hwalls : ceremonyPlan.parent? ⟨3⟩ = some ⟨2⟩ := by decide +kernel
  have hhouse : ceremonyPlan.parent? ⟨2⟩ = some ⟨1⟩ := by decide +kernel
  obtain ⟨hcollected, hfits, hothers, -, hrows, -, hagain⟩ :=
    Project.exact_of_fit hp (Prod.ext hrun rfl)
  refine ⟨_, Prod.ext hrun rfl, (hcollected _ (.refl _)).2,
    hfits _ ⟨⟨3⟩, by decide, .single hwalls⟩,
    hfits _ ⟨⟨3⟩, by decide, .head hwalls (.single hhouse)⟩, ?_, hagain⟩
  exact not_not.mp fun hne => absurd ((hrows ⟨3⟩).mpr hne) (by decide)

end Workplan
