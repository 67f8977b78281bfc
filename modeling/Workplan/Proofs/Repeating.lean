import Workplan.Proofs.Names
import Workplan.Proofs.Resolving

/-!
# Recomputing again

After a recomputation from a task, the same recomputation finds nothing to do, provided that the
order of the dependencies does not let a strong one fix a start on dates that are still to move.

- `StrongLast`: the condition on the order.
- `Project.Calm`: what holds of the start of a task on the way.
- `Cascading`, `Cascading.step`: a cascade resolved in part, and one more dependency.
- `recompute_again`: a second recomputation changes nothing.
- `recompute_slackPlan`: without the condition on the order, it may.
-/

namespace Workplan

open Collision

variable {p r r' : Project} {x : TaskId} {t : Task} {d : Dependency} {start : Day}
  {done rest ds : List Dependency} {report report' : RecomputeReport}

/-- While something is left that moves what a loose dependency waits for, a strong dependency on the
same dependant is left as well, if there is any at all. -/
def StrongLast (ds : List Dependency) : Prop :=
  ∀ rest ∈ ds.tails, ∀ f ∈ rest, ∀ e ∈ ds, ∀ s ∈ ds,
    e.hardness = .rubber → f.dependant = e.dependee → s.hardness = .strong →
      s.dependant = e.dependant → ∃ s' ∈ rest, s'.hardness = .strong ∧ s'.dependant = e.dependant

/-- While what a loose dependency waits for is still to move, so is a strong dependency on the
same dependant to be resolved, if there is one. -/
theorem StrongLast.exists_left (h : StrongLast (done ++ d :: rest)) {e f s : Dependency}
    (he : e ∈ done ++ d :: rest) (hkind : e.hardness = .rubber) (hf : f ∈ rest)
    (hfe : f.dependant = e.dependee) (hs : s ∈ done ++ d :: rest) (hstrong : s.hardness = .strong)
    (hse : s.dependant = e.dependant) :
    ∃ s' ∈ rest, s'.hardness = .strong ∧ s'.dependant = e.dependant := by
  have hsuffix : rest ∈ (done ++ d :: rest).tails := by
    rw [List.mem_tails]
    exact (List.suffix_cons d rest).trans (List.suffix_append done _)
  exact h rest hsuffix f hf e he s hs hkind hfe hstrong hse

/-! ## Starts on the way -/

namespace Project

/-- A task is held at a start: it is no start to be put off, no demand that is settled is later, and
either a settled demand puts the task there or a strong dependency is still to be resolved. -/
structure Held (r : Project) (rest : List Dependency) (x : TaskId) (start : Day) : Prop where
  snapped : r.calendar.onOrAfter .day start = start
  bounded : ∀ e ∈ r.incoming x, e ∉ rest → r.demand e ≤ start
  reason : (∃ e ∈ r.incoming x, (∀ f ∈ rest, f.dependant ≠ e.dependee) ∧
      r.calendar.onOrAfter .day (r.demand e) = start) ∨
    ∃ s ∈ rest, s.dependant = x ∧ s.hardness = .strong

/-- Nothing resolved so far asks the task to move, or the task is held. -/
def Calm (r : Project) (done rest : List Dependency) (x : TaskId) (start : Day) : Prop :=
  (∀ d ∈ done, d.dependant = x → d.isKept (r.demand d) start) ∨ r.Held rest x start

/-- Where nothing is left, a held task is where its latest demand puts it. -/
theorem Held.eq (hc : r.calendar.GapsBelowHorizon) (h : r.Held [] x start) {floor : Day}
    (hfloor : latest? ((r.incoming x).map r.demand) = some floor) :
    r.calendar.onOrAfter .day floor = start := by
  obtain ⟨hmem, hmax⟩ := latest?_eq_some_iff.mp hfloor
  have hle : floor ≤ start := by
    obtain ⟨e, he, rfl⟩ := List.mem_map.mp hmem
    exact h.bounded e he List.not_mem_nil
  refine le_antisymm ?_ ?_
  · calc r.calendar.onOrAfter .day floor
      _ ≤ r.calendar.onOrAfter .day start := Calendar.onOrAfter_mono hc hle
      _ = start := h.snapped
  · rcases h.reason with ⟨e, he, -, hat⟩ | ⟨s, hs, -⟩
    · rw [← hat]
      exact Calendar.onOrAfter_mono hc (hmax _ (List.mem_map_of_mem he))
    · exact absurd hs List.not_mem_nil

/-- Where only loose dependencies have been resolved, a start behind all demands is calm. -/
theorem calm_of_rubber (hdone : ∀ g ∈ done, g ∈ r.dependencies)
    (hloose : ∀ g ∈ done, g.dependant = x → g.hardness = .rubber)
    (hbounded : ∀ e ∈ r.incoming x, r.demand e ≤ start) : r.Calm done rest x start := by
  refine .inl fun g hg hx => ?_
  rw [Dependency.isKept_of_rubber (hloose g hg hx), decide_eq_true_eq]
  exact hbounded g (mem_incoming.mpr ⟨hdone g hg, hx⟩)

/-- **A task sent to its latest demand is calm.** -/
theorem calm_of_floor (hc : r.calendar.GapsBelowHorizon) (hlast : StrongLast (done ++ d :: rest))
    (hcascade : r.IsCascade (done ++ d :: rest)) {floor : Day}
    (hfloor : latest? ((r.incoming x).map r.demand) = some floor) :
    r.Calm (done ++ [d]) rest x (r.calendar.onOrAfter .day floor) := by
  obtain ⟨hmem, hmax⟩ := latest?_eq_some_iff.mp hfloor
  have hbounded : ∀ e ∈ r.incoming x, r.demand e ≤ r.calendar.onOrAfter .day floor := by
    intro e he
    exact (hmax _ (List.mem_map_of_mem he)).trans (Calendar.le_onOrAfter hc floor)
  have hheld : ((∃ e ∈ r.incoming x, (∀ f ∈ rest, f.dependant ≠ e.dependee) ∧
        r.calendar.onOrAfter .day (r.demand e) = r.calendar.onOrAfter .day floor) ∨
      ∃ s ∈ rest, s.dependant = x ∧ s.hardness = .strong) →
      r.Calm (done ++ [d]) rest x (r.calendar.onOrAfter .day floor) := fun hreason =>
    .inr ⟨Calendar.onOrAfter_idem .day floor, fun e he _ => hbounded e he, hreason⟩
  obtain ⟨e, he, hdemand⟩ := List.mem_map.mp hmem
  obtain ⟨hedep, hex⟩ := mem_incoming.mp he
  by_cases hsettled : ∀ f ∈ rest, f.dependant ≠ e.dependee
  · exact hheld (.inl ⟨e, he, hsettled, by rw [hdemand]⟩)
  -- the latest demand may still change, so its dependency is left, too
  obtain ⟨f, hf, hfe⟩ : ∃ f ∈ rest, f.dependant = e.dependee := by
    simpa only [not_forall, not_not, exists_prop] using hsettled
  have herest : e ∈ rest := hcascade.mem_rest hedep hf hfe
  have heall : e ∈ done ++ d :: rest := List.mem_append_right _ (List.mem_cons_of_mem d herest)
  cases hkind : e.hardness with
  | strong => exact hheld (.inr ⟨e, herest, hex, hkind⟩)
  | rubber =>
    by_cases hstrong : ∃ s ∈ done ++ d :: rest, s.hardness = .strong ∧ s.dependant = x
    · obtain ⟨s, hs, hsstrong, hsx⟩ := hstrong
      obtain ⟨s', hs', hs'strong, hs'x⟩ :=
        hlast.exists_left heall hkind hf hfe hs hsstrong (hsx.trans hex.symm)
      exact hheld (.inr ⟨s', hs', hs'x.trans hex, hs'strong⟩)
    · have hall : ∀ g ∈ done ++ [d], g ∈ done ++ d :: rest := by
        intro g hg
        rw [List.append_cons]
        exact List.mem_append_left rest hg
      refine calm_of_rubber (fun g hg => hcascade.subset g (hall g hg)) (fun g hg hgx => ?_)
        hbounded
      cases hgkind : g.hardness with
      | rubber => rfl
      | strong => exact absurd ⟨g, hall g hg, hgkind, hgx⟩ hstrong

/-- A task stays calm when a dependency on it is found to be kept. -/
theorem Calm.of_isKept (hcascade : r.IsCascade (done ++ d :: rest)) (hx : d.dependant = x)
    (hkept : d.isKept (r.demand d) start) (h : r.Calm done (d :: rest) x start) :
    r.Calm (done ++ [d]) rest x start := by
  have hd : d ∈ r.incoming x :=
    mem_incoming.mpr ⟨hcascade.subset d (List.mem_append_right _ List.mem_cons_self), hx⟩
  have hsettled : ∀ f ∈ rest, f.dependant ≠ d.dependee := fun f hf =>
    hcascade.dependee_ne (List.mem_append_right _ (List.mem_singleton_self d)) f
      (List.mem_cons_of_mem d hf)
  rcases h with hidle | hheld
  · refine .inl fun e he hex => ?_
    rcases List.mem_append.mp he with he | he
    · exact hidle e he hex
    · rw [List.mem_singleton.mp he]
      exact hkept
  · refine .inr ⟨hheld.snapped, fun e he hrest => ?_, ?_⟩
    · by_cases hed : e = d
      · rw [hed]
        exact Dependency.le_of_isKept hkept
      · exact hheld.bounded e he fun h => hrest ((List.mem_cons.mp h).resolve_left hed)
    · rcases hheld.reason with ⟨e, he, hfinal, hat⟩ | ⟨s, hs, hsx, hstrong⟩
      · exact .inl ⟨e, he, fun f hf => hfinal f (List.mem_cons_of_mem d hf), hat⟩
      · rcases List.mem_cons.mp hs with rfl | hs
        · -- a strong dependency that is kept puts the task where it is
          refine .inl ⟨s, hd, hsettled, ?_⟩
          rw [Dependency.isKept_of_strong hstrong, decide_eq_true_eq] at hkept
          rw [← hkept]
          exact hheld.snapped
        · exact .inr ⟨s, hs, hsx, hstrong⟩

/-- Calm is told by the demands. -/
theorem Calm.congr (hdone : ∀ e ∈ done, e ∈ r.dependencies) (hframe : r.SameFrame r')
    (hsame : ∀ e ∈ r.incoming x, r'.demand e = r.demand e) (h : r.Calm done rest x start) :
    r'.Calm done rest x start := by
  rcases h with hidle | hheld
  · refine .inl fun e he hex => ?_
    rw [hsame e (mem_incoming.mpr ⟨hdone e he, hex⟩)]
    exact hidle e he hex
  · refine .inr ⟨?_, fun e he hrest => ?_, ?_⟩
    · rw [hframe.calendar]
      exact hheld.snapped
    · rw [hframe.incoming] at he
      rw [hsame e he]
      exact hheld.bounded e he hrest
    · rw [hframe.incoming, hframe.calendar]
      refine hheld.reason.imp_left ?_
      rintro ⟨e, he, hfinal, hat⟩
      exact ⟨e, he, hfinal, by rw [hsame e he]; exact hat⟩

/-- A task stays calm when another one is moved. -/
theorem Calm.of_moved (hcascade : r.IsCascade (done ++ d :: rest)) (hframe : r.SameFrame r')
    (hsame : ∀ e ∈ r.dependencies, e.dependee ≠ d.dependant → r'.demand e = r.demand e)
    (hx : x ≠ d.dependant) (h : r.Calm done (d :: rest) x start) :
    r'.Calm (done ++ [d]) rest x start := by
  have hother : ∀ {e}, e.dependant = x → e ≠ d := fun hex e => hx (hex.symm.trans (e ▸ rfl))
  rcases h with hidle | hheld
  · refine .inl fun e he hex => ?_
    have hedone : e ∈ done :=
      (List.mem_append.mp he).resolve_right fun h => hother hex (List.mem_singleton.mp h)
    have hdep := hcascade.subset e (List.mem_append_left _ hedone)
    have hne := hcascade.dependee_ne he d List.mem_cons_self
    rw [hsame e hdep hne.symm]
    exact hidle e hedone hex
  · refine .inr ⟨?_, fun e he hrest => ?_, ?_⟩
    · rw [hframe.calendar]
      exact hheld.snapped
    · rw [hframe.incoming] at he
      obtain ⟨hdep, hex⟩ := mem_incoming.mp he
      have hleft : e ∉ d :: rest := fun h =>
        hrest ((List.mem_cons.mp h).resolve_left (hother hex))
      -- the dependee does not move now, or the dependency would be one of those left
      have hne : e.dependee ≠ d.dependant := by
        intro heq
        have hall := hcascade.closed d (List.mem_append_right _ List.mem_cons_self) e hdep heq
        have hedone := (List.mem_append.mp hall).resolve_right hleft
        exact hcascade.dependee_ne (List.mem_append_left [d] hedone) d List.mem_cons_self heq.symm
      rw [hsame e hdep hne]
      exact hheld.bounded e he hleft
    · rw [hframe.incoming, hframe.calendar]
      rcases hheld.reason with ⟨e, he, hfinal, hat⟩ | ⟨s, hs, hsx, hstrong⟩
      · refine .inl ⟨e, he, fun f hf => hfinal f (List.mem_cons_of_mem d hf), ?_⟩
        rw [hsame e (mem_incoming.mp he).1 (hfinal d List.mem_cons_self).symm]
        exact hat
      · exact .inr ⟨s, (List.mem_cons.mp hs).resolve_left (hother hsx), hsx, hstrong⟩

end Project

/-! ## A cascade resolved in part -/

/-- A recomputation of `p` is at `r` and has resolved the first part of a cascade.  Only starts have
changed.  Every task is calm, unless it was moved behind the last working day. -/
structure Cascading (p : Project) (done rest : List Dependency) (report : RecomputeReport)
    (r : Project) : Prop where
  cascade : r.IsCascade (done ++ rest)
  plain : r.Plain
  same : p.SameLengths r
  calm : ∀ x t, r.task? x = some t →
    (x ∈ report.modified → r.calendar.ReachesWork t.start) → r.Calm done rest x t.start

namespace Cascading

/-- A step that moves nothing. -/
theorem of_still (h : Cascading p done (d :: rest) report r) (ht : r.task? d.dependant = some t)
    (hcalm : (d.dependant ∈ report.modified → r.calendar.ReachesWork t.start) →
      r.Calm (done ++ [d]) rest d.dependant t.start) :
    Cascading p (done ++ [d]) rest report r := by
  refine ⟨?_, h.plain, h.same, fun x u hu hreach => ?_⟩
  · rw [← List.append_cons]
    exact h.cascade
  · by_cases hx : x = d.dependant
    · subst hx
      cases hu.symm.trans ht
      exact hcalm hreach
    · exact (h.calm x u hu hreach).of_moved h.cascade (.refl r) (fun _ _ _ => rfl) hx

/-- A step that moves the dependant to its latest demand. -/
theorem of_move (hlast : StrongLast (done ++ d :: rest))
    (h : Cascading p done (d :: rest) report r) (ht : r.task? d.dependant = some t) {floor : Day}
    (hfloor : latest? ((r.incoming d.dependant).map r.demand) = some floor)
    (hlands : r.calendar.LandsAt floor start)
    (hsound : (r.replace (t.movedTo r.calendar start)).Sound) :
    Cascading p (done ++ [d]) rest (report.addModified d.dependant)
      (r.replace (t.movedTo r.calendar start)) := by
  have hid := Project.id_of_task? ht
  have hlengths := h.plain.sameLengths_movedTo ht start
  set r' := r.replace (t.movedTo r.calendar start) with hr'
  have hrow : r'.task? d.dependant = some (t.movedTo r.calendar start) :=
    Project.task?_replace_self ht rfl
  have hothers : ∀ y, y ≠ d.dependant → r'.task? y = r.task? y := fun y hy =>
    Project.task?_replace_of_ne (show y ≠ t.id by rwa [hid])
  have hsame : ∀ e ∈ r.dependencies, e.dependee ≠ d.dependant → r'.demand e = r.demand e :=
    fun e he hne => h.plain.demand_congr hlengths he (hothers _ hne)
  refine ⟨?_, h.plain.of_sameLengths hsound hlengths, h.same.trans hlengths, ?_⟩
  · rw [← List.append_cons]
    exact h.cascade.congr hlengths.frame.dependencies
  intro x u hu hreach
  rw [RecomputeReport.mem_addModified, hlengths.frame.calendar] at hreach
  by_cases hx : x = d.dependant
  · subst hx
    cases hu.symm.trans hrow
    -- the task is where its latest demand puts it, and no demand on it depends on its own dates
    have hstart : start = r.calendar.onOrAfter .day floor :=
      hlands.eq (hlands.reaches.mp (hreach (.inr rfl)))
    have hcalm := Project.calm_of_floor h.plain.gaps hlast h.cascade hfloor
    rw [← hstart] at hcalm
    refine hcalm.congr (fun e he => ?_) hlengths.frame fun e he => ?_
    · refine h.cascade.subset e ?_
      rw [List.append_cons]
      exact List.mem_append_left rest he
    · obtain ⟨hdep, hex⟩ := Project.mem_incoming.mp he
      refine hsame e hdep fun heq => ?_
      have hd : d ∈ done ++ d :: rest := List.mem_append_right _ List.mem_cons_self
      exact h.cascade.apart e (h.cascade.closed d hd e hdep heq) (hex.trans heq.symm)
  · rw [hothers x hx] at hu
    have hcalm := h.calm x u hu fun hmem => hreach (.inl hmem)
    exact hcalm.of_moved h.cascade hlengths.frame hsame hx

/-- **One more dependency.** -/
theorem step (hlast : StrongLast (done ++ d :: rest))
    (h : Cascading p done (d :: rest) report r) : ∃ report' r',
      resolveDependency Host.alone d.id report [] r = (.ok (report', []), r') ∧
        Cascading p (done ++ [d]) rest report' r' := by
  have hd : d ∈ r.dependencies :=
    h.cascade.subset d (List.mem_append_right _ List.mem_cons_self)
  obtain ⟨t, ht⟩ := Project.exists_task? (h.plain.sound.dependant_mem d hd)
  obtain ⟨floor, hfloor, hrun⟩ := h.plain.resolveDependency hd ht report
  have hsound := keeps_resolveDependency Project.keptByCommits_sound d.id report [] r h.plain.sound
  by_cases hkept : d.isKept (r.demand d) t.start
  · rw [if_pos (.inl hkept)] at hrun
    refine ⟨report, r, hrun, h.of_still ht fun hreach => ?_⟩
    exact (h.calm _ t ht hreach).of_isKept h.cascade rfl hkept
  by_cases hsame : r.calendar.onOrAfter .day floor = t.start
  · rw [if_pos (.inr hsame)] at hrun
    refine ⟨report, r, hrun, h.of_still ht fun _ => ?_⟩
    rw [← hsame]
    exact Project.calm_of_floor h.plain.gaps hlast h.cascade hfloor
  · rw [if_neg (not_or.mpr ⟨hkept, hsame⟩)] at hrun
    rw [hrun] at hsound
    have hlands := Calendar.landsAt_landing h.plain.gaps t.start floor
    exact ⟨_, _, hrun, h.of_move hlast ht hfloor hlands hsound⟩

/-- **All of a cascade**, with nobody given up. -/
theorem resolveAll (hlast : StrongLast (done ++ ds)) (h : Cascading p done ds report r) :
    ∃ report' r', Workplan.resolveAll Host.alone (ds.map Dependency.id) report [] r =
      (.ok (report', []), r') ∧ Cascading p (done ++ ds) [] report' r' := by
  obtain ⟨report', r', hrun, -, hall⟩ := exists_resolveAll
    (fun done rest report r => StrongLast (done ++ rest) ∧ Cascading p done rest report r)
    (fun ⟨hlast, h⟩ => by
      obtain ⟨report', r', hrun, hnext⟩ := h.step hlast
      rw [List.append_cons] at hlast
      exact ⟨report', r', hrun, hlast, hnext⟩)
    report ⟨hlast, h⟩
  exact ⟨report', r', hrun, hall⟩

/-- Before anything is resolved, nothing asks a task to move. -/
theorem initial (hcascade : p.IsCascade ds) (hp : p.Plain) : Cascading p [] ds .empty p where
  cascade := hcascade
  plain := hp
  same := .refl p
  calm _ _ _ _ := .inl fun _ hd => absurd hd List.not_mem_nil

/-- **In the end every dependency is kept, or its dependant is where the latest demand puts it.** -/
theorem still (h : Cascading p ds [] report r)
    (hroom : ∀ x ∈ report.modified, ∀ t, r.task? x = some t → r.calendar.ReachesWork t.start)
    (hd : d ∈ ds) (report' : RecomputeReport) :
    resolveDependency Host.alone d.id report' [] r = (.ok (report', []), r) := by
  have hdep : d ∈ r.dependencies := h.cascade.subset d (List.mem_append_left _ hd)
  obtain ⟨t, ht⟩ := Project.exists_task? (h.plain.sound.dependant_mem d hdep)
  obtain ⟨floor, hfloor, hrun⟩ := h.plain.resolveDependency hdep ht report'
  rw [hrun, if_pos]
  rcases h.calm _ t ht fun hmem => hroom _ hmem t ht with hidle | hheld
  · exact .inl (hidle d hd rfl)
  · exact .inr (hheld.eq h.plain.gaps hfloor)

end Cascading

/-- Steps that change nothing add up to nothing. -/
theorem resolveAll_of_still
    (h : ∀ d ∈ ds, resolveDependency Host.alone d.id report [] r = (.ok (report, []), r)) :
    resolveAll Host.alone (ds.map Dependency.id) report [] r = (.ok (report, []), r) := by
  induction ds with
  | nil => rfl
  | cons d ds ih =>
    rw [List.map_cons, resolveAll, Act.bind_of_ok (h d List.mem_cons_self)]
    exact ih fun e he => h e (List.mem_cons_of_mem d he)

/-! ## The same recomputation again -/

/-- The dependencies of a reach in the order in which they are resolved. -/
def Project.inTurn (p : Project) (reach : Reach) : List Dependency :=
  (reach.flatMap Prod.snd).filterMap p.dependency?

theorem Project.Sound.inTurn_eq (hp : p.Sound) {reach : Reach} (hcascade : p.IsCascade ds)
    (hids : reach.flatMap Prod.snd = ds.map Dependency.id) : p.inTurn reach = ds := by
  have hfound : ∀ d ∈ ds, (p.dependency? ∘ Dependency.id) d = some d :=
    fun d hd => hp.dependency?_of_mem (hcascade.subset d hd)
  rw [inTurn, hids, List.filterMap_map, List.filterMap_congr hfound, List.filterMap_some]

/-- **The same recomputation, made again, changes nothing.**  No task contains others, all are
counted in days, and whatever a loose dependency waits for is moved before the last strong
dependency on the same dependant is resolved. -/
theorem recompute_again (hp : p.Reachable) (hc : p.calendar.GapsBelowHorizon)
    (hflat : ∀ t ∈ p.tasks, p.hasChildren t.id = false) (hdays : ∀ t ∈ p.tasks, t.grain = .day)
    (hlengths : ∀ t ∈ p.tasks, 0 ≤ t.duration.count ∧ t.duration.count < Day.count)
    (hlast : ∀ reach, p.reach [x] = .ok reach → StrongLast (p.inTurn reach))
    (hrun : p.recompute [x] = (.ok report, r))
    (hroom : ∀ y ∈ report.modified, ∀ t, r.task? y = some t → r.calendar.ReachesWork t.start) :
    r.recompute [x] = (.ok .empty, r) := by
  have hplain : p.Plain := ⟨hp.sound, hc, hflat, hdays, hlengths⟩
  obtain ⟨t, reach, ht, hreach⟩ := Project.exists_reach_of_recompute hrun
  have hapart : ∀ d ∈ p.dependencies, d.dependant ≠ d.dependee :=
    fun d hd => (hp.orderly.ends_ne d hd).symm
  obtain ⟨ds, hids, hcascade⟩ := Project.isCascade_of_reach hapart hreach
  have horder : StrongLast ([] ++ ds) := hp.sound.inTurn_eq hcascade hids ▸ hlast reach hreach
  obtain ⟨first, q, hfirst, hdone⟩ := (Cascading.initial hcascade hplain).resolveAll horder
  rw [← hids] at hfirst
  have hfirstRun := Project.recompute_of_resolveAll ht hreach hfirst hdone.plain
  cases hrun.symm.trans hfirstRun
  -- the second run reaches the same dependencies, and none of them moves anything
  obtain ⟨u, hu, -⟩ := hdone.same.frame.exists_task? ht
  have hreach' : r.reach [x] = .ok reach := by
    rw [Project.reach_congr hdone.same.frame.dependencies, hreach]
  have hstill : resolveAll Host.alone (reach.flatMap Prod.snd) .empty [] r =
      (.ok (.empty, []), r) := by
    rw [hids]
    exact resolveAll_of_still fun d hd => hdone.still hroom hd .empty
  exact Project.recompute_of_resolveAll hu hreach' hstill hdone.plain

/-- Walls that a survey moves, and a roof that waits for the walls loosely, for their frame and the
survey strictly. -/
def framePlan : Project :=
  (Project.empty .standard).after [
    .addTask "survey" (Day.first.advance 4) (.days 1),
    .addTask "walls" (Day.first.advance 4) (.days 3),
    .addTask "frame" (Day.first.advance 4) (.days 2),
    .addTask "roof" (Day.first.advance 6) (.days 2),
    .addDependency ⟨1⟩ ⟨4⟩ .finishStart .strong 0,
    .addDependency ⟨1⟩ ⟨2⟩ .finishStart .strong 0,
    .addDependency ⟨2⟩ ⟨4⟩ .finishStart .rubber 0,
    .addDependency ⟨2⟩ ⟨3⟩ .finishStart .strong 0,
    .addDependency ⟨3⟩ ⟨4⟩ .finishStart .strong 0]

/-- One run moves everything, and another one nothing. -/
theorem recompute_again_framePlan :
    framePlan.recompute [⟨1⟩] =
        (.ok ⟨[⟨4⟩, ⟨2⟩, ⟨3⟩], [], [], false⟩, (framePlan.recompute [⟨1⟩]).2) ∧
      (framePlan.recompute [⟨1⟩]).2.recompute [⟨1⟩] =
        (.ok .empty, (framePlan.recompute [⟨1⟩]).2) := by
  have hp : framePlan.Reachable := (Project.Reachable.empty _).after _
  have hcalendar : framePlan.calendar = .standard := by decide +kernel
  have hc : framePlan.calendar.GapsBelowHorizon := hcalendar ▸ Calendar.gapsBelowHorizon_standard
  have hreach : framePlan.reach [⟨1⟩] = .ok [(1, [⟨0⟩, ⟨1⟩]), (2, [⟨2⟩, ⟨3⟩]), (3, [⟨4⟩])] := by
    decide +kernel
  have hlast : ∀ reach, framePlan.reach [⟨1⟩] = .ok reach →
      StrongLast (framePlan.inTurn reach) := by
    intro reach h
    rw [hreach, Except.ok.injEq] at h
    subst h
    unfold StrongLast
    decide +kernel
  have hreport : (framePlan.recompute [⟨1⟩]).1 = .ok ⟨[⟨4⟩, ⟨2⟩, ⟨3⟩], [], [], false⟩ := by
    decide +kernel
  have hrun : framePlan.recompute [⟨1⟩] =
      (.ok ⟨[⟨4⟩, ⟨2⟩, ⟨3⟩], [], [], false⟩, (framePlan.recompute [⟨1⟩]).2) := by
    rw [← hreport]
  have hworking : ∀ t ∈ (framePlan.recompute [⟨1⟩]).2.tasks,
      (framePlan.recompute [⟨1⟩]).2.calendar.isWorking t.start := by
    decide +kernel
  exact ⟨hrun, recompute_again hp hc (by decide +kernel) (by decide +kernel) (by decide +kernel)
    hlast hrun fun y _ t ht =>
      Calendar.reachesWork_of_working (hworking t (Project.mem_of_task? ht))⟩

/-- A survey that moves the walls, and a roof that waits for the survey strictly and for the walls
loosely. -/
def slackPlan : Project :=
  (Project.empty .standard).after [
    .addTask "survey" (Day.first.advance 4) (.days 1),
    .addTask "walls" (Day.first.advance 18) (.days 1),
    .addTask "roof" (Day.first.advance 6) (.days 1),
    .addDependency ⟨1⟩ ⟨3⟩ .finishStart .strong 0,
    .addDependency ⟨1⟩ ⟨2⟩ .finishStart .strong 0,
    .addDependency ⟨2⟩ ⟨3⟩ .finishStart .rubber 0]

/-- The first run sends the roof behind walls that are moved forward a moment later; the second one
takes it back. -/
theorem recompute_slackPlan : slackPlan.Reachable ∧ slackPlan.calendar.GapsBelowHorizon ∧
    (∀ t ∈ slackPlan.tasks, slackPlan.hasChildren t.id = false ∧ t.grain = .day ∧
      0 ≤ t.duration.count) ∧
    (slackPlan.recompute [⟨1⟩]).1 = .ok ⟨[⟨3⟩, ⟨2⟩], [], [], false⟩ ∧
    (∀ t ∈ (slackPlan.recompute [⟨1⟩]).2.tasks,
      (slackPlan.recompute [⟨1⟩]).2.calendar.isWorking t.start) ∧
    ((slackPlan.recompute [⟨1⟩]).2.recompute [⟨1⟩]).1 = .ok ⟨[⟨3⟩], [], [], false⟩ := by
  have hcalendar : slackPlan.calendar = .standard := by decide +kernel
  exact ⟨(Project.Reachable.empty _).after _, hcalendar ▸ Calendar.gapsBelowHorizon_standard,
    by decide +kernel, by decide +kernel, by decide +kernel, by decide +kernel⟩

end Workplan
