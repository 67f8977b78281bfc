import Mathlib.Logic.Function.Iterate
import Workplan.Proofs.Forest

/-!
# The tasks below a task, level by level

Going down level by level lists every task once and containers before what they contain, and it
comes to an end: beyond the number of placements there is no further level.

- `Project.nextLevel`: everything directly inside the tasks of a level.
- `Project.Nested.levels_nodup`: no task is met twice on the way down.
- `Project.Nested.parent_earlier_of_levels`: the container of a task is met before it.
- `Project.Nested.mem_descendants_root`: from the root, the way down meets all tasks.
- `Project.Nested.levels_of_le`, `Project.Nested.climb_of_le`: both ways end by themselves.
-/

namespace Workplan

namespace Project

variable {p : Project} {a b x y : TaskId} {level : List TaskId}

/-- Everything directly inside the tasks of a level. -/
def nextLevel (p : Project) (level : List TaskId) : List TaskId := level.flatMap p.children

theorem mem_nextLevel : x ∈ p.nextLevel level ↔ ∃ y ∈ level, x ∈ p.children y := List.mem_flatMap

theorem levels_succ (n : Nat) (level : List TaskId) :
    p.levels (n + 1) level = level ++ p.levels n (p.nextLevel level) := by
  cases level with
  | nil => cases n <;> rfl
  | cons first rest => rfl

/-- One more round down adds one more level. -/
theorem levels_succ_eq_append (n : Nat) (level : List TaskId) :
    p.levels (n + 1) level = p.levels n level ++ p.nextLevel^[n] level := by
  induction n generalizing level with
  | zero => cases level <;> simp [levels]
  | succ n ih =>
    rw [levels_succ, ih, levels_succ, List.append_assoc]
    rfl

namespace Nested

variable (hp : p.Nested)
include hp

/-- What is directly inside a level has its container there. -/
theorem mem_of_mem_nextLevel (hx : x ∈ p.nextLevel level) (hparent : p.parent? x = some y) :
    y ∈ level := by
  obtain ⟨z, hz, hchild⟩ := mem_nextLevel.mp hx
  have hholder := hp.holder?_eq_some_iff.mpr (mem_children.mp hchild)
  have hholder' := hp.holder?_eq_some_iff.mpr (mem_placements_of_parent? hparent).1
  cases hholder.symm.trans hholder'
  exact hz

/-- Below the root every task of the next level has its parent in the level. -/
theorem exists_parent?_of_mem_nextLevel (hroot : .root ∉ level) (hx : x ∈ p.nextLevel level) :
    ∃ y ∈ level, p.parent? x = some y := by
  obtain ⟨y, hy, hchild⟩ := mem_nextLevel.mp hx
  exact ⟨y, hy, (hp.parent?_iff_mem_children fun e => hroot (e ▸ hy)).mpr hchild⟩

theorem root_notMem_children (a : TaskId) : .root ∉ p.children a := by
  intro h
  exact hp.ne_root (hp.child_mem (mem_children.mp h)) rfl

theorem root_notMem_nextLevel (level : List TaskId) : .root ∉ p.nextLevel level := by
  intro h
  obtain ⟨y, -, hchild⟩ := mem_nextLevel.mp h
  exact hp.root_notMem_children y hchild

/-! ## Containers come first -/

/-- On the way down, a task that is not where it began comes after its container. -/
theorem parent_earlier_of_levels {n : Nat} {done rest : List TaskId}
    (hsplit : p.levels n level = done ++ x :: rest) (hparent : p.parent? x = some y) :
    x ∈ level ∨ y ∈ done := by
  induction n generalizing level done with
  | zero => exact absurd hsplit (by simp [levels])
  | succ n ih =>
    rw [levels_succ] at hsplit
    rcases List.append_eq_append_iff.mp hsplit with ⟨mid, rfl, htail⟩ | ⟨mid, rfl, htail⟩
    · refine .inr (List.mem_append.mpr ((ih htail).imp_left fun hx => ?_))
      exact hp.mem_of_mem_nextLevel hx hparent
    · cases mid with
      | nil =>
        -- `x` opens the levels below, so its container is in the level itself
        rw [List.nil_append] at htail
        rcases ih (htail.symm.trans (List.nil_append _).symm) with hx | hy
        · have := hp.mem_of_mem_nextLevel hx hparent
          rw [List.append_nil] at this
          exact .inr this
        · exact absurd hy List.not_mem_nil
      | cons z mid =>
        cases htail
        exact .inl (List.mem_append_right _ List.mem_cons_self)

/-! ## No task is met twice -/

theorem children_nodup_of (a : TaskId) : (p.children a).Nodup :=
  hp.children_nodup.sublist (List.filter_sublist.map _)

/-- Below tasks of which none contains another, none of the next level contains another. -/
theorem apart_nextLevel (hroot : .root ∉ level)
    (hapart : ∀ a ∈ level, ∀ b ∈ level, ¬ p.Inside a b) :
    ∀ a ∈ p.nextLevel level, ∀ b ∈ p.nextLevel level, ¬ p.Inside a b := by
  intro a ha b hb hin
  obtain ⟨x, hx, hax⟩ := hp.exists_parent?_of_mem_nextLevel hroot ha
  obtain ⟨y, hy, hby⟩ := hp.exists_parent?_of_mem_nextLevel hroot hb
  rcases (inside_of_parent? hax).mp hin with rfl | hxb
  · exact hapart b hx y hy (.single hby)
  · exact hapart x hx y hy (hxb.tail hby)

/-- No task comes twice in a level, since it has one parent. -/
theorem nextLevel_nodup (hnodup : level.Nodup) : (p.nextLevel level).Nodup := by
  refine List.nodup_flatMap.mpr ⟨fun a _ => hp.children_nodup_of a, hnodup.imp fun {a b} hne => ?_⟩
  -- a task inside both would have two places
  intro x hxa hxb
  have ha := hp.holder?_eq_some_iff.mpr (mem_children.mp hxa)
  have hb := hp.holder?_eq_some_iff.mpr (mem_children.mp hxb)
  exact hne (Option.some.inj (ha.symm.trans hb))

/-- **No task is met twice on the way down** from tasks of which none contains another. -/
theorem levels_nodup (n : Nat) (hroot : .root ∉ level) (hnodup : level.Nodup)
    (hapart : ∀ a ∈ level, ∀ b ∈ level, ¬ p.Inside a b) : (p.levels n level).Nodup := by
  induction n generalizing level with
  | zero => simp [levels]
  | succ n ih =>
    rw [levels_succ]
    have hroot' := hp.root_notMem_nextLevel level
    have hrest := ih hroot' (hp.nextLevel_nodup hnodup) (hp.apart_nextLevel hroot hapart)
    refine hnodup.append hrest ?_
    -- whatever is met below the level lies inside a task of it
    have hbelow : ∀ x ∈ p.nextLevel level, ∃ y ∈ level, p.Inside x y := by
      intro x hx
      obtain ⟨y, hy, hparent⟩ := hp.exists_parent?_of_mem_nextLevel hroot hx
      exact ⟨y, hy, .single hparent⟩
    intro x hx hx'
    cases n with
    | zero => simp [levels] at hx'
    | succ n =>
      rcases (hp.mem_levels hroot').mp hx' with hnext | ⟨z, hz, hnext⟩
      · obtain ⟨y, hy, hin⟩ := hbelow x hnext
        exact hapart x hx y hy hin
      · obtain ⟨y, hy, hin⟩ := hbelow z hnext
        exact hapart x hx y hy ((inside_of_mem_climb hz).trans hin)

/-- No task comes twice among the descendants. -/
theorem descendants_nodup (a : TaskId) : (p.descendants a).Nodup := by
  refine hp.levels_nodup _ (hp.root_notMem_children a) (hp.children_nodup_of a) ?_
  intro x hx y hy hin
  by_cases ha : a = .root
  · -- nothing contains a top-level task
    subst ha
    obtain ⟨z, hz, -⟩ := Relation.TransGen.head'_iff.mp hin
    have hholder := hp.holder?_eq_some_iff.mpr (mem_children.mp hx)
    have hholder' := hp.holder?_eq_some_iff.mpr (mem_placements_of_parent? hz).1
    exact (mem_placements_of_parent? hz).2 (Option.some.inj (hholder'.symm.trans hholder))
  · -- a child that contains another would contain their common container
    have hxa := (hp.parent?_iff_mem_children ha).mpr hx
    have hya := (hp.parent?_iff_mem_children ha).mpr hy
    rcases (inside_of_parent? hxa).mp hin with rfl | hay
    · exact hp.acyclic y (.single hya)
    · exact hp.acyclic a (hay.tail hya)

/-! ## The ways up and down end -/

/-- On its way up, a task meets fewer tasks than there are. -/
theorem length_climb_lt (n : Nat) (hx : x ∈ p.tasks.map Task.id) :
    (p.climb n x).length < p.placements.length := by
  have hsub : x :: p.climb n x ⊆ p.tasks.map Task.id := by
    intro a ha
    rcases List.mem_cons.mp ha with rfl | ha
    · exact hx
    · exact (hp.mem_of_inside (inside_of_mem_climb ha)).2
  have hnodup : (x :: p.climb n x).Nodup :=
    List.nodup_cons.mpr ⟨fun h => hp.acyclic x (inside_of_mem_climb h), hp.climb_nodup n x⟩
  have hlen := (hnodup.subperm hsub).length_le
  have hplaced := hp.placed.length_eq
  rw [List.length_map] at hplaced
  rw [List.length_cons] at hlen
  omega

/-- **The way up ends**: no further level is met. -/
theorem climb_of_le {n : Nat} (hn : p.placements.length ≤ n) (x : TaskId) :
    p.climb n x = p.ancestors x := by
  obtain ⟨k, rfl⟩ := Nat.exists_eq_add_of_le hn
  rw [ancestors, climb_eq_take p.placements.length k x]
  exact (List.take_of_length_le (hp.length_climb_le _ x)).symm

/-- What is met `n` levels below has `n` levels above it. -/
theorem length_climb_of_mem_iterate {n : Nat} (hroot : .root ∉ level)
    (hx : x ∈ p.nextLevel^[n] level) : (p.climb n x).length = n := by
  have hroot' : ∀ n, .root ∉ p.nextLevel^[n] level := by
    intro n
    cases n with
    | zero => exact hroot
    | succ n =>
      rw [Function.iterate_succ_apply']
      exact hp.root_notMem_nextLevel _
  induction n generalizing x with
  | zero => rfl
  | succ n ih =>
    rw [Function.iterate_succ_apply'] at hx
    obtain ⟨y, hy, hparent⟩ := hp.exists_parent?_of_mem_nextLevel (hroot' n) hx
    rw [climb_succ, hparent]
    exact congrArg (· + 1) (ih hy)

/-- Beyond the number of placements there is no further level below a task or the root. -/
theorem iterate_nextLevel_eq_nil {n : Nat} (hn : p.placements.length ≤ n) (a : TaskId) :
    p.nextLevel^[n] (p.children a) = [] := by
  refine List.eq_nil_iff_forall_not_mem.mpr fun x hx => ?_
  have hlen := hp.length_climb_of_mem_iterate (hp.root_notMem_children a) hx
  have hmem : x ∈ p.tasks.map Task.id := by
    cases n with
    | zero => exact hp.child_mem (mem_children.mp hx)
    | succ n =>
      rw [Function.iterate_succ_apply'] at hx
      obtain ⟨y, -, hchild⟩ := mem_nextLevel.mp hx
      exact hp.child_mem (mem_children.mp hchild)
  have hlt := hp.length_climb_lt n hmem
  omega

/-- **The way down ends**: no further level is met. -/
theorem levels_of_le {n : Nat} (hn : p.placements.length ≤ n) (a : TaskId) :
    p.levels n (p.children a) = p.descendants a := by
  induction hn with
  | refl => rfl
  | step hn ih => rw [levels_succ_eq_append, ih, hp.iterate_nextLevel_eq_nil hn, List.append_nil]

/-! ## From the root -/

/-- The way up of a task leads to a top-level task, unless it is cut off. -/
theorem exists_top_of_climb {n : Nat} (hx : x ∈ p.tasks.map Task.id) :
    (x ∈ p.children .root ∨ ∃ y ∈ p.climb n x, y ∈ p.children .root) ∨
      (p.climb n x).length = n := by
  induction n generalizing x with
  | zero => exact .inr rfl
  | succ n ih =>
    cases hparent : p.parent? x with
    | none =>
      obtain ⟨s, hs, rfl⟩ := List.mem_map.mp (hp.placed.symm.subset hx)
      by_cases hroot : s.parent = .root
      · refine .inl (.inl (mem_children.mpr ?_))
        rw [← hroot]
        exact hs
      · rw [hp.parent?_eq_some_iff.mpr ⟨hs, hroot⟩] at hparent
        cases hparent
    | some z =>
      rw [climb_succ, hparent]
      rcases ih (hp.mem_of_parent? hparent).2 with (hz | ⟨y, hy, htop⟩) | hlen
      · exact .inl (.inr ⟨z, List.mem_cons_self, hz⟩)
      · exact .inl (.inr ⟨y, List.mem_cons_of_mem z hy, htop⟩)
      · exact .inr (congrArg (· + 1) hlen)

/-- **From the root, the way down meets exactly the tasks.** -/
theorem mem_descendants_root : x ∈ p.descendants .root ↔ x ∈ p.tasks.map Task.id := by
  have hroot := hp.root_notMem_children .root
  have hdown : x ∈ p.descendants .root ↔
      x ∈ p.children .root ∨ ∃ y ∈ p.climb p.placements.length x, y ∈ p.children .root := by
    rw [← hp.levels_of_le (Nat.le_succ _), hp.mem_levels hroot]
  rw [hdown]
  constructor
  · rintro (h | ⟨y, hy, -⟩)
    · exact hp.child_mem (mem_children.mp h)
    · exact (hp.mem_of_inside (inside_of_mem_climb hy)).1
  · intro hx
    exact (hp.exists_top_of_climb hx).resolve_right (Nat.ne_of_lt (hp.length_climb_lt _ hx))

end Nested

end Project

end Workplan
