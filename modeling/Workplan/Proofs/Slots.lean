import Mathlib.Data.List.Sort
import Mathlib.Order.Lattice.Nat
import Workplan.Arena.Edit

/-!
# Slots

A table of slots holds some items when each of them is in the slot with its own key and the other
slots are empty.  What is in the slots in order is then what a list of the items in the order of
their keys is, and a write to one slot changes one item.

- `Holds`: the items are what the slots hold.
- `Holds.add`, `Holds.clear`, `Holds.put`: one item more, one less, one in the place of another.
- `Holds.reduceOption_eq`, `Holds.join_getElem?`: the items are found again.
- `Arena.row_modify`: a write to the list in one slot.
- `Arena.drop_members`, `Arena.push_members`: lists of the items that belong to each owner.
- `loop_of_le`: a loop that has ended stays where it ended.
-/

namespace Workplan

/-! ## Items in slots -/

section

variable {α : Type}

/-- Each item is in the slot with its key, and there is nothing else in the slots. -/
structure Holds (key : α → Nat) (slots : List (Option α)) (items : List α) : Prop where
  mem_iff : ∀ i x, slots[i]? = some (some x) ↔ x ∈ items ∧ key x = i
  ascending : items.Pairwise fun x y => key x < key y

namespace Holds

variable {key : α → Nat} {slots : List (Option α)} {items : List α} {x y : α} {i : Nat}

section

variable (h : Holds key slots items)
include h

/-- A live item stands in the slot of its key. -/
theorem getElem?_key (hx : x ∈ items) : slots[key x]? = some (some x) :=
  (h.mem_iff (key x) x).mpr ⟨hx, rfl⟩

theorem key_lt (hx : x ∈ items) : key x < slots.length := by
  by_contra hlong
  have hslot := h.getElem?_key hx
  rw [List.getElem?_eq_none (not_lt.mp hlong)] at hslot
  cases hslot

/-- No two items have the same key. -/
theorem eq_of_key_eq (hx : x ∈ items) (hy : y ∈ items) (hkey : key x = key y) : x = y := by
  have hslot := h.getElem?_key hx
  rw [hkey, h.getElem?_key hy] at hslot
  exact (Option.some.inj (Option.some.inj hslot)).symm

/-- The item with a key is the one in the slot. -/
theorem find?_key (i : Nat) : (items.find? fun x => key x = i) = slots[i]?.join := by
  refine Option.ext fun x => ?_
  rw [Option.join_eq_some_iff, h.mem_iff]
  constructor
  · intro hfind
    exact ⟨List.mem_of_find?_eq_some hfind, by simpa using List.find?_some hfind⟩
  · rintro ⟨hx, rfl⟩
    cases hfind : items.find? fun y => key y = key x with
    | none => exact absurd (List.find?_eq_none.mp hfind x hx) (by simp)
    | some y =>
      have hkey : key y = key x := by simpa using List.find?_some hfind
      rw [h.eq_of_key_eq (List.mem_of_find?_eq_some hfind) hx hkey]

/-- **The occupied slots in order are the items.** -/
theorem reduceOption_eq : slots.reduceOption = items := by
  have : Std.Irrefl fun x y : α => key x < key y := ⟨fun _ => lt_irrefl _⟩
  have : Std.Antisymm fun x y : α => key x < key y :=
    ⟨fun _ _ hxy hyx => absurd hyx (lt_asymm hxy)⟩
  have hslots : slots.reduceOption.Pairwise fun x y => key x < key y := by
    refine List.pairwise_filterMap.mpr (List.pairwise_iff_getElem.mpr ?_)
    intro i j hi hj hij x hx y hy
    have hx' := (h.mem_iff i x).mp ((List.getElem?_eq_getElem hi).trans (congrArg some hx))
    have hy' := (h.mem_iff j y).mp ((List.getElem?_eq_getElem hj).trans (congrArg some hy))
    rwa [hx'.2, hy'.2]
  refine List.Pairwise.eq_of_mem_iff hslots h.ascending fun x => ?_
  rw [List.reduceOption_mem_iff, List.mem_iff_getElem?]
  constructor
  · rintro ⟨i, hi⟩
    exact ((h.mem_iff i x).mp hi).1
  · exact fun hx => ⟨key x, h.getElem?_key hx⟩

/-- A new slot holds a new item. -/
theorem add (hx : key x = slots.length) : Holds key (slots ++ [some x]) (items ++ [x]) where
  mem_iff i y := by
    rw [List.getElem?_append, List.mem_append, List.mem_singleton]
    split
    · next hi =>
      rw [h.mem_iff]
      refine and_congr_left fun hy => (or_iff_left ?_).symm
      rintro rfl
      exact absurd hi (not_lt.mpr (hx.symm.trans hy).le)
    · next hi =>
      constructor
      · -- past the old slots there is the new one and nothing more
        intro hslot
        rw [List.getElem?_singleton] at hslot
        split at hslot
        · cases hslot
          exact ⟨.inr rfl, by omega⟩
        · cases hslot
      · rintro ⟨hy | rfl, hkey⟩
        · exact absurd (h.key_lt hy) (hkey ▸ hi)
        · rw [← hkey, hx, Nat.sub_self]
          rfl
  ascending := by
    rw [List.pairwise_append]
    refine ⟨h.ascending, List.pairwise_singleton _ _, fun y hy z hz => ?_⟩
    rw [List.mem_singleton.mp hz, hx]
    exact h.key_lt hy

/-- A slot is emptied. -/
theorem clear (i : Nat) : Holds key (slots.set i none) (items.filter fun x => key x ≠ i) where
  mem_iff j y := by
    rw [List.getElem?_set, List.mem_filter, decide_eq_true_eq, and_right_comm, ← h.mem_iff]
    split
    · next hij =>
      subst hij
      constructor
      · intro hslot
        split at hslot <;> cases hslot
      · rintro ⟨hslot, hne⟩
        exact absurd ((h.mem_iff i y).mp hslot).2 hne
    · next hij =>
      refine (and_iff_left_of_imp fun hslot => ?_).symm
      rw [((h.mem_iff j y).mp hslot).2]
      exact Ne.symm hij
  ascending := h.ascending.filter _

/-- An item gives its slot to another one. -/
theorem put (hold : slots[i]? = some (some y)) (hx : key x = i) :
    Holds key (slots.set i (some x)) (items.map fun y => if key y = i then x else y) where
  mem_iff j z := by
    rw [List.getElem?_set, List.mem_map]
    obtain ⟨hy, hkey⟩ := (h.mem_iff i y).mp hold
    split
    · next hij =>
      subst hij
      rw [if_pos (hkey ▸ h.key_lt hy), Option.some.injEq, Option.some.injEq]
      constructor
      · rintro rfl
        exact ⟨⟨y, hy, if_pos hkey⟩, hx⟩
      · rintro ⟨⟨w, hw, rfl⟩, hz⟩
        split_ifs at hz ⊢ with hwi
        · rfl
        · exact absurd hz hwi
    · next hij =>
      rw [h.mem_iff]
      constructor
      · rintro ⟨hz, rfl⟩
        exact ⟨⟨z, hz, if_neg (Ne.symm hij)⟩, rfl⟩
      · rintro ⟨⟨w, hw, rfl⟩, hz⟩
        split_ifs at hz ⊢ with hwi
        · exact absurd (hx.symm.trans hz) hij
        · exact ⟨hw, hz⟩
  ascending := by
    -- the item put in has the key of the one it replaces, so the order is that of the keys before
    have hsame : ∀ y, key (if key y = i then x else y) = key y := by
      intro y
      split_ifs with hy
      · exact hx.trans hy.symm
      · rfl
    rw [List.pairwise_map]
    simpa only [hsame] using h.ascending

end

/-- No slots hold nothing. -/
theorem empty (key : α → Nat) : Holds key [] [] where
  mem_iff i x := by simp
  ascending := .nil

end Holds

end

/-! ## Lists in slots -/

namespace Arena

variable {α : Type} {slots : List (List α)} {x y : TaskId}

@[simp] theorem row_empty : row ([[]] : List (List α)) x = [] := by
  rw [row, List.getElem?_singleton]
  split <;> rfl

/-- A new slot without anything in it makes no difference. -/
@[simp] theorem row_append_empty : row (slots ++ [[]]) x = row slots x := by
  rw [row, row, List.getElem?_append]
  split
  · rfl
  · next hlong =>
    rw [List.getElem?_eq_none (not_lt.mp hlong), List.getElem?_singleton]
    split <;> rfl

/-- A write to the list of one task leaves the lists of the others as they are. -/
theorem row_modify {f : List α → List α} (hf : f [] = [] ∨ y.number < slots.length) :
    row (slots.modify y.number f) x = if x = y then f (row slots x) else row slots x := by
  rw [row, row, List.getElem?_modify]
  by_cases hxy : x = y
  · subst hxy
    simp only [if_pos]
    rcases hf with hf | hlong
    · cases slots[x.number]? with
      | none => exact hf.symm
      | some xs => rfl
    · rw [List.getElem?_eq_getElem hlong]
      rfl
  · have hne : y.number ≠ x.number := fun e => hxy (TaskId.ext e.symm)
    rw [if_neg hxy]
    simp only [if_neg hne]
    cases slots[x.number]? <;> rfl

@[simp] theorem drop_nil [DecidableEq α] (x : α) : drop x [] = [] := rfl

theorem drop_of_notMem [DecidableEq α] {x : α} {xs : List α} (h : x ∉ xs) : drop x xs = xs := by
  refine List.filter_eq_self.mpr fun y hy => decide_eq_true ?_
  rintro rfl
  exact h hy

section

variable {β γ : Type} [DecidableEq γ] {zs : List β} {c : γ} (f : β → γ) (g : β → α)

/-- Where lists are kept of the items that belong to each owner, an item that is gone leaves the
list of its owner, and is in no other. -/
theorem drop_members [DecidableEq α] {x : α} (hx : ∀ z ∈ zs, g z = x → f z = c) (b : γ) :
    (if b = c then drop x ((zs.filter fun z => f z = b).map g)
      else (zs.filter fun z => f z = b).map g) =
    ((zs.filter fun z => g z ≠ x).filter fun z => f z = b).map g := by
  have hdrop : drop x ((zs.filter fun z => f z = b).map g) =
      ((zs.filter fun z => g z ≠ x).filter fun z => f z = b).map g := by
    rw [drop, List.filter_map, List.filter_comm]
    rfl
  rw [← hdrop]
  split
  · rfl
  · next hb =>
    refine (drop_of_notMem fun hmem => hb ?_).symm
    obtain ⟨z, hz, rfl⟩ := List.mem_map.mp hmem
    obtain ⟨hz, hown⟩ := List.mem_filter.mp hz
    exact (of_decide_eq_true hown).symm.trans (hx z hz rfl)

/-- An item that is new gets into the list of its owner, behind those that are there. -/
theorem push_members (zs : List β) (z : β) (b : γ) :
    (if b = f z then push (g z) ((zs.filter fun z => f z = b).map g)
      else (zs.filter fun z => f z = b).map g) =
    ((zs ++ [z]).filter fun z => f z = b).map g := by
  rw [List.filter_append, List.map_append, List.filter_singleton]
  by_cases hb : f z = b
  · simp [hb, push]
  · simp [hb, Ne.symm hb]

end

end Arena

/-! ## Loops -/

section

variable {σ β : Type} {round : σ → σ ⊕ β} {n m : Nat} {s : σ} {b : β}

/-- **A loop that ends within some rounds ends alike within more rounds.** -/
theorem loop_of_le (h : loop round n s = some b) (hnm : n ≤ m) : loop round m s = some b := by
  induction n generalizing m s with
  | zero => cases h
  | succ n ih =>
    obtain ⟨k, rfl⟩ := Nat.exists_eq_add_of_le' hnm
    rw [← Nat.add_assoc]
    rw [loop] at h ⊢
    cases hround : round s with
    | inl s' =>
      rw [hround] at h
      exact ih h (Nat.le_add_left n k)
    | inr b' =>
      rw [hround] at h
      exact h

end

end Workplan
