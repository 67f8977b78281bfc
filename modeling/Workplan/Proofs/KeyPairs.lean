import Mathlib.Data.List.Nodup
import Mathlib.Data.List.Perm.Subperm
import Mathlib.Data.Set.Card
import Workplan.KeyTable

/-!
# Keys and their tasks

A table of keys is asked in two directions.  Whatever has been bound and taken away, a key that a
task is known by is found and stands for this task.  The other direction is lost with every further
key for a task that has one: the earlier key stays taken, stands for the task and is no longer known
of it, and nothing takes it away again.

- `KeyTable.Call`, `KeyTable.run`: giving keys and taking them away, one call after the other.
- `KeyTable.Coherent`: what every call keeps.
- `KeyTable.renamings`: how often a task gets a further key.
- `KeyTable.inverse_iff_renamings_eq_zero`: the two directions undo each other exactly if that never
  happens.
-/

namespace Workplan

/-- In a list without repeated keys, each entry is found by its key. -/
theorem lookup_eq_some_iff_mem {α β : Type} [BEq α] [LawfulBEq α] {entries : List (α × β)} {a : α}
    {b : β} (hnodup : (entries.map Prod.fst).Nodup) :
    entries.lookup a = some b ↔ (a, b) ∈ entries := by
  induction entries with
  | nil => simp
  | cons entry rest ih =>
    obtain ⟨key, value⟩ := entry
    rw [List.map_cons, List.nodup_cons] at hnodup
    rw [List.lookup_cons, List.mem_cons, Prod.mk.injEq]
    by_cases hkey : a = key
    · subst hkey
      have hrest : (a, b) ∉ rest := fun h => hnodup.1 (List.mem_map.mpr ⟨(a, b), h, rfl⟩)
      simp [hrest, eq_comm]
    · have hbeq : (a == key) = false := beq_false_of_ne hkey
      simp [hbeq, hkey, ih hnodup.2]

theorem not_mem_keys_of_lookup {α β : Type} [BEq α] [LawfulBEq α] {entries : List (α × β)} {a : α}
    (h : entries.lookup a = none) : a ∉ entries.map Prod.fst := by
  intro hmem
  obtain ⟨entry, hentry, rfl⟩ := List.mem_map.mp hmem
  have hother := List.lookup_eq_none_iff.mp h entry hentry
  simp at hother

/-- In a list without repeated keys, one entry goes with its key. -/
theorem length_filter_ne {α β : Type} [BEq α] [LawfulBEq α] {entries : List (α × β)} {a : α} {b : β}
    (hnodup : (entries.map Prod.fst).Nodup) (h : (a, b) ∈ entries) :
    (entries.filter fun entry => entry.1 != a).length + 1 = entries.length := by
  have hone : entries.countP (fun entry => entry.1 == a) = 1 := by
    have hcount := List.count_eq_one_of_mem hnodup (List.mem_map.mpr ⟨(a, b), h, rfl⟩)
    rwa [List.count, List.countP_map] at hcount
  have hsplit := List.length_eq_countP_add_countP (fun entry : α × β => entry.1 == a) (l := entries)
  have hothers :
      (fun entry : α × β => decide ¬ (entry.1 == a) = true) = fun entry => entry.1 != a :=
    funext fun entry => by simp [bne]
  rw [hone, hothers, List.countP_eq_length_filter] at hsplit
  rw [hsplit, Nat.add_comm]

namespace KeyTable

variable {t : KeyTable} {key : String} {id : TaskId} {n : Nat}

/-! ## Calls -/

/-- What is done to a table. -/
inductive Call
  /-- A key is given to a task. -/
  | bind (key : String) (id : TaskId)
  /-- The present key of a task is taken away. -/
  | unbind (id : TaskId)
deriving DecidableEq

/-- The table after a call.  A key that is taken is not given again. -/
def call (t : KeyTable) : Call → KeyTable
  | .bind key id => (t.bind? key id).getD t
  | .unbind id => t.unbind id

/-- The table after some calls. -/
def run (t : KeyTable) (calls : List Call) : KeyTable := calls.foldl call t

/-- The call gives a further key to a task that has one. -/
def renames (t : KeyTable) : Call → Bool
  | .bind key id => (t.get? key).isNone && (t.resolve? id).isSome
  | .unbind _ => false

/-- How many of the calls give a further key to a task that has one. -/
def renamings (t : KeyTable) : List Call → Nat
  | [] => 0
  | c :: calls => (t.renames c).toNat + (t.call c).renamings calls

/-! ## What every call keeps -/

/-- Each key stands for one task, each task is known by one key, and that key stands for it. -/
structure Coherent (t : KeyTable) : Prop where
  keys_nodup : (t.taskOf.map Prod.fst).Nodup
  ids_nodup : (t.keyOf.map Prod.fst).Nodup
  known : ∀ id key, (id, key) ∈ t.keyOf → (key, id) ∈ t.taskOf

theorem coherent_empty : empty.Coherent := ⟨.nil, .nil, fun _ _ h => absurd h List.not_mem_nil⟩

namespace Coherent

variable (h : t.Coherent)
include h

theorem get?_eq_some_iff : t.get? key = some id ↔ (key, id) ∈ t.taskOf :=
  lookup_eq_some_iff_mem h.keys_nodup

theorem resolve?_eq_some_iff : t.resolve? id = some key ↔ (id, key) ∈ t.keyOf :=
  lookup_eq_some_iff_mem h.ids_nodup

/-- A key that a task is known by stands for this task. -/
theorem get?_of_resolve? (hkey : t.resolve? id = some key) : t.get? key = some id :=
  h.get?_eq_some_iff.mpr (h.known id key (h.resolve?_eq_some_iff.mp hkey))

theorem call (c : Call) : (t.call c).Coherent := by
  cases c with
  | bind key id =>
    rw [KeyTable.call, bind?]
    split
    · exact h
    next hfree =>
    rw [Option.not_isSome_iff_eq_none] at hfree
    refine ⟨?_, ?_, ?_⟩
    · show (key :: t.taskOf.map Prod.fst).Nodup
      exact List.nodup_cons.mpr ⟨not_mem_keys_of_lookup hfree, h.keys_nodup⟩
    · show (id :: (t.keyOf.filter _).map Prod.fst).Nodup
      refine List.nodup_cons.mpr ⟨?_, h.ids_nodup.sublist (List.filter_sublist.map _)⟩
      simp
    · intro other name hname
      rcases List.mem_cons.mp hname with heq | hold
      · cases heq
        exact List.mem_cons_self
      · exact List.mem_cons_of_mem _ (h.known other name (List.mem_of_mem_filter hold))
  | unbind id =>
    rw [KeyTable.call, unbind]
    split
    · exact h
    next key hkey =>
    refine ⟨h.keys_nodup.sublist (List.filter_sublist.map _),
      h.ids_nodup.sublist (List.filter_sublist.map _), fun other name hname => ?_⟩
    -- the key that goes is known of no other task
    obtain ⟨hold, hother⟩ := List.mem_filter.mp hname
    refine List.mem_filter.mpr ⟨h.known other name hold, bne_iff_ne.mpr ?_⟩
    rintro rfl
    have hsame := h.get?_of_resolve? hkey
    rw [h.get?_of_resolve? (h.resolve?_eq_some_iff.mpr hold)] at hsame
    cases hsame
    exact absurd rfl (bne_iff_ne.mp hother)

/-- **A call leaves as many keys beyond the known ones as there were**, and one more if it gives a
further key to a task. -/
theorem length_call (hn : t.taskOf.length = t.keyOf.length + n) (c : Call) :
    (t.call c).taskOf.length = (t.call c).keyOf.length + (n + (t.renames c).toNat) := by
  cases c with
  | bind key id =>
    rw [KeyTable.call, bind?, renames]
    cases hkey : t.get? key with
    | some _ => exact hn
    | none =>
      cases hid : t.resolve? id with
      | none =>
        show t.taskOf.length + 1 = (t.keyOf.filter _).length + 1 + (n + 0)
        have hstay : t.keyOf.filter (fun entry => entry.1 != id) = t.keyOf := by
          refine List.filter_eq_self.mpr fun entry hentry => bne_iff_ne.mpr fun heq => ?_
          exact not_mem_keys_of_lookup hid (heq ▸ List.mem_map_of_mem hentry)
        rw [hstay]
        omega
      | some old =>
        show t.taskOf.length + 1 = (t.keyOf.filter _).length + 1 + (n + 1)
        have hold := length_filter_ne h.ids_nodup (h.resolve?_eq_some_iff.mp hid)
        omega
  | unbind id =>
    rw [KeyTable.call, unbind, renames]
    cases hid : t.resolve? id with
    | none => exact hn
    | some key =>
      show (t.taskOf.filter _).length = (t.keyOf.filter _).length + (n + 0)
      have hmem := h.resolve?_eq_some_iff.mp hid
      have hkeys := length_filter_ne h.keys_nodup (h.known id key hmem)
      have hids := length_filter_ne h.ids_nodup hmem
      omega

/-- **Over a run, the keys beyond the known ones grow by the renamings.** -/
theorem run (hn : t.taskOf.length = t.keyOf.length + n) (calls : List Call) :
    (t.run calls).Coherent ∧
      (t.run calls).taskOf.length = (t.run calls).keyOf.length + (n + t.renamings calls) := by
  induction calls generalizing t n with
  | nil => exact ⟨h, hn⟩
  | cons c calls ih =>
    obtain ⟨hcoherent, hlength⟩ := ih (h.call c) (h.length_call hn c)
    rw [Nat.add_assoc] at hlength
    exact ⟨hcoherent, hlength⟩

/-- The tasks that have a key are counted by the entries of the second direction. -/
theorem ncard_resolve? : {id | ∃ key, t.resolve? id = some key}.ncard = t.keyOf.length := by
  have hset : {id | ∃ key, t.resolve? id = some key} = ↑(t.keyOf.map Prod.fst).toFinset := by
    ext id
    simp [h.resolve?_eq_some_iff]
  rw [hset, Set.ncard_coe_finset, List.toFinset_card_of_nodup h.ids_nodup, List.length_map]

/-- **The two directions undo each other exactly if there are no keys beyond the known ones.** -/
theorem inverse_iff_length_eq :
    (∀ key id, t.get? key = some id ↔ t.resolve? id = some key) ↔
      t.taskOf.length = t.keyOf.length := by
  have hturned : t.keyOf.map Prod.swap ⊆ t.taskOf := by
    intro entry hentry
    obtain ⟨⟨id, key⟩, hmem, rfl⟩ := List.mem_map.mp hentry
    exact h.known id key hmem
  have hnodup : (t.keyOf.map Prod.swap).Nodup :=
    h.ids_nodup.of_map.map Prod.swap_injective
  constructor
  · intro hinverse
    have hperm : t.taskOf.Perm (t.keyOf.map Prod.swap) := by
      refine (List.perm_ext_iff_of_nodup h.keys_nodup.of_map hnodup).mpr fun entry => ?_
      refine ⟨fun hentry => ?_, fun hentry => hturned hentry⟩
      have hget := h.get?_eq_some_iff.mpr hentry
      have hmem := h.resolve?_eq_some_iff.mp ((hinverse entry.1 entry.2).mp hget)
      exact List.mem_map.mpr ⟨_, hmem, rfl⟩
    rw [hperm.length_eq, List.length_map]
  · intro hlength key id
    refine ⟨fun hget => ?_, h.get?_of_resolve?⟩
    have hperm : (t.keyOf.map Prod.swap).Perm t.taskOf := by
      refine (hnodup.subperm hturned).perm_of_length_le ?_
      rw [List.length_map, hlength]
    have hentry := hperm.symm.subset (h.get?_eq_some_iff.mp hget)
    obtain ⟨⟨other, name⟩, hmem, heq⟩ := List.mem_map.mp hentry
    cases heq
    exact h.resolve?_eq_some_iff.mpr hmem

end Coherent

/-! ## Both directions -/

/-- **A key that a task is known by stands for this task**, after any calls.  There are as many keys
as tasks that have one and renamings together.  So every key is known of the task that it stands for
if and only if no task ever gets a further key while it has one. -/
theorem inverse_iff_renamings_eq_zero (calls : List Call) :
    (∀ key id, (empty.run calls).resolve? id = some key → (empty.run calls).get? key = some id) ∧
    (empty.run calls).size =
      {id | ∃ key, (empty.run calls).resolve? id = some key}.ncard + empty.renamings calls ∧
    ((∀ key id, (empty.run calls).get? key = some id ↔
      (empty.run calls).resolve? id = some key) ↔ empty.renamings calls = 0) := by
  obtain ⟨h, hlength⟩ := coherent_empty.run (n := 0) rfl calls
  rw [Nat.zero_add] at hlength
  refine ⟨fun key id => h.get?_of_resolve?, ?_, ?_⟩
  · rw [h.ncard_resolve?]
    exact hlength
  · rw [h.inverse_iff_length_eq, hlength]
    omega

/-- A task that gets a second key and then loses its key. -/
def renamed : List Call := [.bind "design" ⟨1⟩, .bind "build" ⟨1⟩, .unbind ⟨1⟩]

/-- The first key stays taken and stands for the task, which is known by no key. -/
theorem not_inverse_renamed :
    (empty.run renamed).get? "design" = some ⟨1⟩ ∧ (empty.run renamed).resolve? ⟨1⟩ = none ∧
    (¬ ∀ key id, (empty.run renamed).get? key = some id ↔
      (empty.run renamed).resolve? id = some key) ∧
    (empty.run renamed).size = 1 ∧
    {id | ∃ key, (empty.run renamed).resolve? id = some key}.ncard = 0 := by
  have hget : (empty.run renamed).get? "design" = some ⟨1⟩ := by decide +kernel
  have hnone : ∀ id, (empty.run renamed).resolve? id = none := fun id => rfl
  refine ⟨hget, hnone ⟨1⟩, fun hinverse => ?_, by decide +kernel, ?_⟩
  · have hresolve := (hinverse "design" ⟨1⟩).mp hget
    rw [hnone] at hresolve
    cases hresolve
  · simp [hnone]

end KeyTable

end Workplan
