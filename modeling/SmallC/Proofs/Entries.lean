import Mathlib.Data.List.Nodup
import Mathlib.Logic.Function.Basic

/-!
Lists of entries under keys. What is looked up under a key is its first entry, and so it is whatever becomes of the
entries of other keys.
-/
namespace SmallC

variable {κ α : Type} [DecidableEq κ] {entries : List (κ × α)} {key other : κ} {x : α}

/-- What stands under a key is what is looked up under it, if no key stands twice. -/
theorem lookup_eq_some_of_once (once : (entries.map Prod.fst).Nodup) :
    entries.lookup key = some x ↔ (key, x) ∈ entries := by
  induction entries with
  | nil => simp
  | cons head rest ih =>
    obtain ⟨own, y⟩ := head
    rw [List.map_cons, List.nodup_cons] at once
    rw [List.lookup_cons]
    by_cases same : key = own
    · subst same
      have absent : (key, x) ∉ rest := fun member => once.1 (List.mem_map.2 ⟨_, member, rfl⟩)
      simp only [beq_self_eq_true, Option.some.injEq, List.mem_cons, Prod.mk.injEq, true_and, absent, or_false]
      exact eq_comm
    · rw [beq_false_of_ne same, ih once.2]
      simp [same]

theorem lookup_eq_none_iff_absent : entries.lookup key = none ↔ ∀ entry ∈ entries, entry.1 ≠ key := by
  rw [List.lookup_eq_none_iff]
  exact forall₂_congr fun entry _ => bne_iff_ne.trans ne_comm

theorem lookup_dropped (entries : List (κ × α)) (key : κ) :
    (entries.filter fun entry => entry.1 ≠ key).lookup key = none :=
  lookup_eq_none_iff_absent.2 fun _ kept => of_decide_eq_true (List.mem_filter.1 kept).2

theorem lookup_dropped_of_ne (entries : List (κ × α)) (apart : other ≠ key) :
    (entries.filter fun entry => entry.1 ≠ key).lookup other = entries.lookup other := by
  induction entries with
  | nil => rfl
  | cons entry rest ih =>
    rw [List.filter_cons]
    split
    · rw [List.lookup_cons, List.lookup_cons, ih]
    · next dropped =>
      have same : entry.1 = key := by simpa using dropped
      rw [List.lookup_cons, beq_false_of_ne (by rwa [same]), ih]

/-- What stands in place of the entries of one key. -/
theorem lookup_replaced (entries : List (κ × α)) (key : κ) (x : α) :
    (fun other => ((key, x) :: entries.filter fun entry => entry.1 ≠ key).lookup other) =
      Function.update (fun other => entries.lookup other) key (some x) := by
  funext other
  rw [List.lookup_cons]
  by_cases same : other = key
  · rw [same, beq_self_eq_true, Function.update_self]
  · rw [beq_false_of_ne same, Function.update_of_ne same]
    exact lookup_dropped_of_ne entries same

end SmallC
