import Mathlib
import SmallC.Allocation.Calls
import SmallC.Proofs.Entries

/-!
Changes of the allocator's state, and what can be read off the state behind them. Every change names the
fields that it touches, so that all others are the same by definition.
-/
namespace SmallC

/-- What is known about a variable once it is parted from its register. -/
def Variable.parted (v : Variable) : Variable :=
  { v with
    isDirty := false
    storage := match v.memory? with
      | some home => .memory home
      | none => v.storage }

/-- A value is in a register or in none. -/
theorem Storage.in_register (storage : Storage) :
    (∃ r, storage = .register r) ∨ storage.register? = none := by
  cases storage with
  | register r => exact .inl ⟨r, rfl⟩
  | memory | saved => exact .inr rfl

namespace Recency

variable {κ : Type} {order : Recency κ} {key other : κ}

theorem mem_toList : key ∈ order.toList ↔ ∃ s ∈ order.stamps, s.1 = key := by
  simp [toList, List.mem_map, List.mem_mergeSort]

theorem nodup_toList (order : Recency κ) : order.toList.Nodup := by
  have same : order.toList.Perm (order.stamps.map Prod.fst) :=
    (List.mergeSort_perm _ _).map Prod.fst
  exact same.nodup_iff.2 order.keysDistinct

@[simp]
theorem toList_empty : (empty : Recency κ).toList = [] := by simp [toList, empty]

variable [DecidableEq κ]

@[simp]
theorem mem_remove : other ∈ (order.remove key).toList ↔ other ≠ key ∧ other ∈ order.toList := by
  simp only [mem_toList, remove, others, List.mem_filter, decide_eq_true_eq]
  constructor
  · rintro ⟨s, ⟨member, apart⟩, rfl⟩
    exact ⟨apart, s, member, rfl⟩
  · rintro ⟨apart, s, member, rfl⟩
    exact ⟨s, ⟨member, apart⟩, rfl⟩

theorem mem_stampWith {stamp : Int} {unused : ∀ s ∈ order.stamps, s.2 ≠ stamp} :
    other ∈ (order.stampWith key stamp unused).toList ↔ other = key ∨ other ∈ order.toList := by
  have others : other ∈ (order.remove key).toList ↔ _ := mem_remove
  simp only [mem_toList, remove] at others
  simp only [mem_toList, stampWith, List.mem_cons]
  constructor
  · rintro ⟨s, rfl | here, rfl⟩
    · exact .inl rfl
    · exact .inr (others.1 ⟨s, here, rfl⟩).2
  · rintro (rfl | member)
    · exact ⟨_, .inl rfl, rfl⟩
    · by_cases same : other = key
      · exact ⟨_, .inl rfl, same.symm⟩
      · obtain ⟨s, kept, own⟩ := others.2 ⟨same, member⟩
        exact ⟨s, .inr kept, own⟩

@[simp]
theorem mem_touch : other ∈ (order.touch key).toList ↔ other = key ∨ other ∈ order.toList :=
  mem_stampWith

@[simp]
theorem mem_demote : other ∈ (order.demote key).toList ↔ other ∈ order.toList := by
  unfold demote
  split
  · next present =>
    rw [mem_stampWith, or_iff_right_of_imp]
    rintro rfl
    obtain ⟨s, member, same⟩ := List.any_eq_true.1 present
    exact mem_toList.2 ⟨s, member, of_decide_eq_true same⟩
  · rfl

end Recency

namespace Allocator

variable {a : Allocator} {id other : VarId} {r s : Reg} {v : Variable}

/-- Something else is known about a variable. -/
def setVar (a : Allocator) (id : VarId) (v : Variable) : Allocator :=
  { a with vars := a.vars.setIfInBounds id (some v) }

/-- Nothing is left of a variable. -/
def dropVar (a : Allocator) (id : VarId) : Allocator :=
  { a with vars := a.vars.setIfInBounds id none }

/-- One more variable. -/
def addVar (a : Allocator) (v : Variable) : Allocator := { a with vars := a.vars.push (some v) }

/-- A register holds another variable, or none. -/
def setOwner (a : Allocator) (r : Reg) (owner : Option VarId) : Allocator :=
  { a with owner := a.owner.set r.index.val owner r.index_lt }

/-- A register is not free. -/
def withdrawn (a : Allocator) (r : Reg) : Allocator := { a with free := a.free.filter (· ≠ r) }

/-- A register holds nothing, and is free if it may be handed out. -/
def released (a : Allocator) (r : Reg) : Allocator :=
  { a with
    owner := a.owner.set r.index.val none r.index_lt
    free := if r.isPool ∧ r ∉ a.reserved ∧ r ∉ a.free then a.free ++ [r] else a.free }

/-- A variable is in a register, which is held. -/
def bound (a : Allocator) (id : VarId) (r : Reg) (v : Variable) : Allocator :=
  { a with
    owner := a.owner.set r.index.val (some id) r.index_lt
    vars := a.vars.setIfInBounds id (some { v with storage := .register r })
    recency := a.recency.touch id
    held := if r ∈ a.held then a.held else r :: a.held }

/-- A variable is used in its register, which is held. -/
def used (a : Allocator) (id : VarId) (r : Reg) : Allocator :=
  { a with
    recency := a.recency.touch id
    held := if r ∈ a.held then a.held else r :: a.held }

/-- A variable is parted from its register. -/
def unbound (a : Allocator) (id : VarId) (r : Reg) (v : Variable) : Allocator :=
  { a.released r with
    recency := a.recency.remove id
    vars := a.vars.setIfInBounds id (some v.parted) }

/-- A variable waits for a call to return, apart from its register. -/
def parkedAt (a : Allocator) (id : VarId) (r : Reg) (slot : Nat) (v : Variable) : Allocator :=
  { a with
    owner := a.owner.set r.index.val none r.index_lt
    vars := a.vars.setIfInBounds id (some { v with storage := .saved slot })
    recency := a.recency.remove id }

theorem var?_lt (found : a.var? id = some v) : id < a.vars.size := by
  unfold var? at found
  by_cases inside : id < a.vars.size
  · exact inside
  · rw [Array.getElem?_eq_none (Nat.le_of_not_lt inside)] at found
    cases found

theorem var?_setVar_self (found : a.var? id = some v) (v' : Variable) :
    (a.setVar id v').var? id = some v' := by
  have inside := var?_lt found
  simp [var?, setVar, inside]

@[simp]
theorem var?_setVar_of_ne (different : other ≠ id) : (a.setVar id v).var? other = a.var? other := by
  simp [var?, setVar, different.symm]

/-- What is known about a variable, once something else is known about one that was known before. -/
theorem var?_setVar (found : a.var? id = some v) (v' : Variable) (other : VarId) :
    (a.setVar id v').var? other = if other = id then some v' else a.var? other := by
  split
  · next same =>
    subst same
    exact var?_setVar_self found v'
  · next different => exact var?_setVar_of_ne different

/-- What is known last about a variable counts. -/
theorem vars_setVar_setVar (v v' : Variable) :
    ((a.setVar id v).setVar id v').vars = (a.setVar id v').vars := by
  apply Array.ext_getElem?
  intro i
  simp only [setVar, Array.getElem?_setIfInBounds, Array.size_setIfInBounds]
  split <;> rfl

@[simp]
theorem var?_dropVar : (a.dropVar id).var? other = if other = id then none else a.var? other := by
  unfold var? dropVar
  rw [Array.getElem?_setIfInBounds]
  split
  · next same =>
    rw [if_pos same.symm]
    split <;> rfl
  · next different => rw [if_neg fun same => different same.symm]

@[simp]
theorem var?_addVar :
    (a.addVar v).var? other = if other = a.vars.size then some v else a.var? other := by
  unfold var? addVar
  rw [Array.getElem?_push]
  split <;> rfl

@[simp]
theorem ownerOf_setOwner {o : Option VarId} :
    (a.setOwner r o).ownerOf s = if s = r then o else a.ownerOf s := by
  unfold ownerOf setOwner
  obtain ⟨⟨r, hr⟩⟩ := r
  obtain ⟨⟨s, hs⟩⟩ := s
  change (a.owner.set r o hr)[s] = if _ then o else a.owner[s]
  rw [Vector.getElem_set]
  by_cases same : r = s
  · rw [if_pos same, if_pos (by simp [same])]
  · rw [if_neg same, if_neg (by simpa using fun eq => same eq.symm)]

@[simp]
theorem ownerOf_released :
    (a.released r).ownerOf s = if s = r then none else a.ownerOf s :=
  ownerOf_setOwner (a := a) (o := none)

@[simp]
theorem ownerOf_bound :
    (a.bound id r v).ownerOf s = if s = r then some id else a.ownerOf s :=
  ownerOf_setOwner (a := a) (o := some id)

@[simp]
theorem ownerOf_unbound :
    (a.unbound id r v).ownerOf s = if s = r then none else a.ownerOf s :=
  ownerOf_setOwner (a := a) (o := none)

theorem var?_bound {old : Variable} (found : a.var? id = some old) (other : VarId) :
    (a.bound id r v).var? other =
      if other = id then some { v with storage := .register r } else a.var? other :=
  var?_setVar found _ other

theorem var?_unbound {old : Variable} (found : a.var? id = some old) (other : VarId) :
    (a.unbound id r v).var? other = if other = id then some v.parted else a.var? other :=
  var?_setVar found _ other

end Allocator

end SmallC
