import SmallC.Proofs.Allocation.Views

/-!
Where registers are. A register of the pool is free, or holds a variable, or is reserved, or waits for
a call to return, and it is in one of these places only. While an operation is under way it can also be
in hand: taken off its place and not yet put to another.
-/
namespace SmallC

namespace Reg

theorem mem_all (r : Reg) : r ∈ all := List.mem_map.2 ⟨r.index, List.mem_finRange _, rfl⟩

theorem nodup_all : all.Nodup :=
  List.Nodup.map (fun _ _ same => congrArg Reg.index same) (List.nodup_finRange 32)

theorem count_filter_all (p : Reg → Bool) (r : Reg) :
    (all.filter p).count r = if p r then 1 else 0 := by
  split
  · next holds =>
    rw [List.count_filter holds]
    exact List.count_eq_one_of_mem nodup_all (mem_all r)
  · next fails =>
    rw [List.count_eq_zero]
    exact fun member => fails (List.mem_filter.1 member).2

end Reg

namespace Allocator

/-- The registers that come back behind the pending calls. -/
def parked (a : Allocator) : List Reg := a.calls.flatMap fun save => save.saved.map fun s => s.2.1

/-- Whether a register holds a variable, as a number. -/
def holds (a : Allocator) (r : Reg) : Nat := if (a.ownerOf r).isSome then 1 else 0

/-- In how many places a register is. -/
def places (a : Allocator) (r : Reg) : Nat :=
  a.free.count r + a.holds r + a.reserved.count r + a.parked.count r

/-- Registers and the variables in them know of each other, and the order of use is that of the
variables in registers. -/
structure Owners (a : Allocator) : Prop where
  owner : ∀ {r id}, a.ownerOf r = some id ↔ ∃ v, a.var? id = some v ∧ v.storage = .register r
  recent : ∀ {id}, id ∈ a.recency.toList ↔ ∃ r, a.ownerOf r = some id

/-- The registers are accounted for, some of which are in hand. -/
structure Registers (hand : List Reg) (a : Allocator) : Prop extends Owners a where
  once : ∀ r, a.places r + hand.count r ≤ 1
  pool : ∀ {r}, r.isPool → 1 ≤ a.places r + hand.count r
  freePool : ∀ {r}, r ∈ a.free → r.isPool
  reservedPool : ∀ {r}, r ∈ a.reserved → r.isPool

theorem holds_of_owner {a : Allocator} {r : Reg} {id : VarId} (owned : a.ownerOf r = some id) :
    a.holds r = 1 := by simp [holds, owned]

theorem holds_of_no_owner {a : Allocator} {r : Reg} (unowned : a.ownerOf r = none) :
    a.holds r = 0 := by simp [holds, unowned]

theorem count_withdrawn (a : Allocator) (r s : Reg) :
    (a.withdrawn r).free.count s = if s = r then 0 else a.free.count s := by
  unfold withdrawn
  split
  · next same =>
    subst same
    rw [List.count_eq_zero]
    simp
  · next other => exact List.count_filter (by simpa using other)

theorem count_released (a : Allocator) (r s : Reg) :
    (a.released r).free.count s =
      if s = r ∧ r.isPool ∧ r ∉ a.reserved ∧ r ∉ a.free then 1 else a.free.count s := by
  unfold released
  by_cases back : r.isPool ∧ r ∉ a.reserved ∧ r ∉ a.free
  · by_cases same : s = r
    · subst same
      simp [back, List.count_eq_zero.2 back.2.2]
    · have apart : r ≠ s := fun eq => same eq.symm
      simp [back, same, List.count_append, apart]
  · simp [back]

theorem withdrawn_of_not_mem {a : Allocator} {r : Reg} (notFree : r ∉ a.free) :
    a.withdrawn r = a := by
  have same : a.free.filter (· ≠ r) = a.free := List.filter_eq_self.2 fun s member => by
    rw [decide_eq_true_eq]
    rintro rfl
    exact notFree member
  rw [Allocator.withdrawn, same]

namespace Owners

variable {a a' : Allocator} {id other : VarId} {r s : Reg} {v v' : Variable}

/-- No two variables share a register. -/
theorem unique (owners : Owners a) (found : a.var? id = some v) (there : v.storage = .register r)
    (found' : a.var? other = some v') (there' : v'.storage = .register r) : id = other := by
  have owned := owners.owner.2 ⟨v, found, there⟩
  rw [owners.owner.2 ⟨v', found', there'⟩] at owned
  exact (Option.some.inj owned).symm

/-- No variable is in two registers. -/
theorem same_register (owners : Owners a) (owned : a.ownerOf r = some id)
    (owned' : a.ownerOf s = some id) : r = s := by
  obtain ⟨v, found, there⟩ := owners.owner.1 owned
  obtain ⟨v', found', there'⟩ := owners.owner.1 owned'
  rw [found] at found'
  cases found'
  rw [there] at there'
  cases there'
  rfl

/-- What is known about a variable changes, but not which register it is in. -/
theorem setVar (owners : Owners a) (found : a.var? id = some v) (v' : Variable)
    (same : ∀ s, v'.storage = .register s ↔ v.storage = .register s) :
    Owners (a.setVar id v') := by
  refine ⟨fun {s other} => owners.owner.trans ?_, owners.recent⟩
  rw [var?_setVar found]
  by_cases here : other = id
  · subst here
    simp [found, same]
  · simp [here]

/-- A variable leaves its register. -/
theorem leave (owners : Owners a) (owned : a.ownerOf r = some id)
    (owner : ∀ s, a'.ownerOf s = if s = r then none else a.ownerOf s)
    (others : ∀ other, other ≠ id → a'.var? other = a.var? other)
    (away : ∀ v s, a'.var? id = some v → v.storage ≠ .register s)
    (recency : ∀ other, other ∈ a'.recency.toList ↔ other ≠ id ∧ other ∈ a.recency.toList) :
    Owners a' := by
  refine ⟨fun {s other} => ?_, fun {other} => ?_⟩
  · rw [owner]
    by_cases here : other = id
    · subst here
      constructor
      · intro owns
        split at owns
        · cases owns
        · next apart => exact absurd (owners.same_register owns owned) apart
      · rintro ⟨v, found, there⟩
        exact absurd there (away v s found)
    · rw [others other here]
      split
      · next same =>
        subst same
        refine ⟨nofun, fun there => ?_⟩
        rw [owners.owner.2 there] at owned
        exact absurd (Option.some.inj owned) here
      · exact owners.owner
  · rw [recency, owners.recent]
    constructor
    · rintro ⟨apart, s, owns⟩
      refine ⟨s, ?_⟩
      rw [owner, if_neg, owns]
      rintro rfl
      rw [owned] at owns
      exact apart (Option.some.inj owns).symm
    · rintro ⟨s, owns⟩
      rw [owner] at owns
      split at owns
      · cases owns
      · next apart =>
        refine ⟨?_, s, owns⟩
        rintro rfl
        exact apart (owners.same_register owns owned)

/-- A variable comes to a register that held none. -/
theorem arrive (owners : Owners a) (id : VarId) (unowned : a.ownerOf r = none)
    (elsewhere : ∀ s, a.ownerOf s ≠ some id)
    (owner : ∀ s, a'.ownerOf s = if s = r then some id else a.ownerOf s)
    (others : ∀ other, other ≠ id → a'.var? other = a.var? other)
    (there : ∃ v, a'.var? id = some v ∧ v.storage = .register r)
    (recency : ∀ other, other ∈ a'.recency.toList ↔ other = id ∨ other ∈ a.recency.toList) :
    Owners a' := by
  refine ⟨fun {s other} => ?_, fun {other} => ?_⟩
  · rw [owner]
    by_cases here : other = id
    · subst here
      obtain ⟨v, found, there⟩ := there
      constructor
      · intro owns
        split at owns
        · next same => exact ⟨v, found, same ▸ there⟩
        · exact absurd owns (elsewhere s)
      · rintro ⟨v', found', there'⟩
        rw [found] at found'
        cases found'
        rw [there] at there'
        cases there'
        rw [if_pos rfl]
    · rw [others other here]
      split
      · next same =>
        subst same
        refine ⟨fun owns => absurd (Option.some.inj owns).symm here, fun there => ?_⟩
        rw [owners.owner.2 there] at unowned
        cases unowned
      · exact owners.owner
  · rw [recency, owners.recent]
    constructor
    · rintro (rfl | ⟨s, owns⟩)
      · exact ⟨r, by rw [owner, if_pos rfl]⟩
      · refine ⟨s, ?_⟩
        rw [owner, if_neg, owns]
        rintro rfl
        rw [unowned] at owns
        cases owns
    · rintro ⟨s, owns⟩
      rw [owner] at owns
      split at owns
      · exact .inl (Option.some.inj owns).symm
      · exact .inr ⟨s, owns⟩

end Owners

namespace Registers

variable {hand hand' : List Reg} {a a' : Allocator} {id other : VarId} {r s : Reg} {v v' : Variable}

theorem not_owned (registers : Registers (r :: hand) a) : a.ownerOf r = none := by
  have once := registers.once r
  cases owned : a.ownerOf r with
  | none => rfl
  | some id =>
    have := holds_of_owner owned
    simp only [places, List.count_cons_self] at once
    omega

theorem not_free (registers : Registers hand a) (owned : a.ownerOf r = some id) : r ∉ a.free := by
  intro member
  have once := registers.once r
  have free := List.count_pos_iff.2 member
  simp only [places, holds_of_owner owned] at once
  omega

theorem not_reserved (registers : Registers hand a) (owned : a.ownerOf r = some id) :
    r ∉ a.reserved := by
  intro member
  have once := registers.once r
  have reserved := List.count_pos_iff.2 member
  simp only [places, holds_of_owner owned] at once
  omega

/-- Registers each of which is in as many places as before are accounted for as before. -/
theorem of_same_places (registers : Registers hand a) (owners : Owners a')
    (same : ∀ s, a'.places s + hand'.count s = a.places s + hand.count s)
    (freePool : ∀ s ∈ a'.free, s.isPool) (reservedPool : ∀ s ∈ a'.reserved, s.isPool) :
    Registers hand' a' where
  toOwners := owners
  once s := same s ▸ registers.once s
  pool {s} inPool := same s ▸ registers.pool inPool
  freePool {s} := freePool s
  reservedPool {s} := reservedPool s

/-- Registers stay accounted for as long as what they hold and where they are stay. -/
theorem congr (registers : Registers hand a) (vars : a'.vars = a.vars) (owner : a'.owner = a.owner)
    (recency : ∀ other, other ∈ a'.recency.toList ↔ other ∈ a.recency.toList)
    (free : a'.free = a.free) (reserved : a'.reserved = a.reserved)
    (calls : a'.calls = a.calls) : Registers hand a' := by
  have ownerOf : ∀ s, a'.ownerOf s = a.ownerOf s := fun s => by
    rw [Allocator.ownerOf, Allocator.ownerOf, owner]
  have parked : a'.parked = a.parked := by rw [Allocator.parked, Allocator.parked, calls]
  refine registers.of_same_places ⟨fun {s other} => ?_, fun {other} => ?_⟩ (fun s => ?_) ?_ ?_
  · rw [ownerOf, Allocator.var?, vars]
    exact registers.owner
  · simp only [ownerOf]
    exact (recency other).trans registers.recent
  · simp only [places, holds, ownerOf, free, reserved, parked]
  · rw [free]
    exact fun s => registers.freePool
  · rw [reserved]
    exact fun s => registers.reservedPool

/-- A free register is taken off the others. -/
theorem withdrawn (registers : Registers hand a) (free : r ∈ a.free) :
    Registers (r :: hand) (a.withdrawn r) := by
  refine registers.of_same_places ⟨registers.owner, registers.recent⟩ (fun s => ?_)
    (fun s member => registers.freePool (List.mem_filter.1 member).1)
    (fun s => registers.reservedPool)
  have once := registers.once s
  have positive := List.count_pos_iff.2 free
  simp only [Allocator.places] at once
  change (a.withdrawn r).free.count s + a.holds s + a.reserved.count s + a.parked.count s + _ =
    a.free.count s + a.holds s + a.reserved.count s + a.parked.count s + _
  rw [count_withdrawn]
  by_cases same : s = r
  · subst same
    rw [if_pos rfl, List.count_cons_self]
    omega
  · rw [if_neg same, List.count_cons_of_ne fun eq => same eq.symm]

/-- A register outside of the pool that holds nothing is taken in hand. -/
theorem give (registers : Registers hand a) (outside : r.isPool = false) (unowned : a.ownerOf r = none)
    (present : r ∉ a.parked) (absent : r ∉ hand) : Registers (r :: hand) (a.withdrawn r) := by
  have free : r ∉ a.free := fun member => by
    have := registers.freePool member
    rw [outside] at this
    cases this
  have reserved : r ∉ a.reserved := fun member => by
    have := registers.reservedPool member
    rw [outside] at this
    cases this
  have places : ∀ s, (a.withdrawn r).places s = a.places s := by
    intro s
    change (a.withdrawn r).free.count s + a.holds s + a.reserved.count s + a.parked.count s =
      a.free.count s + a.holds s + a.reserved.count s + a.parked.count s
    rw [count_withdrawn]
    split
    · next same => rw [same, List.count_eq_zero.2 free]
    · rfl
  refine ⟨⟨registers.owner, registers.recent⟩, fun s => ?_, fun {s} inPool => ?_,
    fun member => registers.freePool (List.mem_filter.1 member).1, registers.reservedPool⟩
  · rw [places]
    by_cases same : s = r
    · subst same
      rw [List.count_cons_self, List.count_eq_zero.2 absent]
      simp [Allocator.places, List.count_eq_zero.2 free, List.count_eq_zero.2 reserved,
        List.count_eq_zero.2 present, holds_of_no_owner unowned]
    · rw [List.count_cons_of_ne fun eq => same eq.symm]
      exact registers.once s
  · rw [places, List.count_cons_of_ne]
    · exact registers.pool inPool
    · rintro rfl
      rw [inPool] at outside
      cases outside

theorem setVar (registers : Registers hand a) (found : a.var? id = some v) (v' : Variable)
    (same : ∀ s, v'.storage = .register s ↔ v.storage = .register s) :
    Registers hand (a.setVar id v') :=
  registers.of_same_places (registers.toOwners.setVar found v' same) (fun _ => rfl)
    (fun _ => registers.freePool) (fun _ => registers.reservedPool)

/-- A register that a variable leaves is released. One of the pool is free then. -/
theorem released (registers : Registers hand a) (owned : a.ownerOf r = some id)
    (owners : Owners a') (owner : ∀ s, a'.ownerOf s = if s = r then none else a.ownerOf s)
    (free : a'.free = (a.released r).free) (reserved : a'.reserved = a.reserved)
    (parked : a'.parked = a.parked) : Registers hand a' := by
  have holds : ∀ s, a'.holds s = if s = r then 0 else a.holds s := by
    intro s
    simp only [Allocator.holds, owner]
    split <;> simp
  have places : ∀ s, a'.places s = if s = r ∧ r.isPool = false then 0 else a.places s := by
    intro s
    have once := registers.once r
    simp only [Allocator.places, holds_of_owner owned] at once
    simp only [Allocator.places, free, reserved, parked, count_released, holds]
    by_cases same : s = r
    · subst same
      cases inPool : s.isPool with
      | true =>
        simp [registers.not_free owned, registers.not_reserved owned, holds_of_owner owned]
        omega
      | false =>
        simp
        omega
    · simp [same]
  refine ⟨owners, fun s => ?_, fun {s} inPool => ?_, fun {s} member => ?_, fun {s} member => ?_⟩
  · rw [places]
    have once := registers.once s
    split <;> omega
  · rw [places, if_neg (by rintro ⟨rfl, outside⟩; rw [inPool] at outside; cases outside)]
    exact registers.pool inPool
  · rw [free] at member
    unfold Allocator.released at member
    simp only at member
    split at member
    · next back =>
      rcases List.mem_append.1 member with old | new
      · exact registers.freePool old
      · rw [List.mem_singleton.1 new]
        exact back.1
    · exact registers.freePool member
  · rw [reserved] at member
    exact registers.reservedPool member

/-- A variable goes elsewhere from its register, which is released. -/
theorem unbound (registers : Registers hand a) (found : a.var? id = some v)
    (there : v.storage = .register r) (away : ∀ s, v.parted.storage ≠ .register s) :
    Registers hand (a.unbound id r v) := by
  have owned : a.ownerOf r = some id := registers.owner.2 ⟨v, found, there⟩
  refine registers.released owned (registers.toOwners.leave owned (fun s => ownerOf_unbound) ?_ ?_
    fun other => Recency.mem_remove) (fun s => ownerOf_unbound) rfl rfl rfl
  · intro other apart
    rw [var?_unbound found, if_neg apart]
  · intro v' s found'
    rw [var?_unbound found, if_pos rfl] at found'
    cases found'
    exact away s

/-- A variable comes to the register in hand. -/
theorem arrive (registers : Registers (r :: hand) a) (owners : Owners a')
    (owner : ∀ s, a'.ownerOf s = if s = r then some id else a.ownerOf s)
    (free : a'.free = a.free) (reserved : a'.reserved = a.reserved)
    (parked : a'.parked = a.parked) : Registers hand a' := by
  refine registers.of_same_places owners (fun s => ?_) ?_ ?_
  · simp only [places, free, reserved, parked, holds, owner]
    by_cases same : s = r
    · subst same
      have unowned := holds_of_no_owner registers.not_owned
      simp only [holds] at unowned
      rw [unowned, List.count_cons_self]
      simp
      omega
    · rw [if_neg same, List.count_cons_of_ne fun eq => same eq.symm]
  · rw [free]
    exact fun s => registers.freePool
  · rw [reserved]
    exact fun s => registers.reservedPool

theorem bound (registers : Registers (r :: hand) a) (found : a.var? id = some v)
    (away : ∀ s, v.storage ≠ .register s) : Registers hand (a.bound id r v) := by
  refine registers.arrive (registers.toOwners.arrive id registers.not_owned ?_ (fun s => ownerOf_bound)
    ?_ ?_ fun other => Recency.mem_touch) (fun s => ownerOf_bound) rfl rfl rfl
  · intro s owned
    obtain ⟨v', found', there⟩ := registers.owner.1 owned
    rw [found] at found'
    cases found'
    exact away s there
  · intro other apart
    rw [var?_bound found, if_neg apart]
  · exact ⟨_, by rw [var?_bound found, if_pos rfl], rfl⟩

/-- A variable that is in no register becomes known, or nothing is left of one. -/
theorem change_vars (registers : Registers hand a) (id : VarId) (owner : a'.owner = a.owner)
    (others : ∀ other, other ≠ id → a'.var? other = a.var? other)
    (away : ∀ v s, a.var? id = some v → v.storage ≠ .register s)
    (away' : ∀ v s, a'.var? id = some v → v.storage ≠ .register s)
    (recency : ∀ other, other ∈ a'.recency.toList ↔ other ∈ a.recency.toList)
    (free : a'.free = a.free) (reserved : a'.reserved = a.reserved)
    (parked : a'.parked = a.parked) : Registers hand a' := by
  have ownerOf : ∀ s, a'.ownerOf s = a.ownerOf s := fun s => by
    rw [Allocator.ownerOf, Allocator.ownerOf, owner]
  refine registers.of_same_places ⟨fun {s other} => ?_, fun {other} => ?_⟩ (fun s => ?_) ?_ ?_
  · rw [ownerOf]
    by_cases here : other = id
    · subst here
      constructor
      · intro owned
        obtain ⟨v, found, there⟩ := registers.owner.1 owned
        exact absurd there (away v s found)
      · rintro ⟨v, found, there⟩
        exact absurd there (away' v s found)
    · rw [others other here]
      exact registers.owner
  · rw [recency, registers.recent]
    simp only [ownerOf]
  · simp only [places, holds, ownerOf, free, reserved, parked]
  · rw [free]
    exact fun s => registers.freePool
  · rw [reserved]
    exact fun s => registers.reservedPool

theorem addVar (registers : Registers hand a) (away : ∀ s, v.storage ≠ .register s) :
    Registers hand (a.addVar v) := by
  refine registers.change_vars a.vars.size rfl (fun other apart => by simp [apart])
    (fun v s found => absurd (var?_lt found) (Nat.lt_irrefl _)) (fun v' s found => ?_)
    (fun _ => Iff.rfl) rfl rfl rfl
  rw [var?_addVar, if_pos rfl] at found
  cases found
  exact away s

/-- A new variable comes to the register in hand. -/
theorem introduced (registers : Registers (r :: hand) a) :
    Registers hand ((a.addVar v).bound a.vars.size r v) := by
  have found : (a.addVar v).var? a.vars.size = some v := by simp
  refine registers.arrive (registers.toOwners.arrive a.vars.size registers.not_owned ?_
    (fun s => ownerOf_bound) ?_ ?_ fun other => Recency.mem_touch) (fun s => ownerOf_bound) rfl rfl rfl
  · intro s owned
    obtain ⟨v', found', -⟩ := registers.owner.1 owned
    exact Nat.lt_irrefl _ (var?_lt found')
  · intro other apart
    rw [var?_bound found, if_neg apart, var?_addVar, if_neg apart]
  · exact ⟨_, by rw [var?_bound found, if_pos rfl], rfl⟩

theorem of_perm (registers : Registers hand a) (same : hand.Perm hand') : Registers hand' a :=
  registers.of_same_places registers.toOwners (fun s => by rw [same.count_eq])
    (fun _ => registers.freePool) (fun _ => registers.reservedPool)

/-- A register is taken in hand as the variable in it goes to wait for a call to return. -/
theorem park (registers : Registers hand a) (found : a.var? id = some v)
    (there : v.storage = .register r) (slot : Nat) :
    Registers (r :: hand) (a.parkedAt id r slot v) := by
  have owned : a.ownerOf r = some id := registers.owner.2 ⟨v, found, there⟩
  refine registers.of_same_places (registers.toOwners.leave owned (fun s => ownerOf_setOwner) ?_ ?_
    fun other => Recency.mem_remove) (fun s => ?_) (fun _ => registers.freePool)
    (fun _ => registers.reservedPool)
  · intro other apart
    exact var?_setVar_of_ne (a := a) apart
  · intro v' s found'
    have known : (a.parkedAt id r slot v).var? id = some { v with storage := .saved slot } :=
      var?_setVar_self found _
    rw [known] at found'
    cases found'
    exact nofun
  · change a.free.count s + (a.setOwner r none).holds s + a.reserved.count s + a.parked.count s + _ =
      a.free.count s + a.holds s + a.reserved.count s + a.parked.count s + _
    by_cases same : s = r
    · subst same
      rw [holds_of_owner owned, holds_of_no_owner (by simp), List.count_cons_self]
      omega
    · rw [List.count_cons_of_ne fun eq => same eq.symm]
      simp [holds, same]

/-- The variable in a register goes to the register in hand instead. -/
theorem move {target : Reg} (registers : Registers (target :: hand) a) (found : a.var? id = some v)
    (there : v.storage = .register r) :
    Registers (r :: hand) ((a.setOwner r none).bound id target v) := by
  have owned : a.ownerOf r = some id := registers.owner.2 ⟨v, found, there⟩
  have between := (registers.park found there 0).of_perm (.swap target r hand)
  have known : (a.parkedAt id r 0 v).var? id = some { v with storage := .saved 0 } :=
    var?_setVar_self found _
  have owner : ∀ s, ((a.setOwner r none).bound id target v).ownerOf s =
      if s = target then some id else (a.parkedAt id r 0 v).ownerOf s := by
    intro s
    rw [ownerOf_bound]
    rfl
  refine between.arrive (between.toOwners.arrive id between.not_owned ?_ owner ?_ ?_ fun other => ?_)
    owner rfl rfl rfl
  · intro s owns
    obtain ⟨v', found', there'⟩ := between.owner.1 owns
    rw [known] at found'
    cases found'
    cases there'
  · intro other apart
    rw [var?_bound (a := a.setOwner r none) found, if_neg apart]
    exact (var?_setVar_of_ne (a := a) apart).symm
  · exact ⟨_, by rw [var?_bound (a := a.setOwner r none) found, if_pos rfl], rfl⟩
  · change other ∈ (a.recency.touch id).toList ↔ other = id ∨ other ∈ (a.recency.remove id).toList
    rw [Recency.mem_touch, Recency.mem_remove]
    by_cases here : other = id <;> simp [here]

/-- A register of the pool in hand becomes free. -/
theorem give_back (registers : Registers (r :: hand) a) (inPool : r.isPool) :
    Registers hand (a.released r) := by
  have unowned := registers.not_owned
  have ownerOf : ∀ s, (a.released r).ownerOf s = a.ownerOf s := by
    intro s
    rw [ownerOf_released]
    split
    · next same => rw [same, unowned]
    · rfl
  have once := registers.once r
  simp only [places, List.count_cons_self] at once
  have free : r ∉ a.free := fun member => by
    have := List.count_pos_iff.2 member
    omega
  have reserved : r ∉ a.reserved := fun member => by
    have := List.count_pos_iff.2 member
    omega
  refine registers.of_same_places ⟨fun {s other} => ?_, fun {other} => ?_⟩ (fun s => ?_)
    (fun s member => ?_) (fun _ => registers.reservedPool)
  · rw [ownerOf]
    exact registers.owner
  · simp only [ownerOf]
    exact registers.recent
  · change (a.released r).free.count s + (a.released r).holds s + a.reserved.count s +
      a.parked.count s + _ = a.free.count s + a.holds s + a.reserved.count s + a.parked.count s + _
    rw [count_released]
    simp only [holds, ownerOf]
    by_cases same : s = r
    · subst same
      rw [if_pos ⟨rfl, inPool, reserved, free⟩, List.count_cons_self, List.count_eq_zero.2 free]
      omega
    · rw [if_neg fun all => same all.1, List.count_cons_of_ne fun eq => same eq.symm]
  · unfold Allocator.released at member
    rw [if_pos ⟨inPool, reserved, free⟩] at member
    rcases List.mem_append.1 member with old | new
    · exact registers.freePool old
    · rw [List.mem_singleton.1 new]
      exact inPool

/-- A register of the pool in hand is reserved. -/
theorem reserve (registers : Registers (r :: hand) a) (inPool : r.isPool) :
    Registers hand { a with reserved := a.reserved ++ [r] } := by
  refine registers.of_same_places ⟨registers.owner, registers.recent⟩ (fun s => ?_)
    (fun _ => registers.freePool) (fun s member => ?_)
  · change a.free.count s + a.holds s + (a.reserved ++ [r]).count s + a.parked.count s + _ =
      a.free.count s + a.holds s + a.reserved.count s + a.parked.count s + _
    simp only [List.count_append, List.count_cons, List.count_nil]
    omega
  · rcases List.mem_append.1 member with old | new
    · exact registers.reservedPool old
    · rw [List.mem_singleton.1 new]
      exact inPool

/-- All reserved registers are taken in hand. -/
theorem unreserve (registers : Registers hand a) :
    Registers (a.reserved ++ hand) { a with reserved := [] } := by
  refine registers.of_same_places ⟨registers.owner, registers.recent⟩ (fun s => ?_)
    (fun _ => registers.freePool) nofun
  change a.free.count s + a.holds s + 0 + a.parked.count s + _ =
    a.free.count s + a.holds s + a.reserved.count s + a.parked.count s + _
  rw [List.count_append]
  omega

/-- A register outside of the pool need not be kept in hand. -/
theorem discard (registers : Registers (r :: hand) a) (outside : r.isPool = false) :
    Registers hand a := by
  refine ⟨registers.toOwners, fun s => ?_, fun {s} inPool => ?_, registers.freePool,
    registers.reservedPool⟩
  · have once := registers.once s
    have fewer := List.count_le_count_cons (a := s) (b := r) (l := hand)
    omega
  · have pool := registers.pool inPool
    rwa [List.count_cons_of_ne] at pool
    rintro rfl
    rw [inPool] at outside
    cases outside

theorem hand_not_free (registers : Registers (r :: hand) a) : r ∉ a.free := by
  intro member
  have once := registers.once r
  have free := List.count_pos_iff.2 member
  simp only [places, List.count_cons_self] at once
  omega

theorem hand_not_reserved (registers : Registers (r :: hand) a) : r ∉ a.reserved := by
  intro member
  have once := registers.once r
  have reserved := List.count_pos_iff.2 member
  simp only [places, List.count_cons_self] at once
  omega

end Registers

end Allocator

end SmallC
