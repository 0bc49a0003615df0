import SmallC.Proofs.Allocation.Homing
import SmallC.Proofs.Allocation.Reading
import SmallC.Proofs.Allocation.Synchronizing

/-!
Which register is taken. A register that is free and not held is taken if there is one. Otherwise a variable leaves its
own: the least recently used of the named ones in registers of the pool that are not held, and if there is none of these,
the least recently used of the temporaries in such registers that are not pinned. Since every register of the pool is
accounted for and the order of use knows all variables in registers, nothing can be taken only if every register of the
pool is engaged. What can go wrong apart from that is that an array was written: it has nowhere to go.
-/
namespace SmallC

open Alloc

/-- An element of a list that suits, and none before it does. -/
def FirstIn {α : Type} (suits : α → Prop) (xs : List α) (x : α) : Prop :=
  suits x ∧ ∃ front back, xs = front ++ x :: back ∧ ∀ y ∈ front, ¬ suits y

theorem find?_eq_some_iff_firstIn {α : Type} {p : α → Bool} {suits : α → Prop} {xs : List α} {x : α}
    (means : ∀ x, p x = true ↔ suits x) : xs.find? p = some x ↔ FirstIn suits xs x := by
  simp only [List.find?_eq_some_iff_append, FirstIn, Bool.not_eq_true', Bool.eq_false_iff, ne_eq, means]

namespace Allocator

variable {a : Allocator} {w : Work} {eligible : Variable → Bool} {id : VarId} {r : Reg}

/-- A register that is free and may be taken. -/
def Loose (a : Allocator) (r : Reg) : Prop := r ∈ a.free ∧ r ∉ a.held

/-- A register that cannot be had: it is held, reserved, waits for a call to return, or has a temporary in it that is
pinned. -/
def Engaged (a : Allocator) (r : Reg) : Prop :=
  r ∈ a.held ∨ r ∈ a.reserved ∨ r ∈ a.parked ∨
    ∃ id v, a.ownerOf r = some id ∧ a.var? id = some v ∧ v.isTemp = true ∧ v.isPinned = true

/-- A variable of some kind is in a register of the pool that is not held. -/
def Yields (a : Allocator) (eligible : Variable → Bool) (id : VarId) : Prop :=
  ∃ v r, a.var? id = some v ∧ v.storage = .register r ∧ eligible v = true ∧ r.isPool = true ∧ r ∉ a.held

def namedOnes (v : Variable) : Bool := !v.isTemp

def unpinnedOnes (v : Variable) : Bool := v.isTemp && !v.isPinned

/-- The variable that has to leave its register: the least recently used of those with a name that can, and if there is
none, of the temporaries that can. -/
def GivesWay (a : Allocator) (id : VarId) : Prop :=
  FirstIn (a.Yields namedOnes) a.recency.toList id ∨
    (∀ other, ¬ a.Yields namedOnes other) ∧ FirstIn (a.Yields unpinnedOnes) a.recency.toList id

theorem yields_iff : ((a.var? id).any fun v =>
      eligible v && v.storage.register?.any fun r => r.isPool && r ∉ a.held) = true ↔ a.Yields eligible id := by
  constructor
  · intro suits
    cases found : a.var? id with
    | none =>
      rw [found] at suits
      cases suits
    | some v =>
      rw [found, Option.any_some, Bool.and_eq_true] at suits
      cases there : v.storage with
      | register r =>
        simp only [there, Storage.register?, Option.any_some, Bool.and_eq_true, decide_eq_true_eq] at suits
        exact ⟨v, r, found, there, suits⟩
      | memory home | saved slot =>
        rw [there] at suits
        cases suits.2
  · rintro ⟨v, r, found, there, suits, inPool, loose⟩
    simp [found, there, Storage.register?, suits, inPool, loose]

theorem victim?_eq_some : victim? a eligible = some id ↔ FirstIn (a.Yields eligible) a.recency.toList id :=
  find?_eq_some_iff_firstIn fun _ => yields_iff

/-- The order of use knows all variables in registers, so nobody is overlooked. -/
theorem victim?_eq_none (owners : Owners a) : victim? a eligible = none ↔ ∀ other, ¬ a.Yields eligible other := by
  simp only [victim?, List.find?_eq_none, yields_iff]
  refine ⟨fun none other yields => ?_, fun none other _ => none other⟩
  obtain ⟨v, r, found, there, -⟩ := id yields
  exact none other (owners.recent.2 ⟨r, owners.owner.2 ⟨v, found, there⟩⟩) yields

theorem chooseVictim?_eq_some (owners : Owners a) : chooseVictim? a = some id ↔ a.GivesWay id := by
  rw [chooseVictim?, Option.orElse_eq_orElse, Option.orElse_eq_or, Option.or_eq_some_iff, victim?_eq_none owners,
    victim?_eq_some, victim?_eq_some]
  rfl

theorem chooseVictim?_eq_none (owners : Owners a) : chooseVictim? a = none ↔
    ∀ other, ¬ a.Yields namedOnes other ∧ ¬ a.Yields unpinnedOnes other := by
  rw [chooseVictim?, Option.orElse_eq_orElse, Option.orElse_eq_or, Option.or_eq_none_iff, victim?_eq_none owners,
    victim?_eq_none owners]
  exact forall_and.symm

theorem free?_eq_none : a.free.find? (· ∉ a.held) = none ↔ ∀ r, ¬ a.Loose r := by
  simp [List.find?_eq_none, Loose]

/-! ### Engaged registers -/

/-- A register of the pool that is free or in use is nowhere else. -/
theorem Registers.elsewhere (registers : Registers [] a) (here : r ∈ a.free ∨ ∃ id, a.ownerOf r = some id) :
    r ∉ a.reserved ∧ r ∉ a.parked := by
  have once := registers.once r
  simp only [places, List.count_nil] at once
  have one : 0 < a.free.count r + a.holds r := by
    rcases here with free | ⟨id, owned⟩
    · exact Nat.add_pos_left (List.count_pos_iff.2 free) _
    · rw [holds_of_owner owned]
      exact Nat.succ_pos _
  constructor
  · intro member
    have reserved := List.count_pos_iff.2 member
    omega
  · intro member
    have parked := List.count_pos_iff.2 member
    omega

theorem Registers.not_engaged_of_loose (registers : Registers [] a) (loose : a.Loose r) : ¬ a.Engaged r := by
  obtain ⟨notReserved, notParked⟩ := registers.elsewhere (.inl loose.1)
  rintro (held | reserved | parked | ⟨id, v, owned, -⟩)
  · exact loose.2 held
  · exact notReserved reserved
  · exact notParked parked
  · exact registers.not_free owned loose.1

/-- Nor is the register of a variable that can leave it. -/
theorem Registers.not_engaged_of_yields (registers : Registers [] a)
    (loose : ∀ v, eligible v = true → v.isTemp = true → v.isPinned = false) (yields : a.Yields eligible id) :
    ∃ r, r.isPool = true ∧ ¬ a.Engaged r := by
  obtain ⟨v, r, found, there, suits, inPool, unheld⟩ := yields
  have owned := registers.owner.2 ⟨v, found, there⟩
  obtain ⟨notReserved, notParked⟩ := registers.elsewhere (.inr ⟨id, owned⟩)
  refine ⟨r, inPool, ?_⟩
  rintro (held | reserved | parked | ⟨other, v', owned', found', isTemp, isPinned⟩)
  · exact unheld held
  · exact notReserved reserved
  · exact notParked parked
  · cases owned.symm.trans owned'
    cases found.symm.trans found'
    cases (loose v suits isTemp).symm.trans isPinned

/-- A register that is not engaged is free or has a variable in it that can leave. -/
theorem Registers.of_not_engaged (registers : Registers [] a) (inPool : r.isPool = true) (available : ¬ a.Engaged r) :
    a.Loose r ∨ ∃ id, a.Yields namedOnes id ∨ a.Yields unpinnedOnes id := by
  simp only [Engaged, not_or] at available
  obtain ⟨unheld, notReserved, notParked, noPinned⟩ := available
  have somewhere := registers.pool inPool
  simp only [places, List.count_nil, List.count_eq_zero.2 notReserved, List.count_eq_zero.2 notParked] at somewhere
  cases owned : a.ownerOf r with
  | none =>
    rw [holds_of_no_owner owned] at somewhere
    exact .inl ⟨List.count_pos_iff.1 somewhere, unheld⟩
  | some id =>
    obtain ⟨v, found, there⟩ := registers.owner.1 owned
    refine .inr ⟨id, ?_⟩
    cases isTemp : v.isTemp with
    | false => exact .inl ⟨v, r, found, there, by rw [namedOnes, isTemp]; rfl, inPool, unheld⟩
    | true =>
      have loose : v.isPinned = false := by
        rw [Bool.eq_false_iff]
        exact fun isPinned => noPinned ⟨id, v, owned, found, isTemp, isPinned⟩
      exact .inr ⟨v, r, found, there, by rw [unpinnedOnes, isTemp, loose]; rfl, inPool, unheld⟩

/-- There is nothing to take if every register of the pool is engaged, and only then. -/
theorem nothing_available_iff (registers : Registers [] a) :
    ((∀ r, ¬ a.Loose r) ∧ chooseVictim? a = none) ↔ ∀ r, r.isPool = true → a.Engaged r := by
  rw [chooseVictim?_eq_none registers.toOwners]
  constructor
  · rintro ⟨noLoose, noVictim⟩ r inPool
    by_contra available
    obtain loose | ⟨id, named | unpinned⟩ := registers.of_not_engaged inPool available
    · exact noLoose r loose
    · exact (noVictim id).1 named
    · exact (noVictim id).2 unpinned
  · intro engaged
    refine ⟨fun r loose => registers.not_engaged_of_loose loose (engaged r (registers.freePool loose.1)), fun other => ?_⟩
    constructor
    · intro yields
      obtain ⟨r, inPool, available⟩ := registers.not_engaged_of_yields (fun v isNamed isTemp => by
        rw [namedOnes, isTemp] at isNamed
        cases isNamed) yields
      exact available (engaged r inPool)
    · intro yields
      obtain ⟨r, inPool, available⟩ := registers.not_engaged_of_yields (fun v suits _ => by
        rw [unpinnedOnes, Bool.and_eq_true, Bool.not_eq_true'] at suits
        exact suits.2) yields
      exact available (engaged r inPool)

/-! ### Taking a register -/

/-- How a register is taken. Nothing can be taken only if every register of the pool is held, reserved, waits for a call to
return, or has a pinned temporary in it. Otherwise it is the register that was freed first of those that are not held, or
if there is none, that of the variable that has to give way, which can leave it if it has a home wherever it needs one. -/
theorem take_follows_order (reached : Reached w.allocator) :
    (take.run w = .error .outOfRegisters w ∧ ∀ r, r.isPool = true → w.allocator.Engaged r) ∨
    (∃ r, FirstIn (· ∉ w.allocator.held) w.allocator.free r ∧ Ran take w r (on (fun a => a.withdrawn r) w)) ∨
    ((∀ r, ¬ w.allocator.Loose r) ∧ ∃ id, w.allocator.GivesWay id ∧ take.run w = (evict id).run w ∧
      (Homed w.allocator → ∃ r w', w.allocator.ownerOf r = some id ∧ Ran take w r w')) := by
  have sound := reached.inOrder.sound
  cases free : w.allocator.free.find? (· ∉ w.allocator.held) with
  | some r => exact .inr (.inl ⟨r, (find?_eq_some_iff_firstIn fun _ => decide_eq_true_iff).1 free, take_of_free free⟩)
  | none =>
    have noLoose := free?_eq_none.1 free
    have run := take_of_full free
    cases chosen : chooseVictim? w.allocator with
    | none =>
      rw [chosen] at run
      exact .inl ⟨run, (nothing_available_iff sound.registers).1 ⟨noLoose, chosen⟩⟩
    | some id =>
      rw [chosen] at run
      refine .inr (.inr ⟨noLoose, id, (chooseVictim?_eq_some sound.registers.toOwners).1 chosen, run, fun homed => ?_⟩)
      obtain ⟨v, r, found, there, loose⟩ := of_chooseVictim sound chosen
      obtain ⟨w', evicted⟩ := evict_succeeds sound (homed.dirty found) found there loose
      exact ⟨r, w', sound.registers.owner.2 ⟨v, found, there⟩, run.trans evicted⟩

/-- As long as no array is written, taking a register fails only if every register of the pool is engaged. -/
theorem take_succeeds_or_engaged (sparing : ReachedSparing w.allocator) :
    (∃ r w', Ran take w r w') ∨
      take.run w = .error .outOfRegisters w ∧ ∀ r, r.isPool = true → w.allocator.Engaged r := by
  obtain engaged | ⟨r, -, took⟩ | ⟨-, id, -, -, leaves⟩ := take_follows_order sparing.reached
  · exact .inr engaged
  · exact .inl ⟨r, _, took⟩
  · obtain ⟨r, w', -, took⟩ := leaves sparing.homed
    exact .inl ⟨r, w', took⟩

/-- What goes wrong, if something does. -/
def fault? {α : Type} (act : Alloc α) (w : Work) : Option AllocatorFault :=
  match act.run w with
  | .ok _ _ => none
  | .error fault _ => some fault

/-- An array that was written is in the only register of the pool that is not reserved. -/
def writingArray : List Operation := (Reg.pool.drop 1).map .reserve ++
  [.setArray "a" 2, .getRegister "a" true, .markWritten "a", .releaseHolds]

def writtenArray : Work := afterAll writingArray ⟨initial, #[]⟩

/-- Such an array has to give way, but cannot leave its register. -/
theorem writtenArray_stays : Reached writtenArray.allocator ∧ writtenArray.allocator.GivesWay 0 ∧
    fault? take writtenArray = some (.spillWithoutHome "a") := by
  have reached : Reached writtenArray.allocator := by
    refine Reached.afterAll (fun op member => ?_) (by decide +kernel)
    simp only [writingArray, List.mem_append, List.mem_map, List.mem_cons, List.not_mem_nil, or_false] at member
    rcases member with ⟨r, -, rfl⟩ | rfl | rfl | rfl | rfl
    all_goals exact ⟨trivial, fun _ idle => idle⟩
  exact ⟨reached, (chooseVictim?_eq_some reached.inOrder.sound.registers.toOwners).1 (by decide +kernel), by decide +kernel⟩

end Allocator

end SmallC
