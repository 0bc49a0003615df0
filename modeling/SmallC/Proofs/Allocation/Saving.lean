import SmallC.Proofs.Allocation.Bearing
import SmallC.Proofs.Allocation.Doing

/-!
What is put aside for a call, and how it comes back. Named variables go home; the temporaries in registers are
written to consecutive words, on the stack inside of a function and behind the other words of global memory at top
level. Behind the call they are loaded into the registers that they left.
-/
namespace SmallC

open Alloc

/-! ### Consecutive words -/

namespace Machine

variable {m : Machine} {base : Reg} {slot n : Nat} {rs : List Reg} {r : Reg}

/-- A machine with some registers in consecutive words. -/
structure Stores (n : Nat) (rs : List Reg) (m m' : Machine) : Prop where
  regs : ∀ r, m'.reg r = m.reg r
  size : m'.memory.size = m.memory.size
  words : ∀ {i r}, rs[i]? = some r → m'.cell? (n + i) = some (m.reg r)
  others : ∀ {k}, k < n ∨ n + rs.length ≤ k → m'.cell? k = m.cell? k

theorem Stores.nil (n : Nat) (m : Machine) : Stores n [] m m :=
  ⟨fun _ => rfl, rfl, (nomatch ·), fun _ => rfl⟩

theorem performs_storeCode (base : Reg) (slot : Nat) (rs : List Reg) (formed : (m.reg base).toInt + slot = n)
    (inside : n + rs.length ≤ m.memory.size) :
    ∃ m', m.performs (storeCode base slot rs) = .ok m' ∧ Stores n rs m m' := by
  induction rs generalizing m slot n with
  | nil => exact ⟨m, rfl, .nil n m⟩
  | cons r rest ih =>
    rw [List.length_cons] at inside
    have done := effect_sw (r := r) formed (by omega)
    obtain ⟨m', done', stores⟩ := ih (m := m.store n (m.reg r)) (n := n + 1) (slot + 1)
      (by rw [reg_store, Nat.cast_add, ← Int.add_assoc, formed]; rfl) (by rw [size_store]; omega)
    refine ⟨m', (performs_cons done).trans done', stores.regs, stores.size.trans size_store,
      fun {i q} found => ?_, fun {k} outside => ?_⟩
    · cases i with
      | zero =>
        cases found
        exact (stores.others (.inl (Nat.lt_succ_self n))).trans (cell?_store_self (by omega))
      | succ i =>
        rw [List.getElem?_cons_succ] at found
        rw [Nat.add_comm i 1, ← Nat.add_assoc]
        exact stores.words found
    · rw [List.length_cons] at outside
      exact (stores.others (by omega)).trans (cell?_store_of_ne (by omega))

/-- A part of the code that writes registers writes the first of them. -/
theorem prefix_storeCode {part : List MachineInstr} (within : part <+: storeCode base slot rs) :
    ∃ k, part = storeCode base slot (rs.take k) := by
  induction rs generalizing slot part with
  | nil => exact ⟨0, List.prefix_nil.1 within⟩
  | cons r rest ih =>
    cases part with
    | nil => exact ⟨0, rfl⟩
    | cons i part =>
      rw [storeCode] at within
      obtain ⟨rfl, tail⟩ := List.cons_prefix_cons.1 within
      obtain ⟨k, rfl⟩ := ih tail
      exact ⟨k + 1, rfl⟩

/-- The code that loads registers from the words they were written to. -/
def loadCode (base : Reg) (saved : List (VarId × Reg × Nat)) : List MachineInstr :=
  saved.map fun s => .lw s.2.1 base s.2.2

/-- Registers that are loaded from words hold what the words do, and all others are left alone. -/
theorem performs_loadCode (base : Reg) (saved : List (VarId × Reg × Nat)) (place : Nat → Nat)
    (formed : ∀ s ∈ saved, (m.reg base).toInt + (s.2.2 : Nat) = place s.2.2)
    (inside : ∀ s ∈ saved, place s.2.2 < m.memory.size) (once : (saved.map fun s => s.2.1).Nodup)
    (apart : ∀ s ∈ saved, s.2.1 ≠ base ∧ s.2.1 ≠ Reg.zero) :
    ∃ m', m.performs (loadCode base saved) = .ok m' ∧ m'.memory = m.memory ∧
      (∀ s ∈ saved, m'.reg s.2.1 = (m.cell? (place s.2.2)).getD 0) ∧
      ∀ r, r ∉ saved.map (fun s => s.2.1) → m'.reg r = m.reg r := by
  induction saved generalizing m with
  | nil => exact ⟨m, rfl, rfl, nofun, fun _ _ => rfl⟩
  | cons s rest ih =>
    rw [List.map_cons, List.nodup_cons] at once
    have own := apart s List.mem_cons_self
    have done := effect_lw (r := s.2.1) (formed s List.mem_cons_self) (inside s List.mem_cons_self)
    obtain ⟨m', done', memory, loaded, others⟩ := ih (m := m.setReg s.2.1 ((m.cell? (place s.2.2)).getD 0))
      (fun t member => by rw [reg_setReg_of_ne _ _ own.1.symm]; exact formed t (.tail _ member))
      (fun t member => by rw [memory_setReg]; exact inside t (.tail _ member)) once.2
      fun t member => apart t (.tail _ member)
    refine ⟨m', (performs_cons done).trans done', memory.trans (memory_setReg ..), fun t member => ?_, fun r absent => ?_⟩
    · obtain rfl | member := List.mem_cons.1 member
      · exact (others _ once.1).trans (reg_setReg_self _ _ _ own.2)
      · exact (loaded t member).trans (by rw [cell?_of_memory (memory_setReg ..)])
    · rw [List.map_cons, List.mem_cons, not_or] at absent
      exact (others r absent.2).trans (reg_setReg_of_ne _ _ absent.1)

end Machine

/-! ### Named variables go home -/

/-- A variable as it is once registers are emptied for a call. -/
def Variable.GoneHome (v v' : Variable) : Prop :=
  v' = v ∨ v.isTemp = false ∧ v.memory?.isSome ∧ (∃ r, v.storage = .register r) ∧ v' = v.parted

theorem Variable.GoneHome.trans {u v v' : Variable} (first : u.GoneHome v) (second : v.GoneHome v') :
    u.GoneHome v' := by
  obtain rfl | ⟨isNamed, memory, there, rfl⟩ := first
  · exact second
  · obtain rfl | ⟨-, -, ⟨r, there'⟩, -⟩ := second
    · exact .inr ⟨isNamed, memory, there, rfl⟩
    · obtain ⟨home, memory⟩ := Option.isSome_iff_exists.1 memory
      cases (Allocator.parted_stands memory).symm.trans there'

/-- What is in a register once registers are emptied was in it before, and has not changed. -/
theorem Variable.GoneHome.in_register {v v' : Variable} {r : Reg} (gone : v.GoneHome v') (there : v'.storage = .register r) :
    v' = v := by
  obtain same | ⟨-, memory, -, rfl⟩ := gone
  · exact same
  · obtain ⟨home, memory⟩ := Option.isSome_iff_exists.1 memory
    cases (Allocator.parted_stands memory).symm.trans there

namespace Alloc

open Allocator Machine

variable {w w' mid : Work} {id : VarId} {r : Reg} {v : Variable}

/-- What is known about a named variable that goes home, and what is emitted for it. -/
theorem var?_goesHome {x : Unit} (found : w.allocator.var? id = some v) (there : v.storage = .register r)
    (wrote : (v.isDirty = true ∧ Ran (writeBack id r) w () mid) ∨ (v.isDirty = false ∧ mid = w))
    (parted : Ran (unbind id) mid x w') :
    (∀ other, w'.allocator.var? other = if other = id then some v.parted else w.allocator.var? other) ∧
      ∃ code, w'.code.toList = w.code.toList ++ code ∧ ∀ i ∈ code, ∃ r b o, i = .sw r b o := by
  have wrote' : ∃ u, mid.allocator.var? id = some u ∧ u.storage = .register r ∧ u.parted = v.parted ∧
      (∀ other, other ≠ id → mid.allocator.var? other = w.allocator.var? other) ∧
      ∃ code, mid.code.toList = w.code.toList ++ code ∧ ∀ i ∈ code, ∃ r b o, i = .sw r b o := by
    obtain ⟨-, wrote⟩ | ⟨-, rfl⟩ := wrote
    · obtain ⟨u, home, address, found', has, known, rfl⟩ := ran_writeBack.1 wrote
      cases found.symm.trans found'
      refine ⟨_, var?_setVar_self found _, there, rfl, fun _ other => var?_setVar_of_ne other,
        [.sw r address.base address.offset], Array.toList_push, fun i member => ?_⟩
      exact ⟨_, _, _, List.mem_singleton.1 member⟩
    · exact ⟨v, found, there, rfl, fun _ _ => rfl, [], (List.append_nil _).symm, nofun⟩
  obtain ⟨u, found', there', same, others, code, emitted, stores⟩ := wrote'
  obtain ⟨u', known, ⟨away, -⟩ | ⟨s, -, rfl⟩⟩ := ran_unbind.1 parted
  · cases found'.symm.trans known
    cases (congrArg Storage.register? there').symm.trans away
  · cases found'.symm.trans known
    refine ⟨fun other => (var?_unbound found' other).trans ?_, code, emitted, stores⟩
    split
    · rw [same]
    · next different => exact others other different

/-- What emptying registers leaves behind: stores only, every named variable in one of them at home, and the
temporaries in them listed. -/
structure Empties (rs : List Reg) (temps : List (VarId × Reg)) (w w' : Work) : Prop where
  leaves : Leaves rs temps w.allocator w'.allocator
  does : Does (fun _ => False) (fun _ => False) w w'
  stores : ∃ code, w'.code.toList = w.code.toList ++ code ∧ ∀ i ∈ code, ∃ r b o, i = .sw r b o
  vars : ∀ id, (w.allocator.var? id = none ∧ w'.allocator.var? id = none) ∨
    ∃ v v', w.allocator.var? id = some v ∧ w'.allocator.var? id = some v' ∧ v.GoneHome v'
  listed : ∀ {id v r}, r ∈ rs → w'.allocator.var? id = some v → v.storage = .register r →
    v.isTemp = true ∧ (id, r) ∈ temps

theorem goneHome_refl (w : Work) (id : VarId) : (w.allocator.var? id = none ∧ w.allocator.var? id = none) ∨
    ∃ v v', w.allocator.var? id = some v ∧ w.allocator.var? id = some v' ∧ v.GoneHome v' := by
  cases found : w.allocator.var? id with
  | none => exact .inl ⟨rfl, rfl⟩
  | some v => exact .inr ⟨v, v, rfl, rfl, .inl rfl⟩

theorem empties_one {x : Option (VarId × Reg)} (sound : Sound [] w.allocator)
    (ran : Ran (leaveForCall r) w x w') : Empties [r] x.toList w w' := by
  have leaves := leaves_one sound ran
  have quiet : ∃ code, w.code.toList = w.code.toList ++ code ∧ ∀ i ∈ code, ∃ (r b : Reg) (o : Int), i = .sw r b o :=
    ⟨[], (List.append_nil _).symm, nofun⟩
  obtain ⟨unowned, rfl, rfl⟩ | ⟨id, v, found, there, ⟨isTemp, rfl, rfl⟩ | ⟨isNamed, rfl, mid, wrote, parted⟩⟩ :=
    ran_leaveForCall sound.registers.toOwners ran
  · refine ⟨leaves, .refl _, quiet, goneHome_refl _, fun {i u s} here known place => ?_⟩
    rw [List.mem_singleton.1 here] at place
    have owned := sound.registers.owner.2 ⟨u, known, place⟩
    cases unowned.symm.trans owned
  · refine ⟨leaves, .refl _, quiet, goneHome_refl _, fun {i u s} here known place => ?_⟩
    rw [List.mem_singleton.1 here] at place ⊢
    obtain rfl := sound.registers.unique known place found there
    cases found.symm.trans known
    exact ⟨isTemp, List.mem_singleton.2 rfl⟩
  · obtain ⟨vars, stores⟩ := var?_goesHome found there wrote parted
    have memory := (sound.fits found).home isNamed
    refine ⟨leaves, does_goesHome sound found isNamed there wrote parted, stores, fun other => ?_,
      fun {i u s} here known place => ?_⟩
    · rw [vars]
      split
      · next same =>
        subst same
        exact .inr ⟨v, _, found, rfl, .inr ⟨isNamed, memory, ⟨r, there⟩, rfl⟩⟩
      · exact goneHome_refl w other
    · rw [List.mem_singleton.1 here] at place
      rw [vars] at known
      split at known
      · cases known
        obtain ⟨home, memory⟩ := Option.isSome_iff_exists.1 memory
        cases (parted_stands memory).symm.trans place
      · next different => exact (different (sound.registers.unique known place found there)).elim

theorem empties {rs : List Reg} {xs : List (Option (VarId × Reg))} (sound : Sound [] w.allocator)
    (once : rs.Nodup) (ran : Ran (rs.mapM leaveForCall) w xs w') :
    Empties rs (xs.filterMap fun x => x) w w' := by
  have all := leaves sound once ran
  induction rs generalizing w xs with
  | nil =>
    obtain ⟨rfl, rfl⟩ := ran_mapM_nil.1 ran
    exact ⟨all, .refl _, ⟨[], (List.append_nil _).symm, nofun⟩, goneHome_refl _, fun here => nomatch here⟩
  | cons r rs ih =>
    obtain ⟨x, mid, xs', first, second, rfl⟩ := ran_mapM_cons.1 ran
    rw [List.nodup_cons] at once
    have one := empties_one sound first
    have others := ih one.leaves.sound once.2 second (leaves one.leaves.sound once.2 second)
    have split : ((x :: xs').filterMap fun x => x) = x.toList ++ xs'.filterMap fun x => x := by
      cases x <;> rfl
    obtain ⟨code, emitted, stores⟩ := one.stores
    obtain ⟨more, emitted', stores'⟩ := others.stores
    refine ⟨all, one.does.trans others.does, ⟨code ++ more, by rw [emitted', emitted, List.append_assoc],
      List.forall_mem_append.2 ⟨stores, stores'⟩⟩, fun id => ?_, fun {id v s} here found there => ?_⟩
    · obtain ⟨absent, absent'⟩ | ⟨u, v, found, found', gone⟩ := one.vars id <;>
        obtain ⟨absent₂, absent₂'⟩ | ⟨u₂, v₂, found₂, found₂', gone₂⟩ := others.vars id
      · exact .inl ⟨absent, absent₂'⟩
      · cases absent'.symm.trans found₂
      · cases found'.symm.trans absent₂
      · cases found'.symm.trans found₂
        exact .inr ⟨u, v₂, found, found₂', gone.trans gone₂⟩
    · rw [split]
      obtain rfl | later := List.mem_cons.1 here
      · obtain ⟨-, absent⟩ | ⟨u, v', found', found₂, gone⟩ := others.vars id
        · cases found.symm.trans absent
        · cases found.symm.trans found₂
          cases gone.in_register there
          obtain ⟨isTemp, member⟩ := one.listed List.mem_cons_self found' there
          exact ⟨isTemp, List.mem_append.2 (.inl member)⟩
      · obtain ⟨isTemp, member⟩ := others.listed later found there
        exact ⟨isTemp, List.mem_append.2 (.inr member)⟩

/-! ### Temporaries are put aside -/

/-- What parking temporaries comes to. -/
theorem parks {saved : List (VarId × Reg × Nat)} {x : Unit} (once : (saved.map Prod.fst).Nodup)
    (ran : Ran (saved.forM park) w x w') :
    w'.code = w.code ∧
      (∀ s ∈ saved, ∃ v, w.allocator.var? s.1 = some v ∧
        w'.allocator.var? s.1 = some { v with storage := .saved s.2.2 }) ∧
      (∀ id, id ∉ saved.map Prod.fst → w'.allocator.var? id = w.allocator.var? id) ∧
      w'.allocator = { w.allocator with
        vars := w'.allocator.vars, owner := w'.allocator.owner, recency := w'.allocator.recency } := by
  induction saved generalizing w with
  | nil =>
    cases ran_forM_nil.1 ran
    exact ⟨rfl, nofun, fun _ _ => rfl, rfl⟩
  | cons s rest ih =>
    obtain ⟨mid, first, second⟩ := ran_forM_cons.1 ran
    obtain ⟨v, found, rfl⟩ := ran_park first
    rw [List.map_cons, List.nodup_cons] at once
    obtain ⟨code, waiting, others, same⟩ := ih once.2 second
    have vars := fun other => var?_setVar found { v with storage := .saved s.2.2 } other
    refine ⟨code, fun t member => ?_, fun id absent => ?_, same⟩
    · obtain rfl | member := List.mem_cons.1 member
      · exact ⟨v, found, (others _ once.1).trans ((vars _).trans (if_pos rfl))⟩
      · obtain ⟨u, found', known⟩ := waiting t member
        refine ⟨u, ?_, known⟩
        have different : t.1 ≠ s.1 := fun same => once.1 (same ▸ List.mem_map_of_mem member)
        exact ((vars t.1).trans (if_neg different)).symm.trans found'
    · rw [List.map_cons, List.mem_cons, not_or] at absent
      exact (others id absent.2).trans ((vars id).trans (if_neg absent.1))

end Alloc

namespace Allocator

open Machine

/-- The register and the number from which the words for temporaries are counted that are put aside. -/
def saveBase (a : Allocator) : Reg := if a.inFunction then Reg.stackPointer else Reg.zero

@[inherit_doc saveBase]
def saveSlot (a : Allocator) : Nat := if a.inFunction then 1 else a.globals

/-- By how much the stack is moved to put so many temporaries aside. -/
def saveWords (a : Allocator) (count : Nat) : Nat := if a.inFunction then count + 1 else 0

/-- The code that makes room on the stack inside of a function, and puts aside the address to return to. -/
def linkCode (a : Allocator) (count : Nat) : List MachineInstr :=
  if a.inFunction then
    [.addi Reg.stackPointer Reg.stackPointer (-((count + 1 : Nat) : Int)), .sw Reg.returnAddress Reg.stackPointer 0]
  else []

/-- The code that puts aside temporaries, and inside of a function the address to return to. -/
def savingCode (a : Allocator) (temps : List (VarId × Reg)) : List MachineInstr :=
  a.linkCode temps.length ++ storeCode a.saveBase a.saveSlot (temps.map Prod.snd)

end Allocator

namespace Alloc

open Allocator Machine

variable {w w' mid left : Work} {id : VarId} {r : Reg} {v : Variable} {temps : List (VarId × Reg)}

/-- What preparing for a call comes to, once registers are emptied. -/
structure Saves (temps : List (VarId × Reg)) (left w' : Work) : Prop where
  code : w'.code.toList = left.code.toList ++ left.allocator.savingCode temps
  parked : ∀ s ∈ slotted left.allocator.saveSlot temps, ∃ v, left.allocator.var? s.1 = some v ∧
    w'.allocator.var? s.1 = some { v with storage := .saved s.2.2 }
  others : ∀ id, id ∉ temps.map Prod.fst → w'.allocator.var? id = left.allocator.var? id
  rest : w'.allocator = { left.allocator with
    vars := w'.allocator.vars, owner := w'.allocator.owner, recency := w'.allocator.recency
    globals := left.allocator.globals + if left.allocator.inFunction then 0 else temps.length
    pushed := left.allocator.pushed + left.allocator.saveWords temps.length
    calls := ⟨slotted left.allocator.saveSlot temps, left.allocator.saveWords temps.length⟩ :: left.allocator.calls }

theorem saves {x : Unit} (sound : Sound [] w.allocator) (ran : Ran saveForCall w x w') :
    ∃ temps left, Empties Reg.all temps w left ∧ Saves temps left w' := by
  obtain ⟨xs, left, emptied, saved, words, stored, parked, saving, parking, rfl⟩ := ran_saveForCall ran
  have empty := empties sound Reg.nodup_all emptied
  refine ⟨_, left, empty, ?_⟩
  generalize (xs.filterMap fun x => x) = temps at saving empty
  have once := empty.leaves.once
  have stored' : saved = slotted left.allocator.saveSlot temps ∧
      stored.code.toList = left.code.toList ++ left.allocator.savingCode temps ∧
      words = left.allocator.saveWords temps.length ∧
      stored.allocator = { left.allocator with
        globals := left.allocator.globals + if left.allocator.inFunction then 0 else temps.length
        pushed := left.allocator.pushed + left.allocator.saveWords temps.length } := by
    unfold saveSlot savingCode linkCode saveWords saveBase saveSlot
    obtain ⟨inside, rfl, saving⟩ | ⟨outside, rfl, saving⟩ := saving
    · obtain ⟨rfl, same, code⟩ := saveOnStack_eq saving
      simp only [inside, if_true, true_and]
      refine ⟨?_, same⟩
      rw [code, code_push, Array.toList_push, code_on, code_push, Array.toList_push, List.append_assoc,
        List.append_assoc]
      rfl
    · obtain ⟨rfl, same, code⟩ := saveInGlobal_eq saving
      simp only [outside, Bool.false_eq_true, if_false, true_and]
      refine ⟨code, same.trans ?_⟩
      simp
  obtain ⟨rfl, code, rfl, same⟩ := stored'
  rw [← slotted_fst left.allocator.saveSlot] at once
  obtain ⟨quiet, waiting, others, rest⟩ := parks once parking
  have vars : ∀ id, stored.allocator.var? id = left.allocator.var? id := fun id => by
    rw [same]
    rfl
  refine ⟨(congrArg Array.toList quiet).trans code, fun s member => ?_, fun id absent => ?_, ?_⟩
  · obtain ⟨v, found, known⟩ := waiting s member
    exact ⟨v, (vars _).symm.trans found, known⟩
  · rw [← slotted_fst left.allocator.saveSlot] at absent
    exact (others id absent).trans (vars id)
  · rw [allocator_on, rest, same]

/-! ### Preparing for a call does not fail -/

/-- What is in a register can be stored in a home that was handed out. -/
theorem writeBack_runs {home : Home} (found : w.allocator.var? id = some v) (has : v.home = some home)
    (granted : w.allocator.Grants home) (r : Reg) :
    ∃ w', Ran (writeBack id r) w () w' ∧ w'.allocator = w.allocator.setVar id { v with isDirty := false } := by
  obtain ⟨address, known⟩ := address_of_grants granted
  exact ⟨_, ran_writeBack.2 ⟨v, home, address, found, has, known, rfl⟩, rfl⟩

/-- A named scalar can be written home. -/
theorem writeBack_succeeds (sound : Sound [] w.allocator) (found : w.allocator.var? id = some v)
    (isNamed : v.isTemp = false) (scalar : v.array = none) (r : Reg) :
    ∃ w', Ran (writeBack id r) w () w' ∧ w'.allocator = w.allocator.setVar id { v with isDirty := false } := by
  obtain ⟨home, has⟩ := Option.isSome_iff_exists.1 ((sound.fits found).home isNamed)
  rw [memory?_scalar scalar] at has
  exact writeBack_runs found has (sound.homes.granted found has) r

theorem unbind_succeeds (found : w.allocator.var? id = some v) : ∃ w', Ran (unbind id) w () w' := by
  cases there : v.storage.register? with
  | none => exact ⟨w, ran_unbind.2 ⟨v, found, .inl ⟨there, rfl⟩⟩⟩
  | some r =>
    cases storage : v.storage with
    | register s => exact ⟨_, ran_unbind.2 ⟨v, found, .inr ⟨s, storage, rfl⟩⟩⟩
    | memory home | saved slot =>
      rw [storage] at there
      cases there

/-- Named variables whose registers are newer than their homes are scalars. -/
def WritesScalars (a : Allocator) : Prop :=
  ∀ id v, a.var? id = some v → v.isTemp = false → v.isDirty = true → v.array = none

theorem leaveForCall_succeeds (sound : Sound [] w.allocator) (scalars : WritesScalars w.allocator) (r : Reg) :
    ∃ x w', Ran (leaveForCall r) w x w' := by
  cases owned : w.allocator.ownerOf r with
  | none =>
    refine ⟨none, w, ?_⟩
    simp only [leaveForCall, ran_bind, ran_look, and_assoc, exists_and_left, exists_eq_left, owned, ran_pure]
    exact ⟨trivial, trivial⟩
  | some id =>
    obtain ⟨v, found, there⟩ := sound.registers.owner.1 owned
    simp only [leaveForCall, ran_bind, ran_look, and_assoc, exists_and_left, exists_eq_left, owned, ran_known]
    cases isTemp : v.isTemp with
    | true =>
      refine ⟨some (id, r), w, v, found, ?_⟩
      simp only [there, Storage.register?, isTemp, if_true]
      exact ran_pure.2 ⟨rfl, rfl⟩
    | false =>
      cases dirty : v.isDirty with
      | true =>
        obtain ⟨mid, wrote, same⟩ := writeBack_succeeds sound found isTemp (scalars id v found isTemp dirty) r
        obtain ⟨w', parted⟩ := unbind_succeeds (w := mid) (by rw [same]; exact var?_setVar_self found _)
        refine ⟨none, w', v, found, ?_⟩
        simp only [there, Storage.register?, isTemp, dirty, Bool.false_eq_true, if_false, if_true, ran_bind, ran_pure]
        exact ⟨_, mid, wrote, _, w', parted, trivial, rfl⟩
      | false =>
        obtain ⟨w', parted⟩ := unbind_succeeds found
        refine ⟨none, w', v, found, ?_⟩
        simp only [there, Storage.register?, isTemp, dirty, Bool.false_eq_true, if_false, ran_bind, ran_pure]
        exact ⟨_, w', parted, trivial, rfl⟩

/-- Emptying registers fails for none of them. -/
theorem empties_succeeds (rs : List Reg) (sound : Sound [] w.allocator) (scalars : WritesScalars w.allocator) :
    ∃ xs w', Ran (rs.mapM leaveForCall) w xs w' := by
  induction rs generalizing w with
  | nil => exact ⟨[], w, ran_mapM_nil.2 ⟨rfl, rfl⟩⟩
  | cons r rest ih =>
    obtain ⟨x, mid, left⟩ := leaveForCall_succeeds sound scalars r
    have one := empties_one sound left
    have scalars' : WritesScalars mid.allocator := fun id v' known isNamed dirty => by
      obtain ⟨-, absent⟩ | ⟨u, u', found, known', rfl | ⟨-, -, -, rfl⟩⟩ := one.vars id
      · cases known.symm.trans absent
      · cases known.symm.trans known'
        exact scalars id _ found isNamed dirty
      · cases known.symm.trans known'
        cases dirty
    obtain ⟨xs, w', ran⟩ := ih one.leaves.sound scalars'
    exact ⟨x :: xs, w', ran_mapM_cons.2 ⟨x, mid, xs, left, ran, rfl⟩⟩

theorem saveOnStack_succeeds (slot : Nat) (temps : List (VarId × Reg)) (w : Work) :
    ∃ saved w', Ran (saveOnStack slot temps) w saved w' := by
  induction temps generalizing w slot with
  | nil => exact ⟨[], w, ran_pure.2 ⟨rfl, rfl⟩⟩
  | cons t rest ih =>
    obtain ⟨saved, w', ran⟩ := ih (slot + 1) (push (.sw t.2 Reg.stackPointer slot) w)
    refine ⟨(t.1, t.2, slot) :: saved, w', ?_⟩
    simp only [saveOnStack, ran_bind, ran_emit, ran_pure, exists_eq_left, exists_const]
    exact ⟨saved, w', ran, rfl, rfl⟩

theorem saveInGlobal_succeeds (temps : List (VarId × Reg)) (w : Work) :
    ∃ saved w', Ran (temps.mapM saveInGlobal) w saved w' := by
  induction temps generalizing w with
  | nil => exact ⟨[], w, ran_mapM_nil.2 ⟨rfl, rfl⟩⟩
  | cons t rest ih =>
    obtain ⟨s, mid, first⟩ : ∃ s mid, Ran (saveInGlobal t) w s mid := by
      simp only [saveInGlobal, ran_bind, ran_look, ran_change, ran_emit, ran_pure, and_assoc, exists_and_left,
        exists_eq_left, exists_const]
      exact ⟨_, rfl⟩
    obtain ⟨saved, w', ran⟩ := ih mid
    exact ⟨s :: saved, w', ran_mapM_cons.2 ⟨s, mid, saved, first, ran, rfl⟩⟩

theorem parks_succeeds {saved : List (VarId × Reg × Nat)} (known : ∀ s ∈ saved, ∃ v, w.allocator.var? s.1 = some v) :
    ∃ w', Ran (saved.forM park) w () w' := by
  induction saved generalizing w with
  | nil => exact ⟨w, ran_forM_nil.2 rfl⟩
  | cons s rest ih =>
    obtain ⟨v, found⟩ := known s List.mem_cons_self
    have first : Ran (park s) w () (on (fun a => a.parkedAt s.1 s.2.1 s.2.2 v) w) := by
      simp only [park, ran_bind, ran_setOwner, ran_change, ran_update, exists_eq_left, exists_const]
      exact ⟨v, found, rfl⟩
    have vars := var?_setVar found { v with storage := .saved s.2.2 }
    obtain ⟨w', ran⟩ := ih (w := on (fun a => a.parkedAt s.1 s.2.1 s.2.2 v) w) fun t member => by
      obtain ⟨u, found'⟩ := known t (.tail _ member)
      by_cases same : t.1 = s.1
      · exact ⟨_, (vars t.1).trans (if_pos same)⟩
      · exact ⟨u, (vars t.1).trans ((if_neg same).trans found')⟩
    exact ⟨w', ran_forM_cons.2 ⟨_, first, ran⟩⟩

/-- Preparing for a call never fails. -/
theorem saveForCall_succeeds (sound : Sound [] w.allocator) (scalars : WritesScalars w.allocator) :
    ∃ w', Ran saveForCall w () w' := by
  obtain ⟨xs, left, emptied⟩ := empties_succeeds Reg.all sound scalars
  have leaves := (empties sound Reg.nodup_all emptied).leaves
  have known : ∀ {slot : Nat} {a : Allocator}, (∀ id, a.var? id = left.allocator.var? id) →
      ∀ s ∈ slotted slot (xs.filterMap fun x => x), ∃ v, a.var? s.1 = some v := by
    intro slot a same s member
    obtain ⟨i, at_, -⟩ := mem_slotted.1 member
    obtain ⟨v, found, isTemp, -⟩ := leaves.there _ (List.mem_of_getElem? at_)
    exact ⟨v, (same _).trans ((leaves.same isTemp).2 found)⟩
  simp only [saveForCall, ran_bind, ran_look, ran_ite, ran_emit, pushWords, ran_change, ran_pure, and_assoc,
    exists_and_left, exists_eq_left, exists_const]
  cases inside : left.allocator.inFunction with
  | true =>
    obtain ⟨saved, stored, saving⟩ := saveOnStack_succeeds 1 (xs.filterMap fun x => x)
      (push (.sw Reg.returnAddress Reg.stackPointer 0)
        (on (fun a => { a with pushed := a.pushed + ((xs.filterMap fun x => x).length + 1 : Nat) })
          (push (.addi Reg.stackPointer Reg.stackPointer (-((xs.filterMap fun x => x).length + 1 : Nat))) left)))
    obtain ⟨rfl, same, -⟩ := saveOnStack_eq saving
    obtain ⟨parked, parking⟩ := parks_succeeds (w := stored) (known fun id => by rw [same]; rfl)
    exact ⟨_, xs, left, emptied, .inl ⟨inside, _, stored, saving, (), parked, parking, rfl⟩⟩
  | false =>
    obtain ⟨saved, stored, saving⟩ := saveInGlobal_succeeds (xs.filterMap fun x => x) left
    obtain ⟨rfl, same, -⟩ := saveInGlobal_eq saving
    obtain ⟨parked, parking⟩ := parks_succeeds (w := stored) (known fun id => by rw [same]; rfl)
    exact ⟨_, xs, left, emptied, .inr ⟨by simp [inside], _, stored, saving, (), parked, parking, rfl⟩⟩

/-! ### Temporaries come back -/

/-- Temporaries that wait come back, whatever happened to the machine meanwhile. -/
theorem unparks (base : Reg) {saved : List (VarId × Reg × Nat)} (once : (saved.map Prod.fst).Nodup)
    (known : ∀ s ∈ saved, ∃ v, w.allocator.var? s.1 = some v) :
    ∃ w', Ran (saved.forM (unpark base)) w () w' ∧ w'.code.toList = w.code.toList ++ loadCode base saved ∧
      (∀ s ∈ saved, ∀ v, w.allocator.var? s.1 = some v →
        w'.allocator.var? s.1 = some { v with storage := .register s.2.1 }) ∧
      (∀ id, id ∉ saved.map Prod.fst → w'.allocator.var? id = w.allocator.var? id) ∧
      w'.allocator = { w.allocator with
        vars := w'.allocator.vars, owner := w'.allocator.owner, recency := w'.allocator.recency
        held := w'.allocator.held } := by
  induction saved generalizing w with
  | nil => exact ⟨w, ran_forM_nil.2 rfl, (List.append_nil _).symm, nofun, fun _ _ => rfl, rfl⟩
  | cons s rest ih =>
    rw [List.map_cons, List.nodup_cons] at once
    obtain ⟨v, found⟩ := known s List.mem_cons_self
    have vars := var?_bound (r := s.2.1) (v := v) found
    obtain ⟨w', ran, code, back, others, same⟩ := ih
      (w := on (fun a => a.bound s.1 s.2.1 v) (push (.lw s.2.1 base s.2.2) w)) once.2 fun t member => by
        obtain ⟨u, found'⟩ := known t (.tail _ member)
        have different : t.1 ≠ s.1 := fun same => once.1 (same ▸ List.mem_map_of_mem member)
        exact ⟨u, (vars t.1).trans ((if_neg different).trans found')⟩
    refine ⟨w', ran_forM_cons.2 ⟨_, ?_, ran⟩, ?_, fun t member u found' => ?_, fun id absent => ?_, same⟩
    · simp only [unpark, ran_bind, ran_emit, exists_eq_left, exists_const]
      exact ran_bindTo.2 ⟨v, found, rfl⟩
    · rw [code, code_on, code_push, Array.toList_push, List.append_assoc]
      rfl
    · obtain rfl | member := List.mem_cons.1 member
      · cases found.symm.trans found'
        exact (others _ once.1).trans ((vars _).trans (if_pos rfl))
      · have different : t.1 ≠ s.1 := fun same => once.1 (same ▸ List.mem_map_of_mem member)
        exact back t member u ((vars t.1).trans ((if_neg different).trans found'))
    · rw [List.map_cons, List.mem_cons, not_or] at absent
      exact (others id absent.2).trans ((vars id).trans (if_neg absent.1))

/-- The code that brings back what was put aside. -/
def restoringCode (save : CallSave) : List MachineInstr :=
  loadCode (if save.words = 0 then Reg.zero else Reg.stackPointer) save.saved ++
    if save.words = 0 then []
    else [.lw Reg.returnAddress Reg.stackPointer 0, .addi Reg.stackPointer Reg.stackPointer save.words]

/-- What was put aside for the innermost call comes back. -/
theorem restores {save : CallSave} {calls : List CallSave} (pending : w.allocator.calls = save :: calls)
    (once : (save.saved.map Prod.fst).Nodup) (known : ∀ s ∈ save.saved, ∃ v, w.allocator.var? s.1 = some v) :
    ∃ w', Ran restoreAfterCall w () w' ∧ w'.code.toList = w.code.toList ++ restoringCode save ∧
      (∀ s ∈ save.saved, ∀ v, w.allocator.var? s.1 = some v →
        w'.allocator.var? s.1 = some { v with storage := .register s.2.1 }) ∧
      (∀ id, id ∉ save.saved.map Prod.fst → w'.allocator.var? id = w.allocator.var? id) ∧
      w'.allocator = { w.allocator with
        vars := w'.allocator.vars, owner := w'.allocator.owner, recency := w'.allocator.recency
        held := w'.allocator.held, calls, pushed := w.allocator.pushed - (save.words : Int) } := by
  obtain ⟨back, ran, code, returned, others, same⟩ :=
    unparks (w := on (fun a => { a with calls }) w) (if save.words = 0 then Reg.zero else Reg.stackPointer) once known
  by_cases none : save.words = 0
  · refine ⟨back, ?_, ?_, returned, others, ?_⟩
    · simp only [restoreAfterCall, ran_bind, ran_look, and_assoc, exists_and_left, exists_eq_left, pending, ran_change,
        exists_const]
      refine ⟨_, back, ran, ?_⟩
      simp [none]
    · rw [code, restoringCode, if_pos none, if_pos none, List.append_nil]
      rfl
    · rw [same, none]
      simp
  · refine ⟨on (fun a => { a with pushed := a.pushed - (save.words : Int) })
      (push (.addi Reg.stackPointer Reg.stackPointer save.words)
        (push (.lw Reg.returnAddress Reg.stackPointer 0) back)), ?_, ?_, returned, others, ?_⟩
    · simp only [restoreAfterCall, ran_bind, ran_look, and_assoc, exists_and_left, exists_eq_left, pending, ran_change,
        exists_const]
      refine ⟨_, back, ran, ?_⟩
      simp [none, popWords]
    · rw [code_on, code_push, code_push, Array.toList_push, Array.toList_push, code, restoringCode, if_neg none,
        if_neg none]
      simp [List.append_assoc]
    · rw [allocator_on, allocator_push, allocator_push, same]
      rfl

end Alloc

end SmallC
