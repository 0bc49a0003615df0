import SmallC.Proofs.Allocation.Functions

/-!
Pending calls. The registers of temporaries that wait for a call to return are parked: they are in no
other place until the temporaries come back to them.
-/
namespace SmallC

namespace Allocator

variable {a a' : Allocator} {id : VarId} {v : Variable} {r : Reg} {hand : List Reg}

/-- The temporaries that a pending call put aside wait where it put them. -/
structure Waits (save : CallSave) (a : Allocator) : Prop where
  once : (save.saved.map Prod.fst).Nodup
  there : ∀ s ∈ save.saved, ∃ v, a.var? s.1 = some v ∧ v.storage = .saved s.2.2

theorem Sound.of_perm {hand' : List Reg} (sound : Sound hand a) (same : hand.Perm hand') :
    Sound hand' a :=
  ⟨⟨sound.registers.of_perm same, sound.names, sound.homes, sound.fits⟩, sound.body⟩

/-- A temporary leaves its register to wait for a call to return. -/
theorem Sound.park (sound : Sound hand a) (found : a.var? id = some v) (isTemp : v.isTemp = true)
    (there : v.storage = .register r) (slot : Nat) :
    Sound (r :: hand) (a.parkedAt id r slot v) := by
  refine ⟨⟨sound.registers.park found there slot, ?_, ?_, fun {i u} known => ?_⟩,
    sound.body.congr rfl rfl rfl⟩
  · exact (sound.names.setVar found { v with storage := .saved slot } rfl rfl rfl).congr
      (fun _ => rfl) rfl rfl fun _ => rfl
  · have homes := sound.homes.setVar found { v with storage := .saved slot } rfl rfl rfl
    exact ⟨homes.granted, homes.apart, homes.root⟩
  · have known' := (var?_setVar found { v with storage := .saved slot } i).symm.trans known
    split at known'
    · cases known'
      refine ⟨nofun, ?_, ?_, ?_, nofun⟩ <;>
      · intro isNamed
        cases isTemp.symm.trans isNamed
    · exact sound.fits known'

end Allocator

namespace Machine

/-- The code that writes registers to consecutive words. -/
def storeCode (base : Reg) (slot : Nat) : List Reg → List MachineInstr
  | [] => []
  | r :: rest => .sw r base slot :: storeCode base (slot + 1) rest

theorem mem_storeCode {base : Reg} {slot : Nat} {rs : List Reg} {i : MachineInstr}
    (member : i ∈ storeCode base slot rs) :
    ∃ (r : Reg) (x : Nat), slot ≤ x ∧ x < slot + rs.length ∧ i = .sw r base (x : Int) := by
  induction rs generalizing slot with
  | nil => cases member
  | cons r rest ih =>
    rw [List.length_cons]
    rcases List.mem_cons.1 member with rfl | later
    · exact ⟨r, slot, Nat.le_refl _, by omega, rfl⟩
    · obtain ⟨r', x, above, below, rfl⟩ := ih later
      exact ⟨r', x, by omega, by omega, rfl⟩

end Machine

namespace Alloc

open Allocator Machine

variable {w w' : Work} {id : VarId} {r : Reg} {hand : List Reg}

/-- What emptying a register before a call comes to, whether or not its owner is in it. -/
theorem ran_leaveForCall_any {x : Option (VarId × Reg)} (ran : Ran (leaveForCall r) w x w') :
    ((∀ id v s, w.allocator.ownerOf r = some id → w.allocator.var? id = some v → v.storage ≠ .register s) ∧
        x = none ∧ w' = w) ∨
      ∃ id v s, w.allocator.ownerOf r = some id ∧ w.allocator.var? id = some v ∧ v.storage = .register s ∧
        ((v.isTemp = true ∧ x = some (id, s) ∧ w' = w) ∨
          (v.isTemp = false ∧ x = none ∧ ∃ mid,
            ((v.isDirty = true ∧ Ran (writeBack id s) w () mid) ∨
              (v.isDirty = false ∧ mid = w)) ∧ Ran (unbind id) mid () w')) := by
  simp only [leaveForCall, ran_bind, ran_look, and_assoc, exists_and_left, exists_eq_left] at ran
  cases owned : w.allocator.ownerOf r with
  | none =>
    simp only [owned, ran_pure] at ran
    refine .inl ⟨fun _ _ _ same => ?_, ran⟩
    cases same
  | some id =>
    simp only [owned, ran_bind, ran_known, and_assoc, exists_and_left, exists_eq_left] at ran
    obtain ⟨v, found, ran⟩ := ran
    rcases v.storage.in_register with ⟨s, there⟩ | away
    · simp only [there, Storage.register?, ran_ite, ran_bind, ran_pure] at ran
      rcases ran with ⟨isTemp, rfl, rfl⟩ | ⟨isNamed, ⟨dirty, _, mid, wrote, _, _, parted, rfl, rfl⟩ |
        ⟨clean, _, _, parted, rfl, rfl⟩⟩
      · exact .inr ⟨id, v, s, rfl, found, there, .inl ⟨isTemp, rfl, rfl⟩⟩
      · exact .inr ⟨id, v, s, rfl, found, there, .inr ⟨eq_false_of_ne_true isNamed, rfl, mid,
          .inl ⟨dirty, wrote⟩, parted⟩⟩
      · exact .inr ⟨id, v, s, rfl, found, there, .inr ⟨eq_false_of_ne_true isNamed, rfl, w,
          .inr ⟨eq_false_of_ne_true clean, rfl⟩, parted⟩⟩
    · simp only [away, ran_pure] at ran
      refine .inl ⟨fun i u s same known there => ?_, ran⟩
      cases same
      cases found.symm.trans known
      rw [there] at away
      cases away

/-- What emptying a register before a call comes to. -/
theorem ran_leaveForCall {x : Option (VarId × Reg)} (owners : Owners w.allocator)
    (ran : Ran (leaveForCall r) w x w') :
    (w.allocator.ownerOf r = none ∧ x = none ∧ w' = w) ∨
      ∃ id v, w.allocator.var? id = some v ∧ v.storage = .register r ∧
        ((v.isTemp = true ∧ x = some (id, r) ∧ w' = w) ∨
          (v.isTemp = false ∧ x = none ∧ ∃ mid,
            ((v.isDirty = true ∧ Ran (writeBack id r) w () mid) ∨
              (v.isDirty = false ∧ mid = w)) ∧ Ran (unbind id) mid () w')) := by
  obtain ⟨empty, rest⟩ | ⟨id, v, s, owned, found, there, left⟩ := ran_leaveForCall_any ran
  · refine .inl ⟨?_, rest⟩
    cases owned : w.allocator.ownerOf r with
    | none => rfl
    | some id =>
      obtain ⟨v, found, there⟩ := owners.owner.1 owned
      exact absurd there (empty id v r owned found)
  · cases owners.same_register (owners.owner.2 ⟨v, found, there⟩) owned
    exact .inr ⟨id, v, found, there, left⟩

/-- A named variable that goes home leaves temporaries as they are. -/
theorem goesHome_temps {v u : Variable} {mid : Work} {other : VarId}
    (found : w.allocator.var? id = some v) (isNamed : v.isTemp = false)
    (wrote : (v.isDirty = true ∧ Ran (writeBack id r) w () mid) ∨ (v.isDirty = false ∧ mid = w))
    (parted : Ran (unbind id) mid () w') (isTemp : u.isTemp = true) :
    w'.allocator.var? other = some u ↔ w.allocator.var? other = some u := by
  by_cases here : other = id
  · subst here
    constructor
    · intro known
      have keeps : Keeps w.allocator mid.allocator := by
        rcases wrote with ⟨-, wrote⟩ | ⟨-, rfl⟩
        · exact writeBack_keeps wrote
        · exact .refl _
      obtain ⟨v', found', same⟩ := keeps.same found
      obtain ⟨v'', found'', ⟨-, rfl⟩ | ⟨s, -, rfl⟩⟩ := ran_unbind.1 parted
      · cases found'.symm.trans known
        cases isTemp.symm.trans (same.isTemp.trans isNamed)
      · cases found'.symm.trans found''
        rw [allocator_on, var?_unbound found', if_pos rfl] at known
        cases known
        have isTemp' : v'.isTemp = true := isTemp
        cases isTemp'.symm.trans (same.isTemp.trans isNamed)
    · intro known
      cases found.symm.trans known
      cases isNamed.symm.trans isTemp
  · rw [unbind_only parted other here]
    rcases wrote with ⟨-, wrote⟩ | ⟨-, rfl⟩
    · rw [writeBack_only wrote other here]
    · rfl

/-- What emptying registers before a call leaves behind: the temporaries that are to be put aside are
those that were in the registers, and no temporary has changed. -/
structure Leaves (rs : List Reg) (temps : List (VarId × Reg)) (a a' : Allocator) : Prop where
  sound : Sound [] a'
  calls : a'.calls = a.calls
  within : ∀ t ∈ temps, t.2 ∈ rs
  there : ∀ t ∈ temps, ∃ v, a.var? t.1 = some v ∧ v.isTemp = true ∧ v.storage = .register t.2
  once : (temps.map Prod.fst).Nodup
  same : ∀ {id v}, v.isTemp = true → (a'.var? id = some v ↔ a.var? id = some v)

theorem leaves_one {x : Option (VarId × Reg)} (sound : Sound [] w.allocator)
    (ran : Ran (leaveForCall r) w x w') : Leaves [r] x.toList w.allocator w'.allocator := by
  obtain ⟨-, rfl, rfl⟩ | ⟨id, v, found, there, ⟨isTemp, rfl, rfl⟩ |
    ⟨isNamed, rfl, mid, wrote, parted⟩⟩ := ran_leaveForCall sound.registers.toOwners ran
  · exact ⟨sound, rfl, nofun, nofun, List.nodup_nil, fun _ => Iff.rfl⟩
  · refine ⟨sound, rfl, ?_, ?_, List.nodup_singleton _, fun _ => Iff.rfl⟩
    · intro t member
      rw [List.mem_singleton.1 member]
      exact List.mem_singleton_self r
    · intro t member
      rw [List.mem_singleton.1 member]
      exact ⟨v, found, isTemp, there⟩
  · obtain ⟨sound', calls⟩ := goesHome_sound sound found isNamed there wrote parted
    exact ⟨sound', calls, nofun, nofun, List.nodup_nil,
      fun isTemp => goesHome_temps found isNamed wrote parted isTemp⟩

theorem leaves {rs : List Reg} {xs : List (Option (VarId × Reg))} (sound : Sound [] w.allocator)
    (once : rs.Nodup) (ran : Ran (rs.mapM leaveForCall) w xs w') :
    Leaves rs (xs.filterMap fun x => x) w.allocator w'.allocator := by
  induction rs generalizing w xs with
  | nil =>
    obtain ⟨rfl, rfl⟩ := ran_mapM_nil.1 ran
    exact ⟨sound, rfl, nofun, nofun, List.nodup_nil, fun _ => Iff.rfl⟩
  | cons r rs ih =>
    obtain ⟨x, mid, xs', first, second, rfl⟩ := ran_mapM_cons.1 ran
    rw [List.nodup_cons] at once
    have one := leaves_one sound first
    have others := ih one.sound once.2 second
    have split : ((x :: xs').filterMap fun x => x) = x.toList ++ xs'.filterMap fun x => x := by
      cases x <;> rfl
    have there : ∀ t ∈ xs'.filterMap fun x => x,
        ∃ v, w.allocator.var? t.1 = some v ∧ v.isTemp = true ∧ v.storage = .register t.2 := by
      intro t member
      obtain ⟨v, found, isTemp, there⟩ := others.there t member
      exact ⟨v, (one.same isTemp).1 found, isTemp, there⟩
    rw [split]
    refine ⟨others.sound, others.calls.trans one.calls, fun t member => ?_, fun t member => ?_, ?_,
      fun isTemp => (others.same isTemp).trans (one.same isTemp)⟩
    · rcases List.mem_append.1 member with here | later
      · rw [List.mem_singleton.1 (one.within t here)]
        exact List.mem_cons_self
      · exact List.mem_cons_of_mem r (others.within t later)
    · rcases List.mem_append.1 member with here | later
      · exact one.there t here
      · exact there t later
    · -- A temporary further on is in another register, so it is another one.
      rw [List.map_append, List.nodup_append]
      refine ⟨one.once, others.once, fun i here j later same => ?_⟩
      obtain ⟨t, member, rfl⟩ := List.mem_map.1 here
      obtain ⟨u, member', rfl⟩ := List.mem_map.1 later
      obtain ⟨v, found, -, place⟩ := one.there t member
      obtain ⟨v', found', -, place'⟩ := there u member'
      rw [same] at found
      cases found.symm.trans found'
      have elsewhere := others.within u member'
      rw [← Storage.register.inj (place.symm.trans place'),
        List.mem_singleton.1 (one.within t member)] at elsewhere
      exact once.1 elsewhere

/-- Temporaries with the words they are written to, from the given one on. -/
def slotted (slot : Nat) : List (VarId × Reg) → List (VarId × Reg × Nat)
  | [] => []
  | t :: rest => (t.1, t.2, slot) :: slotted (slot + 1) rest

theorem slotted_fst (slot : Nat) (temps : List (VarId × Reg)) :
    (slotted slot temps).map Prod.fst = temps.map Prod.fst := by
  induction temps generalizing slot with
  | nil => rfl
  | cons t rest ih => exact congrArg _ (ih _)

theorem slotted_reg (slot : Nat) (temps : List (VarId × Reg)) :
    ((slotted slot temps).map fun s => s.2.1) = temps.map Prod.snd := by
  induction temps generalizing slot with
  | nil => rfl
  | cons t rest ih => exact congrArg _ (ih _)

theorem mem_slotted {slot : Nat} {temps : List (VarId × Reg)} {s : VarId × Reg × Nat} :
    s ∈ slotted slot temps ↔ ∃ i, temps[i]? = some (s.1, s.2.1) ∧ s.2.2 = slot + i := by
  induction temps generalizing slot with
  | nil => simp [slotted]
  | cons t rest ih =>
    rw [slotted, List.mem_cons, ih]
    constructor
    · rintro (rfl | ⟨i, found, at_⟩)
      · exact ⟨0, rfl, rfl⟩
      · exact ⟨i + 1, found, by omega⟩
    · rintro ⟨i, found, at_⟩
      cases i with
      | zero =>
        cases found
        exact .inl (Prod.ext rfl (Prod.ext rfl at_))
      | succ i => exact .inr ⟨i, found, by omega⟩

theorem saveOnStack_eq {temps : List (VarId × Reg)} {slot : Nat} {saved : List (VarId × Reg × Nat)}
    (ran : Ran (saveOnStack slot temps) w saved w') :
    saved = slotted slot temps ∧ w'.allocator = w.allocator ∧
      w'.code.toList = w.code.toList ++ storeCode Reg.stackPointer slot (temps.map Prod.snd) := by
  induction temps generalizing w slot saved with
  | nil =>
    obtain ⟨rfl, rfl⟩ := ran_pure.1 ran
    exact ⟨rfl, rfl, (List.append_nil _).symm⟩
  | cons t rest ih =>
    simp only [saveOnStack, ran_bind, ran_emit, ran_pure, exists_eq_left, exists_const] at ran
    obtain ⟨saved', last, ran, rfl, rfl⟩ := ran
    obtain ⟨rfl, same, code⟩ := ih ran
    refine ⟨rfl, same, ?_⟩
    rw [code, code_push, Array.toList_push, List.append_assoc]
    rfl

theorem saveInGlobal_eq {temps : List (VarId × Reg)} {saved : List (VarId × Reg × Nat)}
    (ran : Ran (temps.mapM saveInGlobal) w saved w') :
    saved = slotted w.allocator.globals temps ∧
      w'.allocator = { w.allocator with globals := w.allocator.globals + temps.length } ∧
      w'.code.toList = w.code.toList ++ storeCode Reg.zero w.allocator.globals (temps.map Prod.snd) := by
  induction temps generalizing w saved with
  | nil =>
    obtain ⟨rfl, rfl⟩ := ran_mapM_nil.1 ran
    exact ⟨rfl, rfl, (List.append_nil _).symm⟩
  | cons t rest ih =>
    obtain ⟨s, mid, saved', first, second, rfl⟩ := ran_mapM_cons.1 ran
    simp only [saveInGlobal, ran_bind, ran_look, ran_change, ran_emit, ran_pure, and_assoc,
      exists_and_left, exists_eq_left, exists_const] at first
    obtain ⟨rfl, rfl⟩ := first
    obtain ⟨rfl, same, code⟩ := ih second
    refine ⟨rfl, same.trans ?_, ?_⟩
    · rw [allocator_push, allocator_on, List.length_cons, Nat.add_comm rest.length, ← Nat.add_assoc]
    · rw [code, code_push, Array.toList_push, List.append_assoc]
      rfl

theorem slotted_temps (slot : Nat) (temps : List (VarId × Reg)) :
    ((slotted slot temps).map fun s => (s.1, s.2.1)) = temps := by
  induction temps generalizing slot with
  | nil => rfl
  | cons t rest ih => exact congrArg _ (ih _)

theorem slotted_slots (slot : Nat) (temps : List (VarId × Reg)) :
    ((slotted slot temps).map fun s => s.2.2) = List.range' slot temps.length := by
  induction temps generalizing slot with
  | nil => rfl
  | cons t rest ih => exact congrArg _ (ih _)

/-- Slots of the save area on the stack are given out in order, which is all about code. -/
theorem ran_saveOnStack {temps : List (VarId × Reg)} {slot : Nat} {saved : List (VarId × Reg × Nat)}
    (ran : Ran (saveOnStack slot temps) w saved w') :
    w'.allocator = w.allocator ∧ (saved.map fun s => (s.1, s.2.1)) = temps := by
  obtain ⟨rfl, same, -⟩ := saveOnStack_eq ran
  exact ⟨same, slotted_temps slot temps⟩

/-- At top level, fresh words of global memory make up the save area. -/
theorem ran_saveInGlobal {temps : List (VarId × Reg)} {saved : List (VarId × Reg × Nat)}
    (ran : Ran (temps.mapM saveInGlobal) w saved w') :
    (saved.map fun s => (s.1, s.2.1)) = temps ∧
      w'.allocator = { w.allocator with globals := w.allocator.globals + temps.length } := by
  obtain ⟨rfl, same, -⟩ := saveInGlobal_eq ran
  exact ⟨slotted_temps _ temps, same⟩

theorem saveInGlobal_sound {temps : List (VarId × Reg)} {saved : List (VarId × Reg × Nat)}
    (sound : Sound hand w.allocator) (outside : w.allocator.frame = none)
    (ran : Ran (temps.mapM saveInGlobal) w saved w') :
    Sound hand w'.allocator ∧ (saved.map fun s => (s.1, s.2.1)) = temps ∧
      ∃ globals, w'.allocator = { w.allocator with globals } := by
  obtain ⟨temps', same⟩ := ran_saveInGlobal ran
  have grown : w'.allocator = w.allocator.grown temps.length := by
    rw [same]
    simp [Allocator.grown, outside]
  exact ⟨grown ▸ sound.grown temps.length, temps', _, same⟩

theorem ran_park {saved : VarId × Reg × Nat} {x : Unit} (ran : Ran (park saved) w x w') :
    ∃ v, w.allocator.var? saved.1 = some v ∧
      w' = on (fun a => a.parkedAt saved.1 saved.2.1 saved.2.2 v) w := by
  simp only [park, ran_bind, ran_setOwner, ran_change, ran_update, exists_eq_left,
    exists_const] at ran
  obtain ⟨v, found, rfl⟩ := ran
  exact ⟨v, found, rfl⟩

theorem parkAll_sound {saved : List (VarId × Reg × Nat)} {x : Unit} (sound : Sound hand w.allocator)
    (once : (saved.map Prod.fst).Nodup)
    (there : ∀ s ∈ saved, ∃ v, w.allocator.var? s.1 = some v ∧ v.isTemp = true ∧
      v.storage = .register s.2.1)
    (ran : Ran (saved.forM park) w x w') :
    Sound ((saved.map fun s => s.2.1) ++ hand) w'.allocator ∧
      (∀ s ∈ saved, ∃ v, w'.allocator.var? s.1 = some v ∧ v.storage = .saved s.2.2) ∧
      (∀ id, id ∉ saved.map Prod.fst → w'.allocator.var? id = w.allocator.var? id) ∧
      w'.allocator.calls = w.allocator.calls := by
  induction saved generalizing w hand with
  | nil =>
    rw [ran_forM_nil.1 ran]
    exact ⟨sound, nofun, fun _ _ => rfl, rfl⟩
  | cons s rest ih =>
    obtain ⟨mid, first, second⟩ := ran_forM_cons.1 ran
    obtain ⟨v, found, rfl⟩ := ran_park first
    obtain ⟨v', found', isTemp, place⟩ := there s List.mem_cons_self
    cases found.symm.trans found'
    rw [List.map_cons, List.nodup_cons] at once
    have vars : ∀ other, (w.allocator.parkedAt s.1 s.2.1 s.2.2 v).var? other =
        if other = s.1 then some { v with storage := .saved s.2.2 } else w.allocator.var? other :=
      fun other => var?_setVar found _ other
    have later : ∀ t ∈ rest, t.1 ≠ s.1 := fun t member same =>
      once.1 (same ▸ List.mem_map.2 ⟨t, member, rfl⟩)
    have there' : ∀ t ∈ rest, ∃ u, (w.allocator.parkedAt s.1 s.2.1 s.2.2 v).var? t.1 = some u ∧
        u.isTemp = true ∧ u.storage = .register t.2.1 := by
      intro t member
      obtain ⟨u, known, isTemp', place'⟩ := there t (List.mem_cons_of_mem s member)
      exact ⟨u, (vars t.1).trans ((if_neg (later t member)).trans known), isTemp', place'⟩
    obtain ⟨sound', saved', others, calls⟩ := ih
      (w := on (fun a => a.parkedAt s.1 s.2.1 s.2.2 v) w) (sound.park found isTemp place s.2.2)
      once.2 there' second
    refine ⟨sound'.of_perm List.perm_middle, fun t member => ?_, fun other absent => ?_, calls⟩
    · rcases List.mem_cons.1 member with rfl | member
      · exact ⟨_, (others t.1 once.1).trans ((vars t.1).trans (if_pos rfl)), rfl⟩
      · exact saved' t member
    · rw [List.map_cons, List.mem_cons, not_or] at absent
      exact (others other absent.2).trans ((vars other).trans (if_neg absent.1))

/-- The state in which a call is pending. -/
theorem pending_sound {saved : List (VarId × Reg × Nat)} {words : Nat} {x : Unit}
    (sound : Sound [] w.allocator) (idle : w.allocator.calls = [])
    (once : (saved.map Prod.fst).Nodup)
    (there : ∀ s ∈ saved, ∃ v, w.allocator.var? s.1 = some v ∧ v.isTemp = true ∧
      v.storage = .register s.2.1)
    (ran : Ran (saved.forM park) w x w') :
    Sound [] { w'.allocator with calls := ⟨saved, words⟩ :: w'.allocator.calls } ∧
      ∃ save, (⟨saved, words⟩ :: w'.allocator.calls : List CallSave) = [save] ∧
        Waits save { w'.allocator with calls := ⟨saved, words⟩ :: w'.allocator.calls } := by
  obtain ⟨sound', saved', -, calls⟩ := parkAll_sound sound once there ran
  rw [idle] at calls
  rw [List.append_nil] at sound'
  refine ⟨sound'.of_registers ?_ rfl, ⟨saved, words⟩, by rw [calls], once, saved'⟩
  refine sound'.registers.of_same_places ⟨sound'.registers.owner, sound'.registers.recent⟩
    (fun s => ?_) (fun _ => sound'.registers.freePool) (fun _ => sound'.registers.reservedPool)
  simp only [places, parked, calls, List.flatMap_cons, List.flatMap_nil, List.append_nil,
    List.count_nil]
  exact Nat.add_right_comm _ _ _

/-- What preparing for a call comes to: registers are emptied, the temporaries in them are written to a
save area, and they wait there. -/
theorem ran_saveForCall {x : Unit} (ran : Ran saveForCall w x w') :
    ∃ xs left, Ran (Reg.all.mapM leaveForCall) w xs left ∧ ∃ saved, ∃ words : Nat, ∃ stored parked,
      ((left.allocator.inFunction = true ∧ words = (xs.filterMap fun x => x).length + 1 ∧
          Ran (saveOnStack 1 (xs.filterMap fun x => x))
            (push (.sw Reg.returnAddress Reg.stackPointer 0)
              (on (fun a => { a with pushed := a.pushed + (words : Int) })
                (push (.addi Reg.stackPointer Reg.stackPointer (-(words : Int))) left)))
            saved stored) ∨
        (left.allocator.inFunction = false ∧ words = 0 ∧
          Ran ((xs.filterMap fun x => x).mapM saveInGlobal) left saved stored)) ∧
      Ran (saved.forM park) stored () parked ∧
      w' = on (fun a => { a with calls := ⟨saved, words⟩ :: a.calls }) parked := by
  simp only [saveForCall, ran_bind, ran_look, ran_ite, ran_emit, pushWords, ran_change, ran_pure,
    and_assoc, exists_and_left, exists_eq_left, exists_const] at ran
  obtain ⟨xs, left, emptied, ⟨inside, saved, stored, saving, _, parked, parking, rfl⟩ |
    ⟨outside, saved, stored, saving, _, parked, parking, rfl⟩⟩ := ran
  · exact ⟨xs, left, emptied, saved, _, stored, parked, .inl ⟨inside, rfl, saving⟩, parking, rfl⟩
  · exact ⟨xs, left, emptied, saved, 0, stored, parked,
      .inr ⟨eq_false_of_ne_true outside, rfl, saving⟩, parking, rfl⟩

theorem saveForCall_sound {x : Unit} (sound : Sound [] w.allocator) (idle : w.allocator.calls = [])
    (ran : Ran saveForCall w x w') :
    Sound [] w'.allocator ∧ ∃ save, w'.allocator.calls = [save] ∧ Waits save w'.allocator := by
  obtain ⟨xs, left, emptied, saved, words, stored, parked, saving, parking, rfl⟩ :=
    ran_saveForCall ran
  have leaves := leaves sound Reg.nodup_all emptied
  have stored' : Sound [] stored.allocator ∧
      (saved.map fun s => (s.1, s.2.1)) = (xs.filterMap fun x => x) ∧
      stored.allocator.calls = left.allocator.calls ∧
      ∀ other, stored.allocator.var? other = left.allocator.var? other := by
    rcases saving with ⟨-, -, saving⟩ | ⟨outside, -, saving⟩
    · obtain ⟨same, temps⟩ := ran_saveOnStack saving
      have sound' : Sound [] { left.allocator with pushed := left.allocator.pushed + (words : Int) } :=
        leaves.sound.congr (fun _ => Iff.rfl) rfl
      rw [same]
      exact ⟨sound', temps, rfl, fun _ => rfl⟩
    · obtain ⟨sound', temps, globals, same⟩ := saveInGlobal_sound leaves.sound
        (Option.not_isSome_iff_eq_none.1 (by rw [← Bool.not_eq_true] at outside; exact outside)) saving
      refine ⟨sound', temps, ?_, fun other => ?_⟩ <;> rw [same]
      rfl
  obtain ⟨sound', temps, calls, vars⟩ := stored'
  refine pending_sound sound' (calls.trans (leaves.calls.trans idle)) ?_ (fun s member => ?_) parking
  · have once := leaves.once
    rwa [← temps, List.map_map] at once
  · have member' : (s.1, s.2.1) ∈ xs.filterMap fun x => x := by
      rw [← temps]
      exact List.mem_map.2 ⟨s, member, rfl⟩
    obtain ⟨v, found, isTemp, there⟩ := leaves.there _ member'
    refine ⟨v, ?_, isTemp, there⟩
    rw [vars]
    exact (leaves.same isTemp).2 found

/-- A temporary that waited comes back to its register. -/
theorem ran_unpark {base : Reg} {saved : VarId × Reg × Nat} {x : Unit}
    (ran : Ran (unpark base saved) w x w') :
    ∃ v, w.allocator.var? saved.1 = some v ∧
      w' = on (fun a => a.bound saved.1 saved.2.1 v) (push (.lw saved.2.1 base saved.2.2) w) := by
  simp only [unpark, ran_bind, ran_emit, ran_bindTo, exists_eq_left, exists_const] at ran
  obtain ⟨v, found, rfl⟩ := ran
  exact ⟨v, found, rfl⟩

theorem unparkAll_sound {base : Reg} {saved : List (VarId × Reg × Nat)} {x : Unit}
    (sound : Sound ((saved.map fun s => s.2.1) ++ hand) w.allocator)
    (once : (saved.map Prod.fst).Nodup)
    (there : ∀ s ∈ saved, ∃ v, w.allocator.var? s.1 = some v ∧ v.storage = .saved s.2.2)
    (ran : Ran (saved.forM (unpark base)) w x w') :
    Sound hand w'.allocator ∧ w'.allocator.calls = w.allocator.calls := by
  induction saved generalizing w with
  | nil =>
    rw [ran_forM_nil.1 ran]
    exact ⟨sound, rfl⟩
  | cons s rest ih =>
    obtain ⟨mid, first, second⟩ := ran_forM_cons.1 ran
    obtain ⟨v, found, rfl⟩ := ran_unpark first
    obtain ⟨v', found', place⟩ := there s List.mem_cons_self
    cases found.symm.trans found'
    rw [List.map_cons, List.nodup_cons] at once
    have bound := sound.bound found fun r there => by
      rw [place] at there
      cases there
    refine ih (w := on (fun a => a.bound s.1 s.2.1 v) (push (.lw s.2.1 base s.2.2) w)) bound once.2
      (fun t member => ?_) second
    obtain ⟨u, known, place'⟩ := there t (List.mem_cons_of_mem s member)
    refine ⟨u, ?_, place'⟩
    have apart : t.1 ≠ s.1 := fun same => once.1 (same ▸ List.mem_map.2 ⟨t, member, rfl⟩)
    exact (var?_bound found t.1).trans ((if_neg apart).trans known)

theorem ran_restoreAfterCall {x : Unit} (ran : Ran restoreAfterCall w x w') :
    ∃ save calls back, w.allocator.calls = save :: calls ∧
      Ran (save.saved.forM (unpark (if save.words = 0 then Reg.zero else Reg.stackPointer)))
        (on (fun a => { a with calls }) w) () back ∧
      ((save.words ≠ 0 ∧ w' = on (fun a => { a with pushed := a.pushed - (save.words : Int) })
          (push (.addi Reg.stackPointer Reg.stackPointer save.words)
            (push (.lw Reg.returnAddress Reg.stackPointer 0) back))) ∨
        (save.words = 0 ∧ w' = back)) := by
  simp only [restoreAfterCall, ran_bind, ran_look, and_assoc, exists_and_left, exists_eq_left] at ran
  cases pending : w.allocator.calls with
  | nil =>
    simp only [pending] at ran
    exact (ran_throw.1 ran).elim
  | cons save calls =>
    simp only [pending, ran_bind, ran_change, ran_ite, ran_emit, popWords, ran_pure, exists_eq_left,
      exists_const] at ran
    obtain ⟨_, back, loaded, ⟨some, rfl⟩ | ⟨none, -, rfl⟩⟩ := ran
    · exact ⟨save, calls, back, rfl, loaded, .inl ⟨some, rfl⟩⟩
    · exact ⟨save, calls, w', rfl, loaded, .inr ⟨Decidable.not_not.1 none, rfl⟩⟩

theorem restoreAfterCall_sound {save : CallSave} {x : Unit} (sound : Sound [] w.allocator)
    (pending : w.allocator.calls = [save]) (waits : Waits save w.allocator)
    (ran : Ran restoreAfterCall w x w') : Sound [] w'.allocator ∧ w'.allocator.calls = [] := by
  obtain ⟨save', calls, back, pending', loaded, last⟩ := ran_restoreAfterCall ran
  cases pending.symm.trans pending'
  have inHand : Sound ((save.saved.map fun s => s.2.1) ++ []) { w.allocator with calls := [] } := by
    refine sound.of_registers ?_ rfl
    refine sound.registers.of_same_places ⟨sound.registers.owner, sound.registers.recent⟩
      (fun s => ?_) (fun _ => sound.registers.freePool) (fun _ => sound.registers.reservedPool)
    simp only [places, parked, pending, List.flatMap_cons, List.flatMap_nil, List.append_nil,
      List.count_nil]
    exact (Nat.add_right_comm _ _ _).symm
  obtain ⟨sound', calls⟩ := unparkAll_sound (w := on (fun a => { a with calls := [] }) w) inHand
    waits.once waits.there loaded
  rcases last with ⟨-, rfl⟩ | ⟨-, rfl⟩
  · exact ⟨sound'.congr (fun _ => Iff.rfl) rfl, calls⟩
  · exact ⟨sound', calls⟩

end Alloc

end SmallC
