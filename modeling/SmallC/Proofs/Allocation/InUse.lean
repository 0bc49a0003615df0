import SmallC.Proofs.Allocation.Saving

/-!
The registers that variables are in. Under the rules of the generator variables come to registers of the pool and
to those that arguments travel in, and so it stays while registers are put aside for a call or for the body of a
function.
-/
namespace SmallC

open Alloc

namespace Allocator

variable {a a' b : Allocator} {w w' : Work} {K : VarId → Prop} {T : Reg → Prop}

/-- Variables are in registers of the pool and of arguments only, and only such registers come back. -/
structure InUse (a : Allocator) : Prop where
  bound : ∀ {id v r}, a.var? id = some v → v.storage = .register r → r.Carries
  saved : ∀ save ∈ a.calls, ∀ s ∈ save.saved, s.2.1.Carries
  outside : ∀ o, a.outside = some o → ∀ b ∈ o.bindings, b.2.1.Carries

/-- Variables leave registers only, and none comes to wait for a call. -/
structure Narrows (a a' : Allocator) : Prop where
  bound : ∀ {id v r}, a'.var? id = some v → v.storage = .register r →
    ∃ u, a.var? id = some u ∧ u.storage = .register r
  waits : ∀ {id v slot}, a'.var? id = some v → v.storage = .saved slot →
    ∃ u, a.var? id = some u ∧ u.storage = .saved slot
  calls : a'.calls = a.calls
  outside : a'.outside = a.outside

theorem Narrows.refl (a : Allocator) : Narrows a a :=
  ⟨fun found there => ⟨_, found, there⟩, fun found waits => ⟨_, found, waits⟩, rfl, rfl⟩

theorem Narrows.trans (first : Narrows a b) (second : Narrows b a') : Narrows a a' where
  bound found there := by
    obtain ⟨u, known, was⟩ := second.bound found there
    exact first.bound known was
  waits found there := by
    obtain ⟨u, known, was⟩ := second.waits found there
    exact first.waits known was
  calls := second.calls.trans first.calls
  outside := second.outside.trans first.outside

theorem InUse.narrows (inUse : InUse a) (narrows : Narrows a a') : InUse a' where
  bound found there := by
    obtain ⟨u, known, was⟩ := narrows.bound found there
    exact inUse.bound known was
  saved := by
    rw [narrows.calls]
    exact inUse.saved
  outside := by
    rw [narrows.outside]
    exact inUse.outside

/-- One variable changes, is in no register that it was not in before, and waits only if it did before. -/
theorem Narrows.of_one {id : VarId} {v : Variable} (found : a.var? id = some v) (w : Option Variable)
    (vars : ∀ other, a'.var? other = if other = id then w else a.var? other)
    (register : ∀ {u r}, w = some u → u.storage = .register r → v.storage = .register r)
    (waits : ∀ {u slot}, w = some u → u.storage = .saved slot → v.storage = .saved slot)
    (calls : a'.calls = a.calls) (outside : a'.outside = a.outside) : Narrows a a' := by
  refine ⟨fun {other u r} found' there => ?_, fun {other u slot} found' there => ?_, calls, outside⟩ <;>
  · rw [vars] at found'
    split at found'
    · next same => first
        | exact ⟨v, same ▸ found, register found' there⟩
        | exact ⟨v, same ▸ found, waits found' there⟩
    · exact ⟨u, found', there⟩

theorem unbind_narrows {id : VarId} {x : Unit} (ran : Ran (unbind id) w x w') : Narrows w.allocator w'.allocator := by
  obtain ⟨v, found, ⟨-, rfl⟩ | ⟨r, -, rfl⟩⟩ := ran_unbind.1 ran
  · exact .refl _
  · refine .of_one found (some v.parted) (var?_unbound found) (fun same there => ?_) (fun same waits => ?_) rfl rfl
    · cases same
      exact parted_register there
    · cases same
      exact parted_waits waits

theorem writeBack_narrows {id : VarId} {r : Reg} {x : Unit} (ran : Ran (writeBack id r) w x w') :
    Narrows w.allocator w'.allocator := by
  obtain ⟨v, home, address, found, -, -, rfl⟩ := ran_writeBack.1 ran
  refine .of_one found (some { v with isDirty := false }) (var?_setVar found _) (fun same there => ?_)
    (fun same waits => ?_) rfl rfl
  · cases same
    exact there
  · cases same
    exact waits

theorem drop_narrows {id : VarId} {x : Unit} (ran : Ran (drop id) w x w') : Narrows w.allocator w'.allocator := by
  have gone := drops_one ran
  obtain ⟨v, found, -⟩ := ran_drop ran
  refine .of_one found none (fun other => ?_) (fun none => nomatch none) (fun none => nomatch none) gone.calls
    gone.outside
  rw [gone.vars]
  simp

/-- A loop of which every pass narrows. -/
theorem narrows_forM {α : Type} {f : α → Alloc Unit} {xs : List α} {x : Unit} (ran : Ran (xs.forM f) w x w')
    (pass : ∀ a w w', Ran (f a) w () w' → Narrows w.allocator w'.allocator) : Narrows w.allocator w'.allocator :=
  Ran.forM ran (P := fun mid => Narrows w.allocator mid.allocator) (.refl _)
    fun a _ mid mid' before ran => before.trans (pass a mid mid' ran)

theorem Deeds.inUse {code : List MachineInstr} (deeds : Deeds K T a a' code) (tidy : Tidy a)
    (narrow : ∀ r, T r → r.Carries) (inUse : InUse a) : InUse a' where
  bound := (deeds.tidy tidy narrow).carried
  saved := by
    rw [deeds.onward.calls]
    exact inUse.saved
  outside := by
    rw [deeds.onward.outside]
    exact inUse.outside

theorem saveForCall_inUse (sound : Sound [] w.allocator) (inUse : InUse w.allocator)
    (ran : Ran saveForCall w () w') : InUse w'.allocator := by
  obtain ⟨temps, left, empties, saves⟩ := saves sound ran
  obtain ⟨code, -, deeds⟩ := empties.does
  have left' := deeds.inUse (sound.tidy inUse.bound) (fun _ => False.elim) inUse
  have carries : ∀ s ∈ slotted left.allocator.saveSlot temps, s.2.1.Carries := by
    intro s member
    obtain ⟨i, found, -⟩ := mem_slotted.1 member
    obtain ⟨v, known, -, there⟩ := empties.leaves.there _ (List.mem_of_getElem? found)
    exact inUse.bound known there
  refine ⟨fun {id v r} found there => ?_, ?_, ?_⟩
  · by_cases parked : id ∈ temps.map Prod.fst
    · rw [← slotted_fst left.allocator.saveSlot] at parked
      obtain ⟨s, member, rfl⟩ := List.mem_map.1 parked
      obtain ⟨u, -, known⟩ := saves.parked s member
      cases found.symm.trans known
      cases there
    · exact left'.bound ((saves.others id parked).symm.trans found) there
  · rw [saves.rest]
    intro save member
    obtain rfl | member := List.mem_cons.1 member
    · exact carries
    · exact left'.saved save member
  · rw [saves.rest]
    exact left'.outside

theorem restoreAfterCall_inUse (order : InOrder w.allocator) (inUse : InUse w.allocator)
    (ran : Ran restoreAfterCall w () w') : InUse w'.allocator := by
  obtain ⟨save, calls, -, pending, -⟩ := ran_restoreAfterCall ran
  obtain idle | ⟨save', one, waits⟩ := order.pending
  · cases pending.symm.trans idle
  · cases pending.symm.trans one
    obtain ⟨w₂, ran', -, back, others, rest⟩ := restores pending waits.once fun s member => by
      obtain ⟨v, found, -⟩ := waits.there s member
      exact ⟨v, found⟩
    obtain ⟨-, rfl⟩ := ran.unique ran'
    refine ⟨fun {id v r} found there => ?_, ?_, ?_⟩
    · by_cases returned : id ∈ save.saved.map Prod.fst
      · obtain ⟨s, member, rfl⟩ := List.mem_map.1 returned
        obtain ⟨u, known, -⟩ := waits.there s member
        cases found.symm.trans (back s member u known)
        cases there
        exact inUse.saved save (by rw [pending]; exact List.mem_cons_self) s member
      · exact inUse.bound ((others id returned).symm.trans found) there
    · rw [rest]
      exact fun _ none => nomatch none
    · rw [rest]
      exact inUse.outside

theorem enterFunction_inUse (sound : Sound [] w.allocator) (inUse : InUse w.allocator)
    (ran : Ran enterFunction w () w') : InUse w'.allocator := by
  obtain ⟨-, parted, gone, rfl⟩ := ran_enterFunction sound.registers.toOwners ran
  have narrows := narrows_forM gone fun binding _ _ ran => unbind_narrows ran
  refine ⟨fun found there => ?_, ?_, ?_⟩
  · obtain ⟨u, known, was⟩ := narrows.bound found there
    exact inUse.bound known was
  · change ∀ save ∈ parted.allocator.calls, _
    rw [narrows.calls]
    exact inUse.saved
  · intro o outside binding member
    have outer : o = w.allocator.outer := Option.some.inj (outside.symm.trans narrows.outside)
    rw [outer] at member
    obtain ⟨r, -, bound⟩ := List.mem_filterMap.1 member
    cases owned : w.allocator.ownerOf r with
    | none => simp [binding?, owned] at bound
    | some id =>
      obtain ⟨v, found, there, same⟩ := binding?_of_owner sound.registers.toOwners owned
      cases same.symm.trans bound
      exact inUse.bound found there

/-- Registers that come back are those that were put aside. -/
theorem rebinds_bound {bindings : List (VarId × Reg × Bool)} {x : Unit} (ran : Ran (bindings.forM rebind) w x w')
    (carries : ∀ b ∈ bindings, b.2.1.Carries) (inUse : InUse w.allocator) : InUse w'.allocator := by
  refine Ran.forM ran (P := fun mid => InUse mid.allocator) inUse fun binding member mid mid' before ran => ?_
  obtain ⟨v, found, rfl⟩ := ran_rebind ran
  refine ⟨fun {id u r} found' there => ?_, before.saved, before.outside⟩
  have vars := var?_setVar (a := mid.allocator.setOwner binding.2.1 (some binding.1)) found
    { v with storage := .register binding.2.1, isDirty := binding.2.2 } id
  have found'' := vars.symm.trans found'
  split at found''
  · cases found''
    cases there
    exact carries binding member
  · exact before.bound found'' there

/-- The end of a body parts variables from registers, up to where registers come back. -/
theorem leaveFunction_narrows {n : Nat} (ran : Ran leaveFunction w n w') :
    ∃ dropped outside bound, Narrows w.allocator dropped.allocator ∧ dropped.allocator.outside = some outside ∧
      Ran (outside.bindings.forM rebind) (on (fun a => { a with
        frame := none
        outside := none
        free := outside.free
        recency := outside.recency
        pushed := outside.pushed }) dropped) () bound ∧
      w' = on (fun a => { a with held := [] }) bound := by
  obtain ⟨sent, closed, vacated, dropped, k, outside, bound, first, second, third, fourth, -, put, back, rfl⟩ :=
    ran_leaveFunction ran
  have sent' := narrows_forM first fun r mid mid' ran => by
    obtain rfl | ⟨id, s, v, -, -, -, -, -, wrote⟩ := ran_sendRootHome ran
    · exact .refl _
    · exact writeBack_narrows wrote
  have closed' := narrows_forM second fun level mid mid' ran => by
    simp only [closeLevel, ran_bind, ran_change] at ran
    obtain ⟨_, emptied, gone, rfl⟩ := ran
    have narrows := narrows_forM gone fun entry _ _ ran => drop_narrows ran
    exact ⟨narrows.bound, narrows.waits, narrows.calls, narrows.outside⟩
  have vacated' := narrows_forM third fun r mid mid' ran => by
    obtain ⟨-, rfl⟩ | ⟨id, -, ran⟩ := ran_vacate ran
    · exact .refl _
    · exact unbind_narrows ran
  have dropped' : Narrows vacated.allocator dropped.allocator := by
    simp only [discardTemps, ran_bind, ran_look, ran_pure, and_assoc, exists_and_left, exists_eq_left] at fourth
    obtain ⟨_, mid, ran, -, rfl⟩ := fourth
    exact narrows_forM ran fun entry _ _ ran => drop_narrows ran
  exact ⟨dropped, outside, bound, sent'.trans (closed'.trans (vacated'.trans dropped')), put, back, rfl⟩

theorem leaveFunction_inUse {n : Nat} (inUse : InUse w.allocator) (ran : Ran leaveFunction w n w') :
    InUse w'.allocator := by
  obtain ⟨dropped, outside, bound, narrows, put, back, rfl⟩ := leaveFunction_narrows ran
  have before := inUse.narrows narrows
  have rebound := rebinds_bound back (before.outside outside put)
    ⟨before.bound, before.saved, fun _ none => by cases none⟩
  exact ⟨rebound.bound, rebound.saved, rebound.outside⟩

/-- Every permitted operation that succeeds keeps variables to the registers that are for them. -/
theorem step_inUse (op : Operation) (order : InOrder w.allocator) (inUse : InUse w.allocator)
    (permitted : op.Permitted w.allocator) (ran : Ran op.act w () w') : InUse w'.allocator := by
  by_cases deed : op.IsDeed
  · obtain ⟨code, -, deeds⟩ := does_operation op order.sound permitted deed ran
    exact deeds.inUse (order.sound.tidy inUse.bound) (fun _ carries => carries) inUse
  · cases op with
    | enterFunction => exact enterFunction_inUse order.sound inUse ran
    | leaveFunction =>
      obtain ⟨n, ran, -⟩ := ran_map.1 ran
      exact leaveFunction_inUse inUse ran
    | saveForCall => exact saveForCall_inUse order.sound inUse ran
    | restoreAfterCall => exact restoreAfterCall_inUse order inUse ran
    | pushWords words =>
      cases (ran_change (f := fun a => { a with pushed := a.pushed + words })).1 ran
      exact ⟨inUse.bound, inUse.saved, inUse.outside⟩
    | popWords words =>
      cases (ran_change (f := fun a => { a with pushed := a.pushed - words })).1 ran
      exact ⟨inUse.bound, inUse.saved, inUse.outside⟩
    | _ => exact (deed trivial).elim

theorem initial_inUse : InUse initial where
  bound found := by simp [initial, var?] at found
  saved _ none := nomatch none
  outside _ none := nomatch none

theorem Reached.inUse (reached : Reached a) : InUse a := by
  induction reached with
  | initial => exact initial_inUse
  | step op reached permitted ran ih => exact step_inUse op reached.inOrder ih permitted ran

theorem Reached.tidy (reached : Reached a) : Tidy a := reached.inOrder.sound.tidy reached.inUse.bound

end Allocator

end SmallC
