import SmallC.Proofs.Allocation.Reading

/-!
Code that leaves the status as it is. To read a scalar and to take a register for a temporary the allocator emits
nothing but stores and loads, and none of the registers that it loads is the status.
-/
namespace SmallC

open Machine Allocator

/-- An instruction that leaves the status as it is. -/
def MachineInstr.SparesStatus (i : MachineInstr) : Prop :=
  ∀ {m m' : Machine}, m.effect i = .ok m' → m'.reg Reg.status = m.reg Reg.status

theorem sparesStatus_sw (r base : Reg) (offset : Int) : MachineInstr.SparesStatus (.sw r base offset) := by
  intro m m' done
  simp only [effect] at done
  split at done
  · cases done
    rfl
  · cases done

theorem sparesStatus_lw {r : Reg} (other : r ≠ Reg.status) (base : Reg) (offset : Int) :
    MachineInstr.SparesStatus (.lw r base offset) := by
  intro m m' done
  simp only [effect] at done
  split at done
  · cases done
    exact reg_setReg_of_ne _ _ other.symm
  · cases done

theorem sparesStatus_shift {rd : Reg} (other : rd ≠ Reg.status) (op : ShiftOp) (rs : Reg) (amount : Nat) :
    MachineInstr.SparesStatus (.shift op rd rs amount) := by
  intro m m' done
  cases op <;>
  · cases done
    exact reg_setReg_of_ne _ _ other.symm

theorem Variable.LoadedBy.sparesStatus {a : Allocator} {v : Variable} {r : Reg} {i : MachineInstr}
    (loads : v.LoadedBy a r i) (scalar : v.array = none) (carries : r.Carries) : i.SparesStatus := by
  cases loads with
  | address array known => cases scalar.symm.trans array
  | word plain place known => exact sparesStatus_lw carries.ne.2.2.1 _ _

/-- Code of such instructions leaves the status as it is. -/
theorem performs_sparesStatus {m m' : Machine} {code : List MachineInstr} (spares : ∀ i ∈ code, i.SparesStatus)
    (done : m.performs code = .ok m') : m'.reg Reg.status = m.reg Reg.status := by
  induction code generalizing m with
  | nil =>
    cases done
    rfl
  | cons i rest ih =>
    obtain ⟨spares, further⟩ := List.forall_mem_cons.1 spares
    obtain ⟨mid, first, done⟩ := performs_uncons done
    exact (ih further done).trans (spares first)

/-- All that was emitted leaves the status as it is. -/
def Work.SparesStatus (w : Work) : Prop := ∀ i ∈ w.code, i.SparesStatus

theorem Work.SparesStatus.push {w : Work} {i : MachineInstr} (spares : w.SparesStatus) (own : i.SparesStatus) :
    (Alloc.push i w).SparesStatus := by
  intro j member
  rcases Array.mem_push.1 member with member | rfl
  · exact spares j member
  · exact own

namespace Alloc

variable {w w' : Work} {id : VarId} {r : Reg} {name : String} {v : Variable}

theorem writeBack_sparesStatus {x : Unit} (spares : w.SparesStatus) (ran : Ran (writeBack id r) w x w') :
    w'.SparesStatus := by
  obtain ⟨v, home, address, -, -, -, rfl⟩ := ran_writeBack.1 ran
  exact spares.push (sparesStatus_sw _ _ _)

theorem take_sparesStatus (spares : w.SparesStatus) (ran : Ran take w r w') : w'.SparesStatus := by
  obtain ⟨-, -, rfl⟩ | ⟨id, evicted, -, -⟩ := ran_take ran
  · exact spares
  · obtain ⟨v, mid, last, -, -, -, wrote, parted, rfl⟩ := ran_evict evicted
    have before : mid.SparesStatus := by
      obtain ⟨-, housed, housing, wrote⟩ | ⟨-, -, wrote⟩ | ⟨-, -, rfl⟩ := wrote
      · refine writeBack_sparesStatus ?_ wrote
        obtain ⟨u, -, ⟨-, rfl⟩ | ⟨-, rfl⟩⟩ := ran_ensureHome.1 housing <;> exact spares
      · exact writeBack_sparesStatus spares wrote
      · exact spares
    obtain ⟨u, -, ⟨-, rfl⟩ | ⟨s, -, rfl⟩⟩ := ran_unbind.1 parted <;> exact before

/-- A scalar is read by loading a word, if by anything. -/
theorem getRegister_sparesStatus (sound : Sound [] w.allocator) (tidy : Tidy w.allocator) {modifies : Bool}
    (named : w.allocator.find? name = some id) (found : w.allocator.var? id = some v) (scalar : v.array = none)
    (spares : w.SparesStatus) (ran : Ran (getRegister name modifies) w r w') : w'.SparesStatus := by
  obtain ⟨id', v', named', found', ⟨there, mid, loaded, rfl⟩ | ⟨away, mid, loaded, u, took, load, known, rfl⟩⟩ :=
    ran_getRegister ran
  · cases named.symm.trans named'
    cases found.symm.trans found'
    obtain ⟨-, -, load⟩ | ⟨rfl, -⟩ := loaded
    · obtain ⟨i, loads, rfl⟩ := loadedBy found load
      exact spares.push (loads.sparesStatus scalar (tidy.carried found there))
    · exact spares
  · cases named.symm.trans named'
    cases found.symm.trans found'
    have taken := takes sound took
    obtain ⟨kept, rfl⟩ := known_loaded sound found away took load known
    obtain ⟨i, loads, rfl⟩ := loadedBy kept load
    exact (take_sparesStatus spares took).push (loads.sparesStatus scalar (.inl taken.inPool))

/-- Nothing is emitted for a temporary that is given up. -/
theorem removeIfTemp_sparesStatus {x : Unit} (spares : w.SparesStatus) (ran : Ran (removeIfTemp name) w x w') :
    w'.SparesStatus := by
  simp only [removeIfTemp, ran_bind, ran_look, and_assoc, exists_and_left, exists_eq_left] at ran
  split at ran
  · obtain ⟨v, -, ⟨-, rfl⟩ | ⟨s, -, rfl⟩⟩ := ran_drop ran <;> exact spares
  · obtain ⟨-, rfl⟩ := ran_pure.1 ran
    exact spares

end Alloc

end SmallC
