import SmallC.Proofs.Machine.Simulation
import SmallC.Proofs.Program.Flow

/-!
Programs that use the return address for returns alone. Calls write it, returns go to it, and no other
instruction names its register. Two machines that differ in nothing else then go through such a program
side by side, also where the addresses of the program are not the same for both.
-/
namespace SmallC

/-- An instruction that names the register of the return address only to return. A return names no
other register. -/
def MachineInstr.SparesReturnAddress : MachineInstr → Prop
  | .jr rd => rd = Reg.returnAddress
  | other => Reg.returnAddress ∉ other.operands

instance : DecidablePred MachineInstr.SparesReturnAddress
  | .jr rd => inferInstanceAs (Decidable (rd = Reg.returnAddress))
  | .alu .. | .shift .. | .addi .. | .sw .. | .lw .. | .branch .. | .jump .. | .setx .. | .testlog .. =>
    inferInstanceAs (Decidable (Reg.returnAddress ∉ _))

/-- Recognises a call. -/
def MachineInstr.isCall : MachineInstr → Bool
  | .jump .jal _ => true
  | _ => false

theorem MachineInstr.sparesReturnAddress_mapTarget (i : MachineInstr) (f : Target → Target) :
    MachineInstr.SparesReturnAddress (i.mapTarget f) ↔ i.SparesReturnAddress := by
  cases i <;> rfl

theorem MachineInstr.isCall_mapTarget (i : MachineInstr) (f : Target → Target) :
    MachineInstr.isCall (i.mapTarget f) = i.isCall := by
  cases i with
  | jump op t => cases op <;> rfl
  | _ => rfl

namespace Machine

variable {m m' after : Machine} {i : MachineInstr}

theorem Agree.setReg (same : Agree m m') (rd : Reg) (w : Word) :
    Agree (m.setReg rd w) (m'.setReg rd w) := by
  refine ⟨fun r other => ?_, by simp [same.memory], by simp [same.log]⟩
  simp only [reg_setReg, same.regs r other]

/-- Different return addresses make no difference that counts. -/
theorem Agree.setReturnAddress (same : Agree m m') (w w' : Word) :
    Agree (m.setReg Reg.returnAddress w) (m'.setReg Reg.returnAddress w') := by
  refine ⟨fun r other => ?_, by simp [same.memory], by simp [same.log]⟩
  rw [reg_setReg_of_ne _ _ other, reg_setReg_of_ne _ _ other, same.regs r other]

theorem Agree.goto (same : Agree m m') (pc pc' : Int) : Agree (m.goto pc) (m'.goto pc') :=
  ⟨same.regs, same.memory, same.log⟩

theorem Agree.setChecked (same : Agree m m') (rd : Reg) (exact : Int) (fault : Fault) :
    Agree (m.setChecked rd exact fault) (m'.setChecked rd exact fault) := by
  unfold Machine.setChecked
  simp only
  split
  · exact same.setReg rd _
  · exact (same.setReg rd _).setReg _ _

theorem Agree.alu (same : Agree m m') (op : AluOp) (rd : Reg) (a b : Word) :
    Agree (m.alu op rd a b) (m'.alu op rd a b) := by
  cases op with
  | add | sub | mul => exact same.setChecked rd _ _
  | div =>
    simp only [Machine.alu]
    split
    · exact same.setReg _ _
    · exact same.setReg _ _
  | and | or | slt | sgt => exact same.setReg _ _

/-- An access by a register other than the return address is to the same cell on both machines. -/
theorem Agree.address (same : Agree m m') {base : Reg} (other : base ≠ Reg.returnAddress)
    (offset : Int) :
    (∃ a : Nat, ∃ h : a < m.memory.size, ∃ h' : a < m'.memory.size,
      m.address base offset = .ok ⟨a, h⟩ ∧ m'.address base offset = .ok ⟨a, h'⟩) ∨
    (∃ e e', m.address base offset = .error e ∧ m'.address base offset = .error e') := by
  simp only [Machine.address, same.regs base other, same.memory]
  split
  · next inside =>
    exact .inl ⟨_, inside.2, inside.2, rfl, rfl⟩
  · exact .inr ⟨_, _, rfl, rfl⟩

/-- An instruction has the same effect on both machines, or none on either. -/
theorem Agree.effect (same : Agree m m') (spares : i.SparesReturnAddress) :
    (∃ after after', m.effect i = .ok after ∧ m'.effect i = .ok after' ∧ Agree after after') ∨
    ∃ x, m.effect i = .error x ∧ m'.effect i = .error x := by
  cases i with
  | alu op rd rs rt =>
    simp only [MachineInstr.SparesReturnAddress, Instr.operands, List.mem_cons, not_or] at spares
    simp only [Machine.effect, same.regs rs (Ne.symm spares.2.1), same.regs rt (Ne.symm spares.2.2.1)]
    exact .inl ⟨_, _, rfl, rfl, same.alu _ _ _ _⟩
  | shift op rd rs amount =>
    simp only [MachineInstr.SparesReturnAddress, Instr.operands, List.mem_cons, not_or] at spares
    cases op <;>
      simp only [Machine.effect, same.regs rs (Ne.symm spares.2.1)] <;>
      exact .inl ⟨_, _, rfl, rfl, same.setReg _ _⟩
  | addi rd rs imm =>
    simp only [MachineInstr.SparesReturnAddress, Instr.operands, List.mem_cons, not_or] at spares
    simp only [Machine.effect, same.regs rs (Ne.symm spares.2.1)]
    exact .inl ⟨_, _, rfl, rfl, same.setChecked _ _ _⟩
  | sw rd base offset =>
    simp only [MachineInstr.SparesReturnAddress, Instr.operands, List.mem_cons, not_or] at spares
    rcases same.address (Ne.symm spares.2.1) offset with ⟨a, h, h', found, found'⟩ | ⟨e, e', out, out'⟩
    · simp only [Machine.effect, found, found', same.regs rd (Ne.symm spares.1)]
      refine .inl ⟨_, _, rfl, rfl, same.regs, ?_, same.log⟩
      simp only [same.memory]
    · simp only [Machine.effect, out, out', same.regs base (Ne.symm spares.2.1)]
      exact .inr ⟨_, rfl, rfl⟩
  | lw rd base offset =>
    simp only [MachineInstr.SparesReturnAddress, Instr.operands, List.mem_cons, not_or] at spares
    rcases same.address (Ne.symm spares.2.1) offset with ⟨a, h, h', found, found'⟩ | ⟨e, e', out, out'⟩
    · simp only [Machine.effect, found, found']
      have cell : m'.cell? a = m.cell? a := by rw [Machine.cell?, Machine.cell?, same.memory]
      refine .inl ⟨_, _, rfl, rfl, ?_⟩
      rw [cell]
      exact same.setReg _ _
    · simp only [Machine.effect, out, out', same.regs base (Ne.symm spares.2.1)]
      exact .inr ⟨_, rfl, rfl⟩
  | branch op rd rs t => exact .inl ⟨_, _, rfl, rfl, same⟩
  | jump op t =>
    cases op with
    | j | bex => exact .inl ⟨_, _, rfl, rfl, same⟩
    | jal => exact .inl ⟨_, _, rfl, rfl, same.setReturnAddress _ _⟩
  | jr rd => exact .inl ⟨_, _, rfl, rfl, same⟩
  | setx value => exact .inl ⟨_, _, rfl, rfl, same.setReg _ _⟩
  | testlog rd =>
    simp only [MachineInstr.SparesReturnAddress, Instr.operands, List.mem_cons, not_or] at spares
    simp only [Machine.effect, same.regs rd (Ne.symm spares.1)]
    exact .inl ⟨_, _, rfl, rfl, same.regs, same.memory, by simp only [same.log]⟩

/-- Control goes the same way on both machines. -/
theorem Agree.control (same : Agree m m') (spares : i.SparesReturnAddress) :
    m'.control i = m.control i := by
  cases i with
  | branch op rd rs t =>
    simp only [MachineInstr.SparesReturnAddress, Instr.operands, List.mem_cons, not_or] at spares
    simp only [Machine.control, same.regs rd (Ne.symm spares.1), same.regs rs (Ne.symm spares.2.1)]
  | jump op t =>
    cases op with
    | bex => simp only [Machine.control, same.regs Reg.status (by decide)]
    | j | jal => rfl
  | _ => rfl

/-- Control goes to no other register than the return address. -/
theorem control_register (spares : i.SparesReturnAddress) {r : Reg}
    (goes : m.control i = .register r) : r = Reg.returnAddress := by
  cases i with
  | jr rd =>
    cases goes
    exact spares
  | branch op rd rs t =>
    simp only [Machine.control] at goes
    split at goes <;> cases goes
  | jump op t =>
    cases op with
    | bex =>
      simp only [Machine.control] at goes
      split at goes <;> cases goes
    | j | jal => cases goes
  | _ => cases goes

/-- What is left of the register that reads zero, of the return address and of the program counter
behind an instruction. -/
structure Kept (i : MachineInstr) (m after : Machine) : Prop where
  zero : after.reg Reg.zero = m.reg Reg.zero
  link : after.reg Reg.returnAddress =
    if i.isCall then Word.ofInt (m.pc + 1) else m.reg Reg.returnAddress
  pc : after.pc = m.pc

theorem Kept.refl (plain : i.isCall = false) : Kept i m m :=
  ⟨rfl, by simp [plain], rfl⟩

theorem Kept.setReg (kept : Kept i m after) {rd : Reg} (other : Reg.returnAddress ≠ rd) (w : Word) :
    Kept i m (after.setReg rd w) := by
  refine ⟨?_, ?_, (pc_setReg ..).trans kept.pc⟩
  · rw [reg_setReg, ← kept.zero]
    split
    · next same => exact absurd same.1.symm same.2
    · rfl
  · rw [reg_setReg_of_ne _ _ other, kept.link]

theorem effect_kept (spares : i.SparesReturnAddress) (ran : m.effect i = .ok after) :
    Kept i m after := by
  have status : Reg.returnAddress ≠ Reg.status := by decide
  cases i with
  | alu op rd rs rt =>
    simp only [MachineInstr.SparesReturnAddress, Instr.operands, List.mem_cons, not_or] at spares
    cases ran
    have kept := fun w => (Kept.refl (i := .alu op rd rs rt) (m := m) rfl).setReg spares.1 w
    exact alu_cases (P := Kept _ m) kept (fun w _ => (kept w).setReg status _)
      ((Kept.refl rfl).setReg status _)
  | shift op rd rs amount =>
    simp only [MachineInstr.SparesReturnAddress, Instr.operands, List.mem_cons, not_or] at spares
    cases op <;> cases ran <;> exact (Kept.refl rfl).setReg spares.1 _
  | addi rd rs imm =>
    simp only [MachineInstr.SparesReturnAddress, Instr.operands, List.mem_cons, not_or] at spares
    cases ran
    have kept := fun w => (Kept.refl (i := .addi rd rs imm) (m := m) rfl).setReg spares.1 w
    exact setChecked_cases (P := Kept _ m) (kept _) ((kept _).setReg status _)
  | sw rd base offset =>
    simp only [Machine.effect] at ran
    split at ran <;> cases ran
    exact ⟨rfl, rfl, rfl⟩
  | lw rd base offset =>
    simp only [MachineInstr.SparesReturnAddress, Instr.operands, List.mem_cons, not_or] at spares
    simp only [Machine.effect] at ran
    split at ran <;> cases ran
    exact (Kept.refl rfl).setReg spares.1 _
  | branch op rd rs t =>
    cases ran
    exact Kept.refl rfl
  | jump op t =>
    cases op with
    | j | bex =>
      cases ran
      exact Kept.refl rfl
    | jal =>
      cases ran
      exact ⟨reg_setReg_of_ne _ _ (by decide), reg_setReg_self _ _ _ (by decide), pc_setReg ..⟩
  | jr rd =>
    cases ran
    exact Kept.refl rfl
  | setx value =>
    cases ran
    exact (Kept.refl rfl).setReg status _
  | testlog rd =>
    cases ran
    exact ⟨rfl, rfl, rfl⟩

end Machine

end SmallC
