import Mathlib
import SmallC.Machine.Execution

/-!
What instructions do to the machine, apart from moving the program counter, and how registers, memory
and the log read behind them. An instruction either has such an effect or would access an address
outside of data memory; which of the two, and the effect, depend on no jump target.
-/
namespace SmallC.Machine

variable (m : Machine) (r q : Reg) (w : Word)

/-- A register behind a write. -/
theorem reg_setReg : (m.setReg r w).reg q = if q = r ∧ r ≠ Reg.zero then w else m.reg q := by
  obtain ⟨⟨r, hr⟩⟩ := r
  obtain ⟨⟨q, hq⟩⟩ := q
  unfold setReg reg
  by_cases zero : (⟨⟨r, hr⟩⟩ : Reg) = Reg.zero
  · simp [zero]
  · by_cases same : r = q
    · subst same
      simp [zero, Vector.get]
    · have : q ≠ r := fun h => same h.symm
      simp [zero, Vector.get, Array.getElem_set, same, this]

theorem reg_setReg_self (writable : r ≠ Reg.zero) : (m.setReg r w).reg r = w := by
  simp [reg_setReg, writable]

variable {r q} in
theorem reg_setReg_of_ne (other : q ≠ r) : (m.setReg r w).reg q = m.reg q := by
  simp [reg_setReg, other]

@[simp]
theorem memory_setReg : (m.setReg r w).memory = m.memory := by
  unfold setReg
  split <;> rfl

@[simp]
theorem log_setReg : (m.setReg r w).log = m.log := by
  unfold setReg
  split <;> rfl

@[simp]
theorem pc_setReg : (m.setReg r w).pc = m.pc := by
  unfold setReg
  split <;> rfl

@[simp]
theorem reg_goto (pc : Int) : (m.goto pc).reg q = m.reg q := rfl

@[simp]
theorem memory_goto (pc : Int) : (m.goto pc).memory = m.memory := rfl

@[simp]
theorem log_goto (pc : Int) : (m.goto pc).log = m.log := rfl

theorem pc_goto_nat (pc : Nat) : (m.goto pc).pc = pc := by
  simp [goto]

@[simp]
theorem reg_fresh (words : Nat) : (fresh words).reg q = 0 := by
  simp [fresh, reg, Vector.get]

variable {m r q}

/-- A property of machines that no write of an allowed register breaks holds behind a checked one. -/
theorem setChecked_cases {P : Machine → Prop} {rd : Reg} {exact : Int} {fault : Fault}
    (written : P (m.setReg rd (Word.ofInt exact)))
    (raised : P ((m.setReg rd (Word.ofInt exact)).raise fault)) :
    P (m.setChecked rd exact fault) := by
  unfold setChecked
  simp only
  split
  · exact written
  · exact raised

/-- Arithmetic on two registers writes its destination and at most the status behind it, or the
status alone. -/
theorem alu_cases {P : Machine → Prop} {op : AluOp} {rd : Reg} {a b : Word}
    (written : ∀ w, P (m.setReg rd w)) (raised : ∀ w fault, P ((m.setReg rd w).raise fault))
    (divided : P (m.raise .divideByZero)) : P (m.alu op rd a b) := by
  cases op with
  | add => exact setChecked_cases (written _) (raised _ _)
  | sub => exact setChecked_cases (written _) (raised _ _)
  | mul => exact setChecked_cases (written _) (raised _ _)
  | div =>
    simp only [alu]
    split
    · exact divided
    · exact written _
  | and => exact written _
  | or => exact written _
  | slt => exact written _
  | sgt => exact written _

/-- An address lies in data memory, or an access to it fails. -/
theorem address_cases (m : Machine) (base : Reg) (offset : Int) :
    (∃ a, m.address base offset = .ok a ∧ (a.val : Int) = (m.reg base).toInt + offset) ∨
    m.address base offset = .error (.memoryOutOfBounds m.pc ((m.reg base).toInt + offset)) := by
  unfold address
  simp only
  split
  · next inside => exact .inl ⟨_, rfl, Int.toNat_of_nonneg inside.1⟩
  · exact .inr rfl

/-- What an instruction does to registers, memory and log, or the address outside of data memory that
it would access. -/
def effect (m : Machine) (i : MachineInstr) : Except Int Machine :=
  match i with
  | .alu op rd rs rt => .ok (m.alu op rd (m.reg rs) (m.reg rt))
  | .shift .sll rd rs amount => .ok (m.setReg rd (Word.shiftLeft (m.reg rs) amount))
  | .shift .sra rd rs amount => .ok (m.setReg rd (Word.shiftRight (m.reg rs) amount))
  | .addi rd rs imm => .ok (m.setChecked rd ((m.reg rs).toInt + imm) .addiOverflow)
  | .sw rd base offset =>
    match m.address base offset with
    | .ok a => .ok { m with memory := m.memory.setIfInBounds a (m.reg rd) }
    | .error _ => .error ((m.reg base).toInt + offset)
  | .lw rd base offset =>
    match m.address base offset with
    | .ok a => .ok (m.setReg rd ((m.cell? a).getD 0))
    | .error _ => .error ((m.reg base).toInt + offset)
  | .jump .jal _ => .ok (m.setReg Reg.returnAddress (Word.ofInt (m.pc + 1)))
  | .setx value => .ok (m.setReg Reg.status (Word.ofInt value))
  | .testlog rd => .ok { m with log := m.log.push (m.reg rd) }
  | _ => .ok m

@[simp]
theorem effect_mapTarget (m : Machine) (i : MachineInstr) (f : Target → Target) :
    m.effect (i.mapTarget f) = m.effect i := by
  cases i with
  | shift op => cases op <;> rfl
  | jump op => cases op <;> rfl
  | _ => rfl

end SmallC.Machine
