import SmallC.Machine.Instruction
import SmallC.Machine.Word

/-!
Execution. One step sets the next program counter to the following address, executes the instruction
there, which may move that counter, and then commits it. A run ends when no instruction is at the
program counter, when its bound on steps is reached, or with an error.

Arithmetic wraps. An overflow writes the wrapped result and then a code into the status register; a
division by zero writes only the code. The quotient of the least word by minus one wraps without a
code.
-/
namespace SmallC

/-- Why a step cannot be made. Both causes name the program counter. -/
inductive MachineError where
  | memoryOutOfBounds (pc address : Int)
  | unlinked (pc : Int) (text : String)
  deriving DecidableEq, Repr

/-- A program counter in a message. One that went below zero names no instruction and is written as
the greatest address of sixty-four bits. -/
def pcText (pc : Int) : String :=
  if pc < 0 then "18446744073709551615" else s!"{pc}"

/-- The wording of a machine error. -/
def MachineError.message : MachineError → String
  | memoryOutOfBounds pc address =>
    s!"Memory access at address {address} is outside data memory (pc {pcText pc})"
  | unlinked pc text => s!"Instruction at pc {pcText pc} was never linked ({text})"

/-- Codes that arithmetic leaves in the status register. -/
inductive Fault where
  | addOverflow | addiOverflow | subOverflow | mulOverflow | divideByZero
  deriving DecidableEq, Repr

/-- The word for a fault. -/
def Fault.code : Fault → Word
  | addOverflow => 1
  | addiOverflow => 2
  | subOverflow => 3
  | mulOverflow => 4
  | divideByZero => 5

/-- The state of the machine. -/
structure Machine where
  /-- Contents of the registers; the first stays zero. -/
  regs : Vector Word 32
  /-- Data memory, one word at each address. -/
  memory : Array Word
  /-- Address of the next instruction; it is minus one after a jump below zero. -/
  pc : Int
  /-- Values that the program reported, oldest first. -/
  log : Array Word

namespace Machine

/-- Words of data memory unless a run asks for another number. -/
def defaultMemory : Nat := 4096

/-- A machine with everything zero. -/
def fresh (words : Nat) : Machine :=
  { regs := Vector.replicate 32 0#32, memory := Array.replicate words 0#32, pc := 0, log := #[] }

/-- Content of a register. -/
def reg (m : Machine) (r : Reg) : Word := m.regs.get r.index

/-- Writes a register, unless it is the one that stays zero. -/
def setReg (m : Machine) (r : Reg) (value : Word) : Machine :=
  if r = Reg.zero then m else { m with regs := m.regs.set r.index.val value r.index_lt }

/-- Content of a memory cell, if there is one at the address. -/
def cell? (m : Machine) (address : Nat) : Option Word := m.memory[address]?

/-- Writes the code of a fault. -/
def raise (m : Machine) (fault : Fault) : Machine := m.setReg Reg.status fault.code

/-- Writes an arithmetic result, and the fault if the exact result is no word. -/
def setChecked (m : Machine) (rd : Reg) (exact : Int) (fault : Fault) : Machine :=
  let written := m.setReg rd (Word.ofInt exact)
  if FitsSigned 32 exact then written else written.raise fault

/-- The cell at an offset from a base register, if it lies in data memory. -/
def address (m : Machine) (base : Reg) (offset : Int) :
    Except MachineError (Fin m.memory.size) :=
  let a := (m.reg base).toInt + offset
  if h : 0 ≤ a ∧ a.toNat < m.memory.size then .ok ⟨a.toNat, h.2⟩
  else .error (.memoryOutOfBounds m.pc a)

/-- What a target resolved to. -/
def resolution (m : Machine) (i : MachineInstr) (target : Target) : Except MachineError Int :=
  match target.resolved with
  | some value => .ok value
  | none => .error (.unlinked m.pc i.text)

/-- The result of arithmetic on two registers. -/
def alu (m : Machine) (op : AluOp) (rd : Reg) (a b : Word) : Machine :=
  match op with
  | .add => m.setChecked rd (a.toInt + b.toInt) .addOverflow
  | .sub => m.setChecked rd (a.toInt - b.toInt) .subOverflow
  | .mul => m.setChecked rd (a.toInt * b.toInt) .mulOverflow
  | .div => if b = 0 then m.raise .divideByZero else m.setReg rd (BitVec.sdiv a b)
  | .and => m.setReg rd (a &&& b)
  | .or => m.setReg rd (a ||| b)
  | .slt => m.setReg rd (Word.ofBool (a.toInt < b.toInt))
  | .sgt => m.setReg rd (Word.ofBool (b.toInt < a.toInt))

/-- Whether a branch on two words is taken. -/
def branches (op : BranchOp) (a b : Word) : Bool :=
  match op with
  | .bne => a ≠ b
  | .blt => a.toInt < b.toInt

/-- Executes one instruction, given the counter of the following one. The answer is the machine
afterwards and where control goes, or the error; an unlinked call has set its link by then. -/
def execute (m : Machine) (i : MachineInstr) (nextPc : Int) :
    Machine × Except MachineError Int :=
  match i with
  | .alu op rd rs rt => (m.alu op rd (m.reg rs) (m.reg rt), .ok nextPc)
  | .shift .sll rd rs amount => (m.setReg rd (Word.shiftLeft (m.reg rs) amount), .ok nextPc)
  | .shift .sra rd rs amount => (m.setReg rd (Word.shiftRight (m.reg rs) amount), .ok nextPc)
  | .addi rd rs imm => (m.setChecked rd ((m.reg rs).toInt + imm) .addiOverflow, .ok nextPc)
  | .sw rd base offset =>
    match m.address base offset with
    | .ok a => ({ m with memory := m.memory.set a (m.reg rd) }, .ok nextPc)
    | .error e => (m, .error e)
  | .lw rd base offset =>
    match m.address base offset with
    | .ok a => (m.setReg rd m.memory[a], .ok nextPc)
    | .error e => (m, .error e)
  | .branch op rd rs target =>
    if branches op (m.reg rd) (m.reg rs) then
      (m, (m.resolution i target).map fun distance => nextPc + distance)
    else (m, .ok nextPc)
  | .jump .j target => (m, m.resolution i target)
  | .jump .jal target =>
    (m.setReg Reg.returnAddress (Word.ofInt (m.pc + 1)), m.resolution i target)
  | .jump .bex target =>
    if m.reg Reg.status = 0 then (m, .ok nextPc) else (m, m.resolution i target)
  | .jr rd => (m, .ok (m.reg rd).toInt)
  | .setx value => (m.setReg Reg.status (Word.ofInt value), .ok nextPc)
  | .testlog rd => ({ m with log := m.log.push (m.reg rd) }, .ok nextPc)

/-- Moves the program counter; every counter below zero is the same. -/
def goto (m : Machine) (pc : Int) : Machine :=
  { m with pc := if pc < 0 then -1 else pc }

end Machine

end SmallC
