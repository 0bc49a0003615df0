import SmallC.Machine.Register

/-!
The instruction set. An instruction is generic in how it names registers and jump targets, so that
the same type serves machine code, where both are concrete, and inline assembly, where a register
position may name a variable. Its formats are

* register operations `op rd, rs, rt` and shifts `op rd, rs, amount`,
* immediates `op rd, rs, n`, memory accesses `op rd, n(base)` and conditional branches,
* jumps and operations on the status register.
-/
namespace SmallC

/-- Arithmetic on two registers. -/
inductive AluOp where
  | add | sub | and | or | mul | div
  /-- One if the first operand is less than the second, else zero. -/
  | slt
  /-- One if the first operand is greater than the second, else zero. -/
  | sgt
  deriving DecidableEq, Repr

/-- Shifts by a constant; the right shift copies the sign. -/
inductive ShiftOp where
  | sll | sra
  deriving DecidableEq, Repr

/-- Conditions of the relative branches: the operands differ, or the first is less. -/
inductive BranchOp where
  | bne | blt
  deriving DecidableEq, Repr

/-- Absolute jumps: unconditional, with a link to the next instruction, and on a non-zero status. -/
inductive JumpOp where
  | j | jal | bex
  deriving DecidableEq, Repr

/-- The operation's name in assembly text. -/
def AluOp.mnemonic : AluOp → String
  | .add => "add"
  | .sub => "sub"
  | .and => "and"
  | .or => "or"
  | .mul => "mul"
  | .div => "div"
  | .slt => "slt"
  | .sgt => "sgt"

/-- The operation's name in assembly text. -/
def ShiftOp.mnemonic : ShiftOp → String
  | .sll => "sll"
  | .sra => "sra"

/-- The operation's name in assembly text. -/
def BranchOp.mnemonic : BranchOp → String
  | .bne => "bne"
  | .blt => "blt"

/-- The operation's name in assembly text. -/
def JumpOp.mnemonic : JumpOp → String
  | .j => "j"
  | .jal => "jal"
  | .bex => "bex"

/-- An instruction over registers named by `R` and jump targets named by `L`. -/
inductive Instr (R L : Type) where
  | alu (op : AluOp) (rd rs rt : R)
  | shift (op : ShiftOp) (rd rs : R) (amount : Nat)
  | addi (rd rs : R) (imm : Int)
  /-- Stores `rd` at `offset` words from `base`. -/
  | sw (rd base : R) (offset : Int)
  /-- Loads `rd` from `offset` words from `base`. -/
  | lw (rd base : R) (offset : Int)
  | branch (op : BranchOp) (rd rs : R) (target : L)
  | jump (op : JumpOp) (target : L)
  /-- Jumps to the address in a register. -/
  | jr (rd : R)
  /-- Writes the status register. -/
  | setx (value : Int)
  /-- Appends the value of a register to the test log. -/
  | testlog (rd : R)
  deriving DecidableEq, Repr

/-- A jump target. What it resolves to is an address for absolute jumps, and for relative branches
the distance from the instruction after the branch. -/
structure Target where
  label : String
  resolved : Option Int
  deriving DecidableEq, Repr

/-- An instruction of the machine itself. -/
abbrev MachineInstr := Instr Reg Target

namespace Instr

variable {R L R' L' : Type}

/-- The instruction's name in assembly text. -/
def mnemonic : Instr R L → String
  | alu op .. => op.mnemonic
  | shift op .. => op.mnemonic
  | addi .. => "addi"
  | sw .. => "sw"
  | lw .. => "lw"
  | branch op .. => op.mnemonic
  | jump op _ => op.mnemonic
  | jr _ => "jr"
  | setx _ => "setx"
  | testlog _ => "testlog"

/-- Every register position, in the order of the text. -/
def operands : Instr R L → List R
  | alu _ rd rs rt => [rd, rs, rt]
  | shift _ rd rs _ => [rd, rs]
  | addi rd rs _ => [rd, rs]
  | sw rd base _ => [rd, base]
  | lw rd base _ => [rd, base]
  | branch _ rd rs _ => [rd, rs]
  | jump .. => []
  | jr rd => [rd]
  | setx _ => []
  | testlog rd => [rd]

/-- The register position that the instruction writes, if it has one. -/
def written? : Instr R L → Option R
  | alu _ rd .. => some rd
  | shift _ rd .. => some rd
  | addi rd .. => some rd
  | lw rd .. => some rd
  | _ => none

/-- The jump target, if there is one. -/
def target? : Instr R L → Option L
  | branch _ _ _ target => some target
  | jump _ target => some target
  | _ => none

/-- Names registers and targets anew. Registers are named in the order of the text, so the first
that has no new name decides the outcome. -/
def rename {m : Type → Type} [Monad m] (reg : R → m R') (target : L → L') :
    Instr R L → m (Instr R' L')
  | alu op rd rs rt => return alu op (← reg rd) (← reg rs) (← reg rt)
  | shift op rd rs amount => return shift op (← reg rd) (← reg rs) amount
  | addi rd rs imm => return addi (← reg rd) (← reg rs) imm
  | sw rd base offset => return sw (← reg rd) (← reg base) offset
  | lw rd base offset => return lw (← reg rd) (← reg base) offset
  | branch op rd rs t => return branch op (← reg rd) (← reg rs) (target t)
  | jump op t => return jump op (target t)
  | jr rd => return jr (← reg rd)
  | setx value => return setx value
  | testlog rd => return testlog (← reg rd)

/-- Changes the jump target and nothing else. -/
def mapTarget (f : L → L) : Instr R L → Instr R L
  | branch op rd rs target => branch op rd rs (f target)
  | jump op target => jump op (f target)
  | other => other

end Instr

/-- A target that is not linked yet. -/
def Target.unresolved (label : String) : Target := ⟨label, none⟩

namespace MachineInstr

/-- Adds zero to zero, which does nothing; it gives a label a place to stand. -/
def noop : MachineInstr := .alu .add Reg.zero Reg.zero Reg.zero

/-- Copies a register. -/
def move (rd rs : Reg) : MachineInstr := .alu .add rd Reg.zero rs

/-- Loads an immediate. -/
def loadImmediate (rd : Reg) (value : Int) : MachineInstr := .addi rd Reg.zero value

/-- Jumps to a label that is not linked yet. -/
def jumpTo (label : String) : MachineInstr := .jump .j (.unresolved label)

/-- Calls a label that is not linked yet. -/
def callTo (label : String) : MachineInstr := .jump .jal (.unresolved label)

/-- Branches to a label that is not linked yet. -/
def branchTo (op : BranchOp) (rd rs : Reg) (label : String) : MachineInstr :=
  .branch op rd rs (.unresolved label)

/-- Recognises the instruction that does nothing. -/
def isNoop (i : MachineInstr) : Bool := i = noop

/-- Recognises the unconditional jump to a label. -/
def isJump : MachineInstr → Bool
  | .jump .j _ => true
  | _ => false

/-- Whether control never reaches the next instruction. -/
def neverFallsThrough : MachineInstr → Bool
  | .jump .j _ => true
  | .jr _ => true
  | _ => false

/-- Whether the target resolves to a distance. -/
def isRelative : MachineInstr → Bool
  | .branch .. => true
  | _ => false

/-- The instruction as assembly listings write it. -/
def text (i : MachineInstr) : String :=
  i.mnemonic ++ " " ++
    match i with
    | .alu _ rd rs rt => s!"{rd.text}, {rs.text}, {rt.text}"
    | .shift _ rd rs amount => s!"{rd.text}, {rs.text}, {amount}"
    | .addi rd rs imm => s!"{rd.text}, {rs.text}, {imm}"
    | .sw rd base offset => s!"{rd.text}, {offset}({base.text})"
    | .lw rd base offset => s!"{rd.text}, {offset}({base.text})"
    | .branch _ rd rs target => s!"{rd.text}, {rs.text}, {target.label}"
    | .jump _ target => target.label
    | .jr rd => rd.text
    | .setx value => s!"{value}"
    | .testlog rd => rd.text

end MachineInstr

end SmallC
