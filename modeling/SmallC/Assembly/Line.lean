import SmallC.Machine.Instruction

/-!
Lines of inline assembly. A register position of a line is a register or a variable in parentheses,
and jump targets are labels, so a line carries an instruction over operands and label names. A label
that no instruction follows stands on a line of its own.
-/
namespace SmallC

/-- A register position: a register, or the register that holds a variable. -/
inductive Operand where
  | reg (r : Reg)
  | var (name : String)
  deriving DecidableEq, Repr

namespace Operand

/-- The variable that the operand stands for, if it stands for one. -/
def var? : Operand → Option String
  | var name => some name
  | reg _ => none

/-- The register that the operand names, if it names one. -/
def reg? : Operand → Option Reg
  | reg r => some r
  | var _ => none

/-- The operand as it is written. -/
def text : Operand → String
  | reg r => r.text
  | var name => s!"({name})"

end Operand

/-- One line of inline assembly. -/
structure AsmLine where
  label : Option String
  /-- The instruction; nothing stands for the one that does nothing. -/
  instr : Option (Instr Operand String)
  deriving DecidableEq, Repr

namespace AsmLine

/-- A label with nothing to do. -/
def anchor (label : String) : AsmLine := ⟨some label, none⟩

/-- The register positions of the line, in the order of the text. -/
def operands (l : AsmLine) : List Operand := (l.instr.map Instr.operands).getD []

/-- The variables among the operands. -/
def names (l : AsmLine) : List String := l.operands.filterMap Operand.var?

/-- The operand that the line writes, if it writes one. -/
def written? (l : AsmLine) : Option Operand := l.instr.bind Instr.written?

/-- The label that the line refers to, if it refers to one. -/
def reference? (l : AsmLine) : Option String := l.instr.bind Instr.target?

/-- The machine instruction of the line, given the register of each operand and the final name of
each label. -/
def lower {m : Type → Type} [Monad m] (reg : Operand → m Reg) (label : String → String)
    (l : AsmLine) : m MachineInstr :=
  match l.instr with
  | some instr => instr.rename reg fun target => Target.unresolved (label target)
  | none => return MachineInstr.noop

end AsmLine

end SmallC
