import SmallC.Assembly.Reader
import SmallC.Generation.Gen

/-!
Assembly blocks. The registers that a block names are moved out of the way of variables, each variable
that it names is bound to a register for the length of the block, and the labels that it defines are
renamed so that they are its own, unless they name a function.
-/
namespace SmallC

/-- The registers that assembly lines name, without those that the allocator never touches. -/
def namedRegisters (lines : List AsmLine) : List Reg :=
  let regs := (lines.flatMap AsmLine.operands).filterMap Operand.reg?
  (regs.filter fun r => r ≠ Reg.zero ∧ r ≠ Reg.stackPointer).eraseDups

/-- The labels that assembly lines define. -/
def definedLabels (lines : List AsmLine) : List String := lines.filterMap AsmLine.label

/-- Whether assembly lines define a label or refer to one. -/
def hasControlFlow (lines : List AsmLine) : Bool :=
  lines.any fun l => l.label.isSome || l.reference?.isSome

/-- The name of a label that belongs to a block. It starts with a dot, as no identifier does. -/
def blockLabel (own : List String) (block : Nat) (label : String) : String :=
  if label ∈ own then s!".asm{block}_{label}" else label

namespace Gen

/-- Binds variables to registers, each once. -/
def bindOperands (line : Nat) (bound : List (String × Reg)) :
    List String → Gen (List (String × Reg))
  | [] => return bound
  | name :: rest => do
    if (bound.lookup name).isSome then bindOperands line bound rest
    else
      if ¬ (← look fun a => a.isDefined name) then fail line (.undefinedOperand name)
      let r ← fetch name
      bindOperands line ((name, r) :: bound) rest

/-- The register of an operand. -/
def operandRegister (bound : List (String × Reg)) (o : Operand) : Gen Reg := do
  match o with
  | .reg r => return r
  | .var name =>
    match bound.lookup name with
    | some r => return r
    | none => throw (.allocator (.unboundOperand name))

/-- Emits an assembly line. -/
def emitLine (bound : List (String × Reg)) (rename : String → String) (l : AsmLine) : Gen Unit := do
  let instr ← l.lower (operandRegister bound) rename
  draft fun d => d.append ⟨l.label.map rename, instr⟩

/-- Notes that an assembly line writes a variable. -/
def noteWritten (l : AsmLine) : Gen Unit := do
  match l.written?.bind Operand.var? with
  | some name => alloc (Alloc.markWritten name)
  | none => return

/-- Numbers a new assembly block. -/
def nextBlock : Gen Nat := do
  let p ← get
  set { p with asmBlocks := p.asmBlocks + 1 }
  return p.asmBlocks

/-- An assembly block. -/
def asmBlock (line : Nat) (text : String) : Gen Unit := do
  match Assembly.read text with
  | .error fault => throw (.asm line fault)
  | .ok lines =>
    let block ← nextBlock
    let functions := (← read).functions
    let own := (definedLabels lines).filter fun label => (functions.lookup label).isNone
    if hasControlFlow lines then sync
    (namedRegisters lines).forM fun r => alloc do
      Alloc.reserve r
      Alloc.hold r
    let bound ← bindOperands line [] (lines.flatMap AsmLine.names)
    lines.forM (emitLine bound (blockLabel own block))
    lines.forM noteWritten
    releaseHolds
    alloc Alloc.unreserveAll

end Gen

end SmallC
