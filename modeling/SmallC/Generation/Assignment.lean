import SmallC.Generation.Memory

/-!
Assignments, to variables, to elements of arrays, and through pointers. The value of an assignment to a
variable is the variable; that of another is what was stored.
-/
namespace SmallC

/-- What an assignment writes to. -/
inductive Assignee where
  /-- A variable, with the expression that reads it. -/
  | variable (name : String) (code : Code)
  /-- What a pointer points at. -/
  | pointed (operand : Expr)
  | element (name : String) (indices : List Code)
  | other

namespace Gen

/-- Copies a value into a variable. -/
def assignName (name v : String) : Gen Unit := do
  let v ← convert v (← arithmeticKind name)
  if v = name then return
  let rs ← fetch v
  let rd ← alloc (Alloc.prepareWrite name)
  if rd ≠ rs then emit (MachineInstr.move rd rs)
  free v
  alloc (Alloc.markWritten name)
  releaseHolds

/-- Computes an expression into a variable. -/
def assignCode (name : String) (value : Code) : Gen Unit := do
  let constant? := value.expr.constant? (← arithmeticKind name)
  match constant?.filter fun n => FitsSigned 32 n with
  | some n =>
    let rd ← alloc (Alloc.prepareWrite name)
    loadLiteral rd n
    alloc (Alloc.markWritten name)
    releaseHolds
  | none => do assignName name (← value.value)

/-- Assigns to a variable, by way of an operator if the assignment is compounded with one. -/
def assignVariable (whole : Expr) (op : Option WordOp) (name : String) (target value : Code) :
    Gen String := do
  if ¬ (← look fun a => a.isDefined name) then fail whole.line (.undefinedName name)
  if ← look fun a => a.isArray name then fail whole.line (.assignedArray name)
  match op with
  | none => assignCode name value
  | some (.shift direction) => do assignName name (← shift whole direction target value.expr)
  | some (.arithmetic op) => do assignName name (← combine op name (← value.value))
  hint value.expr
  return name

/-- Assigns to what a pointer points at. -/
def assignPointed (whole operand : Expr) (value : Code) : Gen String := do
  let pointer ← operandName whole operand
  requirePointer whole.line pointer
  let v ← value.value
  let v ← convert v (← elementKind pointer)
  storeElement (.named pointer 0) v
  return v

/-- Assigns to an element of an array, or by an index to a pointer. -/
def assignElement (line : Nat) (name : String) (indices : List Code) (value : Code) :
    Gen String := do
  let v ← value.value
  let v ← convert v (← elementKind name)
  let address ← elementAddress line name indices
  storeElement address v
  return v

/-- An assignment. Only one to a variable can be compounded. -/
def assign (whole target : Expr) (op : Option WordOp) (assignee : Assignee) (value : Code) :
    Gen String :=
  match assignee, op with
  | .variable name code, op => assignVariable whole op name code value
  | .pointed operand, none => assignPointed whole operand value
  | .element name indices, none => assignElement whole.line name indices value
  | _, _ => fail whole.line (.assignedExpression target.text)

end Gen

end SmallC
