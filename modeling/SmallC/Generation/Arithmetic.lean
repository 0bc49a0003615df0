import SmallC.Generation.Gen
import SmallC.Source.FixedPoint

/-!
Arithmetic. An expression compiles to the name of the variable or temporary that holds its value; a
temporary is dropped by whoever reads it. Fixed-point operands are brought to a scale at which the
integer operation gives the scaled result.
-/
namespace SmallC

/-- A compiled expression. -/
structure Code where
  /-- The expression itself. -/
  expr : Expr
  /-- Computes the expression and names what holds its value, if it has one. -/
  result : Gen (Option String)
  /-- Goes to a label where the expression is not zero and falls through where it is. -/
  branch : String → Gen Unit

/-- Computes an expression that must have a value. -/
def Code.value (c : Code) : Gen String := do
  match ← c.result with
  | some name => return name
  | none => Gen.fail c.expr.line (.noValue c.expr.text)

/-- The value of a literal at the scale of a kind. -/
def Expr.constant? (kind : NumberKind) : Expr → Option Int
  | .int _ value =>
    match kind with
    | .int => some value
    | .fixed => some (value * FixedPoint.one)
  | .fixed _ value =>
    match kind with
    | .int => some (value / FixedPoint.one)
    | .fixed => some value
  | _ => none

/-- The value of a literal that can be added to a value of a kind as it stands. -/
def Expr.addend? (kind : NumberKind) : Expr → Option Int
  | .int line value => Expr.constant? kind (.int line value)
  | .fixed _ value => if kind = .fixed then some value else none
  | _ => none

/-- The literal right operand as the immediate of an addition. -/
def ArithmeticOp.immediate? (op : ArithmeticOp) (kind : NumberKind) (right : Expr) : Option Int :=
  let addend? :=
    match op with
    | .add => right.addend? kind
    | .sub => (right.addend? kind).map Neg.neg
    | _ => none
  addend?.filter fun n => FitsSigned 16 n

/-- The code of an operation on two registers, into one that differs from both. The exclusive or is
what the or has and the and has not; the remainder is what the quotient leaves over. -/
def ArithmeticOp.code (op : ArithmeticOp) (rd a b : Reg) : List MachineInstr :=
  match op with
  | .add => [.alu .add rd a b]
  | .sub => [.alu .sub rd a b]
  | .mul => [.alu .mul rd a b]
  | .div => [.alu .div rd a b]
  | .bitAnd => [.alu .and rd a b]
  | .bitOr => [.alu .or rd a b]
  | .xor => [.alu .or Reg.scratch a b, .alu .and rd a b, .alu .sub rd Reg.scratch rd]
  | .mod => [.alu .div rd a b, .alu .mul rd rd b, .alu .sub rd a rd]

/-- The instruction that shifts in a direction. -/
def ShiftDirection.instr (direction : ShiftDirection) (rd rs : Reg) (amount : Nat) : MachineInstr :=
  match direction with
  | .left => .shift .sll rd rs amount
  | .right => .shift .sra rd rs amount

namespace Gen

/-- A temporary with a number in it. -/
def literal (value : Int) (kind : NumberKind) : Gen String := do
  let (name, rd) ← newTemp kind 0
  loadLiteral rd value
  releaseHolds
  return name

/-- A value shifted into a new temporary. -/
def shifted (direction : ShiftDirection) (name : String) (amount : Nat) (kind : NumberKind)
    (refs : Nat) : Gen String := do
  let rs ← fetch name
  free name
  let (temp, rd) ← newTemp kind refs
  emit (direction.instr rd rs amount)
  releaseHolds
  return temp

/-- A value as one of a kind; pointers stay as they are. -/
def convert (name : String) (kind : NumberKind) : Gen String := do
  if (← alloc (Alloc.refs name)) > 0 ∨ (← alloc (Alloc.kind name)) = kind then return name
  match kind with
  | .fixed => shifted .left name FixedPoint.fractionBits kind 0
  | .int => shifted .right name FixedPoint.fractionBits kind 0

/-- Bits by which each factor of a fixed-point product is scaled down. -/
def halfScale : Nat := FixedPoint.fractionBits / 2

/-- A fixed-point value scaled down by half of its fraction. -/
def rescale (name : String) : Gen String := shifted .right name halfScale .fixed 0

/-- The operands of an operation at the scale it needs, and by how much its result is scaled up
again. A product or quotient with one integer factor needs no scaling. -/
def reconcile (op : ArithmeticOp) (l r : String) : Gen (String × String × Option Nat) := do
  match op, ← arithmeticKind l, ← arithmeticKind r with
  | _, .int, .int => return (l, r, none)
  | .mul, .fixed, .fixed => return (← rescale l, ← rescale r, none)
  | .mul, _, _ => return (l, r, none)
  | .div, .fixed, .int => return (l, r, none)
  | .div, _, .fixed => return (← convert l .fixed, ← rescale r, some halfScale)
  | _, _, _ => return (← convert l .fixed, ← convert r .fixed, none)

/-- The kind of the result of an operation. A pointer operand decides it, the left one first. -/
def resultKind (l r : String) : Gen NumberKind := do
  if (← alloc (Alloc.refs l)) > 0 then alloc (Alloc.kind l)
  else if (← alloc (Alloc.refs r)) > 0 then alloc (Alloc.kind r)
  else if (← arithmeticKind l) = .fixed ∨ (← arithmeticKind r) = .fixed then return .fixed
  else return .int

/-- Combines two values. -/
def combine (op : ArithmeticOp) (l r : String) : Gen String := do
  let kind ← resultKind l r
  let refs := max (← alloc (Alloc.refs l)) (← alloc (Alloc.refs r))
  let (l, r, scaleUp) ← reconcile op l r
  let a ← fetch l
  let b ← fetch r
  free l
  free r
  let (temp, rd) ← newTemp kind refs
  emitAll (op.code rd a b)
  match scaleUp with
  | some amount => emit (.shift .sll rd rd amount)
  | none => pure ()
  releaseHolds
  return temp

/-- Adds an immediate to a value. -/
def addImmediate (name : String) (n : Int) : Gen String := do
  let refs ← alloc (Alloc.refs name)
  let kind ← alloc (Alloc.kind name)
  let rs ← fetch name
  free name
  let (temp, rd) ← newTemp kind refs
  emit (.addi rd rs n)
  releaseHolds
  return temp

/-- An arithmetic operation on two expressions. -/
def arithmetic (op : ArithmeticOp) (left right : Code) : Gen String := do
  let l ← left.value
  match op.immediate? (← arithmeticKind l) right.expr with
  | some n =>
    let result ← addImmediate l n
    hint left.expr
    return result
  | none =>
    let r ← right.value
    let result ← combine op l r
    hint left.expr
    hint right.expr
    return result

/-- The amount of a shift in an expression, which must be a literal. -/
def shiftAmount (whole right : Expr) : Gen Nat := do
  match right with
  | .int _ amount =>
    if 0 ≤ amount ∧ amount < 32 then return amount.toNat
    else fail whole.line (.shiftOutOfRange amount)
  | _ => fail whole.line (.shiftNotConstant whole.text)

/-- A shift in an expression. -/
def shift (whole : Expr) (direction : ShiftDirection) (left : Code) (right : Expr) : Gen String := do
  let amount ← shiftAmount whole right
  let l ← left.value
  let kind ← alloc (Alloc.kind l)
  let refs ← alloc (Alloc.refs l)
  let result ← shifted direction l amount kind refs
  hint left.expr
  return result

/-- Negation. -/
def negate (operand : Code) : Gen String := do
  let v ← operand.value
  let kind ← alloc (Alloc.kind v)
  let rs ← fetch v
  free v
  let (temp, rd) ← newTemp kind 0
  emit (.alu .sub rd Reg.zero rs)
  releaseHolds
  return temp

end Gen

end SmallC
