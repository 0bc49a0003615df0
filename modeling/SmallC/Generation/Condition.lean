import SmallC.Generation.Assignment

/-!
Conditions. A condition is compiled in one of two ways: to a branch that is taken where it holds, or to
a value that is one or zero. The machine branches on *less* and on *unequal* alone, so the other
relations branch around a jump; as values, *less* and *greater* are instructions, their negations turn
the result over, and everything else branches between a block that sets zero and one that sets one.

Every path out of a branch leaves the allocator in the state where paths meet.
-/
namespace SmallC

/-- The branch that decides a relation between two registers, and whether the relation holds where it
is taken or where it is not. -/
def Relation.test (r : Relation) (a b : Reg) (label : String) : MachineInstr × Bool :=
  match r with
  | .lt => (MachineInstr.branchTo .blt a b label, true)
  | .gt => (MachineInstr.branchTo .blt b a label, true)
  | .ne => (MachineInstr.branchTo .bne a b label, true)
  | .le => (MachineInstr.branchTo .blt b a label, false)
  | .ge => (MachineInstr.branchTo .blt a b label, false)
  | .eq => (MachineInstr.branchTo .bne a b label, false)

/-- The code that computes an order relation as one or zero; the other relations have none. -/
def Relation.valueCode? (r : Relation) (rd a b : Reg) : Option (List MachineInstr) :=
  let turned := [.alu .sub rd Reg.zero rd, .addi rd rd 1]
  match r with
  | .lt => some [.alu .slt rd a b]
  | .gt => some [.alu .sgt rd a b]
  | .le => some (.alu .sgt rd a b :: turned)
  | .ge => some (.alu .slt rd a b :: turned)
  | .eq => none
  | .ne => none

namespace Gen

/-- A value in a register, in the state where paths meet. -/
def conditionRegister (c : Code) : Gen Reg := do
  let v ← c.value
  let r ← fetch v
  free v
  hint c.expr
  sync
  return r

/-- Two values, as fixed-point numbers if one of them is one. -/
def commonKind (l r : String) : Gen (String × String) := do
  if (← arithmeticKind l) = .fixed ∨ (← arithmeticKind r) = .fixed then
    return (← convert l .fixed, ← convert r .fixed)
  else return (l, r)

/-- Both operands of a relation in registers, read in the same way as numbers. A literal zero on the
right is the register that holds zero. -/
def relationOperands (left right : Code) : Gen (Reg × Reg) := do
  let l ← left.value
  match right.expr with
  | .int _ 0 =>
    let a ← fetch l
    free l
    hint left.expr
    return (a, Reg.zero)
  | _ =>
    let r ← right.value
    let (l, r) ← commonKind l r
    let a ← fetch l
    let b ← fetch r
    free l
    free r
    hint left.expr
    hint right.expr
    return (a, b)

/-- Branches where a relation holds. -/
def branchRelation (r : Relation) (left right : Code) (target : String) : Gen Unit := do
  let (a, b) ← relationOperands left right
  sync
  match r.test a b target with
  | (branch, true) =>
    emit branch
    releaseHolds
  | (_, false) =>
    let around ← freshLabel
    emit (r.test a b around).1
    emit (MachineInstr.jumpTo target)
    releaseHolds
    placeLabel around

/-- Branches where both operands hold. -/
def branchBoth (left right : Code) (target : String) : Gen Unit := do
  let second ← freshLabel
  let skip ← freshLabel
  left.branch second
  jump skip
  placeLabel second
  right.branch target
  placeLabel skip

/-- Branches where either operand holds. -/
def branchEither (left right : Code) (target : String) : Gen Unit := do
  left.branch target
  right.branch target

/-- Branches where the operand does not hold. -/
def branchNot (operand : Code) (target : String) : Gen Unit := do
  let r ← conditionRegister operand
  let around ← freshLabel
  emit (MachineInstr.branchTo .bne r Reg.zero around)
  emit (MachineInstr.jumpTo target)
  releaseHolds
  placeLabel around

/-- Branches where a value is not zero. -/
def branchValue (c : Code) (target : String) : Gen Unit := do
  let r ← conditionRegister c
  emit (MachineInstr.branchTo .bne r Reg.zero target)
  releaseHolds

/-- What a branch decides, as a value. -/
def decided (branch : String → Gen Unit) : Gen String := do
  let (temp, _) ← newTemp .int 0
  let yes ← freshLabel
  let done ← freshLabel
  branch yes
  emit (MachineInstr.loadImmediate (← fetch temp) 0)
  jump done
  placeLabel yes
  emit (MachineInstr.loadImmediate (← fetch temp) 1)
  placeLabel done
  releaseHolds
  return temp

/-- A relation as a value. -/
def relationValue (r : Relation) (left right : Code) : Gen String := do
  match r with
  | .eq => decided (branchRelation r left right)
  | .ne => decided (branchRelation r left right)
  | _ =>
    let (a, b) ← relationOperands left right
    let (temp, rd) ← newTemp .int 0
    emitAll ((r.valueCode? rd a b).getD [])
    releaseHolds
    return temp

end Gen

end SmallC
