import SmallC.Allocation.Consistency
import SmallC.Generation.Block
import SmallC.Generation.Expression

/-!
How statements compile, given how calls do and where control can leave for.
-/
namespace SmallC

namespace Gen

/-- Ends a statement: no register is held any more, and no temporary of it is alive. -/
def endStatement (exits : Exits) (line : Nat) : Gen Unit := do
  releaseHolds
  if ¬ exits.inExpansion then
    let temps ← look Allocator.liveTemps
    if ¬ temps.isEmpty then
      if (← read).verifies then throw (.allocator (.leakedTemporaries temps line))
      let _ ← alloc Alloc.discardTemps
  if (← read).verifies then
    match ← look Allocator.checkConsistency with
    | .ok () => return
    | .error fault => throw (.allocator fault)

/-- Computes an expression and drops its value. -/
def evaluate (c : Code) : Gen Unit := do
  match ← c.result with
  | some v => free v
  | none => pure ()
  hint c.expr
  releaseHolds

/-- Statements in a level of their own. -/
def block (body : Gen Unit) : Gen Unit := do
  alloc (Alloc.pushLevel false)
  body
  alloc Alloc.popLevel

/-- Introduces a variable with the value of an expression. -/
def defineAs (name : String) (ty : TypeSpec) (value : Code) : Gen Unit := do
  let v ← value.value
  let v ← if ty.refs > 0 then pure v else convert v ty.arithmeticKind
  if ← look fun a => a.isTemp v then alloc (Alloc.renameTemp v name)
  else
    let rs ← fetch v
    let rd ← alloc (Alloc.addVariable name none)
    emit (MachineInstr.move rd rs)
  hint value.expr

/-- Introduces a variable with a value, which may be a literal. -/
def initialise (name : String) (ty : TypeSpec) (value : Code) : Gen Unit := do
  match (value.expr.constant? ty.arithmeticKind).filter fun n => FitsSigned 32 n with
  | some n => loadLiteral (← alloc (Alloc.addVariable name none)) n
  | none => defineAs name ty value

/-- Notes the declared type of a variable, and whether pointers to it exist. The variable is written
home if it has a value. -/
def noteType (name : String) (ty : TypeSpec) (hasValue : Bool) : Gen Unit := do
  alloc (Alloc.setKind name ty.kind)
  alloc (Alloc.setRefs name ty.refs)
  if name ∈ (← read).addressTaken then
    alloc (Alloc.setMustReload name)
    if hasValue then alloc (Alloc.markWritten name)

/-- The definition of a variable. -/
def define (name : String) (ty : TypeSpec) (value : Option Code) : Gen Unit := do
  match value with
  | none => alloc (Alloc.declareVariable name)
  | some value => initialise name ty value
  noteType name ty value.isSome
  releaseHolds

/-- Stores the first elements of an array, from an index on. -/
def storeElements (name : String) (kind : NumberKind) (index : Nat) : List Code → Gen Unit
  | [] => return
  | element :: rest => do
    let v ← convert (← element.value) kind
    let start ← alloc (Alloc.arrayAddress name)
    storeWord (← fetch v) start.base (start.offset + index)
    free v
    releaseHolds
    storeElements name kind (index + 1) rest

/-- The definition of an array. -/
def defineArray (name : String) (ty : TypeSpec) (dims : List Nat) (init : List Code) :
    Gen Unit := do
  let size := wordCount dims
  if ¬ FitsSigned 32 size then throw (.allocator (.arrayTooLarge name size))
  alloc (Alloc.setArray name size)
  alloc (Alloc.setDims name dims)
  alloc (Alloc.setKind name ty.kind)
  alloc (Alloc.setRefs name (ty.refs + 1))
  storeElements name ty.arithmeticKind 0 init

/-- Tests conditions in order. -/
def testAll : List (Code × String) → Gen Unit
  | [] => return
  | (cond, label) :: rest => do
    cond.branch label
    testAll rest

/-- The bodies of a conditional, from the last to the first. All but the first leave for the end. -/
def branchBodies (done : String) : List (Gen Unit × String) → Gen Unit
  | [] => return
  | [(body, label)] => do
    placeLabel label
    block body
  | (body, label) :: rest => do
    placeLabel label
    block body
    jump done
    branchBodies done rest

/-- A conditional. What holds otherwise stands behind the tests. -/
def conditional (branches : List (Code × Gen Unit)) (otherwise : Option (Gen Unit)) : Gen Unit := do
  let done ← freshLabel
  let labels ← freshLabels branches
  testAll ((branches.map Prod.fst).zip labels)
  match otherwise with
  | some body => block body
  | none => pure ()
  jump done
  branchBodies done ((branches.map Prod.snd).zip labels).reverse
  placeLabel done

/-- A loop that tests its condition first. The test stands behind the body. -/
def whileLoop (exits : Exits) (cond : Code) (body : Exits → Gen Unit) : Gen Unit := do
  let again ← freshLabel
  let test ← freshLabel
  let done ← freshLabel
  jump test
  placeLabel again
  block (body (exits.inLoop done test))
  placeLabel test
  cond.branch again
  placeLabel done

/-- A loop with its own initialisation and step. -/
def forLoop (exits : Exits) (init : Gen Unit) (cond step : Option Code) (body : Exits → Gen Unit) :
    Gen Unit := do
  let again ← freshLabel
  let next ← freshLabel
  let test ← freshLabel
  let done ← freshLabel
  block do
    init
    jump test
    placeLabel again
    block (body (exits.inLoop done next))
    placeLabel next
    match step with
    | some step => evaluate step
    | none => pure ()
    placeLabel test
    match cond with
    | some cond => cond.branch again
    | none => jump again
    placeLabel done

/-- Leaves an expansion, with a value or without one. -/
def returnFromExpansion (target : ReturnTarget) (value : Option Code) : Gen Unit := do
  match value with
  | some value =>
    assignCode resultName value
    hint value.expr
    modify fun p => { p with returned := true }
  | none => pure ()
  jump target.label

/-- Leaves a function, with a value or without one. -/
def returnFromFunction (target : ReturnTarget) (value : Option Code) : Gen Unit := do
  match value with
  | some value =>
    let v ← convert (← value.value) target.ty.arithmeticKind
    let rs ← fetch v
    emit (MachineInstr.move Reg.result rs)
    free v
    releaseHolds
  | none => pure ()
  jump target.label

/-- A return. -/
def leave (exits : Exits) (line : Nat) (value : Option Code) : Gen Unit := do
  match exits.ret with
  | none => fail line .returnOutsideFunction
  | some target =>
    if target.isExpansion then returnFromExpansion target value else returnFromFunction target value

/-- A jump to where control can leave for, if it can. -/
def leaveFor (label : Option String) (line : Nat) (fault : SemanticFault) : Gen Unit :=
  match label with
  | some label => jump label
  | none => fail line fault

/-- Loads the parameters that are on the stack, from one place there on. -/
def loadParams (slot : Nat) : List Param → Gen Unit
  | [] => return
  | param :: rest => do
    let rd ← alloc (Alloc.addVariable param.name none)
    emit (.lw rd Reg.stackPointer slot)
    loadParams (slot + 1) rest

/-- Introduces the parameters of a function. Those on the stack are read while the stack pointer still
points at them, and between them and the others the frame is made. The answer is the place of the
instruction that makes it, which is known only at the end of the function. -/
def enter (params : List Param) : Gen Nat := do
  loadParams 0 (params.drop Reg.argumentCount)
  let place := (← get).draft.size
  emit MachineInstr.noop
  (params.zip Reg.arguments).forM fun (param, r) => alloc do
    let _ ← Alloc.addVariable param.name (some r)
  params.forM fun param => noteType param.name param.ty true
  releaseHolds
  return place

/-- A function where it stands. Control that comes along jumps over it. -/
def function (name : String) (ret : TypeSpec) (params : List Param) (body : Exits → Gen Unit) :
    Gen Unit := do
  let behind ← freshLabel
  let done ← freshLabel
  jump behind
  draft fun d => d.placeLabel name
  alloc Alloc.enterFunction
  let entry ← enter params
  body (Exits.ofFunction done ret false)
  placeLabel done
  let exit := (← get).draft.size
  emit MachineInstr.noop
  let frame ← alloc Alloc.leaveFunction
  if frame > 0 then
    draft fun d => d.patch entry (.addi Reg.stackPointer Reg.stackPointer (-(frame : Int)))
    draft fun d => d.patch exit (.addi Reg.stackPointer Reg.stackPointer frame)
  emit (.jr Reg.returnAddress)
  draft fun d => d.placeLabel behind

mutual

/-- The code of a statement. -/
def statement (calls : CallCode) (exits : Exits) : Stmt → Gen Unit
  | .expr e => evaluate (code calls e)
  | .define _ name ty value => define name ty (value.map (code calls))
  | .array _ name ty dims init => defineArray name ty dims (codes calls init)
  | .function _ name ret params (some body) false =>
    function name ret params fun exits => statements calls exits body
  | .function .. => return
  | .conditional _ branches (some otherwise) =>
    conditional (branchCodes calls exits branches) (some (statements calls exits otherwise))
  | .conditional _ branches none => conditional (branchCodes calls exits branches) none
  | .whileLoop _ cond body =>
    whileLoop exits (code calls cond) fun exits => statements calls exits body
  | .forLoop _ (some init) cond step body =>
    forLoop exits (do statement calls exits init; releaseHolds) (cond.map (code calls))
      (step.map (code calls)) fun exits => statements calls exits body
  | .forLoop _ none cond step body =>
    forLoop exits (return) (cond.map (code calls)) (step.map (code calls)) fun exits =>
      statements calls exits body
  | .returns line value => leave exits line (value.map (code calls))
  | .breaks line => leaveFor exits.brk line .breakOutsideLoop
  | .continues line => leaveFor exits.cont line .continueOutsideLoop
  | .asm line text => asmBlock line text
  | .group _ body => block (statements calls exits body)

/-- The code of several statements, each of them ended. -/
def statements (calls : CallCode) (exits : Exits) : List Stmt → Gen Unit
  | [] => return
  | s :: rest => do
    statement calls exits s
    endStatement exits s.line
    statements calls exits rest

/-- The code of the branches of a conditional. -/
def branchCodes (calls : CallCode) (exits : Exits) : List Branch → List (Code × Gen Unit)
  | [] => []
  | .mk cond body :: rest =>
    (code calls cond, statements calls exits body) :: branchCodes calls exits rest

end

end Gen

end SmallC
