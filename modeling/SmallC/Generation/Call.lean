import SmallC.Generation.Condition
import SmallC.Generation.Exits

/-!
Calls. The first arguments of a call travel in registers; the others are pushed, so that they lie where
the stack pointer points at on entry. The caller puts aside its temporaries and its own return address.

The body of an inline function is expanded where the function is called: each parameter becomes another
name for the temporary that holds its argument, and a return assigns to a variable that no source can
name and leaves for the end of the expansion.
-/
namespace SmallC

/-- The name of the variable that takes the result of an expansion; it is a word of the language. -/
def resultName : String := "return"

/-- How calls compile, given the line, the name of the function and its arguments. -/
abbrev CallCode := Nat → String → List Code → Gen (Option String)

namespace Gen

/-- The value of an argument, read in the way its parameter is. -/
def argument (arg : Code) (ty : TypeSpec) : Gen String := do
  let v ← arg.value
  let v ← if ty.refs > 0 then pure v else convert v ty.kind
  hint arg.expr
  return v

/-- The values of all arguments of a call. -/
def arguments : List (Code × Param) → Gen (List String)
  | [] => return []
  | (arg, param) :: rest => do
    let v ← argument arg param.ty
    return v :: (← arguments rest)

/-- Moves the first arguments into the registers they travel in. -/
def passInRegisters : List (String × Reg) → Gen Unit
  | [] => return
  | (v, target) :: rest => do
    alloc (Alloc.reserve target)
    let rs ← fetch v
    if rs ≠ target then emit (MachineInstr.move target rs)
    free v
    passInRegisters rest

/-- The code that writes registers to consecutive words of the stack. -/
def pushCode (slot : Nat) : List Reg → List MachineInstr
  | [] => []
  | r :: rest => .sw r Reg.stackPointer slot :: pushCode (slot + 1) rest

/-- Moves the stack pointer, unless by nothing. -/
def moveStack (words : Int) : Gen Unit := do
  if words ≠ 0 then emit (.addi Reg.stackPointer Reg.stackPointer words)

/-- Calls a function with its arguments on the stack in the given registers. -/
def callWith (name : String) (stacked : List Reg) : Gen Unit := do
  alloc Alloc.saveForCall
  moveStack (-(stacked.length : Int))
  emitAll (pushCode 0 stacked)
  alloc (Alloc.pushWords stacked.length)
  emit (MachineInstr.callTo name)
  moveStack stacked.length
  alloc (Alloc.popWords stacked.length)
  alloc Alloc.restoreAfterCall
  alloc Alloc.unreserveAll
  releaseHolds

/-- A new temporary with the result of a call. -/
def takeResult (ret : TypeSpec) : Gen String := do
  let (temp, rd) ← newTemp ret.kind ret.refs
  emit (MachineInstr.move rd Reg.result)
  return temp

/-- A call of a function that is compiled where it stands. -/
def callCompiled (name : String) (f : Function) (args : List Code) : Gen (Option String) := do
  let values ← arguments (args.zip f.params)
  passInRegisters (values.zip Reg.arguments)
  let onStack := values.drop Reg.argumentCount
  let stacked ← onStack.mapM fetch
  onStack.forM free
  callWith name stacked
  if f.ret.isVoid then return none
  let temp ← takeResult f.ret
  releaseHolds
  return some temp

/-- The temporary that a parameter of an expansion stands for. -/
def expansionArgument (arg : Code) (param : Param) : Gen String := do
  let v ← argument arg param.ty
  let temp ←
    if ← look fun a => a.isTemp v then pure v
    else do
      let rs ← fetch v
      let (temp, rd) ← newTemp .int 0
      emit (MachineInstr.move rd rs)
      pure temp
  alloc (Alloc.setKind temp param.ty.kind)
  alloc (Alloc.setRefs temp param.ty.refs)
  releaseHolds
  return temp

/-- The temporaries that the parameters of an expansion stand for. -/
def expansionArguments : List (Code × Param) → Gen (List String)
  | [] => return []
  | (arg, param) :: rest => do
    let temp ← expansionArgument arg param
    return temp :: (← expansionArguments rest)

/-- Introduces the variable that takes the result of an expansion. -/
def declareResult (ret : TypeSpec) : Gen Unit := do
  if ¬ ret.isVoid then
    alloc (Alloc.declareVariable resultName)
    alloc (Alloc.setKind resultName ret.kind)
    alloc (Alloc.setRefs resultName ret.refs)

/-- Generates the body of an expansion; the answer says whether it returns a value. -/
def expansionBody (body : Gen Unit) : Gen Bool := do
  let outer := (← get).returned
  modify fun p => { p with returned := false }
  body
  let returned := (← get).returned
  modify fun p => { p with returned := outer }
  return returned

/-- The result of an expansion. Where no value was returned, assembly may have left one in the register
that carries results. -/
def expansionResult (ret : TypeSpec) (returned : Bool) : Gen (Option String) := do
  if ret.isVoid then return none
  else if returned then return some (← alloc (Alloc.detachAsTemp resultName))
  else
    alloc (Alloc.remove resultName)
    return some (← takeResult ret)

/-- Expands a function where it is called, given how its body compiles. -/
def expand (f : Function) (args : List Code) (body : Exits → Gen Unit) : Gen (Option String) := do
  let temps ← expansionArguments (args.zip f.params)
  alloc (Alloc.pushLevel true)
  (f.params.zip temps).forM fun (param, temp) => alloc (Alloc.setAlias param.name temp)
  declareResult f.ret
  let done ← freshLabel
  let returned ← expansionBody (body (Exits.ofFunction done f.ret true))
  placeLabel done
  let result ← expansionResult f.ret returned
  f.params.forM fun param => alloc (Alloc.removeAlias param.name)
  alloc Alloc.popLevel
  temps.forM free
  releaseHolds
  return result

/-- A call, given how the body of an inline function is expanded. -/
def call (expansion : Nat → String → Function → List Stmt → List Code → Gen (Option String)) :
    CallCode := fun line name args => do
  match ← function? name with
  | none =>
    if ← look fun a => a.isDefined name then fail line (.calledOther name)
    else fail line (.calledUnknown name)
  | some f =>
    if args.length ≠ f.params.length then
      fail line (.argumentsGiven name f.params.length args.length)
    match f.isInline, f.body with
    | true, some body => expansion line name f body args
    | _, _ => callCompiled name f args

end Gen

end SmallC
