import SmallC.Generation.Arithmetic

/-!
Access to memory: elements of arrays, what pointers point at, and addresses. Indices that are literals
are folded into the offset of the access as far as it reaches; others are computed.
-/
namespace SmallC

/-- Where an element of an array, or what a pointer points at, is to be found. -/
inductive ElementAddress where
  /-- At an address that code can form without computing. -/
  | fixed (address : Address)
  /-- At an offset from the value of a variable or temporary. -/
  | named (name : String) (offset : Int)

/-- Words between neighbours along each dimension of an array. -/
def strides : List Nat → List Nat
  | [] => []
  | _ :: dims => wordCount dims :: strides dims

/-- Words between neighbours along each index. A one-dimensional array and a pointer are indexed by
words. -/
def indexStrides (dims : List Nat) (indices : Nat) : List Nat :=
  if dims.length > 1 then strides dims else List.replicate indices 1

/-- The offset that literal indices amount to. -/
def constantOffset? : List (Expr × Nat) → Option Int
  | [] => some 0
  | (.int _ value, stride) :: rest => (constantOffset? rest).map fun offset => value * stride + offset
  | _ => none

namespace Gen

/-- The variable that an expression consists of, which has to be one that exists. -/
def operandName (whole operand : Expr) : Gen String := do
  match operand.varName? with
  | none => fail whole.line (.addressOperandIn whole.text)
  | some name =>
    if ← look fun a => a.isDefined name then return name
    else fail whole.line (.undefinedName name)

/-- Refuses a variable that is no pointer. -/
def requirePointer (line : Nat) (name : String) : Gen Unit := do
  if (← alloc (Alloc.refs name)) = 0 then fail line (.notPointer name)

/-- The offset that computed indices amount to, added to what those before them do. -/
def linearIndex (before : Option String) : List (Code × Nat) → Gen (Option String)
  | [] => return before
  | (index, stride) :: rest => do
    let v ← convert (← index.value) .int
    let term ← if stride = 1 then pure v else do combine .mul v (← literal stride .int)
    match before with
    | none => linearIndex (some term) rest
    | some sum => do linearIndex (some (← combine .add sum term)) rest

/-- The address of an element by computed indices. -/
def computedAddress (line : Nat) (name : String) (indices : List (Code × Nat)) :
    Gen ElementAddress := do
  match ← linearIndex none indices with
  | none => fail line (.noIndex name)
  | some linear =>
    let base ← fetch name
    let index ← fetch linear
    free linear
    let (temp, rd) ← newTemp .int 1
    emit (.alu .add rd base index)
    releaseHolds
    return .named temp 0

/-- The address of an element by an offset, if the offset reaches it. -/
def foldedAddress? (name : String) (offset : Int) : Gen (Option ElementAddress) := do
  if ← look fun a => a.isArray name then
    let start ← alloc (Alloc.arrayAddress name)
    let whole := start.offset + offset
    return if FitsSigned 16 whole then some (.fixed { start with offset := whole }) else none
  else return some (.named name offset)

/-- The address of an element. -/
def elementAddress (line : Nat) (name : String) (indices : List Code) : Gen ElementAddress := do
  if ¬ (← look fun a => a.isDefined name) then fail line (.undefinedName name)
  if ¬ (← look fun a => a.isArray name) ∧ (← alloc (Alloc.refs name)) = 0 then
    fail line (.notElementwise name)
  let strides := indexStrides (← alloc (Alloc.dims name)) indices.length
  let offset? := constantOffset? ((indices.map Code.expr).zip strides)
  let folded? ←
    match offset?.filter fun n => FitsSigned 16 n with
    | some offset => foldedAddress? name offset
    | none => pure none
  match folded? with
  | some address => return address
  | none => computedAddress line name (indices.zip strides)

/-- Loads an element into a new temporary. -/
def loadElement (address : ElementAddress) : Gen String := do
  match address with
  | .fixed a =>
    let (temp, rd) ← newTemp .int 0
    emit (.lw rd a.base a.offset)
    releaseHolds
    return temp
  | .named name offset =>
    let kind ← alloc (Alloc.kind name)
    let refs ← alloc (Alloc.refs name)
    let base ← fetch name
    free name
    let (temp, rd) ← newTemp kind (refs - 1)
    emit (.lw rd base offset)
    releaseHolds
    return temp

/-- Stores a value to an element. -/
def storeElement (address : ElementAddress) (value : String) : Gen Unit := do
  let r ← fetch value
  match address with
  | .fixed a => emit (.sw r a.base a.offset)
  | .named name offset =>
    let base ← fetch name
    free name
    emit (.sw r base offset)
  releaseHolds

/-- The value of an element. -/
def readElement (line : Nat) (name : String) (indices : List Code) : Gen String := do
  let address ← elementAddress line name indices
  let kind ← alloc (Alloc.kind name)
  let refs ← alloc (Alloc.refs name)
  let temp ← loadElement address
  alloc (Alloc.setKind temp kind)
  alloc (Alloc.setRefs temp (refs - 1))
  return temp

/-- What a pointer points at. -/
def dereference (whole operand : Expr) : Gen String := do
  let name ← operandName whole operand
  requirePointer whole.line name
  loadElement (.named name 0)

/-- The address of a variable. That of an array is a pointer to its elements. -/
def addressOf (whole operand : Expr) : Gen String := do
  let name ← operandName whole operand
  let refs ← alloc (Alloc.refs name)
  let kind ← alloc (Alloc.kind name)
  let address ← alloc (Alloc.memoryAddress name)
  let isArray ← look fun a => a.isArray name
  let (temp, rd) ← newTemp kind (if isArray then refs else refs + 1)
  emit (.addi rd address.base address.offset)
  releaseHolds
  return temp

/-- Stores a word at an offset from a base register, by a computed address if the offset does not fit
an immediate. -/
def storeWord (value base : Reg) (offset : Int) : Gen Unit := do
  if FitsSigned 16 offset then emit (.sw value base offset)
  else
    let (temp, address) ← newTemp .int 1
    loadLiteral address offset
    if base ≠ Reg.zero then emit (.alu .add address address base)
    emit (.sw value address 0)
    free temp

end Gen

end SmallC
