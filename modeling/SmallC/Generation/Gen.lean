import SmallC.Allocation.Calls
import SmallC.Error
import SmallC.Program.Draft
import SmallC.Tree.Stmt

/-!
Code generation as an effect: it knows some facts about the whole source, extends a draft, asks the
allocator for registers, and stops at the first error. Instructions that the allocator emits on the way
go into the same draft.
-/
namespace SmallC

/-- A function of the source. -/
structure Function where
  ret : TypeSpec
  params : List Param
  /-- The body, unless only headers were seen. -/
  body : Option (List Stmt)
  isInline : Bool

/-- Facts about the whole source. -/
structure Context where
  functions : List (String × Function)
  /-- The variables whose address is taken somewhere. -/
  addressTaken : List String
  /-- The liveness of every occurrence of a variable, by its number. -/
  liveness : Array Liveness
  /-- Whether the allocator is checked after every statement. -/
  verifies : Bool

/-- How far code generation has come. -/
structure Progress where
  draft : Draft
  allocator : Allocator
  /-- Whether the expansion at hand has returned a value. -/
  returned : Bool
  /-- Number of assembly blocks so far. -/
  asmBlocks : Nat

/-- Nothing generated yet. -/
def Progress.initial : Progress := ⟨Draft.empty, Allocator.initial, false, 0⟩

/-- Code generation with an answer. -/
abbrev Gen := ReaderT Context (StateT Progress (Except CompileError))

/-- How a declared type is read as a number. Of a pointer it is what it points at that is read. -/
def TypeSpec.kind (ty : TypeSpec) : NumberKind := if ty.base.isFixed then .fixed else .int

/-- How values of a type are computed with: pointers are plain words. -/
def TypeSpec.arithmeticKind (ty : TypeSpec) : NumberKind := if ty.refs > 0 then .int else ty.kind

/-- The code that loads a number. One that does not fit an immediate is built from a high half that
is shifted into its place and a signed low half. -/
def literalCode (rd : Reg) (value : Int) : List MachineInstr :=
  if FitsSigned 16 value then [MachineInstr.loadImmediate rd value]
  else
    let low := value.bmod 65536
    let high := (value - low) / 65536
    [MachineInstr.loadImmediate rd high, .shift .sll rd rd 16]
      ++ if low = 0 then [] else [.addi rd rd low]

namespace Gen

/-- Stops with a semantic fault. -/
def fail {α : Type} (line : Nat) (fault : SemanticFault) : Gen α := throw (.semantic line fault)

/-- Lets the allocator do something. -/
def alloc {α : Type} (act : Alloc α) : Gen α := do
  let p ← get
  match act.run ⟨p.allocator, #[]⟩ with
  | .ok a w =>
    set { p with allocator := w.allocator, draft := p.draft.pushAll w.code }
    return a
  | .error fault _ => throw (.allocator fault)

/-- Reads something off the allocator's state. -/
def look {α : Type} (f : Allocator → α) : Gen α := return f (← get).allocator

/-- Changes the draft. -/
def draft (f : Draft → Draft) : Gen Unit := modify fun p => { p with draft := f p.draft }

/-- Emits an instruction. -/
def emit (i : MachineInstr) : Gen Unit := draft fun d => d.push i

/-- Emits instructions. -/
def emitAll (code : List MachineInstr) : Gen Unit := draft fun d => d.pushAll code.toArray

/-- A label that nothing is bound to yet. -/
def freshLabel : Gen String := do
  let p ← get
  let (label, draft) := p.draft.freshLabel
  set { p with draft }
  return label

/-- Fresh labels, one for each member of a list. -/
def freshLabels {α : Type} : List α → Gen (List String)
  | [] => return []
  | _ :: rest => do
    let label ← freshLabel
    return label :: (← freshLabels rest)

/-- Loads a number into a register. -/
def loadLiteral (rd : Reg) (value : Int) : Gen Unit := emitAll (literalCode rd value)

/-- A new temporary and its register. -/
def newTemp (kind : NumberKind) (refs : Nat) : Gen (String × Reg) := alloc do
  let name ← Alloc.addTemp
  let r ← Alloc.getRegister name false
  Alloc.setKind name kind
  Alloc.setRefs name refs
  return (name, r)

/-- The register that holds the current value of a variable. -/
def fetch (name : String) : Gen Reg := alloc (Alloc.getRegister name true)

/-- Drops a temporary whose value has been read. -/
def free (name : String) : Gen Unit := alloc (Alloc.removeIfTemp name)

/-- Releases the registers that the instruction just emitted used. -/
def releaseHolds : Gen Unit := alloc Alloc.releaseHolds

/-- Brings about the state in which paths of control meet. -/
def sync : Gen Unit := alloc Alloc.sync

/-- Binds a label where paths meet. -/
def placeLabel (label : String) : Gen Unit := do
  sync
  draft fun d => d.placeLabel label

/-- Jumps to where paths meet. -/
def jump (label : String) : Gen Unit := do
  sync
  emit (MachineInstr.jumpTo label)

/-- Lets a variable be the first to give way, if the expression is its newest occurrence. -/
def hint (e : Expr) : Gen Unit := do
  match e with
  | .var _ name occurrence =>
    if (← read).liveness.getD occurrence .lastUse = .lastUse then alloc (Alloc.demote name)
  | _ => return

/-- The function of that name, if there is one. -/
def function? (name : String) : Gen (Option Function) :=
  return (← read).functions.lookup name

/-- How a variable is computed with: pointers are plain words. -/
def arithmeticKind (name : String) : Gen NumberKind := do
  if (← alloc (Alloc.refs name)) > 0 then return .int else alloc (Alloc.kind name)

/-- How an element of an array, or what a pointer points at, is computed with. -/
def elementKind (name : String) : Gen NumberKind := do
  if (← alloc (Alloc.refs name)) > 1 then return .int else alloc (Alloc.kind name)

end Gen

end SmallC
