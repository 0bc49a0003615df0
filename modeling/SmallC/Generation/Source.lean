import SmallC.Generation.Statement

/-!
How a whole source compiles. A call of an inline function may stand in the body of another one, so how
calls compile is defined level by level: at each level one more function is being expanded, and a
function that is being expanded must not be expanded again. A source has no more levels than functions.
-/
namespace SmallC

namespace Gen

/-- How calls compile while some functions are being expanded, of which there may be so many more. -/
def calls (active : List String) : Nat → CallCode
  | 0 => call fun line name _ _ _ => fail line (.recursiveInline name)
  | levels + 1 => call fun line name f body args => do
    if name ∈ active then fail line (.recursiveInline name)
    expand f args fun exits => statements (calls (name :: active) levels) exits body

/-- A whole source: the stack pointer is set, then the statements follow. -/
def source (stackTop : Int) (unit : List Stmt) : Gen Unit := do
  loadLiteral Reg.stackPointer stackTop
  statements (calls [] (← read).functions.length) Exits.none unit

end Gen

/-- The function that a statement declares, with its name. -/
def Stmt.function? : Stmt → Option (String × Function)
  | .function _ name ret params body isInline => some (name, ⟨ret, params, body, isInline⟩)
  | _ => none

/-- Adds a function to those known. A header adds nothing to a function whose body is known. -/
def addFunction (known : List (String × Function)) (new : String × Function) :
    List (String × Function) :=
  let hasBody := (known.lookup new.1).any fun f => f.body.isSome
  if hasBody ∧ new.2.body.isNone then known
  else new :: known.filter fun f => f.1 ≠ new.1

/-- The functions that statements declare. -/
def functionsOf (unit : List Stmt) : List (String × Function) :=
  (unit.filterMap Stmt.function?).foldl addFunction []

/-- What code generation knows about a source. -/
def Context.of (unit : TranslationUnit) (verifies : Bool) : Context where
  functions := functionsOf unit.statements
  addressTaken := Stmt.addressTakenIn unit.statements
  liveness := unit.liveness
  verifies := verifies

/-- What is generated for a source. -/
structure Generated where
  draft : Draft
  /-- Where the variables of the top level end up, sorted by name. -/
  symbols : List (String × Location)

/-- The variables of the top level with their locations. -/
def Allocator.symbols (a : Allocator) : List (String × Location) :=
  a.rootNames.filterMap fun name => (a.location? name).map fun location => (name, location)

/-- Generates code for a source whose statements stand in order of execution. -/
def TranslationUnit.generate (unit : TranslationUnit) (stackTop : Int) (verifies : Bool) :
    Except CompileError Generated := do
  let act := (Gen.source stackTop unit.statements).run (Context.of unit verifies)
  let ((), p) ← act.run Progress.initial
  return ⟨p.draft, p.allocator.symbols⟩

end SmallC
