import SmallC.Generation.Source
import SmallC.Parser.Statement

/-!
Compilations: from source text to a linked program and the places of its variables.
-/
namespace SmallC

/-- What can be chosen about a compilation. -/
structure Config where
  /-- What the stack pointer starts at. -/
  stackTop : Int := 2047
  /-- Whether the peephole passes run. -/
  optimize : Bool := true
  /-- Whether the allocator is checked after every statement. -/
  verifyAllocator : Bool := false
  deriving DecidableEq, Repr

/-- A linked program and where its variables end up. -/
structure Compilation where
  program : Program
  /-- The variables of the top level, sorted by name. -/
  symbols : List (String × Location)

/-- Compiles a source. -/
def compile (config : Config) (source : String) : Except CompileError Compilation := do
  let unit ← parseSource source
  let generated ← unit.ordered.generate config.stackTop config.verifyAllocator
  match generated.draft.finish config.optimize with
  | .ok program => return ⟨program, generated.symbols⟩
  | .error e => throw (.link e)

/-- What is compiled was generated and linked. -/
theorem compile_generates {config : Config} {source : String} {unit : TranslationUnit} {c : Compilation}
    (parsed : parseSource source = .ok unit) (compiled : compile config source = .ok c) :
    ∃ g, unit.ordered.generate config.stackTop config.verifyAllocator = .ok g ∧
      g.draft.finish config.optimize = .ok c.program ∧ c.symbols = g.symbols := by
  unfold compile at compiled
  rw [parsed] at compiled
  change (unit.ordered.generate config.stackTop config.verifyAllocator).bind _ = _ at compiled
  cases did : unit.ordered.generate config.stackTop config.verifyAllocator with
  | error e =>
    rw [did] at compiled
    cases compiled
  | ok g =>
    rw [did] at compiled
    dsimp only [Except.bind] at compiled
    split at compiled
    · next program finished =>
      cases compiled
      exact ⟨g, rfl, finished, rfl⟩
    · cases compiled

/-- Compiles several sources as one, in order. -/
def compileAll (config : Config) (sources : List String) : Except CompileError Compilation :=
  compile config (String.intercalate "\n" sources)

/-- The content of a location. -/
def Machine.valueAt (m : Machine) : Location → Option Word
  | .register r => some (m.reg r)
  | .memory address => m.cell? address

namespace Compilation

/-- Where a variable of the top level ends up. -/
def location? (c : Compilation) (name : String) : Option Location := c.symbols.lookup name

/-- The value of a variable of the top level on a machine that ran the program. -/
def valueOf (c : Compilation) (m : Machine) (name : String) : Option Word :=
  (c.location? name).bind m.valueAt

end Compilation

end SmallC
