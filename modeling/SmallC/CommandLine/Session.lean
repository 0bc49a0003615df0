import SmallC.CommandLine.Files
import SmallC.CommandLine.Options
import SmallC.CommandLine.Report
import SmallC.CommandLine.Settings

/-!
Sessions: what one command line does. The configuration is settled first, then the sources are read and
compiled, the output is written, and at last the program is run and reported on. The first fault ends
the session. A session has access to files and to nothing else, so it is a function of its arguments and
of the files.
-/
namespace SmallC.CommandLine

/-- Why a session fails. -/
inductive SessionFault where
  | unreadableConfig (path : String) (e : FileError)
  | malformedConfig (path : String)
  | stackTopOutside (stackTop : Int) (words : Nat)
  | unreadableSource (path : String) (e : FileError)
  | compile (e : CompileError)
  | encode (e : EncodeError)
  | unwritable (path : String) (e : FileError)
  | machine (e : MachineError)
  deriving DecidableEq, Repr

/-- The wording of a fault and of what caused it, the outermost first. -/
def SessionFault.chain : SessionFault → List String
  | unreadableConfig path e => [s!"reading config '{path}'", e.message]
  | malformedConfig path => [s!"parsing config '{path}'", "not a configuration"]
  | stackTopOutside stackTop words =>
    [s!"stack top {stackTop} is outside {words} words of data memory"]
  | unreadableSource path e => [s!"reading '{path}'", e.message]
  | compile e => e.message :: e.cause?.toList
  | encode e => [e.message]
  | unwritable path e => [s!"writing '{path}'", e.message]
  | machine e => [e.message]

/-- The wording of a fault. -/
def SessionFault.message (fault : SessionFault) : String := String.intercalate ": " fault.chain

/-- What a session leaves behind, apart from the files it wrote. -/
structure Outcome where
  exitCode : Nat
  output : String
  errors : String
  deriving DecidableEq, Repr

/-- A configuration with what the command line says in its place. -/
def Options.override (o : Options) (config : Config) : Config where
  stackTop := o.stackTop.getD config.stackTop
  optimize := config.optimize && !o.noOptimize
  verifyAllocator := config.verifyAllocator || o.verifyAllocator

/-- Whether the stack starts outside of data memory. Where it ends matters only if the program is
run. -/
def Options.stackOutside (o : Options) (stackTop : Int) : Prop :=
  stackTop < 0 ∨ (o.run = true ∧ (o.memoryWords : Int) ≤ stackTop)

instance (o : Options) (stackTop : Int) : Decidable (o.stackOutside stackTop) :=
  inferInstanceAs (Decidable (_ ∨ _))

/-- The output for a compiled program. -/
def Format.render (format : Format) (program : Program) : Except EncodeError String :=
  match format with
  | .asm => .ok program.listing
  | .mem => program.memoryImage

section

variable {m : Type → Type} [Monad m]

/-- A session, or part of one. -/
abbrev Session (m : Type → Type) := ExceptT SessionFault m

namespace Session

/-- Reads a file. -/
def read (files : Files m) (path : String) (fault : FileError → SessionFault) :
    Session m String := do
  match ← files.read path with
  | .ok text => return text
  | .error e => throw (fault e)

/-- The configuration in a file. -/
def readConfig (files : Files m) (path : String) : Session m Config := do
  match Config.ofText? (← read files path (.unreadableConfig path)) with
  | some config => return config
  | none => throw (.malformedConfig path)

/-- The configuration of a session. -/
def config (files : Files m) (o : Options) : Session m Config := do
  let base ←
    match o.config with
    | some path => readConfig files path
    | none => pure {}
  let config := o.override base
  if o.stackOutside config.stackTop then throw (.stackTopOutside config.stackTop o.memoryWords)
  return config

/-- Compiles sources. -/
def compile (config : Config) (sources : List String) : Session m Compilation :=
  match compileAll config sources with
  | .ok c => return c
  | .error e => throw (.compile e)

/-- The output for a compiled program. -/
def render (o : Options) (program : Program) : Session m String :=
  match o.format.render program with
  | .ok text => return text
  | .error e => throw (.encode e)

/-- Writes the output to its file; the answer is what goes to the standard output instead. A program
that is run has its report there. -/
def deliver (files : Files m) (o : Options) (text : String) : Session m String := do
  match o.output with
  | none => return if o.run then "" else text
  | some path =>
    match ← files.write path text with
    | .ok () => return ""
    | .error e => throw (.unwritable path e)

/-- Runs a program; the answer is the report. -/
def report (o : Options) (c : Compilation) : Session m String :=
  match (Machine.fresh o.memoryWords).run c.program o.maxSteps with
  | (_, .error e) => throw (.machine e)
  | (machine, .ok steps) =>
    let report := Report.ofRun c o.shown machine steps
    return if o.json then report.json.pretty 0 ++ "\n" else report.text

/-- A whole session; the answer is what goes to the standard output. -/
def perform (files : Files m) (o : Options) : Session m String := do
  let config ← config files o
  let sources ← o.files.mapM fun path => read files path (.unreadableSource path)
  let c ← compile config sources
  let printed ← deliver files o (← render o c.program)
  if o.run then return printed ++ (← report o c) else return printed

end Session

/-- What a command line does. -/
def respond (files : Files m) (args : List String) : m Outcome := do
  match Options.ofArguments args with
  | .error e => return ⟨2, "", "error: " ++ e.message ++ "\n"⟩
  | .ok o =>
    match ← (Session.perform files o).run with
    | .ok output => return ⟨0, output, ""⟩
    | .error fault => return ⟨1, "", "Error: " ++ fault.message ++ "\n"⟩

end

end SmallC.CommandLine
