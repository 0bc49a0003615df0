import SmallC.Compilation
import SmallC.Text.Json

/-!
Reports of runs, as text and as JSON.
-/
namespace SmallC

/-- What is reported about a variable. -/
structure VariableReport where
  name : String
  location : Option Location
  value : Option Word

/-- What is reported about a run. -/
structure Report where
  steps : Nat
  shown : List VariableReport
  log : List Word

namespace VariableReport

/-- The variable as a line of text. -/
def line (v : VariableReport) : String :=
  match v.location, v.value with
  | some location, some value => s!"{v.name} = {value.toInt} ({location.text})"
  | _, _ => s!"{v.name}: not a top-level variable"

/-- A location as JSON. -/
def locationJson : Location → JsonValue
  | .register r => .object [("Register", .integer r.index.val)]
  | .memory address => .object [("Memory", .integer address)]

/-- The variable as JSON. -/
def json (v : VariableReport) : JsonValue :=
  .object [("name", .string v.name), ("location", (v.location.map locationJson).getD .null),
    ("value", (v.value.map fun w => .integer w.toInt).getD .null)]

end VariableReport

namespace Report

/-- The report of a run that a machine has made. -/
def ofRun (c : Compilation) (shown : List String) (m : Machine) (steps : Nat) : Report where
  steps := steps
  shown := shown.map fun name => ⟨name, c.location? name, c.valueOf m name⟩
  log := m.log.toList

/-- The line for the log, which an empty log does not have. -/
def logLines (r : Report) : List String :=
  if r.log.isEmpty then []
  else ["log: " ++ String.intercalate " " (r.log.map fun w => s!"{w.toInt}")]

/-- The lines of the report. -/
def lines (r : Report) : List String :=
  s!"steps: {r.steps}" :: r.shown.map VariableReport.line ++ r.logLines

/-- The report as text. -/
def text (r : Report) : String := String.join (r.lines.map fun line => line ++ "\n")

/-- The report as JSON. -/
def json (r : Report) : JsonValue :=
  .object [("steps", .integer r.steps), ("variables", .array (r.shown.map VariableReport.json)),
    ("log", .array (r.log.map fun w => .integer w.toInt))]

end Report

end SmallC
