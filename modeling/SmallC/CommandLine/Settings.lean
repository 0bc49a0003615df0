import SmallC.Compilation
import SmallC.Text.Json

/-!
Settings files: a configuration as JSON. It is an object whose fields may be left out and whose other
fields are ignored, or an array of the same values in order.
-/
namespace SmallC.Config

/-- The word that a JSON value is. -/
def word? : JsonValue → Option Int
  | .integer n => if FitsSigned 32 n then some n else none
  | _ => none

/-- The truth value that a JSON value is. -/
def truth? : JsonValue → Option Bool
  | .bool b => some b
  | _ => none

/-- Reads a value that may be left out. -/
def orDefault {α : Type} (default : α) (read : JsonValue → Option α) :
    Option JsonValue → Option α
  | none => some default
  | some v => read v

/-- The configuration of three values, each of which may be left out. -/
def ofValues? (stackTop optimize verifyAllocator : Option JsonValue) : Option Config := do
  let default : Config := {}
  return {
    stackTop := ← orDefault default.stackTop word? stackTop
    optimize := ← orDefault default.optimize truth? optimize
    verifyAllocator := ← orDefault default.verifyAllocator truth? verifyAllocator }

/-- The value of a field that may stand once; the outer answer is nothing if it stands twice. -/
def field? (fields : List (String × JsonValue)) (name : String) : Option (Option JsonValue) :=
  match fields.filter fun f => f.1 = name with
  | [] => some none
  | [f] => some (some f.2)
  | _ => none

/-- The configuration that a JSON value is. -/
def ofJson? : JsonValue → Option Config
  | .object fields => do
    ofValues? (← field? fields "stack_top") (← field? fields "optimize")
      (← field? fields "verify_allocator")
  | .array items => if items.length ≤ 3 then ofValues? items[0]? items[1]? items[2]? else none
  | _ => none

/-- The configuration that a text writes. -/
def ofText? (text : String) : Option Config := (JsonValue.ofText? text).bind ofJson?

end SmallC.Config
