import SmallC.CommandLine.Session

/-!
The command line: carries out sessions on the files of the system.
-/
namespace SmallC.CommandLine

/-- Whether an error code of the system, which may come with its sign turned, has a number. -/
def hasNumber (code number : UInt32) : Bool := code = number || code = 0 - number

/-- What an error of the system means for a file. -/
def fileError : IO.Error → FileError
  | .noFileOrDirectory .. => .missing
  | .permissionDenied .. => .denied
  | .inappropriateType _ code details =>
    if hasNumber code 20 then .notDirectory
    else if hasNumber code 21 then .isDirectory
    else .other details
  | .invalidArgument _ code details =>
    if hasNumber code 36 then .nameTooLong else .other details
  | e => .other (toString e)

/-- Carries out an action on a file. -/
def attempt {α : Type} (act : IO α) : IO (Except FileError α) := do
  try
    return .ok (← act)
  catch e => return .error (fileError e)

/-- The text that bytes encode. -/
def textOf (bytes : ByteArray) : Except FileError String :=
  match String.fromUTF8? bytes with
  | some text => .ok text
  | none => .error .notText

/-- Access to the files of the system. -/
def systemFiles : Files IO where
  read path := return (← attempt (IO.FS.readBinFile path)) >>= textOf
  write path text := attempt (IO.FS.writeFile path text)

end SmallC.CommandLine

/-- Carries out the session that the arguments describe. -/
def main (args : List String) : IO UInt32 := do
  let outcome ← SmallC.CommandLine.respond SmallC.CommandLine.systemFiles args
  IO.print outcome.output
  IO.eprint outcome.errors
  return outcome.exitCode.toUInt32
