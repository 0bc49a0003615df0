import SmallC.Machine.Execution
import SmallC.Text.Numeral

/-!
Command-line options. Arguments are first told apart into files, switches and options with values, and
then read as the options of one run. An option may stand once, but for the one that lists variables.
-/
namespace SmallC.CommandLine

/-- What is written for a compiled program. -/
inductive Format where
  /-- The assembly listing. -/
  | asm
  /-- The memory image. -/
  | mem
  deriving DecidableEq, Repr

/-- What the command line asks for. -/
structure Options where
  /-- The sources, compiled in order as one. -/
  files : List String
  /-- Where the output goes, if not to the standard output. -/
  output : Option String
  format : Format
  /-- Whether the program is run. -/
  run : Bool
  maxSteps : Nat
  /-- Words of data memory that the program is run with. -/
  memoryWords : Nat
  /-- The variables to report. -/
  shown : List String
  /-- Whether the report is JSON. -/
  json : Bool
  config : Option String
  stackTop : Option Int
  noOptimize : Bool
  verifyAllocator : Bool
  deriving DecidableEq, Repr

/-- Options without a value. -/
inductive Switch where
  | run | json | noOptimize | verifyAllocator
  deriving DecidableEq, Repr

/-- Options with a value. -/
inductive Setting where
  | output | format | maxSteps | memoryWords | shown | config | stackTop
  deriving DecidableEq, Repr

/-- The switches by name. -/
def switches : List (String × Switch) :=
  [("run", .run), ("json", .json), ("no-optimize", .noOptimize),
    ("verify-allocator", .verifyAllocator)]

/-- The settings by name. -/
def settings : List (String × Setting) :=
  [("output", .output), ("format", .format), ("max-steps", .maxSteps),
    ("dmem-words", .memoryWords), ("show", .shown), ("config", .config),
    ("stack-top", .stackTop)]

/-- The name that entries of a table give to a value. -/
def nameIn {α : Type} [DecidableEq α] (table : List (String × α)) (value : α) : String :=
  "--" ++ ((table.find? fun entry => entry.2 = value).map Prod.fst).getD ""

/-- Why arguments are no command line. -/
inductive UsageError where
  | unknownOption (arg : String)
  | unexpectedValue (switch : Switch)
  | missingValue (setting : Setting)
  | repeatedSwitch (switch : Switch)
  | repeatedSetting (setting : Setting)
  | badValue (setting : Setting) (text : String)
  | emptyFile
  | noFiles
  deriving DecidableEq, Repr

/-- The wording of a usage error. -/
def UsageError.message : UsageError → String
  | unknownOption arg => s!"unexpected argument '{arg}'"
  | unexpectedValue switch => nameIn switches switch ++ " takes no value"
  | missingValue setting => nameIn settings setting ++ " needs a value"
  | repeatedSwitch switch => nameIn switches switch ++ " is given more than once"
  | repeatedSetting setting => nameIn settings setting ++ " is given more than once"
  | badValue setting text => s!"invalid value '{text}' for " ++ nameIn settings setting
  | emptyFile => "a file name is empty"
  | noFiles => "no source file is given"

/-- An argument, told apart from the others. -/
inductive Item where
  | file (name : String)
  | switch (switch : Switch)
  | setting (setting : Setting) (text : String)
  deriving DecidableEq, Repr

/-- The form of an argument. -/
inductive Form where
  /-- A file, or the value of the option before. -/
  | word
  /-- Two dashes alone: all further arguments are files. -/
  | separator
  /-- A name behind two dashes, and a value behind an equals sign. -/
  | long (name : String) (value : Option String)
  /-- Letters behind one dash. -/
  | short (letters : List Char)
  deriving DecidableEq, Repr

/-- Cuts a name off the value behind its equals sign. -/
def splitValue (cs : List Char) : String × Option String :=
  let name := String.ofList (cs.takeWhile (· ≠ '='))
  match cs.dropWhile (· ≠ '=') with
  | [] => (name, none)
  | _ :: value => (name, some (String.ofList value))

/-- The form of an argument. One dash alone is a word. -/
def formOf (arg : String) : Form :=
  match arg.toList with
  | ['-', '-'] => .separator
  | '-' :: '-' :: cs => .long (splitValue cs).1 (splitValue cs).2
  | '-' :: c :: cs => .short (c :: cs)
  | _ => .word

/-- An option that an argument spells: a switch, or a setting with the value attached to it. -/
inductive Spelled where
  | switch (switch : Switch)
  | setting (setting : Setting) (value : Option String)
  deriving DecidableEq, Repr

/-- The option of a long name. -/
def longOption (arg name : String) (value : Option String) : Except UsageError Spelled :=
  match switches.lookup name, settings.lookup name, value with
  | some s, _, none => .ok (.switch s)
  | some s, _, some _ => .error (.unexpectedValue s)
  | none, some s, value => .ok (.setting s value)
  | none, none, _ => .error (.unknownOption arg)

/-- The option of a letter. The value may follow at once or behind an equals sign. -/
def shortOption (arg : String) : List Char → Except UsageError Spelled
  | ['o'] => .ok (.setting .output none)
  | 'o' :: '=' :: value => .ok (.setting .output (some (String.ofList value)))
  | 'o' :: value => .ok (.setting .output (some (String.ofList value)))
  | _ => .error (.unknownOption arg)

/-- Puts an item in front of those read from the arguments behind it. -/
def Item.before (item : Item) (behind : Except UsageError (List Item)) :
    Except UsageError (List Item) :=
  behind.map (item :: ·)

/-- Tells arguments apart. -/
def itemsOf : List String → Except UsageError (List Item)
  | [] => .ok []
  | arg :: rest =>
    let spelled? :=
      match formOf arg with
      | .long name value => some (longOption arg name value)
      | .short letters => some (shortOption arg letters)
      | .word => none
      | .separator => none
    match spelled?, rest with
    | none, rest =>
      if formOf arg = .separator then .ok (rest.map Item.file)
      else (Item.file arg).before (itemsOf rest)
    | some (.error e), _ => .error e
    | some (.ok (.switch s)), rest => (Item.switch s).before (itemsOf rest)
    | some (.ok (.setting s (some value))), rest => (Item.setting s value).before (itemsOf rest)
    | some (.ok (.setting s none)), [] => .error (.missingValue s)
    | some (.ok (.setting s none)), value :: rest =>
      if formOf value = .word then (Item.setting s value).before (itemsOf rest)
      else .error (.missingValue s)

/-- The files among items. -/
def filesIn (items : List Item) : List String :=
  items.filterMap fun item =>
    match item with
    | .file name => some name
    | _ => none

/-- The values that items give to a setting. -/
def valuesIn (items : List Item) (setting : Setting) : List String :=
  items.filterMap fun item =>
    match item with
    | .setting s text => if s = setting then some text else none
    | _ => none

/-- Whether a switch is among items, where it may stand once. -/
def isOn (items : List Item) (s : Switch) : Except UsageError Bool :=
  match items.count (.switch s) with
  | 0 => .ok false
  | 1 => .ok true
  | _ => .error (.repeatedSwitch s)

/-- The value of a setting that may stand once. -/
def settingOf {α : Type} (items : List Item) (setting : Setting) (read : String → Option α) :
    Except UsageError (Option α) :=
  match valuesIn items setting with
  | [] => .ok none
  | [text] =>
    match read text with
    | some value => .ok (some value)
    | none => .error (.badValue setting text)
  | _ => .error (.repeatedSetting setting)

/-- A file name, which is not empty. -/
def path? (text : String) : Option String := if text.isEmpty then none else some text

/-- A format by name. -/
def format? : String → Option Format
  | "asm" => some .asm
  | "mem" => some .mem
  | _ => none

/-- A count, which is below 2^64. -/
def count? (text : String) : Option Nat :=
  (Numeral.unsigned? 10 text.toList).filter (· < 18446744073709551616)

/-- A word. -/
def word? (text : String) : Option Int :=
  (Numeral.signed? 10 text.toList).filter fun n => FitsSigned 32 n

/-- Steps that a program is run for unless the command line says otherwise. -/
def defaultSteps : Nat := 1000000

/-- The files of a command line, of which there has to be one at least. -/
def sourceFiles (items : List Item) : Except UsageError (List String) :=
  let files := filesIn items
  if files.isEmpty then .error .noFiles
  else if files.any String.isEmpty then .error .emptyFile
  else .ok files

/-- Reads a command line. -/
def Options.ofArguments (args : List String) : Except UsageError Options := do
  let items ← itemsOf args
  return {
    files := ← sourceFiles items
    output := ← settingOf items .output path?
    format := (← settingOf items .format format?).getD .asm
    run := ← isOn items .run
    maxSteps := (← settingOf items .maxSteps count?).getD defaultSteps
    memoryWords := (← settingOf items .memoryWords count?).getD Machine.defaultMemory
    shown := (valuesIn items .shown).flatMap fun names => names.splitOn ","
    json := ← isOn items .json
    config := ← settingOf items .config path?
    stackTop := ← settingOf items .stackTop word?
    noOptimize := ← isOn items .noOptimize
    verifyAllocator := ← isOn items .verifyAllocator }

end SmallC.CommandLine
