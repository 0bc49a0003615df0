import SmallC.Text.Numeral

/-!
JSON: reading a text as a value and writing a value over several lines. Reading knows the whole grammar
and nothing beyond it; writing indents by two blanks, and keeps an empty array or object on one line.
The grammar lets half of a surrogate pair stand alone in a string, which then stands for no text: what
holds such a string can be read, but has no content.
-/
namespace SmallC

/-- A JSON value. A number with a fraction or an exponent stays text. A string in which half of a
surrogate pair stands alone, and an object with such a name in it, is ill-formed. -/
inductive JsonValue where
  | null
  | bool (value : Bool)
  | integer (value : Int)
  | decimal (text : String)
  | string (content : String)
  | array (items : List JsonValue)
  | object (fields : List (String × JsonValue))
  | illFormed
  deriving Repr

namespace JsonValue

/-! ## Reading -/

/-- Reading consumes a text from its start, or fails. -/
abbrev Reader := StateT (List Char) Option

/-- Whether a character may stand between tokens. -/
def isLayout (c : Char) : Bool := c = ' ' || c = '\t' || c = '\n' || c = '\r'

/-- Skips layout; the answer is the character behind it. -/
def peek : Reader (Option Char) :=
  modifyGet fun cs =>
    let behind := cs.dropWhile isLayout
    (behind.head?, behind)

/-- Reads the next character. -/
def next : Reader Char := do
  match ← get with
  | [] => failure
  | c :: rest =>
    set rest
    return c

/-- Reads characters that have to be there. -/
def expect (text : String) : Reader Unit := do
  let cs ← get
  if text.toList.isPrefixOf cs then set (cs.drop text.length) else failure

/-- Whether a character is a decimal digit. -/
def isDigit (c : Char) : Bool := '0' ≤ c && c ≤ '9'

/-- Reads characters of a class as far as they reach. -/
def run (member : Char → Bool) : Reader (List Char) :=
  modifyGet fun cs => (cs.takeWhile member, cs.dropWhile member)

/-- Reads digits, of which there has to be one at least. -/
def digits : Reader (List Char) := do
  let run ← run isDigit
  if run.isEmpty then failure else return run

/-- Reads one of some characters, if one of them is next. -/
def oneOf (choice : List Char) : Reader (List Char) := do
  match ← get with
  | [] => return []
  | c :: rest =>
    if c ∈ choice then
      set rest
      return [c]
    else return []

/-- The digits before a decimal point: a zero, or digits that start with none. -/
def wholeDigits : Reader (List Char) := do
  let zero ← oneOf ['0']
  if zero.isEmpty then digits else return zero

/-- A fraction, if there is one. -/
def fraction : Reader (List Char) := do
  let point ← oneOf ['.']
  if point.isEmpty then return [] else return point ++ (← digits)

/-- An exponent, if there is one. -/
def exponent : Reader (List Char) := do
  let mark ← oneOf ['e', 'E']
  if mark.isEmpty then return []
  let sign ← oneOf ['+', '-']
  return mark ++ sign ++ (← digits)

/-- The number that the parts of a numeral make. A negative zero is no integer. -/
def ofParts (sign whole behind : List Char) : JsonValue :=
  match behind, Numeral.signed? 10 (sign ++ whole) with
  | [], some n => if n = 0 ∧ sign ≠ [] then .decimal "-0" else .integer n
  | behind, _ => .decimal (String.ofList (sign ++ whole ++ behind))

/-- A number. -/
def number : Reader JsonValue := do
  let sign ← oneOf ['-']
  let whole ← wholeDigits
  let fraction ← fraction
  let exponent ← exponent
  return ofParts sign whole (fraction ++ exponent)

/-- What a string consists of: characters, and units of sixteen bits that are written in hexadecimal. -/
inductive Piece where
  | char (c : Char)
  | unit (n : Nat)

/-- The characters that a backslash and a letter stand for. -/
def escapes : List (Char × Char) :=
  [('"', '"'), ('\\', '\\'), ('/', '/'), ('b', '\x08'), ('f', '\x0c'), ('n', '\n'), ('r', '\r'),
    ('t', '\t')]

/-- Puts a piece in front of others. -/
def Piece.before (behind : Option (List Piece × List Char)) (p : Piece) :
    Option (List Piece × List Char) :=
  behind.map fun (pieces, rest) => (p :: pieces, rest)

/-- The pieces of a string behind its opening quote, and what is behind its end. -/
def pieces : List Char → Option (List Piece × List Char)
  | [] => none
  | '"' :: rest => some ([], rest)
  | '\\' :: 'u' :: a :: b :: c :: d :: rest =>
    (Numeral.natural? 16 [a, b, c, d]).bind fun n => (Piece.unit n).before (pieces rest)
  | '\\' :: c :: rest =>
    (escapes.lookup c).bind fun value => (Piece.char value).before (pieces rest)
  | c :: rest =>
    if c = '\\' ∨ c.toNat < 0x20 then none else (Piece.char c).before (pieces rest)

/-- Whether a unit is the first of a pair that stands for one character. -/
def isLeading (n : Nat) : Bool := 0xD800 ≤ n && n < 0xDC00

/-- Whether a unit is the second of a pair that stands for one character. -/
def isTrailing (n : Nat) : Bool := 0xDC00 ≤ n && n < 0xE000

/-- The characters that pieces stand for; a unit of a pair does not stand alone. -/
def characters : List Piece → Option (List Char)
  | [] => some []
  | .char c :: rest => (characters rest).map (c :: ·)
  | .unit a :: .unit b :: rest =>
    if isLeading a && isTrailing b then
      let c := Char.ofNat (0x10000 + (a - 0xD800) * 0x400 + (b - 0xDC00))
      (characters rest).map (c :: ·)
    else if isLeading a || isTrailing a then none
    else (characters (.unit b :: rest)).map (Char.ofNat a :: ·)
  | .unit a :: rest =>
    if isLeading a || isTrailing a then none else (characters rest).map (Char.ofNat a :: ·)

/-- A string; the answer is the text that it stands for, if it stands for one. -/
def quoted : Reader (Option String) := do
  expect "\""
  match pieces (← get) with
  | none => failure
  | some (pieces, rest) =>
    set rest
    return (characters pieces).map String.ofList

/-- The string that stands for a text. -/
def ofContent : Option String → JsonValue
  | some content => .string content
  | none => .illFormed

/-- The object that has some fields. -/
def ofFields (fields : List (Option String × JsonValue)) : JsonValue :=
  match fields.mapM fun f => f.1.map fun name => (name, f.2) with
  | some fields => .object fields
  | none => .illFormed

mutual

/-- A value. -/
def value : Nat → Reader JsonValue
  | 0 => failure
  | fuel + 1 => do
    match ← peek with
    | some '[' => expect "["; return .array (← items fuel)
    | some '\x7b' => expect "\x7b"; return ofFields (← fields fuel)
    | some '"' => return ofContent (← quoted)
    | some 'n' => expect "null"; return .null
    | some 't' => expect "true"; return .bool true
    | some 'f' => expect "false"; return .bool false
    | _ => number

/-- The items of an array behind its opening bracket. -/
def items : Nat → Reader (List JsonValue)
  | 0 => failure
  | fuel + 1 => do
    if (← peek) = some ']' then expect "]"; return []
    else itemsBehind fuel (← value fuel)

/-- The items of an array behind one of them, and that one. -/
def itemsBehind (fuel : Nat) (first : JsonValue) : Reader (List JsonValue) := do
  match fuel, ← peek with
  | _, some ']' => expect "]"; return [first]
  | fuel + 1, some ',' =>
    expect ","
    return first :: (← itemsBehind fuel (← value fuel))
  | _, _ => failure

/-- The fields of an object behind its opening brace. -/
def fields : Nat → Reader (List (Option String × JsonValue))
  | 0 => failure
  | fuel + 1 => do
    if (← peek) = some '\x7d' then expect "\x7d"; return []
    else fieldsBehind fuel (← field fuel)

/-- The fields of an object behind one of them, and that one. -/
def fieldsBehind (fuel : Nat) (first : Option String × JsonValue) :
    Reader (List (Option String × JsonValue)) := do
  match fuel, ← peek with
  | _, some '\x7d' => expect "\x7d"; return [first]
  | fuel + 1, some ',' =>
    expect ","
    return first :: (← fieldsBehind fuel (← field fuel))
  | _, _ => failure

/-- A field. -/
def field : Nat → Reader (Option String × JsonValue)
  | 0 => failure
  | fuel + 1 => do
    let _ ← peek
    let key ← quoted
    let _ ← peek
    expect ":"
    return (key, ← value fuel)

end

/-- A whole text. -/
def whole (fuel : Nat) : Reader JsonValue := do
  let v ← value fuel
  if (← peek).isSome then failure else return v

/-- Reads a text that is one JSON value. No value takes more steps to read than it has characters
twice over. -/
def ofText? (text : String) : Option JsonValue := (whole (2 * text.length + 2)).run' text.toList

/-! ## Writing -/

/-- A character of a string as it is written. -/
def escaped (c : Char) : List Char :=
  match (escapes.filter fun e => e.2 ≠ '/').find? fun e => e.2 = c with
  | some e => ['\\', e.1]
  | none =>
    if c.toNat < 0x20 then
      let digits := Nat.toDigits 16 c.toNat
      "\\u".toList ++ List.replicate (4 - digits.length) '0' ++ digits
    else [c]

/-- A string as it is written. -/
def quote (content : String) : String :=
  String.ofList ('"' :: content.toList.flatMap escaped ++ ['"'])

/-- A line break and the blanks of an indentation. -/
def newline (indent : Nat) : String := "\n" ++ String.ofList (List.replicate (2 * indent) ' ')

/-- Written items between their brackets, each on a line of its own. -/
def enclose (indent : Nat) (opening closing : String) (items : List String) : String :=
  if items.isEmpty then opening ++ closing
  else
    let lines := items.map fun item => newline (indent + 1) ++ item
    opening ++ String.intercalate "," lines ++ newline indent ++ closing

mutual

/-- A value over several lines, of which all but the first are indented. What is ill-formed is written
as null. -/
def pretty (indent : Nat) : JsonValue → String
  | null => "null"
  | bool true => "true"
  | bool false => "false"
  | integer n => s!"{n}"
  | decimal text => text
  | string content => quote content
  | array items => enclose indent "[" "]" (prettyItems (indent + 1) items)
  | object fields => enclose indent "\x7b" "\x7d" (prettyFields (indent + 1) fields)
  | illFormed => "null"

/-- Several values. -/
def prettyItems (indent : Nat) : List JsonValue → List String
  | [] => []
  | item :: rest => item.pretty indent :: prettyItems indent rest

/-- Several fields. -/
def prettyFields (indent : Nat) : List (String × JsonValue) → List String
  | [] => []
  | (key, item) :: rest => (quote key ++ ": " ++ item.pretty indent) :: prettyFields indent rest

end

end JsonValue

end SmallC
