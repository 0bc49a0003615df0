import SmallC.Text.Blank

/-!
Places in a source text. Offsets count bytes of its UTF-8 form, lines and columns count from one, and
a column counts characters.
-/
namespace SmallC

/-- A place between two characters. -/
structure Place where
  /-- Bytes before the place. -/
  offset : Nat
  /-- Number of the line that the place lies on. -/
  line : Nat
  deriving DecidableEq, Repr

namespace Place

/-- The place before the first character. -/
def start : Place := ⟨0, 1⟩

/-- The place behind one more character. -/
def next (p : Place) (c : Char) : Place :=
  ⟨p.offset + c.utf8Size, if c = '\n' then p.line + 1 else p.line⟩

/-- The place behind more characters. -/
def advance (p : Place) (cs : List Char) : Place := cs.foldl next p

end Place

namespace Source

/-- Line and column of an offset, counted on from a character at an offset, line and column. -/
def lineColumnFrom (target offset line column : Nat) : List Char → Nat × Nat
  | [] => (line, column)
  | c :: rest =>
    if target ≤ offset then (line, column)
    else if c = '\n' then lineColumnFrom target (offset + c.utf8Size) (line + 1) 1 rest
    else lineColumnFrom target (offset + c.utf8Size) line (column + 1) rest

/-- Line and column of an offset. An offset behind the end counts as the end. -/
def lineColumn (source : String) (offset : Nat) : Nat × Nat :=
  lineColumnFrom offset 0 1 1 source.toList

/-- The characters before an offset, newest first, and those from there on. -/
def splitAtOffset (target : Nat) (offset : Nat) (passed : List Char) :
    List Char → List Char × List Char
  | [] => (passed, [])
  | c :: rest =>
    if target ≤ offset then (passed, c :: rest)
    else splitAtOffset target (offset + c.utf8Size) (c :: passed) rest

/-- The line that an offset lies on, without the blanks at its ends. -/
def lineAround (passed rest : List Char) : String :=
  let sameLine : Char → Bool := fun c => c ≠ '\n'
  String.ofList (Blank.trim ((passed.takeWhile sameLine).reverse ++ rest.takeWhile sameLine))

end Source

/-- A character that starts no token. -/
structure LexicalError where
  line : Nat
  column : Nat
  found : Char
  /-- The source line, without the blanks at its ends. -/
  context : String
  deriving DecidableEq, Repr

namespace LexicalError

/-- The error at an offset of a source. -/
def ofOffset (source : String) (offset : Nat) : LexicalError :=
  let (line, column) := Source.lineColumn source offset
  let (passed, rest) := Source.splitAtOffset offset 0 [] source.toList
  { line, column, found := rest.headD '\x00', context := Source.lineAround passed rest }

/-- The wording of the error. -/
def message (e : LexicalError) : String :=
  s!"Unexpected character '{e.found}' at line {e.line}, column {e.column}\n  Context: {e.context}"

end LexicalError

end SmallC
