import SmallC.Source.Position
import SmallC.Source.Token
import SmallC.Text.Numeral

/-!
The lexer. A source is cut into its longest recognisable pieces from the left; blanks, comments and
directive lines are pieces without a token. Two passes over the tokens follow: one marks operators
that stand before their operand, the other joins a minus sign with the number directly behind it.
-/
namespace SmallC.Lexer

/-- Whether a character is layout. -/
def isLayout (c : Char) : Bool :=
  c = ' ' || c = '\t' || c = '\r' || c = '\n' || c = '\x0c'

/-- Whether a character is a decimal digit. -/
def isDigit (c : Char) : Bool := c.isDigit

/-- Whether a character can start a word. -/
def startsWord (c : Char) : Bool := c.isAlpha || c = '_'

/-- Whether a character can stand inside a word. -/
def continuesWord (c : Char) : Bool := c.isAlphanum || c = '_'

/-- Whether a character is on the same line as the one before it. -/
def staysOnLine (c : Char) : Bool := c ≠ '\n'

/-- The character that a backslash and the given character stand for. -/
def unescape : Char → Char
  | 'n' => '\n'
  | 't' => '\t'
  | 'r' => '\r'
  | '0' => '\x00'
  | c => c

/-- The greatest integer literal. -/
def maxInt : Nat := 9223372036854775807

/-- What the start of a text is recognised as. -/
structure Piece where
  /-- The token; layout and comments have none. -/
  token : Option Token
  /-- Number of characters behind the first. -/
  extra : Nat
  deriving Repr

/-- A piece without a token. -/
def Piece.skip (extra : Nat) : Piece := ⟨none, extra⟩

/-- Characters up to and including the end of a block comment, if it ends. -/
def commentLength? : List Char → Option Nat
  | [] => none
  | '*' :: '/' :: _ => some 2
  | _ :: rest => (commentLength? rest).map (· + 1)

/-- The token of a word. -/
def wordToken (word : String) : Token :=
  match Keyword.all.find? (fun k => k.text = word) with
  | some k => .keyword k
  | none =>
    match BaseType.all.find? (fun t => t.text = word) with
    | some t => .type t
    | none => .ident word

/-- A number: digits, and more digits behind a point. -/
def number? (c : Char) (rest : List Char) : Option Piece :=
  let whole := rest.takeWhile isDigit
  let fraction :=
    match rest.dropWhile isDigit with
    | '.' :: behind => behind.takeWhile isDigit
    | _ => []
  if fraction.isEmpty then
    (Numeral.natural? 10 (c :: whole)).bind fun n =>
      if n ≤ maxInt then some ⟨some (.int n), whole.length⟩ else none
  else
    some ⟨some (.decimal (String.ofList (c :: whole ++ '.' :: fraction))),
      whole.length + 1 + fraction.length⟩

/-- A character literal, behind its opening quote. -/
def character? : List Char → Option Piece
  | '\\' :: c :: '\'' :: _ => if c = '\n' then none else some ⟨some (.char (unescape c)), 3⟩
  | c :: '\'' :: _ =>
    if c = '\'' ∨ c = '\\' ∨ c = '\n' then none else some ⟨some (.char c), 2⟩
  | _ => none

/-- The content of a string literal, behind its opening quote, and its length with the closing
quote. -/
def stringBody? : List Char → Option (List Char × Nat)
  | [] => none
  | '"' :: _ => some ([], 1)
  | '\n' :: _ => none
  | '\\' :: c :: rest =>
    if c = '\n' then none
    else (stringBody? rest).map fun (content, length) => (unescape c :: content, length + 2)
  | c :: rest =>
    if c = '\\' then none
    else (stringBody? rest).map fun (content, length) => (c :: content, length + 1)

/-- A string literal, behind its opening quote. -/
def string? (rest : List Char) : Option Piece :=
  (stringBody? rest).map fun (content, length) => ⟨some (.str (String.ofList content)), length⟩

/-- Operators and punctuation. -/
def symbols : List Token :=
  WordOp.all.map (fun op => Token.assign (some op)) ++ BinaryOp.all.map Token.operator
    ++ [.assign none, .bang, .opening .round, .closing .round, .opening .square, .closing .square,
      .opening .curly, .closing .curly, .comma, .semicolon]

/-- Operators and punctuation with their spelling, longer spellings first. -/
def spellings : List (List Char × Token) :=
  let spelled := symbols.map fun t => (t.text.toList, t)
  let ofLength (n : Nat) := spelled.filter fun s => s.1.length = n
  ofLength 3 ++ ofLength 2 ++ ofLength 1

/-- An operator or a punctuation mark; the longest one that fits. -/
def symbol? (cs : List Char) : Option Piece :=
  (spellings.find? fun s => s.1.isPrefixOf cs).map fun s => ⟨some s.2, s.1.length - 1⟩

/-- Recognises the piece that a text starts with. -/
def recognise? (c : Char) (rest : List Char) : Option Piece :=
  if isLayout c then some (.skip (rest.takeWhile isLayout).length)
  else if c = '#' then some (.skip (rest.takeWhile staysOnLine).length)
  else if isDigit c then number? c rest
  else if startsWord c then
    let behind := rest.takeWhile continuesWord
    some ⟨some (wordToken (String.ofList (c :: behind))), behind.length⟩
  else if c = '\'' then character? rest
  else if c = '"' then string? rest
  else
    match c, rest with
    | '/', '/' :: _ => some (.skip (rest.takeWhile staysOnLine).length)
    | '/', '*' :: behind => (commentLength? behind).map fun n => .skip (n + 1)
    | _, _ => symbol? (c :: rest)

/-- The lexemes of a text that starts at a place, or the offset at which no piece is recognised. -/
def scan (place : Place) : List Char → Except Nat (List Lexeme)
  | [] => .ok []
  | c :: rest =>
    match recognise? c rest with
    | none => .error place.offset
    | some piece => do
      let behind := place.advance (c :: rest.take piece.extra)
      let lexemes ← scan behind (rest.drop piece.extra)
      match piece.token with
      | none => return lexemes
      | some token => return ⟨token, place.line, place.offset, behind.offset, false⟩ :: lexemes
termination_by cs => cs.length
decreasing_by
  simp only [List.length_drop, List.length_cons]
  omega

/-- Marks the operators that stand before their operand: those that no operand ends before. -/
def markFrom (afterOperand : Bool) : List Lexeme → List Lexeme
  | [] => []
  | l :: rest =>
    { l with beforeOperand := l.token.isAmbiguous && !afterOperand }
      :: markFrom l.token.endsOperand rest

/-- The number with its sign turned, if the token is a number. -/
def negated? : Token → Option Token
  | .int n => some (.int (-n))
  | .decimal text => some (.decimal ("-" ++ text))
  | _ => none

/-- A minus sign and the number directly behind it as one negative number. -/
def fold? (sign number : Lexeme) : Option Lexeme :=
  if sign.beforeOperand ∧ sign.token = .operator .minus ∧ sign.stop = number.start then
    (negated? number.token).map fun token => { number with token, start := sign.start }
  else none

/-- Joins minus signs with the numbers directly behind them. -/
def foldNegatives : List Lexeme → List Lexeme
  | sign :: number :: rest =>
    match fold? sign number with
    | some folded => folded :: foldNegatives rest
    | none => sign :: foldNegatives (number :: rest)
  | rest => rest

end SmallC.Lexer

namespace SmallC

/-- The lexemes of a source. -/
def tokenize (source : String) : Except LexicalError (List Lexeme) :=
  match Lexer.scan Place.start source.toList with
  | .ok lexemes => .ok (Lexer.foldNegatives (Lexer.markFrom false lexemes))
  | .error offset => .error (LexicalError.ofOffset source offset)

end SmallC
