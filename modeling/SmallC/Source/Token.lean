import SmallC.Tree.Operator
import SmallC.Tree.Type

/-!
Tokens and lexemes. Operators that stand between operands and operators that stand before one share
their spelling, so `-`, `*` and `&` are one token each and a lexeme says on which side of an operand
it found them.
-/
namespace SmallC

/-- Words with a meaning of their own. -/
inductive Keyword where
  | ifWord | elseWord | whileWord | forWord | returnWord | breakWord | continueWord | inlineWord
  | asmWord | nullWord
  deriving DecidableEq, Repr

namespace Keyword

/-- The keyword as it is written. -/
def text : Keyword → String
  | ifWord => "if"
  | elseWord => "else"
  | whileWord => "while"
  | forWord => "for"
  | returnWord => "return"
  | breakWord => "break"
  | continueWord => "continue"
  | inlineWord => "inline"
  | asmWord => "__asm__"
  | nullWord => "NULL"

/-- Every keyword. -/
def all : List Keyword :=
  [ifWord, elseWord, whileWord, forWord, returnWord, breakWord, continueWord, inlineWord, asmWord,
    nullWord]

end Keyword

/-- Kinds of brackets. -/
inductive Bracket where
  | round | square | curly
  deriving DecidableEq, Repr

namespace Bracket

/-- The opening bracket of the kind. -/
def opening : Bracket → String
  | round => "("
  | square => "["
  | curly => "\x7b"

/-- The closing bracket of the kind. -/
def closing : Bracket → String
  | round => ")"
  | square => "]"
  | curly => "\x7d"

end Bracket

/-- The units that a source text consists of. -/
inductive Token where
  | keyword (word : Keyword)
  | type (base : BaseType)
  | ident (name : String)
  | int (value : Int)
  /-- A decimal literal; it stays text until its number is needed. -/
  | decimal (text : String)
  | char (value : Char)
  | str (content : String)
  | operator (op : BinaryOp)
  | bang
  /-- An assignment, compounded with an operator or plain. -/
  | assign (op : Option WordOp)
  | opening (bracket : Bracket)
  | closing (bracket : Bracket)
  | comma
  | semicolon
  deriving DecidableEq, Repr

namespace Token

/-- The token as messages show it. -/
def text : Token → String
  | keyword word => word.text
  | type base => base.text
  | ident name => name
  | int value => s!"{value}"
  | decimal text => text
  | char value => s!"'{value}'"
  | str content => s!"\"{content}\""
  | operator op => op.symbol
  | bang => "!"
  | assign op => assignSymbol op
  | opening bracket => bracket.opening
  | closing bracket => bracket.closing
  | comma => ","
  | semicolon => ";"

/-- Whether an operand can end with the token, so that an operator behind it stands between two. -/
def endsOperand : Token → Bool
  | ident _ => true
  | int _ => true
  | decimal _ => true
  | char _ => true
  | str _ => true
  | keyword .nullWord => true
  | closing .round => true
  | closing .square => true
  | _ => false

/-- Whether the token is an operator that can also stand before an operand. -/
def isAmbiguous : Token → Bool
  | operator .minus => true
  | operator .star => true
  | operator .ampersand => true
  | _ => false

end Token

/-- A token at its place in the source. -/
structure Lexeme where
  token : Token
  /-- Number of the source line, from one. -/
  line : Nat
  /-- Bytes of the source before the token. -/
  start : Nat
  /-- Bytes of the source up to the end of the token. -/
  stop : Nat
  /-- Whether the token is an operator that stands before its operand. -/
  beforeOperand : Bool
  deriving DecidableEq, Repr

end SmallC
