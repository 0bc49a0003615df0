/-!
Operators of the language, with their spelling and how tightly they bind. The operators between two
operands fall into those that compute a word from two words, relations, and the logical connectives.
-/
namespace SmallC

/-- Arithmetic and bitwise operators. -/
inductive ArithmeticOp where
  | add | sub | mul | div | mod | bitAnd | bitOr | xor
  deriving DecidableEq, Repr

/-- The ways to shift. -/
inductive ShiftDirection where
  | left | right
  deriving DecidableEq, Repr

/-- Operators that compute a word from two words. An assignment can be compounded with them. -/
inductive WordOp where
  | arithmetic (op : ArithmeticOp)
  | shift (direction : ShiftDirection)
  deriving DecidableEq, Repr

/-- Relations between two numbers. -/
inductive Relation where
  | eq | ne | lt | le | gt | ge
  deriving DecidableEq, Repr

/-- Connectives that evaluate their right operand only where the left one does not decide. -/
inductive LogicalOp where
  | and | or
  deriving DecidableEq, Repr

/-- Operators between two operands. -/
inductive BinaryOp where
  | word (op : WordOp)
  | relation (relation : Relation)
  | logical (op : LogicalOp)
  deriving DecidableEq, Repr

namespace WordOp

/-- The operator as it is written. -/
def symbol : WordOp → String
  | arithmetic .add => "+"
  | arithmetic .sub => "-"
  | arithmetic .mul => "*"
  | arithmetic .div => "/"
  | arithmetic .mod => "%"
  | arithmetic .bitAnd => "&"
  | arithmetic .bitOr => "|"
  | arithmetic .xor => "^"
  | shift .left => "<<"
  | shift .right => ">>"

/-- Every operator that computes a word. -/
def all : List WordOp :=
  [arithmetic .add, arithmetic .sub, arithmetic .mul, arithmetic .div, arithmetic .mod,
    arithmetic .bitAnd, arithmetic .bitOr, arithmetic .xor, shift .left, shift .right]

/-- How tightly the operator binds; a greater number binds tighter. -/
def precedence : WordOp → Nat
  | arithmetic .bitAnd => 6
  | arithmetic .bitOr => 6
  | arithmetic .xor => 6
  | shift _ => 7
  | arithmetic .add => 8
  | arithmetic .sub => 8
  | arithmetic .mul => 9
  | arithmetic .div => 9
  | arithmetic .mod => 9

end WordOp

namespace Relation

/-- The relation as it is written. -/
def symbol : Relation → String
  | eq => "=="
  | ne => "!="
  | lt => "<"
  | le => "<="
  | gt => ">"
  | ge => ">="

/-- Every relation. -/
def all : List Relation := [eq, ne, lt, le, gt, ge]

/-- How tightly the relation binds. -/
def precedence : Relation → Nat
  | eq => 4
  | ne => 4
  | lt => 5
  | le => 5
  | gt => 5
  | ge => 5

end Relation

namespace BinaryOp

/-- Subtraction, which shares its symbol with negation. -/
@[match_pattern]
def minus : BinaryOp := .word (.arithmetic .sub)

/-- Multiplication, which shares its symbol with the dereference. -/
@[match_pattern]
def star : BinaryOp := .word (.arithmetic .mul)

/-- Bitwise conjunction, which shares its symbol with the address operator. -/
@[match_pattern]
def ampersand : BinaryOp := .word (.arithmetic .bitAnd)

/-- The operator as it is written. -/
def symbol : BinaryOp → String
  | word op => op.symbol
  | relation r => r.symbol
  | logical .and => "&&"
  | logical .or => "||"

/-- Every operator between two operands. -/
def all : List BinaryOp :=
  WordOp.all.map word ++ Relation.all.map relation ++ [logical .and, logical .or]

/-- How tightly the operator binds. -/
def precedence : BinaryOp → Nat
  | logical .or => 2
  | logical .and => 3
  | relation r => r.precedence
  | word op => op.precedence

end BinaryOp

/-- Operators before one operand: negation, dereference, address and logical not. -/
inductive UnaryOp where
  | neg | deref | ref | not
  deriving DecidableEq, Repr

/-- The operator as it is written. -/
def UnaryOp.symbol : UnaryOp → String
  | neg => "-"
  | deref => "*"
  | ref => "&"
  | not => "!"

/-- The symbol of an assignment, compounded with an operator or plain. -/
def assignSymbol : Option WordOp → String
  | some op => op.symbol ++ "="
  | none => "="

/-- How tightly assignments bind. -/
def assignPrecedence : Nat := 1

/-- How tightly operators before an operand bind. -/
def unaryPrecedence : Nat := 10

end SmallC
