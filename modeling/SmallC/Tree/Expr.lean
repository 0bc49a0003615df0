import SmallC.Source.FixedPoint
import SmallC.Tree.Operator

/-!
Expressions. Every node carries the source line it came from, and every occurrence of a variable has a
number, under which its liveness is looked up once the whole source is known.
-/
namespace SmallC

/-- Whether an occurrence of a variable is the newest one of its declaration. -/
inductive Liveness where
  | lastUse
  /-- A later occurrence of the same declaration exists. -/
  | live
  deriving DecidableEq, Repr

/-- Expressions; the first component of each is its source line. -/
inductive Expr where
  | int (line : Nat) (value : Int)
  /-- A fixed-point literal in units of 2^-16. -/
  | fixed (line : Nat) (value : Int)
  | var (line : Nat) (name : String) (occurrence : Nat)
  | binary (line : Nat) (op : BinaryOp) (left right : Expr)
  /-- An assignment, compounded with an operator or plain. -/
  | assign (line : Nat) (op : Option WordOp) (target value : Expr)
  | unary (line : Nat) (op : UnaryOp) (operand : Expr)
  | call (line : Nat) (name : String) (args : List Expr)
  | index (line : Nat) (name : String) (occurrence : Nat) (indices : List Expr)
  deriving Repr

namespace Expr

/-- The source line of an expression. -/
def line : Expr → Nat
  | int line _ => line
  | fixed line _ => line
  | var line .. => line
  | binary line .. => line
  | assign line .. => line
  | unary line .. => line
  | call line .. => line
  | index line .. => line

/-- The variable that an expression consists of, if it is one. -/
def varName? : Expr → Option String
  | var _ name _ => some name
  | _ => none

mutual

/-- An expression with every operator application in parentheses. -/
def text : Expr → String
  | int _ value => s!"{value}"
  | fixed _ value => FixedPoint.text value ++ "f"
  | var _ name _ => name
  | binary _ op left right => s!"({left.text} {op.symbol} {right.text})"
  | assign _ op target value => s!"({target.text} {assignSymbol op} {value.text})"
  | unary _ op operand => op.symbol ++ operand.text
  | call _ name args => name ++ "(" ++ String.intercalate ", " (texts args) ++ ")"
  | index _ name _ indices => name ++ String.join ((texts indices).map fun i => s!"[{i}]")

/-- The texts of several expressions. -/
def texts : List Expr → List String
  | [] => []
  | e :: rest => e.text :: texts rest

end

mutual

/-- The variables whose address an expression takes. -/
def addressTaken : Expr → List String
  | int .. => []
  | fixed .. => []
  | var .. => []
  | binary _ _ left right => left.addressTaken ++ right.addressTaken
  | assign _ _ target value => target.addressTaken ++ value.addressTaken
  | unary _ .ref (.var _ name _) => [name]
  | unary _ _ operand => operand.addressTaken
  | call _ _ args => addressTakenIn args
  | index _ _ _ indices => addressTakenIn indices

/-- The variables whose address several expressions take. -/
def addressTakenIn : List Expr → List String
  | [] => []
  | e :: rest => e.addressTaken ++ addressTakenIn rest

end

end Expr

end SmallC
