import SmallC.Generation.Source

/-!
Scalar programs: those in which no address is taken, nothing is read or written through a pointer or an index,
no array is defined, and no assembly is inlined.
-/
namespace SmallC

namespace Expr

mutual

/-- Whether an expression takes no address, and accesses no memory by an address or an index. -/
def isScalar : Expr → Bool
  | int .. => true
  | fixed .. => true
  | var .. => true
  | binary _ _ left right => left.isScalar && right.isScalar
  | assign _ _ target value => target.isScalar && value.isScalar
  | unary _ op operand => op ≠ .ref && op ≠ .deref && operand.isScalar
  | call _ _ args => areScalar args
  | index .. => false

/-- Whether none of several expressions does. -/
def areScalar : List Expr → Bool
  | [] => true
  | e :: rest => e.isScalar && areScalar rest

end

end Expr

namespace Stmt

/-- Whether an optional expression is scalar. -/
def isScalar? (e : Option Expr) : Bool := e.all Expr.isScalar

mutual

/-- Whether a statement is scalar: it defines no array, inlines no assembly, and its parts are scalar. -/
def isScalar : Stmt → Bool
  | expr e => e.isScalar
  | define _ _ _ value => isScalar? value
  | array .. => false
  | function _ _ _ _ (some body) _ => areScalar body
  | function _ _ _ _ none _ => true
  | conditional _ branches (some otherwise) => areScalarBranches branches && areScalar otherwise
  | conditional _ branches none => areScalarBranches branches
  | whileLoop _ cond body => cond.isScalar && areScalar body
  | forLoop _ (some init) cond step body =>
    init.isScalar && isScalar? cond && isScalar? step && areScalar body
  | forLoop _ none cond step body => isScalar? cond && isScalar? step && areScalar body
  | returns _ value => isScalar? value
  | breaks _ => true
  | continues _ => true
  | asm .. => false
  | group _ body => areScalar body

/-- Whether several statements are scalar. -/
def areScalar : List Stmt → Bool
  | [] => true
  | s :: rest => s.isScalar && areScalar rest

/-- Whether several branches are scalar. -/
def areScalarBranches : List Branch → Bool
  | [] => true
  | .mk cond body :: rest => cond.isScalar && areScalar body && areScalarBranches rest

end

end Stmt

/-- Whether a function is scalar. -/
def Function.isScalar (f : Function) : Bool := f.body.all Stmt.areScalar

/-- Whether all statements of a source are scalar. -/
def TranslationUnit.isScalar (unit : TranslationUnit) : Bool := Stmt.areScalar unit.statements

end SmallC
