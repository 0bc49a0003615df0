import SmallC.Tree.Expr
import SmallC.Tree.Type

/-!
Statements and translation units.
-/
namespace SmallC

/-- A parameter of a function. -/
structure Param where
  name : String
  ty : TypeSpec
  deriving DecidableEq, Repr

mutual

/-- Statements; the first component of each but the first is its source line. -/
inductive Stmt where
  | expr (e : Expr)
  | define (line : Nat) (name : String) (ty : TypeSpec) (value : Option Expr)
  | array (line : Nat) (name : String) (ty : TypeSpec) (dims : List Nat) (init : List Expr)
  /-- A function; a header has no body. -/
  | function (line : Nat) (name : String) (ret : TypeSpec) (params : List Param)
      (body : Option (List Stmt)) (isInline : Bool)
  /-- The branches of a conditional are tested in order. -/
  | conditional (line : Nat) (branches : List Branch) (otherwise : Option (List Stmt))
  | whileLoop (line : Nat) (cond : Expr) (body : List Stmt)
  | forLoop (line : Nat) (init : Option Stmt) (cond step : Option Expr) (body : List Stmt)
  | returns (line : Nat) (value : Option Expr)
  | breaks (line : Nat)
  | continues (line : Nat)
  | asm (line : Nat) (text : String)
  | group (line : Nat) (body : List Stmt)
  deriving Repr

/-- A condition and what to do where it holds. -/
inductive Branch where
  | mk (cond : Expr) (body : List Stmt)
  deriving Repr

end

namespace Stmt

/-- The source line of a statement. -/
def line : Stmt → Nat
  | expr e => e.line
  | define line .. => line
  | array line .. => line
  | function line .. => line
  | conditional line .. => line
  | whileLoop line .. => line
  | forLoop line .. => line
  | returns line _ => line
  | breaks line => line
  | continues line => line
  | asm line _ => line
  | group line _ => line

/-- What a statement is called where an expression is shown. -/
def text : Stmt → String
  | expr e => e.text
  | define .. => "<define>"
  | array .. => "<array>"
  | function .. => "<function>"
  | conditional .. => "<if>"
  | whileLoop .. => "<while>"
  | forLoop .. => "<for>"
  | returns .. => "<return>"
  | breaks _ => "<break>"
  | continues _ => "<continue>"
  | asm .. => "<asm>"
  | group .. => "<group>"

/-- The variables whose address an optional expression takes. -/
def addressTakenIn? (e : Option Expr) : List String := (e.map Expr.addressTaken).getD []

mutual

/-- The variables whose address a statement takes. -/
def addressTaken : Stmt → List String
  | expr e => e.addressTaken
  | define _ _ _ value => addressTakenIn? value
  | array _ _ _ _ init => Expr.addressTakenIn init
  | function _ _ _ _ (some body) _ => addressTakenIn body
  | function _ _ _ _ none _ => []
  | conditional _ branches (some otherwise) =>
    addressTakenInBranches branches ++ addressTakenIn otherwise
  | conditional _ branches none => addressTakenInBranches branches
  | whileLoop _ cond body => cond.addressTaken ++ addressTakenIn body
  | forLoop _ (some init) cond step body =>
    init.addressTaken ++ addressTakenIn? cond ++ addressTakenIn? step ++ addressTakenIn body
  | forLoop _ none cond step body =>
    addressTakenIn? cond ++ addressTakenIn? step ++ addressTakenIn body
  | returns _ value => addressTakenIn? value
  | breaks _ => []
  | continues _ => []
  | asm .. => []
  | group _ body => addressTakenIn body

/-- The variables whose address some of the statements takes. -/
def addressTakenIn : List Stmt → List String
  | [] => []
  | s :: rest => s.addressTaken ++ addressTakenIn rest

/-- The variables whose address some of the branches takes. -/
def addressTakenInBranches : List Branch → List String
  | [] => []
  | .mk cond body :: rest =>
    cond.addressTaken ++ addressTakenIn body ++ addressTakenInBranches rest

end

/-- Whether the statement is a function that is compiled where it stands. -/
def isCompiledFunction : Stmt → Bool
  | function _ _ _ _ (some _) false => true
  | _ => false

/-- The line of the statement, if it is a function of that name. -/
def lineOfFunction? (name : String) : Stmt → Option Nat
  | function line other .. => if other = name then some line else none
  | _ => none

end Stmt

/-- A parsed source. -/
structure TranslationUnit where
  statements : List Stmt
  /-- The liveness of every occurrence of a variable, by its number. -/
  liveness : Array Liveness

namespace TranslationUnit

/-- The name of the function that a program starts with, if it is defined. -/
def entryPoint : String := "main"

/-- The unit in order of execution: compiled functions move to the end, and behind them stands a call
of the entry point, if one of them is it. -/
def ordered (unit : TranslationUnit) : TranslationUnit :=
  let (functions, straight) := unit.statements.partition Stmt.isCompiledFunction
  let call :=
    match functions.findSome? (Stmt.lineOfFunction? entryPoint) with
    | some line => [Stmt.expr (.call line entryPoint [])]
    | none => []
  { unit with statements := straight ++ functions ++ call }

end TranslationUnit

end SmallC
