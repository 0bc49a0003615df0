/-!
Types of the language: a base type and a pointer depth. Numbers are computed either as plain words or
as fixed-point words, and which of the two is all that the base type decides.
-/
namespace SmallC

/-- The base types. -/
inductive BaseType where
  | int | char | short | long | float | double | void
  deriving DecidableEq, Repr

namespace BaseType

/-- Whether values of the type are fixed-point numbers. -/
def isFixed : BaseType → Bool
  | float => true
  | double => true
  | _ => false

/-- The type as it is written. -/
def text : BaseType → String
  | int => "int"
  | char => "char"
  | short => "short"
  | long => "long"
  | float => "float"
  | double => "double"
  | void => "void"

/-- Every base type. -/
def all : List BaseType := [int, char, short, long, float, double, void]

end BaseType

/-- Words of an array of the given dimensions. -/
def wordCount : List Nat → Nat
  | [] => 1
  | dim :: dims => dim * wordCount dims

/-- A declared type. -/
structure TypeSpec where
  base : BaseType
  /-- Number of pointer stars; more than 255 count as 255. -/
  refs : Nat
  deriving DecidableEq, Repr

namespace TypeSpec

/-- Whether nothing has the type. -/
def isVoid (ty : TypeSpec) : Bool := ty.base = .void && ty.refs = 0

/-- The type as it is written. -/
def text (ty : TypeSpec) : String :=
  ty.base.text ++ String.ofList (List.replicate ty.refs '*')

end TypeSpec

end SmallC
