import SmallC.Tree.Expr
import SmallC.Tree.Type

/-!
Declarations in scope. The declarations stand in one list, those of inner scopes first, and each knows
how deep its scope is; leaving a scope drops the declarations of its depth. A declaration also
remembers the newest occurrence of its name, so that a new occurrence can mark the one before as live.
-/
namespace SmallC

/-- What callers know about a function. -/
structure Signature where
  ret : TypeSpec
  params : List TypeSpec
  /-- Whether a body has been seen. -/
  isDefined : Bool
  isInline : Bool
  deriving DecidableEq, Repr

/-- What a name can be declared as. -/
inductive Entity where
  | variable (ty : TypeSpec)
  | array (ty : TypeSpec) (dims : List Nat)
  | function (signature : Signature)
  deriving DecidableEq, Repr

/-- A declared entity and the line of its declaration. -/
structure Symbol where
  entity : Entity
  line : Nat
  deriving DecidableEq, Repr

/-- A declaration in scope. -/
structure Declaration where
  name : String
  symbol : Symbol
  /-- Depth of the scope that holds the declaration. -/
  depth : Nat
  /-- Number of the newest occurrence, if there is any. -/
  newest : Option Nat
  deriving DecidableEq, Repr

/-- The declarations in scope and the occurrences so far. -/
structure Scopes where
  /-- Depth of the innermost scope; the outermost has depth zero. -/
  depth : Nat
  /-- The declarations, those of inner scopes first. -/
  declared : List Declaration
  /-- The liveness of every occurrence, by its number. -/
  occurrences : Array Liveness

namespace Scopes

/-- The outermost scope, with nothing declared. -/
def root : Scopes := ⟨0, [], #[]⟩

/-- Whether the innermost scope is the outermost one. -/
def isRoot (s : Scopes) : Bool := s.depth = 0

/-- Opens a scope. -/
def enter (s : Scopes) : Scopes := { s with depth := s.depth + 1 }

/-- Leaves the innermost scope; the outermost one is never left. -/
def leave (s : Scopes) : Scopes :=
  if s.depth = 0 then s
  else { s with
    depth := s.depth - 1
    declared := s.declared.filter fun d => d.depth ≠ s.depth }

/-- Whether a declaration is that of a name in the innermost scope. -/
def isLocal (s : Scopes) (name : String) (d : Declaration) : Bool :=
  d.name = name && d.depth = s.depth

/-- Declares a name in the innermost scope, in place of what it was declared as there. -/
def add (s : Scopes) (name : String) (symbol : Symbol) : Scopes :=
  { s with
    declared := ⟨name, symbol, s.depth, none⟩ :: s.declared.filter fun d => !s.isLocal name d }

/-- What a name is declared as in the innermost scope. -/
def findLocal? (s : Scopes) (name : String) : Option Symbol :=
  (s.declared.find? (s.isLocal name)).map Declaration.symbol

/-- What a name is declared as in the innermost scope that declares it. -/
def find? (s : Scopes) (name : String) : Option Symbol :=
  (s.declared.find? fun d => d.name = name).map Declaration.symbol

/-- Makes an occurrence the newest of the first declaration of a name, and says which it replaces. -/
def renew (name : String) (occurrence : Nat) : List Declaration → List Declaration × Option Nat
  | [] => ([], none)
  | d :: rest =>
    if d.name = name then ({ d with newest := some occurrence } :: rest, d.newest)
    else
      let (rest, replaced) := renew name occurrence rest
      (d :: rest, replaced)

/-- Numbers a new occurrence of a name. The occurrence before it, of the same declaration, is live
from now on. -/
def touch (s : Scopes) (name : String) : Scopes × Nat :=
  let occurrence := s.occurrences.size
  let (declared, replaced) := renew name occurrence s.declared
  let occurrences :=
    match replaced with
    | some previous => s.occurrences.setIfInBounds previous .live
    | none => s.occurrences
  ({ s with declared, occurrences := occurrences.push .lastUse }, occurrence)

end Scopes

end SmallC
