import SmallC.Allocation.Recency
import SmallC.Allocation.Storage

/-!
The state of the allocator, and what can be read off it. Names are resolved from the innermost level
outward. A level that belongs to a function, or to the expansion of one, hides everything between
itself and the root.
-/
namespace SmallC

/-- A level of names. -/
structure Level where
  /-- Whether the level hides what lies between it and the root. -/
  hidesOuter : Bool
  /-- The variables that the level holds. -/
  names : List (String × VarId)
  /-- Further names for variables of any level. -/
  aliases : List (String × VarId)
  deriving DecidableEq, Repr

namespace Level

/-- A level without names. -/
def empty (hidesOuter : Bool) : Level := ⟨hidesOuter, [], []⟩

/-- The variable that a name stands for in the level. -/
def find? (l : Level) (name : String) : Option VarId :=
  l.aliases.lookup name <|> l.names.lookup name

/-- Forgets a name in a list of names. -/
def without (name : String) (names : List (String × VarId)) : List (String × VarId) :=
  names.filter fun entry => entry.1 ≠ name

/-- Adds a name for a variable that the level holds. -/
def addName (name : String) (id : VarId) (l : Level) : Level :=
  { l with names := without name l.names ++ [(name, id)] }

/-- Forgets the name of a variable that the level holds. -/
def removeName (name : String) (l : Level) : Level := { l with names := without name l.names }

/-- Forgets a name, if it is that of the given variable. -/
def removeNameOf (name : String) (id : VarId) (l : Level) : Level :=
  if l.names.lookup name = some id then l.removeName name else l

/-- Adds a further name for a variable. -/
def addAlias (name : String) (id : VarId) (l : Level) : Level :=
  { l with aliases := (name, id) :: without name l.aliases }

/-- Forgets a further name. -/
def removeAlias (name : String) (l : Level) : Level :=
  { l with aliases := without name l.aliases }

end Level

/-- What a pending call has put aside. -/
structure CallSave where
  /-- The temporaries with the registers they come back to and the slots they wait in. -/
  saved : List (VarId × Reg × Nat)
  /-- Words of the save area on the stack; there is none at top level. -/
  words : Nat
  deriving DecidableEq, Repr

/-- The registers outside of a function body, which come back at its end. -/
structure Outside where
  /-- The bound variables with their registers and whether the register is newer than the home. -/
  bindings : List (VarId × Reg × Bool)
  free : List Reg
  recency : Recency VarId
  pushed : Int

/-- The state of the allocator. -/
structure Allocator where
  /-- The variables by number; nothing is left of one that was dropped. -/
  vars : Array (Option Variable)
  root : Level
  /-- The levels inside the root, innermost first. -/
  inner : List Level
  temps : List (String × VarId)
  nextTemp : Nat
  /-- The variable that each register holds. -/
  owner : Vector (Option VarId) 32
  /-- Registers free for use, the one freed last at the end. -/
  free : List Reg
  /-- The variables in registers by their last use. -/
  recency : Recency VarId
  /-- Registers that the instruction being assembled uses. -/
  held : List Reg
  /-- Registers of the pool that are out of circulation. -/
  reserved : List Reg
  /-- Words of global memory handed out so far. -/
  globals : Nat
  /-- Slots of the frame handed out so far, inside of a function body. -/
  frame : Option Nat
  /-- Words pushed below the frame. -/
  pushed : Int
  /-- Pending calls, the innermost first. -/
  calls : List CallSave
  outside : Option Outside

namespace Allocator

/-- Nothing allocated yet. -/
def initial : Allocator where
  vars := #[]
  root := Level.empty false
  inner := []
  temps := []
  nextTemp := 0
  owner := Vector.replicate 32 none
  free := Reg.pool
  recency := Recency.empty
  held := []
  reserved := []
  globals := 0
  frame := none
  pushed := 0
  calls := []
  outside := none

/-- Whether a function body is being compiled. -/
def inFunction (a : Allocator) : Bool := a.frame.isSome

/-- Depth of the innermost level. -/
def depth (a : Allocator) : Nat := a.inner.length

/-- The innermost level. -/
def current (a : Allocator) : Level := a.inner.head?.getD a.root

/-- Changes the level of the given depth, if there is one. -/
def modifyLevel (a : Allocator) (depth : Nat) (f : Level → Level) : Allocator :=
  if depth = 0 then { a with root := f a.root }
  else if depth ≤ a.inner.length then
    { a with inner := a.inner.modify (a.inner.length - depth) f }
  else a

/-- Changes the innermost level. -/
def modifyCurrent (a : Allocator) (f : Level → Level) : Allocator := a.modifyLevel a.depth f

/-- The variable that a name stands for in some levels, innermost first, or in the root. -/
def findFrom (root : Level) (name : String) : List Level → Option VarId
  | [] => root.find? name
  | level :: outer =>
    match level.find? name with
    | some id => some id
    | none => if level.hidesOuter then root.find? name else findFrom root name outer

/-- The variable or temporary that a name stands for. -/
def find? (a : Allocator) (name : String) : Option VarId :=
  a.temps.lookup name <|> findFrom a.root name a.inner

/-- What is known about a variable, unless it was dropped. -/
def var? (a : Allocator) (id : VarId) : Option Variable := a.vars[id]?.join

/-- Whether a name stands for something. -/
def isDefined (a : Allocator) (name : String) : Bool := (a.find? name).isSome

/-- Whether a name is that of a temporary. -/
def isTemp (a : Allocator) (name : String) : Bool := (a.temps.lookup name).isSome

/-- Whether a name stands for an array. -/
def isArray (a : Allocator) (name : String) : Bool :=
  ((a.find? name).bind a.var?).any fun v => v.array.isSome

/-- The variable that a register holds. -/
def ownerOf (a : Allocator) (r : Reg) : Option VarId := a.owner.get r.index

/-- The absolute address of a home, if it has one. -/
def globalAddress? : Home → Option Location
  | .global address => some (.memory address)
  | .frame _ => none

/-- Where a variable of the root is to be found. Its home counts if a pointer may have changed it. -/
def location? (a : Allocator) (name : String) : Option Location := do
  let id ← a.root.names.lookup name
  let v ← a.var? id
  match v.storage.register? with
  | some r =>
    if v.array.isNone ∧ ¬ v.mustReload then return .register r else v.memory?.bind globalAddress?
  | none => v.memory?.bind globalAddress?

/-- Names in order of their characters. -/
def sorted (names : List String) : List String := names.mergeSort fun a b => decide (a ≤ b)

/-- The variables of the root, sorted. -/
def rootNames (a : Allocator) : List String := sorted (a.root.names.map Prod.fst)

/-- The temporaries that are alive, sorted. -/
def liveTemps (a : Allocator) : List String := sorted (a.temps.map Prod.fst)

/-- The bound variables with their registers. -/
def bindings (a : Allocator) : List (Reg × String) :=
  Reg.all.filterMap fun r => ((a.ownerOf r).bind a.var?).map fun v => (r, v.name)

end Allocator

end SmallC
