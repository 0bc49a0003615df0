import SmallC.Machine.Register

/-!
Where a value lives. A named variable has a home, one word of memory that is its own from its
introduction on; its value is in a register, in its home, or in the save area of a pending call.
A temporary gets a home only when a register has to be taken from it. An array is its address, so it
has words of memory but no value of its own that could be stored.
-/
namespace SmallC

/-- How a word is read as a number. -/
inductive NumberKind where
  | int
  /-- In units of 2^-16. -/
  | fixed
  deriving DecidableEq, Repr

/-- A word of memory that belongs to a variable. -/
inductive Home where
  /-- An absolute address. -/
  | global (address : Nat)
  /-- A slot of the frame of the function being compiled. -/
  | frame (slot : Nat)
  deriving DecidableEq, Repr

/-- Where the value of a variable is at the moment. -/
inductive Storage where
  | register (r : Reg)
  | memory (home : Home)
  /-- In the save area of a pending call, or, at top level, at an absolute address. -/
  | saved (slot : Nat)
  deriving DecidableEq, Repr

namespace Storage

/-- The register that holds the value, if one does. -/
def register? : Storage → Option Reg
  | register r => some r
  | _ => none

/-- Whether the value is in the variable's home. -/
def isMemory : Storage → Bool
  | memory _ => true
  | _ => false

end Storage

/-- An address that code can form: a base register and an offset. -/
structure Address where
  base : Reg
  offset : Int
  deriving DecidableEq, Repr

namespace Address

/-- The address as a memory operand writes it. -/
def text (a : Address) : String := s!"{a.offset}({a.base.text})"

end Address

/-- Where a variable of the top level ends up. -/
inductive Location where
  | register (r : Reg)
  | memory (address : Nat)
  deriving DecidableEq, Repr

/-- The location as reports write it. -/
def Location.text : Location → String
  | register r => r.text
  | memory address => s!"mem[{address}]"

/-- The number of a variable. Numbers are never used again. -/
abbrev VarId := Nat

/-- What the allocator knows about a variable or a temporary. -/
structure Variable where
  name : String
  isTemp : Bool
  /-- Depth of the level that holds the variable; the root has depth zero. -/
  depth : Nat
  home : Option Home
  /-- The first word of an array. -/
  array : Option Home
  dims : List Nat
  storage : Storage
  /-- Whether the register is newer than the home. -/
  isDirty : Bool
  kind : NumberKind
  /-- Number of pointer stars of the declared type. -/
  refs : Nat
  /-- Whether a pointer may change the home behind the register. -/
  mustReload : Bool
  /-- Whether a temporary has to stay in its register, because it lives across a point where paths
  of control meet. -/
  isPinned : Bool
  deriving DecidableEq, Repr

namespace Variable

/-- A variable with nothing to it but where it is. -/
def plain (name : String) (isTemp : Bool) (depth : Nat) (home : Option Home) (storage : Storage) :
    Variable where
  name := name
  isTemp := isTemp
  depth := depth
  home := home
  array := none
  dims := []
  storage := storage
  isDirty := false
  kind := .int
  refs := 0
  mustReload := false
  isPinned := false

/-- The memory that the variable goes to when it leaves its register. -/
def memory? (v : Variable) : Option Home := v.array <|> v.home

end Variable

end SmallC
