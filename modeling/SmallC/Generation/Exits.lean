import SmallC.Generation.Gen

/-!
Where control can leave a statement for: the end of the function, and the end and the next round of the
loop around it.
-/
namespace SmallC

/-- Where a function is returned from. -/
structure ReturnTarget where
  label : String
  ty : TypeSpec
  /-- Whether the function is being expanded where it is called. -/
  isExpansion : Bool

/-- The jumps that a statement can make out of itself. -/
structure Exits where
  ret : Option ReturnTarget
  brk : Option String
  cont : Option String

namespace Exits

/-- Outside of all functions and loops. -/
def none : Exits := ⟨.none, .none, .none⟩

/-- In a function body, outside of its loops. -/
def ofFunction (label : String) (ty : TypeSpec) (isExpansion : Bool) : Exits :=
  ⟨some ⟨label, ty, isExpansion⟩, .none, .none⟩

/-- In a loop. -/
def inLoop (e : Exits) (brk cont : String) : Exits := { e with brk := some brk, cont := some cont }

/-- Whether the statement belongs to a function that is being expanded. -/
def inExpansion (e : Exits) : Bool := e.ret.any ReturnTarget.isExpansion

end Exits

end SmallC
