import SmallC.Allocation.Allocator
import SmallC.Allocation.Fault

/-!
Consistency of the allocator's state: the owners of registers, what is known about variables and the
free registers agree with one another.
-/
namespace SmallC.Allocator

/-- The variable that a register holds lives in it. -/
def checkOwner (a : Allocator) (r : Reg) : Except AllocatorFault Unit :=
  match a.ownerOf r with
  | none => .ok ()
  | some id =>
    match a.var? id with
    | none => .error (.staleHandle id)
    | some v => if v.storage = .register r then .ok () else .error (.ownerElsewhere r v.name)

/-- The register that a variable lives in holds it. -/
def checkRegister (a : Allocator) (entry : Option Variable × VarId) : Except AllocatorFault Unit :=
  match entry.1 with
  | none => .ok ()
  | some v =>
    match v.storage.register? with
    | none => .ok ()
    | some r => if a.ownerOf r = some entry.2 then .ok () else .error (.ownerMissing v.name r)

/-- A free register holds nothing. -/
def checkFree (a : Allocator) (r : Reg) : Except AllocatorFault Unit :=
  if (a.ownerOf r).isSome then .error (.freeAndOwned r) else .ok ()

/-- A pinned temporary is not spilled. -/
def checkPin (entry : Option Variable) : Except AllocatorFault Unit :=
  match entry with
  | none => .ok ()
  | some v => if v.isPinned ∧ v.storage.isMemory then .error (.pinnedSpilled v.name) else .ok ()

/-- Checks the whole state. -/
def checkConsistency (a : Allocator) : Except AllocatorFault Unit := do
  Reg.all.forM a.checkOwner
  a.vars.toList.zipIdx.forM a.checkRegister
  a.free.forM a.checkFree
  a.vars.toList.forM checkPin

end SmallC.Allocator
