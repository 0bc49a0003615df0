import SmallC.Machine.Register

/-!
Faults of the allocator. Each of them says that a request or the bookkeeping itself broke a rule of the
allocator, so none is the fault of a source text.
-/
namespace SmallC

/-- The rules of the allocator that can be broken. -/
inductive AllocatorFault where
  | noStorage (name : String)
  | staleHandle (id : Nat)
  | outOfRegisters
  | frameOutsideFunction
  | spillWithoutHome (name : String)
  | spillOutsideRegister (name : String)
  | evictedPinned (name : String) (reg : Reg)
  | reloadWithoutHome (name : String)
  | reloadParked (name : String)
  | alreadyBound (name : String)
  | registerInUse (reg : Reg)
  | notTemporary (name : String)
  | noUsableLocation (name : String)
  | assignedArray (name : String)
  | notArray (name : String)
  | noAddress (name : String)
  | poppedRoot
  | nestedFunction
  | temporaryAtFunction (name : String)
  | functionNotOpen
  | restoreWithoutSave
  | ownerElsewhere (reg : Reg) (name : String)
  | ownerMissing (name : String) (reg : Reg)
  | freeAndOwned (reg : Reg)
  | pinnedSpilled (name : String)
  | leakedTemporaries (names : List String) (line : Nat)
  | arrayTooLarge (name : String) (size : Nat)
  | unboundOperand (name : String)
  deriving DecidableEq, Repr

/-- The wording of an allocator fault. -/
def AllocatorFault.message : AllocatorFault → String
  | noStorage name => s!"{name} has no storage location"
  | staleHandle id => s!"stale variable handle {id}"
  | outOfRegisters => "out of registers: every register is held or pinned"
  | frameOutsideFunction => "frame slot referenced outside a function"
  | spillWithoutHome name => s!"spilling {name} which has no known location"
  | spillOutsideRegister name => s!"spilling {name} which is not in a register"
  | evictedPinned name reg => s!"temporary {name} is pinned to {reg.text}"
  | reloadWithoutHome name => s!"reloading {name} which has no home"
  | reloadParked name => s!"{name} is parked for a call"
  | alreadyBound name => s!"{name} is already bound in this scope"
  | registerInUse reg => s!"{reg.text} is already in use"
  | notTemporary name => s!"{name} is not a temporary"
  | noUsableLocation name => s!"{name} has no usable location"
  | assignedArray name => s!"array {name} cannot be assigned"
  | notArray name => s!"{name} is not an array"
  | noAddress name => s!"{name} has no address"
  | poppedRoot => "popped the root level"
  | nestedFunction => "nested function scope"
  | temporaryAtFunction name => s!"temporary {name} is live at a function definition"
  | functionNotOpen => "function scope closed without being opened"
  | restoreWithoutSave => "restore without a matching save"
  | ownerElsewhere reg name => s!"{reg.text} claims {name} which lives elsewhere"
  | ownerMissing name reg => s!"{name} thinks it holds {reg.text}"
  | freeAndOwned reg => s!"{reg.text} is both free and owned"
  | pinnedSpilled name => s!"pinned temporary {name} was spilled"
  | leakedTemporaries names line =>
    "temporaries " ++ String.intercalate ", " names ++ s!" outlived the statement on line {line}"
  | arrayTooLarge name size => s!"array {name} of {size} words does not fit in memory"
  | unboundOperand name => s!"{name} was not bound for __asm__"

end SmallC
