import SmallC.Allocation.Allocator
import SmallC.Allocation.Fault
import SmallC.Machine.Instruction

/-!
Traffic between registers and memory. An operation of the allocator changes its state and emits the
instructions that make the machine agree with the change; one that breaks a rule stops with a fault,
and what it did up to there stays done.

A register is taken from the free ones first, then from the named variable that was used longest ago,
and only then from a temporary.
-/
namespace SmallC

/-- The state of the allocator and the instructions emitted since it was last looked at. -/
structure Work where
  allocator : Allocator
  code : Array MachineInstr

/-- Operations of the allocator. -/
abbrev Alloc := EStateM AllocatorFault Work

namespace Alloc

/-- Reads something off the state. -/
def look {α : Type} (f : Allocator → α) : Alloc α := return f (← get).allocator

/-- Changes the state. -/
def change (f : Allocator → Allocator) : Alloc Unit :=
  modify fun w => { w with allocator := f w.allocator }

/-- Emits an instruction. -/
def emit (i : MachineInstr) : Alloc Unit := modify fun w => { w with code := w.code.push i }

/-- What is known about a variable. -/
def known (id : VarId) : Alloc Variable := do
  match ← look fun a => a.var? id with
  | some v => return v
  | none => throw (.staleHandle id)

/-- Changes what is known about a variable. -/
def update (id : VarId) (f : Variable → Variable) : Alloc Unit := do
  let v ← known id
  change fun a => { a with vars := a.vars.setIfInBounds id (some (f v)) }

/-- The variable or temporary that a name stands for. -/
def resolve (name : String) : Alloc VarId := do
  match ← look fun a => a.find? name with
  | some id => return id
  | none => throw (.noStorage name)

/-- What is known about the variable or temporary that a name stands for. -/
def knownAs (name : String) : Alloc Variable := do known (← resolve name)

/-- Keeps a register from being taken until the holds are released. -/
def hold (r : Reg) : Alloc Unit :=
  change fun a => { a with held := if r ∈ a.held then a.held else r :: a.held }

/-- Releases all holds. -/
def releaseHolds : Alloc Unit := change fun a => { a with held := [] }

/-- Takes a register off the free ones. -/
def withdraw (r : Reg) : Alloc Unit := change fun a => { a with free := a.free.filter (· ≠ r) }

/-- Says which variable a register holds. -/
def setOwner (r : Reg) (id : Option VarId) : Alloc Unit :=
  change fun a => { a with owner := a.owner.set r.index.val id r.index_lt }

/-- Makes a variable the most recently used one. -/
def touch (id : VarId) : Alloc Unit := change fun a => { a with recency := a.recency.touch id }

/-- Gives a register back. -/
def release (r : Reg) : Alloc Unit := do
  setOwner r none
  change fun a =>
    if r.isPool ∧ r ∉ a.reserved ∧ r ∉ a.free then { a with free := a.free ++ [r] } else a

/-- Puts a variable into a register. -/
def bindTo (id : VarId) (r : Reg) : Alloc Unit := do
  setOwner r (some id)
  update id fun v => { v with storage := .register r }
  touch id
  hold r

/-- Parts a variable from its register without writing it home. -/
def unbind (id : VarId) : Alloc Unit := do
  let v ← known id
  match v.storage.register? with
  | none => return
  | some r =>
    change fun a => { a with recency := a.recency.remove id }
    release r
    update id fun v => { v with
      isDirty := false
      storage := match v.memory? with
        | some home => .memory home
        | none => v.storage }

/-- Hands out a home of so many words: in the frame inside of a function, else in global memory. -/
def allocHome (words : Nat) : Alloc Home := do
  match ← look Allocator.frame with
  | some slot =>
    change fun a => { a with frame := some (slot + words) }
    return .frame slot
  | none =>
    let address ← look Allocator.globals
    change fun a => { a with globals := a.globals + words }
    return .global address

/-- The address of a home. Slots lie above everything that is pushed. -/
def addressOf (home : Home) : Alloc Address := do
  match home with
  | .global address => return ⟨Reg.zero, address⟩
  | .frame slot =>
    if ← look Allocator.inFunction then return ⟨Reg.stackPointer, (← look Allocator.pushed) + slot⟩
    else throw .frameOutsideFunction

/-- Writes a variable home from its register. -/
def writeBack (id : VarId) (r : Reg) : Alloc Unit := do
  let v ← known id
  match v.home with
  | none => throw (.spillWithoutHome v.name)
  | some home =>
    let address ← addressOf home
    emit (.sw r address.base address.offset)
    update id fun v => { v with isDirty := false }

/-- Gives a temporary a home, if it has none yet. -/
def ensureHome (id : VarId) : Alloc Unit := do
  let v ← known id
  if v.home.isNone then
    let home ← allocHome 1
    update id fun v => { v with home := some home }

/-- Takes the register of a variable from it, which goes home first if it has to. -/
def evict (id : VarId) : Alloc Reg := do
  let v ← known id
  match v.storage.register? with
  | none => throw (.spillOutsideRegister v.name)
  | some r =>
    if v.isPinned then throw (.evictedPinned v.name r)
    if v.isTemp then
      ensureHome id
      writeBack id r
    else if v.memory?.isNone then throw (.spillWithoutHome v.name)
    else if v.isDirty then writeBack id r
    unbind id
    withdraw r
    return r

/-- The least recently used variable of a kind whose register can be taken. -/
def victim? (a : Allocator) (eligible : Variable → Bool) : Option VarId :=
  a.recency.toList.find? fun id =>
    (a.var? id).any fun v =>
      eligible v && v.storage.register?.any fun r => r.isPool && r ∉ a.held

/-- The variable that gives way when no register is free. -/
def chooseVictim? (a : Allocator) : Option VarId :=
  victim? a (fun v => !v.isTemp) <|> victim? a fun v => v.isTemp && !v.isPinned

/-- Takes a register: the one that was freed first, or else that of the variable that gives way. -/
def take : Alloc Reg := do
  match ← look fun a => a.free.find? (· ∉ a.held) with
  | some r =>
    withdraw r
    return r
  | none =>
    match ← look chooseVictim? with
    | some id => evict id
    | none => throw .outOfRegisters

/-- Loads a word into a register. -/
def loadWord (r : Reg) (home : Home) : Alloc Unit := do
  let address ← addressOf home
  emit (.lw r address.base address.offset)

/-- Loads the value of a variable into a register. The value of an array is its address. -/
def load (id : VarId) (r : Reg) : Alloc Unit := do
  let v ← known id
  match v.array, v.storage with
  | some home, _ =>
    let address ← addressOf home
    emit (.addi r address.base address.offset)
  | none, .memory home => loadWord r home
  | none, .register _ =>
    match v.home with
    | some home => loadWord r home
    | none => throw (.reloadWithoutHome v.name)
  | none, .saved _ => throw (.reloadParked v.name)

end Alloc

end SmallC
