import SmallC.Allocation.Blocks

/-!
Calls. Before a call, named variables go home and temporaries are put aside together with the return
address; behind it, the temporaries come back to the registers that they left. Inside of a function
the save area is on the stack, at top level it consists of words of global memory.
-/
namespace SmallC.Alloc

/-- Notes that generated code pushed words onto the stack. -/
def pushWords (words : Int) : Alloc Unit := change fun a => { a with pushed := a.pushed + words }

/-- Notes that generated code popped words from the stack. -/
def popWords (words : Int) : Alloc Unit := change fun a => { a with pushed := a.pushed - words }

/-- Empties a register before a call: a named variable goes home, a temporary is to be put aside. -/
def leaveForCall (r : Reg) : Alloc (Option (VarId × Reg)) := do
  match ← look fun a => a.ownerOf r with
  | none => return none
  | some id =>
    let v ← known id
    match v.storage.register? with
    | none => return none
    | some r =>
      if v.isTemp then return some (id, r)
      if v.isDirty then writeBack id r
      unbind id
      return none

/-- Writes temporaries to consecutive slots of the save area on the stack. -/
def saveOnStack (slot : Nat) : List (VarId × Reg) → Alloc (List (VarId × Reg × Nat))
  | [] => return []
  | (id, r) :: rest => do
    emit (.sw r Reg.stackPointer slot)
    return (id, r, slot) :: (← saveOnStack (slot + 1) rest)

/-- Writes a temporary to a fresh word of global memory. -/
def saveInGlobal (temp : VarId × Reg) : Alloc (VarId × Reg × Nat) := do
  let address ← look Allocator.globals
  change fun a => { a with globals := address + 1 }
  emit (.sw temp.2 Reg.zero address)
  return (temp.1, temp.2, address)

/-- Notes that a temporary waits in a save area. -/
def park (saved : VarId × Reg × Nat) : Alloc Unit := do
  let (id, r, slot) := saved
  setOwner r none
  change fun a => { a with recency := a.recency.remove id }
  update id fun v => { v with storage := .saved slot }

/-- Prepares for a call. -/
def saveForCall : Alloc Unit := do
  let temps := (← Reg.all.mapM leaveForCall).filterMap id
  let save : CallSave ←
    if ← look Allocator.inFunction then do
      let words := temps.length + 1
      emit (.addi Reg.stackPointer Reg.stackPointer (-(words : Int)))
      pushWords words
      emit (.sw Reg.returnAddress Reg.stackPointer 0)
      pure ⟨← saveOnStack 1 temps, words⟩
    else pure ⟨← temps.mapM saveInGlobal, 0⟩
  save.saved.forM park
  change fun a => { a with calls := save :: a.calls }

/-- Brings a temporary back from a save area. -/
def unpark (base : Reg) (saved : VarId × Reg × Nat) : Alloc Unit := do
  let (id, r, slot) := saved
  emit (.lw r base slot)
  bindTo id r

/-- Undoes the preparation for the innermost pending call. -/
def restoreAfterCall : Alloc Unit := do
  match ← look Allocator.calls with
  | [] => throw .restoreWithoutSave
  | save :: calls =>
    change fun a => { a with calls }
    save.saved.forM (unpark (if save.words = 0 then Reg.zero else Reg.stackPointer))
    if save.words ≠ 0 then
      emit (.lw Reg.returnAddress Reg.stackPointer 0)
      emit (.addi Reg.stackPointer Reg.stackPointer save.words)
      popWords save.words

end SmallC.Alloc
