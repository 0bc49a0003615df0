import SmallC.Allocation.Variables

/-!
Where paths of control meet, and the levels of blocks and functions.

Before a point where paths meet, every named variable goes home and every temporary is pinned to a
register, so that all paths arrive in the same state. A function body starts with all registers free;
those of the code around it come back when it ends.
-/
namespace SmallC.Alloc

/-- Sends the named variable in a register home and parts it from the register. -/
def sendHome (r : Reg) : Alloc Unit := do
  match ← look fun a => a.ownerOf r with
  | none => return
  | some id =>
    let v ← known id
    if v.isTemp then return
    if v.isDirty then writeBack id r
    unbind id

/-- The temporaries in the order of their numbers. -/
def tempIds : Alloc (List VarId) :=
  look fun a => (a.temps.map Prod.snd).mergeSort

/-- Pins a temporary that is in a register. -/
def pin (id : VarId) : Alloc Unit :=
  update id fun v => { v with isPinned := v.isPinned || v.storage.register?.isSome }

/-- Brings a temporary that was spilled back into a register and pins it there. -/
def bringBack (id : VarId) : Alloc Unit := do
  if (← known id).storage.isMemory then
    let r ← take
    load id r
    bindTo id r
    update id fun v => { v with isPinned := true }

/-- Brings about the state in which all paths to this point meet. -/
def sync : Alloc Unit := do
  Reg.all.forM sendHome
  let temps ← tempIds
  temps.forM pin
  temps.forM bringBack

/-- Opens a level. -/
def pushLevel (hidesOuter : Bool) : Alloc Unit :=
  change fun a => { a with inner := Level.empty hidesOuter :: a.inner }

/-- Drops the variables of a level and closes it; what they hold is lost. -/
def closeLevel (level : Level) : Alloc Unit := do
  level.names.forM fun entry => drop entry.2
  change fun a => { a with inner := a.inner.drop 1 }

/-- Closes the innermost level, which must not be the root. -/
def popLevel : Alloc Unit := do
  match ← look Allocator.inner with
  | [] => throw .poppedRoot
  | level :: _ => closeLevel level

/-- The binding of a register, as it is put aside for the length of a function body. -/
def outsideBinding? (r : Reg) : Alloc (Option (VarId × Reg × Bool)) := do
  match ← look fun a => a.ownerOf r with
  | none => return none
  | some id =>
    let v ← known id
    if v.isTemp then throw (.temporaryAtFunction v.name)
    return v.storage.register?.map fun r => (id, r, v.isDirty)

/-- Starts a function body. -/
def enterFunction : Alloc Unit := do
  if ← look Allocator.inFunction then throw .nestedFunction
  let bindings := (← Reg.all.mapM outsideBinding?).filterMap id
  change fun a => { a with outside := some ⟨bindings, a.free, a.recency, a.pushed⟩ }
  bindings.forM fun binding => unbind binding.1
  change fun a => { a with
    free := Reg.pool
    recency := Recency.empty
    pushed := 0
    frame := some 0
    inner := Level.empty true :: a.inner }

/-- Writes home the variable of the root in a register, if the register is newer. -/
def sendRootHome (r : Reg) : Alloc Unit := do
  match ← look fun a => a.ownerOf r with
  | none => return
  | some id =>
    let v ← known id
    if v.depth = 0 ∧ ¬ v.isTemp ∧ v.isDirty then
      match v.storage.register? with
      | some r => writeBack id r
      | none => return

/-- Parts whatever is in a register from it. -/
def vacate (r : Reg) : Alloc Unit := do
  match ← look fun a => a.ownerOf r with
  | none => return
  | some id => unbind id

/-- Puts a variable back into the register that it had outside of the function body. -/
def rebind (binding : VarId × Reg × Bool) : Alloc Unit := do
  let (id, r, isDirty) := binding
  setOwner r (some id)
  update id fun v => { v with storage := .register r, isDirty }

/-- Ends a function body; the answer is the number of slots in its frame. -/
def leaveFunction : Alloc Nat := do
  Reg.all.forM sendRootHome
  (← look Allocator.inner).forM closeLevel
  Reg.all.forM vacate
  let _ ← discardTemps
  let size := (← look Allocator.frame).getD 0
  change fun a => { a with frame := none }
  match ← look Allocator.outside with
  | none => throw .functionNotOpen
  | some outside =>
    change fun a => { a with
      outside := none, free := outside.free, recency := outside.recency, pushed := outside.pushed }
    outside.bindings.forM rebind
    releaseHolds
    return size

end SmallC.Alloc
