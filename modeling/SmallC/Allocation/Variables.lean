import SmallC.Allocation.Traffic

/-!
Operations on variables and temporaries. A named variable has a home from its introduction on and is
introduced at most once in a level; a temporary is known by a name that no variable can have.
-/
namespace SmallC.Alloc

/-- Refuses a name that the innermost level holds a variable for. -/
def checkUnbound (name : String) : Alloc Unit := do
  if (← look fun a => a.current.names.lookup name).isSome then throw (.alreadyBound name)

/-- Adds a variable; the answer is its number. -/
def insert (v : Variable) : Alloc VarId := do
  let id ← look fun a => a.vars.size
  change fun a => { a with vars := a.vars.push (some v) }
  return id

/-- Lets the innermost level hold a variable under a name. -/
def name (name : String) (id : VarId) : Alloc Unit :=
  change fun a => a.modifyCurrent (Level.addName name id)

/-- Introduces a variable in a given register or in any. Its value is written next, so the register
is newer than the home from the start. -/
def addVariable (name : String) (given : Option Reg) : Alloc Reg := do
  checkUnbound name
  let r ←
    match given with
    | some r => do
      if (← look fun a => a.ownerOf r).isSome then throw (.registerInUse r)
      withdraw r
      pure r
    | none => take
  let home ← allocHome 1
  let depth ← look Allocator.depth
  let id ← insert
    { Variable.plain name false depth (some home) (.register r) with isDirty := true }
  Alloc.name name id
  bindTo id r
  return r

/-- Introduces a variable that starts in its home. -/
def declareVariable (name : String) : Alloc Unit := do
  checkUnbound name
  let home ← allocHome 1
  let depth ← look Allocator.depth
  let id ← insert (Variable.plain name false depth (some home) (.memory home))
  Alloc.name name id

/-- The name of a temporary. It starts with a character that no identifier holds. -/
def tempName (n : Nat) : String := s!"%t{n}"

/-- A name that no temporary had before. -/
def freshTemp : Alloc String := do
  let n ← look Allocator.nextTemp
  change fun a => { a with nextTemp := n + 1 }
  return tempName n

/-- Lets a name be that of a temporary. -/
def addTempName (name : String) (id : VarId) : Alloc Unit :=
  change fun a => { a with temps := Level.without name a.temps ++ [(name, id)] }

/-- Forgets a name of a temporary. -/
def removeTempName (name : String) : Alloc Unit :=
  change fun a => { a with temps := Level.without name a.temps }

/-- Introduces a temporary in a register. -/
def addTemp : Alloc String := do
  let r ← take
  let name ← freshTemp
  let depth ← look Allocator.depth
  let id ← insert (Variable.plain name true depth none (.register r))
  addTempName name id
  bindTo id r
  return name

/-- The home that a temporary brings along when it becomes a variable, and whether its register is
newer than that home. A temporary in a register gets a home of its own; one that was spilled keeps
the one it was spilled to. -/
def adoptedHome (temp : String) (v : Variable) : Alloc (Home × Bool) := do
  match v.storage, v.home with
  | .register _, _ => return (← allocHome 1, true)
  | .memory _, some home => return (home, false)
  | _, _ => throw (.noUsableLocation temp)

/-- Turns a temporary into a named variable of the innermost level, which keeps its place. -/
def renameTemp (temp name : String) : Alloc Unit := do
  checkUnbound name
  match ← look fun a => a.temps.lookup temp with
  | none => throw (.notTemporary temp)
  | some id =>
    let v ← known id
    let (home, isDirty) ← adoptedHome temp v
    removeTempName temp
    let depth ← look Allocator.depth
    update id fun v =>
      { v with name, isTemp := false, isPinned := false, depth, home := some home, isDirty }
    Alloc.name name id
    if v.storage.register?.isSome then touch id

/-- The register that holds a variable, which is loaded first if it lives in memory. A variable that
is to be modified and that a pointer may have changed is loaded anew. -/
def getRegister (name : String) (modifies : Bool) : Alloc Reg := do
  let id ← resolve name
  let v ← known id
  match v.storage.register? with
  | some r =>
    if modifies ∧ v.mustReload ∧ ¬ v.isDirty then load id r
    touch id
    hold r
    return r
  | none =>
    let r ← take
    load id r
    bindTo id r
    update id fun v => { v with isDirty := false }
    return r

/-- Turns a named variable into a temporary of the enclosing level, so that it outlives its own. -/
def detachAsTemp (name : String) : Alloc String := do
  let r ← getRegister name true
  let id ← resolve name
  let depth := (← known id).depth
  change fun a => a.modifyLevel depth (Level.removeName name)
  let temp ← freshTemp
  update id fun v => { v with
    name := temp, isTemp := true, depth := depth - 1, home := none, isDirty := false
    mustReload := false }
  addTempName temp id
  hold r
  return temp

/-- A register to write a variable into, whose value up to now is lost. -/
def prepareWrite (name : String) : Alloc Reg := do
  let id ← resolve name
  let v ← known id
  if v.array.isSome then throw (.assignedArray name)
  let r ←
    match v.storage.register? with
    | some r => do
      touch id
      hold r
      pure r
    | none => do
      let r ← take
      bindTo id r
      pure r
  update id fun v => { v with isDirty := true }
  return r

/-- Notes that the register of a variable was written. A variable that a pointer may read goes home
at once. -/
def markWritten (name : String) : Alloc Unit := do
  let id ← resolve name
  let v ← known id
  if v.isTemp then return
  update id fun v => { v with isDirty := true }
  match v.mustReload, v.storage.register? with
  | true, some r => writeBack id r
  | _, _ => return

/-- Drops a variable or temporary. -/
def drop (id : VarId) : Alloc Unit := do
  unbind id
  let v ← known id
  if v.isTemp then removeTempName v.name
  else change fun a => a.modifyLevel v.depth (Level.removeNameOf v.name id)
  change fun a => { a with
    recency := a.recency.remove id, vars := a.vars.setIfInBounds id none }

/-- Drops what a name stands for. -/
def remove (name : String) : Alloc Unit := do drop (← resolve name)

/-- Drops what a name stands for, if it is a temporary. -/
def removeIfTemp (name : String) : Alloc Unit := do
  match ← look fun a => a.temps.lookup name with
  | some id => drop id
  | none => return

/-- Drops every temporary; the answer is how many there were. -/
def discardTemps : Alloc Nat := do
  let temps ← look Allocator.temps
  temps.forM fun temp => drop temp.2
  return temps.length

/-- Frees a register, moving what it holds elsewhere, and keeps it out of circulation. -/
def reserve (r : Reg) : Alloc Unit := do
  match ← look fun a => a.ownerOf r with
  | some id =>
    hold r
    let target ← take
    emit (MachineInstr.move target r)
    setOwner r none
    bindTo id target
  | none => pure ()
  withdraw r
  if r.isPool then
    change fun a => { a with reserved := if r ∈ a.reserved then a.reserved else a.reserved ++ [r] }

/-- Puts all reserved registers back into circulation. -/
def unreserveAll : Alloc Unit := do
  let reserved ← look Allocator.reserved
  change fun a => { a with reserved := [] }
  reserved.forM fun r => do
    if (← look fun a => a.ownerOf r).isNone then release r

/-- Introduces an array of so many words. -/
def setArray (name : String) (size : Nat) : Alloc Unit := do
  checkUnbound name
  let home ← allocHome (max size 1)
  let depth ← look Allocator.depth
  let id ← insert
    { Variable.plain name false depth none (.memory home) with array := some home, refs := 1 }
  Alloc.name name id

/-- Notes the dimensions of an array. -/
def setDims (name : String) (dims : List Nat) : Alloc Unit := do
  update (← resolve name) fun v => { v with dims }

/-- The dimensions of an array; there are none for other variables. -/
def dims (name : String) : Alloc (List Nat) := return (← knownAs name).dims

/-- The address of the first element of an array. -/
def arrayAddress (name : String) : Alloc Address := do
  match (← knownAs name).array with
  | some home => addressOf home
  | none => throw (.notArray name)

/-- The address of a variable. Its home is brought up to date, and from now on a pointer may change
it. -/
def memoryAddress (name : String) : Alloc Address := do
  let id ← resolve name
  let v ← known id
  match v.array, v.home with
  | some home, _ => addressOf home
  | none, none => throw (.noAddress name)
  | none, some home =>
    match v.storage.register?, v.isDirty with
    | some r, true => writeBack id r
    | _, _ => pure ()
    update id fun v => { v with mustReload := true }
    addressOf home

/-- Notes that a pointer may change a variable. -/
def setMustReload (name : String) : Alloc Unit := do
  update (← resolve name) fun v => { v with mustReload := true }

/-- Notes how a variable is read as a number. -/
def setKind (name : String) (kind : NumberKind) : Alloc Unit := do
  update (← resolve name) fun v => { v with kind }

/-- How a variable is read as a number. -/
def kind (name : String) : Alloc NumberKind := return (← knownAs name).kind

/-- Notes the pointer depth of a variable. -/
def setRefs (name : String) (refs : Nat) : Alloc Unit := do
  update (← resolve name) fun v => { v with refs }

/-- The pointer depth of a variable. -/
def refs (name : String) : Alloc Nat := return (← knownAs name).refs

/-- Lets a name stand for what another stands for, within the innermost level. -/
def setAlias (name target : String) : Alloc Unit := do
  let id ← resolve target
  change fun a => a.modifyCurrent (Level.addAlias name id)

/-- Forgets a further name of the innermost level. -/
def removeAlias (name : String) : Alloc Unit :=
  change fun a => a.modifyCurrent (Level.removeAlias name)

/-- Lets a variable be the first to give way. -/
def demote (name : String) : Alloc Unit := do
  match ← look fun a => a.find? name with
  | some id => change fun a => { a with recency := a.recency.demote id }
  | none => return

end SmallC.Alloc
