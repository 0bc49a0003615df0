import SmallC.Program.Entry
import SmallC.Machine.Encoding
import SmallC.Machine.Execution

/-!
Linking. Every label must be bound to one entry and every target must refer to a bound label; both
are checked before a target is resolved, so an error leaves nothing half done. An absolute target
resolves to the address of its entry, a relative one to the distance from the instruction after the
branch.
-/
namespace SmallC

/-- Why entries do not link. -/
inductive LinkError where
  | missingLabel (label : String)
  | duplicateLabel (label : String)
  deriving DecidableEq, Repr

/-- The wording of a link error. -/
def LinkError.message : LinkError → String
  | missingLabel label => s!"Label {label} not found"
  | duplicateLabel label => s!"Label {label} is bound to more than one instruction"

namespace Link

/-- The labels that entries bind, with their addresses, from a first address on. -/
def addressesFrom (address : Nat) : List Entry → List (String × Nat)
  | [] => []
  | e :: rest =>
    match e.label with
    | some label => (label, address) :: addressesFrom (address + 1) rest
    | none => addressesFrom (address + 1) rest

/-- The labels that entries bind, with their addresses. -/
def addresses (entries : List Entry) : List (String × Nat) :=
  addressesFrom 0 entries

/-- The first label that repeats one before it, given the labels seen so far. -/
def firstRepeat (seen : List String) : List String → Option String
  | [] => none
  | label :: rest => if label ∈ seen then some label else firstRepeat (label :: seen) rest

/-- What a target at an address resolves to when it refers to a destination. -/
def resolution (instr : MachineInstr) (address destination : Nat) : Int :=
  if instr.isRelative then (destination : Int) - address - 1 else destination

/-- What targets resolve to, each with the address of the entry that has it, from a first address on. -/
def resolutionsFrom (bound : List (String × Nat)) (address : Nat) :
    List Entry → Except LinkError (List (Nat × Int))
  | [] => .ok []
  | e :: rest =>
    match e.target? with
    | none => resolutionsFrom bound (address + 1) rest
    | some target =>
      match bound.lookup target.label with
      | none => .error (.missingLabel target.label)
      | some destination =>
        return (address, resolution e.instr address destination) :: (← resolutionsFrom bound (address + 1) rest)

/-- What the targets of entries resolve to, if no label is bound twice and none is missing. -/
def resolutions (entries : List Entry) : Except LinkError (List (Nat × Int)) :=
  let bound := addresses entries
  match firstRepeat [] (bound.map Prod.fst) with
  | some label => .error (.duplicateLabel label)
  | none => resolutionsFrom bound 0 entries

/-- Writes what a target resolves to. -/
def settle (value : Int) (e : Entry) : Entry :=
  { e with instr := e.instr.mapTarget fun target => { target with resolved := some value } }

end Link

/-- Resolves every target of entries where they stand. -/
def linkInPlace : EStateM LinkError (List Entry) Unit := do
  match Link.resolutions (← get) with
  | .error e => throw e
  | .ok values =>
    values.forM fun (address, value) => modify fun entries => entries.modify address (Link.settle value)

/-- The entries with every target resolved. -/
def linkEntries (entries : List Entry) : Except LinkError (List Entry) :=
  match linkInPlace entries with
  | .ok () linked => .ok linked
  | .error e _ => .error e

/-- A linked program. An instruction's address is its place in the array. -/
structure Program where
  entries : Array Entry
  deriving Repr

namespace Program

/-- Links entries into a program. -/
def link (entries : List Entry) : Except LinkError Program :=
  (linkEntries entries).map fun linked => ⟨linked.toArray⟩

/-- Number of instructions. -/
def size (p : Program) : Nat := p.entries.size

/-- The instruction at an address, if there is one. -/
def instr? (p : Program) (address : Nat) : Option MachineInstr :=
  p.entries[address]?.map Entry.instr

/-- The address of the first entry that a label is bound to. -/
def addressOf? (p : Program) (label : String) : Option Nat :=
  p.entries.toList.findIdx? fun e => e.label = some label

/-- The assembly listing, line by line. -/
def listingLines (p : Program) : List String := SmallC.listingLines p.entries.toList

/-- The assembly listing. -/
def listing (p : Program) : String := SmallC.listing p.entries.toList

/-- Words of entries from a first address on. -/
def encodeFrom (address : Nat) : List Entry → Except EncodeError (List Word)
  | [] => .ok []
  | e :: rest => return (← e.instr.encode address) :: (← encodeFrom (address + 1) rest)

/-- The encoded program. -/
def encode (p : Program) : Except EncodeError (List Word) :=
  encodeFrom 0 p.entries.toList

/-- The thirty-two binary digits of a word. -/
def binaryDigits (w : Word) : String :=
  String.ofList ((List.range 32).map fun i => if w.getMsbD i then '1' else '0')

/-- The memory image: one word a line, in binary. -/
def memoryImage (p : Program) : Except EncodeError String :=
  p.encode.map fun words => String.join (words.map fun w => binaryDigits w ++ "\n")

end Program

namespace Machine

/-- Runs a program for at most the given number of steps after those already made. The answer is the
machine afterwards and the number of steps made in all, or the error that ended the run. -/
def runFrom (program : Program) (made : Nat) (m : Machine) :
    Nat → Machine × Except MachineError Nat
  | 0 => (m, .ok made)
  | bound + 1 =>
    if m.pc < 0 then (m, .ok made) else
    match program.instr? m.pc.toNat with
    | none => (m, .ok made)
    | some i =>
      match m.execute i (m.pc + 1) with
      | (after, .ok next) => runFrom program (made + 1) (after.goto next) bound
      | (after, .error e) => (after, .error e)

/-- Runs a program for at most the given number of steps. -/
def run (m : Machine) (program : Program) (bound : Nat) : Machine × Except MachineError Nat :=
  m.runFrom program 0 bound

end Machine

end SmallC
