import SmallC.Machine.Instruction

/-!
Entries: the units of a program under construction and of a finished one. An entry is an instruction
together with the label bound to it, and an entry's address is its place in the list.
-/
namespace SmallC

/-- An instruction and the label bound to it, if any. -/
structure Entry where
  label : Option String
  instr : MachineInstr
  deriving DecidableEq, Repr

namespace Entry

/-- An instruction that no label is bound to. -/
def plain (instr : MachineInstr) : Entry := ⟨none, instr⟩

/-- An instruction with a label. -/
def labeled (label : String) (instr : MachineInstr) : Entry := ⟨some label, instr⟩

/-- The jump target of the instruction, if there is one. -/
def target? (e : Entry) : Option Target := e.instr.target?

/-- Names the label that the target refers to anew; what it resolved to stays. -/
def retarget (source destination : String) (e : Entry) : Entry :=
  { e with instr := e.instr.mapTarget fun target =>
      if target.label = source then { target with label := destination } else target }

/-- Whether the target refers to a label. -/
def refersTo (label : String) (e : Entry) : Bool :=
  e.target?.any fun target => target.label = label

/-- The lines of the entry in an assembly listing. -/
def lines (e : Entry) : List String :=
  match e.label with
  | some label => [s!"{label}:", s!"  {e.instr.text}"]
  | none => [s!"  {e.instr.text}"]

end Entry

/-- The lines of a list of entries in an assembly listing. -/
def listingLines (entries : List Entry) : List String :=
  entries.flatMap Entry.lines

/-- An assembly listing; every line is terminated. -/
def listing (entries : List Entry) : String :=
  String.join ((listingLines entries).map fun line => line ++ "\n")

end SmallC
