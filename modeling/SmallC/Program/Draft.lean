import SmallC.Program.Link
import SmallC.Program.Peephole

/-!
Drafts: programs under construction. A draft grows at its end, hands out labels that no function name
can equal, and lets an instruction be exchanged once its final form is known.
-/
namespace SmallC

/-- A program under construction. -/
structure Draft where
  /-- The entries so far. -/
  entries : Array Entry
  /-- Number of labels handed out. -/
  labels : Nat

namespace Draft

/-- Nothing yet. -/
def empty : Draft := ⟨#[], 0⟩

/-- Number of entries. -/
def size (d : Draft) : Nat := d.entries.size

/-- Appends an entry. -/
def append (d : Draft) (e : Entry) : Draft := { d with entries := d.entries.push e }

/-- Appends an instruction. -/
def push (d : Draft) (instr : MachineInstr) : Draft := d.append (.plain instr)

/-- Appends instructions. -/
def pushAll (d : Draft) (code : Array MachineInstr) : Draft :=
  { d with entries := d.entries ++ code.map Entry.plain }

/-- Binds a label to an anchor at the end. -/
def placeLabel (d : Draft) (label : String) : Draft :=
  d.append (.labeled label MachineInstr.noop)

/-- The name of a generated label. It starts with a dot, as no identifier does. -/
def labelName (n : Nat) : String := s!".L{n}"

/-- Hands out a fresh label. -/
def freshLabel (d : Draft) : String × Draft :=
  (labelName d.labels, { d with labels := d.labels + 1 })

/-- Exchanges the instruction at an index and keeps its label; beyond the end nothing happens. -/
def patch (d : Draft) (index : Nat) (instr : MachineInstr) : Draft :=
  { d with entries := d.entries.modify index fun e => { e with instr } }

/-- Links the draft, after the peephole passes if asked. -/
def finish (d : Draft) (optimize : Bool) : Except LinkError Program :=
  let entries := d.entries.toList
  Program.link (if optimize then Peephole.optimize entries else entries)

end Draft

end SmallC
