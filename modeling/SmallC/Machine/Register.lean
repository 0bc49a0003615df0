import SmallC.Text.Numeral

/-!
The register file and its calling convention. Thirty-two registers are numbered from zero; a few are
claimed by the convention and the twenty of the pool are handed out by the allocator.
-/
namespace SmallC

/-- A register, known by its number. -/
structure Reg where
  index : Fin 32
  deriving DecidableEq, Repr

namespace Reg

theorem index_lt (r : Reg) : r.index.val < 32 := r.index.isLt

/-- Always reads zero; what is written to it is lost. -/
def zero : Reg := ⟨0⟩

/-- Scratch register of sequences that need one more value than they have operands. -/
def scratch : Reg := ⟨1⟩

/-- Carries the result of a call. -/
def result : Reg := ⟨2⟩

/-- Points at the lowest word of the stack, which grows towards address zero. -/
def stackPointer : Reg := ⟨29⟩

/-- Holds the code of the last arithmetic fault. -/
def status : Reg := ⟨30⟩

/-- Holds the address to return to. -/
def returnAddress : Reg := ⟨31⟩

/-- Number of arguments that travel in registers. -/
def argumentCount : Nat := 4

/-- The register of that number, if there is one. -/
def ofNat? (n : Nat) : Option Reg :=
  if h : n < 32 then some ⟨⟨n, h⟩⟩ else none

/-- The registers that carry arguments, in order. -/
def arguments : List Reg := [⟨4⟩, ⟨5⟩, ⟨6⟩, ⟨7⟩]

/-- Every register, in order. -/
def all : List Reg := (List.finRange 32).map fun index => ⟨index⟩

/-- Whether the allocator may hand the register out. -/
def isPool (r : Reg) : Bool :=
  8 ≤ r.index.val && r.index.val ≤ 27

/-- The allocation pool, in order of preference. -/
def pool : List Reg := all.filter isPool

/-- The names that the convention gives to registers, without the dollar sign. -/
def conventionalNames : List (String × Reg) :=
  [("zero", zero), ("at", scratch), ("v0", result), ("v1", ⟨3⟩), ("a0", ⟨4⟩), ("a1", ⟨5⟩),
    ("a2", ⟨6⟩), ("a3", ⟨7⟩), ("sp", stackPointer), ("ra", returnAddress), ("rstatus", status)]

/-- Reads a register as assembly text writes it: a dollar sign and then a conventional name or a
number. -/
def ofText? (text : String) : Option Reg :=
  match text.toList with
  | '$' :: name =>
    match conventionalNames.lookup (String.ofList name) with
    | some r => some r
    | none => (Numeral.unsigned? 10 name).bind ofNat?
  | _ => none

/-- The register as assembly listings write it. -/
def text (r : Reg) : String :=
  s!"${r.index.val}"

end Reg

end SmallC
