import SmallC.Machine.Instruction
import SmallC.Machine.Word

/-!
Binary encoding, one word per instruction. From the highest bit down the fields are

* register format: opcode 5, `rd` 5, `rs` 5, `rt` 5, shift amount 5, operation 5, two zero bits;
* immediate format: opcode 5, `rd` 5, `rs` 5, signed immediate 17;
* jump format: opcode 5, signed target 27.

Encoding fails only when a target is unresolved or a number does not fit its field.
-/
namespace SmallC

/-- Why an instruction has no encoding. Both causes name its address and its text. -/
inductive EncodeError where
  | immediateOutOfRange (address : Nat) (value : Int) (bits : Nat) (text : String)
  | unresolved (address : Nat) (text : String)
  deriving DecidableEq, Repr

/-- The wording of an encoding error. -/
def EncodeError.message : EncodeError → String
  | immediateOutOfRange address value bits text =>
    s!"Immediate {value} does not fit in {bits} bits (instruction {address}: {text})"
  | unresolved address text => s!"Instruction {address} ({text}) has an unresolved target"

/-- The operation field of the register format. -/
def AluOp.code : AluOp → BitVec 5
  | .add => 0
  | .sub => 1
  | .and => 2
  | .or => 3
  | .mul => 6
  | .div => 7
  | .slt => 8
  | .sgt => 9

/-- The operation field of the register format. -/
def ShiftOp.code : ShiftOp → BitVec 5
  | .sll => 4
  | .sra => 5

/-- The opcode of a relative branch. -/
def BranchOp.opcode : BranchOp → BitVec 5
  | .bne => 0b00010
  | .blt => 0b00110

/-- The opcode of an absolute jump. -/
def JumpOp.opcode : JumpOp → BitVec 5
  | .j => 0b00001
  | .jal => 0b00011
  | .bex => 0b10110

namespace Encoding

/-- The five bits that number a register. -/
def regField (r : Reg) : BitVec 5 := BitVec.ofFin r.index

/-- A word in register format. -/
def registerFormat (rd rs rt : Reg) (amount : BitVec 5) (operation : BitVec 5) : Word :=
  0b00000#5 ++ regField rd ++ regField rs ++ regField rt ++ amount ++ operation ++ 0b00#2

/-- A word in immediate format. -/
def immediateFormat (opcode : BitVec 5) (rd rs : Reg) (imm : BitVec 17) : Word :=
  opcode ++ regField rd ++ regField rs ++ imm

/-- A word in jump format. -/
def jumpFormat (opcode : BitVec 5) (target : BitVec 27) : Word :=
  opcode ++ target

end Encoding

namespace MachineInstr

open Encoding

/-- The two's complement of a number in a field of the given width, if it fits. -/
def field (i : MachineInstr) (address bits : Nat) (value : Int) :
    Except EncodeError (BitVec bits) :=
  if FitsSigned bits value then .ok (BitVec.ofInt bits value)
  else .error (.immediateOutOfRange address value bits i.text)

/-- What a target resolved to. -/
def resolution (i : MachineInstr) (address : Nat) (target : Target) : Except EncodeError Int :=
  match target.resolved with
  | some value => .ok value
  | none => .error (.unresolved address i.text)

/-- The word for an instruction that sits at the given address. -/
def encode (i : MachineInstr) (address : Nat) : Except EncodeError Word :=
  match i with
  | .alu op rd rs rt => .ok (registerFormat rd rs rt 0 op.code)
  | .shift op rd rs amount =>
    .ok (registerFormat rd rs Reg.zero (BitVec.ofNat 5 amount) op.code)
  | .addi rd rs imm => return immediateFormat 0b00101 rd rs (← i.field address 17 imm)
  | .sw rd base offset => return immediateFormat 0b00111 rd base (← i.field address 17 offset)
  | .lw rd base offset => return immediateFormat 0b01000 rd base (← i.field address 17 offset)
  | .branch op rd rs target => do
    let distance ← i.resolution address target
    return immediateFormat op.opcode rd rs (← i.field address 17 distance)
  | .jump op target => do
    let destination ← i.resolution address target
    return jumpFormat op.opcode (← i.field address 27 destination)
  | .setx value => return jumpFormat 0b10101 (← i.field address 27 value)
  | .jr rd => .ok (immediateFormat 0b00100 rd Reg.zero 0)
  | .testlog rd => .ok (immediateFormat 0b11111 rd Reg.zero 0)

end MachineInstr

end SmallC
