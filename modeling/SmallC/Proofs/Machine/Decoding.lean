import Mathlib
import SmallC.Machine.Encoding
import SmallC.Machine.Execution

/-!
Words read back as instructions. A word says all about an instruction but the name of its target and the part of a
shift amount that does not count, and neither matters to what the instruction does. So what a word does is the same
whatever instruction it came from, and wherever that stood.
-/
namespace SmallC

namespace Encoding

/-! ### Fields -/

def opcodeOf (w : Word) : BitVec 5 := w.extractLsb' 27 5

def rdOf (w : Word) : Reg := ⟨(w.extractLsb' 22 5).toFin⟩

def rsOf (w : Word) : Reg := ⟨(w.extractLsb' 17 5).toFin⟩

def rtOf (w : Word) : Reg := ⟨(w.extractLsb' 12 5).toFin⟩

def amountOf (w : Word) : BitVec 5 := w.extractLsb' 7 5

def operationOf (w : Word) : BitVec 5 := w.extractLsb' 2 5

def immediateOf (w : Word) : BitVec 17 := w.extractLsb' 0 17

def targetOf (w : Word) : BitVec 27 := w.extractLsb' 0 27

/-- The fields of the register format do not overlap. -/
theorem fields_registerFormat (rd rs rt : Reg) (amount operation : BitVec 5) :
    let w := registerFormat rd rs rt amount operation
    opcodeOf w = 0 ∧ rdOf w = rd ∧ rsOf w = rs ∧ rtOf w = rt ∧ amountOf w = amount ∧ operationOf w = operation := by
  simp (disch := decide) only [opcodeOf, rdOf, rsOf, rtOf, amountOf, operationOf, registerFormat, regField,
    BitVec.extractLsb'_append_eq_of_le, BitVec.extractLsb'_append_eq_of_add_le, Nat.reduceSub, BitVec.extractLsb'_eq_self]
  exact ⟨rfl, trivial, trivial, trivial, trivial, trivial⟩

/-- The fields of the immediate format do not overlap. -/
theorem fields_immediateFormat (opcode : BitVec 5) (rd rs : Reg) (imm : BitVec 17) :
    let w := immediateFormat opcode rd rs imm
    opcodeOf w = opcode ∧ rdOf w = rd ∧ rsOf w = rs ∧ immediateOf w = imm := by
  simp (disch := decide) only [opcodeOf, rdOf, rsOf, immediateOf, immediateFormat, regField,
    BitVec.extractLsb'_append_eq_of_le, BitVec.extractLsb'_append_eq_of_add_le, Nat.reduceSub, BitVec.extractLsb'_eq_self]
  exact ⟨trivial, trivial, trivial, trivial⟩

/-- The fields of the jump format do not overlap. -/
theorem fields_jumpFormat (opcode : BitVec 5) (target : BitVec 27) :
    let w := jumpFormat opcode target
    opcodeOf w = opcode ∧ targetOf w = target := by
  simp (disch := decide) only [opcodeOf, targetOf, jumpFormat, BitVec.extractLsb'_append_eq_of_le,
    BitVec.extractLsb'_append_eq_of_add_le, Nat.reduceSub, BitVec.extractLsb'_eq_self]
  exact ⟨trivial, trivial⟩

/-- A signed field gives back every number that fits it. -/
theorem toInt_ofInt_of_fits {bits : Nat} {n : Int} (fits : FitsSigned (bits + 1) n) :
    (BitVec.ofInt (bits + 1) n).toInt = n := by
  obtain ⟨low, high⟩ := fits
  have bound : (signedBound (bits + 1) : Int) = 2 ^ bits := by simp [signedBound]
  rw [bound] at low high
  rw [BitVec.toInt_ofInt]
  apply Int.bmod_eq_of_le
  · rw [Nat.pow_succ]
    push_cast
    omega
  · rw [Nat.pow_succ]
    push_cast
    omega

/-! ### Instructions -/

/-- A target that a word gives: where it is, without a name. -/
def resolvedTo (value : Int) : Target := ⟨"", some value⟩

/-- The instruction that a word in register format stands for. -/
def decodeRegister (w : Word) : Option MachineInstr :=
  match (operationOf w).toNat with
  | 0 => some (.alu .add (rdOf w) (rsOf w) (rtOf w))
  | 1 => some (.alu .sub (rdOf w) (rsOf w) (rtOf w))
  | 2 => some (.alu .and (rdOf w) (rsOf w) (rtOf w))
  | 3 => some (.alu .or (rdOf w) (rsOf w) (rtOf w))
  | 4 => some (.shift .sll (rdOf w) (rsOf w) (amountOf w).toNat)
  | 5 => some (.shift .sra (rdOf w) (rsOf w) (amountOf w).toNat)
  | 6 => some (.alu .mul (rdOf w) (rsOf w) (rtOf w))
  | 7 => some (.alu .div (rdOf w) (rsOf w) (rtOf w))
  | 8 => some (.alu .slt (rdOf w) (rsOf w) (rtOf w))
  | 9 => some (.alu .sgt (rdOf w) (rsOf w) (rtOf w))
  | _ => none

/-- The instruction that a word stands for. -/
def decode (w : Word) : Option MachineInstr :=
  match (opcodeOf w).toNat with
  | 0b00000 => decodeRegister w
  | 0b00001 => some (.jump .j (resolvedTo (targetOf w).toInt))
  | 0b00010 => some (.branch .bne (rdOf w) (rsOf w) (resolvedTo (immediateOf w).toInt))
  | 0b00011 => some (.jump .jal (resolvedTo (targetOf w).toInt))
  | 0b00100 => some (.jr (rdOf w))
  | 0b00101 => some (.addi (rdOf w) (rsOf w) (immediateOf w).toInt)
  | 0b00110 => some (.branch .blt (rdOf w) (rsOf w) (resolvedTo (immediateOf w).toInt))
  | 0b00111 => some (.sw (rdOf w) (rsOf w) (immediateOf w).toInt)
  | 0b01000 => some (.lw (rdOf w) (rsOf w) (immediateOf w).toInt)
  | 0b10101 => some (.setx (targetOf w).toInt)
  | 0b10110 => some (.jump .bex (resolvedTo (targetOf w).toInt))
  | 0b11111 => some (.testlog (rdOf w))
  | _ => none

end Encoding

open Encoding

variable {i : MachineInstr} {a : Nat} {w : Word}

namespace MachineInstr

/-- Whether the target is resolved, and what it resolves to or the immediate fits its signed field. -/
def Encodable : MachineInstr → Prop
  | .addi _ _ imm => FitsSigned 17 imm
  | .sw _ _ offset => FitsSigned 17 offset
  | .lw _ _ offset => FitsSigned 17 offset
  | .branch _ _ _ target => ∃ distance, target.resolved = some distance ∧ FitsSigned 17 distance
  | .jump _ target => ∃ destination, target.resolved = some destination ∧ FitsSigned 27 destination
  | .setx value => FitsSigned 27 value
  | .alu .. | .shift .. | .jr _ | .testlog _ => True

/-- What a word keeps of an instruction: no name of a target, and of a shift amount what counts. -/
def canonical : MachineInstr → MachineInstr
  | .shift op rd rs amount => .shift op rd rs (amount % 32)
  | other => other.mapTarget fun target => { target with label := "" }

theorem field_ok {bits : Nat} {value : Int} (fits : FitsSigned bits value) :
    i.field a bits value = .ok (BitVec.ofInt bits value) := if_pos fits

/-- A word built from a field is built from the number in it, and the number fits. -/
theorem of_field_ok {bits : Nat} {value : Int} {format : BitVec bits → Word}
    (ok : (do return format (← i.field a bits value)) = Except.ok w) :
    FitsSigned bits value ∧ w = format (BitVec.ofInt bits value) := by
  unfold field at ok
  split at ok
  · next fits =>
    cases ok
    exact ⟨fits, rfl⟩
  · cases ok

/-- What needs a target's resolution and succeeds succeeds with what the target resolved to. -/
theorem of_resolution_ok {target : Target} {build : Int → Except EncodeError Word}
    (ok : (do build (← i.resolution a target)) = Except.ok w) :
    ∃ value, target.resolved = some value ∧ build value = .ok w := by
  unfold resolution at ok
  split at ok
  · next value resolved => exact ⟨value, resolved, ok⟩
  · cases ok

theorem encode_of_encodable (i : MachineInstr) (a : Nat) (encodable : Encodable i) : ∃ w, encode i a = .ok w := by
  cases i with
  | alu | shift | jr | testlog => exact ⟨_, rfl⟩
  | addi | sw | lw | setx =>
    rw [encode, field_ok encodable]
    exact ⟨_, rfl⟩
  | branch | jump =>
    obtain ⟨value, resolved, fits⟩ := encodable
    rw [encode, resolution, resolved]
    simp only [bind, Except.bind]
    rw [field_ok fits]
    exact ⟨_, rfl⟩

/-- A word stands for the instruction it came from, up to what the word does not keep. -/
theorem decode_encode (encodes : encode i a = .ok w) : Encodable i ∧ decode w = some (canonical i) := by
  cases i with
  | alu op rd rs rt =>
    cases encodes
    obtain ⟨opcode, rd', rs', rt', -, operation⟩ := fields_registerFormat rd rs rt 0 op.code
    refine ⟨trivial, ?_⟩
    rw [decode, opcode]
    simp only [decodeRegister, operation, rd', rs', rt']
    cases op <;> rfl
  | shift op rd rs amount =>
    cases encodes
    obtain ⟨opcode, rd', rs', -, amount', operation⟩ :=
      fields_registerFormat rd rs Reg.zero (BitVec.ofNat 5 amount) op.code
    refine ⟨trivial, ?_⟩
    rw [decode, opcode]
    simp only [decodeRegister, operation, rd', rs', amount', BitVec.toNat_ofNat]
    cases op <;> rfl
  | addi rd rs imm =>
    obtain ⟨fits, rfl⟩ := of_field_ok encodes
    obtain ⟨opcode, rd', rs', imm'⟩ := fields_immediateFormat 0b00101 rd rs (BitVec.ofInt 17 imm)
    refine ⟨fits, ?_⟩
    rw [decode, opcode]
    simp only [rd', rs', imm', toInt_ofInt_of_fits fits]
    rfl
  | sw rd base offset =>
    obtain ⟨fits, rfl⟩ := of_field_ok encodes
    obtain ⟨opcode, rd', rs', imm'⟩ := fields_immediateFormat 0b00111 rd base (BitVec.ofInt 17 offset)
    refine ⟨fits, ?_⟩
    rw [decode, opcode]
    simp only [rd', rs', imm', toInt_ofInt_of_fits fits]
    rfl
  | lw rd base offset =>
    obtain ⟨fits, rfl⟩ := of_field_ok encodes
    obtain ⟨opcode, rd', rs', imm'⟩ := fields_immediateFormat 0b01000 rd base (BitVec.ofInt 17 offset)
    refine ⟨fits, ?_⟩
    rw [decode, opcode]
    simp only [rd', rs', imm', toInt_ofInt_of_fits fits]
    rfl
  | branch op rd rs target =>
    obtain ⟨value, resolved, encodes⟩ := of_resolution_ok encodes
    obtain ⟨fits, rfl⟩ := of_field_ok encodes
    obtain ⟨opcode, rd', rs', imm'⟩ := fields_immediateFormat op.opcode rd rs (BitVec.ofInt 17 value)
    refine ⟨⟨value, resolved, fits⟩, ?_⟩
    rw [decode, opcode]
    simp only [rd', rs', imm', toInt_ofInt_of_fits fits, canonical, Instr.mapTarget, resolved]
    cases op <;> rfl
  | jump op target =>
    obtain ⟨value, resolved, encodes⟩ := of_resolution_ok encodes
    obtain ⟨fits, rfl⟩ := of_field_ok encodes
    obtain ⟨opcode, target'⟩ := fields_jumpFormat op.opcode (BitVec.ofInt 27 value)
    refine ⟨⟨value, resolved, fits⟩, ?_⟩
    rw [decode, opcode]
    simp only [target', toInt_ofInt_of_fits fits, canonical, Instr.mapTarget, resolved]
    cases op <;> rfl
  | setx value =>
    obtain ⟨fits, rfl⟩ := of_field_ok encodes
    obtain ⟨opcode, value'⟩ := fields_jumpFormat 0b10101 (BitVec.ofInt 27 value)
    refine ⟨fits, ?_⟩
    rw [decode, opcode]
    simp only [value', toInt_ofInt_of_fits fits]
    rfl
  | jr rd =>
    cases encodes
    obtain ⟨opcode, rd', -, -⟩ := fields_immediateFormat 0b00100 rd Reg.zero 0
    refine ⟨trivial, ?_⟩
    rw [decode, opcode]
    simp only [rd']
    rfl
  | testlog rd =>
    cases encodes
    obtain ⟨opcode, rd', -, -⟩ := fields_immediateFormat 0b11111 rd Reg.zero 0
    refine ⟨trivial, ?_⟩
    rw [decode, opcode]
    simp only [rd']
    rfl

end MachineInstr

/-! ### Behaviour -/

/-- What a word does not keep of an instruction that has one does not matter to what the instruction does. -/
theorem execute_canonical (encodable : i.Encodable) (m : Machine) (nextPc : Int) :
    m.execute i.canonical nextPc = m.execute i nextPc := by
  cases i with
  | alu | addi | sw | lw | jr | setx | testlog => rfl
  | shift op rd rs amount =>
    cases op <;> simp only [MachineInstr.canonical, Machine.execute, Word.shiftLeft, Word.shiftRight, Nat.mod_mod]
  | branch op rd rs target =>
    obtain ⟨value, resolved, -⟩ := encodable
    simp only [MachineInstr.canonical, Instr.mapTarget, Machine.execute, Machine.resolution, resolved]
  | jump op target =>
    obtain ⟨value, resolved, -⟩ := encodable
    cases op <;> simp only [MachineInstr.canonical, Instr.mapTarget, Machine.execute, Machine.resolution, resolved]

/-- An instruction has a word exactly if its target is resolved and its number fits, wherever it stands; and
instructions with the same word do the same on every machine, error or not. -/
theorem word_determines_behaviour :
    (∀ (i : MachineInstr) (address : Nat), (∃ w, i.encode address = .ok w) ↔ i.Encodable) ∧
      ∀ (i j : MachineInstr) (a b : Nat) (w : Word), i.encode a = .ok w → j.encode b = .ok w →
        ∀ (m : Machine) (nextPc : Int), m.execute i nextPc = m.execute j nextPc := by
  constructor
  · intro i address
    constructor
    · rintro ⟨w, encodes⟩
      exact (MachineInstr.decode_encode encodes).1
    · exact i.encode_of_encodable address
  · intro i j a b w encodes encodes' m nextPc
    obtain ⟨encodable, decodes⟩ := MachineInstr.decode_encode encodes
    obtain ⟨encodable', decodes'⟩ := MachineInstr.decode_encode encodes'
    have same : i.canonical = j.canonical := Option.some.inj (decodes.symm.trans decodes')
    calc m.execute i nextPc = m.execute i.canonical nextPc := (execute_canonical encodable m nextPc).symm
      _ = m.execute j.canonical nextPc := by rw [same]
      _ = m.execute j nextPc := execute_canonical encodable' m nextPc

/-- Shifts by one and by thirty-three have one word, and so have branches to two names of one place. -/
theorem word_determines_behaviour_of_twins :
    MachineInstr.encode (.shift .sll ⟨8⟩ ⟨9⟩ 1) 0 = .ok 0x02120090#32 ∧
      MachineInstr.encode (.shift .sll ⟨8⟩ ⟨9⟩ 33) 5 = .ok 0x02120090#32 ∧
      (∀ (m : Machine) (nextPc : Int),
        m.execute (.shift .sll ⟨8⟩ ⟨9⟩ 1) nextPc = m.execute (.shift .sll ⟨8⟩ ⟨9⟩ 33) nextPc) ∧
      ∀ (m : Machine) (nextPc : Int),
        m.execute (.branch .bne ⟨8⟩ ⟨9⟩ ⟨"loop", some (-3)⟩) nextPc =
          m.execute (.branch .bne ⟨8⟩ ⟨9⟩ ⟨"again", some (-3)⟩) nextPc :=
  ⟨rfl, rfl, word_determines_behaviour.2 _ _ 0 5 0x02120090#32 rfl rfl,
    word_determines_behaviour.2 _ _ 7 7 0x1213fffd#32 rfl rfl⟩

end SmallC
