import SmallC.Proofs.Machine.Effects

/-!
Instructions one after the other, without jumps. The effects of the few that move values between registers
and memory are exact; of any other that writes a register, it counts that it writes no other one, the
status apart, and no memory.
-/
namespace SmallC.Machine

variable {m m' mid : Machine} {r q base : Reg} {offset : Int} {address : Nat} {i : MachineInstr}

/-- What instructions do one after the other, or the address outside of data memory that the first one to
fail would access. -/
def performs (m : Machine) (is : List MachineInstr) : Except Int Machine := is.foldlM effect m

theorem performs_append {is js : List MachineInstr} (first : m.performs is = .ok mid) :
    m.performs (is ++ js) = mid.performs js := by
  unfold performs at first ⊢
  rw [List.foldlM_append, first]
  rfl

theorem performs_one : m.performs [i] = m.effect i := by
  unfold performs
  rw [List.foldlM_cons]
  cases m.effect i <;> rfl

theorem performs_cons {is : List MachineInstr} (first : m.effect i = .ok mid) :
    m.performs (i :: is) = mid.performs is :=
  performs_append (performs_one.trans first)

/-- Code executes if both parts of it do, one after the other. -/
theorem performs_split {is js : List MachineInstr} (done : m.performs (is ++ js) = .ok m') :
    ∃ mid, m.performs is = .ok mid ∧ mid.performs js = .ok m' := by
  cases first : m.performs is with
  | error e =>
    unfold performs at first done
    rw [List.foldlM_append, first] at done
    cases done
  | ok mid => exact ⟨mid, rfl, (performs_append first).symm.trans done⟩

theorem performs_uncons {is : List MachineInstr} (done : m.performs (i :: is) = .ok m') :
    ∃ mid, m.effect i = .ok mid ∧ mid.performs is = .ok m' := by
  rw [← performs_one]
  rw [← List.singleton_append] at done
  exact performs_split done

theorem performs_push {code : Array MachineInstr} (first : m.performs code.toList = .ok mid)
    (next : mid.effect i = .ok m') : m.performs (code.push i).toList = .ok m' := by
  rw [Array.toList_push, performs_append first, performs_one, next]

/-- A machine with another word at an address. -/
def store (m : Machine) (address : Nat) (w : Word) : Machine :=
  { m with memory := m.memory.setIfInBounds address w }

@[simp]
theorem reg_store {w : Word} : (m.store address w).reg r = m.reg r := rfl

@[simp]
theorem size_store {w : Word} : (m.store address w).memory.size = m.memory.size :=
  Array.size_setIfInBounds

theorem cell?_store_self {w : Word} (inside : address < m.memory.size) :
    (m.store address w).cell? address = some w := by
  simp [store, cell?, inside]

theorem cell?_store_of_ne {w : Word} {other : Nat} (apart : other ≠ address) :
    (m.store address w).cell? other = m.cell? other := by
  simp [store, cell?, apart.symm]

theorem cell?_of_memory (memory : m'.memory = m.memory) : m'.cell? address = m.cell? address := by
  rw [cell?, cell?, memory]

/-- An address in data memory can be accessed. -/
theorem address_of_inside (formed : (m.reg base).toInt + offset = address)
    (inside : address < m.memory.size) : m.address base offset = .ok ⟨address, inside⟩ := by
  obtain ⟨a, found, same⟩ | failed := address_cases m base offset
  · rw [found]
    have same' : a.val = address := by omega
    exact congrArg Except.ok (Fin.ext same')
  · unfold Machine.address at failed
    simp only [formed] at failed
    rw [dif_pos ⟨Int.natCast_nonneg address, inside⟩] at failed
    cases failed

theorem effect_sw (formed : (m.reg base).toInt + offset = address)
    (inside : address < m.memory.size) :
    m.effect (.sw r base offset) = .ok (m.store address (m.reg r)) := by
  simp only [effect, address_of_inside formed inside]
  rfl

theorem effect_lw (formed : (m.reg base).toInt + offset = address)
    (inside : address < m.memory.size) :
    m.effect (.lw r base offset) = .ok (m.setReg r ((m.cell? address).getD 0)) := by
  simp only [effect, address_of_inside formed inside]

theorem fits_toInt (w : Word) : FitsSigned 32 w.toInt := by
  have low := BitVec.le_toInt w
  have high := BitVec.toInt_lt (x := w)
  exact ⟨low, high⟩

theorem toInt_ofInt {n : Int} (fits : FitsSigned 32 n) : (Word.ofInt n).toInt = n := by
  obtain ⟨low, high⟩ := fits
  rw [Word.ofInt, BitVec.toInt_ofInt]
  have bound : (signedBound 32 : Int) = 2147483648 := rfl
  rw [bound] at low high
  rw [Int.bmod_eq_of_le] <;> omega

/-- Copying a register adds it to the one that stays zero. -/
theorem effect_move (zero : m.reg Reg.zero = 0) :
    m.effect (MachineInstr.move r q) = .ok (m.setReg r (m.reg q)) := by
  have sum : (m.reg Reg.zero).toInt + (m.reg q).toInt = (m.reg q).toInt := by
    rw [zero]
    exact Int.zero_add _
  simp only [MachineInstr.move, effect, alu, sum, setChecked]
  rw [if_pos (fits_toInt _), Word.ofInt, BitVec.ofInt_toInt]

/-- All that a machine has in common with one where a register was written: memory, the register that
stays zero, and the others apart from the status. -/
structure Writes (r : Reg) (m m' : Machine) : Prop where
  memory : m'.memory = m.memory
  zero : m'.reg Reg.zero = m.reg Reg.zero
  others : ∀ {q}, q ≠ r → q ≠ Reg.status → m'.reg q = m.reg q

theorem reg_zero_setReg (m : Machine) (r : Reg) (w : Word) :
    (m.setReg r w).reg Reg.zero = m.reg Reg.zero := by
  rw [reg_setReg, if_neg]
  rintro ⟨same, other⟩
  exact other same.symm

theorem writes_setReg (w : Word) : Writes r m (m.setReg r w) :=
  ⟨memory_setReg m r w, reg_zero_setReg m r w, fun other _ => reg_setReg_of_ne m w other⟩

theorem Writes.raise {fault : Fault} (writes : Writes r m m') : Writes r m (m'.raise fault) :=
  ⟨(memory_setReg _ _ _).trans writes.memory, (reg_zero_setReg _ _ _).trans writes.zero,
    fun other noStatus => (reg_setReg_of_ne _ _ noStatus).trans (writes.others other noStatus)⟩

theorem writes_refl (r : Reg) (m : Machine) : Writes r m m := ⟨rfl, rfl, fun _ _ => rfl⟩

/-- An instruction that writes a register writes nothing else but the status. -/
theorem effect_writes (writes : i.written? = some r) (done : m.effect i = .ok m') :
    Writes r m m' := by
  cases i with
  | alu op rd rs rt =>
    cases writes
    cases done
    exact alu_cases writes_setReg (fun w fault => (writes_setReg w).raise) (writes_refl _ _).raise
  | shift op rd rs amount =>
    cases writes
    cases op with
    | sll | sra =>
      cases done
      exact writes_setReg _
  | addi rd rs imm =>
    cases writes
    cases done
    exact setChecked_cases (writes_setReg _) (writes_setReg _).raise
  | lw rd base offset =>
    cases writes
    simp only [effect] at done
    split at done
    · cases done
      exact writes_setReg _
    · cases done
  | sw | branch | jump | jr | setx | testlog => cases writes

/-- Instructions that write registers write nothing else but the status. -/
theorem performs_writes {code : List MachineInstr} (writes : ∀ i ∈ code, i.written?.isSome)
    (done : m.performs code = .ok m') : m'.memory = m.memory ∧ m'.reg Reg.zero = m.reg Reg.zero ∧
      ∀ {q}, q ≠ Reg.status → (∀ i ∈ code, i.written? ≠ some q) → m'.reg q = m.reg q := by
  induction code generalizing m with
  | nil =>
    cases done
    exact ⟨rfl, rfl, fun _ _ => rfl⟩
  | cons i rest ih =>
    obtain ⟨mid, first, done⟩ := performs_uncons done
    obtain ⟨r, written⟩ := Option.isSome_iff_exists.1 (writes i List.mem_cons_self)
    have one := effect_writes written first
    obtain ⟨memory, zero, others⟩ := ih (fun i member => writes i (.tail _ member)) done
    exact ⟨memory.trans one.memory, zero.trans one.zero, fun noStatus spared =>
      (others noStatus fun i member => spared i (.tail _ member)).trans
        (one.others (fun same => spared i List.mem_cons_self (same ▸ written)) noStatus)⟩

/-- Adding a number, where the sum does not wrap around. -/
theorem effect_addi {n : Int} (fits : FitsSigned 32 ((m.reg q).toInt + n)) :
    m.effect (.addi r q n) = .ok (m.setReg r (Word.ofInt ((m.reg q).toInt + n))) := by
  simp only [effect, setChecked, if_pos fits]

/-- Moving the stack pointer, where it does not wrap around. -/
theorem effect_move_stack {n : Int} (ran : m.effect (.addi Reg.stackPointer Reg.stackPointer n) = .ok m')
    (fits : FitsSigned 32 ((m.reg Reg.stackPointer).toInt + n)) :
    (m'.reg Reg.stackPointer).toInt = (m.reg Reg.stackPointer).toInt + n ∧
      m'.memory = m.memory ∧ m'.reg Reg.returnAddress = m.reg Reg.returnAddress := by
  have writes := effect_writes (r := Reg.stackPointer) rfl ran
  refine ⟨?_, writes.memory, writes.others (by decide) (by decide)⟩
  cases (effect_addi fits).symm.trans ran
  rw [reg_setReg_self _ _ _ (by decide), toInt_ofInt fits]

end SmallC.Machine
