import SmallC.Proofs.Allocation.Standing
import SmallC.Proofs.Program.Flow

/-!
Runs over entries that are yet to be linked. Code that neither jumps nor branches is run through from the first
instruction to the last, a jump goes to the entry that its label is bound to, and an anchor does nothing.
-/
namespace SmallC.Machine

variable {es : List Entry} {m m' after : Machine} {i : MachineInstr} {r : Reg} {kept : List Reg} {a k : Nat}
  {label : String}

/-- A step of a program that is linked from some entries. -/
def Advances (es : List Entry) (m next : Machine) : Prop :=
  ∃ (a : Nat) (e : Entry) (after : Machine) (x : Int), m.pc = a ∧ es[a]? = some e ∧
    m.effect e.instr = .ok after ∧ GoesTo es m (m.control e.instr) x ∧ next = after.goto x

/-- Any number of steps. -/
abbrev Reaches (es : List Entry) : Machine → Machine → Prop := Relation.ReflTransGen (Advances es)

/-- Each step is one of the linked program, and the counter stays within the addresses. -/
theorem Advances.stepsTo {p : Program} (linked : Linked es p) (advances : Advances es m m') :
    StepsTo p m m' := by
  obtain ⟨a, e, after, x, here, found, effect, goes, rfl⟩ := advances
  exact (stepsTo_iff linked here).2 ⟨e, after, x, found, effect, goes, rfl⟩

theorem Reaches.steps {p : Program} (linked : Linked es p) (reaches : Reaches es m m') :
    ∃ n, Steps p n m m' := by
  induction reaches with
  | refl => exact ⟨0, .refl m⟩
  | tail _ last ih =>
    obtain ⟨n, steps⟩ := ih
    exact ⟨n + 1, steps_append steps (steps_one (last.stepsTo linked))⟩

/-! ### Straight code -/

theorem setReg_goto (r : Reg) (w : Word) (x : Int) : (m.goto x).setReg r w = (m.setReg r w).goto x := by
  unfold setReg
  split <;> rfl

theorem setChecked_goto (r : Reg) (exact : Int) (fault : Fault) (x : Int) :
    (m.goto x).setChecked r exact fault = (m.setChecked r exact fault).goto x := by
  simp only [setChecked, setReg_goto]
  split
  · rfl
  · simp only [raise, setReg_goto]

theorem alu_goto (op : AluOp) (rd : Reg) (v w : Word) (x : Int) :
    (m.goto x).alu op rd v w = (m.alu op rd v w).goto x := by
  cases op with
  | div =>
    simp only [alu]
    split <;> simp only [raise, setReg_goto]
  | _ => simp only [alu, setChecked_goto, setReg_goto]

/-- Where control stands is of no concern to an instruction that does not save it. -/
theorem effect_goto (spares : MachineInstr.Spares kept i) (x : Int) (done : m.effect i = .ok m') :
    (m.goto x).effect i = .ok (m'.goto x) := by
  have address : ∀ base offset (cell : Fin m.memory.size), m.address base offset = .ok cell →
      (m.goto x).address base offset = .ok cell := by
    intro base offset cell found
    obtain ⟨other, found', formed⟩ | failed := address_cases m base offset
    · cases found.symm.trans found'
      have formed' : ((m.goto x).reg base).toInt + offset = cell.val := formed.symm
      exact address_of_inside formed' cell.isLt
    · cases found.symm.trans failed
  rcases spares with ⟨r, writes, -⟩ | ⟨r, base, offset, rfl⟩
  · cases i with
    | alu op rd rs rt =>
      cases done
      exact congrArg Except.ok (alu_goto op rd _ _ x)
    | shift op rd rs amount =>
      cases op with
      | sll | sra =>
        cases done
        exact congrArg Except.ok (setReg_goto rd _ x)
    | addi rd rs imm =>
      cases done
      exact congrArg Except.ok (setChecked_goto rd _ _ x)
    | lw rd base offset =>
      simp only [effect] at done ⊢
      split at done
      · next cell found =>
        cases done
        rw [address base offset cell found]
        exact congrArg Except.ok (setReg_goto rd _ x)
      · cases done
    | sw | branch | jump | jr | setx | testlog => cases writes
  · simp only [effect] at done ⊢
    split at done
    · next cell found =>
      cases done
      rw [address base offset cell found]
      rfl
    · cases done

theorem control_of_spares (spares : MachineInstr.Spares kept i) : m.control i = .onward := by
  rcases spares with ⟨r, writes, -⟩ | ⟨r, base, offset, rfl⟩
  · cases i with
    | branch | jump | jr | setx | testlog | sw => cases writes
    | _ => rfl
  · rfl

theorem goto_goto (m : Machine) (x y : Int) : (m.goto x).goto y = m.goto y := rfl

theorem goto_pc (here : m.pc = a) : m.goto a = m := by
  obtain ⟨regs, memory, pc, log⟩ := m
  have here : pc = a := here
  subst here
  simp [goto]

theorem performs_goto {code : List MachineInstr} (spares : ∀ i ∈ code, MachineInstr.Spares kept i) (x : Int)
    (performed : m.performs code = .ok m') : (m.goto x).performs code = .ok (m'.goto x) := by
  induction code generalizing m with
  | nil =>
    cases performed
    rfl
  | cons i rest ih =>
    rw [performs, List.foldlM_cons] at performed ⊢
    cases done : m.effect i with
    | error y =>
      rw [done] at performed
      cases performed
    | ok mid =>
      rw [done] at performed
      rw [effect_goto (spares i List.mem_cons_self) x done]
      exact ih (fun j member => spares j (List.mem_cons_of_mem i member)) performed

/-- Straight code is run through. -/
theorem reaches_code {before : List Entry} {code : List MachineInstr}
    (laid : before ++ code.map Entry.plain <+: es) (here : m.pc = before.length)
    (spares : ∀ i ∈ code, MachineInstr.Spares kept i) (performed : m.performs code = .ok m') :
    Reaches es m (m'.goto ↑(before.length + code.length)) := by
  induction code generalizing m m' before with
  | nil =>
    cases performed
    rw [List.length_nil, Nat.add_zero, goto_pc here]
  | cons i rest ih =>
    have parted : m.effect i >>= (fun mid => mid.performs rest) = .ok m' := by
      rwa [performs, List.foldlM_cons] at performed
    cases done : m.effect i with
    | error x =>
      rw [done] at parted
      cases parted
    | ok mid =>
      rw [done] at parted
      have parted : mid.performs rest = .ok m' := parted
      have sparing := spares i List.mem_cons_self
      have found : es[before.length]? = some (.plain i) := by
        obtain ⟨behind, rfl⟩ := laid
        simp
      have advances : Advances es m (mid.goto ↑(before.length + 1)) := by
        refine ⟨_, _, mid, _, here, found, done, ?_, rfl⟩
        change GoesTo es m (m.control i) _
        rw [control_of_spares sparing, GoesTo, here]
        rfl
      have laid' : (before ++ [.plain i]) ++ rest.map Entry.plain <+: es := by simpa using laid
      have here' : (mid.goto ↑(before.length + 1)).pc = (before ++ [Entry.plain i]).length := by
        rw [pc_goto_nat, List.length_append, List.length_singleton]
      have spares' : ∀ j ∈ rest, MachineInstr.Spares kept j := fun j member =>
        spares j (List.mem_cons_of_mem i member)
      have rest' := ih laid' here' spares' (performs_goto spares' _ parted)
      rw [goto_goto, List.length_append, List.length_singleton, Nat.add_assoc, Nat.add_comm 1] at rest'
      exact .head advances rest'

/-- Registers that straight code spares are what they were. -/
theorem reg_of_performs {code : List MachineInstr} (spares : ∀ i ∈ code, MachineInstr.Spares kept i)
    (performed : m.performs code = .ok m') (member : r ∈ kept) (other : r ≠ Reg.status) :
    m'.reg r = m.reg r := by
  induction code generalizing m with
  | nil =>
    cases performed
    rfl
  | cons i rest ih =>
    rw [performs, List.foldlM_cons] at performed
    cases done : m.effect i with
    | error x =>
      rw [done] at performed
      cases performed
    | ok mid =>
      rw [done] at performed
      rw [ih (fun j member => spares j (List.mem_cons_of_mem i member)) performed]
      rcases spares i List.mem_cons_self with ⟨q, writes, loose⟩ | ⟨q, base, offset, rfl⟩
      · exact (effect_writes writes done).others (fun same => loose (same ▸ member)) other
      · simp only [effect] at done
        split at done
        · cases done
          rfl
        · cases done

/-! ### Jumps, branches and anchors -/

/-- A jump goes to where its label is bound. -/
theorem advances_jump (here : m.pc = a) (found : es[a]? = some (.plain (MachineInstr.jumpTo label)))
    (bound : LabelAt es label k) : Advances es m (m.goto k) :=
  ⟨a, _, m, k, here, found, rfl, ⟨k, bound, rfl⟩, rfl⟩

/-- A branch that is taken goes to where its label is bound. -/
theorem advances_taken {op : BranchOp} {p q : Reg} (here : m.pc = a)
    (found : es[a]? = some (.plain (MachineInstr.branchTo op p q label)))
    (holds : branches op (m.reg p) (m.reg q) = true) (bound : LabelAt es label k) :
    Advances es m (m.goto k) := by
  refine ⟨a, _, m, k, here, found, rfl, ?_, rfl⟩
  simp only [Entry.plain, MachineInstr.branchTo, control, holds, ↓reduceIte, GoesTo, Target.unresolved]
  exact ⟨k, bound, rfl⟩

/-- A branch that is not taken goes on. -/
theorem advances_passed {op : BranchOp} {p q : Reg} (here : m.pc = a)
    (found : es[a]? = some (.plain (MachineInstr.branchTo op p q label)))
    (fails : branches op (m.reg p) (m.reg q) = false) : Advances es m (m.goto ↑(a + 1)) := by
  refine ⟨a, _, m, _, here, found, rfl, ?_, rfl⟩
  simp only [Entry.plain, MachineInstr.branchTo, control, fails, Bool.false_eq_true, ↓reduceIte, GoesTo, here]
  rfl

/-- An anchor does nothing. -/
theorem advances_anchor (here : m.pc = a) (found : es[a]? = some (.labeled label MachineInstr.noop))
    (zero : m.reg Reg.zero = 0) : Advances es m (m.goto ↑(a + 1)) := by
  refine ⟨a, _, m, _, here, found, ?_, ?_, rfl⟩
  · have done := effect_move (r := Reg.zero) (q := Reg.zero) zero
    rw [setReg, if_pos rfl] at done
    exact done
  · simp only [Entry.labeled, MachineInstr.noop, control, GoesTo, here]
    rfl

end SmallC.Machine
