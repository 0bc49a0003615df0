import SmallC.Proofs.Machine.Performing
import SmallC.Proofs.Program.Flow

/-!
Bounded runs of linked programs. Two runs, one after the other, make the steps of one run with the sum of their bounds:
where the first was over early, the second makes none, and where the second fails, so does the whole. A linked program
fails at nothing but an access to an address outside of data memory, and then the machine is as the steps before left
it, with the program counter at the instruction. No run moves the first register from zero or resizes data memory.
-/
namespace SmallC

/-- A program that comes of linking entries. -/
def Program.IsLinked (p : Program) : Prop := ∃ es, Program.link es = .ok p

namespace Machine

/-- A machine that comes of a fresh one with so many words of data memory: registers were written from outside, and
linked programs ran, each for some number of steps, or until it failed. -/
inductive ComesOf (words : Nat) : Machine → Prop where
  | fresh : ComesOf words (fresh words)
  | setReg {m : Machine} (r : Reg) (w : Word) (before : ComesOf words m) : ComesOf words (m.setReg r w)
  | run {m : Machine} {p : Program} (linked : p.IsLinked) (bound : Nat) (before : ComesOf words m) :
    ComesOf words (m.run p bound).1

/-- The instruction at the program counter is a load or a store, and this is the address that it forms, outside of data
memory. -/
def AccessesOutside (p : Program) (m : Machine) (pc address : Int) : Prop :=
  ∃ (place : Nat) (rd base : Reg) (offset : Int), m.pc = place ∧ pc = place ∧
    (p.instr? place = some (.lw rd base offset) ∨ p.instr? place = some (.sw rd base offset)) ∧
    address = (m.reg base).toInt + offset ∧ ¬ (0 ≤ address ∧ address < m.memory.size)

variable {p : Program} {m m' mid after : Machine} {i : MachineInstr} {e : MachineError} {x pc address : Int}
  {n k s words : Nat}

/-! ### Runs one after the other -/

/-- Steps already made are counted in, and change nothing else. -/
theorem runFrom_eq (p : Program) (m : Machine) (made bound : Nat) :
    m.runFrom p made bound = ((m.run p bound).1, (m.run p bound).2.map (made + ·)) := by
  rw [run]
  rcases runFrom_cases p m bound 0 with
    ⟨after, steps, ran⟩ | ⟨k, after, fewer, steps, done, ran⟩ | ⟨k, mid, after, e, fewer, steps, fails, ran⟩
  · rw [ran]
    have whole := runFrom_of_steps steps made 0
    rw [Nat.add_zero] at whole
    rw [whole, Nat.zero_add]
    rfl
  · rw [ran]
    obtain ⟨rest, rfl⟩ := Nat.exists_eq_add_of_lt fewer
    rw [Nat.add_assoc, runFrom_of_steps steps, runFrom_of_isDone _ _ done, Nat.zero_add]
    rfl
  · rw [ran]
    obtain ⟨rest, rfl⟩ := Nat.exists_eq_add_of_lt fewer
    rw [Nat.add_assoc, runFrom_of_steps steps, runFrom_of_failsTo fails]
    rfl

/-- A run that made fewer steps than it might have is over. -/
theorem isDone_of_run (ran : m.run p n = (after, .ok s)) (fewer : s < n) : IsDone p after := by
  rcases runFrom_cases p m n 0 with
    ⟨last, -, whole⟩ | ⟨j, last, -, -, done, whole⟩ | ⟨j, mid, last, e, -, -, -, whole⟩
  all_goals
    rw [run] at ran
    rw [ran] at whole
    cases whole
  · omega
  · exact done

theorem run_add (ran : m.run p n = (mid, .ok s)) (k : Nat) :
    m.run p (n + k) = ((mid.run p k).1, (mid.run p k).2.map (s + ·)) := by
  obtain ⟨within, steps⟩ := steps_of_run ran
  rw [← runFrom_eq]
  rcases Nat.eq_or_lt_of_le within with rfl | fewer
  · rw [run, runFrom_of_steps steps, Nat.zero_add]
  · -- nothing is left to run, whatever the bound
    have done := isDone_of_run ran fewer
    rw [runFrom_of_isDone _ _ done]
    exact run_of_steps_done steps done (by omega)

theorem run_of_steps (steps : Steps p s m after) : m.run p s = (after, .ok s) := by
  have whole := runFrom_of_steps steps 0 0
  rwa [Nat.add_zero, Nat.zero_add] at whole

/-! ### What a run keeps -/

/-- The first register and the size of data memory are the same on both machines. -/
structure Framed (m m' : Machine) : Prop where
  zero : m'.reg Reg.zero = m.reg Reg.zero
  size : m'.memory.size = m.memory.size

theorem framed_refl (m : Machine) : Framed m m := ⟨rfl, rfl⟩

theorem Framed.trans (first : Framed m mid) (second : Framed mid m') : Framed m m' :=
  ⟨second.zero.trans first.zero, second.size.trans first.size⟩

theorem framed_setReg (m : Machine) (r : Reg) (w : Word) : Framed m (m.setReg r w) :=
  ⟨reg_zero_setReg m r w, congrArg Array.size (memory_setReg m r w)⟩

theorem Framed.raise (framed : Framed m m') (fault : Fault) : Framed m (m'.raise fault) :=
  framed.trans (framed_setReg m' Reg.status fault.code)

/-- Whatever an instruction does, and whether it fails, it frames the machine. -/
theorem framed_execute (m : Machine) (i : MachineInstr) (next : Int) : Framed m (m.execute i next).1 := by
  cases i with
  | alu op rd rs rt =>
    exact alu_cases (framed_setReg m rd) (fun w fault => (framed_setReg m rd w).raise fault)
      ((framed_refl m).raise .divideByZero)
  | shift op rd rs amount =>
    cases op with
    | sll | sra => exact framed_setReg m rd _
  | addi rd rs imm => exact setChecked_cases (framed_setReg m rd _) ((framed_setReg m rd _).raise _)
  | sw rd base offset =>
    simp only [execute]
    split
    · next cell _ => exact ⟨rfl, Array.size_set cell.isLt⟩
    · exact framed_refl m
  | lw rd base offset =>
    simp only [execute]
    split
    · exact framed_setReg m rd _
    · exact framed_refl m
  | branch op rd rs target =>
    simp only [execute]
    split <;> exact framed_refl m
  | jump op target =>
    cases op with
    | j => exact framed_refl m
    | jal => exact framed_setReg m Reg.returnAddress _
    | bex =>
      simp only [execute]
      split <;> exact framed_refl m
  | jr rd => exact framed_refl m
  | setx value => exact framed_setReg m Reg.status _
  | testlog rd => exact ⟨rfl, rfl⟩

theorem StepsTo.framed (step : StepsTo p m after) : Framed m after := by
  obtain ⟨i, reached, next, -, executed, rfl⟩ := step
  have framed := framed_execute m i (m.pc + 1)
  rw [executed] at framed
  exact ⟨framed.zero, framed.size⟩

theorem FailsTo.framed (fails : FailsTo p m after e) : Framed m after := by
  obtain ⟨i, -, executed⟩ := fails
  have framed := framed_execute m i (m.pc + 1)
  rwa [executed] at framed

theorem Steps.framed (steps : Steps p n m after) : Framed m after := by
  induction steps with
  | refl m => exact framed_refl m
  | step first _ ih => exact first.framed.trans ih

/-- A run frames the machine, also one that fails. -/
theorem framed_run (p : Program) (m : Machine) (bound : Nat) : Framed m (m.run p bound).1 := by
  rw [run]
  rcases runFrom_cases p m bound 0 with
    ⟨after, steps, ran⟩ | ⟨k, after, -, steps, -, ran⟩ | ⟨k, mid, after, e, -, steps, fails, ran⟩
  · rw [ran]
    exact steps.framed
  · rw [ran]
    exact steps.framed
  · rw [ran]
    exact steps.framed.trans fails.framed

/-- On every machine that comes of a fresh one, the first register is zero and data memory has its size. -/
theorem ComesOf.framed (comes : ComesOf words m) : m.reg Reg.zero = 0 ∧ m.memory.size = words := by
  induction comes with
  | fresh => exact ⟨reg_fresh Reg.zero words, Array.size_replicate⟩
  | @setReg m r w _ ih =>
    have framed := framed_setReg m r w
    exact ⟨framed.zero.trans ih.1, framed.size.trans ih.2⟩
  | @run m p _ bound _ ih =>
    have framed := framed_run p m bound
    exact ⟨framed.zero.trans ih.1, framed.size.trans ih.2⟩

/-! ### Failures of linked programs -/

theorem address_eq_error_iff {base : Reg} {offset : Int} :
    m.address base offset = .error e ↔
      ¬ (0 ≤ (m.reg base).toInt + offset ∧ (m.reg base).toInt + offset < m.memory.size) ∧
        e = .memoryOutOfBounds m.pc ((m.reg base).toInt + offset) := by
  unfold Machine.address
  simp only
  split
  · next inside =>
    have inside' : 0 ≤ (m.reg base).toInt + offset ∧ (m.reg base).toInt + offset < m.memory.size := by omega
    simp [inside']
  · next outside =>
    have outside' : ¬ (0 ≤ (m.reg base).toInt + offset ∧ (m.reg base).toInt + offset < m.memory.size) := by omega
    simp [outside', eq_comm]

/-- Only loads and stores have no effect, and only where their address lies outside of data memory. -/
theorem effect_eq_error_iff : m.effect i = .error x ↔
    ∃ rd base offset, (i = .lw rd base offset ∨ i = .sw rd base offset) ∧ x = (m.reg base).toInt + offset ∧
      ¬ (0 ≤ x ∧ x < m.memory.size) := by
  constructor
  · intro fails
    cases i with
    | sw rd base offset =>
      simp only [effect] at fails
      split at fails
      · cases fails
      · next missing =>
        cases fails
        exact ⟨rd, base, offset, .inr rfl, rfl, (address_eq_error_iff.1 missing).1⟩
    | lw rd base offset =>
      simp only [effect] at fails
      split at fails
      · cases fails
      · next missing =>
        cases fails
        exact ⟨rd, base, offset, .inl rfl, rfl, (address_eq_error_iff.1 missing).1⟩
    | shift op => cases op <;> cases fails
    | jump op => cases op <;> cases fails
    | alu | addi | branch | jr | setx | testlog => cases fails
  · rintro ⟨rd, base, offset, rfl | rfl, rfl, outside⟩
    · simp only [effect, address_eq_error_iff.2 ⟨outside, rfl⟩]
    · simp only [effect, address_eq_error_iff.2 ⟨outside, rfl⟩]

/-- A linked program fails exactly where it would access an address outside of data memory, and the machine is left
alone. -/
theorem failsTo_iff_accessesOutside (linked : p.IsLinked) : FailsTo p m after e ↔
    after = m ∧ ∃ pc address, e = .memoryOutOfBounds pc address ∧ AccessesOutside p m pc address := by
  obtain ⟨es, linked⟩ := linked
  have linked := linked_of_link linked
  constructor
  · rintro ⟨i, fetched, executed⟩
    have here : m.pc = m.pc.toNat := by
      unfold fetch? at fetched
      split at fetched
      · cases fetched
      · omega
    obtain ⟨entry, x, found, fails, same, rfl⟩ := (failsTo_iff linked here).1 ⟨i, fetched, executed⟩
    obtain ⟨rd, base, offset, kind, formed, outside⟩ := effect_eq_error_iff.1 fails
    refine ⟨same, _, x, rfl, m.pc.toNat, rd, base, offset, here, here, ?_, formed, outside⟩
    obtain ⟨i', fetched', linksTo⟩ := linked.instr found
    -- loads and stores have no target, so linking leaves them as they are
    rcases kind with same | same
    · rw [same] at linksTo
      exact .inl (fetched'.trans (congrArg some linksTo))
    · rw [same] at linksTo
      exact .inr (fetched'.trans (congrArg some linksTo))
  · rintro ⟨same, pc, address, rfl, place, rd, base, offset, here, rfl, kind, rfl, outside⟩
    rw [same]
    have missing : m.address base offset = .error (.memoryOutOfBounds place ((m.reg base).toInt + offset)) :=
      address_eq_error_iff.2 ⟨outside, by rw [here]⟩
    rcases kind with fetched | fetched
    · refine ⟨_, (fetch?_nat p here).trans fetched, ?_⟩
      simp only [execute, missing]
    · refine ⟨_, (fetch?_nat p here).trans fetched, ?_⟩
      simp only [execute, missing]

/-- A run of a linked program fails exactly if within its bound it comes to an access outside of data memory. -/
theorem run_eq_error_iff (linked : p.IsLinked) : m.run p n = (after, .error e) ↔
    ∃ s < n, m.run p s = (after, .ok s) ∧
      ∃ pc address, e = .memoryOutOfBounds pc address ∧ AccessesOutside p after pc address := by
  constructor
  · intro ran
    obtain ⟨s, mid, fewer, steps, fails⟩ := steps_of_run_error ran
    obtain ⟨rfl, accesses⟩ := (failsTo_iff_accessesOutside linked).1 fails
    exact ⟨s, fewer, run_of_steps steps, accesses⟩
  · rintro ⟨s, fewer, ran, accesses⟩
    exact run_of_steps_fails (steps_of_run ran).2 ((failsTo_iff_accessesOutside linked).2 ⟨rfl, accesses⟩) fewer

/-- Two runs of a linked program come to one with the sum of their bounds, and their steps add up. No run comes upon a
target that is not resolved, moves the first register from zero, or resizes data memory; and a run fails exactly where
the machine that its successful steps left is at a load or a store whose base and offset make the address that is
reported, outside of data memory. -/
theorem runs_compose (linked : p.IsLinked) (comes : ComesOf words m) (n k : Nat) :
    (∀ mid s, m.run p n = (mid, .ok s) →
      m.run p (n + k) = ((mid.run p k).1, (mid.run p k).2.map (s + ·))) ∧
    (∀ pc text, (m.run p n).2 ≠ .error (.unlinked pc text)) ∧
    (m.run p n).1.reg Reg.zero = 0 ∧ (m.run p n).1.memory.size = words ∧
    ∀ after pc address, m.run p n = (after, .error (.memoryOutOfBounds pc address)) ↔
      ∃ s < n, m.run p s = (after, .ok s) ∧ AccessesOutside p after pc address := by
  obtain ⟨zero, size⟩ := (comes.run linked n).framed
  refine ⟨fun mid s ran => run_add ran k, fun pc text failed => ?_, zero, size, fun after pc address => ?_⟩
  · obtain ⟨s, -, -, pc, address, other, -⟩ := (run_eq_error_iff linked).1 (Prod.ext rfl failed)
    cases other
  · rw [run_eq_error_iff linked]
    constructor
    · rintro ⟨s, fewer, ran, pc', address', same, accesses⟩
      cases same
      exact ⟨s, fewer, ran, accesses⟩
    · rintro ⟨s, fewer, ran, accesses⟩
      exact ⟨s, fewer, ran, pc, address, rfl, accesses⟩

/-- Entries that write a counter to one address after the other, without end. -/
def filling : List Entry :=
  [.labeled "next" (.addi Reg.result Reg.result 1), .plain (.sw Reg.result Reg.result 2),
    .plain (MachineInstr.jumpTo "next")]

/-- The loop with its jump resolved. -/
def filler : Program :=
  ⟨#[.labeled "next" (.addi Reg.result Reg.result 1), .plain (.sw Reg.result Reg.result 2),
    .plain (.jump .j ⟨"next", some 0⟩)]⟩

/-- In five words of memory the loop fails at its eighth step, whether or not the run is interrupted after the fourth. -/
theorem runs_compose_filling :
    Program.link filling = .ok filler ∧ ∃ mid after, (fresh 5).run filler 4 = (mid, .ok 4) ∧
      mid.run filler 10 = (after, .error (.memoryOutOfBounds 1 5)) ∧
      (fresh 5).run filler 14 = (after, .error (.memoryOutOfBounds 1 5)) ∧
      ∃ s < 14, (fresh 5).run filler s = (after, .ok s) ∧ AccessesOutside filler after 1 5 := by
  have linked : Program.link filling = .ok filler := rfl
  have comes : ComesOf 5 (fresh 5) := .fresh
  obtain ⟨adds, -, -, -, -⟩ := runs_compose ⟨filling, linked⟩ comes 4 10
  obtain ⟨-, -, -, -, fails⟩ := runs_compose ⟨filling, linked⟩ comes 14 0
  obtain ⟨mid, first⟩ : ∃ mid, (fresh 5).run filler 4 = (mid, .ok 4) := ⟨_, rfl⟩
  have ended : (((fresh 5).run filler 4).1.run filler 10).2 = .error (.memoryOutOfBounds 1 5) := rfl
  rw [first] at ended
  obtain ⟨after, second⟩ : ∃ after, mid.run filler 10 = (after, .error (.memoryOutOfBounds 1 5)) :=
    ⟨_, Prod.ext rfl ended⟩
  have whole := adds mid 4 first
  rw [second] at whole
  exact ⟨linked, mid, after, first, second, whole, (fails after 1 5).1 whole⟩

end Machine

end SmallC
