import Mathlib
import SmallC.Program.Link

/-!
Single steps of a linked program, and what a bounded run says about them. A bounded run makes exactly
the steps that the machine can make: it stops early only where no instruction is at the program counter
or where a step fails.
-/
namespace SmallC.Machine

variable {p : Program} {m mid after : Machine}

/-- The instruction at the program counter, if there is one. -/
def fetch? (p : Program) (m : Machine) : Option MachineInstr :=
  if m.pc < 0 then none else p.instr? m.pc.toNat

/-- Whether the program is over: nothing is at the program counter. -/
def IsDone (p : Program) (m : Machine) : Prop := m.fetch? p = none

/-- One step that succeeds. -/
def StepsTo (p : Program) (m after : Machine) : Prop :=
  ∃ i reached next, m.fetch? p = some i ∧ m.execute i (m.pc + 1) = (reached, .ok next) ∧
    after = reached.goto next

/-- One step that fails, with the machine as the failure leaves it. -/
def FailsTo (p : Program) (m after : Machine) (e : MachineError) : Prop :=
  ∃ i, m.fetch? p = some i ∧ m.execute i (m.pc + 1) = (after, .error e)

/-- So many steps, all of which succeed. -/
inductive Steps (p : Program) : Nat → Machine → Machine → Prop where
  | refl (m : Machine) : Steps p 0 m m
  | step {n : Nat} {m mid after : Machine} (first : StepsTo p m mid) (rest : Steps p n mid after) :
      Steps p (n + 1) m after

theorem steps_append {j k : Nat} (first : Steps p j m mid) (rest : Steps p k mid after) :
    Steps p (j + k) m after := by
  induction first with
  | refl => simpa using rest
  | step head _ ih =>
    rw [Nat.add_right_comm]
    exact .step head (ih rest)

theorem steps_one (step : StepsTo p m after) : Steps p 1 m after := .step step (.refl _)

/-- A machine makes no other step than the one it makes. -/
theorem stepsTo_unique {other : Machine} (first : StepsTo p m after) (second : StepsTo p m other) :
    after = other := by
  obtain ⟨i, reached, next, fetched, executed, rfl⟩ := first
  obtain ⟨i', reached', next', fetched', executed', rfl⟩ := second
  rw [fetched] at fetched'
  cases fetched'
  rw [executed] at executed'
  cases executed'
  rfl

theorem steps_succ_iff {n : Nat} :
    Steps p (n + 1) m after ↔ ∃ mid, StepsTo p m mid ∧ Steps p n mid after := by
  constructor
  · intro steps
    cases steps with
    | step first rest => exact ⟨_, first, rest⟩
  · rintro ⟨mid, first, rest⟩
    exact .step first rest

/-- A bounded run by its first step. -/
theorem runFrom_succ (made bound : Nat) : m.runFrom p made (bound + 1) =
    match m.fetch? p with
    | none => (m, .ok made)
    | some i =>
      match m.execute i (m.pc + 1) with
      | (reached, .ok next) => (reached.goto next).runFrom p (made + 1) bound
      | (reached, .error e) => (reached, .error e) := by
  rw [runFrom, fetch?]
  split
  · rfl
  · rfl

theorem runFrom_of_stepsTo {made bound : Nat} (step : StepsTo p m mid) :
    m.runFrom p made (bound + 1) = mid.runFrom p (made + 1) bound := by
  obtain ⟨i, reached, next, fetched, executed, rfl⟩ := step
  rw [runFrom_succ, fetched]
  simp only [executed]

theorem runFrom_of_isDone (made bound : Nat) (done : IsDone p m) :
    m.runFrom p made bound = (m, .ok made) := by
  cases bound with
  | zero => rfl
  | succ bound => rw [runFrom_succ, done]

theorem runFrom_of_failsTo {made bound : Nat} {e : MachineError} (fails : FailsTo p m after e) :
    m.runFrom p made (bound + 1) = (after, .error e) := by
  obtain ⟨i, fetched, executed⟩ := fails
  rw [runFrom_succ, fetched]
  simp only [executed]

theorem runFrom_of_steps {k : Nat} (steps : Steps p k m mid) (made bound : Nat) :
    m.runFrom p made (k + bound) = mid.runFrom p (made + k) bound := by
  induction steps generalizing made with
  | refl => simp
  | step first _ ih =>
    rw [Nat.add_right_comm, runFrom_of_stepsTo first, ih]
    congr 1
    omega

/-- A machine is done, or makes a step, or fails to. -/
theorem isDone_or_steps (p : Program) (m : Machine) :
    IsDone p m ∨ (∃ after, StepsTo p m after) ∨ ∃ after e, FailsTo p m after e := by
  cases fetched : m.fetch? p with
  | none => exact .inl fetched
  | some i =>
    right
    rcases executed : m.execute i (m.pc + 1) with ⟨reached, e | next⟩
    · exact .inr ⟨reached, e, i, fetched, executed⟩
    · exact .inl ⟨_, i, reached, next, fetched, executed, rfl⟩

/-- What a bounded run can come to: it makes all its steps, or is done before, or fails. -/
theorem runFrom_cases (p : Program) (m : Machine) (bound made : Nat) :
    (∃ after, Steps p bound m after ∧ m.runFrom p made bound = (after, .ok (made + bound))) ∨
    (∃ k after, k < bound ∧ Steps p k m after ∧ IsDone p after ∧
      m.runFrom p made bound = (after, .ok (made + k))) ∨
    ∃ k mid after e, k < bound ∧ Steps p k m mid ∧ FailsTo p mid after e ∧
      m.runFrom p made bound = (after, .error e) := by
  induction bound generalizing m made with
  | zero => exact .inl ⟨m, .refl m, rfl⟩
  | succ bound ih =>
    rcases isDone_or_steps p m with done | ⟨mid, step⟩ | ⟨after, e, fails⟩
    · exact .inr (.inl ⟨0, m, Nat.succ_pos _, .refl m, done, runFrom_of_isDone made _ done⟩)
    · rw [runFrom_of_stepsTo step]
      rcases ih mid (made + 1) with
        ⟨after, steps, ran⟩ | ⟨k, after, fewer, steps, done, ran⟩ |
          ⟨k, last, after, e, fewer, steps, fails, ran⟩
      · exact .inl ⟨after, .step step steps, by rw [ran]; congr 2; omega⟩
      · exact .inr (.inl ⟨k + 1, after, by omega, .step step steps, done, by
          rw [ran]; congr 2; omega⟩)
      · exact .inr (.inr ⟨k + 1, last, after, e, by omega, .step step steps, fails, ran⟩)
    · exact .inr (.inr ⟨0, m, after, e, Nat.succ_pos _, .refl m, fails, runFrom_of_failsTo fails⟩)

theorem run_of_steps_done {k bound : Nat} (steps : Steps p k m after) (done : IsDone p after)
    (enough : k ≤ bound) : m.run p bound = (after, .ok k) := by
  obtain ⟨rest, rfl⟩ := Nat.exists_eq_add_of_le enough
  rw [run, runFrom_of_steps steps, runFrom_of_isDone _ _ done, Nat.zero_add]

theorem run_of_steps_fails {k bound : Nat} {e : MachineError} (steps : Steps p k m mid)
    (fails : FailsTo p mid after e) (enough : k < bound) : m.run p bound = (after, .error e) := by
  obtain ⟨rest, rfl⟩ := Nat.exists_eq_add_of_lt enough
  rw [run, Nat.add_assoc, runFrom_of_steps steps, runFrom_of_failsTo fails]

/-- A run that ended without an error made as many steps as it says. -/
theorem steps_of_run {k bound : Nat} (ran : m.run p bound = (after, .ok k)) :
    k ≤ bound ∧ Steps p k m after := by
  rcases runFrom_cases p m bound 0 with
    ⟨last, steps, whole⟩ | ⟨j, last, fewer, steps, -, whole⟩ | ⟨j, mid, last, e, -, -, -, whole⟩
  all_goals
    rw [run] at ran
    rw [ran] at whole
    cases whole
  · rw [Nat.zero_add]
    exact ⟨Nat.le_refl _, steps⟩
  · rw [Nat.zero_add]
    exact ⟨Nat.le_of_lt fewer, steps⟩

/-- A run that ended with an error made the steps up to the one that fails. -/
theorem steps_of_run_error {bound : Nat} {e : MachineError}
    (ran : m.run p bound = (after, .error e)) :
    ∃ k mid, k < bound ∧ Steps p k m mid ∧ FailsTo p mid after e := by
  rcases runFrom_cases p m bound 0 with
    ⟨last, steps, whole⟩ | ⟨j, last, fewer, steps, -, whole⟩ |
      ⟨j, mid, last, e', fewer, steps, fails, whole⟩
  all_goals
    rw [run] at ran
    rw [ran] at whole
    cases whole
  exact ⟨j, mid, fewer, steps, fails⟩

end SmallC.Machine
