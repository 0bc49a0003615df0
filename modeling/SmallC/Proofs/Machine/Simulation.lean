import SmallC.Proofs.Machine.Steps

/-!
Simulation of one program by another that makes at most as many steps. A step of the first program is
matched by a step of the second, or by none; an index that falls with every step that is not matched
keeps an endless run from being matched by a finite one. Programs are compared by all that they leave
behind but the return address, which is an address of the program itself.
-/
namespace SmallC.Machine

/-- Two machines agree in their registers, the return address apart, in their memory, and in what the
program reported. -/
structure Agree (m m' : Machine) : Prop where
  regs : ∀ r, r ≠ Reg.returnAddress → m'.reg r = m.reg r
  memory : m'.memory = m.memory
  log : m'.log = m.log

theorem Agree.refl (m : Machine) : Agree m m := ⟨fun _ _ => rfl, rfl, rfl⟩

theorem Agree.trans {a b c : Machine} (first : Agree a b) (second : Agree b c) : Agree a c :=
  ⟨fun r other => (second.regs r other).trans (first.regs r other),
    second.memory.trans first.memory, second.log.trans first.log⟩

/-- A machine that runs off the end of its program within so many steps. -/
def EndsWithin (p : Program) (m : Machine) (bound : Nat) (after : Machine) : Prop :=
  ∃ made, m.run p bound = (after, .ok made) ∧ IsDone p after

/-- A machine that within so many steps stops at an access to an address outside of data memory. -/
def LeavesMemoryWithin (p : Program) (m : Machine) (bound : Nat) (after : Machine) (a : Int) : Prop :=
  ∃ pc, m.run p bound = (after, .error (.memoryOutOfBounds pc a))

/-- A machine that makes every number of steps. -/
def NeverStops (p : Program) (m : Machine) : Prop :=
  ∀ bound, ∃ after, m.run p bound = (after, .ok bound)

theorem endsWithin_iff {p : Program} {m after : Machine} {bound : Nat} :
    EndsWithin p m bound after ↔ ∃ k ≤ bound, Steps p k m after ∧ IsDone p after := by
  constructor
  · rintro ⟨made, ran, done⟩
    obtain ⟨enough, steps⟩ := steps_of_run ran
    exact ⟨made, enough, steps, done⟩
  · rintro ⟨k, enough, steps, done⟩
    exact ⟨k, run_of_steps_done steps done enough, done⟩

theorem leavesMemoryWithin_iff {p : Program} {m after : Machine} {bound : Nat} {a : Int} :
    LeavesMemoryWithin p m bound after a ↔
      ∃ k < bound, ∃ mid pc, Steps p k m mid ∧ FailsTo p mid after (.memoryOutOfBounds pc a) := by
  constructor
  · rintro ⟨pc, ran⟩
    obtain ⟨k, mid, fewer, steps, fails⟩ := steps_of_run_error ran
    exact ⟨k, fewer, mid, pc, steps, fails⟩
  · rintro ⟨k, fewer, mid, pc, steps, fails⟩
    exact ⟨pc, run_of_steps_fails steps fails fewer⟩

theorem neverStops_iff {p : Program} {m : Machine} :
    NeverStops p m ↔ ∀ bound, ∃ after, Steps p bound m after := by
  constructor
  · intro never bound
    obtain ⟨after, ran⟩ := never bound
    exact ⟨after, (steps_of_run ran).2⟩
  · intro makes bound
    obtain ⟨after, steps⟩ := makes bound
    refine ⟨after, ?_⟩
    have whole := runFrom_of_steps steps 0 0
    rwa [Nat.zero_add, Nat.add_zero] at whole

/-- A relation between the machines of two programs under which the second program follows the
first. The index bounds how many of the next steps go unmatched. -/
structure Simulation (p p' : Program) (related : Nat → Machine → Machine → Prop) : Prop where
  agree : ∀ {j m m'}, related j m m' → Agree m m'
  done : ∀ {j m m'}, related j m m' → IsDone p m → IsDone p' m'
  step : ∀ {j m m' next}, related j m m' → StepsTo p m next →
    (∃ next' k, StepsTo p' m' next' ∧ related k next next') ∨ ∃ k < j, related k next m'
  fails : ∀ {j m m' after pc a}, related j m m' → FailsTo p m after (.memoryOutOfBounds pc a) →
    ∃ after' pc', FailsTo p' m' after' (.memoryOutOfBounds pc' a) ∧ Agree after after'

namespace Simulation

variable {p p' : Program} {related : Nat → Machine → Machine → Prop}

/-- Steps of the first program are followed by no more steps of the second. -/
theorem follows (sim : Simulation p p' related) {n j : Nat} {m m' after : Machine}
    (start : related j m m') (steps : Steps p n m after) :
    ∃ k i after', k ≤ n ∧ Steps p' k m' after' ∧ related i after after' := by
  induction steps generalizing j m' with
  | refl => exact ⟨0, j, m', Nat.le_refl _, .refl _, start⟩
  | step first _ ih =>
    rcases sim.step start first with ⟨next', i, step', related'⟩ | ⟨i, -, related'⟩
    · obtain ⟨k, i', after', fewer, steps', last⟩ := ih related'
      exact ⟨k + 1, i', after', Nat.succ_le_succ fewer, .step step' steps', last⟩
    · obtain ⟨k, i', after', fewer, steps', last⟩ := ih related'
      exact ⟨k, i', after', Nat.le_succ_of_le fewer, steps', last⟩

/-- From machines of which the first never stops, the second makes a step to one of which the same
holds. The induction is on the index: unmatched steps lower it. -/
theorem advances (sim : Simulation p p' related) {j : Nat} {m m' : Machine}
    (start : related j m m') (makes : ∀ bound, ∃ after, Steps p bound m after) :
    ∃ next next' k, StepsTo p' m' next' ∧ related k next next' ∧
      ∀ bound, ∃ after, Steps p bound next after := by
  induction j using Nat.strongRecOn generalizing m with
  | ind j ih =>
    obtain ⟨_, once⟩ := makes 1
    obtain ⟨next, first, -⟩ := steps_succ_iff.1 once
    have rest : ∀ bound, ∃ after, Steps p bound next after := by
      intro bound
      obtain ⟨after, steps⟩ := makes (bound + 1)
      obtain ⟨mid, first', steps⟩ := steps_succ_iff.1 steps
      rw [stepsTo_unique first first']
      exact ⟨after, steps⟩
    rcases sim.step start first with ⟨next', k, step', related'⟩ | ⟨k, lower, related'⟩
    · exact ⟨next, next', k, step', related', rest⟩
    · exact ih k lower related' rest

theorem makes_all (sim : Simulation p p' related) {j : Nat} {m m' : Machine}
    (start : related j m m') (makes : ∀ bound, ∃ after, Steps p bound m after) (bound : Nat) :
    ∃ after', Steps p' bound m' after' := by
  induction bound generalizing j m m' with
  | zero => exact ⟨m', .refl m'⟩
  | succ bound ih =>
    obtain ⟨next, next', k, step', related', rest⟩ := sim.advances start makes
    obtain ⟨after', steps'⟩ := ih related' rest
    exact ⟨after', .step step' steps'⟩

end Simulation

/-- What it means that a second program, started on a machine, does what the first does in no more
steps. -/
structure Refines (p p' : Program) (m : Machine) : Prop where
  ends : ∀ {bound after}, EndsWithin p m bound after →
    ∃ after', EndsWithin p' m bound after' ∧ Agree after after'
  leavesMemory : ∀ {bound after a}, LeavesMemoryWithin p m bound after a →
    ∃ after', LeavesMemoryWithin p' m bound after' a ∧ Agree after after'
  neverStops : NeverStops p m → NeverStops p' m

theorem Refines.refl (p : Program) (m : Machine) : Refines p p m where
  ends ended := ⟨_, ended, .refl _⟩
  leavesMemory left := ⟨_, left, .refl _⟩
  neverStops never := never

theorem Refines.trans {p q r : Program} {m : Machine} (first : Refines p q m)
    (second : Refines q r m) : Refines p r m where
  ends ended := by
    obtain ⟨mid, ended, same⟩ := first.ends ended
    obtain ⟨after, ended, same'⟩ := second.ends ended
    exact ⟨after, ended, same.trans same'⟩
  leavesMemory left := by
    obtain ⟨mid, left, same⟩ := first.leavesMemory left
    obtain ⟨after, left, same'⟩ := second.leavesMemory left
    exact ⟨after, left, same.trans same'⟩
  neverStops never := second.neverStops (first.neverStops never)

theorem Simulation.refines {p p' : Program} (related : Nat → Machine → Machine → Prop)
    (sim : Simulation p p' related) {j : Nat} {m : Machine} (start : related j m m) :
    Refines p p' m where
  ends := by
    intro bound after ended
    obtain ⟨n, enough, steps, done⟩ := endsWithin_iff.1 ended
    obtain ⟨k, i, after', fewer, steps', last⟩ := sim.follows start steps
    exact ⟨after', endsWithin_iff.2 ⟨k, Nat.le_trans fewer enough, steps', sim.done last done⟩,
      sim.agree last⟩
  leavesMemory := by
    intro bound after a left
    obtain ⟨n, enough, mid, pc, steps, fails⟩ := leavesMemoryWithin_iff.1 left
    obtain ⟨k, i, mid', fewer, steps', last⟩ := sim.follows start steps
    obtain ⟨after', pc', fails', same⟩ := sim.fails last fails
    exact ⟨after', leavesMemoryWithin_iff.2
      ⟨k, Nat.lt_of_le_of_lt fewer enough, mid', pc', steps', fails'⟩, same⟩
  neverStops never :=
    neverStops_iff.2 (sim.makes_all start (neverStops_iff.1 never))

end SmallC.Machine
