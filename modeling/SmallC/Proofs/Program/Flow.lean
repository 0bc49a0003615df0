import SmallC.Proofs.Machine.Effects
import SmallC.Proofs.Machine.Steps
import SmallC.Proofs.Program.Linking

/-!
How a linked program runs, in terms of the entries that it was linked from. An instruction has its
effect on registers, memory and log, and then control goes on to the next entry, to the entry that a
label is bound to, or to the address in a register.
-/
namespace SmallC

/-- Where control goes from an instruction. -/
inductive Control where
  | onward
  | label (label : String)
  | register (r : Reg)
  deriving DecidableEq, Repr

/-- Sends control to the new name of a label. -/
def Control.rename (f : String → String) : Control → Control
  | label l => label (f l)
  | other => other

namespace Machine

/-- Where control goes from an instruction on a machine. -/
def control (m : Machine) : MachineInstr → Control
  | .branch op rd rs target =>
    if branches op (m.reg rd) (m.reg rs) then .label target.label else .onward
  | .jump .bex target => if m.reg Reg.status = 0 then .onward else .label target.label
  | .jump _ target => .label target.label
  | .jr rd => .register rd
  | _ => .onward

/-- The addresses that control can go to. -/
def GoesTo (es : List Entry) (m : Machine) : Control → Int → Prop
  | .onward, a => a = m.pc + 1
  | .label l, a => ∃ i : Nat, LabelAt es l i ∧ a = i
  | .register r, a => a = (m.reg r).toInt

theorem control_mapTarget (m : Machine) (i : MachineInstr) {f : Target → Target}
    {g : String → String} (renames : ∀ t, (f t).label = g t.label) :
    m.control (i.mapTarget f) = (m.control i).rename g := by
  cases i with
  | branch op rd rs t =>
    simp only [Instr.mapTarget, control]
    split <;> simp [Control.rename, renames]
  | jump op t =>
    cases op with
    | bex =>
      simp only [Instr.mapTarget, control]
      split <;> simp [Control.rename, renames]
    | j | jal => simp [Instr.mapTarget, control, Control.rename, renames]
  | _ => rfl

variable {es : List Entry} {p : Program} {m : Machine} {a : Nat}

theorem resolution_resolved (i : MachineInstr) (t : Target) (value : Int) :
    m.resolution i { t with resolved := some value } = .ok value := rfl

/-- A linked instruction has the effect of the instruction and goes where that goes, or fails at the
access that the instruction has no effect for. -/
theorem execute_of_linksTo {i linked : MachineInstr} (here : m.pc = a)
    (linksTo : LinksTo es a i linked) :
    (∃ after next, m.effect i = .ok after ∧ GoesTo es m (m.control i) next ∧
      m.execute linked (m.pc + 1) = (after, .ok next)) ∨
    ∃ x, m.effect i = .error x ∧
      m.execute linked (m.pc + 1) = (m, .error (.memoryOutOfBounds m.pc x)) := by
  cases i with
  | alu op rd rs rt =>
    cases linksTo
    exact .inl ⟨_, _, rfl, rfl, rfl⟩
  | shift op rd rs amount =>
    cases linksTo
    cases op with
    | sll => exact .inl ⟨_, _, rfl, rfl, rfl⟩
    | sra => exact .inl ⟨_, _, rfl, rfl, rfl⟩
  | addi rd rs imm =>
    cases linksTo
    exact .inl ⟨_, _, rfl, rfl, rfl⟩
  | sw rd base offset =>
    cases linksTo
    rcases m.address_cases base offset with ⟨cell, found, -⟩ | missing
    · simp only [effect, execute, found, Array.setIfInBounds, cell.isLt, ↓reduceDIte]
      exact .inl ⟨_, _, rfl, rfl, rfl⟩
    · simp only [effect, execute, missing]
      exact .inr ⟨_, rfl, rfl⟩
  | lw rd base offset =>
    cases linksTo
    rcases m.address_cases base offset with ⟨cell, found, -⟩ | missing
    · have content : (m.cell? cell).getD 0 = m.memory[cell] := by simp [cell?]
      simp only [effect, execute, found, content]
      exact .inl ⟨_, _, rfl, rfl, rfl⟩
    · simp only [effect, execute, missing]
      exact .inr ⟨_, rfl, rfl⟩
  | branch op rd rs t =>
    obtain ⟨d, labelled, rfl⟩ := linksTo
    left
    simp only [effect, execute, control, Instr.mapTarget]
    split
    · refine ⟨m, d, rfl, ⟨d, labelled, rfl⟩, ?_⟩
      rw [resolution_resolved, here]
      simp only [Except.map, Link.resolution, MachineInstr.isRelative, ↓reduceIte]
      congr 2
      omega
    · exact ⟨m, _, rfl, rfl, rfl⟩
  | jump op t =>
    obtain ⟨d, labelled, rfl⟩ := linksTo
    left
    cases op with
    | j => exact ⟨m, d, rfl, ⟨d, labelled, rfl⟩, rfl⟩
    | jal => exact ⟨_, d, rfl, ⟨d, labelled, rfl⟩, rfl⟩
    | bex =>
      simp only [effect, execute, control, Instr.mapTarget]
      split
      · exact ⟨m, _, rfl, rfl, rfl⟩
      · exact ⟨m, d, rfl, ⟨d, labelled, rfl⟩, rfl⟩
  | jr rd =>
    cases linksTo
    exact .inl ⟨m, _, rfl, rfl, rfl⟩
  | setx value =>
    cases linksTo
    exact .inl ⟨_, _, rfl, rfl, rfl⟩
  | testlog rd =>
    cases linksTo
    exact .inl ⟨_, _, rfl, rfl, rfl⟩

/-- Control goes to one address only. -/
theorem goesTo_unique (linkable : Linkable es) {c : Control} {x y : Int} (first : GoesTo es m c x)
    (second : GoesTo es m c y) : x = y := by
  cases c with
  | onward => exact first.trans second.symm
  | label l =>
    obtain ⟨i, labelled, rfl⟩ := first
    obtain ⟨j, labelled', rfl⟩ := second
    rw [linkable.unique labelled labelled']
  | register r => exact first.trans second.symm

theorem fetch?_nat (p : Program) (here : m.pc = a) : m.fetch? p = p.instr? a := by
  have : ¬ m.pc < 0 := by omega
  rw [fetch?, if_neg this, here, Int.toNat_natCast]

variable (linked : Linked es p)
include linked

theorem isDone_iff (here : m.pc = a) : IsDone p m ↔ es.length ≤ a := by
  rw [IsDone, fetch?_nat p here, ← linked.size]
  simp [Program.instr?, Program.size]

/-- What is at the program counter was linked from the entry there. -/
theorem entry_of_fetch {i : MachineInstr} (here : m.pc = a) (fetched : m.fetch? p = some i) :
    ∃ e, es[a]? = some e ∧ LinksTo es a e.instr i := by
  have inside : a < es.length := by
    apply Nat.lt_of_not_le
    intro beyond
    rw [(isDone_iff linked here).2 beyond] at fetched
    cases fetched
  obtain ⟨i', fetched', linksTo⟩ := linked.instr (List.getElem?_eq_getElem inside)
  rw [fetch?_nat p here, fetched'] at fetched
  cases fetched
  exact ⟨_, List.getElem?_eq_getElem inside, linksTo⟩

theorem stepsTo_iff (here : m.pc = a) {next : Machine} :
    StepsTo p m next ↔ ∃ e after x, es[a]? = some e ∧ m.effect e.instr = .ok after ∧
      GoesTo es m (m.control e.instr) x ∧ next = after.goto x := by
  constructor
  · rintro ⟨i, reached, x, fetched, executed, rfl⟩
    obtain ⟨e, found, linksTo⟩ := entry_of_fetch linked here fetched
    rcases execute_of_linksTo here linksTo with ⟨after, next, effect, goes, run⟩ | ⟨y, -, run⟩
    · rw [executed] at run
      cases run
      exact ⟨e, _, _, found, effect, goes, rfl⟩
    · rw [executed] at run
      cases run
  · rintro ⟨e, after, x, found, effect, goes, rfl⟩
    obtain ⟨i, fetched, linksTo⟩ := linked.instr found
    rcases execute_of_linksTo here linksTo with ⟨after', next, effect', goes', run⟩ | ⟨y, fails, -⟩
    · rw [effect] at effect'
      cases effect'
      rw [goesTo_unique linked.linkable goes goes']
      exact ⟨i, after, next, (fetch?_nat p here).trans fetched, run, rfl⟩
    · rw [effect] at fails
      cases fails

theorem failsTo_iff (here : m.pc = a) {after : Machine} {err : MachineError} :
    FailsTo p m after err ↔ ∃ e x, es[a]? = some e ∧ m.effect e.instr = .error x ∧ after = m ∧
      err = .memoryOutOfBounds m.pc x := by
  constructor
  · rintro ⟨i, fetched, executed⟩
    obtain ⟨e, found, linksTo⟩ := entry_of_fetch linked here fetched
    rcases execute_of_linksTo here linksTo with ⟨after, next, -, -, run⟩ | ⟨y, fails, run⟩
    · rw [executed] at run
      cases run
    · rw [executed] at run
      cases run
      exact ⟨e, y, found, fails, rfl, rfl⟩
  · rintro ⟨e, x, found, fails, rfl, rfl⟩
    obtain ⟨i, fetched, linksTo⟩ := linked.instr found
    rcases execute_of_linksTo here linksTo with ⟨after', next, effect', -, -⟩ | ⟨y, fails', run⟩
    · rw [fails] at effect'
      cases effect'
    · rw [fails] at fails'
      cases fails'
      exact ⟨i, (fetch?_nat p here).trans fetched, run⟩

end Machine

end SmallC
