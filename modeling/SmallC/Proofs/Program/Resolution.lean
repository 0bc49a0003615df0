import SmallC.Proofs.Program.Labels

/-!
What linking comes to. Entries link exactly if no label is bound twice and every target refers to one that is bound.
What targets resolve to is then all that changes in them, and otherwise nothing does. Wherever a linked instruction
sends control to its target, a step of the machine takes the counter to the one entry that has the label, forward,
backward, or to the instruction itself.
-/
namespace SmallC

open Link

variable {es out : List Entry} {e e' : Entry} {label : String} {a k : Nat}

/-- The entry as it was before its target was resolved. -/
def Entry.unlinked (e : Entry) : Entry :=
  { e with instr := e.instr.mapTarget fun target => .unresolved target.label }

theorem unlinked_settle (value : Int) (e : Entry) : (settle value e).unlinked = e.unlinked := by
  obtain ⟨label, instr⟩ := e
  cases instr <;> rfl

/-- Writing resolutions changes nothing else. -/
theorem unlinked_settleAll (values : List (Nat × Int)) (es : List Entry) :
    (settleAll values es).map Entry.unlinked = es.map Entry.unlinked := by
  induction values generalizing es with
  | nil => rfl
  | cons first rest ih =>
    refine (ih _).trans (List.ext_getElem? fun i => ?_)
    rw [List.getElem?_map, List.getElem?_map, List.getElem?_modify]
    cases es[i]? with
    | none => rfl
    | some e =>
      simp only [Option.map_eq_map, Option.map_some]
      split <;> simp [unlinked_settle]

/-! ### What stays -/

section

variable (same : out.map Entry.unlinked = es.map Entry.unlinked)
include same

theorem entry_of_unlinked (found : out[a]? = some e') : ∃ e, es[a]? = some e ∧ e.unlinked = e'.unlinked := by
  have there := congrArg (·[a]?) same
  simp only [List.getElem?_map, found, Option.map_some] at there
  exact Option.map_eq_some_iff.1 there.symm

theorem labelAt_of_unlinked : LabelAt out label k → LabelAt es label k := by
  rintro ⟨e', found, own⟩
  obtain ⟨e, found', matched⟩ := entry_of_unlinked same found
  exact ⟨e, found', (congrArg Entry.label matched).trans own⟩

end

/-- Where control goes has nothing to do with what targets resolve to. -/
theorem control_of_unlinked (m : Machine) (matched : e.unlinked = e'.unlinked) :
    m.control e.instr = m.control e'.instr := by
  have anew : ∀ e : Entry, m.control e.unlinked.instr = m.control e.instr := by
    intro e
    have renamed : m.control e.unlinked.instr = (m.control e.instr).rename id :=
      m.control_mapTarget e.instr fun _ => rfl
    rw [renamed]
    cases m.control e.instr <;> rfl
  rw [← anew e, matched, anew]

/-- An instruction that sends control to a label fails at nothing. -/
theorem effect_of_control {m : Machine} {i : MachineInstr} (goes : m.control i = .label label) :
    ∃ after, m.effect i = .ok after := by
  cases i with
  | branch => exact ⟨m, rfl⟩
  | jump op => cases op <;> exact ⟨_, rfl⟩
  | _ => cases goes

/-! ### Linking -/

theorem linkInPlace_ok (linked : linkInPlace es = .ok () out) :
    Program.link es = .ok ⟨out.toArray⟩ ∧ out.map Entry.unlinked = es.map Entry.unlinked := by
  refine ⟨by rw [Program.link, linkEntries, linked]; rfl, ?_⟩
  rw [linkInPlace_eq] at linked
  split at linked
  · cases linked
  · cases linked
    exact unlinked_settleAll _ es

theorem linkInPlace_ok_iff : (∃ out, linkInPlace es = .ok () out) ↔ ∃ p, Program.link es = .ok p := by
  constructor
  · rintro ⟨out, linked⟩
    exact ⟨_, (linkInPlace_ok linked).1⟩
  · rintro ⟨p, linked⟩
    rw [Program.link, linkEntries] at linked
    split at linked
    · next out done => exact ⟨out, done⟩
    · cases linked

/-- A linked instruction that sends control to a label takes the machine to the entry that has it. -/
theorem step_to_label {p : Program} {m : Machine} (linked : Linked es p) (here : m.pc = a) (found : es[a]? = some e)
    (goes : m.control e.instr = .label label) :
    ∃ d after, LabelAt es label d ∧ m.run p 1 = (after, .ok 1) ∧ after.pc = d := by
  obtain ⟨after, effect⟩ := effect_of_control goes
  obtain ⟨t, target, rfl⟩ := control_label goes
  obtain ⟨d, labelled⟩ := linked.linkable.bound (List.mem_of_getElem? found) target
  have step : Machine.StepsTo p m (after.goto d) :=
    (Machine.stepsTo_iff linked here).2 ⟨e, after, d, found, effect, goes ▸ ⟨d, labelled, rfl⟩, rfl⟩
  exact ⟨d, after.goto d, labelled, Machine.runFrom_of_stepsTo step, after.pc_goto_nat d⟩

/-- Linking succeeds exactly if no label is bound twice and every target refers to a bound one. It changes nothing but
what targets resolve to, and where it fails nothing at all. On the linked program, an instruction that sends control to
its target takes the counter in one step to the one entry that has the label. -/
theorem link_exact (es : List Entry) :
    ((∃ out, linkInPlace es = .ok () out) ↔
      (labelsOf es).Nodup ∧ ∀ e ∈ es, ∀ t, e.target? = some t → t.label ∈ labelsOf es) ∧
    (∀ err out, linkInPlace es = .error err out → out = es) ∧
    ∀ out, linkInPlace es = .ok () out →
      Program.link es = .ok ⟨out.toArray⟩ ∧ out.map Entry.unlinked = es.map Entry.unlinked ∧
      ∀ (m : Machine) (a : Nat) (e : Entry) (label : String), m.pc = a → out[a]? = some e →
        m.control e.instr = .label label →
        ∃ d after, (∀ k, LabelAt out label k ↔ k = d) ∧ m.run ⟨out.toArray⟩ 1 = (after, .ok 1) ∧ after.pc = d := by
  refine ⟨?_, fun err out failed => ?_, fun out linked => ?_⟩
  · rw [← linkable_iff, linkInPlace_ok_iff]
    exact ⟨fun ⟨p, linked⟩ => (linked_of_link linked).linkable, Linkable.link⟩
  · rw [linkInPlace_eq] at failed
    split at failed
    · cases failed
      rfl
    · cases failed
  · obtain ⟨linked', same⟩ := linkInPlace_ok linked
    refine ⟨linked', same, fun m a e' label here found goes => ?_⟩
    have whole := linked_of_link linked'
    obtain ⟨e, found', matched⟩ := entry_of_unlinked same found
    obtain ⟨d, after, labelled, ran, there⟩ :=
      step_to_label whole here found' ((control_of_unlinked m matched).trans goes)
    refine ⟨d, after, fun k => ⟨fun other => ?_, ?_⟩, ran, there⟩
    · exact whole.linkable.unique (labelAt_of_unlinked same other) labelled
    · rintro rfl
      exact labelAt_of_unlinked same.symm labelled

/-- A loop that counts a register down. -/
def countdown : List Entry :=
  [.labeled "top" (.addi Reg.result Reg.result (-1)), .plain (MachineInstr.branchTo .bne Reg.result Reg.zero "top"),
    .plain (MachineInstr.jumpTo "end"), .labeled "end" MachineInstr.noop]

/-- A machine in front of the branch of the loop that is to go through it once more. -/
def counting : Machine := { (Machine.fresh 0).setReg Reg.result 1#32 with pc := 1 }

theorem link_exact_countdown :
    ∃ out, linkInPlace countdown = .ok () out ∧
      ∃ after, counting.run ⟨out.toArray⟩ 1 = (after, .ok 1) ∧ after.pc = 0 := by
  obtain ⟨out, linked⟩ : ∃ out, linkInPlace countdown = .ok () out := ⟨_, rfl⟩
  have moves := ((link_exact countdown).2.2 out linked).2.2
  cases linked
  obtain ⟨d, after, only, ran, there⟩ := moves counting 1 _ "top" rfl rfl rfl
  have top : 0 = d := (only 0).1 ⟨_, rfl, rfl⟩
  exact ⟨_, rfl, after, ran, there.trans (congrArg Nat.cast top.symm)⟩

end SmallC
