import SmallC.Program.Peephole
import SmallC.Proofs.Program.ReturnAddress

/-!
Two ways to rewrite entries without changing what they do. References to a label can go on to where the
entry under the label silently goes, and an entry can be dropped if it silently goes on to the next one
or is never reached. Addresses behind a dropped entry move down by one, those in the register of the
return address included.
-/
namespace SmallC

/-- Entries that link, that use the return address for returns alone, and whose calls have a word for
the address behind them. -/
structure Behaved (es : List Entry) : Prop where
  linkable : Linkable es
  spares : ∀ {e}, e ∈ es → e.instr.SparesReturnAddress
  returns : ∀ {a e}, es[a]? = some e → e.instr.isCall → a + 1 < 2 ^ 31

/-- Other entries do the same in no more steps, with any data memory. -/
def Improves (es es' : List Entry) : Prop :=
  Behaved es → Behaved es' ∧ ∀ {p p'}, Program.link es = .ok p → Program.link es' = .ok p' →
    ∀ words, Machine.Refines p p' (Machine.fresh words)

theorem Improves.refl (es : List Entry) : Improves es es := by
  refine fun behaved => ⟨behaved, fun {p p'} linked linked' words => ?_⟩
  rw [linked] at linked'
  cases linked'
  exact .refl p _

theorem Improves.trans {a b c : List Entry} (first : Improves a b) (second : Improves b c) :
    Improves a c := by
  intro behaved
  obtain ⟨behaved', refines⟩ := first behaved
  obtain ⟨behaved'', refines'⟩ := second behaved'
  refine ⟨behaved'', fun {p p''} linked linked'' words => ?_⟩
  obtain ⟨p', linked'⟩ := behaved'.linkable.link
  exact (refines linked linked' words).trans (refines' linked' linked'' words)

/-- An entry that does nothing but send control to an address: an instruction without effect, or a
jump. -/
def GoesSilently (es : List Entry) (a destination : Nat) : Prop :=
  ∃ e, es[a]? = some e ∧ ((e.instr = MachineInstr.noop ∧ destination = a + 1) ∨
    ∃ t, e.instr = .jump .j t ∧ LabelAt es t.label destination)

/-- An entry that control never reaches: nothing falls through to it and no target refers to it. -/
def Unreachable (es : List Entry) (a : Nat) : Prop :=
  0 < a ∧ (∃ e, es[a - 1]? = some e ∧ e.instr.neverFallsThrough) ∧
    ∀ e ∈ es, ∀ t, e.target? = some t → ¬ LabelAt es t.label a

/-- An address that a return can go to: that of the first entry, or one behind a call. -/
def IsReturn (es : List Entry) (a : Nat) : Prop :=
  a = 0 ∨ ∃ e, es[a - 1]? = some e ∧ e.instr.isCall

/-- Two machines, the second of which finds the entries at other places. They agree, and the return
address of the second is the place of that of the first. -/
structure Beside (es : List Entry) (place : Nat → Nat) (m m' : Machine) : Prop where
  agree : Machine.Agree m m'
  zero : m.reg Reg.zero = 0
  link : ∃ a, IsReturn es a ∧ a < 2 ^ 31 ∧ place a ≤ a ∧
    m.reg Reg.returnAddress = Word.ofInt a ∧ m'.reg Reg.returnAddress = Word.ofInt (place a)

/-- Where the two machines are behind an instruction: at the next entries, at the entries of a label
that the instruction refers to, or at an address that a return goes to. -/
inductive Lands (es es' : List Entry) (place : Nat → Nat) (rename : String → String) (m : Machine)
    (a : Nat) (e : Entry) : Nat → Nat → Prop where
  | onward (goes : m.control e.instr = .onward) : Lands es es' place rename m a e (a + 1) (place a + 1)
  | label {t : Target} {b b' : Nat} (target : e.target? = some t) (at' : LabelAt es t.label b)
      (at'' : LabelAt es' (rename t.label) b') : Lands es es' place rename m a e b b'
  | back {b : Nat} (returns : IsReturn es b) : Lands es es' place rename m a e b (place b)

theorem word_ofInt_toInt {a : Nat} (small : a < 2 ^ 31) : (Word.ofInt a).toInt = a := by
  rw [Word.ofInt, BitVec.toInt_ofInt]
  rw [Int.bmod_eq_of_le] <;> omega

theorem neverFallsThrough_control {m : Machine} {i : MachineInstr} (never : i.neverFallsThrough) :
    m.control i ≠ .onward ∧ i.isCall = false := by
  cases i with
  | jump op t =>
    cases op with
    | j => exact ⟨Control.noConfusion, rfl⟩
    | jal | bex => cases never
  | jr rd => exact ⟨Control.noConfusion, rfl⟩
  | _ => cases never

theorem control_label {m : Machine} {i : MachineInstr} {l : String} (goes : m.control i = .label l) :
    ∃ t, i.target? = some t ∧ t.label = l := by
  cases i with
  | branch op rd rs t =>
    simp only [Machine.control] at goes
    split at goes <;> cases goes
    exact ⟨t, rfl, rfl⟩
  | jump op t =>
    cases op with
    | bex =>
      simp only [Machine.control] at goes
      split at goes <;> cases goes
      exact ⟨t, rfl, rfl⟩
    | j | jal =>
      cases goes
      exact ⟨t, rfl, rfl⟩
  | _ => cases goes

theorem target?_mapTarget {i : MachineInstr} {t : Target} (f : Target → Target)
    (target : i.target? = some t) : Instr.target? (i.mapTarget f) = some (f t) := by
  cases i <;> cases target <;> rfl

namespace Beside

variable {es es' : List Entry} {place : Nat → Nat} {p p' : Program} {m m' next : Machine} {a : Nat}

theorem fresh (first : place 0 = 0) (words : Nat) :
    Beside es place (Machine.fresh words) (Machine.fresh words) :=
  ⟨.refl _, Machine.reg_fresh _ _, 0, .inl rfl, by omega, by omega,
    by simp [Word.ofInt], by simp [first, Word.ofInt]⟩

/-- The first machine may be elsewhere. -/
theorem goto (beside : Beside es place m m') (pc : Int) : Beside es place (m.goto pc) m' :=
  ⟨⟨beside.agree.regs, beside.agree.memory, beside.agree.log⟩, beside.zero, beside.link⟩

/-- An instruction and the same instruction with other names of labels take the machines to entries
that correspond. -/
theorem step {e e' : Entry} {g : Target → Target} (beside : Beside es place m m')
    (rename : String → String) (behaved : Behaved es) (linked : Linked es p)
    (linked' : Linked es' p') (place_le : ∀ b, place b ≤ b)
    (behind : e.instr.isCall → place (a + 1) = place a + 1)
    (here : m.pc = a) (here' : m'.pc = place a) (found : es[a]? = some e)
    (found' : es'[place a]? = some e') (same : e'.instr = e.instr.mapTarget g)
    (renames : ∀ t, (g t).label = rename t.label) (steps : Machine.StepsTo p m next) :
    ∃ next' b b' : _, Machine.StepsTo p' m' next' ∧ Beside es place next next' ∧
      next.pc = (b : Nat) ∧ next'.pc = (b' : Nat) ∧ Lands es es' place rename m a e b b' := by
  obtain ⟨e₀, after, x, found₀, effect, goes, rfl⟩ := (Machine.stepsTo_iff linked here).1 steps
  rw [found] at found₀
  cases found₀
  have spares := behaved.spares (List.mem_of_getElem? found)
  obtain ⟨after', effect', agree'⟩ :
      ∃ after', m'.effect e.instr = .ok after' ∧ Machine.Agree after after' := by
    rcases beside.agree.effect spares with ⟨x, x', ran, ran', agree⟩ | ⟨y, fails, -⟩
    · rw [effect] at ran
      cases ran
      exact ⟨x', ran', agree⟩
    · rw [effect] at fails
      cases fails
  have kept := Machine.effect_kept spares effect
  have kept' := Machine.effect_kept spares effect'
  obtain ⟨ra, isReturn, small, lower, link, link'⟩ := beside.link
  -- The machines stay side by side, wherever control goes: a call sets both return addresses anew.
  have besides : ∀ y y' : Int, Beside es place (after.goto y) (after'.goto y') := by
    intro y y'
    refine ⟨agree'.goto _ _, kept.zero.trans beside.zero, ?_⟩
    by_cases call : e.instr.isCall
    · refine ⟨a + 1, .inr ⟨e, found, call⟩, behaved.returns found call, place_le _, ?_, ?_⟩
      · simp only [Machine.reg_goto, kept.link, call, ↓reduceIte, here]
        rfl
      · simp only [Machine.reg_goto, kept'.link, call, ↓reduceIte, here', behind call]
        rfl
    · refine ⟨ra, isReturn, small, lower, ?_, ?_⟩
      · rw [Machine.reg_goto, kept.link, if_neg call, link]
      · rw [Machine.reg_goto, kept'.link, if_neg call, link']
  have control' : m'.control e'.instr = (m.control e.instr).rename rename := by
    rw [same, Machine.control_mapTarget _ _ renames, beside.agree.control spares]
  have stepsTo' : ∀ y, Machine.GoesTo es' m' ((m.control e.instr).rename rename) y →
      Machine.StepsTo p' m' (after'.goto y) := by
    intro y goes'
    refine (Machine.stepsTo_iff linked' here').2 ⟨e', after', y, found', ?_, ?_, rfl⟩
    · rw [same, Machine.effect_mapTarget, effect']
    · rwa [control']
  cases control : m.control e.instr with
  | onward =>
    rw [control] at goes stepsTo'
    cases goes
    refine ⟨_, a + 1, place a + 1, stepsTo' _ rfl, besides _ _, ?_, ?_, .onward control⟩
    · rw [here]
      exact Machine.pc_goto_nat _ (a + 1)
    · rw [here']
      exact Machine.pc_goto_nat _ (place a + 1)
  | label l =>
    rw [control] at goes stepsTo'
    obtain ⟨b, labelled, rfl⟩ := goes
    obtain ⟨t, target, rfl⟩ := control_label control
    have target' : e'.target? = some (g t) := by
      rw [Entry.target?, same]
      exact target?_mapTarget g target
    obtain ⟨b', labelled'⟩ :=
      linked'.linkable.bound (List.mem_of_getElem? found') target'
    rw [renames] at labelled'
    exact ⟨_, b, b', stepsTo' _ ⟨b', labelled', rfl⟩, besides _ _, Machine.pc_goto_nat _ _,
      Machine.pc_goto_nat _ _, .label target labelled labelled'⟩
  | register r =>
    rw [control] at goes stepsTo'
    cases Machine.control_register spares control
    refine ⟨_, ra, place ra, stepsTo' _ rfl, besides _ _, ?_, ?_, .back isReturn⟩
    · rw [goes, link, word_ofInt_toInt small, Machine.pc_goto_nat]
    · rw [link', word_ofInt_toInt (Nat.lt_of_le_of_lt lower small), Machine.pc_goto_nat]

/-- A failing access fails on both machines. -/
theorem fails {e e' : Entry} {g : Target → Target} {after : Machine} {pc x : Int}
    (beside : Beside es place m m') (behaved : Behaved es) (linked : Linked es p)
    (linked' : Linked es' p') (here : m.pc = a) (here' : m'.pc = place a) (found : es[a]? = some e)
    (found' : es'[place a]? = some e') (same : e'.instr = e.instr.mapTarget g)
    (failed : Machine.FailsTo p m after (.memoryOutOfBounds pc x)) :
    ∃ after' pc', Machine.FailsTo p' m' after' (.memoryOutOfBounds pc' x) ∧
      Machine.Agree after after' := by
  obtain ⟨e₀, y, found₀, fails, rfl, err⟩ := (Machine.failsTo_iff linked here).1 failed
  cases err
  rw [found] at found₀
  cases found₀
  rcases beside.agree.effect (behaved.spares (List.mem_of_getElem? found)) with
    ⟨_, _, ran, -, -⟩ | ⟨y', fails₀, fails'⟩
  · rw [fails] at ran
    cases ran
  · rw [fails] at fails₀
    cases fails₀
    refine ⟨m', m'.pc, (Machine.failsTo_iff linked' here').2
      ⟨e', x, found', ?_, rfl, rfl⟩, beside.agree⟩
    rw [same, Machine.effect_mapTarget, fails']

end Beside

/-- An instruction without effect leaves the machine as it is, as long as the register that reads zero
does. -/
theorem effect_noop {m : Machine} (zero : m.reg Reg.zero = 0) :
    m.effect MachineInstr.noop = .ok m := by
  simp only [MachineInstr.noop, Machine.effect, Machine.alu, zero]
  rfl

/-- A silent entry moves the program counter and does nothing else. -/
theorem step_silent {es : List Entry} {p : Program} {m next : Machine} {a d : Nat}
    (linked : Linked es p) (zero : m.reg Reg.zero = 0) (here : m.pc = a) (silent : GoesSilently es a d)
    (steps : Machine.StepsTo p m next) : next = m.goto d := by
  obtain ⟨e, found, kind⟩ := silent
  obtain ⟨e₀, after, x, found₀, effect, goes, rfl⟩ := (Machine.stepsTo_iff linked here).1 steps
  rw [found] at found₀
  cases found₀
  rcases kind with ⟨noop, rfl⟩ | ⟨t, jump, labelled⟩
  · rw [noop, effect_noop zero] at effect
    cases effect
    rw [noop] at goes
    cases goes
    rw [here]
    rfl
  · rw [jump] at effect goes
    cases effect
    obtain ⟨b, labelled', rfl⟩ := goes
    rw [linked.linkable.unique labelled labelled']

theorem not_fails_silent {es : List Entry} {p : Program} {m after : Machine} {a d : Nat}
    {err : MachineError} (linked : Linked es p) (zero : m.reg Reg.zero = 0) (here : m.pc = a)
    (silent : GoesSilently es a d) : ¬ Machine.FailsTo p m after err := by
  intro failed
  obtain ⟨e, found, kind⟩ := silent
  obtain ⟨e₀, x, found₀, fails, -, -⟩ := (Machine.failsTo_iff linked here).1 failed
  rw [found] at found₀
  cases found₀
  rcases kind with ⟨noop, -⟩ | ⟨t, jump, -⟩
  · rw [noop, effect_noop zero] at fails
    cases fails
  · rw [jump] at fails
    cases fails

/-! ### References that go on -/

/-- The name that a reference has once those to one label follow to another. -/
def rerouted (source destination label : String) : String :=
  if label = source then destination else label

theorem retarget_instr (source destination : String) (e : Entry) :
    ∃ g : Target → Target, (e.retarget source destination).instr = e.instr.mapTarget g ∧
      ∀ t, (g t).label = rerouted source destination t.label := by
  refine ⟨_, rfl, fun t => ?_⟩
  simp only [rerouted]
  split <;> rfl

theorem labelAt_retarget {es : List Entry} {source destination label : String} {a : Nat} :
    LabelAt (Peephole.retarget source destination es) label a ↔ LabelAt es label a := by
  simp only [LabelAt, Peephole.retarget, List.getElem?_map, Option.map_eq_some_iff]
  constructor
  · rintro ⟨_, ⟨e, found, rfl⟩, labelled⟩
    exact ⟨e, found, labelled⟩
  · rintro ⟨e, found, labelled⟩
    exact ⟨_, ⟨e, found, rfl⟩, labelled⟩

theorem behaved_retarget {es : List Entry} {source destination : String} {d : Nat}
    (behaved : Behaved es) (bound : LabelAt es destination d) :
    Behaved (Peephole.retarget source destination es) := by
  refine ⟨⟨fun first second => ?_, fun {e t} member target => ?_⟩, fun {e} member => ?_,
    fun {a e} found call => ?_⟩
  · exact behaved.linkable.unique (labelAt_retarget.1 first) (labelAt_retarget.1 second)
  · obtain ⟨e₀, member₀, rfl⟩ := List.mem_map.1 member
    obtain ⟨g, same, renames⟩ := retarget_instr source destination e₀
    cases target₀ : e₀.target? with
    | none =>
      rw [Entry.target?] at target target₀
      rw [same] at target
      cases instr : e₀.instr <;> rw [instr] at target target₀ <;> cases target <;> cases target₀
    | some t₀ =>
      rw [Entry.target?, same, target?_mapTarget g target₀] at target
      cases target
      obtain ⟨a, labelled⟩ := behaved.linkable.bound member₀ target₀
      simp only [renames, rerouted]
      split
      · exact ⟨d, labelAt_retarget.2 bound⟩
      · exact ⟨a, labelAt_retarget.2 labelled⟩
  · obtain ⟨e₀, member₀, rfl⟩ := List.mem_map.1 member
    exact (MachineInstr.sparesReturnAddress_mapTarget _ _).2 (behaved.spares member₀)
  · rw [Peephole.retarget, List.getElem?_map, Option.map_eq_some_iff] at found
    obtain ⟨e₀, found₀, rfl⟩ := found
    exact behaved.returns found₀ ((MachineInstr.isCall_mapTarget _ _).symm.trans call)

/-- References to the label of a silent entry can go on to the label at the entry's destination. The
machines are side by side, or the first is at the silent entry and the second has gone on. -/
theorem improves_retarget {es : List Entry} {source destination : String} {k d : Nat}
    (from' : LabelAt es source k) (dest : LabelAt es destination d) (silent : GoesSilently es k d) :
    Improves es (Peephole.retarget source destination es) := by
  intro behaved
  refine ⟨behaved_retarget behaved dest, fun {p p'} link link' words => ?_⟩
  have linked := linked_of_link link
  have linked' := linked_of_link link'
  have entry : ∀ {a : Nat} {e : Entry}, es[a]? = some e →
      (Peephole.retarget source destination es)[a]? = some (e.retarget source destination) := by
    intro a e found
    rw [Peephole.retarget, List.getElem?_map, found]
    rfl
  refine Machine.Simulation.refines (j := 0)
    (fun j m m' => Beside es id m m' ∧ ∃ a : Nat, m.pc = a ∧
      (m'.pc = a ∨ j = 1 ∧ a = k ∧ m'.pc = d))
    ⟨?_, ?_, ?_, ?_⟩ ⟨.fresh rfl words, 0, rfl, .inl rfl⟩
  · exact fun related => related.1.agree
  · rintro j m m' ⟨beside, a, here, here' | ⟨-, rfl, -⟩⟩ done
    · rw [Machine.isDone_iff linked here] at done
      rw [Machine.isDone_iff linked' here', Peephole.length_retarget]
      exact done
    · obtain ⟨e, found, -⟩ := from'
      rw [Machine.isDone_iff linked here] at done
      rw [List.getElem?_eq_none done] at found
      cases found
  · rintro j m m' next ⟨beside, a, here, here' | ⟨rfl, rfl, ahead⟩⟩ steps
    · obtain ⟨e, -, -, found, -, -, -⟩ := (Machine.stepsTo_iff linked here).1 steps
      obtain ⟨g, same, renames⟩ := retarget_instr source destination e
      obtain ⟨next', b, b', steps', beside', at', at'', lands⟩ :=
        beside.step _ behaved linked linked' (fun _ => Nat.le_refl _) (fun _ => rfl) here here' found
          (entry found) same renames steps
      refine .inl ⟨next', 1, steps', beside', b, at', ?_⟩
      cases lands with
      | onward => exact .inl at''
      | back => exact .inl at''
      | @label t _ _ target labelled labelled' =>
        rw [labelAt_retarget] at labelled'
        by_cases moved : t.label = source
        · rw [rerouted, if_pos moved] at labelled'
          rw [moved] at labelled
          rw [behaved.linkable.unique labelled from', at'',
            behaved.linkable.unique labelled' dest]
          exact .inr ⟨rfl, rfl, rfl⟩
        · rw [rerouted, if_neg moved] at labelled'
          rw [at'', behaved.linkable.unique labelled' labelled]
          exact .inl rfl
    · rw [step_silent linked beside.zero here silent steps]
      exact .inr ⟨0, by omega, beside.goto d, d, Machine.pc_goto_nat _ _, .inl ahead⟩
  · rintro j m m' after pc x ⟨beside, a, here, here' | ⟨-, rfl, -⟩⟩ failed
    · obtain ⟨e, -, found, -⟩ := (Machine.failsTo_iff linked here).1 failed
      obtain ⟨g, same, -⟩ := retarget_instr source destination e
      exact beside.fails behaved linked linked' here here' found (entry found) same failed
    · exact absurd failed (not_fails_silent linked beside.zero here silent)

/-! ### Entries that are dropped -/

/-- Where an entry is once another is dropped. The place of the dropped entry is that of the next. -/
def placeWithout (k a : Nat) : Nat := if a ≤ k then a else a - 1

/-- Other entries are the given ones without one of them. Labels that targets refer to stay with their
entries, that of the dropped entry with the next one. -/
structure Drops (k : Nat) (es es' : List Entry) : Prop where
  inside : k < es.length
  length : es'.length + 1 = es.length
  instr : ∀ {a e}, a ≠ k → es[a]? = some e →
    ∃ e', es'[placeWithout k a]? = some e' ∧ e'.instr = e.instr
  label : ∀ {e t a}, e ∈ es → e.target? = some t → LabelAt es t.label a →
    LabelAt es' t.label (placeWithout k a)
  unique : ∀ {l a b}, LabelAt es' l a → LabelAt es' l b → a = b

namespace Drops

variable {k : Nat} {es es' : List Entry}

/-- An entry that is left was there before, at the same place or the next. -/
theorem origin (drops : Drops k es es') {a : Nat} {e' : Entry} (found : es'[a]? = some e') :
    ∃ b e, a ≤ b ∧ es[b]? = some e ∧ e'.instr = e.instr := by
  have inside := (List.getElem?_eq_some_iff.1 found).1
  have length := drops.length
  have origin : ∀ b, b ≠ k → placeWithout k b = a → b < es.length →
      ∃ e, es[b]? = some e ∧ e'.instr = e.instr := by
    intro b other place inside
    obtain ⟨e₀, found₀, same⟩ := drops.instr other (List.getElem?_eq_getElem inside)
    rw [place, found] at found₀
    cases found₀
    exact ⟨_, List.getElem?_eq_getElem inside, same⟩
  by_cases before : a < k
  · obtain ⟨e, found, same⟩ := origin a (by omega) (by simp [placeWithout, Nat.le_of_lt before])
      (by omega)
    exact ⟨a, e, Nat.le_refl _, found, same⟩
  · obtain ⟨e, found, same⟩ := origin (a + 1) (by omega) (by simp [placeWithout]; omega) (by omega)
    exact ⟨a + 1, e, Nat.le_succ _, found, same⟩

theorem behaved (drops : Drops k es es') (behaved : Behaved es) : Behaved es' := by
  refine ⟨⟨drops.unique, fun {e t} member target => ?_⟩, fun {e} member => ?_,
    fun {a e} found call => ?_⟩
  · obtain ⟨a, found⟩ := List.getElem?_of_mem member
    obtain ⟨b, e₀, -, found₀, same⟩ := drops.origin found
    have member₀ := List.mem_of_getElem? found₀
    rw [Entry.target?, same] at target
    obtain ⟨c, labelled⟩ := behaved.linkable.bound member₀ target
    exact ⟨_, drops.label member₀ target labelled⟩
  · obtain ⟨a, found⟩ := List.getElem?_of_mem member
    obtain ⟨b, e₀, -, found₀, same⟩ := drops.origin found
    rw [same]
    exact behaved.spares (List.mem_of_getElem? found₀)
  · obtain ⟨b, e₀, later, found₀, same⟩ := drops.origin found
    rw [same] at call
    have := behaved.returns found₀ call
    omega

/-- Dropping an entry is no change if control goes on from it silently or never reaches it. -/
theorem improves (drops : Drops k es es') (passes : GoesSilently es k (k + 1) ∨ Unreachable es k) :
    Improves es es' := by
  intro behaved
  refine ⟨drops.behaved behaved, fun {p p'} link link' words => ?_⟩
  have linked := linked_of_link link
  have linked' := linked_of_link link'
  have length := drops.length
  have inside := drops.inside
  have place_le : ∀ b, placeWithout k b ≤ b := by
    intro b
    simp only [placeWithout]
    split <;> omega
  -- Control comes to the dropped entry only if that goes on silently.
  have lands : ∀ {m a e b b'}, es[a]? = some e → a ≠ k →
      Lands es es' (placeWithout k) id m a e b b' →
      b' = placeWithout k b ∧ (b = k → GoesSilently es k (k + 1)) := by
    intro m a e b b' found other lands
    cases lands with
    | onward goes =>
      refine ⟨by simp only [placeWithout]; split <;> split <;> omega, fun here => ?_⟩
      rcases passes with silent | ⟨-, ⟨e₀, found₀, never⟩, -⟩
      · exact silent
      · rw [← here, Nat.add_sub_cancel, found] at found₀
        cases found₀
        exact absurd goes (neverFallsThrough_control never).1
    | label target labelled labelled' =>
      have member := List.mem_of_getElem? found
      refine ⟨drops.unique labelled' (drops.label member target labelled), ?_⟩
      rintro rfl
      rcases passes with silent | ⟨-, -, unreferenced⟩
      · exact silent
      · exact absurd labelled (unreferenced e member _ target)
    | back returns =>
      refine ⟨rfl, ?_⟩
      rintro rfl
      rcases passes with silent | ⟨positive, ⟨e₀, found₀, never⟩, -⟩
      · exact silent
      · rcases returns with zero | ⟨e₁, found₁, call⟩
        · omega
        · rw [found₀] at found₁
          cases found₁
          rw [(neverFallsThrough_control (m := m) never).2] at call
          cases call
  refine Machine.Simulation.refines (j := 1)
    (fun j m m' => Beside es (placeWithout k) m m' ∧ ∃ a : Nat, m.pc = a ∧
      m'.pc = placeWithout k a ∧ (a = k → j = 1 ∧ GoesSilently es k (k + 1)))
    ⟨?_, ?_, ?_, ?_⟩ ⟨.fresh (by simp [placeWithout]) words, 0, rfl, by simp [placeWithout]; rfl, ?_⟩
  · exact fun related => related.1.agree
  · rintro j m m' ⟨-, a, here, here', -⟩ done
    rw [Machine.isDone_iff linked here] at done
    rw [Machine.isDone_iff linked' here', placeWithout]
    split <;> omega
  · rintro j m m' next ⟨beside, a, here, here', silently⟩ steps
    by_cases dropped : a = k
    · obtain ⟨rfl, silent⟩ := silently dropped
      rw [dropped] at here here'
      rw [step_silent linked beside.zero here silent steps]
      refine .inr ⟨0, by omega, beside.goto _, k + 1, Machine.pc_goto_nat _ (k + 1), ?_, by omega⟩
      rw [here', placeWithout, placeWithout, if_pos (Nat.le_refl k), if_neg (Nat.not_succ_le_self k),
        Nat.add_sub_cancel]
    · obtain ⟨e, -, -, found, -, -, -⟩ := (Machine.stepsTo_iff linked here).1 steps
      obtain ⟨e', found', same⟩ := drops.instr dropped found
      obtain ⟨next', b, b', steps', beside', at', at'', landed⟩ :=
        beside.step (g := id) id behaved linked linked' place_le
          (fun _ => by simp only [placeWithout]; split <;> split <;> omega) here here' found found'
          (by rw [same]; cases e.instr <;> rfl) (fun _ => rfl) steps
      obtain ⟨rfl, silently'⟩ := lands found dropped landed
      exact .inl ⟨next', 1, steps', beside', b, at', at'', fun here => ⟨rfl, silently' here⟩⟩
  · rintro j m m' after pc x ⟨beside, a, here, here', silently⟩ failed
    by_cases dropped : a = k
    · obtain ⟨rfl, silent⟩ := silently dropped
      rw [dropped] at here
      exact absurd failed (not_fails_silent linked beside.zero here silent)
    · obtain ⟨e, -, found, -⟩ := (Machine.failsTo_iff linked here).1 failed
      obtain ⟨e', found', same⟩ := drops.instr dropped found
      exact beside.fails (g := id) behaved linked linked' here here' found found'
        (by rw [same]; cases e.instr <;> rfl) failed
  · intro first
    rcases passes with silent | ⟨positive, -⟩
    · exact ⟨rfl, silent⟩
    · omega

end Drops

end SmallC
