import SmallC.Proofs.Machine.Performing
import SmallC.Proofs.Program.Rewriting

/-!
The stack pointer and the return address of functions under way. Entries are laid out in such a way that at
each of them two things are known: how far the stack pointer has moved since the function around the entry was
entered, and whether the address to return to is in its register or in a word of the stack. A run along such
entries returns from each function with both registers as they were on entry, and so behind the call.
-/
namespace SmallC

/-- A register that is neither the stack pointer nor that of the return address. -/
def Reg.Common (r : Reg) : Prop := r ≠ Reg.stackPointer ∧ r ≠ Reg.returnAddress

instance (r : Reg) : Decidable r.Common := inferInstanceAs (Decidable (_ ∧ _))

/-- Where the return address of a function is. -/
inductive Link where
  /-- In its register. -/
  | held
  /-- In the word so far below where the stack pointer was on entry. -/
  | kept (depth : Nat)

/-- Where control is: in no function, or in one with the stack pointer so far below where it was on entry. -/
inductive Point where
  | outside
  | inside (depth : Nat) (link : Link)

/-- An instruction that only writes a register, one that is free for any use. -/
def MachineInstr.Calm (i : MachineInstr) : Prop := ∃ r : Reg, i.written? = some r ∧ r.Common

/-- What an instruction of a function may do at a point, and the point behind it, unless control never gets
there. A function writes the part of the stack below its entry, its return address apart, and global words. -/
inductive Flow (points : String → Point) (globals : Nat) : Point → MachineInstr → Option Point → Prop where
  | outside {i : MachineInstr} (free : i.target? = none) (stays : ∀ r, i ≠ .jr r) :
      Flow points globals .outside i (some .outside)
  | calm {pt : Point} {i : MachineInstr} (calm : i.Calm) : Flow points globals pt i (some pt)
  | branch {pt : Point} {op : BranchOp} {rd rs : Reg} {t : Target} (there : points t.label = pt) :
      Flow points globals pt (.branch op rd rs t) (some pt)
  | jump {pt : Point} {t : Target} (there : points t.label = pt) :
      Flow points globals pt (.jump .j t) none
  | callOutside {t : Target} (entry : points t.label = .inside 0 .held) :
      Flow points globals .outside (.jump .jal t) (some .outside)
  | callInside {d k : Nat} {t : Target} (entry : points t.label = .inside 0 .held) (below : k ≤ d) :
      Flow points globals (.inside d (.kept k)) (.jump .jal t) (some (.inside d (.kept k)))
  | move {d d' : Nat} {n : Int} {l : Link} (moved : (d' : Int) = d - n) (above : ∀ k, l = .kept k → k ≤ d') :
      Flow points globals (.inside d l) (.addi Reg.stackPointer Reg.stackPointer n) (some (.inside d' l))
  | save {d : Nat} (below : 0 < d) : Flow points globals (.inside d .held)
      (.sw Reg.returnAddress Reg.stackPointer 0) (some (.inside d (.kept d)))
  | restore {d : Nat} : Flow points globals (.inside d (.kept d))
      (.lw Reg.returnAddress Reg.stackPointer 0) (some (.inside d .held))
  | store {d x : Nat} {l : Link} {r : Reg} (below : x < d) (apart : ∀ k, l = .kept k → d ≠ k + x) :
      Flow points globals (.inside d l) (.sw r Reg.stackPointer (x : Int)) (some (.inside d l))
  | write {d x : Nat} {l : Link} {r : Reg} (low : x < globals) :
      Flow points globals (.inside d l) (.sw r Reg.zero (x : Int)) (some (.inside d l))
  | back : Flow points globals (.inside 0 .held) (.jr Reg.returnAddress) none

/-- Entries along which control flows from one point to another; where it never gets, any point will do. A
label stands where control is at the point that the label has. -/
inductive Fits (points : String → Point) (globals : Nat) : Option Point → List Entry → Option Point → Prop where
  | nil {at' : Option Point} : Fits points globals at' [] at'
  | cons {at' next last : Option Point} {pt : Point} {e : Entry} {rest : List Entry}
      (here : ∀ other, at' = some other → other = pt)
      (label : ∀ l, e.label = some l → points l = pt) (flow : Flow points globals pt e.instr next)
      (behind : Fits points globals next rest last) : Fits points globals at' (e :: rest) last

/-- A call under way: where it was made, and what the stack pointer and the return address were when the
function was entered. -/
structure Activation where
  site : Int
  stack : Word
  link : Word

namespace Machine

/-- The calls under way behind an instruction, the innermost first. -/
def activations (m : Machine) (i : MachineInstr) (next : Machine) (acts : List Activation) :
    List Activation :=
  match i with
  | .jump .jal _ => ⟨m.pc, next.reg Reg.stackPointer, next.reg Reg.returnAddress⟩ :: acts
  | .jr _ => acts.tail
  | _ => acts

/-- The stack keeps to its place: what an instruction accesses through the stack pointer is no global word,
and the stack pointer does not wrap around. -/
def StackInPlace (globals : Nat) (m : Machine) : MachineInstr → Prop
  | .sw _ base offset => base = Reg.stackPointer → (globals : Int) ≤ (m.reg base).toInt + offset
  | .lw _ base offset => base = Reg.stackPointer → (globals : Int) ≤ (m.reg base).toInt + offset
  | .addi rd rs n => rd = Reg.stackPointer → rs = Reg.stackPointer → FitsSigned 32 ((m.reg rs).toInt + n)
  | _ => True

instance (globals : Nat) (m : Machine) : (i : MachineInstr) → Decidable (m.StackInPlace globals i)
  | .sw _ base offset | .lw _ base offset =>
    inferInstanceAs (Decidable (base = Reg.stackPointer → (globals : Int) ≤ (m.reg base).toInt + offset))
  | .addi rd rs n => inferInstanceAs
    (Decidable (rd = Reg.stackPointer → rs = Reg.stackPointer → FitsSigned 32 ((m.reg rs).toInt + n)))
  | .alu .. | .shift .. | .branch .. | .jump .. | .jr .. | .setx .. | .testlog .. => .isTrue trivial

/-- A run of a program with the calls under way, in which the stack keeps to its place in functions. -/
inductive Runs (p : Program) (globals : Nat) (start : Machine) : Machine → List Activation → Prop where
  | start : Runs p globals start start []
  | step {m next : Machine} {acts : List Activation} {i : MachineInstr} (run : Runs p globals start m acts)
      (fetched : m.fetch? p = some i) (inPlace : acts ≠ [] → m.StackInPlace globals i)
      (steps : StepsTo p m next) : Runs p globals start next (m.activations i next acts)

/-- Follows a run for so many steps, as long as the stack keeps to its place. -/
def follow (p : Program) (globals : Nat) : Nat → Machine × List Activation → Option (Machine × List Activation)
  | 0, reached => some reached
  | n + 1, (m, acts) => do
    let i ← m.fetch? p
    if acts ≠ [] ∧ ¬ m.StackInPlace globals i then none
    else match m.execute i (m.pc + 1) with
      | (after, .ok x) => follow p globals n (after.goto x, m.activations i (after.goto x) acts)
      | (_, .error _) => none

theorem Runs.follow {p : Program} {globals n : Nat} {start m m' : Machine} {acts acts' : List Activation}
    (run : Runs p globals start m acts) (followed : Machine.follow p globals n (m, acts) = some (m', acts')) :
    Runs p globals start m' acts' := by
  induction n generalizing m acts with
  | zero =>
    cases followed
    exact run
  | succ n ih =>
    rw [Machine.follow] at followed
    obtain ⟨i, fetched, followed⟩ := Option.bind_eq_some_iff.1 followed
    split at followed
    · cases followed
    · next inPlace =>
      split at followed
      · next after x ran =>
        refine ih (run.step fetched (fun active => ?_) ⟨i, after, x, fetched, ran, rfl⟩) followed
        exact Classical.byContradiction fun out => inPlace ⟨active, out⟩
      · cases followed

end Machine

namespace Fits

variable {points : String → Point} {globals : Nat} {at' last mid : Option Point} {pt : Point}
  {es es' : List Entry} {e : Entry}

theorem append (first : Fits points globals at' es mid) (rest : Fits points globals mid es' last) :
    Fits points globals at' (es ++ es') last := by
  induction first with
  | nil => exact rest
  | cons here label flow _ ih => exact .cons here label flow (ih rest)

theorem of_append (fits : Fits points globals at' (es ++ es') last) :
    ∃ mid, Fits points globals at' es mid ∧ Fits points globals mid es' last := by
  induction es generalizing at' with
  | nil => exact ⟨at', .nil, fits⟩
  | cons e rest ih =>
    cases fits with
    | cons here label flow behind =>
      obtain ⟨mid, first, second⟩ := ih behind
      exact ⟨mid, .cons here label flow first, second⟩

/-- What is known at an entry. -/
theorem entry (fits : Fits points globals (some pt) (e :: es) last) :
    (∀ l, e.label = some l → points l = pt) ∧
      ∃ next, Flow points globals pt e.instr next ∧ Fits points globals next es last := by
  cases fits with
  | cons here label flow behind =>
    cases here _ rfl
    exact ⟨label, _, flow, behind⟩

/-- From the entry that a label stands at, control flows from the point of the label. -/
theorem at_label {l : String} {a : Nat} (fits : Fits points globals at' es last) (labelled : LabelAt es l a) :
    Fits points globals (some (points l)) (es.drop a) last := by
  obtain ⟨e, found, own⟩ := labelled
  have split : es = es.take a ++ e :: es.drop (a + 1) := by
    obtain ⟨inside, rfl⟩ := List.getElem?_eq_some_iff.1 found
    rw [← List.drop_eq_getElem_cons inside, List.take_append_drop]
  rw [split] at fits
  obtain ⟨mid, -, behind⟩ := of_append fits
  have rest : es.drop a = e :: es.drop (a + 1) := by
    obtain ⟨inside, rfl⟩ := List.getElem?_eq_some_iff.1 found
    exact List.drop_eq_getElem_cons inside
  rw [rest]
  cases behind with
  | cons here label flow behind =>
    exact .cons (fun other same => by rw [← label l own]; exact (Option.some.inj same).symm) label flow behind

/-- What control arrives at can be arrived at in any other way that agrees. -/
theorem arrive (fits : Fits points globals (some pt) (e :: es) last)
    (here : ∀ other, at' = some other → other = pt) : Fits points globals at' (e :: es) last := by
  obtain ⟨label, next, flow, behind⟩ := fits.entry
  exact .cons here label flow behind

end Fits

/-- Entries along which control gets from one point to another, unless it gets nowhere. -/
def Passes (points : String → Point) (globals : Nat) (pt : Point) (es : List Entry) (pt' : Point) : Prop :=
  ∃ last, Fits points globals (some pt) es last ∧ ∀ other, last = some other → other = pt'

namespace Passes

variable {points : String → Point} {globals : Nat} {pt mid pt' : Point} {es es' : List Entry}
  {i : MachineInstr} {l : String}

theorem nil : Passes points globals pt [] pt := ⟨_, .nil, fun _ same => (Option.some.inj same).symm⟩

theorem append (first : Passes points globals pt es mid) (rest : Passes points globals mid es' pt') :
    Passes points globals pt (es ++ es') pt' := by
  obtain ⟨last, fits, agrees⟩ := first
  obtain ⟨last', fits', agrees'⟩ := rest
  cases es' with
  | nil =>
    cases fits'
    rw [List.append_nil]
    exact ⟨last, fits, fun other same => (agrees other same).trans (agrees' mid rfl)⟩
  | cons e es' => exact ⟨last', fits.append (fits'.arrive agrees), agrees'⟩

theorem single (flow : Flow points globals pt i (some pt')) : Passes points globals pt [.plain i] pt' :=
  ⟨_, .cons (fun _ same => (Option.some.inj same).symm) (fun _ own => by cases own) flow .nil,
    fun _ same => (Option.some.inj same).symm⟩

/-- Behind an instruction that control never falls through, any point will do. -/
theorem halt (flow : Flow points globals pt i none) : Passes points globals pt [.plain i] pt' :=
  ⟨_, .cons (fun _ same => (Option.some.inj same).symm) (fun _ own => by cases own) flow .nil,
    fun _ same => by cases same⟩

theorem code {code : List MachineInstr} (flow : ∀ i ∈ code, Flow points globals pt i (some pt)) :
    Passes points globals pt (code.map .plain) pt := by
  induction code with
  | nil => exact .nil
  | cons i rest ih =>
    exact append (single (flow i List.mem_cons_self)) (ih fun j member => flow j (List.mem_cons_of_mem i member))

/-- A label stands where control is at its point. -/
theorem label (own : points l = pt) : Passes points globals pt [.labeled l MachineInstr.noop] pt :=
  ⟨_, .cons (fun _ same => (Option.some.inj same).symm) (fun _ same => by cases same; exact own)
    (.calm ⟨Reg.zero, rfl, by decide⟩) .nil, fun _ same => (Option.some.inj same).symm⟩

end Passes

namespace Machine

variable {points : String → Point} {globals : Nat} {es : List Entry} {p : Program}
  {m m' next after start : Machine} {acts rest : List Activation} {act outer : Activation} {i : MachineInstr}

/-- Whether the word so far below the entry of a function holds its return address. -/
def Keeps (globals : Nat) (m : Machine) (act : Activation) (depth : Nat) : Prop :=
  ∃ x : Nat, (x : Int) = act.stack.toInt - depth ∧ globals ≤ x ∧ m.cell? x = some act.link

/-- The calls under way return one after the other: behind each call the function around it goes on, with its
own return address in the stack, or the top level does. -/
inductive Waiting (points : String → Point) (globals : Nat) (es : List Entry) (m : Machine) :
    List Activation → Prop where
  | outermost {act : Activation} {a : Nat} {last : Option Point} (site : act.site = a)
      (small : a + 1 < 2 ^ 31) (link : act.link = Word.ofInt (a + 1 : Nat))
      (resumes : Fits points globals (some .outside) (es.drop (a + 1)) last) :
      Waiting points globals es m [act]
  | nested {act outer : Activation} {rest : List Activation} {a d k : Nat} {last : Option Point}
      (site : act.site = a) (small : a + 1 < 2 ^ 31) (link : act.link = Word.ofInt (a + 1 : Nat))
      (resumes : Fits points globals (some (.inside d (.kept k))) (es.drop (a + 1)) last) (below : k ≤ d)
      (stack : act.stack.toInt = outer.stack.toInt - d) (keeps : m.Keeps globals outer k)
      (others : Waiting points globals es m (outer :: rest)) :
      Waiting points globals es m (act :: outer :: rest)

/-- What a point says about the machine and the calls under way. -/
inductive Stands (points : String → Point) (globals : Nat) (es : List Entry) (m : Machine) :
    Point → List Activation → Prop where
  | outside : Stands points globals es m .outside []
  | held {act : Activation} {rest : List Activation} {d : Nat}
      (waiting : Waiting points globals es m (act :: rest))
      (stack : (m.reg Reg.stackPointer).toInt = act.stack.toInt - d)
      (link : m.reg Reg.returnAddress = act.link) :
      Stands points globals es m (.inside d .held) (act :: rest)
  | kept {act : Activation} {rest : List Activation} {d k : Nat}
      (waiting : Waiting points globals es m (act :: rest))
      (stack : (m.reg Reg.stackPointer).toInt = act.stack.toInt - d) (keeps : m.Keeps globals act k) :
      Stands points globals es m (.inside d (.kept k)) (act :: rest)

/-- A machine at an entry where it stands as the entries say. -/
structure OnTrack (points : String → Point) (globals : Nat) (es : List Entry) (m : Machine)
    (acts : List Activation) : Prop where
  zero : m.reg Reg.zero = 0
  stands : ∃ (a : Nat) (pt : Point) (last : Option Point), m.pc = a ∧
    Fits points globals (some pt) (es.drop a) last ∧ Stands points globals es m pt acts

/-! ### Memory -/

theorem Keeps.congr {k : Nat} (keeps : m.Keeps globals act k)
    (same : ∀ x : Nat, globals ≤ x → act.stack.toInt - k ≤ x → m'.cell? x = m.cell? x) :
    m'.Keeps globals act k := by
  obtain ⟨x, formed, high, cell⟩ := keeps
  exact ⟨x, formed, high, (same x high (Int.le_of_eq formed.symm)).trans cell⟩

/-- What the functions around the innermost one keep in the stack is above where that was entered. -/
theorem Waiting.congr (waiting : Waiting points globals es m (act :: rest))
    (same : ∀ x : Nat, globals ≤ x → act.stack.toInt ≤ x → m'.cell? x = m.cell? x) :
    Waiting points globals es m' (act :: rest) := by
  induction rest generalizing act with
  | nil =>
    cases waiting with
    | outermost site small link resumes => exact .outermost site small link resumes
  | cons outer rest ih =>
    cases waiting with
    | nested site small link resumes below stack keeps others =>
      refine .nested site small link resumes below stack (keeps.congr fun x high above => same x high ?_)
        (ih others fun x high above => same x high ?_)
      all_goals omega

theorem Stands.congr {pt : Point} (stands : Stands points globals es m pt acts)
    (memory : m'.memory = m.memory) (stack : m'.reg Reg.stackPointer = m.reg Reg.stackPointer)
    (link : m'.reg Reg.returnAddress = m.reg Reg.returnAddress) : Stands points globals es m' pt acts := by
  have same : ∀ x, m'.cell? x = m.cell? x := fun _ => cell?_of_memory memory
  cases stands with
  | outside => exact .outside
  | held waiting at' own =>
    exact .held (waiting.congr fun x _ _ => same x) (by rw [stack, at']) (by rw [link, own])
  | kept waiting at' keeps =>
    exact .kept (waiting.congr fun x _ _ => same x) (by rw [stack, at']) (keeps.congr fun x _ _ => same x)

theorem Stands.depth {d : Nat} {l : Link} (stands : Stands points globals es m (.inside d l) acts)
    (first : acts.head? = some act) : (m.reg Reg.stackPointer).toInt = act.stack.toInt - d := by
  cases stands with
  | held waiting stack link =>
    cases first
    exact stack
  | kept waiting stack keeps =>
    cases first
    exact stack

/-- A word of the function's own part of the stack, its return address apart, or a global word is written. -/
theorem Stands.stored {d x : Nat} {l : Link} {w : Word}
    (stands : Stands points globals es m (.inside d l) acts)
    (own : ∀ act : Activation, acts.head? = some act → x < globals ∨
      (x : Int) < act.stack.toInt ∧ ∀ k, l = .kept k → (x : Int) ≠ act.stack.toInt - k) :
    Stands points globals es (m.store x w) (.inside d l) acts := by
  have others : ∀ {act : Activation}, acts.head? = some act → ∀ y : Nat, globals ≤ y →
      act.stack.toInt ≤ y → (m.store x w).cell? y = m.cell? y := by
    intro act first y high above
    refine cell?_store_of_ne ?_
    rcases own act first with low | ⟨below, -⟩ <;> omega
  cases stands with
  | held waiting at' link => exact .held (waiting.congr (others rfl)) at' link
  | kept waiting at' keeps =>
    refine .kept (waiting.congr (others rfl)) at' ?_
    obtain ⟨y, formed, high, cell⟩ := keeps
    refine ⟨y, formed, high, (cell?_store_of_ne ?_).trans cell⟩
    rcases own _ rfl with low | ⟨-, apart⟩
    · omega
    · intro same
      exact apart _ rfl (by omega)

/-! ### Steps -/

theorem effect_zero (ran : m.effect i = .ok after) : after.reg Reg.zero = m.reg Reg.zero := by
  cases written : i.written? with
  | some r => exact (effect_writes written ran).zero
  | none =>
    cases i with
    | alu | shift | addi | lw => cases written
    | sw rd base offset =>
      simp only [effect] at ran
      split at ran <;> cases ran
      rfl
    | jump op t =>
      cases op with
      | j | bex =>
        cases ran
        rfl
      | jal =>
        cases ran
        exact reg_zero_setReg _ _ _
    | branch | jr | testlog =>
      cases ran
      rfl
    | setx value =>
      cases ran
      exact reg_zero_setReg _ _ _

theorem effect_calm (calm : i.Calm) (ran : m.effect i = .ok after) :
    after.memory = m.memory ∧ after.reg Reg.stackPointer = m.reg Reg.stackPointer ∧
      after.reg Reg.returnAddress = m.reg Reg.returnAddress := by
  obtain ⟨r, written, noStack, noLink⟩ := calm
  have writes := effect_writes written ran
  exact ⟨writes.memory, writes.others noStack.symm (by decide), writes.others noLink.symm (by decide)⟩

/-- The word that an instruction stores. -/
theorem effect_store {r base : Reg} {offset : Int} (ran : m.effect (.sw r base offset) = .ok after) :
    ∃ x : Nat, (x : Int) = (m.reg base).toInt + offset ∧ x < m.memory.size ∧
      after = m.store x (m.reg r) := by
  rcases m.address_cases base offset with ⟨a, found, formed⟩ | missing
  · simp only [effect, found] at ran
    cases ran
    exact ⟨a, formed, a.isLt, rfl⟩
  · simp only [effect, missing] at ran
    cases ran

/-- The word that an instruction loads. -/
theorem effect_load {r base : Reg} {offset : Int} (ran : m.effect (.lw r base offset) = .ok after) :
    ∃ x : Nat, (x : Int) = (m.reg base).toInt + offset ∧ after = m.setReg r ((m.cell? x).getD 0) := by
  rcases m.address_cases base offset with ⟨a, found, formed⟩ | missing
  · simp only [effect, found] at ran
    cases ran
    exact ⟨a, formed, rfl⟩
  · simp only [effect, missing] at ran
    cases ran

/-- Linking changes nothing about what an instruction does to the calls under way and to the stack. -/
theorem activations_linked {a : Nat} {linked : MachineInstr} (links : LinksTo es a i linked) :
    m.activations linked next acts = m.activations i next acts ∧
      (m.StackInPlace globals linked → m.StackInPlace globals i) := by
  cases i with
  | branch op rd rs t =>
    obtain ⟨d, -, rfl⟩ := links
    exact ⟨rfl, fun _ => trivial⟩
  | jump op t =>
    obtain ⟨d, -, rfl⟩ := links
    cases op <;> exact ⟨rfl, fun _ => trivial⟩
  | alu | shift | addi | sw | lw | jr | setx | testlog =>
    cases links
    exact ⟨rfl, id⟩

theorem onTrack_goto {pt : Point} {last : Option Point} {b : Nat} (zero : after.reg Reg.zero = 0)
    (fits : Fits points globals (some pt) (es.drop b) last) (stands : Stands points globals es after pt acts) :
    OnTrack points globals es (after.goto b) acts :=
  ⟨zero, b, pt, last, pc_goto_nat _ _, fits, stands.congr rfl rfl rfl⟩

/-- Behind a call, the calls under way are one more. -/
theorem Waiting.stands_at_entry {x : Int} {w : Word}
    (waiting : Waiting points globals es (m.setReg Reg.returnAddress w)
      (⟨m.pc, m.reg Reg.stackPointer, w⟩ :: acts)) :
    Stands points globals es (m.setReg Reg.returnAddress w) (.inside 0 .held)
      (⟨m.pc, ((m.setReg Reg.returnAddress w).goto x).reg Reg.stackPointer,
        ((m.setReg Reg.returnAddress w).goto x).reg Reg.returnAddress⟩ :: acts) := by
  have link : (m.setReg Reg.returnAddress w).reg Reg.returnAddress = w := reg_setReg_self _ _ _ (by decide)
  have stack : (m.setReg Reg.returnAddress w).reg Reg.stackPointer = m.reg Reg.stackPointer :=
    reg_setReg_of_ne _ _ (by decide)
  rw [reg_goto, reg_goto, link, stack]
  exact .held waiting (by rw [stack]; simp) link

/-- A step from an entry where the machine stands as the entries say leads to another one. -/
theorem OnTrack.step {last : Option Point} (track : OnTrack points globals es m acts) (linked : Linked es p)
    (fits : Fits points globals (some .outside) es last) (small : es.length < 2 ^ 31)
    (fetched : m.fetch? p = some i) (inPlace : acts ≠ [] → m.StackInPlace globals i)
    (steps : StepsTo p m next) : OnTrack points globals es next (m.activations i next acts) := by
  obtain ⟨a, pt, last', here, rest, stands⟩ := track.stands
  obtain ⟨⟨own, instr⟩, after, x, found, ran, goes, rfl⟩ := (stepsTo_iff linked here).1 steps
  obtain ⟨e, found', links⟩ := entry_of_fetch linked here fetched
  cases found.symm.trans found'
  obtain ⟨inside, split⟩ := List.getElem?_eq_some_iff.1 found
  rw [List.drop_eq_getElem_cons inside, split] at rest
  obtain ⟨-, further, flow, behind⟩ := rest.entry
  obtain ⟨same, placed⟩ : m.activations i (after.goto x) acts = m.activations instr (after.goto x) acts ∧
      (m.StackInPlace globals i → m.StackInPlace globals instr) := activations_linked links
  rw [same]
  have inPlace := fun active => placed (inPlace active)
  have zero : after.reg Reg.zero = 0 := (effect_zero ran).trans track.zero
  have onward : m.control instr = .onward → x = (a + 1 : Nat) := fun straight => by
    rw [straight] at goes
    change x = m.pc + 1 at goes
    omega
  have jumps : ∀ {l : String}, m.control instr = .label l → ∃ b : Nat, LabelAt es l b ∧ x = b := by
    intro l jumped
    rw [jumped] at goes
    exact goes
  have returns : ∀ {r}, m.control instr = .register r → x = (m.reg r).toInt := by
    intro r returned
    rw [returned] at goes
    exact goes
  clear fetched links same placed steps found found' split goes
  cases flow with
  | outside free stays =>
    cases stands
    have straight : m.control instr = .onward ∧ m.activations instr (after.goto x) [] = [] := by
      cases instr with
      | branch | jump => cases free
      | jr r => exact absurd rfl (stays r)
      | alu | shift | addi | sw | lw | setx | testlog => exact ⟨rfl, rfl⟩
    rw [straight.2, onward straight.1]
    exact onTrack_goto zero behind .outside
  | calm calm =>
    obtain ⟨memory, stack, link⟩ := effect_calm calm ran
    have straight : m.control instr = .onward ∧ m.activations instr (after.goto x) acts = acts := by
      obtain ⟨r, written, -⟩ := calm
      cases instr with
      | branch | jump | jr | sw | setx | testlog => cases written
      | alu | shift | addi | lw => exact ⟨rfl, rfl⟩
    rw [straight.2, onward straight.1]
    exact onTrack_goto zero behind (stands.congr memory stack link)
  | branch there =>
    cases ran
    cases control : m.control (.branch _ _ _ _) with
    | onward =>
      rw [onward control]
      exact onTrack_goto zero behind stands
    | label l =>
      obtain ⟨t, target, rfl⟩ := control_label control
      cases target
      obtain ⟨b, labelled, rfl⟩ := jumps control
      exact onTrack_goto zero (there ▸ fits.at_label labelled) stands
    | register r =>
      simp only [Machine.control] at control
      split at control <;> cases control
  | jump there =>
    cases ran
    obtain ⟨b, labelled, rfl⟩ := jumps rfl
    exact onTrack_goto zero (there ▸ fits.at_label labelled) stands
  | callOutside entry =>
    cases ran
    cases stands
    obtain ⟨b, labelled, rfl⟩ := jumps rfl
    exact onTrack_goto zero (entry ▸ fits.at_label labelled) (Waiting.stands_at_entry
      (.outermost here (by omega) (by rw [here]; rfl) behind))
  | callInside entry below =>
    cases ran
    obtain ⟨b, labelled, rfl⟩ := jumps rfl
    cases stands with
    | kept waiting stack keeps =>
      have same : ∀ y, (m.setReg Reg.returnAddress (Word.ofInt (m.pc + 1))).cell? y = m.cell? y :=
        fun _ => cell?_of_memory (memory_setReg _ _ _)
      exact onTrack_goto zero (entry ▸ fits.at_label labelled) (Waiting.stands_at_entry
        (.nested here (by omega) (by rw [here]; rfl) behind below stack
          (keeps.congr fun y _ _ => same y) (waiting.congr fun y _ _ => same y)))
  | move moved above =>
    rw [onward rfl]
    cases stands with
    | held waiting stack link =>
      obtain ⟨stack', memory, link'⟩ := effect_move_stack ran (inPlace (List.cons_ne_nil _ _) rfl rfl)
      exact onTrack_goto zero behind (.held (waiting.congr fun y _ _ => cell?_of_memory memory) (by omega)
        (link'.trans link))
    | kept waiting stack keeps =>
      obtain ⟨stack', memory, link'⟩ := effect_move_stack ran (inPlace (List.cons_ne_nil _ _) rfl rfl)
      exact onTrack_goto zero behind (.kept (waiting.congr fun y _ _ => cell?_of_memory memory) (by omega)
        (keeps.congr fun y _ _ => cell?_of_memory memory))
  | save below =>
    rw [onward rfl]
    cases stands with
    | held waiting stack link =>
      have high : (globals : Int) ≤ (m.reg Reg.stackPointer).toInt + 0 := inPlace (List.cons_ne_nil _ _) rfl
      obtain ⟨y, formed, within, rfl⟩ := effect_store ran
      refine onTrack_goto zero behind (.kept (waiting.congr fun z _ above => ?_) stack ⟨y, by omega, by omega, ?_⟩)
      · exact cell?_store_of_ne (by omega)
      · rw [cell?_store_self within, link]
  | restore =>
    rw [onward rfl]
    cases stands with
    | kept waiting stack keeps =>
      obtain ⟨y, formed, rfl⟩ := effect_load ran
      obtain ⟨z, formed', -, cell⟩ := keeps
      have same : y = z := by omega
      subst same
      refine onTrack_goto zero behind (.held (waiting.congr fun z _ _ => cell?_of_memory (memory_setReg _ _ _))
        ?_ ?_)
      · rw [reg_setReg_of_ne _ _ (by decide), stack]
      · rw [reg_setReg_self _ _ _ (by decide), cell]
        rfl
  | store below apart =>
    rw [onward rfl]
    obtain ⟨y, formed, -, rfl⟩ := effect_store ran
    refine onTrack_goto zero behind (stands.stored fun act first => .inr ?_)
    have stack := stands.depth first
    refine ⟨by omega, fun k same => ?_⟩
    have := apart k same
    omega
  | write low =>
    rw [onward rfl]
    obtain ⟨y, formed, -, rfl⟩ := effect_store ran
    refine onTrack_goto zero behind (stands.stored fun act first => .inl ?_)
    rw [track.zero] at formed
    have nought : (0 : Word).toInt = 0 := rfl
    omega
  | back =>
    cases ran
    cases stands with
    | held waiting stack link =>
      have target := returns rfl
      rw [link] at target
      cases waiting with
      | outermost site small' own resumes =>
        rw [own, word_ofInt_toInt small'] at target
        rw [target]
        exact onTrack_goto zero resumes .outside
      | nested site small' own resumes below stack' keeps others =>
        rw [own, word_ofInt_toInt small'] at target
        rw [target]
        exact onTrack_goto zero resumes (.kept others (by omega) keeps)

/-- A machine that sets out from the first entry stays on track. -/
theorem Runs.onTrack {last : Option Point} (run : Runs p globals start m acts) (linked : Linked es p)
    (fits : Fits points globals (some .outside) es last) (small : es.length < 2 ^ 31)
    (zero : start.reg Reg.zero = 0) (begins : start.pc = 0) : OnTrack points globals es m acts := by
  induction run with
  | start => exact ⟨zero, 0, .outside, last, begins, fits, .outside⟩
  | step run fetched inPlace steps ih => exact ih.step linked fits small fetched inPlace steps

/-- Where a function returns, the stack pointer and the return address are what they were on entry, and the
return address is that of the instruction behind the call. -/
theorem OnTrack.returns {r : Reg} (track : OnTrack points globals es m acts) (linked : Linked es p)
    (fetched : m.fetch? p = some (.jr r)) : ∃ act rest, acts = act :: rest ∧ r = Reg.returnAddress ∧
      m.reg Reg.stackPointer = act.stack ∧ m.reg Reg.returnAddress = act.link ∧
      0 ≤ act.site ∧ (m.reg Reg.returnAddress).toInt = act.site + 1 := by
  obtain ⟨a, pt, last, here, rest, stands⟩ := track.stands
  obtain ⟨⟨own, instr⟩, found, links⟩ := entry_of_fetch linked here fetched
  obtain ⟨inside, split⟩ := List.getElem?_eq_some_iff.1 found
  rw [List.drop_eq_getElem_cons inside, split] at rest
  obtain ⟨-, further, flow, -⟩ := rest.entry
  have returns : instr = .jr r := by
    cases instr with
    | branch | jump =>
      obtain ⟨d, -, linked⟩ := links
      cases linked
    | alu | shift | addi | sw | lw | setx | testlog => cases links
    | jr =>
      cases links
      rfl
  subst returns
  cases flow with
  | outside free stays => exact absurd rfl (stays r)
  | calm calm =>
    obtain ⟨q, written, -⟩ := calm
    cases written
  | back =>
    cases stands with
    | @held act _ _ waiting stack link =>
      have behind : 0 ≤ act.site ∧ act.link.toInt = act.site + 1 := by
        cases waiting with
        | outermost site small own resumes =>
          rw [own, word_ofInt_toInt small, site]
          exact ⟨Int.natCast_nonneg _, rfl⟩
        | nested site small own resumes below stack' keeps others =>
          rw [own, word_ofInt_toInt small, site]
          exact ⟨Int.natCast_nonneg _, rfl⟩
      refine ⟨_, _, rfl, rfl, BitVec.eq_of_toInt_eq (by rw [stack]; simp), link, behind.1, ?_⟩
      rw [link, behind.2]

end Machine

end SmallC
