import SmallC.Proofs.Generation.Passages

/-!
Assembly blocks that control runs through and that store nothing. The registers that a block names are vacant while it
runs, and each variable that it names is in a register of its own, or in that of another name for it. So a block changes
no variable but those that it names as destinations, and behind it each of these has what was left in its register.
-/
namespace SmallC

open Alloc Allocator Machine

/-! ### Instructions -/

/-- An instruction that stores nothing and leaves control where it is. -/
def Instr.Quiet {R L : Type} : Instr R L → Prop
  | .sw .. | .branch .. | .jump .. | .jr _ => False
  | _ => True

variable {m m' : Machine} {base : Int} {size : Nat} {last : VarId → Option Word} {a a' : Allocator} {w w' : Work}
  {id : VarId} {v : Variable} {r : Reg} {name : String} {x : Word}

namespace Machine

theorem effect_quiet {i : MachineInstr} (quiet : i.Quiet) (done : m.effect i = .ok m') : m'.memory = m.memory ∧
    m'.reg Reg.zero = m.reg Reg.zero ∧ ∀ {q}, q ≠ Reg.status → i.written? ≠ some q → m'.reg q = m.reg q := by
  have writes : ∀ {r}, i.written? = some r → m'.memory = m.memory ∧ m'.reg Reg.zero = m.reg Reg.zero ∧
      ∀ {q}, q ≠ Reg.status → i.written? ≠ some q → m'.reg q = m.reg q := fun written =>
    have writes := effect_writes written done
    ⟨writes.memory, writes.zero, fun noStatus spared =>
      writes.others (fun same => spared (same ▸ written)) noStatus⟩
  cases i with
  | alu | shift | addi | lw => exact writes rfl
  | setx value =>
    cases done
    have writes := writes_setReg (m := m) (r := Reg.status) (Word.ofInt value)
    exact ⟨writes.memory, writes.zero, fun noStatus _ => writes.others noStatus noStatus⟩
  | testlog rd =>
    cases done
    exact ⟨rfl, rfl, fun _ _ => rfl⟩
  | sw | branch | jump | jr => exact quiet.elim

theorem performs_quiet {code : List MachineInstr} (quiet : ∀ i ∈ code, i.Quiet) (done : m.performs code = .ok m') :
    m'.memory = m.memory ∧ m'.reg Reg.zero = m.reg Reg.zero ∧
      ∀ {q}, q ≠ Reg.status → (∀ i ∈ code, i.written? ≠ some q) → m'.reg q = m.reg q := by
  induction code generalizing m with
  | nil =>
    cases done
    exact ⟨rfl, rfl, fun _ _ => rfl⟩
  | cons i rest ih =>
    obtain ⟨mid, first, done⟩ := performs_uncons done
    obtain ⟨memory, zero, others⟩ := effect_quiet (quiet i List.mem_cons_self) first
    obtain ⟨memory', zero', others'⟩ := ih (fun i member => quiet i (.tail _ member)) done
    exact ⟨memory'.trans memory, zero'.trans zero, fun noStatus spared =>
      (others' noStatus fun i member => spared i (.tail _ member)).trans
        (others noStatus (spared i List.mem_cons_self))⟩

end Machine

/-! ### Values that are lost and learned -/

/-- Less is known of the values of variables. -/
theorem AtRest.forget {last' : VarId → Option Word} (rest : AtRest base size last a m)
    (less : ∀ {id x}, last' id = some x → last id = some x) : AtRest base size last' a m where
  sound := rest.sound
  idle := rest.idle
  tidy := rest.tidy
  bearing := by
    refine ⟨rest.bearing.toBased, fun {id} beyond => ?_, fun found valued => rest.bearing.bears found (less valued)⟩
    cases valued : last' id with
    | none => rfl
    | some x => cases (rest.bearing.fresh beyond).symm.trans (less valued)

/-- The machine comes to hold a value wherever the allocator looks for that of a variable. -/
theorem AtRest.gain (rest : AtRest base size (Function.update last id none) a m) (found : a.var? id = some v)
    (bears : v.Bears base m x) : AtRest base size (Function.update last id (some x)) a m where
  sound := rest.sound
  idle := rest.idle
  tidy := rest.tidy
  bearing := by
    refine ⟨rest.bearing.toBased, fun {i} beyond => ?_, fun {i u y} known valued => ?_⟩
    · have apart : i ≠ id := by
        rintro rfl
        exact Nat.not_lt.2 beyond (var?_lt found)
      have unknown := rest.bearing.fresh beyond
      rwa [Function.update_of_ne apart] at unknown ⊢
    · by_cases same : i = id
      · subst same
        cases found.symm.trans known
        cases (Function.update_self ..).symm.trans valued
        exact bears
      · refine rest.bearing.bears known ?_
        rwa [Function.update_of_ne same] at valued ⊢

/-- Code that stores nothing and writes only vacant registers and those of variables whose values do not count. -/
theorem AtRest.overwritten {code : List MachineInstr} (rest : AtRest base size last a m)
    (quiet : ∀ i ∈ code, i.Quiet) (aside : ∀ i ∈ code, i.written? ≠ some Reg.stackPointer)
    (own : ∀ i ∈ code, ∀ {id v r}, i.written? = some r → a.var? id = some v → v.storage = .register r → last id = none)
    (done : m.performs code = .ok m') : AtRest base size last a m' := by
  obtain ⟨memory, zero, others⟩ := performs_quiet quiet done
  refine ⟨rest.sound, rest.idle, rest.tidy, ⟨zero.trans rest.bearing.zero, ?_, ?_⟩, rest.bearing.fresh,
    fun {id v x} found valued => ?_⟩
  · rw [others (by decide) aside, rest.bearing.stack]
  · rw [memory, rest.bearing.memory]
  · refine (rest.bearing.bears found valued).still memory fun {r} there => ?_
    refine others (rest.tidy.carried found there).ne.2.2.1 fun i member written => ?_
    cases (own i member written found there).symm.trans valued

/-! ### Noting what was written -/

/-- A variable whose register may be written: no array, and no temporary that a pointer may change. -/
structure Variable.Assignable (v : Variable) : Prop where
  scalar : v.array = none
  settled : v.isTemp = true → v.mustReload = false

theorem Variable.Assignable.same {v' : Variable} (assignable : v.Assignable) (same : v.Same v') : v'.Assignable :=
  ⟨same.array.trans assignable.scalar, fun isTemp =>
    same.mustReload.trans (assignable.settled (same.isTemp.symm.trans isTemp))⟩

/-- A variable in a register that is as new as its home has the value there. -/
theorem Variable.bears_of_register (assignable : v.Assignable) (there : v.storage = .register r) (holds : m.reg r = x)
    (home : v.isTemp = false → v.isDirty = false → ∀ {home}, v.home = some home → m.cellOf? base home = some x) :
    v.Bears base m x where
  address is := by cases assignable.scalar.symm.trans is
  register there' _ := by
    cases there.symm.trans there'
    exact holds
  memory _ stands := by cases there.symm.trans stands
  home {r' home'} _ _ clean shared has := by
    cases isTemp : v.isTemp with
    | false => exact home isTemp clean has
    | true =>
      obtain isNamed | reloads := shared
      · cases isNamed.symm.trans isTemp
      · cases reloads.symm.trans (assignable.settled isTemp)

/-- What is noted of a variable whose register was written. -/
theorem ran_markWritten_of {u : Unit} (named : w.allocator.find? name = some id) (found : w.allocator.var? id = some v)
    (there : v.storage = .register r) (ran : Ran (markWritten name) w u w') :
    (v.isTemp = true ∧ w' = w) ∨ v.isTemp = false ∧
      ((v.mustReload = true ∧ ∃ home address, v.home = some home ∧ address? w.allocator home = some address ∧
          w'.allocator.var? id = some { v with isDirty := false } ∧
          w'.code = w.code.push (.sw r address.base address.offset)) ∨
        w'.allocator.var? id = some { v with isDirty := true } ∧ w'.code = w.code) := by
  obtain ⟨id', v', named', found', ⟨isTemp, same⟩ | ⟨isNamed, mid, rfl, ⟨s, reloads, there', wrote⟩ | ⟨-, rfl⟩⟩⟩ :=
    ran_markWritten ran
  · cases named.symm.trans named'
    cases found.symm.trans found'
    exact .inl ⟨isTemp, same⟩
  · cases named.symm.trans named'
    cases found.symm.trans found'
    cases there.symm.trans there'
    have noted := var?_setVar_self found { v with isDirty := true }
    obtain ⟨u, home, address, found', has, known, rfl⟩ := ran_writeBack.1 wrote
    cases noted.symm.trans found'
    exact .inr ⟨isNamed, .inl ⟨reloads, home, address, has, known, var?_setVar_self noted _, rfl⟩⟩
  · cases named.symm.trans named'
    cases found.symm.trans found'
    exact .inr ⟨isNamed, .inr ⟨var?_setVar_self found _, rfl⟩⟩

/-- Behind the note that its register was written a variable has the value that is in the register. -/
theorem AtRest.mark {u : Unit} (rest : AtRest base size last w.allocator m) (room : Room base size w'.allocator)
    (named : w.allocator.find? name = some id) (found : w.allocator.var? id = some v)
    (there : v.storage = .register r) (assignable : v.Assignable) (ran : Ran (markWritten name) w u w') :
    ∃ code m', w'.code.toList = w.code.toList ++ code ∧ m.performs code = .ok m' ∧
      AtRest base size (Function.update last id (some (m.reg r))) w'.allocator m' ∧ m'.reg = m.reg := by
  have sound := rest.sound
  -- The register is newer than what is known of the value, so that the deeds are done as if there were none.
  have rest : AtRest base size (Function.update last id none) w.allocator m := by
    refine rest.forget fun {i y} valued => ?_
    by_cases same : i = id
    · rw [same, Function.update_self] at valued
      cases valued
    · rwa [Function.update_of_ne same] at valued
  obtain ⟨code, emitted, deeds⟩ := does_markWritten (K := (· = id)) (T := fun _ => False) sound
    (fun named' => Option.some.inj (named'.symm.trans named)) ran
  obtain ⟨⟨m', done, bearing, -⟩, -⟩ := deeds.performs rest.tidy room (fun _ => False.elim)
    (fun same => by rw [same, Function.update_self]) rest.bearing
  have rest' : AtRest base size (Function.update last id none) w'.allocator m' :=
    ⟨markWritten_sound sound ran, (markWritten_calls ran).trans rest.idle,
      deeds.tidy rest.tidy fun _ => False.elim, bearing⟩
  obtain ⟨isTemp, rfl⟩ | ⟨isNamed, ⟨reloads, home, address, has, known, found', code'⟩ | ⟨found', code'⟩⟩ :=
    ran_markWritten_of named found there ran
  · cases List.append_cancel_left ((List.append_nil _).trans emitted)
    cases done
    refine ⟨[], m, emitted, rfl, rest'.gain found
      (Variable.bears_of_register assignable there rfl fun isNamed => ?_), rfl⟩
    cases isNamed.symm.trans isTemp
  · rw [code', Array.toList_push] at emitted
    cases List.append_cancel_left emitted
    obtain ⟨n, at_, inside⟩ := (room.of_grows deeds.onward.toGrows).inside (rest.tidy.granted found has)
    rw [← rest.bearing.memory] at inside
    have stored := effect_sw (r := r) ((rest.bearing.formed known).trans at_) inside
    cases (performs_one.trans stored).symm.trans done
    refine ⟨_, _, by rw [code', Array.toList_push], performs_one.trans stored, rest'.gain found'
      (Variable.bears_of_register (r := r) ⟨assignable.scalar, assignable.settled⟩ there rfl
        fun _ _ {h} has' => ?_), rfl⟩
    cases has.symm.trans has'
    rw [cellOf?, at_, Int.toNat_natCast]
    exact cell?_store_self inside
  · rw [code'] at emitted
    cases List.append_cancel_left ((List.append_nil _).trans emitted)
    cases done
    refine ⟨[], m, by rw [code', List.append_nil], rfl, rest'.gain found'
      (Variable.bears_of_register (r := r) ⟨assignable.scalar, assignable.settled⟩ there rfl fun _ clean => ?_), rfl⟩
    cases clean

theorem markWritten_keeps {u : Unit} (ran : Ran (markWritten name) w u w') :
    (∀ other, w'.allocator.find? other = w.allocator.find? other) ∧
      ∀ {i v}, w.allocator.var? i = some v →
        ∃ v', w'.allocator.var? i = some v' ∧ v.Same v' ∧ v'.storage = v.storage := by
  have noted : ∀ {b : Allocator} {j : VarId} {u : Variable} (dirty : Bool), b.var? j = some u → ∀ {i v},
      b.var? i = some v → ∃ v', (b.setVar j { u with isDirty := dirty }).var? i = some v' ∧ v.Same v' ∧
        v'.storage = v.storage := by
    intro b j u dirty known i v found
    by_cases same : i = j
    · subst same
      cases known.symm.trans found
      exact ⟨_, var?_setVar_self known _, ⟨rfl, rfl, rfl, rfl, rfl, rfl, rfl, rfl, fun has => has⟩, rfl⟩
    · exact ⟨v, (var?_setVar_of_ne same).trans found, .refl v, rfl⟩
  obtain ⟨id, v, -, found, ⟨-, rfl⟩ | ⟨-, mid, rfl, ⟨r, -, -, wrote⟩ | ⟨-, rfl⟩⟩⟩ := ran_markWritten ran
  · exact ⟨fun _ => rfl, fun {i v} known => ⟨v, known, .refl v, rfl⟩⟩
  · obtain ⟨u, home, address, found', has, known, rfl⟩ := ran_writeBack.1 wrote
    refine ⟨fun _ => rfl, fun {i v} known => ?_⟩
    obtain ⟨v', known', same, storage⟩ := noted true found known
    obtain ⟨v'', known'', same', storage'⟩ := noted false found' known'
    exact ⟨v'', known'', same.trans same', storage'.trans storage⟩
  · exact ⟨fun _ => rfl, noted true found⟩

/-! ### Reserved registers -/

theorem unreserveAll_names {u : Unit} (ran : Ran unreserveAll w u w') (name : String) :
    w'.allocator.find? name = w.allocator.find? name := by
  simp only [unreserveAll, ran_bind, ran_look, ran_change, and_assoc, exists_and_left, exists_eq_left,
    exists_const] at ran
  refine ran.forM (P := fun mid => mid.allocator.find? name = w.allocator.find? name) rfl
    fun s _ mid mid' kept ran => ?_
  simp only [ran_bind, ran_look, ran_ite, ran_release, ran_pure, and_assoc, exists_and_left, exists_eq_left] at ran
  obtain ⟨-, rfl⟩ | ⟨-, -, rfl⟩ := ran
  · exact kept
  · exact kept

/-- What reserving a register leaves as it is. -/
theorem reserve_recalls {K : VarId → Prop} {u : Unit} (sound : Sound [] w.allocator) (ran : Ran (reserve r) w u w') :
    Recalls K w.allocator w'.allocator := by
  obtain ⟨code, -, deeds⟩ := does_reserve (K := fun _ => False) (T := w.allocator.Open) sound (fun _ it => it) ran
  obtain ⟨mid, rfl, ⟨-, rfl⟩ | ⟨id, target, taken, u, -, took, known, rfl⟩⟩ := ran_reserve ran
  · exact ⟨deeds.onward, rfl, rfl, fun _ found => ⟨_, found, .refl _⟩, fun _ none => none⟩
  · have sound' : Sound [] (on (fun a => { a with held := if r ∈ a.held then a.held else r :: a.held }) w).allocator :=
      sound.congr (fun _ => Iff.rfl) rfl
    have keeps := (Keeps.hold w.allocator r).trans (takes sound' took).keeps
    have vars := var?_bound (a := taken.allocator.setOwner r none) (r := target) (v := u) known
    refine ⟨deeds.onward, keeps.root, keeps.inner, fun {i v} _ found => ?_, fun {i} _ none => ?_⟩
    · obtain ⟨v', found', same⟩ := keeps.same found
      by_cases own : i = id
      · subst own
        cases known.symm.trans found'
        exact ⟨_, (vars i).trans (if_pos rfl), same.trans ⟨rfl, rfl, rfl, rfl, rfl, rfl, rfl, rfl, fun has => has⟩⟩
      · exact ⟨v', ((vars i).trans (if_neg own)).trans found', same⟩
    · have absent := keeps.absent none
      refine ((vars i).trans (if_neg ?_)).trans absent
      rintro rfl
      cases known.symm.trans absent

namespace Gen

variable {c : Context} {p p' mid : Progress} {m'' : Machine} {bound bound' : List (String × Reg)} {line : Nat}

/-- Registers are made ready: variables keep their values and names, and registers that were not to be had what they
held. -/
structure Readies (base : Int) (size : Nat) (last : VarId → Option Word) (p : Progress) (m : Machine) (p' : Progress)
    (m' : Machine) : Prop where
  passes : Passage base size (fun _ => True) p last m p' last m'
  keeping : Keeping last p.allocator p'.allocator m m'
  names : ∀ name, p'.allocator.find? name = p.allocator.find? name

namespace Readies

theorem refl (rest : AtRest base size last p.allocator m) : Readies base size last p m p m :=
  ⟨.refl rest, .refl .., fun _ => rfl⟩

theorem trans (first : Readies base size last p m mid m') (second : Readies base size last mid m' p' m'') :
    Readies base size last p m p' m'' :=
  ⟨first.passes.trans second.passes, first.keeping.trans second.keeping, fun name =>
    (second.names name).trans (first.names name)⟩

end Readies

/-- A register that no variable is in, and that none comes to. -/
structure Cleared (a : Allocator) (r : Reg) : Prop where
  vacant : a.Vacant r
  shut : ¬ a.Open r

theorem Cleared.readies (aside : Cleared p.allocator r) (readies : Readies base size last p m p' m') :
    Cleared p'.allocator r :=
  ⟨readies.keeping.vacant aside.shut aside.vacant, fun opens => aside.shut (readies.keeping.closed opens)⟩

theorem reserve_readies {u : Unit} (rest : AtRest base size last p.allocator m) (room : Room base size p'.allocator)
    (ran : (alloc do
      Alloc.reserve r
      Alloc.hold r).exec c p = .ok (u, p')) :
    ∃ m', Readies base size last p m p' m' ∧ Cleared p'.allocator r := by
  obtain ⟨w, did, rfl⟩ := exec_alloc ran
  obtain ⟨_, w₁, reserved, holds⟩ := ran_bind.1 did
  cases ran_hold.1 holds
  have onward : Onward w₁.allocator
      { w₁.allocator with held := if r ∈ w₁.allocator.held then w₁.allocator.held else r :: w₁.allocator.held } :=
    .hold _ r
  obtain ⟨code, m', emitted, done, rest', keeping, vacant, names, -⟩ :=
    AtRest.reserve (w := ⟨p.allocator, #[]⟩) rest (room.of_grows onward.toGrows) reserved
  have recalls := reserve_recalls (K := fun _ => True) (w := ⟨p.allocator, #[]⟩) rest.sound reserved
  have held : Keeping last w₁.allocator
      { w₁.allocator with held := if r ∈ w₁.allocator.held then w₁.allocator.held else r :: w₁.allocator.held }
      m' m' := by
    refine ⟨.of_held fun member => ?_, fun _ vacant => vacant, fun _ _ secures => ⟨secures.holds, secures.own⟩⟩
    change _ ∈ if r ∈ w₁.allocator.held then w₁.allocator.held else r :: w₁.allocator.held
    split
    · exact member
    · exact .tail _ member
  obtain ⟨code', emitted', deeds⟩ := does_reserve (K := fun _ => False) (T := p.allocator.Open)
    (w := ⟨p.allocator, #[]⟩) rest.sound (fun _ it => it) reserved
  cases List.append_cancel_left (emitted.symm.trans emitted')
  have bypasses : Bypasses base p.allocator m w₁.allocator m' :=
    deeds.bypasses rest.tidy (room.of_grows onward.toGrows) (fun _ => Open.carries) False.elim rest.bearing done
  refine ⟨m', ⟨.of_work rest emitted done ?_ (recalls.trans ?_) (bypasses.trans (.aside onward fun _ => rfl)),
    keeping.trans held, names⟩, vacant, fun opens => ?_⟩
  · exact ⟨rest'.sound.congr (fun _ => Iff.rfl) rfl, rest'.idle, rest'.tidy.congr onward fun _ => rfl,
      rest'.bearing.fewer onward fun found => .inl found⟩
  · exact ⟨onward, rfl, rfl, fun _ found => ⟨_, found, .refl _⟩, fun _ none => none⟩
  · exact opens.2 (mem_held_hold _ r)

theorem reserveAll_readies {regs : List Reg} {u : Unit} (rest : AtRest base size last p.allocator m)
    (room : Room base size p'.allocator)
    (ran : (regs.forM fun r => alloc do
      Alloc.reserve r
      Alloc.hold r).exec c p = .ok (u, p')) :
    ∃ m', Readies base size last p m p' m' ∧ ∀ r ∈ regs, Cleared p'.allocator r := by
  induction regs generalizing p m with
  | nil =>
    cases ran
    exact ⟨m, .refl rest, fun _ none => (List.not_mem_nil none).elim⟩
  | cons r regs ih =>
    obtain ⟨_, mid, reserved, ran⟩ := exec_bind_ok ran
    have enlarges : Enlarges c (regs.forM fun r => alloc do
        Alloc.reserve r
        Alloc.hold r) := .forM (fun _ => .alloc (.bind growing_reserve fun _ => growing_hold)) _
    obtain ⟨m₁, first, aside⟩ := reserve_readies rest (room.of_grows (enlarges _ _ _ ran)) reserved
    obtain ⟨m₂, second, others⟩ := ih first.passes.rest ran
    refine ⟨m₂, first.trans second, fun s member => ?_⟩
    obtain rfl | member := List.mem_cons.1 member
    · exact aside.readies second
    · exact others s member

/-! ### Binding variables -/

/-- A name stands for a variable in a register that is held, which has the value of the variable if it has one. -/
structure Seated (last : VarId → Option Word) (a : Allocator) (m : Machine) (name : String) (r : Reg) (id : VarId)
    (v : Variable) : Prop where
  named : a.find? name = some id
  found : a.var? id = some v
  there : v.storage = .register r
  held : r ∈ a.held
  value : ∀ {x}, last id = some x → m.reg r = x

/-- What is bound stays so while other variables are. -/
theorem Seated.keeps (seat : Seated last a m name r id v) (tidy : Tidy a) (keeps : Keeps a a')
    (keeping : Keeping last a a' m m') : ∃ v', Seated last a' m' name r id v' := by
  obtain ⟨v', found', there'⟩ := keeps.still seat.found seat.there seat.held
  refine ⟨v', (keeps.find? name).trans seat.named, found', there', keeps.held seat.held, fun valued => ?_⟩
  have secures : Secures last a m r _ :=
    ⟨seat.value valued, fun found there => by rw [tidy.alone found seat.found there seat.there, valued]⟩
  have noStatus := (tidy.carried seat.found seat.there).ne.2.2.1
  exact (keeping.secures (fun opens => opens.2 seat.held) noStatus secures).holds

/-- The register that a variable is read into stays its own. -/
theorem fetch_binds (rest : AtRest base size last p.allocator m) (room : Room base size p'.allocator)
    (ran : (fetch name).exec c p = .ok (r, p')) :
    ∃ m', Readies base size last p m p' m' ∧ Keeps p.allocator p'.allocator ∧
      ∃ id v, Seated last p'.allocator m' name r id v := by
  obtain ⟨w, reads, rfl⟩ := exec_fetch ran
  obtain ⟨keeps, held, id, v, named, found, there⟩ := getRegister_reads (w := ⟨p.allocator, #[]⟩) rest.sound reads
  obtain ⟨code, emitted, deeds⟩ := does_getRegister (K := fun _ => False) (T := p.allocator.Open)
    (w := ⟨p.allocator, #[]⟩) rest.sound (fun _ it => it) reads
  obtain ⟨⟨m', done, bearing, secures⟩, -⟩ :=
    deeds.performs rest.tidy room (fun _ => Open.carries) False.elim rest.bearing
  have rest' : AtRest base size last w.allocator m' := ⟨getRegister_sound (w := ⟨p.allocator, #[]⟩) rest.sound reads,
    keeps.calls.trans rest.idle, deeds.tidy rest.tidy fun _ => Open.carries, bearing⟩
  have bypasses := deeds.bypasses rest.tidy room (fun _ => Open.carries) False.elim rest.bearing done
  refine ⟨m', ⟨.of_work rest emitted done rest' (.of_keeps keeps) bypasses,
    ⟨.of_held keeps.held, deeds.vacant rest.tidy fun _ => Open.carries, secures⟩, keeps.find?⟩, keeps, id, v, named,
    found, there, held, fun valued => ?_⟩
  have named' := (keeps.find? name).symm.trans named
  exact reg_of_read (w := ⟨p.allocator, #[]⟩) rest.sound rest.tidy room rest.bearing named' valued reads emitted done

theorem enlarges_bindOperands (names : List String) : Enlarges c (bindOperands line bound names) := by
  induction names generalizing bound with
  | nil => exact .pure _
  | cons name names ih =>
    have rest : Enlarges c (do
        let r ← fetch name
        bindOperands line ((name, r) :: bound) names) := .bind (enlarges_fetch name) fun _ => ih
    unfold bindOperands
    refine .ite ih (.bind (fun _ _ _ ran => ?_) fun _ => .ite (.bind (fun _ _ _ ran => ?_) fun _ => rest) rest)
    · cases ran
      exact .refl _
    · cases ran

/-- Every name among the operands is bound. -/
theorem bindOperands_binds {names : List String} (rest : AtRest base size last p.allocator m)
    (room : Room base size p'.allocator)
    (before : ∀ name r, bound.lookup name = some r → ∃ id v, Seated last p.allocator m name r id v)
    (ran : (bindOperands line bound names).exec c p = .ok (bound', p')) :
    ∃ m', Readies base size last p m p' m' ∧
      (∀ name r, bound'.lookup name = some r → ∃ id v, Seated last p'.allocator m' name r id v) ∧
      ∀ name, (bound.lookup name).isSome ∨ name ∈ names → (bound'.lookup name).isSome := by
  induction names generalizing p m bound with
  | nil =>
    cases ran
    exact ⟨m, .refl rest, before, fun name some => some.resolve_right List.not_mem_nil⟩
  | cons name names ih =>
    unfold bindOperands at ran
    split at ran
    · next known =>
      obtain ⟨m', readies, binds, all⟩ := ih rest before ran
      refine ⟨m', readies, binds, fun other among => all other ?_⟩
      obtain some | among := among
      · exact .inl some
      · obtain rfl | among := List.mem_cons.1 among
        · exact .inl known
        · exact .inr among
    · obtain ⟨isDefined, p₁, looked, ran⟩ := exec_bind_ok ran
      cases looked
      split at ran
      · obtain ⟨_, p₁, failed, -⟩ := exec_bind_ok ran
        cases failed
      obtain ⟨r, p₁, fetched, ran⟩ := exec_bind_ok ran
      obtain ⟨m₁, first, keeps, here⟩ := fetch_binds rest (room.of_grows (enlarges_bindOperands _ _ _ _ ran)) fetched
      have bindings : ∀ other s, ((name, r) :: bound).lookup other = some s →
          ∃ id v, Seated last p₁.allocator m₁ other s id v := by
        intro other s looked
        by_cases same : other = name
        · rw [same, List.lookup_cons_self] at looked
          cases looked
          exact same ▸ here
        · rw [List.lookup_cons, beq_false_of_ne same] at looked
          obtain ⟨id, v, binds⟩ := before other s looked
          exact ⟨id, binds.keeps rest.tidy keeps first.keeping⟩
      obtain ⟨m₂, second, binds, all⟩ := ih first.passes.rest bindings ran
      refine ⟨m₂, first.trans second, binds, fun other among => all other ?_⟩
      by_cases same : other = name
      · exact .inl (by rw [same, List.lookup_cons_self, Option.isSome_some])
      · rw [List.lookup_cons, beq_false_of_ne same]
        exact among.imp_right fun member => (List.mem_cons.1 member).resolve_left same

/-! ### Lines -/

/-- The register of an operand, if those of variables are given. -/
def boundRegister? (bound : List (String × Reg)) (o : Operand) : Option Reg :=
  o.reg?.or (o.var?.bind fun name => bound.lookup name)

end Gen

namespace AsmLine

variable {l : AsmLine}

/-- A line without a label that stores nothing, leaves control where it is and leaves the stack pointer alone. -/
structure Straight (l : AsmLine) : Prop where
  unlabelled : l.label = none
  quiet : ∀ i, l.instr = some i → i.Quiet
  aside : Operand.reg Reg.stackPointer ∉ l.operands

theorem Straight.unreferring (straight : l.Straight) : l.reference? = none := by
  unfold reference?
  cases is : l.instr with
  | none => rfl
  | some i =>
    have quiet := straight.quiet i is
    cases i with
    | branch | jump => exact quiet.elim
    | alu | shift | addi | sw | lw | jr | setx | testlog => rfl

theorem written?_mem {o : Operand} (written : l.written? = some o) : o ∈ l.operands := by
  unfold written? at written
  unfold operands
  cases is : l.instr with
  | none =>
    rw [is] at written
    cases written
  | some i =>
    rw [is, Option.bind_some] at written
    rw [Option.map_some, Option.getD_some]
    cases i with
    | alu | shift | addi | lw =>
      cases written
      exact List.mem_cons_self
    | sw | branch | jump | jr | setx | testlog => cases written

/-- What a line is lowered to does as the line says. -/
theorem Straight.lowered {reg : Operand → Option Reg} {label : String → String} {i : MachineInstr}
    (straight : l.Straight) (lowered : l.lower reg label = some i) :
    i.Quiet ∧ ∀ r, i.written? = some r → r = Reg.zero ∨ ∃ o, l.written? = some o ∧ reg o = some r := by
  unfold lower at lowered
  unfold written?
  cases is : l.instr with
  | none =>
    rw [is] at lowered
    cases lowered
    exact ⟨trivial, fun r written => .inl (Option.some.inj written).symm⟩
  | some instr =>
    have quiet := straight.quiet instr is
    rw [is] at lowered
    simp only [Instr.rename, Option.bind_eq_bind, Option.pure_def] at lowered
    cases instr with
    | alu op rd rs rt =>
      simp only [Option.bind_eq_some_iff, Option.some.injEq] at lowered
      obtain ⟨d, destination, _, -, _, -, rfl⟩ := lowered
      exact ⟨trivial, fun r written => .inr ⟨rd, rfl, destination.trans written⟩⟩
    | shift op rd rs | addi rd rs | lw rd rs =>
      simp only [Option.bind_eq_some_iff, Option.some.injEq] at lowered
      obtain ⟨d, destination, _, -, rfl⟩ := lowered
      exact ⟨trivial, fun r written => .inr ⟨rd, rfl, destination.trans written⟩⟩
    | setx value =>
      cases lowered
      exact ⟨trivial, fun r written => by cases written⟩
    | testlog rd =>
      simp only [Option.bind_eq_some_iff, Option.some.injEq] at lowered
      obtain ⟨_, -, rfl⟩ := lowered
      exact ⟨trivial, fun r written => by cases written⟩
    | sw | branch | jump | jr => exact quiet.elim

/-- The labels that a line may refer to are of no concern to one that refers to none. -/
theorem Straight.lower_congr {reg : Operand → Option Reg} {label label' : String → String} (straight : l.Straight) :
    l.lower reg label = l.lower reg label' := by
  unfold lower
  cases is : l.instr with
  | none => rfl
  | some instr =>
    have quiet := straight.quiet instr is
    cases instr with
    | alu | shift | addi | lw | setx | testlog => rfl
    | sw | branch | jump | jr => exact quiet.elim

end AsmLine

namespace Gen

variable {c : Context} {p p' : Progress} {bound : List (String × Reg)} {rename : String → String} {lines : List AsmLine}
  {l : AsmLine}

theorem exec_operandRegister {o : Operand} (ran : (operandRegister bound o).exec c p = .ok (r, p')) :
    p = p' ∧ boundRegister? bound o = some r := by
  cases o with
  | reg s =>
    cases ran
    exact ⟨rfl, rfl⟩
  | var name =>
    unfold operandRegister at ran
    dsimp only at ran
    split at ran
    · next s looked =>
      cases ran
      exact ⟨rfl, looked⟩
    · cases ran

theorem exec_rename {i : Instr Operand String} {j : MachineInstr} {target : String → Target}
    (ran : (i.rename (operandRegister bound) target).exec c p = .ok (j, p')) :
    p = p' ∧ i.rename (boundRegister? bound) target = some j := by
  cases i with
  | alu op rd rs rt =>
    obtain ⟨d, p₁, named, ran⟩ := exec_bind_ok ran
    obtain ⟨rfl, first⟩ := exec_operandRegister named
    obtain ⟨s, p₂, named', ran⟩ := exec_bind_ok ran
    obtain ⟨rfl, second⟩ := exec_operandRegister named'
    obtain ⟨t, p₃, named'', ran⟩ := exec_bind_ok ran
    obtain ⟨rfl, third⟩ := exec_operandRegister named''
    cases ran
    simp [Instr.rename, first, second, third]
  | shift op rd rs | addi rd rs | sw rd rs | lw rd rs | branch op rd rs =>
    obtain ⟨d, p₁, named, ran⟩ := exec_bind_ok ran
    obtain ⟨rfl, first⟩ := exec_operandRegister named
    obtain ⟨s, p₂, named', ran⟩ := exec_bind_ok ran
    obtain ⟨rfl, second⟩ := exec_operandRegister named'
    cases ran
    simp [Instr.rename, first, second]
  | jr rd | testlog rd =>
    obtain ⟨d, p₁, named, ran⟩ := exec_bind_ok ran
    obtain ⟨rfl, first⟩ := exec_operandRegister named
    cases ran
    simp [Instr.rename, first]
  | jump | setx =>
    cases ran
    exact ⟨rfl, rfl⟩

/-- The instruction of a line, if the registers of variables are given. -/
def instruction? (bound : List (String × Reg)) (l : AsmLine) : Option MachineInstr :=
  l.lower (boundRegister? bound) fun label => label

/-- A straight line becomes one instruction. -/
theorem exec_emitLine {u : Unit} (straight : l.Straight) (ran : (emitLine bound rename l).exec c p = .ok (u, p')) :
    ∃ i, instruction? bound l = some i ∧ p' = { p with draft := p.draft.pushAll #[i] } := by
  obtain ⟨i, p₁, lowered, emitted⟩ := exec_bind_ok ran
  have same : p = p₁ ∧ l.lower (boundRegister? bound) rename = some i := by
    unfold AsmLine.lower at lowered ⊢
    split at lowered
    · exact exec_rename lowered
    · cases lowered
      exact ⟨rfl, rfl⟩
  obtain ⟨rfl, same⟩ := same
  refine ⟨i, straight.lower_congr.trans same, ?_⟩
  cases emitted
  simp [straight.unlabelled, Draft.append, Draft.pushAll, Entry.plain]

theorem emitLines_appends {u : Unit} (straight : ∀ l ∈ lines, l.Straight)
    (ran : (lines.forM (emitLine bound rename)).exec c p = .ok (u, p')) :
    ∃ block, List.Forall₂ (fun l i => instruction? bound l = some i) lines block ∧ p'.allocator = p.allocator ∧
      AppendsPlain p block p' := by
  induction lines generalizing p with
  | nil =>
    cases ran
    exact ⟨[], .nil, rfl, .nil _⟩
  | cons l lines ih =>
    obtain ⟨_, p₁, emitted, ran⟩ := exec_bind_ok ran
    obtain ⟨i, lowered, rfl⟩ := exec_emitLine (straight l List.mem_cons_self) emitted
    obtain ⟨block, lowereds, same, appends⟩ := ih (fun l member => straight l (.tail _ member)) ran
    exact ⟨i :: block, .cons lowered lowereds, same, (appends_pushAll p p.allocator #[i]).trans appends⟩

/-! ### What was written -/

/-- The variables that lines name as destinations. -/
def destinations (lines : List AsmLine) : List String := lines.filterMap fun l => l.written?.bind Operand.var?

theorem exec_noteWritten {u : Unit} (ran : (noteWritten l).exec c p = .ok (u, p')) :
    (l.written?.bind Operand.var? = none ∧ p = p') ∨ ∃ name w, l.written?.bind Operand.var? = some name ∧
      Ran (markWritten name) ⟨p.allocator, #[]⟩ () w ∧
      p' = { p with allocator := w.allocator, draft := p.draft.pushAll w.code } := by
  unfold noteWritten at ran
  split at ran
  · next name is =>
    obtain ⟨w, did, rfl⟩ := exec_alloc ran
    exact .inr ⟨name, w, is, did, rfl⟩
  · next is =>
    cases ran
    exact .inl ⟨is, rfl⟩

theorem enlarges_noteWritten (l : AsmLine) : Enlarges c (noteWritten l) := by
  intro p u p' ran
  obtain ⟨-, rfl⟩ | ⟨name, w, -, did, rfl⟩ := exec_noteWritten ran
  · exact .refl _
  · exact growing_markWritten _ _ _ did

/-- Behind the notes every destination has the value that is in its register. -/
theorem noteAll_gains {final : VarId → Option Word} {u : Unit} (rest : AtRest base size last p.allocator m)
    (room : Room base size p'.allocator)
    (ready : ∀ name ∈ destinations lines, ∃ id v r, p.allocator.find? name = some id ∧ p.allocator.var? id = some v ∧
      v.storage = .register r ∧ v.Assignable ∧ final id = some (m.reg r))
    (others : ∀ id, (∀ name ∈ destinations lines, p.allocator.find? name ≠ some id) → last id = final id)
    (ran : (lines.forM noteWritten).exec c p = .ok (u, p')) :
    ∃ code m', AppendsPlain p code p' ∧ m.performs code = .ok m' ∧ AtRest base size final p'.allocator m' := by
  -- What is known already grows with every note towards what is known in the end.
  induction lines generalizing p m last with
  | nil =>
    cases ran
    have same : last = final := funext fun id => others id fun _ none => (List.not_mem_nil none).elim
    exact ⟨[], m, .nil _, rfl, same ▸ rest⟩
  | cons l lines ih =>
    obtain ⟨_, p₁, noted, ran⟩ := exec_bind_ok ran
    have room₁ := room.of_grows (Enlarges.forM enlarges_noteWritten lines _ _ _ ran)
    obtain ⟨unnamed, rfl⟩ | ⟨name, w, named, did, rfl⟩ := exec_noteWritten noted
    · have same : destinations (l :: lines) = destinations lines := List.filterMap_cons_none unnamed
      rw [same] at ready others
      exact ih rest ready others ran
    · have same : destinations (l :: lines) = name :: destinations lines := List.filterMap_cons_some named
      rw [same] at ready others
      obtain ⟨id, v, r, named, found, there, assignable, ends⟩ := ready name List.mem_cons_self
      obtain ⟨code, m₁, emitted, done, rest₁, regs⟩ :=
        AtRest.mark (w := ⟨p.allocator, #[]⟩) rest room₁ named found there assignable did
      obtain ⟨names, keeps⟩ := markWritten_keeps did
      have ready₁ : ∀ name ∈ destinations lines, ∃ id v r, w.allocator.find? name = some id ∧
          w.allocator.var? id = some v ∧ v.storage = .register r ∧ v.Assignable ∧ final id = some (m₁.reg r) := by
        intro other member
        obtain ⟨i, u, s, named', found', there', assignable', ends'⟩ := ready other (.tail _ member)
        obtain ⟨u', found'', same, storage⟩ := keeps found'
        exact ⟨i, u', s, (names other).trans named', found'', storage.trans there', assignable'.same same, regs ▸ ends'⟩
      have others₁ : ∀ i, (∀ name ∈ destinations lines, w.allocator.find? name ≠ some i) →
          Function.update last id (some (m.reg r)) i = final i := by
        intro i spared
        by_cases own : i = id
        · rw [own, Function.update_self, ends]
        · rw [Function.update_of_ne own]
          refine others i fun other member => ?_
          obtain rfl | member := List.mem_cons.1 member
          · rw [named]
            exact fun is => own (Option.some.inj is).symm
          · exact names other ▸ spared other member
      obtain ⟨code', m₂, appends, done', rest₂⟩ :=
        ih (p := { p with allocator := w.allocator, draft := p.draft.pushAll w.code }) rest₁ ready₁ others₁ ran
      refine ⟨code ++ code', m₂, ?_, (performs_append done).trans done', rest₂⟩
      rw [← show w.code.toList = code from emitted]
      exact (appends_pushAll p w.allocator w.code).trans appends

/-! ### Blocks -/

theorem AppendsPlain.unique {code code' : List MachineInstr} (appends : AppendsPlain p code p')
    (appends' : AppendsPlain p code' p') : code = code' := by
  have same := List.append_cancel_left (appends.symm.trans appends')
  exact List.map_injective_iff.2 (fun i j same => congrArg Entry.instr same) same

theorem alloc_appends {α : Type} {act : Alloc α} {x : α} (ran : (alloc act).exec c p = .ok (x, p')) :
    ∃ code, AppendsPlain p code p' := by
  obtain ⟨w, -, rfl⟩ := exec_alloc ran
  exact ⟨_, appends_pushAll p w.allocator w.code⟩

theorem noteAll_appends {u : Unit} (ran : (lines.forM noteWritten).exec c p = .ok (u, p')) :
    (∃ code, AppendsPlain p code p') ∧ ∀ name, p'.allocator.find? name = p.allocator.find? name := by
  induction lines generalizing p with
  | nil =>
    cases ran
    exact ⟨⟨[], .nil _⟩, fun _ => rfl⟩
  | cons l lines ih =>
    obtain ⟨_, p₁, noted, ran⟩ := exec_bind_ok ran
    obtain ⟨⟨code, appends⟩, names⟩ := ih ran
    obtain ⟨-, rfl⟩ | ⟨name, w, -, did, rfl⟩ := exec_noteWritten noted
    · exact ⟨⟨code, appends⟩, names⟩
    · exact ⟨⟨_, (appends_pushAll p w.allocator w.code).trans appends⟩, fun other =>
        (names other).trans ((markWritten_keeps did).1 other)⟩

/-- Putting reserved registers back concerns no variable. -/
theorem unreserve_rests {u : Unit} (rest : AtRest base size last p.allocator m) (room : Room base size p'.allocator)
    (ran : (alloc Alloc.unreserveAll).exec c p = .ok (u, p')) :
    ∃ code m', AppendsPlain p code p' ∧ m.performs code = .ok m' ∧ AtRest base size last p'.allocator m' := by
  obtain ⟨w, did, rfl⟩ := exec_alloc ran
  obtain ⟨sound, calls⟩ := unreserveAll_sound (w := ⟨p.allocator, #[]⟩) rest.sound did
  obtain ⟨code, emitted, deeds⟩ := does_unreserveAll (K := fun _ => False) (T := fun _ => False) did
  obtain ⟨⟨m', done, bearing, -⟩, -⟩ := deeds.performs rest.tidy room (fun _ => False.elim) False.elim rest.bearing
  refine ⟨w.code.toList, m', appends_pushAll p w.allocator w.code, ?_,
    ⟨sound, calls.trans rest.idle, deeds.tidy rest.tidy fun _ => False.elim, bearing⟩⟩
  rw [show w.code.toList = code from emitted, done]

/-- A register that is named by a line, other than those that are never reserved, is named by the block. -/
theorem mem_namedRegisters {l : AsmLine} (line : l ∈ lines) (operand : Operand.reg r ∈ l.operands)
    (nonzero : r ≠ Reg.zero) (aside : r ≠ Reg.stackPointer) : r ∈ namedRegisters lines := by
  unfold namedRegisters
  rw [List.mem_eraseDups, List.mem_filter]
  refine ⟨List.mem_filterMap.2 ⟨.reg r, List.mem_flatMap.2 ⟨l, line, operand⟩, rfl⟩, ?_⟩
  exact decide_eq_true ⟨nonzero, aside⟩

/-- An instruction of a block writes a register that the block names or that of a destination. -/
theorem written_of_block {block : List MachineInstr} {i : MachineInstr} (straight : ∀ l ∈ lines, l.Straight)
    (lowered : List.Forall₂ (fun l i => instruction? bound l = some i) lines block) (member : i ∈ block) :
    i.Quiet ∧ ∀ r, i.written? = some r → r = Reg.zero ∨ (r ≠ Reg.stackPointer ∧ r ∈ namedRegisters lines) ∨
      ∃ name ∈ destinations lines, bound.lookup name = some r := by
  obtain ⟨l, line, code⟩ : ∃ l ∈ lines, instruction? bound l = some i := by
    clear straight
    induction lowered with
    | nil => cases member
    | cons one _ ih =>
      obtain rfl | member := List.mem_cons.1 member
      · exact ⟨_, List.mem_cons_self, one⟩
      · obtain ⟨l, line, code⟩ := ih member
        exact ⟨l, .tail _ line, code⟩
  obtain ⟨quiet, writes⟩ := (straight l line).lowered code
  refine ⟨quiet, fun r written => ?_⟩
  obtain zero | ⟨o, destination, register⟩ := writes r written
  · exact .inl zero
  · have operand := AsmLine.written?_mem destination
    cases o with
    | reg s =>
      cases register
      have aside : r ≠ Reg.stackPointer := fun same => (straight l line).aside (same ▸ operand)
      by_cases zero : r = Reg.zero
      · exact .inl zero
      · exact .inr (.inl ⟨aside, mem_namedRegisters line operand zero aside⟩)
    | var name => exact .inr (.inr ⟨name, List.mem_filterMap.2 ⟨l, line, by rw [destination]; rfl⟩, register⟩)

/-- The destinations are among the names that are bound. -/
theorem mem_names_of_destination (member : name ∈ destinations lines) : name ∈ lines.flatMap AsmLine.names := by
  obtain ⟨l, line, is⟩ := List.mem_filterMap.1 member
  obtain ⟨o, destination, named⟩ := Option.bind_eq_some_iff.1 is
  exact List.mem_flatMap.2 ⟨l, line, List.mem_filterMap.2 ⟨o, AsmLine.written?_mem destination, named⟩⟩

/-- The variables that the destinations of lines stand for. -/
def targets (a : Allocator) (lines : List AsmLine) : List VarId := (destinations lines).filterMap a.find?

/-- The values of variables behind lines: a destination has what is in its register, and any other variable the value
that it had. -/
def valuesBehind (last : VarId → Option Word) (a : Allocator) (lines : List AsmLine) (m : Machine) (id : VarId) :
    Option Word :=
  if id ∈ targets a lines then ((a.var? id).bind fun v => v.storage.register?).map m.reg else last id

theorem mem_targets : id ∈ targets a lines ↔ ∃ name ∈ destinations lines, a.find? name = some id := List.mem_filterMap

theorem valuesBehind_target (destination : name ∈ destinations lines) (named : a.find? name = some id)
    (found : a.var? id = some v) (there : v.storage = .register r) :
    valuesBehind last a lines m id = some (m.reg r) := by
  rw [valuesBehind, if_pos (mem_targets.2 ⟨name, destination, named⟩), found, Option.bind_some, there]
  rfl

theorem valuesBehind_of_spared (spared : ∀ name ∈ destinations lines, a.find? name ≠ some id) :
    valuesBehind last a lines m id = last id := if_neg fun member => by
  obtain ⟨name, destination, named⟩ := mem_targets.1 member
  exact spared name destination named

/-- The lines of a block leave all variables alone but those that their destinations stand for. -/
theorem block_spares {block : List MachineInstr} (rest : AtRest base size last a m) (straight : ∀ l ∈ lines, l.Straight)
    (lowered : List.Forall₂ (fun l i => instruction? bound l = some i) lines block)
    (cleared : ∀ r ∈ namedRegisters lines, Cleared a r)
    (seated : ∀ name r, bound.lookup name = some r → ∃ id v, Seated last a m name r id v)
    (done : m.performs block = .ok m') :
    AtRest base size (fun id => if id ∈ targets a lines then none else last id) a m' := by
  have rest : AtRest base size (fun id => if id ∈ targets a lines then none else last id) a m :=
    rest.forget fun {id x} valued => by
      split at valued
      · cases valued
      · exact valued
  -- A cleared register has no variable, and the one in the register of a destination is a target.
  refine rest.overwritten (fun i member => (written_of_block straight lowered member).1) (fun i member written => ?_)
    (fun i member {id v r} written found there => ?_) done
  · obtain zero | ⟨aside, -⟩ | ⟨name, -, looked⟩ := (written_of_block straight lowered member).2 _ written
    · cases zero
    · exact aside rfl
    · obtain ⟨id, v, seat⟩ := seated name _ looked
      exact (rest.tidy.carried seat.found seat.there).ne.2.1 rfl
  · obtain zero | ⟨-, named⟩ | ⟨name, destination, looked⟩ := (written_of_block straight lowered member).2 r written
    · exact absurd zero (rest.tidy.carried found there).ne.1
    · exact ((cleared r named).vacant found there).elim
    · obtain ⟨i, u, seat⟩ := seated name r looked
      cases rest.tidy.alone found seat.found there seat.there
      exact if_pos (mem_targets.2 ⟨name, destination, seat.named⟩)

/-- The steps of a straight block. -/
theorem exec_asmBlock {text : String} {u : Unit} (read : Assembly.read text = .ok lines)
    (straight : ∀ l ∈ lines, l.Straight) (ran : (asmBlock line text).exec c p = .ok (u, p')) :
    ∃ rename p₁ p₂ bound p₃ p₄ p₅,
      ((namedRegisters lines).forM fun r => alloc do
        Alloc.reserve r
        Alloc.hold r).exec c { p with asmBlocks := p.asmBlocks + 1 } = .ok ((), p₁) ∧
      (bindOperands line [] (lines.flatMap AsmLine.names)).exec c p₁ = .ok (bound, p₂) ∧
      (lines.forM (emitLine bound rename)).exec c p₂ = .ok ((), p₃) ∧
      (lines.forM noteWritten).exec c p₃ = .ok ((), p₄) ∧ releaseHolds.exec c p₄ = .ok ((), p₅) ∧
      (alloc Alloc.unreserveAll).exec c p₅ = .ok ((), p') := by
  have flat : hasControlFlow lines = false := by
    refine List.any_eq_false.2 fun l line => ?_
    rw [(straight l line).unlabelled, (straight l line).unreferring]
    decide
  unfold asmBlock at ran
  rw [read] at ran
  obtain ⟨block, p₀, numbered, ran⟩ := exec_bind_ok ran
  cases numbered
  obtain ⟨context, p₁, asked, ran⟩ := exec_bind_ok ran
  cases asked
  simp only [flat, Bool.false_eq_true, if_false] at ran
  obtain ⟨_, p₁, reserved, ran⟩ := exec_bind_ok ran
  obtain ⟨bound, p₂, bind, ran⟩ := exec_bind_ok ran
  obtain ⟨_, p₃, emitted, ran⟩ := exec_bind_ok ran
  obtain ⟨_, p₄, noted, ran⟩ := exec_bind_ok ran
  obtain ⟨_, p₅, released, unreserved⟩ := exec_bind_ok ran
  exact ⟨_, p₁, p₂, bound, p₃, p₄, p₅, reserved, bind, emitted, noted, released, unreserved⟩

/-- In front of its lines the registers that a block names are cleared, and its variables are bound. -/
theorem open_block {names : List String} {u : Unit} (rest : AtRest base size last p.allocator m)
    (room : Room base size p'.allocator)
    (reserved : ((namedRegisters lines).forM fun r => alloc do
      Alloc.reserve r
      Alloc.hold r).exec c p = .ok (u, mid))
    (bind : (bindOperands line [] names).exec c mid = .ok (bound, p')) :
    ∃ m', Readies base size last p m p' m' ∧ (∀ r ∈ namedRegisters lines, Cleared p'.allocator r) ∧
      (∀ name r, bound.lookup name = some r → ∃ id v, Seated last p'.allocator m' name r id v) ∧
      ∀ name ∈ names, ∃ r id v, bound.lookup name = some r ∧ Seated last p'.allocator m' name r id v := by
  obtain ⟨m₁, first, cleared⟩ :=
    reserveAll_readies rest (room.of_grows (enlarges_bindOperands _ _ _ _ bind)) reserved
  obtain ⟨m₂, second, seated, all⟩ := bindOperands_binds first.passes.rest room (fun _ _ none => by cases none) bind
  refine ⟨m₂, first.trans second, fun r named => (cleared r named).readies second, seated, fun name member => ?_⟩
  obtain ⟨r, looked⟩ := Option.isSome_iff_exists.1 (all name (.inr member))
  obtain ⟨id, v, seat⟩ := seated name r looked
  exact ⟨r, id, v, looked, seat⟩

/-- Behind its lines a block notes what was written and puts back the registers that it reserved. -/
theorem close_block {p₁ p₂ : Progress} {u₁ u₂ u₃ : Unit} (noted : (lines.forM noteWritten).exec c p = .ok (u₁, p₁))
    (released : releaseHolds.exec c p₁ = .ok (u₂, p₂))
    (unreserved : (alloc Alloc.unreserveAll).exec c p₂ = .ok (u₃, p')) (room : Room base size p'.allocator) :
    ∃ behind, AppendsPlain p behind p' ∧ (∀ name, p'.allocator.find? name = p.allocator.find? name) ∧
      ∀ {last final : VarId → Option Word} {m : Machine}, AtRest base size last p.allocator m →
        (∀ name ∈ destinations lines, ∃ id v r, p.allocator.find? name = some id ∧ p.allocator.var? id = some v ∧
          v.storage = .register r ∧ v.Assignable ∧ final id = some (m.reg r)) →
        (∀ id, (∀ name ∈ destinations lines, p.allocator.find? name ≠ some id) → last id = final id) →
        ∃ m', m.performs behind = .ok m' ∧ AtRest base size final p'.allocator m' := by
  have room₁ := (room.of_grows (Enlarges.alloc growing_unreserveAll _ _ _ unreserved)).of_grows
    (enlarges_releaseHolds _ _ _ released)
  obtain ⟨⟨code₁, appends₁⟩, names⟩ := noteAll_appends noted
  obtain ⟨code₂, appends₂⟩ := alloc_appends released
  obtain ⟨code₃, appends₃⟩ := alloc_appends unreserved
  refine ⟨code₁ ++ (code₂ ++ code₃), appends₁.trans (appends₂.trans appends₃), fun name => ?_,
    fun rest ready others => ?_⟩
  · obtain ⟨w, releases, rfl⟩ := exec_alloc released
    cases ran_change.1 releases
    obtain ⟨w, unreserves, rfl⟩ := exec_alloc unreserved
    exact (unreserveAll_names unreserves name).trans (names name)
  · obtain ⟨code, m₁, appends, done₁, rest₁⟩ := noteAll_gains rest room₁ ready others noted
    cases appends.unique appends₁
    obtain ⟨⟨⟨code, appends, done₂⟩, -, rest₂, -⟩, -⟩ := release_passes (K := fun _ => False) rest₁ released
    cases appends.unique appends₂
    obtain ⟨code, m₃, appends, done₃, rest₃⟩ := unreserve_rests rest₂ room unreserved
    cases appends.unique appends₃
    exact ⟨m₃, (performs_append done₁).trans ((performs_append done₂).trans done₃), rest₃⟩

/-- A block that control runs through and that stores nothing changes no variable but its destinations. Each of these
has, behind the block, what was left in the register that its name was bound to. -/
theorem asmBlock_changes_destinations {text : String} {u : Unit} (read : Assembly.read text = .ok lines)
    (straight : ∀ l ∈ lines, l.Straight) (rest : AtRest base size last p.allocator m)
    (room : Room base size p'.allocator)
    (assignable : ∀ name ∈ destinations lines, ∀ id v, p.allocator.find? name = some id →
      p.allocator.var? id = some v → v.Assignable)
    (ran : (asmBlock line text).exec c p = .ok (u, p')) :
    ∃ bound before block behind m₁, AppendsPlain p (before ++ block ++ behind) p' ∧ m.performs before = .ok m₁ ∧
      List.Forall₂ (fun l i => instruction? bound l = some i) lines block ∧
      (∀ name ∈ lines.flatMap AsmLine.names, ∃ id r, p.allocator.find? name = some id ∧
        bound.lookup name = some r ∧ ∀ x, last id = some x → m₁.reg r = x) ∧
      (∀ name, p'.allocator.find? name = p.allocator.find? name) ∧
      ∀ m₂, m₁.performs block = .ok m₂ → ∃ m' last', m₂.performs behind = .ok m' ∧
        AtRest base size last' p'.allocator m' ∧
        (∀ id, (∀ name ∈ destinations lines, p.allocator.find? name ≠ some id) → last' id = last id) ∧
        ∀ name ∈ destinations lines, ∃ id r, p.allocator.find? name = some id ∧ bound.lookup name = some r ∧
          last' id = some (m₂.reg r) := by
  obtain ⟨rename, p₁, p₂, bound, p₃, p₄, p₅, reserved, bind, emitted, noted, released, unreserved⟩ :=
    exec_asmBlock read straight ran
  obtain ⟨behind, appends₃, names, closes⟩ := close_block noted released unreserved room
  obtain ⟨block, lowered, same, appends₂⟩ := emitLines_appends straight emitted
  have room₂ := ((room.of_grows (Enlarges.alloc growing_unreserveAll _ _ _ unreserved)).of_grows
    (enlarges_releaseHolds _ _ _ released)).of_grows (Enlarges.forM enlarges_noteWritten lines _ _ _ noted)
  rw [same] at names closes room₂
  obtain ⟨m₁, readies, cleared, seated, binding⟩ :=
    open_block (p := { p with asmBlocks := p.asmBlocks + 1 }) rest room₂ reserved bind
  obtain ⟨before, appends₁, done₁⟩ := readies.passes.straight
  refine ⟨bound, before, block, behind, m₁, (appends₁.trans appends₂).trans appends₃, done₁, lowered,
    fun name member => ?_, fun name => (names name).trans (readies.names name), fun m₂ done => ?_⟩
  · obtain ⟨r, id, v, looked, seat⟩ := binding name member
    exact ⟨id, r, (readies.names name).symm.trans seat.named, looked, fun x => seat.value⟩
  · have known : ∀ name ∈ destinations lines, ∃ id v r, p₂.allocator.find? name = some id ∧
        p₂.allocator.var? id = some v ∧ v.storage = .register r ∧ v.Assignable ∧
        valuesBehind last p₂.allocator lines m₂ id = some (m₂.reg r) := by
      intro name destination
      obtain ⟨r, id, v, looked, seat⟩ := binding name (mem_names_of_destination destination)
      refine ⟨id, v, r, seat.named, seat.found, seat.there, ?_,
        valuesBehind_target destination seat.named seat.found seat.there⟩
      cases before : p.allocator.var? id with
      | none => cases (readies.passes.recalls.gone trivial before).symm.trans seat.found
      | some u =>
        obtain ⟨v', found, kept⟩ := readies.passes.recalls.same trivial before
        cases found.symm.trans seat.found
        exact (assignable name destination id u ((readies.names name).symm.trans seat.named) before).same kept
    obtain ⟨m', done₃, rest'⟩ := closes (block_spares readies.passes.rest straight lowered cleared seated done) known
      fun id others => (if_neg fun member => by
        obtain ⟨name, destination, named⟩ := mem_targets.1 member
        exact others name destination named).trans (valuesBehind_of_spared others).symm
    refine ⟨m', valuesBehind last p₂.allocator lines m₂, done₃, rest', fun id spared => ?_, fun name destination => ?_⟩
    · exact valuesBehind_of_spared fun name destination => (readies.names name).symm ▸ spared name destination
    · obtain ⟨r, id, v, looked, seat⟩ := binding name (mem_names_of_destination destination)
      exact ⟨id, r, (readies.names name).symm.trans seat.named, looked,
        valuesBehind_target destination seat.named seat.found seat.there⟩

end Gen

end SmallC
