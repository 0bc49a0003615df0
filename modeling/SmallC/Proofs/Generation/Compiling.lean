import SmallC.Proofs.Generation.Structured
import SmallC.Proofs.Meaning.Fragment
import SmallC.Proofs.Program.Optimization
import SmallC.Proofs.Program.References
import SmallC.Proofs.Program.Returning

/-!
Structured sources. The machine sets the stack pointer, runs through the code of the statements, and stops behind the
last of them, with the numbers that the source means in the variables of the top level. The peephole passes change
nothing of that.
-/
namespace SmallC

open Allocator Machine

variable {c : Context} {p p' : Progress} {m m' : Machine} {rd : Reg} {es : List Entry} {a : Allocator} {env : Env}
  {last : VarId → Option Word} {name : String} {x : Number}

/-! ### Where generation starts -/

theorem Machine.Writes.trans {mid : Machine} (first : Writes rd m mid) (second : Writes rd mid m') : Writes rd m m' :=
  ⟨second.memory.trans first.memory, second.zero.trans first.zero,
    fun other noStatus => (second.others other noStatus).trans (first.others other noStatus)⟩

/-- Code that only computes one register runs through. -/
theorem performs_writes {code : List MachineInstr}
    (computes : ∀ i ∈ code, i.written? = some rd ∧ ∀ m : Machine, ∃ m', m.effect i = .ok m') (m : Machine) :
    ∃ m', m.performs code = .ok m' ∧ Writes rd m m' := by
  induction code generalizing m with
  | nil => exact ⟨m, rfl, writes_refl rd m⟩
  | cons i rest ih =>
    obtain ⟨written, succeeds⟩ := computes i List.mem_cons_self
    obtain ⟨mid, done⟩ := succeeds m
    obtain ⟨m', performed, writes⟩ := ih (fun j member => computes j (List.mem_cons_of_mem i member)) mid
    refine ⟨m', ?_, (effect_writes written done).trans writes⟩
    exact (performs_append (performs_one.trans done : m.performs [i] = .ok mid)).trans performed

theorem literalCode_succeeds {n : Int} {i : MachineInstr} (member : i ∈ literalCode rd n) (m : Machine) :
    ∃ m', m.effect i = .ok m' := by
  unfold literalCode at member
  split at member
  · cases List.mem_singleton.1 member
    exact ⟨_, rfl⟩
  · rcases List.mem_append.1 member with member | member
    · rcases List.mem_cons.1 member with rfl | member
      · exact ⟨_, rfl⟩
      · cases List.mem_singleton.1 member
        exact ⟨_, rfl⟩
    · split at member
      · cases member
      · cases List.mem_singleton.1 member
        exact ⟨_, rfl⟩

theorem initial_clear : Allocator.initial.Clear where
  sound := Gen.initial_at.sound
  idle := Gen.initial_at.idle
  ready := by
    rw [Gen.initial_at.shape]
    exact Gen.rootShape_atRoot.ready
  empty := rfl
  numeric := fun found => by cases found
  plain := fun l member => by
    cases List.mem_singleton.1 member
    exact ⟨rfl, rfl⟩

namespace Gen

/-- The stack pointer is set first. -/
theorem loadLiteral_starts {n : Int} (apart : Reg.returnAddress ≠ rd)
    (ran : (loadLiteral rd n).exec c Progress.initial = .ok ((), p)) :
    p.allocator = Allocator.initial ∧ (∀ e ∈ p.draft.entries.toList, MachineInstr.Local e.instr) ∧
      ∀ {es}, p.draft.entries.toList <+: es → ∀ words, ∃ m, Reaches es (fresh words) m ∧ m.pc = p.draft.size ∧
        m.reg Reg.zero = 0 ∧ m.memory.size = words := by
  have same := exec_emitAll ran
  subst same
  have entries : ((Progress.initial.draft.pushAll (literalCode rd n).toArray).entries.toList) =
      (literalCode rd n).map Entry.plain := toList_pushAll _ _
  refine ⟨rfl, fun e member => ?_, fun {es} laid words => ?_⟩
  · rw [entries] at member
    obtain ⟨i, inside, rfl⟩ := List.mem_map.1 member
    exact local_literalCode apart n i inside
  · rw [entries] at laid
    obtain ⟨m, performed, writes⟩ := performs_writes (fun i member => ⟨literalCode_writes member, literalCode_succeeds member⟩)
      (fresh words)
    have spares : ∀ i ∈ literalCode rd n, MachineInstr.Spares [] i := fun i member =>
      .inl ⟨rd, literalCode_writes member, List.not_mem_nil⟩
    refine ⟨_, reaches_code (show [] ++ (literalCode rd n).map Entry.plain <+: es from laid) rfl spares performed, ?_, ?_, ?_⟩
    · rw [pc_goto_nat, Draft.size, ← Array.length_toList, entries]
      simp
    · rw [reg_goto, writes.zero, reg_fresh]
    · rw [memory_goto, writes.memory]
      exact Array.size_replicate

/-! ### A structured source as it runs -/

/-- What is generated for a structured source, besides the numbers that it leaves. -/
theorem structured_source {unit : TranslationUnit} (structured : Stmt.areStructured unit.statements = true)
    (proper : ∀ s ∈ unit.statements, s.RootProper) {stackTop : Int}
    (ran : (source stackTop unit.statements).exec (Context.of unit false) Progress.initial = .ok ((), p))
    (linkable : Linkable p.draft.entries.toList) {words : Nat} (room : p.allocator.globals ≤ words) :
    (∀ e ∈ p.draft.entries.toList, MachineInstr.Local e.instr) ∧ p.allocator.Clear ∧ p.allocator.inner = [] ∧
      ∀ {bound ending env}, Stmt.runsAll bound unit.statements [[]] = some (ending, env) →
        ∃ base last m, Reaches p.draft.entries.toList (fresh words) m ∧ m.pc = p.draft.size ∧
          Agrees base words last p.allocator m ∧ Reflects p.allocator last env [p.allocator.root] := by
  obtain ⟨⟨⟩, p₀, loaded, ran⟩ := exec_bind_ok ran
  obtain ⟨context, p₁, known, ran⟩ := exec_bind_ok ran
  cases known
  obtain ⟨began, own, starts⟩ := loadLiteral_starts (by decide) loaded
  have clear₀ : p₀.allocator.Clear := began ▸ initial_clear
  have calls' := calls_tidy (c := Context.of unit false) (functionsOf_proper proper) []
    (Context.of unit false).functions.length
  have executes : ∀ (S : Site) bound,
      Executes S Exits.none 1 p₀ p fun env => Stmt.runsAll bound unit.statements env := fun S bound => by
    change (statements _ _ _).exec ((Context.of unit false).checked false) p₀ = _ at ran
    exact statements_execute calls' (Stmt.addressTakenIn_of_areStructured _ structured) unit.statements structured
      (Stmt.allProper_of_rootProper structured proper) clear₀ ran
  obtain ⟨stands, clear, code, outer⟩ := (executes ⟨_, linkable, 0, words⟩ 0).forward
  have inner : p.allocator.inner = [] := by
    have outer : p.allocator.scopes.tail = [] := by
      rw [outer, began]
      rfl
    rw [Allocator.scopes] at outer
    cases levels : p.allocator.inner with
    | nil => rfl
    | cons level rest => simp [levels] at outer
  refine ⟨fun e member => ?_, clear, inner, fun {bound ending env} means => ?_⟩
  · obtain ⟨es, appended, local'⟩ := code
    rw [appended] at member
    exact (List.mem_append.1 member).elim (own e) (local' e)
  · obtain ⟨m₀, reaches₀, here, zero, size⟩ := starts code.within words
    have outside : p.allocator.frame = none := by
      by_contra some
      exact clear.sound.body.level (Option.ne_none_iff_isSome.1 some) inner
    have hosts : (⟨_, linkable, (m₀.reg Reg.stackPointer).toInt, words⟩ : Site).Hosts p :=
      ⟨List.prefix_rfl, room, fun frame _ => by cases outside.symm.trans frame⟩
    have stopped : Stopped ⟨_, linkable, (m₀.reg Reg.stackPointer).toInt, words⟩ p₀ [[]] m₀ := by
      refine ⟨fun _ => none, ⟨?_, here⟩, ?_⟩
      · rw [began]
        exact ⟨zero, (Int.add_zero _), size, (fun _ => rfl), (fun found => by cases found), (fun found => by cases found)⟩
      · rw [began]
        exact .cons (fun name => .inl ⟨rfl, rfl⟩) .nil
    have onward : ending = .onward := by
      by_contra off
      obtain ⟨label, -, target, -⟩ := (executes _ bound).leaves hosts stopped means off
      cases ending with
      | onward => exact off rfl
      | broken => cases target
      | continued => cases target
    cases onward
    obtain ⟨m, reaches, last, abreast, reflects⟩ := (executes _ bound).onward hosts stopped means
    rw [Allocator.scopes, inner] at reflects
    exact ⟨_, last, m, reaches₀.trans reaches, abreast.here, abreast.agrees, reflects⟩

end Gen

/-! ### Where values are found -/

namespace Allocator

theorem lookup_located {α : Type} {f : String → Option α} {names : List String} (name : String) :
    (names.filterMap fun n => (f n).map fun y => (n, y)).lookup name = if name ∈ names then f name else none := by
  induction names with
  | nil => rfl
  | cons head rest ih =>
    rw [List.filterMap_cons]
    by_cases same : name = head
    · subst same
      cases located : f name with
      | none => simp [ih, located]
      | some y => simp
    · cases f head with
      | none => simp [ih, same]
      | some y => simp [List.lookup_cons, beq_eq_false_iff_ne.2 same, ih, same]

/-- The locations that are reported are those that the allocator has. -/
theorem lookup_symbols (a : Allocator) (name : String) : a.symbols.lookup name = a.location? name := by
  rw [symbols, lookup_located]
  split
  · rfl
  · next absent =>
    have absent : a.root.names.lookup name = none := by
      rw [List.lookup_eq_none_iff]
      intro entry member
      apply bne_iff_ne.2
      rintro rfl
      apply absent
      simp only [rootNames, sorted, List.mem_mergeSort]
      exact List.mem_map_of_mem member
    rw [location?, absent, Option.bind_eq_bind, Option.bind_none]

/-- Between two statements the numbers of the top level are where the allocator has their variables. -/
theorem Clear.valueAt (clear : a.Clear) {base : Int} {words : Nat} (agrees : Agrees base words last a m)
    (outermost : a.inner = []) (reflects : Reflects a last env [a.root]) (name : String) :
    (a.location? name).bind m.valueAt = (env.find? name).map Number.word := by
  have parts : a.scopes = [] ++ a.root :: [] := by
    rw [scopes, outermost]
  cases reflects with
  | @cons scope _ _ _ shows rest =>
    cases rest with
    | nil =>
      rw [Env.find?, List.findSome?_singleton, location?]
      rcases shows name with ⟨absent, absent'⟩ | ⟨x, id, value, found, stores⟩
      · rw [absent, absent']
        rfl
      · obtain ⟨v, known, isNamed, -, deep⟩ := var?_of_lookup clear.sound.names parts found
        have numeric := clear.numeric known
        have holds := agrees.holds known numeric.scalar stores.value
        rw [value, found]
        simp only [Option.bind_eq_bind, Option.bind_some, known, Option.map_some]
        cases there : v.storage with
        | register r =>
          simp [Storage.register?, numeric.scalar, numeric.untouched, Machine.valueAt, holds.register there]
        | memory home =>
          have own := numeric.home_of_memory (clear.sound.fits known) there
          obtain ⟨address, rfl⟩ := clear.sound.homes.root known isNamed deep own
          have cell : m.cell? address = some x.word := holds.memory there
          simpa [Storage.register?, Variable.memory?, numeric.scalar, own, globalAddress?, Machine.valueAt] using cell
        | saved slot => exact absurd there (numeric.unsaved slot)

/-- Registers that are reported to hold a variable are those of the pool. -/
theorem Clear.isPool_of_location? (clear : a.Clear) {r : Reg} (located : a.location? name = some (.register r)) :
    r.isPool = true := by
  simp only [location?, Option.bind_eq_bind, Option.bind_eq_some_iff] at located
  obtain ⟨id, -, v, known, located⟩ := located
  have numeric := clear.numeric known
  have inMemory : ∀ {home : Option Home}, home.bind globalAddress? ≠ some (.register r) := fun {home} located => by
    obtain ⟨own, -, located⟩ := Option.bind_eq_some_iff.1 located
    cases own <;> cases located
  split at located
  · next q there =>
    split at located
    · cases located
      refine numeric.pooled ?_
      cases own : v.storage <;> simp [own, Storage.register?] at there
      rw [there]
    · exact absurd located inMemory
  · exact absurd located inMemory

end Allocator

end SmallC
