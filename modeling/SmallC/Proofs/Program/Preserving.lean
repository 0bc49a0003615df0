import SmallC.Proofs.Generation.Compiling

/-!
Compiled structured sources. What is compiled runs off its end after finitely many steps whenever the source has a
meaning, and leaves every variable of the top level with the number that the source means, wherever that is reported to
be. This holds with the peephole passes and without them.
-/
namespace SmallC

open Allocator

variable {config : Config} {source : String} {unit : TranslationUnit} {c : Compilation} {words bound : Nat}
  {ending : Ending} {env : Env} {es : List Entry} {p p' : Program} {m m' : Machine} {l : Location}

namespace Machine

theorem Reaches.endsWithin (reaches : Reaches es (fresh words) m) (linked : Program.link es = .ok p)
    (behind : m.pc = es.length) : ∃ n, EndsWithin p (fresh words) n m := by
  obtain ⟨n, steps⟩ := reaches.steps (linked_of_link linked)
  have done : IsDone p m := (isDone_iff (linked_of_link linked) behind).2 (Nat.le_refl _)
  exact ⟨n, endsWithin_iff.2 ⟨n, Nat.le_refl n, steps, done⟩⟩

/-- Machines that agree have the same in every place but the return address. -/
theorem Agree.valueAt (agree : Agree m m') (apart : l ≠ .register Reg.returnAddress) : m'.valueAt l = m.valueAt l := by
  cases l with
  | register r => exact congrArg some (agree.regs r fun same => apart (congrArg Location.register same))
  | memory address => rw [Machine.valueAt, Machine.valueAt, cell?, cell?, agree.memory]

end Machine

open Machine

/-- Entries without calls that leave the return address alone do the same once they are optimized. -/
theorem refines_optimize (own : ∀ e ∈ es, MachineInstr.Local e.instr) (linked : Program.link es = .ok p)
    (linked' : Program.link (Peephole.optimize es) = .ok p') (words : Nat) : Refines p p' (fresh words) := by
  have behaved : Behaved es :=
    ⟨(linked_of_link linked).linkable, fun member => (own _ member).1, fun found calls => by
      cases (own _ (List.mem_of_getElem? found)).2.symm.trans calls⟩
  exact (improves_optimize es behaved).2 linked linked' words

/-- Generated code that runs through, with some data memory, and leaves some numbers where its variables are. -/
structure Generated.Computes (g : Generated) (words : Nat) (env : Env) : Prop where
  pooled : ∀ {name r}, g.symbols.lookup name = some (.register r) → r.isPool = true
  runs : ∃ m, Reaches g.draft.entries.toList (fresh words) m ∧ m.pc = g.draft.entries.toList.length ∧
    ∀ name, (g.symbols.lookup name).bind m.valueAt = (env.find? name).map Number.word

theorem TranslationUnit.not_bodiless (structured : Stmt.areStructured unit.statements = true) (name : String) :
    ¬ unit.Bodiless name := by
  intro bodiless
  obtain ⟨s, member, f, declares⟩ := bodiless.declared
  rw [Stmt.function?_of_isStructured (Stmt.areStructured_iff.1 structured s member)] at declares
  cases declares

/-- What is generated for a structured source links, stays within the code, and computes what the source means. -/
theorem generate_computes (parsed : parseSource source = .ok unit)
    (structured : Stmt.areStructured unit.statements = true) {stackTop : Int} {verifies : Bool} {g : Generated}
    (ran : unit.ordered.generate stackTop verifies = .ok g) (room : unit.ordered.globalWords stackTop ≤ words)
    (means : Stmt.runsAll bound unit.statements [[]] = some (ending, env)) :
    (∃ p, Program.link g.draft.entries.toList = .ok p) ∧ (∀ e ∈ g.draft.entries.toList, MachineInstr.Local e.instr) ∧
      g.Computes words env := by
  obtain ⟨p, linked⟩ := (generate_closed parsed (Stmt.areAsmFree_of_areStructured _ structured) ran).link.resolve_right
    fun ⟨name, bodiless, _⟩ => unit.not_bodiless structured name bodiless
  have same := unit.ordered_of_areStructured structured
  have proper := parseSource_proper parsed
  rw [same] at ran room
  obtain ⟨p', did, rfl⟩ := unit.generate_ok_unchecked proper ran
  rw [TranslationUnit.globalWords, did] at room
  obtain ⟨own, clear, outermost, computes⟩ := Gen.structured_source structured proper did
    (linked_of_link linked).linkable room
  obtain ⟨base, last, m, reaches, behind, agrees, reflects⟩ := computes means
  refine ⟨⟨p, linked⟩, own, ⟨fun located => ?_, m, reaches, ?_, fun name => ?_⟩⟩
  · rw [lookup_symbols] at located
    exact clear.isPool_of_location? located
  · rw [behind, Draft.size, Array.length_toList]
  · rw [lookup_symbols]
    exact clear.valueAt agrees outermost reflects name

/-- Code that computes some numbers ends with them once it is linked, optimized or not. -/
theorem Generated.Computes.ends {g : Generated} {optimize : Bool} (computes : g.Computes words env)
    (own : ∀ e ∈ g.draft.entries.toList, MachineInstr.Local e.instr)
    (linked : Program.link g.draft.entries.toList = .ok p) (finished : g.draft.finish optimize = .ok p') :
    ∃ n after, EndsWithin p' (fresh words) n after ∧
      ∀ name, (g.symbols.lookup name).bind after.valueAt = (env.find? name).map Number.word := by
  obtain ⟨pooled, m, reaches, behind, values⟩ := computes
  obtain ⟨n, ends⟩ := reaches.endsWithin linked behind
  rw [Draft.finish] at finished
  cases optimize with
  | false =>
    cases linked.symm.trans finished
    exact ⟨n, m, ends, values⟩
  | true =>
    obtain ⟨after, ends', agree⟩ := (refines_optimize own linked finished words).ends ends
    refine ⟨n, after, ends', fun name => ?_⟩
    rw [← values name]
    cases located : g.symbols.lookup name with
    | none => rfl
    | some l =>
      refine agree.valueAt ?_
      rintro rfl
      exact absurd (pooled located) (by decide)

/-- Compilation preserves the meaning of structured sources. When a source of definitions with values, assignments to
variables, blocks, conditionals and loops compiles, and has a meaning, then what is compiled ends without an error,
however its peephole passes are set, on any fresh machine whose data memory has the global words that were allocated. The
variables of the top level are left with the values that the source means, wherever they are reported to be, and no
others are reported. -/
theorem compile_preserves_meaning (parsed : parseSource source = .ok unit)
    (structured : Stmt.areStructured unit.statements = true) (compiled : compile config source = .ok c)
    (room : unit.ordered.globalWords config.stackTop ≤ words)
    (means : Stmt.runsAll bound unit.statements [[]] = some (ending, env)) :
    ∃ n after, EndsWithin c.program (fresh words) n after ∧
      ∀ name, c.valueOf after name = (env.find? name).map Number.word := by
  obtain ⟨g, did, finished, symbols⟩ := compile_generates parsed compiled
  obtain ⟨⟨p, linked⟩, own, computes⟩ := generate_computes parsed structured did room means
  obtain ⟨n, after, ends, values⟩ := computes.ends own linked finished
  refine ⟨n, after, ends, fun name => ?_⟩
  rw [Compilation.valueOf, Compilation.location?, symbols]
  exact values name

/-- The odd numbers up to a bound are multiplied, until the product is large enough. -/
def oddProduct : String :=
  "int n = 9; int p = 1; for (int i = 1; i <= n; i += 1) \x7b if (i % 2 == 0 || !i) \x7b continue; \x7d p *= i; " ++
    "if (p > 100) \x7b break; \x7d \x7d while (n > 3 && p) \x7b int q = p >> 1; n = n - 3; p = q; \x7d"

/-- The loops leave the variables with what they come to: 105 halved twice, and 9 less 3 twice. -/
theorem compile_preserves_meaning_product : ∃ unit c n after, parseSource oddProduct = .ok unit ∧
    Stmt.areStructured unit.statements = true ∧ compile {} oddProduct = .ok c ∧
    unit.ordered.globalWords 2047 ≤ 2048 ∧ (Stmt.runsAll 10 unit.statements [[]]).isSome ∧
    EndsWithin c.program (fresh 2048) n after ∧ c.valueOf after "n" = some 3 ∧ c.valueOf after "p" = some 26 := by
  have evaluated : (match parseSource oddProduct, compile {} oddProduct with
      | .ok unit, .ok _ => Stmt.areStructured unit.statements && decide (unit.ordered.globalWords 2047 ≤ 2048) &&
        (Stmt.runsAll 10 unit.statements [[]]).any fun done =>
          done.2.find? "n" = some ⟨.int, 3⟩ && done.2.find? "p" = some ⟨.int, 26⟩
      | _, _ => false) = true := by decide +kernel
  split at evaluated
  · next unit c parsed compiled =>
    cases means : Stmt.runsAll 10 unit.statements [[]] with
    | none =>
      rw [means, Option.any_none, Bool.and_false] at evaluated
      cases evaluated
    | some done =>
      obtain ⟨ending, env⟩ := done
      simp only [means, Option.any_some, Bool.and_eq_true, decide_eq_true_eq] at evaluated
      obtain ⟨⟨structured, room⟩, first, second⟩ := evaluated
      obtain ⟨n, after, ends, values⟩ := compile_preserves_meaning parsed structured compiled room means
      refine ⟨unit, c, n, after, parsed, structured, compiled, room, ?_, ends, ?_, ?_⟩
      · rw [means]
        rfl
      · rw [values, first]
        rfl
      · rw [values, second]
        rfl
  · cases evaluated

end SmallC
