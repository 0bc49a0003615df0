import SmallC.Proofs.Generation.Amounts
import SmallC.Proofs.Program.Preserving

/-!
Conditions as values and as branches. A program that stores the value of a condition and one that branches on the
condition leave the same behind, one or zero, as both compute what the condition means. It means something wherever
it does not come to divide by zero. A division by zero leaves its register as it is, and the two ways of compiling a
condition do not use the same registers.
-/
namespace SmallC

open Allocator Machine

variable {words : Nat} {valuation : List (String × Number)} {bound : Nat} {env env' : Env} {e e' : Expr}
  {name : String} {b : Bool} {w : Word}

/-! ### The two programs -/

namespace Stmt

/-- The condition of `int r = e;`. -/
def stored? : List Stmt → Option Expr
  | [.define _ name ty (some e)] => if name = "r" ∧ ty = ⟨.int, 0⟩ then some e else none
  | _ => none

/-- The number of `r = n;`. -/
def assigned? : List Stmt → Option Int
  | [.expr (.assign _ none (.var _ name _) (.int _ n))] => if name = "r" then some n else none
  | _ => none

/-- The condition of `int r = 7; if (e) { r = 1; } else { r = 0; }`. -/
def branched? : List Stmt → Option Expr
  | [first, .conditional _ [.mk e yes] (some no)] =>
    match stored? [first] with
    | some (.int _ n) => if n = 7 ∧ assigned? yes = some 1 ∧ assigned? no = some 0 then some e else none
    | _ => none
  | _ => none

variable {ss : List Stmt} {n : Int}

theorem stored?_eq_some (stored : stored? ss = some e) :
    ∃ line, ss = [.define line "r" ⟨.int, 0⟩ (some e)] := by
  unfold stored? at stored
  split at stored
  · split at stored
    · next same =>
      cases stored
      obtain ⟨rfl, rfl⟩ := same
      exact ⟨_, rfl⟩
    · cases stored
  · cases stored

theorem assigned?_eq_some (assigned : assigned? ss = some n) :
    ∃ line line' line'' i, ss = [.expr (.assign line none (.var line' "r" i) (.int line'' n))] := by
  unfold assigned? at assigned
  split at assigned
  · split at assigned
    · next same =>
      cases assigned
      cases same
      exact ⟨_, _, _, _, rfl⟩
    · cases assigned
  · cases assigned

theorem branched?_eq_some (branched : branched? ss = some e) : ∃ line line' line'' yes no,
    ss = [.define line "r" ⟨.int, 0⟩ (some (.int line' 7)), .conditional line'' [.mk e yes] (some no)] ∧
      assigned? yes = some 1 ∧ assigned? no = some 0 := by
  unfold branched? at branched
  split at branched
  · next first line e' yes no =>
    split at branched
    · next line' n stored =>
      split at branched
      · next parts =>
        cases branched
        obtain ⟨line'', is⟩ := stored?_eq_some stored
        cases is
        obtain ⟨rfl, yes', no'⟩ := parts
        exact ⟨_, _, _, _, _, rfl, yes', no'⟩
      · cases branched
    · cases branched
  · cases branched

/-! ### What they mean -/

theorem runsAll_append (first rest : List Stmt) :
    runsAll bound (first ++ rest) env = Env.andThen (runsAll bound first env) (runsAll bound rest) := by
  induction first generalizing env with
  | nil => rfl
  | cons s first ih =>
    simp only [List.cons_append, runsAll, Env.andThen]
    cases s.runs bound env with
    | none => rfl
    | some done =>
      simp only [Option.bind_some, ih, Env.andThen]
      split
      · rfl
      · next off => simp [off]

theorem runsAll_stored (line : Nat) (fresh : valuation.lookup "r" = none) (value : e.eval [valuation] = some ⟨.int, w⟩) :
    runsAll bound [.define line "r" ⟨.int, 0⟩ (some e)] [valuation] =
      some (.onward, [("r", ⟨.int, w⟩) :: valuation]) := by
  have kept : Number.convert ⟨.int, w⟩ (TypeSpec.kind ⟨.int, 0⟩) = ⟨.int, w⟩ := rfl
  simp [runsAll, runs, Env.andThen, value, Env.add?, fresh, kept]

theorem runsAll_singleton (s : Stmt) : runsAll bound [s] env = s.runs bound env := by
  simp only [runsAll, Env.andThen]
  cases s.runs bound env with
  | none => rfl
  | some done =>
    obtain ⟨ending, env'⟩ := done
    cases ending <;> rfl

theorem runs_conditional {line : Nat} {yes no : List Stmt} (value : e.eval env = some (.ofBool b)) :
    (conditional line [.mk e yes] (some no)).runs bound env =
      Env.scoped (runsAll bound (if b then yes else no)) env := by
  simp only [runs, runsFirst, value, Option.bind_eq_bind, Option.bind_some, Number.isTrue_ofBool]
  cases b <;> rfl

/-- An assignment reaches the variable from a scope of its own. -/
theorem scoped_assigned (assigned : assigned? ss = some n) (fits : FitsSigned 32 n) :
    ∃ env, Env.scoped (runsAll bound ss) [("r", ⟨.int, w⟩) :: valuation] = some (.onward, env) ∧
      env.find? "r" = some ⟨.int, Word.ofInt n⟩ := by
  obtain ⟨line, line', line'', i, rfl⟩ := assigned?_eq_some assigned
  have old : Env.find? [[], ("r", ⟨.int, w⟩) :: valuation] "r" = some ⟨.int, w⟩ := rfl
  have new : Number.convert ⟨.int, Word.ofInt n⟩ .int = ⟨.int, Word.ofInt n⟩ := rfl
  refine ⟨(Env.set "r" ⟨.int, Word.ofInt n⟩ [[], ("r", ⟨.int, w⟩) :: valuation]).tail, ?_, rfl⟩
  simp only [Env.scoped, runsAll_singleton, runs, Expr.assigns, old, Expr.assigned, Expr.eval, Expr.ofLiteral,
    if_pos fits, Option.bind_eq_bind, Option.bind_some, new]
  rfl

/-- The program that branches leaves the truth of its condition behind. -/
theorem runsAll_branched (branched : branched? ss = some e) (fresh : valuation.lookup "r" = none)
    (value : e.eval [("r", ⟨.int, 7⟩) :: valuation] = some (.ofBool b)) :
    ∃ env, runsAll bound ss [valuation] = some (.onward, env) ∧ env.find? "r" = some (.ofBool b) := by
  obtain ⟨line, line', line'', yes, no, rfl, yes', no'⟩ := branched?_eq_some branched
  have start : runsAll bound [.define line "r" ⟨.int, 0⟩ (some (.int line' 7))] [valuation] =
      some (.onward, [("r", ⟨.int, 7⟩) :: valuation]) := runsAll_stored line fresh rfl
  have arms : assigned? (if b then yes else no) = some (if b then 1 else 0) := by
    cases b
    · exact no'
    · exact yes'
  obtain ⟨env, ran, found⟩ := scoped_assigned (w := 7) arms (by cases b <;> decide)
  refine ⟨env, ?_, found.trans ?_⟩
  · rw [← List.singleton_append, runsAll_append, start, Env.andThen, Option.bind_some, if_pos rfl, runsAll_singleton,
      runs_conditional value, ran]
  · cases b <;> rfl

end Stmt

/-! ### What is generated for them -/

namespace Gen

variable {c : Context} {p p' : Progress} {calls : CallCode} {exits : Exits} {s : Stmt} {ss : List Stmt}

/-- Code of several statements is only generated if that of each is. -/
theorem statements_ran (ran : (statements calls exits ss).exec c p = .ok ((), p')) (member : s ∈ ss) :
    ∃ p₁ p₂, (statement calls exits s).exec c p₁ = .ok ((), p₂) := by
  induction ss generalizing p with
  | nil => cases member
  | cons first rest ih =>
    obtain ⟨⟨⟩, p₁, done, ran⟩ := exec_bind_ok ran
    obtain ⟨⟨⟩, p₂, -, ran⟩ := exec_bind_ok ran
    rcases List.mem_cons.1 member with rfl | member
    · exact ⟨p, p₁, done⟩
    · exact ih ran member

/-- A definition is only compiled if its value shifts by literals. -/
theorem define_shifts {ty : TypeSpec} (ran : (define name ty (some (code calls e))).exec c p = .ok ((), p')) :
    e.ShiftsByLiterals := by
  obtain ⟨⟨⟩, p₁, ran, -⟩ := exec_bind_ok ran
  unfold initialise at ran
  split at ran
  · next n known =>
    have literal := (Option.filter_eq_some_iff.1 known).1
    rw [expr_code] at literal
    cases e with
    | int | fixed => trivial
    | _ => cases literal
  · obtain ⟨v, p₂, ran, -⟩ := exec_bind_ok ran
    have shifts := (code_shifts c calls e).value ran
    rwa [expr_code] at shifts

end Gen

/-- A source that compiles, for data memory of some words. It gives some variables their numbers, and goes on with
other statements. -/
structure Given (words : Nat) (valuation : List (String × Number)) where
  config : Config
  source : String
  unit : TranslationUnit
  compilation : Compilation
  declarations : List Stmt
  rest : List Stmt
  parsed : parseSource source = .ok unit
  compiled : compile config source = .ok compilation
  room : unit.ordered.globalWords config.stackTop ≤ words
  parts : unit.statements = declarations ++ rest
  structured : Stmt.areStructured unit.statements = true
  gives : ∃ bound, Stmt.runsAll bound declarations [[]] = some (.onward, [valuation])

namespace Given

variable {P Q : Given words valuation}

/-- What is compiled ends without an error, with a word in a variable. -/
def Leaves (P : Given words valuation) (name : String) (w : Word) : Prop :=
  ∃ n after, EndsWithin P.compilation.program (fresh words) n after ∧ P.compilation.valueOf after name = some w

/-- What is compiled leaves the numbers that the statements behind the declarations mean. -/
theorem leaves (P : Given words valuation) {x : Number}
    (means : ∀ bound, ∃ env, Stmt.runsAll bound P.rest [valuation] = some (.onward, env) ∧ env.find? name = some x) :
    P.Leaves name x.word := by
  obtain ⟨bound, gives⟩ := P.gives
  obtain ⟨env, goes, found⟩ := means bound
  have whole : Stmt.runsAll bound P.unit.statements [[]] = some (.onward, env) := by
    rw [P.parts, Stmt.runsAll_append, gives, Env.andThen, Option.bind_some, if_pos rfl, goes]
  obtain ⟨g, did, finished, symbols⟩ := compile_generates P.parsed P.compiled
  obtain ⟨⟨p, linked⟩, own, computes⟩ := generate_computes P.parsed P.structured did P.room whole
  obtain ⟨n, after, ends, values⟩ := computes.ends own linked finished
  refine ⟨n, after, ends, ?_⟩
  rw [Compilation.valueOf, Compilation.location?, symbols, values name, found]
  rfl

/-- What is generated comes of the statements as they stand. -/
theorem generated (P : Given words valuation) : ∃ p, (Gen.source P.config.stackTop P.unit.statements).exec
    (Context.of P.unit P.config.verifyAllocator) Progress.initial = .ok ((), p) ∧
      P.compilation.symbols = p.allocator.symbols := by
  obtain ⟨g, did, -, symbols⟩ := compile_generates P.parsed P.compiled
  rw [P.unit.ordered_of_areStructured P.structured] at did
  obtain ⟨p, ran, rfl⟩ := P.unit.generate_ok did
  exact ⟨p, ran, symbols⟩

/-- Values are only stored by programs that compile if they shift by literals. -/
theorem shiftsByLiterals (stored : Stmt.stored? P.rest = some e) : e.ShiftsByLiterals := by
  obtain ⟨line, is⟩ := Stmt.stored?_eq_some stored
  obtain ⟨p, ran, -⟩ := P.generated
  obtain ⟨⟨⟩, p₁, -, ran⟩ := Gen.exec_bind_ok ran
  obtain ⟨context, p₂, -, ran⟩ := Gen.exec_bind_ok ran
  have member : .define line "r" ⟨.int, 0⟩ (some e) ∈ P.unit.statements := by
    rw [P.parts, is]
    exact List.mem_append_right _ (List.mem_singleton_self _)
  obtain ⟨p₃, p₄, ran⟩ := Gen.statements_ran ran member
  exact Gen.define_shifts ran

/-! ### Programs at hand -/

/-- A source of which so many statements are the declarations. -/
def of? (words : Nat) (valuation : List (String × Number)) (config : Config) (source : String) (count : Nat) :
    Option (Given words valuation) :=
  match parsed : parseSource source, compiled : compile config source with
  | .ok unit, .ok compilation =>
    if known : unit.ordered.globalWords config.stackTop ≤ words ∧ Stmt.areStructured unit.statements = true ∧
        Stmt.runsAll 0 (unit.statements.take count) [[]] = some (.onward, [valuation]) then
      some ⟨config, source, unit, compilation, unit.statements.take count, unit.statements.drop count, parsed, compiled,
        known.1, (List.take_append_drop count _).symm, known.2.1, ⟨0, known.2.2⟩⟩
    else none
  | _, _ => none

/-- The word that is left in a variable if what is compiled ends within some steps. The variable is looked up before
the symbols are sorted. -/
def leaves? (P : Given words valuation) (steps : Nat) (name : String) : Option Word :=
  match (Gen.source P.config.stackTop P.unit.statements).exec (Context.of P.unit P.config.verifyAllocator)
      Progress.initial, (fresh words).run P.compilation.program steps with
  | .ok ((), p), (after, .ok _) =>
    if after.fetch? P.compilation.program = none then (p.allocator.location? name).bind after.valueAt else none
  | _, _ => none

theorem leaves_of_leaves? {steps : Nat} (left : P.leaves? steps name = some w) : P.Leaves name w := by
  obtain ⟨p, ran, symbols⟩ := P.generated
  unfold leaves? at left
  rw [ran] at left
  split at left
  · next p' after made same did =>
    cases same
    split at left
    · next done =>
      refine ⟨steps, after, ⟨made, did, done⟩, ?_⟩
      rw [Compilation.valueOf, Compilation.location?, symbols, lookup_symbols]
      exact left
    · cases left
  · cases left

end Given

/-- An expression has the value that it had before the variable of the result was defined. -/
theorem Expr.eval_behind {x y : Number} (fresh : valuation.lookup "r" = none) (value : e.eval [valuation] = some x) :
    e.eval [("r", y) :: valuation] = some x := by
  refine e.eval_mono (fun name z found => ?_) value
  have other : name ≠ "r" := by
    rintro rfl
    simp [Env.find?, fresh] at found
  simpa [Env.find?, List.lookup_cons, beq_eq_false_iff_ne.2 other] using found

/-- A program that stores the value of a condition and one that branches on the condition leave the same, one or zero,
unless the condition comes to divide by zero. -/
theorem condition_stored_as_branched (P Q : Given words valuation) (stored : Stmt.stored? P.rest = some e)
    (branched : Stmt.branched? Q.rest = some e') (same : e.tree = e'.tree) (condition : e.isCondition = true)
    (within : e.Over fun name => (valuation.lookup name).isSome = true) (fresh : valuation.lookup "r" = none)
    (defined : e.dividesByZero [valuation] = false) :
    ∃ w : Word, (w = 0 ∨ w = 1) ∧ P.Leaves "r" w ∧ Q.Leaves "r" w := by
  have known : ∀ name, (valuation.lookup name).isSome = true → (Env.find? [valuation] name).isSome = true := by
    intro name there
    simpa [Env.find?] using there
  obtain ⟨x, value⟩ := Expr.eval_isSome known e within (Given.shiftsByLiterals stored) defined
  obtain ⟨b, rfl⟩ : ∃ b, x = .ofBool b := ⟨_, Expr.eval_of_isCondition condition value⟩
  refine ⟨(Number.ofBool b).word, by cases b <;> decide, P.leaves fun bound => ?_, Q.leaves fun bound => ?_⟩
  · obtain ⟨line, is⟩ := Stmt.stored?_eq_some stored
    rw [is]
    exact ⟨_, Stmt.runsAll_stored line fresh value, rfl⟩
  · refine Stmt.runsAll_branched branched fresh ?_
    rw [← Expr.eval_of_tree e e' same]
    exact Expr.eval_behind fresh value

/-- A condition on variables of both kinds. -/
def mixedValue : String := "int x = 3; float y = 1.5; int r = !x || y <= x && y * x > 4;"

def mixedBranch : String :=
  "int x = 3; float y = 1.5; int r = 7; if (!x || y <= x && y * x > 4) \x7b r = 1; \x7d else \x7b r = 0; \x7d"

/-- The numbers that the variables of the condition have, the last one first. -/
def mixedNumbers : List (String × Number) := [("y", ⟨.fixed, 98304⟩), ("x", ⟨.int, 3⟩)]

theorem condition_stored_as_branched_mixed : ∃ (P Q : Given 64 mixedNumbers) (e e' : Expr),
    P.source = mixedValue ∧ Q.source = mixedBranch ∧ Stmt.stored? P.rest = some e ∧
    Stmt.branched? Q.rest = some e' ∧ e.tree = e'.tree ∧ e.isCondition = true ∧
    e.Over (fun name => (mixedNumbers.lookup name).isSome = true) ∧ mixedNumbers.lookup "r" = none ∧
    e.dividesByZero [mixedNumbers] = false ∧
    ∃ w : Word, (w = 0 ∨ w = 1) ∧ P.Leaves "r" w ∧ Q.Leaves "r" w := by
  have evaluated : ((Given.of? 64 mixedNumbers {} mixedValue 2).any fun P =>
      (Given.of? 64 mixedNumbers {} mixedBranch 2).any fun Q =>
        (Stmt.stored? P.rest).any fun e => (Stmt.branched? Q.rest).any fun e' =>
          P.source = mixedValue && Q.source = mixedBranch && e.alike e' && e.isCondition &&
            decide (e.Over fun name => (mixedNumbers.lookup name).isSome = true) &&
            !e.dividesByZero [mixedNumbers]) = true := by decide +kernel
  simp only [Option.any_eq_true, Bool.and_eq_true, decide_eq_true_eq, Bool.not_eq_true'] at evaluated
  obtain ⟨P, -, Q, -, e, stored, e', branched, ⟨⟨⟨⟨first, second⟩, same⟩, condition⟩, within⟩, defined⟩ := evaluated
  have trees := e.tree_of_alike e' same
  exact ⟨P, Q, e, e', first, second, stored, branched, trees, condition, within, by decide, defined,
    condition_stored_as_branched P Q stored branched trees condition within (by decide) defined⟩

/-- A condition that divides by zero. Its other operand has made use of every register of the pool by then. -/
def quotientValue : String := "int x = 1; int r = -----------------x < x / 0;"

def quotientBranch : String :=
  "int x = 1; int r = 7; if (-----------------x < x / 0) \x7b r = 1; \x7d else \x7b r = 0; \x7d"

def quotientNumbers : List (String × Number) := [("x", ⟨.int, 1⟩)]

/-- What a condition comes to that divides by zero depends on how it is compiled. -/
theorem condition_stored_as_branched_quotient : ∃ (P Q : Given 4096 quotientNumbers) (e e' : Expr),
    P.source = quotientValue ∧ Q.source = quotientBranch ∧ Stmt.stored? P.rest = some e ∧
    Stmt.branched? Q.rest = some e' ∧ e.tree = e'.tree ∧ e.isCondition = true ∧
    e.Over (fun name => (quotientNumbers.lookup name).isSome = true) ∧ quotientNumbers.lookup "r" = none ∧
    P.Leaves "r" 1 ∧ Q.Leaves "r" 0 := by
  have evaluated : ((Given.of? 4096 quotientNumbers {} quotientValue 1).any fun P =>
      (Given.of? 4096 quotientNumbers {} quotientBranch 1).any fun Q =>
        (Stmt.stored? P.rest).any fun e => (Stmt.branched? Q.rest).any fun e' =>
          P.source = quotientValue && Q.source = quotientBranch && e.alike e' && e.isCondition &&
            decide (e.Over fun name => (quotientNumbers.lookup name).isSome = true) &&
            P.leaves? 100 "r" = some 1 && Q.leaves? 100 "r" = some 0) = true := by decide +kernel
  simp only [Option.any_eq_true, Bool.and_eq_true, decide_eq_true_eq] at evaluated
  obtain ⟨P, -, Q, -, e, stored, e', branched, ⟨⟨⟨⟨⟨first, second⟩, same⟩, condition⟩, within⟩, one⟩, zero⟩ := evaluated
  exact ⟨P, Q, e, e', first, second, stored, branched, e.tree_of_alike e' same, condition, within, by decide,
    Given.leaves_of_leaves? one, Given.leaves_of_leaves? zero⟩

end SmallC
