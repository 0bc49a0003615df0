import SmallC.Compilation
import SmallC.Proofs.Generation.Frames
import SmallC.Proofs.Parsing.Statements
import SmallC.Proofs.Program.Rerouting

/-!
Compiled scalar programs along the points of control. What is generated for a source flows from the top level,
and the peephole passes leave that as it is. So wherever a function returns, the stack pointer and the return
address are what they were when it was entered, and control goes on behind the call.
-/
namespace SmallC

open Allocator Gen

/-! ### The functions of a source -/

theorem Stmt.areScalar_iff {body : List Stmt} : areScalar body = true ↔ ∀ s ∈ body, s.isScalar = true := by
  induction body with
  | nil => simp [areScalar]
  | cons s rest ih => simp [areScalar, ih]

/-- The functions of scalar statements are scalar. -/
theorem functionsOf_scalar {unit : List Stmt} (scalar : ∀ s ∈ unit, s.isScalar = true) :
    ∀ f ∈ functionsOf unit, f.2.isScalar = true := by
  intro f member
  obtain ⟨s, inside, declares⟩ := mem_functionsOf member
  have whole := scalar s inside
  cases s with
  | function line name ret params body isInline =>
    cases declares
    cases body with
    | none => rfl
    | some body =>
      rw [Stmt.isScalar] at whole
      exact whole
  | expr | define | array | conditional | whileLoop | forLoop | returns | breaks | continues | asm | group =>
    cases declares

/-! ### A source -/

theorem initial_tame : Tame Allocator.initial := by
  have none : ∀ id, Allocator.initial.var? id = none := fun _ => rfl
  refine ⟨fun found => ?_, fun found => ?_, fun found => ?_, by decide, fun _ member => ?_, fun _ is => ?_⟩
  · cases (none _).symm.trans found
  · cases (none _).symm.trans found
  · cases (none _).symm.trans found
  · cases member
  · cases is

theorem initial_rested : Rested rootShape Allocator.initial := ⟨initial_at, initial_tame, rfl, rfl⟩

/-- What is known of a source whose calls return in place: its statements are proper and scalar, and its functions have
names of their own and not too many parameters. -/
structure TranslationUnit.Plain (unit : TranslationUnit) : Prop where
  proper : ∀ s ∈ unit.statements, s.RootProper
  callable : ∀ s ∈ unit.statements, s.Callable
  scalar : ∀ s ∈ unit.statements, s.isScalar = true

/-- What is generated for a source lets control at the top level pass. -/
theorem source_laid {unit : TranslationUnit} (plain : unit.Plain) {stackTop : Int} {p' : Progress}
    (ran : (source stackTop unit.statements).exec (Context.of unit false) Progress.initial = .ok ((), p')) :
    RootLaid (Context.of unit false) Progress.initial p' := by
  have functions : (Context.of unit false).Proper := functionsOf_proper plain.proper
  obtain ⟨_, mid, loaded, ran⟩ := exec_bind_ok ran
  obtain ⟨first, same⟩ := loadLiteral_root (c := Context.of unit false) loaded
  have rested : Rested rootShape mid.allocator := by rw [same]; exact initial_rested
  refine first.trans (rootStatements_laid rfl (calls_tidy functions [] _)
    (calls_balanced functions (functionsOf_scalar plain.scalar) [] _) rootShape_atRoot plain.proper
    (Stmt.areScalar_iff.2 plain.scalar) (fun s member entry declares => ?_) rested ran)
  refine ⟨functionsOf_declares member declares, (plain.callable s member entry declares).2.trans ?_⟩
  decide

/-- The points of generated labels are as given, and functions are entered at all other labels. -/
noncomputable def pointsOf (own : Nat → Point) (label : String) : Point :=
  open Classical in
  if generated : ∃ n, label = Draft.labelName n then own generated.choose else .inside 0 .held

theorem pointsOf_labelName (own : Nat → Point) (n : Nat) : pointsOf own (Draft.labelName n) = own n := by
  have generated : ∃ k, Draft.labelName n = Draft.labelName k := ⟨n, rfl⟩
  rw [pointsOf, dif_pos generated, ← labelName_inj generated.choose_spec]

theorem pointsOf_unlabelled (own : Nat → Point) {name : String} (unlabelled : Unlabelled name) :
    pointsOf own name = .inside 0 .held :=
  dif_neg fun ⟨n, same⟩ => unlabelled n same

/-- The words of global memory that the code of a source uses. -/
def TranslationUnit.globalWords (unit : TranslationUnit) (stackTop : Int) : Nat :=
  match (source stackTop unit.statements).exec (Context.of unit false) Progress.initial with
  | .ok (_, p) => p.allocator.globals
  | .error _ => 0

/-- The entries that are generated for a source have points of control. -/
theorem TranslationUnit.Plain.flows {unit : TranslationUnit} (plain : unit.Plain) {stackTop : Int}
    {verifies : Bool} {generated : Generated} (ran : unit.generate stackTop verifies = .ok generated) :
    ∃ points, Flows points (unit.globalWords stackTop) (some .outside) generated.draft.entries.toList := by
  obtain ⟨p, did, rfl⟩ := unit.generate_ok_unchecked plain.proper ran
  have laid := source_laid plain did
  obtain ⟨es, own, appended, passes⟩ := laid.code
  have room : unit.globalWords stackTop = p.allocator.globals := by rw [globalWords, did]
  obtain ⟨last, fits, -⟩ := passes (pointsOf own) (unit.globalWords stackTop) (Nat.le_of_eq room.symm)
    (fun n _ _ => pointsOf_labelName own n) fun f member => by
      obtain ⟨s, inside, declares⟩ := mem_functionsOf member
      exact pointsOf_unlabelled own (plain.callable s inside f declares).1
  change _ = [] ++ es at appended
  exact ⟨pointsOf own, last, appended ▸ fits⟩

theorem parseSource_plain {source : String} {unit : TranslationUnit} (parsed : parseSource source = .ok unit)
    (scalar : unit.isScalar = true) : unit.ordered.Plain := by
  have proper := parseSource_proper parsed
  have callable := parseSource_callable parsed
  have scalar := Stmt.areScalar_iff.1 scalar
  refine ⟨unit.ordered_proper proper, fun s member => ?_, fun s member => ?_⟩
  · obtain member | ⟨line, rfl⟩ := TranslationUnit.mem_ordered member
    · exact callable s member
    · exact fun _ is => by cases is
  · obtain member | ⟨line, rfl⟩ := TranslationUnit.mem_ordered member
    · exact scalar s member
    · simp [Stmt.isScalar, Expr.isScalar, Expr.areScalar]

/-- What is compiled for a scalar source has points of control, and links. -/
theorem compile_flows {config : Config} {source : String} {unit : TranslationUnit} {c : Compilation}
    (parsed : parseSource source = .ok unit) (scalar : unit.isScalar = true)
    (compiled : compile config source = .ok c) : ∃ es points, Linked es c.program ∧
      Flows points (unit.ordered.globalWords config.stackTop) (some .outside) es := by
  obtain ⟨g, did, finished, -⟩ := compile_generates parsed compiled
  obtain ⟨points, flows⟩ := (parseSource_plain parsed scalar).flows did
  refine ⟨_, points, linked_of_link finished, ?_⟩
  split
  · exact flows_optimize flows
  · exact flows

namespace Machine

/-- Compiled functions return in place. In any run of a compiled scalar program in which the stack keeps to its
place, a function that returns finds the stack pointer and the return address as they were when the call at hand
entered it, and control goes on behind that call. This holds however deep calls are nested, and on every path
through a function. -/
theorem compile_returns_in_place {config : Config} {source : String} {unit : TranslationUnit} {c : Compilation}
    (parsed : parseSource source = .ok unit) (scalar : unit.isScalar = true)
    (compiled : compile config source = .ok c) (small : c.program.size < 2 ^ 31) {words : Nat} {m : Machine}
    {acts : List Activation} {r : Reg}
    (run : Runs c.program (unit.ordered.globalWords config.stackTop) (fresh words) m acts)
    (returns : m.fetch? c.program = some (.jr r)) :
    ∃ act rest, acts = act :: rest ∧ r = Reg.returnAddress ∧ m.reg Reg.stackPointer = act.stack ∧
      m.reg Reg.returnAddress = act.link ∧
      ∃ next, StepsTo c.program m next ∧ next.pc = act.site + 1 := by
  obtain ⟨es, points, linked, last, fits⟩ := compile_flows parsed scalar compiled
  have track := run.onTrack linked fits (linked.size ▸ small) (reg_fresh _ words) rfl
  obtain ⟨act, rest, active, own, stack, link, called, behind⟩ := track.returns linked returns
  refine ⟨act, rest, active, own, stack, link, m.goto (act.site + 1), ⟨.jr r, m, act.site + 1, returns, ?_, rfl⟩, ?_⟩
  · rw [execute, own, behind]
  · obtain ⟨site, at'⟩ := Int.eq_ofNat_of_zero_le called
    rw [at']
    exact pc_goto_nat _ (site + 1)

/-- A function that calls itself once. -/
def countdown : String :=
  "int f(int n) \x7b if (n < 1) \x7b return 0; \x7d return f(n - 1) + 1; \x7d int x = f(1);"

/-- The inner call returns first, behind the call in the function. -/
theorem compile_returns_in_place_nested : ∃ unit c m act rest, parseSource countdown = .ok unit ∧
    unit.isScalar = true ∧ compile {} countdown = .ok c ∧ c.program.size < 2 ^ 31 ∧
    Runs c.program (unit.ordered.globalWords 2047) (fresh 2048) m (act :: rest) ∧ rest ≠ [] ∧
    m.fetch? c.program = some (.jr Reg.returnAddress) ∧ m.reg Reg.stackPointer = act.stack ∧
    m.reg Reg.returnAddress = act.link ∧ ∃ next, StepsTo c.program m next ∧ next.pc = act.site + 1 := by
  have returns : (match parseSource countdown, compile {} countdown with
      | .ok unit, .ok c => unit.isScalar && decide (c.program.size < 2 ^ 31) &&
        (follow c.program (unit.ordered.globalWords 2047) 23 (fresh 2048, [])).any fun (m, acts) =>
          acts.length = 2 && m.fetch? c.program = some (.jr Reg.returnAddress)
      | _, _ => false) = true := by decide +kernel
  split at returns
  · next unit c parsed compiled =>
    cases followed : follow c.program (unit.ordered.globalWords 2047) 23 (fresh 2048, []) with
    | none =>
      rw [followed, Option.any_none, Bool.and_false] at returns
      cases returns
    | some reached =>
      obtain ⟨m, acts⟩ := reached
      simp only [followed, Option.any_some, Bool.and_eq_true, decide_eq_true_eq] at returns
      obtain ⟨⟨scalar, small⟩, nested, fetched⟩ := returns
      have run := Runs.start.follow followed
      obtain ⟨act, rest, rfl, -, stack, link, behind⟩ :=
        compile_returns_in_place parsed scalar compiled small run fetched
      refine ⟨unit, c, m, act, rest, parsed, scalar, compiled, small, run, ?_, fetched, stack, link, behind⟩
      rintro rfl
      cases nested
  · cases returns

end Machine

end SmallC
