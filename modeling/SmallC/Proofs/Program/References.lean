import SmallC.Proofs.Generation.Labelled
import SmallC.Proofs.Generation.Sources
import SmallC.Proofs.Parsing.Definitions

/-!
The labels of whole programs. Without inline assembly, what is generated for a source binds no label twice and
every label that it refers to, but for calls of functions that no statement gives a body. So it links, with or
without the peephole passes, unless it calls such a function.
-/
namespace SmallC

open Gen

theorem Stmt.areAsmFree_iff {body : List Stmt} : areAsmFree body = true ↔ ∀ s ∈ body, s.isAsmFree = true := by
  induction body with
  | nil => simp [areAsmFree]
  | cons s rest ih => simp [areAsmFree, ih]

/-- A function that is compiled has a body. -/
theorem Stmt.definedName?_of_compiledName? {s : Stmt} {name : String} (compiled : s.compiledName? = some name) :
    s.definedName? = some name := by
  unfold compiledName? at compiled
  split at compiled
  · exact compiled
  · cases compiled

theorem Stmt.function?_of_definedName? {s : Stmt} {name : String} (defined : s.definedName? = some name) :
    ∃ f, s.function? = some (name, f) ∧ f.body.isSome = true := by
  unfold definedName? at defined
  split at defined
  · cases defined
    exact ⟨_, rfl, rfl⟩
  · cases defined

/-- A function with a body that calls are transferred to is compiled. -/
theorem Stmt.compiledName?_of_function? {s : Stmt} {name : String} {f : Function} (declares : s.function? = some (name, f))
    (body : f.body.isSome = true) (transfers : f.isInline = true → f.body = none) : s.compiledName? = some name := by
  cases s with
  | function line other ret params inside isInline =>
    cases declares
    cases inside with
    | none => cases body
    | some inside =>
      cases isInline with
      | false => rfl
      | true => cases transfers rfl
  | expr | define | array | conditional | whileLoop | forLoop | returns | breaks | continues | asm | group =>
    cases declares

/-- The functions of statements without inline assembly have none either. -/
theorem functionsOf_asmFree {unit : List Stmt} (free : Stmt.areAsmFree unit = true) :
    ∀ f ∈ functionsOf unit, f.2.isAsmFree = true := by
  intro f member
  obtain ⟨s, inside, declares⟩ := mem_functionsOf member
  have whole := Stmt.areAsmFree_iff.1 free s inside
  cases s with
  | function line name ret params body isInline =>
    cases declares
    cases body with
    | none => rfl
    | some body =>
      rw [Stmt.isAsmFree] at whole
      exact whole
  | expr | define | array | conditional | whileLoop | forLoop | returns | breaks | continues | asm | group =>
    cases declares

namespace TranslationUnit

variable {unit : TranslationUnit}

/-- The function is declared, and no statement gives it a body. -/
structure Bodiless (unit : TranslationUnit) (name : String) : Prop where
  declared : ∃ s ∈ unit.statements, ∃ f, s.function? = some (name, f)
  undefined : ∀ s ∈ unit.statements, s.definedName? ≠ some name

/-- The order of execution is an order of the statements, and of a call of the entry point behind them. -/
theorem ordered_perm (unit : TranslationUnit) : ∃ calls : List Stmt, calls.filterMap Stmt.compiledName? = [] ∧
    unit.ordered.statements.Perm (unit.statements ++ calls) := by
  unfold ordered
  simp only [List.partition_eq_filter_filter]
  refine ⟨_, ?_, (List.perm_append_comm.trans (List.filter_append_perm _ unit.statements)).append_right _⟩
  split <;> rfl

/-- No two compiled functions of a parsed source have the same name. -/
theorem compiledNames_nodup {source : String} (parsed : parseSource source = .ok unit) :
    (unit.ordered.statements.filterMap Stmt.compiledName?).Nodup := by
  obtain ⟨calls, none, perm⟩ := unit.ordered_perm
  rw [(perm.filterMap _).nodup_iff, List.filterMap_append, none, List.append_nil]
  refine List.pairwise_filterMap.2 ((List.pairwise_filterMap.1 (parseSource_definedNames_nodup parsed)).imp ?_)
  exact fun apart name compiled name' compiled' =>
    apart name (Stmt.definedName?_of_compiledName? compiled) name' (Stmt.definedName?_of_compiledName? compiled')

theorem ordered_areAsmFree (free : Stmt.areAsmFree unit.statements = true) :
    Stmt.areAsmFree unit.ordered.statements = true := by
  refine Stmt.areAsmFree_iff.2 fun s member => ?_
  obtain member | ⟨line, rfl⟩ := mem_ordered member
  · exact Stmt.areAsmFree_iff.1 free s member
  · rw [Stmt.isAsmFree]

/-- A statement of the source in order of execution that declares a function is one of the source. -/
theorem mem_of_mem_ordered {s : Stmt} (member : s ∈ unit.ordered.statements) {entry : String × Function}
    (declares : s.function? = some entry) : s ∈ unit.statements := by
  obtain member | ⟨line, rfl⟩ := mem_ordered member
  · exact member
  · cases declares

/-- A function that calls are transferred to is compiled, or has no body. -/
theorem compiled_or_bodiless {verifies : Bool} {name : String}
    (transfers : (Context.of unit.ordered verifies).Transfers name) :
    name ∈ unit.ordered.statements.filterMap Stmt.compiledName? ∨ unit.Bodiless name := by
  obtain ⟨f, known, transferred⟩ := transfers
  obtain ⟨before, after, split, -⟩ := List.lookup_eq_some_iff.1 known
  have member : (name, f) ∈ functionsOf unit.ordered.statements := by
    change (name, f) ∈ (Context.of unit.ordered verifies).functions
    rw [split]
    exact List.mem_append_right before List.mem_cons_self
  obtain ⟨s, inside, declares⟩ := mem_functionsOf member
  cases body : f.body.isSome with
  | true =>
    exact .inl (List.mem_filterMap.2 ⟨s, inside, Stmt.compiledName?_of_function? declares body transferred⟩)
  | false =>
    refine .inr ⟨⟨s, mem_of_mem_ordered inside declares, f, declares⟩, fun s' member defined => ?_⟩
    obtain ⟨f', declares', body'⟩ := Stmt.function?_of_definedName? defined
    obtain ⟨calls, -, perm⟩ := unit.ordered_perm
    have member' := perm.mem_iff.2 (List.mem_append_left calls member)
    cases body.symm.trans (functionsOf_hasBody member' declares' body' known)

/-- No function of a parsed source has the name of a generated label. -/
theorem compiledNames_unlabelled {source : String} (parsed : parseSource source = .ok unit) {name : String}
    (member : name ∈ unit.ordered.statements.filterMap Stmt.compiledName?) : Unlabelled name := by
  obtain ⟨s, inside, compiled⟩ := List.mem_filterMap.1 member
  obtain ⟨f, declares, -⟩ := Stmt.function?_of_definedName? (Stmt.definedName?_of_compiledName? compiled)
  exact (parseSource_callable parsed s (mem_of_mem_ordered inside declares) _ declares).1

theorem Bodiless.unlabelled {source : String} (parsed : parseSource source = .ok unit) {name : String}
    (bodiless : unit.Bodiless name) : Unlabelled name := by
  obtain ⟨s, member, f, declares⟩ := bodiless.declared
  exact (parseSource_callable parsed s member _ declares).1

end TranslationUnit

/-- What is generated from the start, labels of its own besides the given ones, is closed. -/
theorem closed_of_bound {c : Context} {missing : String → Prop} {names : List String} {p : Progress}
    (bound : Bound c [] names Progress.initial p) (distinct : names.Nodup) (unlabelled : ∀ name ∈ names, Unlabelled name)
    (transfers : ∀ name, c.Transfers name → name ∈ names ∨ missing name) : Closed missing p.draft.entries.toList := by
  have binds : (labelsOf p.draft.entries.toList : Multiset String) = names + Draft.freshLabels 0 p.draft.labels := by
    have binds := bound.binds
    rwa [show labelsOf Progress.initial.draft.entries.toList = [] from rfl, Multiset.coe_nil, zero_add] at binds
  have there (l : String) : l ∈ labelsOf p.draft.entries.toList ↔ l ∈ names ∨ l ∈ Draft.freshLabels 0 p.draft.labels := by
    rw [← Multiset.mem_coe, binds, Multiset.mem_add, Multiset.mem_coe]
  refine ⟨?_, fun e member t target => ?_⟩
  · rw [← Multiset.coe_nodup, binds, Multiset.nodup_add]
    refine ⟨Multiset.coe_nodup.2 distinct, Draft.nodup_freshLabels, Multiset.disjoint_left.2 fun own fresh => ?_⟩
    obtain ⟨n, -, -, generated⟩ := Draft.mem_freshLabels.1 fresh
    exact unlabelled _ (Multiset.mem_coe.1 own) n generated
  · rcases bound.refers e member with ⟨_, none, -⟩ | refers
    · cases none
    · rcases refers t target with known | fresh | ⟨t', is, transferred⟩
      · cases known
      · exact .inl ((there _).2 (.inr fresh))
      · rw [Entry.target?, is] at target
        cases target
        exact (transfers _ transferred).imp (fun own => (there _).2 (.inl own)) fun absent => ⟨t, is, absent⟩

/-- What is generated for a source without inline assembly is closed, but for calls of functions without bodies. -/
theorem generate_closed {source : String} {unit : TranslationUnit} (parsed : parseSource source = .ok unit)
    (free : Stmt.areAsmFree unit.statements = true) {stackTop : Int} {verifies : Bool} {generated : Generated}
    (ran : unit.ordered.generate stackTop verifies = .ok generated) :
    Closed unit.Bodiless generated.draft.entries.toList := by
  obtain ⟨p, did, rfl⟩ := unit.ordered.generate_ok ran
  have proper := unit.ordered_proper (parseSource_proper parsed)
  have free' := unit.ordered_areAsmFree free
  exact closed_of_bound (source_binds (c := Context.of unit.ordered verifies) (functionsOf_proper proper)
      (functionsOf_asmFree free') proper free' stackTop _ _ _ did)
    (unit.compiledNames_nodup parsed) (fun _ => unit.compiledNames_unlabelled parsed) fun _ => unit.compiled_or_bodiless

/-- Generated labels are complete and unambiguous. What is generated for a source without inline assembly binds no
label twice, and every label that it refers to, calls of declared functions without bodies apart. So it links,
whether the peephole passes run or not, or misses the label of such a function, which is no generated one. -/
theorem generated_labels_complete {source : String} {unit : TranslationUnit} (parsed : parseSource source = .ok unit)
    (free : Stmt.areAsmFree unit.statements = true) {stackTop : Int} {verifies : Bool} {generated : Generated}
    (ran : unit.ordered.generate stackTop verifies = .ok generated) :
    Closed unit.Bodiless generated.draft.entries.toList ∧
      ∀ optimize, (∃ program, generated.draft.finish optimize = .ok program) ∨
        ∃ name, unit.Bodiless name ∧ Unlabelled name ∧ generated.draft.finish optimize = .error (.missingLabel name) := by
  have closed := generate_closed parsed free ran
  refine ⟨closed, fun optimize => (closed.finish optimize).imp_right ?_⟩
  rintro ⟨name, bodiless, fails⟩
  exact ⟨name, bodiless, bodiless.unlabelled parsed, fails⟩

/-- A function that is called in a loop and expands another, which calls one without a body. -/
def unfinished : String :=
  "int g(int a); inline int h(int a) \x7b if (a < 1) \x7b return g(a); \x7d return a; \x7d " ++
    "int f(int a) \x7b while (a) \x7b a = h(a) - 1; \x7d return a; \x7d int x = f(3);"

/-- It does not link: the label of the function without a body is missing. -/
theorem generated_labels_complete_unfinished : ∃ unit generated, parseSource unfinished = .ok unit ∧
    Stmt.areAsmFree unit.statements = true ∧ unit.ordered.generate 2047 false = .ok generated ∧
    Closed unit.Bodiless generated.draft.entries.toList ∧
    ∀ optimize, ∃ name, unit.Bodiless name ∧ generated.draft.finish optimize = .error (.missingLabel name) := by
  have evaluated : ((parseSource unfinished).toOption.any fun unit => Stmt.areAsmFree unit.statements &&
      (unit.ordered.generate 2047 false).toOption.any fun generated =>
        [false, true].all fun optimize => (generated.draft.finish optimize).toOption.isNone) = true := by
    decide +kernel
  cases parsed : parseSource unfinished with
  | error e =>
    rw [parsed] at evaluated
    cases evaluated
  | ok unit =>
    rw [parsed] at evaluated
    obtain ⟨free, evaluated⟩ := (Bool.and_eq_true _ _).mp evaluated
    cases ran : unit.ordered.generate 2047 false with
    | error e =>
      rw [ran] at evaluated
      cases evaluated
    | ok generated =>
      rw [ran] at evaluated
      have fails : ∀ optimize, (generated.draft.finish optimize).toOption = none := by
        simpa [Except.toOption, Bool.forall_bool] using evaluated
      obtain ⟨closed, finish⟩ := generated_labels_complete parsed free ran
      refine ⟨unit, generated, rfl, free, ran, closed, fun optimize => ?_⟩
      rcases finish optimize with ⟨program, links⟩ | ⟨name, bodiless, -, missing⟩
      · have none := fails optimize
        rw [links] at none
        cases none
      · exact ⟨name, bodiless, missing⟩

end SmallC
