import SmallC.Generation.Source
import SmallC.Proofs.Generation.Statements

/-!
Whole sources. Statements are settled by induction on their syntax, given that calls are tidy, and calls by
induction on how many functions may still be expanded, given that statements are settled. So the check of
the allocator never finds anything, and switching it on changes nothing.
-/
namespace SmallC

/-- The shape of a state at the top level, between two statements. -/
structure Shape.AtRoot (s : Shape) : Prop where
  empty : s.alive = 0
  outside : s.inside = false
  root : ∃ further : List (String × VarId), s.aliases = [further] ∧ further.lookup resultName = none
  unreserved : s.reserved = []

/-- The shape of a state at the start of a function body. -/
def Shape.inFunction (s : Shape) : Shape := { s with aliases := s.aliases ++ [[]], inside := true }

theorem Shape.AtRoot.ready {s : Shape} (atRoot : s.AtRoot) : s.Ready := by
  obtain ⟨further, only, plain⟩ := atRoot.root
  refine ⟨atRoot.unreserved, fun other member => ?_, fun inside => nomatch atRoot.outside.symm.trans inside⟩
  rw [only] at member
  rwa [List.mem_singleton.1 member]

theorem Shape.AtRoot.inFunction {s : Shape} (atRoot : s.AtRoot) : s.inFunction.Ready := by
  obtain ⟨further, only, plain⟩ := atRoot.root
  refine ⟨atRoot.unreserved, fun other member => ?_, fun _ => by simp [Shape.inFunction, only]⟩
  rcases List.mem_append.1 member with member | member
  · exact atRoot.ready.plain other member
  · rw [List.mem_singleton.1 member]
    rfl

namespace Gen

open Allocator

variable {c : Context} {calls : CallCode}

/-! ### Statements -/

theorem optional_tidy (calls' : calls.Tidy c) {value : Option Expr}
    (proper : ∀ e, value = some e → e.Proper) :
    ∀ code, value.map (Gen.code calls) = some code → code.Tidy c := by
  intro code is
  obtain ⟨e, has, rfl⟩ := Option.map_eq_some_iff.1 is
  exact code_tidy calls' e (proper e has)

mutual

/-- A statement that is no function leaves the shape of the state alone. -/
theorem statement_settles (calls' : calls.Tidy c) (exits : Exits) :
    ∀ s : Stmt, s.Proper → Settles c exits (statement calls exits s)
  | .expr e, proper => by
    rw [Stmt.Proper] at proper
    rw [statement]
    exact (evaluate_stays (code_tidy calls' e proper)).settles
  | .define line name ty value, proper => by
    rw [Stmt.Proper] at proper
    rw [statement]
    exact (define_stays name ty (optional_tidy calls' proper)).settles
  | .array line name ty dims init, proper => by
    rw [Stmt.Proper] at proper
    rw [statement]
    exact (defineArray_stays name ty dims (codes_tidy calls' init proper)).settles
  | .function line name ret params body isInline, proper => by
    rw [Stmt.Proper] at proper
    rw [proper]
    simp only [statement]
    exact fun _ _ _ => .pure fun _ before => before
  | .conditional line branches (some otherwise), proper => by
    rw [Stmt.Proper] at proper
    rw [statement]
    exact conditional_settles (branchCodes_settle calls' exits branches proper.1) fun body is => by
      cases is
      exact statements_settle calls' exits otherwise proper.2
  | .conditional line branches none, proper => by
    rw [Stmt.Proper] at proper
    rw [statement]
    exact conditional_settles (branchCodes_settle calls' exits branches proper) fun _ is => nomatch is
  | .whileLoop line cond body, proper => by
    rw [Stmt.Proper] at proper
    rw [statement]
    exact whileLoop_settles (code_tidy calls' cond proper.1) fun brk cont =>
      statements_settle calls' (exits.inLoop brk cont) body proper.2
  | .forLoop line (some init) cond step body, proper => by
    rw [Stmt.Proper] at proper
    rw [statement]
    refine forLoop_settles (fun s ready empty => ?_) (optional_tidy calls' proper.2.1)
      (optional_tidy calls' proper.2.2.1) fun brk cont =>
        statements_settle calls' (exits.inLoop brk cont) body proper.2.2.2
    exact (statement_settles calls' exits init proper.1 s ready empty).bind fun _ => releaseHolds_stays
  | .forLoop line none cond step body, proper => by
    rw [Stmt.Proper] at proper
    rw [statement]
    exact forLoop_settles (fun _ _ _ => .pure fun _ before => before) (optional_tidy calls' proper.1)
      (optional_tidy calls' proper.2.1) fun brk cont =>
        statements_settle calls' (exits.inLoop brk cont) body proper.2.2
  | .returns line value, proper => by
    rw [Stmt.Proper] at proper
    rw [statement]
    exact (leave_stays line (optional_tidy calls' proper)).settles
  | .breaks line, _ => by
    rw [statement]
    exact (leaveFor_stays _ line _).settles
  | .continues line, _ => by
    rw [statement]
    exact (leaveFor_stays _ line _).settles
  | .asm line text, _ => by
    rw [statement]
    exact (asmBlock_stays line text).settles
  | .group line body, proper => by
    rw [Stmt.Proper] at proper
    rw [statement]
    exact block_settles (statements_settle calls' exits body proper)

theorem statements_settle (calls' : calls.Tidy c) (exits : Exits) :
    ∀ body : List Stmt, Stmt.AllProper body → Settles c exits (statements calls exits body)
  | [], _ => by
    rw [statements]
    exact fun _ _ _ => .pure fun _ before => before
  | s :: rest, proper => by
    rw [Stmt.AllProper] at proper
    rw [statements]
    exact fun t ready empty => (statement_settles calls' exits s proper.1 t ready empty).bind fun _ =>
      (endStatement_settles s.line t ready empty).bind fun _ =>
        statements_settle calls' exits rest proper.2 t ready empty

theorem branchCodes_settle (calls' : calls.Tidy c) (exits : Exits) :
    ∀ branches : List Branch, Stmt.BranchesProper branches →
      ∀ branch ∈ branchCodes calls exits branches, branch.1.Tidy c ∧ Settles c exits branch.2
  | [], _ => by
    rw [branchCodes]
    exact fun _ member => nomatch member
  | .mk cond body :: rest, proper => by
    rw [Stmt.BranchesProper] at proper
    rw [branchCodes]
    exact List.forall_mem_cons.2 ⟨⟨code_tidy calls' cond proper.1,
      statements_settle calls' exits body proper.2.1⟩, branchCodes_settle calls' exits rest proper.2.2⟩

end

/-! ### Calls -/

/-- Calls are tidy however many functions may still be expanded. -/
theorem calls_tidy (functions : c.Proper) (active : List String) (levels : Nat) :
    (Gen.calls active levels).Tidy c := by
  induction levels generalizing active with
  | zero =>
    rw [Gen.calls]
    exact call_tidy fun _ _ _ _ _ _ _ _ _ _ => .fail _ _
  | succ levels ih =>
    rw [Gen.calls]
    refine call_tidy fun line name f body args found has tidy s ready => .refuse fun _ => ?_
    have member : (name, f) ∈ c.functions := by
      obtain ⟨before, after, split, -⟩ := List.lookup_eq_some_iff.1 found
      rw [split]
      exact List.mem_append_right before List.mem_cons_self
    have proper := functions name f member
    exact expand_yields (fun param member => (proper.params param member).other) (fun label t ready =>
      statements_settle (ih (name :: active)) (Exits.ofFunction label f.ret true) body (proper.body body has) t ready fun outside =>
        nomatch (show true = false from outside))
      tidy s ready

/-! ### Functions -/

theorem loadParams_stays {s : Shape} (slot : Nat) (params : List Param) :
    Meets c (At s) (loadParams slot params) fun _ => At s := by
  induction params generalizing slot with
  | nil => exact .pure fun _ before => before
  | cons param rest ih =>
    exact (Meets.alloc (Alloc.addVariable_new_stays param.name)).bind fun _ => (emit_stays _).bind fun _ =>
      ih (slot + 1)

theorem enter_stays {s : Shape} (params : List Param) :
    Meets c (At s) (enter params) fun _ => At s := by
  have given : ∀ p ∈ params.zip Reg.arguments, Alloc.Leads (At s) (do
      let _ ← Alloc.addVariable p.1.name (some p.2)) fun _ => At s := fun p member =>
    (Alloc.addVariable_stays p.1.name fun r given => by
      cases given
      exact (List.of_mem_zip member).2).bind fun _ => .pure fun _ after => after
  have last : ∀ place : Nat, Meets c (At s) (do
      emit MachineInstr.noop
      (params.zip Reg.arguments).forM fun p => alloc do
        let _ ← Alloc.addVariable p.1.name (some p.2)
      params.forM fun param => noteType param.name param.ty true
      releaseHolds
      return place) fun _ => At s := fun place =>
    (emit_stays _).bind fun _ =>
      (Meets.forM (I := fun _ => At s) _ fun p _ member => .alloc (given p member)).bind fun _ =>
      (Meets.forM (I := fun _ => At s) _ fun param _ _ => noteType_stays _ _ _).bind fun _ =>
      releaseHolds_stays.bind fun _ => .pure fun _ after => after
  exact (loadParams_stays 0 _).bind fun _ => .get fun p => last p.draft.size

theorem enterFunction_opens {s : Shape} (atRoot : s.AtRoot) :
    Alloc.Leads (At s) Alloc.enterFunction fun _ => At s.inFunction := by
  intro w _ w' before ran
  have root : w.allocator.inner = [] := by
    obtain ⟨further, only, -⟩ := atRoot.root
    have length := congrArg (fun s : Shape => s.aliases.length) before.shape
    simp only [Allocator.shape, List.length_map, length_levels, only, List.length_singleton] at length
    exact List.eq_nil_of_length_eq_zero (by rw [← Allocator.depth]; omega)
  have temps : w.allocator.temps = [] := by
    have alive := congrArg Shape.alive before.shape
    rw [atRoot.empty] at alive
    exact List.map_eq_nil_iff.1 ((Multiset.coe_eq_zero _).1 alive)
  have unreserved : w.allocator.reserved = [] := (congrArg Shape.reserved before.shape).trans atRoot.unreserved
  obtain ⟨sound, idle⟩ :=
    Alloc.enterFunction_sound before.sound root temps unreserved before.idle ran
  exact ⟨sound, idle, by rw [Alloc.shape_enterFunction before.sound ran, before.shape]; rfl⟩

theorem leaveFunction_closes {s : Shape} (atRoot : s.AtRoot) :
    Alloc.Leads (At s.inFunction) Alloc.leaveFunction fun _ => At s := by
  intro w n w' before ran
  have unreserved : w.allocator.reserved = [] := (congrArg Shape.reserved before.shape).trans atRoot.unreserved
  have empty : w.allocator.shape.alive = 0 := (congrArg Shape.alive before.shape).trans atRoot.empty
  obtain ⟨sound, idle⟩ := Alloc.leaveFunction_sound before.sound unreserved before.idle ran
  refine ⟨sound, idle, ?_⟩
  obtain ⟨further, only, -⟩ := atRoot.root
  have root : w.allocator.root.aliases = further := by
    have aliases := congrArg (fun s : Shape => s.aliases.head?) before.shape
    simpa [Allocator.shape, Allocator.levels, Shape.inFunction, only] using aliases
  rw [Alloc.shape_leaveFunction before.sound empty ran, before.shape, root, Shape.inFunction, ← only,
    ← atRoot.outside]

theorem function_stays {s : Shape} (atRoot : s.AtRoot) (name : String) (ret : TypeSpec)
    (params : List Param) {body : Exits → Gen Unit}
    (settles : ∀ label, Settles c (Exits.ofFunction label ret false) (body (Exits.ofFunction label ret false))) :
    Meets c (At s) (function name ret params body) fun _ => At s := by
  refine freshLabel_stays.bind fun behind => freshLabel_stays.bind fun done => (jump_stays behind).bind fun _ => ?_
  refine (draft_stays _).bind fun _ => (Meets.alloc (enterFunction_opens atRoot)).bind fun _ => ?_
  refine (enter_stays params).bind fun entry => ?_
  refine (settles done _ atRoot.inFunction fun _ => atRoot.empty).bind fun _ => (placeLabel_stays done).bind fun _ => ?_
  have last : ∀ exit : Nat, Meets c (At s.inFunction) (do
      emit MachineInstr.noop
      let frame ← alloc Alloc.leaveFunction
      if frame > 0 then
        draft fun d => d.patch entry (.addi Reg.stackPointer Reg.stackPointer (-(frame : Int)))
        draft fun d => d.patch exit (.addi Reg.stackPointer Reg.stackPointer frame)
      emit (.jr Reg.returnAddress)
      draft fun d => d.placeLabel behind) fun _ => At s := fun exit =>
    have end_ : Meets c (At s) (do
        emit (.jr Reg.returnAddress)
        draft fun d => d.placeLabel behind) fun _ => At s :=
      (emit_stays _).bind fun _ => draft_stays _
    (emit_stays _).bind fun _ => (Meets.alloc (leaveFunction_closes atRoot)).bind fun frame =>
      .ite (fun _ => (draft_stays _).bind fun _ => (draft_stays _).bind fun _ => end_) fun _ => end_
  exact .get fun p => last p.draft.size

/-! ### The top level -/

/-- Control jumps over a function where it stands, and the body is compiled in a state of its own. -/
theorem rootStatement_stays (calls' : calls.Tidy c) {s : Shape} (atRoot : s.AtRoot) (st : Stmt)
    (proper : st.RootProper) : Meets c (At s) (statement calls Exits.none st) fun _ => At s := by
  have settled : st.Proper → Meets c (At s) (statement calls Exits.none st) fun _ => At s := fun proper =>
    statement_settles calls' Exits.none st proper s atRoot.ready fun _ => atRoot.empty
  match st, proper, settled with
  | .function line name ret params (some body) false, proper, _ =>
    rw [statement]
    exact function_stays atRoot name ret params fun label =>
      statements_settle calls' (Exits.ofFunction label ret false) body (proper.body body rfl)
  | .function line name ret params (some body) true, _, _
  | .function line name ret params none _, _, _ =>
    simp only [statement]
    exact .pure fun _ before => before
  | .expr .., proper, settled | .define .., proper, settled | .array .., proper, settled
  | .conditional .., proper, settled | .whileLoop .., proper, settled | .forLoop .., proper, settled
  | .returns .., proper, settled | .breaks .., proper, settled | .continues .., proper, settled
  | .asm .., proper, settled | .group .., proper, settled => exact settled proper

theorem rootStatements_stay (calls' : calls.Tidy c) {s : Shape} (atRoot : s.AtRoot) {unit : List Stmt}
    (proper : ∀ st ∈ unit, st.RootProper) :
    Meets c (At s) (statements calls Exits.none unit) fun _ => At s := by
  induction unit with
  | nil =>
    rw [statements]
    exact .pure fun _ before => before
  | cons st rest ih =>
    rw [statements]
    have ended : Settles c Exits.none (endStatement Exits.none st.line) := endStatement_settles st.line
    exact (rootStatement_stays calls' atRoot st (proper st List.mem_cons_self)).bind fun _ =>
      (ended s atRoot.ready fun _ => atRoot.empty).bind fun _ =>
        ih fun st member => proper st (List.mem_cons_of_mem _ member)

/-- The shape of the state that generation starts in. -/
def rootShape : Shape := ⟨0, [[]], false, []⟩

theorem rootShape_atRoot : rootShape.AtRoot := ⟨rfl, rfl, ⟨[], rfl, rfl⟩, rfl⟩

theorem initial_at : At rootShape Allocator.initial := ⟨initial_inOrder.sound, rfl, rfl⟩

theorem source_stays (functions : c.Proper) {unit : List Stmt} (proper : ∀ st ∈ unit, st.RootProper)
    (stackTop : Int) : Meets c (At rootShape) (source stackTop unit) fun _ => At rootShape :=
  (loadLiteral_stays _ _).bind fun _ => .read (fun _ => rfl)
    (rootStatements_stay (calls_tidy functions [] c.functions.length) rootShape_atRoot proper)

end Gen

/-! ### The functions of a source -/

theorem addFunction_knows {known : List (String × Function)} {new : String × Function} {name : String}
    (knew : name = new.1 ∨ ∃ f, (name, f) ∈ known) : ∃ f, (name, f) ∈ addFunction known new := by
  unfold addFunction
  dsimp only
  split
  · next header =>
    rcases knew with rfl | knew
    · cases found : known.lookup new.1 with
      | none =>
        rw [found] at header
        cases header.1
      | some f =>
        obtain ⟨before, after, split, -⟩ := List.lookup_eq_some_iff.1 found
        exact ⟨f, by rw [split]; exact List.mem_append_right before List.mem_cons_self⟩
    · exact knew
  · by_cases same : name = new.1
    · exact ⟨new.2, by rw [same]; exact List.mem_cons_self⟩
    · obtain ⟨f, member⟩ := knew.resolve_left same
      exact ⟨f, List.mem_cons_of_mem _ (List.mem_filter.2 ⟨member, decide_eq_true same⟩)⟩

theorem foldl_addFunction_knows {new known : List (String × Function)} {name : String}
    (knew : (∃ entry ∈ new, name = entry.1) ∨ ∃ f, (name, f) ∈ known) :
    ∃ f, (name, f) ∈ new.foldl addFunction known := by
  induction new generalizing known with
  | nil => exact knew.resolve_left (by rintro ⟨_, member, -⟩; cases member)
  | cons first rest ih =>
    rcases knew with ⟨entry, member, rfl⟩ | knew
    · rcases List.mem_cons.1 member with rfl | member
      · exact ih (.inr (addFunction_knows (.inl rfl)))
      · exact ih (.inl ⟨entry, member, rfl⟩)
    · exact ih (.inr (addFunction_knows (.inr knew)))

/-- Every function that statements declare is known under its name. -/
theorem functionsOf_declares {unit : List Stmt} {s : Stmt} (member : s ∈ unit) {entry : String × Function}
    (declares : s.function? = some entry) : ∃ f, (entry.1, f) ∈ functionsOf unit :=
  foldl_addFunction_knows (.inl ⟨entry, List.mem_filterMap.2 ⟨s, member, declares⟩, rfl⟩)

/-- Every known function is one that a statement declares. -/
theorem mem_functionsOf {unit : List Stmt} {entry : String × Function} (member : entry ∈ functionsOf unit) :
    ∃ s ∈ unit, s.function? = some entry := by
  have added : ∀ (new known : List (String × Function)), entry ∈ new.foldl addFunction known →
      entry ∈ known ∨ entry ∈ new := by
    intro new
    induction new with
    | nil => exact fun _ member => .inl member
    | cons first rest ih =>
      intro known member
      rcases ih _ member with member | member
      · unfold addFunction at member
        dsimp only at member
        split at member
        · exact .inl member
        · rcases List.mem_cons.1 member with rfl | member
          · exact .inr List.mem_cons_self
          · exact .inl (List.mem_filter.1 member).1
      · exact .inr (List.mem_cons_of_mem _ member)
  rcases added _ [] member with member | member
  · cases member
  · obtain ⟨s, inside, declares⟩ := List.mem_filterMap.1 member
    exact ⟨s, inside, declares⟩

/-- The functions of a proper source are proper. -/
theorem functionsOf_proper {unit : List Stmt} (proper : ∀ st ∈ unit, st.RootProper) :
    ∀ name f, (name, f) ∈ functionsOf unit → f.Proper := by
  intro name f member
  obtain ⟨st, inside, declares⟩ := mem_functionsOf member
  have own := proper st inside
  rwa [Stmt.RootProper, declares] at own

/-- A name that has a body, or gets one, has one once a function has been added. -/
theorem addFunction_hasBody {known : List (String × Function)} {new : String × Function} {name : String}
    (has : new.1 = name ∧ new.2.body.isSome = true ∨ (known.lookup name).any (fun f => f.body.isSome) = true) :
    ((addFunction known new).lookup name).any (fun f => f.body.isSome) = true := by
  unfold addFunction
  dsimp only
  split
  · next header =>
    refine has.resolve_left fun ⟨_, body⟩ => ?_
    rw [Option.isNone_iff_eq_none.1 header.2] at body
    cases body
  · next fresh =>
    by_cases same : name = new.1
    · subst same
      rw [List.lookup_cons_self, Option.any_some]
      refine has.elim And.right fun old => ?_
      by_contra none
      exact fresh ⟨old, by simpa using none⟩
    · rw [List.lookup_cons, beq_false_of_ne same, lookup_dropped_of_ne known same]
      exact has.resolve_left fun own => same own.1.symm

theorem foldl_addFunction_hasBody {new known : List (String × Function)} {name : String}
    (has : (∃ entry ∈ new, entry.1 = name ∧ entry.2.body.isSome = true) ∨
      (known.lookup name).any (fun f => f.body.isSome) = true) :
    ((new.foldl addFunction known).lookup name).any (fun f => f.body.isSome) = true := by
  induction new generalizing known with
  | nil => exact has.resolve_left (by rintro ⟨_, member, -⟩; cases member)
  | cons first rest ih =>
    rcases has with ⟨entry, member, own⟩ | old
    · rcases List.mem_cons.1 member with rfl | member
      · exact ih (.inr (addFunction_hasBody (.inl own)))
      · exact ih (.inl ⟨entry, member, own⟩)
    · exact ih (.inr (addFunction_hasBody (.inr old)))

/-- A function that some statement gives a body is known with a body. -/
theorem functionsOf_hasBody {unit : List Stmt} {s : Stmt} (member : s ∈ unit) {name : String} {f known : Function}
    (declares : s.function? = some (name, f)) (body : f.body.isSome = true)
    (found : (functionsOf unit).lookup name = some known) : known.body.isSome = true := by
  have has : ((functionsOf unit).lookup name).any (fun f => f.body.isSome) = true :=
    foldl_addFunction_hasBody (.inl ⟨(name, f), List.mem_filterMap.2 ⟨s, member, declares⟩, rfl, body⟩)
  rwa [found] at has

/-! ### Checking -/

namespace TranslationUnit

variable {unit : TranslationUnit} {stackTop : Int} {verifies : Bool} {generated : Generated}

/-- Whether the allocator is checked makes no difference to what is generated for a proper source. -/
theorem generate_unchecked (proper : ∀ st ∈ unit.statements, st.RootProper) (stackTop : Int) :
    unit.generate stackTop true = unit.generate stackTop false := by
  have stays := Gen.source_stays (c := Context.of unit false) (functionsOf_proper proper) proper stackTop
  have same := stays.blind Progress.initial Gen.initial_at
  change (Gen.exec _ _ _ >>= _) = (Gen.exec _ _ _ >>= _)
  exact congrArg (· >>= _) same

/-- What is generated is read off the state that the generation of the code ends in. -/
theorem generate_ok (ran : unit.generate stackTop verifies = .ok generated) :
    ∃ p, (Gen.source stackTop unit.statements).exec (Context.of unit verifies) Progress.initial = .ok ((), p) ∧
      generated = ⟨p.draft, p.allocator.symbols⟩ := by
  change (Gen.exec _ _ _ >>= _) = _ at ran
  cases did : (Gen.source stackTop unit.statements).exec (Context.of unit verifies) Progress.initial with
  | error e =>
    rw [did] at ran
    cases ran
  | ok done =>
    rw [did] at ran
    cases ran
    exact ⟨done.2, rfl, rfl⟩

/-- A proper source is generated in the same way without checks. -/
theorem generate_ok_unchecked (proper : ∀ st ∈ unit.statements, st.RootProper)
    (ran : unit.generate stackTop verifies = .ok generated) :
    ∃ p, (Gen.source stackTop unit.statements).exec (Context.of unit false) Progress.initial = .ok ((), p) ∧
      generated = ⟨p.draft, p.allocator.symbols⟩ := by
  apply generate_ok
  cases verifies with
  | true => rwa [← generate_unchecked proper]
  | false => exact ran

end TranslationUnit

end SmallC
