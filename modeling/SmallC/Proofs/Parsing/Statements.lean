import SmallC.Proofs.Parsing.Expressions

/-!
What parsing makes of the names in statements. The variables of the tree and the parameters of its
functions are identifiers among the tokens, and a function with a body stands in the outermost scope alone.
A function has the name of no generated label, and no more parameters than the language allows.
-/
namespace SmallC

/-- Whether a function can be called: it has a name of its own, and not too many parameters. -/
def Stmt.Callable (s : Stmt) : Prop :=
  ∀ entry, s.function? = some entry → Unlabelled entry.1 ∧ entry.2.params.length ≤ Parser.maxParameters

/-- Whether a statement at a depth of scopes is proper, and callable if it is a function. -/
def Stmt.ProperAt (d : Nat) (s : Stmt) : Prop := (if d = 0 then s.RootProper else s.Proper) ∧ s.Callable

theorem Stmt.Proper.properAt {s : Stmt} (proper : s.Proper) (noFunction : s.function? = none) (d : Nat) :
    s.ProperAt d := by
  refine ⟨?_, fun entry is => by cases noFunction.symm.trans is⟩
  split
  · unfold RootProper
    rwa [noFunction]
  · exact proper

theorem Stmt.ProperAt.proper {s : Stmt} {d : Nat} (proper : s.ProperAt (d + 1)) : s.Proper := proper.1

/-- A header is proper anywhere. -/
theorem Stmt.properAt_header {line : Nat} {name : String} {ret : TypeSpec} {params : List Param}
    {isInline : Bool} (sources : ∀ param ∈ params, SourceName param.name) (unlabelled : Unlabelled name)
    (few : params.length ≤ Parser.maxParameters) (d : Nat) :
    (Stmt.function line name ret params none isInline).ProperAt d := by
  refine ⟨?_, fun entry is => by cases is; exact ⟨unlabelled, few⟩⟩
  split
  · exact ⟨sources, fun _ is => by cases is⟩
  · rw [Stmt.Proper]

namespace Parser

variable {α : Type} {d e : Nat} {tokens : List Lexeme}

/-! ### Definitions -/

theorem expect_reads (endLine : Nat) (token : Token) (plain : Plain tokens) :
    Reads d e (expect endLine token tokens) fun p => Plain p.rest := by
  unfold expect
  split
  · exact .failParse _ _
  · exact .ite (fun _ => .pure plain.tail) fun _ => .failParse _ _

theorem expectIdentifier_reads (endLine : Nat) (plain : Plain tokens) :
    Reads d e (expectIdentifier endLine tokens) (Leaves fun found => SourceName found.1 ∧ Unlabelled found.1) := by
  unfold expectIdentifier
  split
  · exact .failParse _ _
  · split
    · next name is => exact .pure ⟨plain.head.source is, plain.tail⟩
    · exact .failParse _ _

theorem parseType_reads (endLine : Nat) (plain : Plain tokens) :
    Reads d e (parseType endLine tokens) fun p => Plain p.rest := by
  unfold parseType
  split
  · exact .failParse _ _
  · split
    · exact .pure (plain.tail.of_subset (parseStars_within _ _))
    · exact .failParse _ _

theorem parseEnded_reads (endLine : Nat) (plain : Plain tokens) :
    Reads d e (parseEnded endLine tokens) (Leaves fun value => ∀ e, value = some e → e.Proper) := by
  unfold parseEnded
  split
  · exact .throw _
  · next ended found =>
    have within := findSemicolon_within found
    refine .ite (fun _ => .pure ⟨fun _ is => (by cases is), plain.of_subset within.2⟩) fun _ => ?_
    exact (parseExpr_reads _ (plain.of_subset within.1)).bind fun e proper =>
      .pure ⟨fun e' is => by cases is; exact proper, plain.of_subset within.2⟩

theorem parseFull_reads (endLine : Nat) (plain : Plain tokens) :
    Reads d e (parseFull endLine tokens) (Leaves Expr.Proper) := by
  refine (parseEnded_reads endLine plain).bind fun p after => ?_
  obtain ⟨value, rest, fewer⟩ := p
  cases value with
  | some e => exact .pure ⟨after.1 e rfl, after.2⟩
  | none => exact .failParse _ _

theorem parseCondition_reads (endLine : Nat) (plain : Plain tokens) :
    Reads d e (parseCondition endLine tokens) (Leaves Expr.Proper) := by
  refine (expect_reads endLine _ plain).bind fun p behind => ?_
  obtain ⟨opener, rest, fewer⟩ := p
  dsimp only
  split
  · exact .throw _
  · next enclosed found =>
    have within := findClose_within found
    exact (parseExpr_reads _ (behind.of_subset within.1)).bind fun e proper =>
      .pure ⟨proper, behind.of_subset within.2⟩

theorem checkRedefinition_reads (line : Nat) (name : String) :
    Reads d e (checkRedefinition line name) fun _ => True := by
  refine .get fun σ _ => ?_
  split
  · exact .failSemantic _ _
  · exact .pure trivial

/-- A definition declares in the innermost scope alone. -/
theorem declare_reads (line : Nat) (name : String) (entity : Entity) :
    Reads d d (declare line name entity) fun _ => True :=
  .modify (fun _ => rfl) fun _ depth _ outer => funext fun _ =>
    Scopes.symbolAt?_add fun innermost => absurd (innermost.trans depth) (Nat.ne_of_lt outer)

theorem parseVariableEnd_reads (endLine : Nat) (name : String) (plain : Plain tokens) :
    Reads d e (parseVariableEnd endLine name tokens) (Leaves fun value => ∀ e, value = some e → e.Proper) := by
  unfold parseVariableEnd
  split
  · exact .failParse _ _
  · split
    · refine (parseFull_reads endLine plain.tail).bind fun p after => ?_
      exact .pure ⟨fun e is => by cases is; exact after.1, after.2⟩
    · exact .pure ⟨fun _ is => (by cases is), plain.tail⟩
    · exact .failParse _ _

theorem parseVariable_reads (endLine line : Nat) (ty : TypeSpec) (name : String) (plain : Plain tokens) :
    Reads d d (parseVariable endLine line ty name tokens) (Leaves (Stmt.ProperAt d)) := by
  unfold parseVariable
  refine .refuse (.failSemantic _ _) fun _ => (checkRedefinition_reads line name).bind fun _ _ => ?_
  refine (parseVariableEnd_reads endLine name plain).bind fun p after => ?_
  refine (declare_reads _ _ _).bind fun _ _ => .pure ⟨Stmt.Proper.properAt ?_ rfl d, after.2⟩
  rw [Stmt.Proper]
  exact after.1

theorem parseDimension_reads (endLine line : Nat) (name : String) (plain : Plain tokens) :
    Reads d e (parseDimension endLine line name tokens) fun p => Plain p.rest := by
  unfold parseDimension
  split
  · exact .failParse _ _
  · split
    · exact .ite (fun _ => (expect_reads endLine _ plain.tail).bind fun p after => .pure after)
        fun _ => .failParse _ _
    · exact .failParse _ _

theorem parseDimensions_reads (endLine line : Nat) (name : String) {tokens : List Lexeme}
    (plain : Plain tokens) : Reads d e (parseDimensions endLine line name tokens) fun p => Plain p.rest := by
  match _cut : tokens, plain with
  | [], plain =>
    rw [parseDimensions]
    exact .pure plain
  | l :: rest, plain =>
    rw [parseDimensions]
    refine .ite (fun _ => ?_) fun _ => .pure plain
    refine (parseDimension_reads endLine line name plain.tail).bind fun p behind => ?_
    obtain ⟨dim, rest', closed⟩ := p
    exact (parseDimensions_reads endLine line name behind).bind fun p after => .pure after
termination_by tokens.length
decreasing_by
  simp only [List.length_cons]
  omega

theorem parseSeparator_reads (endLine : Nat) (plain : Plain tokens) :
    Reads d e (parseSeparator endLine tokens) fun p => Plain p.rest := by
  unfold parseSeparator
  split
  · exact .failParse _ _
  · exact .ite (fun _ => .pure plain.tail) fun _ => .ite (fun _ => .pure plain) fun _ => .failParse _ _

theorem allProper_append {es es' : List Expr} (first : Expr.AllProper es) (second : Expr.AllProper es') :
    Expr.AllProper (es ++ es') := by
  induction es with
  | nil => exact second
  | cons e rest ih =>
    rw [Expr.AllProper] at first
    rw [List.cons_append, Expr.AllProper]
    exact ⟨first.1, ih first.2⟩

theorem parseElements_reads (endLine : Nat) {tokens : List Lexeme} (plain : Plain tokens) :
    Reads d e (parseElements endLine tokens) (Leaves Expr.AllProper) := by
  match _cut : tokens, plain with
  | [], plain =>
    rw [parseElements]
    exact .failParse _ _
  | l :: rest, plain =>
    rw [parseElements]
    refine .ite (fun _ => .pure ⟨by rw [Expr.AllProper]; trivial, plain.tail⟩) fun _ => ?_
    refine .ite (fun _ => ?_) fun _ => ?_
    · refine (parseElements_reads endLine plain.tail).bind fun p inner => ?_
      obtain ⟨es, rest', inside⟩ := p
      refine (parseSeparator_reads endLine inner.2).bind fun p behind => ?_
      obtain ⟨_, rest'', separated⟩ := p
      have shorter : rest''.length < rest'.length + 1 := separated
      exact (parseElements_reads endLine behind).bind fun p others =>
        .pure ⟨allProper_append inner.1 others.1, others.2⟩
    · split
      next element behind found =>
      have whole : element ++ behind = l :: rest := by
        have parts := findElement_eq 0 (l :: rest)
        rwa [found] at parts
      have plain' : Plain (element ++ behind) := by rwa [whole]
      dsimp only
      split
      · exact .failParse _ _
      · next empty =>
        have fewer : behind.length < rest.length + 1 := by
          have length := congrArg List.length whole
          have some := List.length_pos_iff.2 fun nothing => empty (List.isEmpty_iff.2 nothing)
          rw [List.length_append, List.length_cons] at length
          omega
        refine (parseExpr_reads _ (plain'.of_subset (List.subset_append_left _ _))).bind fun e proper => ?_
        refine (parseSeparator_reads endLine (plain'.of_subset (List.subset_append_right _ _))).bind
          fun p after => ?_
        obtain ⟨_, rest', separated⟩ := p
        have shorter : rest'.length < behind.length + 1 := separated
        exact (parseElements_reads endLine after).bind fun p others =>
          .pure ⟨by rw [Expr.AllProper]; exact ⟨proper, others.1⟩, others.2⟩
termination_by tokens.length
decreasing_by
  all_goals
    simp only [List.length_cons] at *
    omega

theorem parseInitializer_reads (endLine : Nat) (plain : Plain tokens) :
    Reads d e (parseInitializer endLine tokens) (Leaves Expr.AllProper) := by
  unfold parseInitializer
  split
  · exact .pure ⟨by rw [Expr.AllProper]; trivial, plain⟩
  · next found =>
    have behind := plain.of_subset (takeToken?_within found)
    exact (expect_reads endLine _ behind).bind fun p inside =>
      (parseElements_reads endLine inside).bind fun p after => .pure after

theorem parseArray_reads (endLine line : Nat) (ty : TypeSpec) (name : String) (plain : Plain tokens) :
    Reads d d (parseArray endLine line ty name tokens) (Leaves (Stmt.ProperAt d)) := by
  refine (checkRedefinition_reads line name).bind fun _ _ => ?_
  refine (parseDimensions_reads endLine line name plain).bind fun p behind => ?_
  refine (parseInitializer_reads endLine behind).bind fun p init => ?_
  refine .refuse (.failSemantic _ _) fun _ => (expect_reads endLine _ init.2).bind fun p after => ?_
  refine (declare_reads _ _ _).bind fun _ _ => .pure ⟨Stmt.Proper.properAt ?_ rfl d, after⟩
  rw [Stmt.Proper]
  exact init.1

theorem parseParameterEnd_reads (line : Nat) (plain : Plain tokens) :
    Reads d e (parseParameterEnd line tokens) fun p => Plain p.rest := by
  unfold parseParameterEnd
  split
  · exact .failParse _ _
  · exact .ite (fun _ => .pure plain.tail) fun _ => .ite (fun _ => .pure plain.tail) fun _ => .failParse _ _

theorem parseMoreParameters_reads (endLine : Nat) {earlier : List Param} {tokens : List Lexeme}
    (plain : Plain tokens) (sources : ∀ param ∈ earlier, SourceName param.name) :
    Reads d e (parseMoreParameters endLine earlier tokens)
      (Leaves fun params => ∀ param ∈ params, SourceName param.name) := by
  rw [parseMoreParameters]
  refine (parseType_reads endLine plain).bind fun p behind => ?_
  obtain ⟨ty, behindType, typed⟩ := p
  refine (expectIdentifier_reads endLine behind).bind fun p found => ?_
  obtain ⟨⟨name, line⟩, behindName, named⟩ := p
  refine .refuse (.failSemantic _ _) fun _ => ?_
  have sources' : ∀ param ∈ earlier ++ [⟨name, ty⟩], SourceName param.name := by
    intro param member
    rcases List.mem_append.1 member with member | member
    · exact sources param member
    · rw [List.mem_singleton.1 member]
      exact found.1.1
  refine (parseParameterEnd_reads line found.2).bind fun p after => ?_
  obtain ⟨more, rest, ended⟩ := p
  have first : behindName.length < behindType.length := named
  have second : rest.length < behindName.length := ended
  refine .ite (fun _ => ?_) fun _ => .pure ⟨sources', after⟩
  exact (parseMoreParameters_reads endLine after sources').bind fun p after => .pure after
termination_by tokens.length
decreasing_by omega

theorem noParameters?_within {taken : Parsed Lexeme tokens.length} (found : noParameters? tokens = some taken) :
    taken.rest ⊆ tokens := by
  unfold noParameters? at found
  split at found
  · next closed =>
    cases found
    exact takeToken?_within closed
  · split at found
    · cases found
    · next first =>
      obtain ⟨p, second, rfl⟩ := Option.map_eq_some_iff.1 found
      exact fun t member => takeToken?_within first (takeToken?_within second member)

theorem parseParameters_reads (endLine : Nat) (plain : Plain tokens) :
    Reads d e (parseParameters endLine tokens)
      (Leaves fun params => ∀ param ∈ params, SourceName param.name) := by
  refine (expect_reads endLine _ plain).bind fun p inside => ?_
  obtain ⟨_, inside', opened⟩ := p
  dsimp only
  split
  · next found =>
    exact .pure ⟨fun _ member => (by cases member), inside.of_subset (noParameters?_within found)⟩
  · have none : ∀ param ∈ ([] : List Param), SourceName param.name := fun _ member => by cases member
    exact (parseMoreParameters_reads endLine inside none).bind fun p after => .pure after

theorem checkSignature_reads (line : Nat) (name : String) (signature : Signature) :
    Reads d e (checkSignature line name signature) fun _ => True := by
  refine .get fun σ _ => ?_
  split
  · exact .pure trivial
  · split
    · exact .ite (fun _ => .failSemantic _ _) fun _ => .ite (fun _ => .failSemantic _ _) fun _ => .pure trivial
    · exact checkRedefinition_reads line name

theorem parseStrings_reads (line : Nat) {tokens : List Lexeme} (plain : Plain tokens) :
    Reads d e (parseStrings line tokens) fun p => Plain p.rest := by
  induction tokens with
  | nil => exact .failParse _ _
  | cons l rest ih =>
    unfold parseStrings
    split
    · exact (ih plain.tail).bind fun p after => .pure after
    · exact .pure plain.tail
    · exact .failParse _ _

theorem parseAsm_reads (endLine line : Nat) (plain : Plain tokens) :
    Reads d e (parseAsm endLine line tokens) (Leaves fun s => s.Proper ∧ s.function? = none) := by
  refine (expect_reads endLine _ plain).bind fun p inside => ?_
  refine (parseStrings_reads line inside).bind fun p behind => ?_
  have proper : ∀ text, (Stmt.asm line text).Proper ∧ (Stmt.asm line text).function? = none := fun text =>
    ⟨by rw [Stmt.Proper]; trivial, rfl⟩
  dsimp only
  split
  · next found => exact .pure ⟨proper _, behind.of_subset (takeToken?_within found)⟩
  · exact .pure ⟨proper _, behind⟩

/-! ### Statements -/

theorem allProper_stmts_append {body more : List Stmt} (first : Stmt.AllProper body)
    (second : Stmt.AllProper more) : Stmt.AllProper (body ++ more) := by
  induction body with
  | nil => exact second
  | cons s rest ih =>
    rw [Stmt.AllProper] at first
    rw [List.cons_append, Stmt.AllProper]
    exact ⟨first.1, ih first.2⟩

theorem allProper_toList {st : Option Stmt} (proper : ∀ s, st = some s → s.Proper) :
    Stmt.AllProper st.toList := by
  cases st with
  | none =>
    rw [Option.toList_none, Stmt.AllProper]
    trivial
  | some s =>
    simp only [Option.toList_some, Stmt.AllProper]
    exact ⟨proper s rfl, trivial⟩

theorem parseOptional_reads {clause : Clause} (plain : Plain clause.tokens) :
    Reads d e (parseOptional clause) fun value => ∀ e, value = some e → e.Proper :=
  .ite (fun _ => .pure fun _ is => by cases is) fun _ =>
    (parseExpr_reads clause.line plain).bind fun e proper => .pure fun e' is => by cases is; exact proper

theorem alternative_within {tokens : List Lexeme} :
    (∀ {rest fewer}, Alternative.of tokens = .branch rest fewer → rest ⊆ tokens) ∧
      ∀ {rest fewer}, Alternative.of tokens = .last rest fewer → rest ⊆ tokens := by
  unfold Alternative.of
  split
  · exact ⟨fun is => (by cases is), fun is => (by cases is)⟩
  · next first =>
    split
    · next second =>
      exact ⟨fun is => (by
        cases is
        exact fun t member => takeToken?_within first (takeToken?_within second member)),
        fun is => (by cases is)⟩
    · exact ⟨fun is => (by cases is), fun is => (by
        cases is
        exact takeToken?_within first)⟩

theorem branchesProper_cons {branch : Branch} {branches : List Branch}
    (first : Stmt.BranchesProper [branch]) (others : Stmt.BranchesProper branches) :
    Stmt.BranchesProper (branch :: branches) := by
  obtain ⟨cond, body⟩ := branch
  simp only [Stmt.BranchesProper] at first ⊢
  exact ⟨first.1, first.2.1, others⟩

theorem proper_forLoop (line : Nat) {init : Option Stmt} {cond step : Option Expr} {body : List Stmt}
    (first : ∀ s, init = some s → s.Proper) (tested : ∀ e, cond = some e → e.Proper)
    (stepped : ∀ e, step = some e → e.Proper) (inside : Stmt.AllProper body) :
    (Stmt.forLoop line init cond step body).Proper := by
  cases init with
  | none =>
    rw [Stmt.Proper]
    exact ⟨tested, stepped, inside⟩
  | some s =>
    rw [Stmt.Proper]
    exact ⟨first s rfl, tested, stepped, inside⟩

theorem declareAll_reads (line : Nat) (params : List Param) :
    Reads d d (params.forM fun p => declare line p.name (.variable p.ty)) fun _ => True := by
  induction params with
  | nil => exact .pure trivial
  | cons p rest ih => exact (declare_reads _ _ _).bind fun _ _ => ih

/-- Whether a statement that starts with a token declares something in the scope it stands in. -/
def startsDefinition : Token → Bool
  | .type _ => true
  | .keyword .inlineWord => true
  | _ => false

/-- What a statement at a depth of scopes is that starts with a token: no function, unless it can be one. -/
def Started (d : Nat) (token : Token) (s : Stmt) : Prop :=
  s.ProperAt d ∧ (startsDefinition token = false → s.function? = none)

theorem started_proper {s : Stmt} (proper : s.Proper) (noFunction : s.function? = none) (token : Token) :
    ∀ s', some s = some s' → Started d token s' := by
  intro s' is
  cases is
  exact ⟨proper.properAt noFunction d, fun _ => noFunction⟩

theorem started_definition {s : Stmt} (proper : s.ProperAt d) {token : Token}
    (starts : startsDefinition token = true) : ∀ s', some s = some s' → Started d token s' := by
  intro s' is
  cases is
  exact ⟨proper, fun other => by cases other.symm.trans starts⟩

mutual

theorem parseStatement_reads {d e : Nat} (around : Surroundings) {l : Lexeme} {rest : List Lexeme}
    (reach : e ≤ d ∨ e = d + 1 ∧ startsDefinition l.token = false) (plain : Plain (l :: rest)) :
    Reads d e (parseStatement around l rest) (Leaves fun st => ∀ s, st = some s → Started d l.token s) := by
  have outer : e ≤ d + 1 := by omega
  have within (starts : startsDefinition l.token = true) : e ≤ d :=
    reach.elim id fun ⟨_, other⟩ => by cases other.symm.trans starts
  rw [parseStatement]
  split
  · exact .pure ⟨fun _ is => (by cases is), plain.tail⟩
  · refine ((Reads.inScope (parseBlock_reads around plain.tail)).widen outer).bind fun p after => ?_
    exact .pure ⟨started_proper (by rw [Stmt.Proper]; exact after.1) rfl _, after.2⟩
  · refine ((parseBranch_reads around plain.tail).widen outer).bind fun p first => ?_
    obtain ⟨branch, behind, fewer⟩ := p
    refine ((parseElse_reads around first.2).widen outer).bind fun p others => ?_
    obtain ⟨⟨branches, otherwise⟩, behind', fewer'⟩ := p
    have proper : (Stmt.conditional l.line (branch :: branches) otherwise).Proper := by
      have all := branchesProper_cons first.1 others.1.1
      cases otherwise with
      | none =>
        rw [Stmt.Proper]
        exact all
      | some body =>
        rw [Stmt.Proper]
        exact ⟨all, others.1.2 body rfl⟩
    exact .pure ⟨started_proper proper rfl _, others.2⟩
  · refine ((parseBranch_reads around plain.tail).widen outer).bind fun p after => ?_
    obtain ⟨⟨cond, body⟩, behind, fewer⟩ := p
    have proper : (Stmt.whileLoop l.line cond body).Proper := by
      have loop := after.1
      simp only [Stmt.BranchesProper] at loop
      rw [Stmt.Proper]
      exact ⟨loop.1, loop.2.1⟩
    exact .pure ⟨started_proper proper rfl _, after.2⟩
  · exact ((parseFor_reads around l.line plain.tail).widen outer).bind fun p after =>
      .pure ⟨started_proper after.1.1 after.1.2 _, after.2⟩
  · refine .refuse (.failSemantic _ _) fun _ => (parseEnded_reads _ plain.tail).bind fun p after => ?_
    exact .pure ⟨started_proper (by rw [Stmt.Proper]; exact after.1) rfl _, after.2⟩
  · exact (expect_reads _ _ plain.tail).bind fun p after =>
      .pure ⟨started_proper (by rw [Stmt.Proper]; trivial) rfl _, after⟩
  · exact (expect_reads _ _ plain.tail).bind fun p after =>
      .pure ⟨started_proper (by rw [Stmt.Proper]; trivial) rfl _, after⟩
  · exact (parseAsm_reads _ _ plain.tail).bind fun p after =>
      .pure ⟨started_proper after.1.1 after.1.2 _, after.2⟩
  · next is =>
    have starts : startsDefinition l.token = true := by rw [is]; rfl
    refine ((parseDefinition_reads around true plain.tail).widen (within starts)).bind fun p after => ?_
    exact .refuse (.failParse _ _) fun _ => .pure ⟨started_definition after.1 starts, after.2⟩
  · next is =>
    have starts : startsDefinition l.token = true := by rw [is]; rfl
    exact ((parseDefinition_reads around false plain).widen (within starts)).bind fun p after =>
      .pure ⟨started_definition after.1 starts, after.2⟩
  · refine (parseFull_reads _ plain).bind fun p after => ?_
    exact .pure ⟨started_proper (by rw [Stmt.Proper]; exact after.1) rfl _, after.2⟩
termination_by 4 * (rest.length + 1) + 1

theorem parseBlock_reads {d : Nat} (around : Surroundings) {tokens : List Lexeme} (plain : Plain tokens) :
    Reads (d + 1) (d + 1) (parseBlock around tokens) (Leaves Stmt.AllProper) := by
  match _cut : tokens, plain with
  | [], plain =>
    rw [parseBlock]
    exact .failParse _ _
  | l :: rest, plain =>
    rw [parseBlock]
    refine .ite (fun _ => .pure ⟨by rw [Stmt.AllProper]; trivial, plain.tail⟩) fun _ => ?_
    refine (parseStatement_reads around (.inl (Nat.le_refl _)) plain).bind fun p first => ?_
    obtain ⟨st, behind, fewer⟩ := p
    exact (parseBlock_reads around first.2).bind fun p others =>
      .pure ⟨allProper_stmts_append (allProper_toList fun s is => (first.1 s is).1.proper) others.1, others.2⟩
termination_by 4 * tokens.length + 2

theorem parseBody_reads {d : Nat} (around : Surroundings) {tokens : List Lexeme} (plain : Plain tokens) :
    Reads d (d + 1) (parseBody around tokens) (Leaves Stmt.AllProper) := by
  match _cut : tokens, plain with
  | [], plain =>
    rw [parseBody]
    exact .pure ⟨by rw [Stmt.AllProper]; trivial, plain⟩
  | l :: rest, plain =>
    rw [parseBody]
    refine .ite (fun _ => ?_) fun _ => ?_
    · exact (Reads.inScope (parseBlock_reads around plain.tail)).bind fun p after => .pure after
    · exact (Reads.inScope (parseStatement_reads around (.inl (Nat.le_refl _)) plain)).bind fun p after =>
        .pure ⟨allProper_toList fun s is => (after.1 s is).1.proper, after.2⟩
termination_by 4 * tokens.length + 3

theorem parseBranch_reads {d : Nat} (around : Surroundings) {tokens : List Lexeme} (plain : Plain tokens) :
    Reads d (d + 1) (parseBranch around tokens) (Leaves fun branch => Stmt.BranchesProper [branch]) := by
  rw [parseBranch]
  refine (parseCondition_reads _ plain).bind fun p cond => ?_
  obtain ⟨e, behind, fewer⟩ := p
  exact (parseBody_reads around cond.2).bind fun p body =>
    .pure ⟨by simp only [Stmt.BranchesProper]; exact ⟨cond.1, body.1, trivial⟩, body.2⟩
termination_by 4 * tokens.length + 3

theorem parseElse_reads {d : Nat} (around : Surroundings) {tokens : List Lexeme} (plain : Plain tokens) :
    Reads d (d + 1) (parseElse around tokens) (Leaves fun alternatives => Stmt.BranchesProper alternatives.1 ∧
      ∀ body, alternatives.2 = some body → Stmt.AllProper body) := by
  rw [parseElse]
  have none : Stmt.BranchesProper [] := by
    rw [Stmt.BranchesProper]
    trivial
  split
  · exact .pure ⟨⟨none, fun _ is => by cases is⟩, plain⟩
  · next behind fewer found =>
    have plain' := plain.of_subset (alternative_within.1 found)
    refine (parseBranch_reads around plain').bind fun p first => ?_
    obtain ⟨branch, behind', shorter⟩ := p
    refine (parseElse_reads around first.2).bind fun p others => ?_
    exact .pure ⟨⟨branchesProper_cons first.1 others.1.1, others.1.2⟩, others.2⟩
  · next behind fewer found =>
    have plain' := plain.of_subset (alternative_within.2 found)
    exact (parseBody_reads around plain').bind fun p body =>
      .pure ⟨⟨none, fun body' is => by cases is; exact body.1⟩, body.2⟩
termination_by 4 * tokens.length + 3

theorem parseFor_reads {d : Nat} (around : Surroundings) (line : Nat) {tokens : List Lexeme}
    (plain : Plain tokens) :
    Reads d (d + 1) (parseFor around line tokens) (Leaves fun s => s.Proper ∧ s.function? = none) := by
  rw [parseFor]
  refine (expect_reads _ _ plain).bind fun p header => ?_
  obtain ⟨opener, header', opened⟩ := p
  dsimp only
  split
  · exact .throw _
  · next enclosed found =>
    have closed := findClose_length found
    have within := findClose_within found
    split
    · next init cond step split =>
      have parts := splitClauses_within .semicolon enclosed.closer.line 0 enclosed.inside
      rw [split] at parts
      have plain' : ∀ clause ∈ [init, cond, step], Plain clause.tokens := fun clause member =>
        header.of_subset fun t inside => within.1 (parts clause member inside)
      refine Reads.inScope ?_
      have last : ∀ first : Option Stmt, (∀ s, first = some s → s.Proper) → Reads (d + 1) (d + 1) (do
          let init ← pure first
          let cond ← parseOptional cond
          let step ← parseOptional step
          let ⟨body, behind, shorter⟩ ← parseBody around enclosed.after
          return (⟨.forLoop line init cond step body, behind, by omega⟩ : Parsed Stmt tokens.length))
          (Leaves fun s => s.Proper ∧ s.function? = none) := by
        intro first proper
        refine (Reads.pure (Q := fun first => ∀ s, first = some s → s.Proper) proper).bind fun first proper => ?_
        refine (parseOptional_reads (plain' cond (by simp))).bind fun cond tested => ?_
        refine (parseOptional_reads (plain' step (by simp))).bind fun step stepped => ?_
        refine ((parseBody_reads around (header.of_subset within.2)).widen (Nat.le_succ _)).bind fun p body => ?_
        exact .pure ⟨⟨proper_forLoop line proper tested stepped body.1, rfl⟩, body.2⟩
      refine .ite (fun _ => ?_) fun _ => ?_
      · refine (parseDefinition_reads around false header).bind fun p definition => ?_
        refine .refuse (.failParse _ _) fun _ => last (some p.value) fun s is => ?_
        cases is
        exact definition.1.proper
      · refine (parseOptional_reads (plain' init (by simp))).bind fun first proper => last _ fun s is => ?_
        obtain ⟨e, has, rfl⟩ := Option.map_eq_some_iff.1 is
        rw [Stmt.Proper]
        exact proper e has
    · exact .failParse _ _
termination_by 4 * tokens.length + 3

theorem parseDefinition_reads {d : Nat} (around : Surroundings) (isInline : Bool) {tokens : List Lexeme}
    (plain : Plain tokens) : Reads d d (parseDefinition around isInline tokens) (Leaves (Stmt.ProperAt d)) := by
  rw [parseDefinition]
  refine (parseType_reads _ plain).bind fun p behind => ?_
  obtain ⟨ty, behindType, typed⟩ := p
  refine (expectIdentifier_reads _ behind).bind fun p found => ?_
  obtain ⟨⟨name, _⟩, behindName, named⟩ := p
  have shorter : behindName.length < behindType.length := named
  refine .ite (fun _ => ?_) fun _ => .ite (fun _ => .failParse _ _) fun _ => .ite (fun _ => ?_) fun _ => ?_
  · exact (parseFunction_reads around _ ty name isInline found.1.2 found.2).bind fun p after => .pure after
  · exact (parseArray_reads _ _ ty name found.2).bind fun p after => .pure after
  · exact (parseVariable_reads _ _ ty name found.2).bind fun p after => .pure after
termination_by 4 * tokens.length

theorem parseFunction_reads {d : Nat} (around : Surroundings) (line : Nat) (ret : TypeSpec) (name : String)
    (isInline : Bool) {tokens : List Lexeme} (unlabelled : Unlabelled name) (plain : Plain tokens) :
    Reads d d (parseFunction around line ret name isInline tokens) (Leaves (Stmt.ProperAt d)) := by
  rw [parseFunction]
  refine (parseParameters_reads _ plain).bind fun p sources => ?_
  obtain ⟨params, behind, fewer⟩ := p
  refine .refuse (.failSemantic _ _) fun few => (checkSignature_reads _ _ _).bind fun _ _ => ?_
  split
  · next found =>
    exact (declare_reads _ _ _).bind fun _ _ =>
      .pure ⟨Stmt.properAt_header sources.1 unlabelled (Nat.not_lt.1 few) d, sources.2.of_subset (takeToken?_within found)⟩
  · refine .get fun σ depth => .refuse (.failSemantic _ _) fun root => (declare_reads _ _ _).bind fun _ _ => ?_
    have outermost : d = 0 := by
      simp only [Bool.or_eq_true, Bool.not_eq_true', not_or, Bool.not_eq_true, Bool.not_eq_false,
        Scopes.isRoot, decide_eq_true_eq] at root
      exact depth.symm.trans root.2
    refine (Reads.inScope ((declareAll_reads line params).bind fun _ _ => ?_)).widen (Nat.le_succ d)
    refine (expect_reads _ _ sources.2).bind fun p inside => ?_
    obtain ⟨_, inside', opened⟩ := p
    have shorter : inside'.length < behind.length := opened
    refine (parseBlock_reads _ inside).bind fun p body => ?_
    rw [outermost]
    exact .pure ⟨⟨⟨sources.1, fun body' is => by cases is; exact body.1⟩,
      fun entry is => by cases is; exact ⟨unlabelled, Nat.not_lt.1 few⟩⟩, body.2⟩
termination_by 4 * tokens.length

end

theorem parseUnit_reads (endLine : Nat) {tokens : List Lexeme} (plain : Plain tokens) :
    Reads 0 0 (parseUnit endLine tokens) fun unit => ∀ s ∈ unit, s.ProperAt 0 := by
  match _cut : tokens, plain with
  | [], plain =>
    rw [parseUnit]
    exact .pure fun _ member => by cases member
  | l :: rest, plain =>
    rw [parseUnit]
    refine .refuse (.failParse _ _) fun _ => (parseStatement_reads ⟨endLine, false⟩ (.inl (Nat.zero_le _)) plain).bind fun p first => ?_
    obtain ⟨st, behind, fewer⟩ := p
    refine (parseUnit_reads endLine first.2).bind fun others proper => .pure fun s member => ?_
    rcases List.mem_append.1 member with member | member
    · exact (first.1 s (Option.mem_toList.1 member)).1
    · exact proper s member
termination_by tokens.length

end Parser

/-- A parsed source is the statements of its tokens. -/
theorem parseSource_inv {source : String} {unit : TranslationUnit} (parsed : parseSource source = .ok unit) :
    ∃ endLine tokens σ, Plain tokens ∧
      (Parser.parseUnit endLine tokens).run Scopes.root = .ok (unit.statements, σ) := by
  unfold parseSource at parsed
  split at parsed
  · next tokens cut =>
    unfold parse at parsed
    dsimp only at parsed
    cases ran : (Parser.parseUnit ((tokens.getLast?.map Lexeme.line).getD 1) tokens).run Scopes.root with
    | error e =>
      rw [ran] at parsed
      cases parsed
    | ok done =>
      rw [ran] at parsed
      cases parsed
      exact ⟨_, tokens, _, plain_tokenize cut, ran⟩
  · cases parsed

theorem parseSource_properAt {source : String} {unit : TranslationUnit}
    (parsed : parseSource source = .ok unit) : ∀ s ∈ unit.statements, s.ProperAt 0 := by
  obtain ⟨endLine, tokens, σ, plain, ran⟩ := parseSource_inv parsed
  exact (Parser.parseUnit_reads endLine plain _ _ _ rfl ran).2

/-- The variables of a parsed source have names that a source can give. -/
theorem parseSource_proper {source : String} {unit : TranslationUnit} (parsed : parseSource source = .ok unit) :
    ∀ s ∈ unit.statements, s.RootProper := fun s member => (parseSource_properAt parsed s member).1

/-- The functions of a parsed source can be called. -/
theorem parseSource_callable {source : String} {unit : TranslationUnit}
    (parsed : parseSource source = .ok unit) : ∀ s ∈ unit.statements, s.Callable :=
  fun s member => (parseSource_properAt parsed s member).2

/-- A statement of the source in order of execution is one of the source, or calls the entry point. -/
theorem TranslationUnit.mem_ordered {unit : TranslationUnit} {s : Stmt} (member : s ∈ unit.ordered.statements) :
    s ∈ unit.statements ∨ ∃ line, s = .expr (.call line entryPoint []) := by
  unfold ordered at member
  simp only [List.partition_eq_filter_filter, List.mem_append, List.mem_filter] at member
  rcases member with (member | member) | member
  · exact .inl member.1
  · exact .inl member.1
  · split at member
    · exact .inr ⟨_, List.mem_singleton.1 member⟩
    · cases member

/-- So do those of the source in order of execution. -/
theorem TranslationUnit.ordered_proper {unit : TranslationUnit}
    (proper : ∀ s ∈ unit.statements, s.RootProper) : ∀ s ∈ unit.ordered.statements, s.RootProper := by
  intro s member
  obtain member | ⟨line, rfl⟩ := mem_ordered member
  · exact proper s member
  · change (Stmt.expr _).Proper
    simp only [Stmt.Proper, Expr.Proper, Expr.AllProper]

end SmallC
