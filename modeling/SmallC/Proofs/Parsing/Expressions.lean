import SmallC.Proofs.Parsing.Tokens

/-!
What parsing makes of the names in expressions: the variables of the tree are identifiers among the tokens.
Parsing is followed by triples over the depth of the innermost scope, which every parser leaves as it was,
and over the scopes outside of it whose declarations stay.
-/
namespace SmallC

namespace Scopes

/-- What a name is declared as in the scope of a depth. -/
def symbolAt? (σ : Scopes) (depth : Nat) (name : String) : Option Symbol :=
  (σ.declared.find? fun d => d.name = name && d.depth = depth).map Declaration.symbol

/-- The scopes of a depth below the given one have the same declarations. -/
def Agrees (e : Nat) (σ σ' : Scopes) : Prop := ∀ depth < e, σ'.symbolAt? depth = σ.symbolAt? depth

variable {e : Nat} {σ σ' : Scopes}

theorem Agrees.refl (e : Nat) (σ : Scopes) : σ.Agrees e σ := fun _ _ => rfl

theorem Agrees.trans {mid : Scopes} (first : σ.Agrees e mid) (second : mid.Agrees e σ') : σ.Agrees e σ' :=
  fun depth below => (second depth below).trans (first depth below)

/-- A new occurrence changes nothing about what names are declared as. -/
theorem find?_renew {p : Declaration → Bool} (blind : ∀ d newest, p { d with newest } = p d) (name : String)
    (occurrence : Nat) (ds : List Declaration) :
    ((renew name occurrence ds).1.find? p).map Declaration.symbol = (ds.find? p).map Declaration.symbol := by
  induction ds with
  | nil => rfl
  | cons d rest ih =>
    rw [renew]
    split
    · rw [List.find?_cons, List.find?_cons, blind]
      split <;> rfl
    · rw [List.find?_cons, List.find?_cons]
      split
      · rfl
      · exact ih

theorem symbolAt?_touch (name : String) (σ : Scopes) (depth : Nat) :
    (σ.touch name).1.symbolAt? depth = σ.symbolAt? depth :=
  funext fun _ => find?_renew (fun _ _ => rfl) name _ _

/-- Dropping declarations that are not asked for changes no answer. -/
theorem find?_filter_of_keeps {keeps p : Declaration → Bool} (ds : List Declaration)
    (kept : ∀ d, p d → keeps d) : (ds.filter keeps).find? p = ds.find? p := by
  rw [List.find?_filter]
  congr 1
  funext d
  rw [Bool.eq_iff_iff, decide_eq_true_iff]
  exact ⟨And.right, fun asked => ⟨kept d asked, asked⟩⟩

theorem symbolAt?_leave {depth : Nat} (outer : depth < σ.depth) :
    σ.leave.symbolAt? depth = σ.symbolAt? depth := by
  funext name
  rw [leave, if_neg (by omega)]
  refine congrArg (Option.map Declaration.symbol) (find?_filter_of_keeps _ fun d asked => ?_)
  simp only [Bool.and_eq_true, decide_eq_true_eq] at asked ⊢
  omega

/-- A declaration changes what one name stands for in the innermost scope. -/
theorem symbolAt?_add {name other : String} {symbol : Symbol} {depth : Nat}
    (elsewhere : depth = σ.depth → other ≠ name) :
    (σ.add name symbol).symbolAt? depth other = σ.symbolAt? depth other := by
  simp only [symbolAt?, add]
  rw [List.find?_cons_of_neg (by
    simp only [Bool.and_eq_true, decide_eq_true_eq]
    exact fun same => elsewhere same.2.symm same.1.symm)]
  refine congrArg (Option.map Declaration.symbol) (find?_filter_of_keeps _ fun d asked => ?_)
  simp only [isLocal, Bool.and_eq_true, decide_eq_true_eq, Bool.not_eq_true', Bool.and_eq_false_imp,
    decide_eq_false_iff_not] at asked ⊢
  intro same at'
  exact elsewhere (asked.2.symm.trans at') (asked.1.symm.trans same)

theorem symbolAt?_add_self (name : String) (symbol : Symbol) (σ : Scopes) :
    (σ.add name symbol).symbolAt? σ.depth name = some symbol := by
  simp only [symbolAt?, add]
  rw [List.find?_cons_of_pos (by simp)]
  rfl

end Scopes

namespace Parser

variable {α β : Type} {d e : Nat} {Q R : α → Prop}

/-- From a scope of a given depth, parsing ends in a scope of that depth with an answer of a given kind,
if it ends without an error. Scopes of a depth below the second one keep their declarations. -/
def Reads (d e : Nat) (act : ParseM α) (Q : α → Prop) : Prop :=
  ∀ σ x σ', σ.depth = d → act.run σ = .ok (x, σ') → (σ'.depth = d ∧ σ.Agrees e σ') ∧ Q x

namespace Reads

theorem pure {x : α} (holds : Q x) : Reads d e (Pure.pure x) Q := by
  intro σ y σ' depth ran
  cases ran
  exact ⟨⟨depth, .refl e σ⟩, holds⟩

theorem throw (error : CompileError) : Reads d e (MonadExcept.throw error : ParseM α) Q := by
  intro σ x σ' _ ran
  cases ran

theorem failParse (line : Nat) (fault : ParseFault) : Reads d e (Parser.failParse line fault : ParseM α) Q :=
  throw _

theorem failSemantic (line : Nat) (fault : SemanticFault) :
    Reads d e (Parser.failSemantic line fault : ParseM α) Q := throw _

theorem bind {act : ParseM α} {f : α → ParseM β} {R : β → Prop} (first : Reads d e act Q)
    (rest : ∀ x, Q x → Reads d e (f x) R) : Reads d e (act >>= f) R := by
  intro σ y σ' depth ran
  change (act.run σ).bind (fun done => (f done.1).run done.2) = _ at ran
  cases first' : act.run σ with
  | error e =>
    rw [first'] at ran
    cases ran
  | ok done =>
    rw [first'] at ran
    obtain ⟨⟨depth, agrees⟩, holds⟩ := first σ _ _ depth first'
    obtain ⟨⟨depth, agrees'⟩, holds⟩ := rest _ holds _ _ _ depth ran
    exact ⟨⟨depth, agrees.trans agrees'⟩, holds⟩

theorem weaken {act : ParseM α} (reads : Reads d e act Q) (weaker : ∀ x, Q x → R x) : Reads d e act R :=
  fun σ x σ' depth ran => ⟨(reads σ x σ' depth ran).1, weaker x (reads σ x σ' depth ran).2⟩

theorem ite {p : Prop} [Decidable p] {act other : ParseM α} (yes : p → Reads d e act Q)
    (no : ¬ p → Reads d e other Q) : Reads d e (if p then act else other) Q := by
  split
  · next holds => exact yes holds
  · next fails => exact no fails

/-- What stops parsing on a condition. -/
theorem refuse {p : Prop} [Decidable p] {act : ParseM Unit} {f : Unit → ParseM β} {R : β → Prop}
    (stops : Reads d e act fun _ => False) (rest : ¬ p → Reads d e (f ()) R) :
    Reads d e (if p then act >>= f else f ()) R :=
  .ite (fun _ => stops.bind fun _ absurd => absurd.elim) rest

theorem get {f : Scopes → ParseM β} {R : β → Prop} (rest : ∀ σ, σ.depth = d → Reads d e (f σ) R) :
    Reads d e (MonadState.get >>= f) R :=
  fun σ x σ' depth ran => rest σ depth σ x σ' depth ran

theorem modify {f : Scopes → Scopes} (still : ∀ σ, (f σ).depth = σ.depth)
    (agrees : ∀ σ : Scopes, σ.depth = d → σ.Agrees e (f σ)) : Reads d e (modify f) fun _ => True := by
  intro σ x σ' depth ran
  cases ran
  exact ⟨⟨(still σ).trans depth, agrees σ depth⟩, trivial⟩

/-- Leaving a scope drops only what was declared in it. -/
theorem inScope {p : ParseM α} (reads : Reads (d + 1) (d + 1) p Q) :
    Reads d (d + 1) (Parser.inScope p) Q := by
  intro σ x σ' depth ran
  change ((p.run σ.enter).bind fun done => .ok (done.1, done.2.leave)) = _ at ran
  cases inside : p.run σ.enter with
  | error e =>
    rw [inside] at ran
    cases ran
  | ok done =>
    rw [inside] at ran
    cases ran
    obtain ⟨⟨deeper, agrees⟩, holds⟩ := reads σ.enter _ _ (congrArg (· + 1) depth) inside
    refine ⟨⟨?_, fun outer below => ?_⟩, holds⟩
    · rw [Scopes.leave, if_neg (by omega)]
      exact congrArg (· - 1) deeper
    · exact (Scopes.symbolAt?_leave (by omega)).trans (agrees outer below)

/-- Parsing keeps the declarations of fewer scopes as well. -/
theorem widen {act : ParseM α} (reads : Reads d e act Q) {fewer : Nat} (le : fewer ≤ e) :
    Reads d fewer act Q := by
  intro σ x σ' depth ran
  obtain ⟨⟨depth, agrees⟩, holds⟩ := reads σ x σ' depth ran
  exact ⟨⟨depth, fun outer below => agrees outer (Nat.lt_of_lt_of_le below le)⟩, holds⟩

end Reads

/-- What was parsed is of a given kind, and the tokens that remain are among the given ones. -/
def Leaves {bound : Nat} (Q : α → Prop) (p : Parsed α bound) : Prop := Q p.value ∧ Plain p.rest

/-! ### Expressions -/

/-- Whether a source can name the variables of what stands on the left of an operator so. -/
def OpenOperator.Proper : OpenOperator → Prop
  | unary _ => True
  | binary _ left => left.Proper
  | assign _ target => target.Proper

/-- Whether a source can name the variables of an expression under construction so. -/
structure Spine.Proper (s : Spine) : Prop where
  frames : ∀ f ∈ s.frames, f.operator.Proper
  operand : ∀ e, s.operand = some e → e.Proper

theorem Spine.proper_empty : Spine.empty.Proper := ⟨fun _ member => (nomatch member), fun _ is => (nomatch is)⟩

theorem closeFrame_reads {f : Frame} {right : Expr} (left : f.operator.Proper) (proper : right.Proper) :
    Reads d e (closeFrame f right) Expr.Proper := by
  obtain ⟨operator, depth, line⟩ := f
  cases operator with
  | unary op =>
    exact .ite (fun _ => .failSemantic _ _) fun _ => .pure (by rw [Expr.Proper]; exact proper)
  | binary op l =>
    exact .pure (by rw [Expr.Proper]; exact ⟨left, proper⟩)
  | assign op target =>
    exact .get fun _ _ => .ite (fun _ => .pure (by rw [Expr.Proper]; exact ⟨left, proper⟩))
      fun _ => .failSemantic _ _

theorem closeWhile_reads (condition : Frame → Bool) {frames : List Frame} {operand : Expr}
    (left : ∀ f ∈ frames, f.operator.Proper) (proper : operand.Proper) :
    Reads d e (closeWhile condition operand frames) fun closed =>
      (∀ f ∈ closed.1, f.operator.Proper) ∧ closed.2.Proper := by
  induction frames generalizing operand with
  | nil => exact .pure ⟨left, proper⟩
  | cons f rest ih =>
    exact .ite (fun _ => (closeFrame_reads (left f List.mem_cons_self) proper).bind fun _ closed =>
      ih (fun f member => left f (List.mem_cons_of_mem _ member)) closed) fun _ => .pure ⟨left, proper⟩

theorem closeSpine_reads (condition : Frame → Bool) {s : Spine} (proper : s.Proper) :
    Reads d e (closeSpine condition s) Spine.Proper := by
  unfold closeSpine
  split
  · next operand is =>
    exact (closeWhile_reads condition proper.frames (proper.operand _ is)).bind fun closed after =>
      .pure ⟨after.1, fun e same => by cases same; exact after.2⟩
  · exact .ite (fun _ => .failParse _ _) fun _ => .pure proper
  · exact .pure proper

theorem pushOperand_reads {s : Spine} (proper : s.Proper) (l : Lexeme) {operand : Expr}
    (operand' : operand.Proper) : Reads d e (pushOperand s l operand) Spine.Proper := by
  unfold pushOperand
  split
  · exact .failParse _ _
  · exact .pure ⟨proper.frames, fun e same => by cases same; exact operand'⟩

theorem pushUnary_reads {s : Spine} (proper : s.Proper) (line : Nat) (op : UnaryOp) :
    Reads d e (pushUnary s line op) Spine.Proper := by
  unfold pushUnary
  split
  · exact .failParse _ _
  · exact .pure ⟨List.forall_mem_cons.2 ⟨trivial, proper.frames⟩, proper.operand⟩

theorem pushInner_reads {s : Spine} (proper : s.Proper) (line : Nat) (op : InnerOperator) :
    Reads d e (pushInner s line op) Spine.Proper := by
  unfold pushInner
  split
  · exact .failParse _ _
  · next operand is =>
    refine (closeWhile_reads _ proper.frames (proper.operand operand is)).bind fun closed after => .pure ?_
    refine ⟨List.forall_mem_cons.2 ⟨?_, after.1⟩, fun _ same => nomatch same⟩
    cases op <;> exact after.2

theorem openParenthesis_reads {s : Spine} (proper : s.Proper) (l : Lexeme) :
    Reads d e (openParenthesis s l) Spine.Proper := by
  unfold openParenthesis
  split
  · exact .failParse _ _
  · exact .pure ⟨proper.frames, proper.operand⟩

theorem closeParenthesis_reads {s : Spine} (proper : s.Proper) (line : Nat) :
    Reads d e (closeParenthesis s line) Spine.Proper := by
  unfold closeParenthesis
  split
  · exact .failParse _ _
  · exact closeSpine_reads _ ⟨proper.frames, proper.operand⟩

theorem proper_int (line : Nat) (value : Int) : (Expr.int line value).Proper := by
  rw [Expr.Proper]
  trivial

theorem proper_fixed (line : Nat) (value : Int) : (Expr.fixed line value).Proper := by
  rw [Expr.Proper]
  trivial

/-- A token that is no operand. -/
theorem pushOperator_reads {s : Spine} (proper : s.Proper) (l : Lexeme) (fault : ParseFault) :
    Reads d e (match unaryOperator? l with
      | some op => pushUnary s l.line op
      | none =>
        match innerOperator? l with
        | some op => pushInner s l.line op
        | none => failParse l.line fault) Spine.Proper := by
  cases unaryOperator? l with
  | some op => exact pushUnary_reads proper _ op
  | none =>
    cases innerOperator? l with
    | some op => exact pushInner_reads proper _ op
    | none => exact .failParse _ _

theorem pushToken_reads {s : Spine} (proper : s.Proper) (l : Lexeme) :
    Reads d e (pushToken s l) Spine.Proper := by
  unfold pushToken
  cases l.token with
  | int value =>
    exact .ite (fun _ => pushOperand_reads proper l (proper_int _ _)) fun _ => .failParse _ _
  | decimal text => exact pushOperand_reads proper l (proper_fixed _ _)
  | char value => exact pushOperand_reads proper l (proper_int _ _)
  | keyword word =>
    cases word with
    | nullWord => exact pushOperand_reads proper l (proper_int _ _)
    | _ => exact pushOperator_reads proper l _
  | _ => exact pushOperator_reads proper l _

theorem finish_reads (line : Nat) {s : Spine} (proper : s.Proper) :
    Reads d e (finish line s) Expr.Proper := by
  unfold finish
  refine .refuse (.failParse _ _) fun _ => ?_
  refine (closeSpine_reads _ proper).bind fun closed after => ?_
  split
  · next e is => exact .pure (after.operand e is)
  · exact .failParse _ _

theorem touch_reads (name : String) : Reads d e (touch name) fun _ => True := by
  intro σ x σ' depth ran
  cases ran
  exact ⟨⟨depth, fun outer _ => Scopes.symbolAt?_touch name σ outer⟩, trivial⟩

theorem variableOperand_reads (line : Nat) {name : String} (source : SourceName name) :
    Reads d e (variableOperand line name) Expr.Proper := by
  refine .get fun σ _ => ?_
  split
  · exact .failSemantic _ _
  · exact .failSemantic _ _
  · exact (touch_reads name).bind fun _ _ => .pure (by rw [Expr.Proper]; exact source)

theorem parameterCount_reads (line : Nat) (name : String) :
    Reads d e (parameterCount line name) fun _ => True := by
  refine .get fun σ _ => ?_
  split
  · exact .failSemantic _ _
  · exact .pure trivial
  · exact .failSemantic _ _

theorem indexCount_reads (line : Nat) (name : String) : Reads d e (indexCount line name) fun _ => True := by
  refine .get fun σ _ => ?_
  split
  · exact .failSemantic _ _
  · exact .pure trivial
  · exact .ite (fun _ => .pure trivial) fun _ => .failSemantic _ _
  · exact .failSemantic _ _

mutual

theorem parseExpr_reads (line : Nat) {tokens : List Lexeme} (plain : Plain tokens) :
    Reads d e (parseExpr line tokens) Expr.Proper := by
  rw [parseExpr]
  exact .ite (fun _ => .failParse _ _) fun _ => parseSpine_reads line plain Spine.proper_empty
termination_by 2 * tokens.length + 1

theorem parseSpine_reads (line : Nat) {tokens : List Lexeme} (plain : Plain tokens) {s : Spine}
    (proper : s.Proper) : Reads d e (parseSpine line tokens s) Expr.Proper := by
  match tokens with
  | [] =>
    rw [parseSpine]
    exact finish_reads line proper
  | l :: rest =>
    rw [parseSpine]
    split
    · exact (openParenthesis_reads proper l).bind fun _ after => parseSpine_reads line plain.tail after
    · exact (closeParenthesis_reads proper l.line).bind fun _ after => parseSpine_reads line plain.tail after
    · next name is =>
      have source := (plain.head.source is).1
      match rest with
      | [] =>
        exact (variableOperand_reads _ source).bind fun _ e => (pushOperand_reads proper l e).bind fun _ after =>
          parseSpine_reads line plain.tail after
      | next :: behind =>
        dsimp only
        split
        · refine (parameterCount_reads _ _).bind fun expected _ => ?_
          split
          · exact .throw _
          · next enclosed found =>
            have within := findClose_within found
            have size := clausesSize_splitClauses .comma enclosed.closer.line 0 enclosed.inside
            have length := findClose_length found
            refine (parseArguments_reads l.line fun c member => plain.tail.tail.of_subset fun t inside =>
              within.1 (splitClauses_within _ _ _ _ c member inside)).bind fun args proper' => ?_
            refine .ite (fun _ => ?_) fun _ => .failSemantic _ _
            exact (pushOperand_reads proper l (by rw [Expr.Proper]; exact proper')).bind fun _ after =>
              parseSpine_reads line (plain.tail.tail.of_subset within.2) after
        · refine (indexCount_reads _ _).bind fun expected _ => ?_
          have within := findIndices_within (next :: behind)
          have size := clausesSize_findIndices (next :: behind)
          refine (parseClauses_reads fun c member => plain.tail.of_subset (within.1 c member)).bind
            fun indices proper' => ?_
          split
          · exact .throw _
          · next after found =>
            have length := findIndices_length found
            refine .ite (fun _ => ?_) fun _ => .failSemantic _ _
            refine (touch_reads name).bind fun occurrence _ => ?_
            exact (pushOperand_reads proper l (by rw [Expr.Proper]; exact ⟨source, proper'⟩)).bind
              fun _ done => parseSpine_reads line (plain.tail.of_subset (within.2 after found)) done
        · exact (variableOperand_reads _ source).bind fun _ e => (pushOperand_reads proper l e).bind fun _ after =>
            parseSpine_reads line plain.tail after
    · exact (pushToken_reads proper l).bind fun _ after => parseSpine_reads line plain.tail after
termination_by 2 * tokens.length
decreasing_by
  all_goals
    simp only [List.length_cons, List.length_nil] at *
    omega

theorem parseArguments_reads (line : Nat) {clauses : List Clause} (plain : ∀ c ∈ clauses, Plain c.tokens) :
    Reads d e (parseArguments line clauses) Expr.AllProper := by
  match clauses with
  | [] =>
    rw [parseArguments]
    exact .pure (by rw [Expr.AllProper]; trivial)
  | [c] =>
    rw [parseArguments]
    refine .ite (fun _ => .pure (by rw [Expr.AllProper]; trivial)) fun _ => ?_
    exact (parseExpr_reads c.line (plain c List.mem_cons_self)).bind fun e proper =>
      .pure (by simp only [Expr.AllProper]; exact ⟨proper, trivial⟩)
  | c :: next :: rest =>
    rw [parseArguments]
    refine (parseExpr_reads c.line (plain c List.mem_cons_self)).bind fun e proper => ?_
    refine (parseArguments_reads line fun c member => plain c (List.mem_cons_of_mem _ member)).bind fun es others => ?_
    exact .ite (fun _ => .failParse _ _) fun _ => .pure (by rw [Expr.AllProper]; exact ⟨proper, others⟩)
termination_by 2 * clausesSize clauses
decreasing_by
  all_goals
    simp only [clausesSize]
    omega

theorem parseClauses_reads {clauses : List Clause} (plain : ∀ c ∈ clauses, Plain c.tokens) :
    Reads d e (parseClauses clauses) Expr.AllProper := by
  match clauses with
  | [] =>
    rw [parseClauses]
    exact .pure (by rw [Expr.AllProper]; trivial)
  | c :: rest =>
    rw [parseClauses]
    refine (parseExpr_reads c.line (plain c List.mem_cons_self)).bind fun e proper => ?_
    exact (parseClauses_reads fun c member => plain c (List.mem_cons_of_mem _ member)).bind fun es others =>
      .pure (by rw [Expr.AllProper]; exact ⟨proper, others⟩)
termination_by 2 * clausesSize clauses
decreasing_by
  all_goals
    simp only [clausesSize]
    omega

end

end Parser

end SmallC
