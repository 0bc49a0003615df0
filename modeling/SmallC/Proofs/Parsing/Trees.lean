import SmallC.Proofs.Parsing.Expressions
import SmallC.Proofs.Parsing.Renderings

/-!
The expression parser builds the textbook tree. What it keeps of an expression that it has read so far is a list
of operators that are still open, and closing those gives the tree of that expression; an operator behind it
closes exactly the operators of its own left operand.
-/
namespace SmallC

namespace Parser

variable {α β : Type} {declared : Declarations} {d m n : Nat} {σ σ' : Scopes} {context frames : List Frame}
  {f : Frame} {operand whole : Expr} {ts us rest : List Lexeme} {t u : Tree} {l : Lexeme}

theorem run_bind_ok {act : ParseM α} {k : α → ParseM β} {x : α} (ran : act.run σ = .ok (x, σ')) :
    (act >>= k).run σ = (k x).run σ' := by
  rw [StateT.run_bind, ran]
  rfl

theorem run_get_bind {k : Scopes → ParseM β} : (get >>= k).run σ = (k σ).run σ := rfl

/-! ### Names -/

/-- A new occurrence changes nothing about what names are declared as. -/
theorem find?_touch (σ : Scopes) (name : String) : (σ.touch name).1.find? = σ.find? :=
  funext fun _ => Scopes.find?_renew (fun _ _ => rfl) name _ _

theorem run_touch (σ : Scopes) (name : String) :
    ∃ occurrence σ', (touch name).run σ = .ok (occurrence, σ') ∧ σ'.find? = σ.find? :=
  ⟨_, _, rfl, find?_touch σ name⟩

/-! ### Open operators -/

/-- The expression of an open operator and its right operand. -/
def Frame.close (f : Frame) (right : Expr) : Expr :=
  match f.operator with
  | .unary op => .unary f.line op right
  | .binary op left => .binary f.line op left right
  | .assign op target => .assign f.line op target right

/-- Whether an open operator takes an operand on its right. -/
def Frame.Closes (declared : Declarations) (f : Frame) (right : Expr) : Prop :=
  match f.operator with
  | .unary op => op = .ref ∨ op = .deref → ∃ name, right.tree = .var name
  | .binary .. => True
  | .assign op target => target.tree.Assignable declared op

theorem isAssignable_of_assignable {op : Option WordOp} {target : Expr}
    (assignable : target.tree.Assignable σ.find? op) : isAssignable σ op target = true := by
  cases target with
  | var line name occurrence =>
    rw [Expr.tree, Tree.Assignable] at assignable
    rw [isAssignable]
    split
    · next ty dims line is => exact absurd is (assignable _ _ _)
    · rfl
  | index line name occurrence indices =>
    rw [Expr.tree, Tree.Assignable] at assignable
    rw [isAssignable, assignable]
    rfl
  | unary line op' operand =>
    rw [Expr.tree] at assignable
    cases op' with
    | deref =>
      rw [Tree.Assignable] at assignable
      rw [isAssignable, assignable]
      rfl
    | neg | ref | not => exact absurd assignable (by rw [Tree.Assignable] <;> simp)
  | int | fixed | binary | assign | call =>
    rw [Expr.tree] at assignable
    exact absurd assignable (by rw [Tree.Assignable] <;> simp)

theorem run_closeFrame (names : σ.find? = declared) (closes : f.Closes declared operand) :
    (closeFrame f operand).run σ = .ok (f.close operand, σ) := by
  obtain ⟨operator, depth, line⟩ := f
  subst names
  cases operator with
  | unary op =>
    have named : ¬ ((op = .ref ∨ op = .deref) ∧ operand.varName?.isNone = true) := by
      rintro ⟨needs, none⟩
      obtain ⟨name, is⟩ := closes needs
      cases operand <;> simp_all [Expr.tree, Expr.varName?]
    simp only [closeFrame, if_neg named]
    rfl
  | binary op left => rfl
  | assign op target =>
    have assignable := isAssignable_of_assignable closes
    simp only [closeFrame]
    rw [run_get_bind, assignable]
    rfl

/-- Open operators that bind at least so tightly, all at one depth of parentheses, and the expression that they
come to with an operand for the innermost one. -/
inductive Pending (declared : Declarations) (d n : Nat) : List Frame → Expr → Expr → Prop where
  | nil {e : Expr} : Pending declared d n [] e e
  | cons {f : Frame} {rest : List Frame} {operand whole : Expr} (depth : f.depth = d)
      (level : n ≤ f.operator.precedence) (closes : f.Closes declared operand)
      (others : Pending declared d n rest (f.close operand) whole) :
      Pending declared d n (f :: rest) operand whole

namespace Pending

theorem weaken (pending : Pending declared d m frames operand whole) (lower : n ≤ m) :
    Pending declared d n frames operand whole := by
  induction pending with
  | nil => exact .nil
  | cons depth level closes _ ih => exact .cons depth (Nat.le_trans lower level) closes ih

/-- One more operator around all others. -/
theorem snoc (pending : Pending declared d n frames operand whole) (depth : f.depth = d)
    (level : n ≤ f.operator.precedence) (closes : f.Closes declared whole) :
    Pending declared d n (frames ++ [f]) operand (f.close whole) := by
  induction pending with
  | nil => exact .cons depth level closes .nil
  | cons depth' level' closes' _ ih => exact .cons depth' level' closes' (ih closes)

/-- Closing the operators of an expression gives the expression, and leaves those around it. -/
theorem run_closeWhile (pending : Pending declared d n frames operand whole) (names : σ.find? = declared)
    (condition : Frame → Bool) (own : ∀ f : Frame, f.depth = d → n ≤ f.operator.precedence → condition f = true)
    (others : ∀ f ∈ context.head?, condition f = false) :
    (closeWhile condition operand (frames ++ context)).run σ = .ok ((context, whole), σ) := by
  induction pending with
  | nil =>
    cases context with
    | nil => rfl
    | cons f rest =>
      rw [List.nil_append, closeWhile, if_neg (by simp [others f rfl])]
      rfl
  | @cons f _ _ _ depth level closes _ ih =>
    rw [List.cons_append, closeWhile, if_pos (own f depth level), run_bind_ok (run_closeFrame names closes), ih]

theorem run_closeSpine (pending : Pending declared d n frames operand whole) (names : σ.find? = declared)
    {condition : Frame → Bool} (own : ∀ f : Frame, f.depth = d → n ≤ f.operator.precedence → condition f = true)
    (others : ∀ f ∈ context.head?, condition f = false) {depth : Nat} :
    (closeSpine condition ⟨frames ++ context, some operand, depth⟩).run σ =
      .ok (⟨context, some whole, depth⟩, σ) := by
  rw [closeSpine]
  exact run_bind_ok (pending.run_closeWhile names _ own others)

end Pending

/-- The operators around an expression at a depth that wait for it, whatever operators of at least a level it
holds. -/
structure Around (context : List Frame) (d n : Nat) : Prop where
  shallow : ∀ f ∈ context.head?, f.depth ≤ d
  waits : ∀ f ∈ context.head?, ∀ op : InnerOperator, n ≤ op.precedence → closesBefore op d f = false

theorem Around.nil : Around [] d n := ⟨nofun, nofun⟩

/-- Inside of parentheses, all operators around wait. -/
theorem Around.deeper (around : Around context d n) : Around context (d + 1) m := by
  refine ⟨fun f first => Nat.le_succ_of_le (around.shallow f first), fun f first op _ => ?_⟩
  rw [closesBefore, decide_eq_false (Nat.not_le.2 (Nat.lt_succ_of_le (around.shallow f first))), Bool.false_and]

/-- What cannot stand behind a name without being part of it. -/
def Stops (rest : List Lexeme) : Prop := ∀ l ∈ rest.head?, ∀ b, l.token ≠ .opening b

theorem Stops.cons {token : Token} (is : l.token = token) (other : ∀ b, token ≠ .opening b) : Stops (l :: rest) := by
  intro l' first b
  cases first
  rw [is]
  exact other b

/-- Tokens that the parser reads as a tree: behind them, it has operators open that come to the tree. -/
def Brings (declared : Declarations) (n : Nat) (ts : List Lexeme) (t : Tree) : Prop :=
  ∀ (line : Nat) (rest : List Lexeme) (context : List Frame) (d : Nat) (σ : Scopes), Around context d n →
    Stops rest → σ.find? = declared → ∃ frames operand whole σ',
      (parseSpine line (ts ++ rest) ⟨context, none, d⟩).run σ =
        (parseSpine line rest ⟨frames ++ context, some operand, d⟩).run σ' ∧
      σ'.find? = declared ∧ Pending declared d n frames operand whole ∧ whole.tree = t

/-- Tokens that the parser reads as an operand. -/
theorem Brings.of_operand (reads : ∀ (line : Nat) (rest : List Lexeme) (context : List Frame) (d : Nat) (σ : Scopes),
    Stops rest → σ.find? = declared → ∃ e σ', (parseSpine line (ts ++ rest) ⟨context, none, d⟩).run σ =
      (parseSpine line rest ⟨context, some e, d⟩).run σ' ∧ σ'.find? = declared ∧ e.tree = t) :
    Brings declared n ts t := by
  intro line rest context d σ _ stops names
  obtain ⟨e, σ', ran, names', same⟩ := reads line rest context d σ stops names
  exact ⟨[], e, e, σ', ran, names', .nil, same⟩

/-! ### Tokens -/

theorem parseSpine_token {line : Nat} {s s' : Spine} (round : ∀ b, l.token ≠ .opening b)
    (closing : ∀ b, l.token ≠ .closing b) (ident : ∀ name, l.token ≠ .ident name)
    (ran : (pushToken s l).run σ = .ok (s', σ)) :
    (parseSpine line (l :: rest) s).run σ = (parseSpine line rest s').run σ := by
  rw [parseSpine]
  split
  · next is => exact absurd is (round _)
  · next is => exact absurd is (closing _)
  · next is => exact absurd is (ident _)
  · exact run_bind_ok ran

theorem brings_literal (literal : l.token.Literal t) : Brings declared n [l] t := by
  refine .of_operand fun line rest context d σ _ names => ?_
  generalize is : l.token = token at literal
  have reads : ∃ e, (pushToken ⟨context, none, d⟩ l).run σ = .ok (⟨context, some e, d⟩, σ) ∧ e.tree = t := by
    unfold pushToken
    rw [is]
    cases literal with
    | int fits =>
      dsimp only
      rw [if_pos fits]
      exact ⟨_, rfl, rfl⟩
    | decimal | char | null => exact ⟨_, rfl, rfl⟩
  obtain ⟨e, ran, same⟩ := reads
  refine ⟨e, σ, parseSpine_token (fun b => ?_) (fun b => ?_) (fun name => ?_) ran, names, same⟩
  all_goals
    rw [is]
    cases literal <;> nofun

theorem run_variableOperand {name : String} {symbol : Symbol} (line : Nat) (names : σ.find? = declared)
    (known : declared name = some symbol) (value : ∀ signature, symbol.entity ≠ .function signature) :
    ∃ e σ', (variableOperand line name).run σ = .ok (e, σ') ∧ σ'.find? = declared ∧ e.tree = .var name := by
  subst names
  obtain ⟨occurrence, σ', touched, names⟩ := run_touch σ name
  refine ⟨.var line name occurrence, σ', ?_, names, rfl⟩
  rw [variableOperand, run_get_bind]
  split
  · next missing =>
    rw [known] at missing
    cases missing
  · next signature line is =>
    rw [known] at is
    cases is
    exact absurd rfl (value signature)
  · rw [run_bind_ok touched]
    rfl

theorem brings_var {name : String} {symbol : Symbol} (token : l.token = .ident name)
    (known : declared name = some symbol) (value : ∀ signature, symbol.entity ≠ .function signature) :
    Brings declared n [l] (.var name) := by
  refine .of_operand fun line rest context d σ stops names => ?_
  obtain ⟨e, σ', read, names', same⟩ := run_variableOperand l.line names known value
  refine ⟨e, σ', ?_, names', same⟩
  rw [List.singleton_append, parseSpine]
  simp only [token]
  cases rest with
  | nil =>
    rw [run_bind_ok read]
    rfl
  | cons next behind =>
    have other := stops next rfl
    dsimp only
    split
    · next is => exact absurd is (other _)
    · next is => exact absurd is (other _)
    · rw [run_bind_ok read]
      rfl

/-! ### Operators -/

theorem run_openParenthesis (l : Lexeme) :
    (openParenthesis ⟨context, none, d⟩ l).run σ = .ok (⟨context, none, d + 1⟩, σ) := rfl

theorem brings_parentheses {r : Lexeme} (opens : l.token = .opening .round) (inside : Brings declared 1 ts t)
    (closes : r.token = .closing .round) : Brings declared n (l :: ts ++ [r]) t := by
  intro line rest context d σ around _ names
  obtain ⟨frames, operand, whole, σ', ran, names', pending, same⟩ := inside line (r :: rest) context (d + 1) σ
    around.deeper (.cons closes nofun) names
  refine ⟨[], whole, whole, σ', ?_, names', .nil, same⟩
  rw [List.cons_append, List.cons_append, List.append_assoc, List.singleton_append, parseSpine]
  simp only [opens]
  rw [run_bind_ok (run_openParenthesis l), ran, parseSpine]
  simp only [closes]
  refine run_bind_ok (pending.run_closeSpine names' (fun f depth _ => ?_) fun f first => ?_)
  · simp [depth]
  · exact decide_eq_false (Nat.not_lt.2 (around.shallow f first))

theorem unaryOperator?_eq {op : UnaryOp} (token : l.token = op.token)
    (before : op ≠ .not → l.beforeOperand = true) : unaryOperator? l = some op := by
  unfold unaryOperator?
  rw [token]
  cases op with
  | not => rfl
  | neg | deref | ref =>
    rw [before (by simp)]
    rfl

theorem unaryPrecedence_lt (op : InnerOperator) : op.precedence < unaryPrecedence := by
  cases op with
  | assign op => exact (by decide : assignPrecedence < unaryPrecedence)
  | binary op =>
    cases op with
    | word op =>
      cases op with
      | arithmetic op => cases op <;> decide
      | shift direction => cases direction <;> decide
    | relation r => cases r <;> decide
    | logical op => cases op <;> decide

theorem assignPrecedence_lt (op : BinaryOp) : assignPrecedence < op.precedence := by
  cases op with
  | word op =>
    cases op with
    | arithmetic op => cases op <;> decide
    | shift direction => cases direction <;> decide
  | relation r => cases r <;> decide
  | logical op => cases op <;> decide

theorem brings_unary {op : UnaryOp} (level : n ≤ unaryPrecedence) (token : l.token = op.token)
    (before : op ≠ .not → l.beforeOperand = true) (operand : Brings declared unaryPrecedence ts t)
    (named : op = .ref ∨ op = .deref → ∃ name, t = .var name) : Brings declared n (l :: ts) (.unary op t) := by
  intro line rest context d σ _ stops names
  obtain ⟨frames, last, whole, σ', ran, names', pending, same⟩ := operand line rest
    (⟨.unary op, d, l.line⟩ :: context) d σ ⟨fun f first => by cases first; exact Nat.le_refl d,
      fun f first op' high => absurd high (Nat.not_le.2 (unaryPrecedence_lt op'))⟩ stops names
  refine ⟨frames ++ [⟨.unary op, d, l.line⟩], last, _, σ', ?_, names',
    (pending.weaken level).snoc (f := ⟨.unary op, d, l.line⟩) rfl level ?_, ?_⟩
  · have pushed : (pushToken ⟨context, none, d⟩ l).run σ = .ok (⟨⟨.unary op, d, l.line⟩ :: context, none, d⟩, σ) := by
      unfold pushToken
      rw [unaryOperator?_eq token before, token]
      cases op <;> rfl
    rw [List.cons_append, parseSpine_token _ _ _ pushed, ran, List.append_assoc, List.singleton_append]
    all_goals
      rw [token]
      cases op <;> nofun
  · intro needs
    rw [same]
    exact named needs
  · rw [Frame.close, Expr.tree, same]

/-- The operator between operands that a token is. -/
def InnerOperator.token : InnerOperator → Token
  | binary op => .operator op
  | assign op => .assign op

/-- An operator closes those of its left operand, and leaves those around it. -/
theorem parseSpine_inner {line : Nat} {op : InnerOperator} (token : l.token = op.token)
    (between : l.beforeOperand = false ∨ op.groupsRight = true) (around : Around context d n)
    (level : n ≤ op.precedence) (pending : Pending declared d m frames operand whole)
    (left : op.precedence < m ∨ op.precedence = m ∧ op.groupsRight = false) (names : σ.find? = declared) :
    (parseSpine line (l :: rest) ⟨frames ++ context, some operand, d⟩).run σ =
      (parseSpine line rest ⟨⟨op.applyLeft whole, d, l.line⟩ :: context, none, d⟩).run σ := by
  have notUnary : unaryOperator? l = none := by
    unfold unaryOperator?
    rw [token]
    cases op with
    | assign op => rfl
    | binary op =>
      rw [between.resolve_right Bool.false_ne_true]
      simp only [InnerOperator.token]
      split <;> simp_all
  have inner : innerOperator? l = some op := by
    unfold innerOperator?
    rw [token]
    cases op <;> rfl
  have closed := pending.run_closeWhile names (closesBefore op d) (fun f depth high => ?_)
    fun f first => around.waits f first op level
  · refine parseSpine_token ?_ ?_ ?_ ?_
    · rw [token]
      cases op <;> nofun
    · rw [token]
      cases op <;> nofun
    · rw [token]
      cases op <;> nofun
    · unfold pushToken
      rw [notUnary, inner, token]
      have pushed : (pushInner ⟨frames ++ context, some operand, d⟩ l.line op).run σ =
          .ok (⟨⟨op.applyLeft whole, d, l.line⟩ :: context, none, d⟩, σ) := by
        rw [pushInner]
        exact run_bind_ok closed
      cases op <;> exact pushed
  · rw [closesBefore, decide_eq_true (Nat.le_of_eq depth.symm), Bool.true_and, Bool.or_eq_true, Bool.and_eq_true]
    rcases left with tighter | ⟨as_tight, groupsLeft⟩
    · exact .inl (decide_eq_true (Nat.lt_of_lt_of_le tighter high))
    · rcases Nat.lt_or_eq_of_le (as_tight ▸ high) with tighter | same
      · exact .inl (decide_eq_true tighter)
      · exact .inr ⟨decide_eq_true same, by rw [groupsLeft]; rfl⟩

/-- An operator between two operands that the parser reads. -/
theorem brings_inner (op : InnerOperator) {higher : Nat} {built : Tree} (level : n ≤ op.precedence)
    (left : Brings declared m ts t) (closed : op.precedence < m ∨ op.precedence = m ∧ op.groupsRight = false)
    (token : l.token = op.token) (between : l.beforeOperand = false ∨ op.groupsRight = true)
    (right : Brings declared higher us u) (within : op.precedence ≤ higher)
    (waits : ∀ other : InnerOperator, higher ≤ other.precedence → other.precedence = op.precedence →
      other.groupsRight = true)
    (builds : ∀ (f : Frame) (left' right' : Expr), f.operator = op.applyLeft left' → left'.tree = t →
      right'.tree = u → f.Closes declared right' ∧ (f.close right').tree = built) :
    Brings declared n (ts ++ l :: us) built := by
  intro line rest context d σ around stops names
  have tight : n ≤ m := by omega
  have precedence : ∀ e, (op.applyLeft e).precedence = op.precedence := fun e => by cases op <;> rfl
  obtain ⟨frames, last, whole, σ₁, ran, names₁, pending, same⟩ := left line (l :: us ++ rest) context d σ
    ⟨around.shallow, fun f first other high => around.waits f first other (Nat.le_trans tight high)⟩
    (.cons token (by cases op <;> nofun)) names
  have after : Around (⟨op.applyLeft whole, d, l.line⟩ :: context) d higher := by
    refine ⟨fun f first => by cases first; exact Nat.le_refl d, fun f first other high => ?_⟩
    cases first
    simp only [closesBefore, precedence, Bool.and_eq_false_iff, Bool.or_eq_false_iff, decide_eq_false_iff_not]
    refine .inr ⟨by omega, ?_⟩
    by_cases same : other.precedence = op.precedence
    · exact .inr (by rw [waits other high same]; rfl)
    · exact .inl same
  obtain ⟨frames', last', whole', σ₂, ran', names₂, pending', same'⟩ := right line rest _ d σ₁ after stops names₁
  obtain ⟨closes, is⟩ := builds ⟨op.applyLeft whole, d, l.line⟩ whole whole' rfl same same'
  refine ⟨frames' ++ [⟨op.applyLeft whole, d, l.line⟩], last', _, σ₂, ?_, names₂,
    (pending'.weaken (Nat.le_trans level within)).snoc (f := ⟨op.applyLeft whole, d, l.line⟩) rfl
      (by rw [precedence]; exact level) closes, is⟩
  rw [List.append_assoc, ran, List.cons_append, parseSpine_inner token between around level pending closed names₁,
    ran', List.append_assoc, List.singleton_append]

theorem brings_binary {op : BinaryOp} (level : n ≤ op.precedence) (left : Brings declared op.precedence ts t)
    (token : l.token = .operator op) (between : l.beforeOperand = false)
    (right : Brings declared (op.precedence + 1) us u) : Brings declared n (ts ++ l :: us) (.binary op t u) := by
  refine brings_inner (.binary op) level left (.inr ⟨rfl, rfl⟩) token (.inl between) right (Nat.le_succ _)
    (fun other high same => absurd high (by rw [same]; exact Nat.not_succ_le_self _)) fun f left' right' is first second => ?_
  rw [Frame.Closes, Frame.close, is]
  exact ⟨trivial, by simp only [InnerOperator.applyLeft, Expr.tree, first, second]⟩

theorem brings_assign {op : Option WordOp} (level : n ≤ assignPrecedence)
    (target : Brings declared (assignPrecedence + 1) ts t) (assignable : t.Assignable declared op)
    (token : l.token = .assign op) (value : Brings declared assignPrecedence us u) :
    Brings declared n (ts ++ l :: us) (.assign op t u) := by
  refine brings_inner (.assign op) level target (.inl (Nat.lt_succ_self _)) token (.inr rfl) value
    (Nat.le_refl _) (fun other _ same => ?_) fun f left' right' is first second => ?_
  · cases other with
    | assign => rfl
    | binary op => exact absurd same (Nat.ne_of_gt (assignPrecedence_lt op))
  · rw [Frame.Closes, Frame.close, is]
    subst first
    exact ⟨assignable, by simp only [InnerOperator.applyLeft, Expr.tree, second]⟩

/-! ### Calls and indices -/

/-- What stands at the loosest level is parsed as a whole. -/
theorem Brings.run_parseExpr (brings : Brings declared 1 ts t) (nonempty : ts ≠ []) (line : Nat)
    (names : σ.find? = declared) :
    ∃ e σ', (parseExpr line ts).run σ = .ok (e, σ') ∧ σ'.find? = declared ∧ e.tree = t := by
  obtain ⟨frames, operand, whole, σ', ran, names', pending, same⟩ := brings line [] [] 0 σ .nil nofun names
  refine ⟨whole, σ', ?_, names', same⟩
  rw [List.append_nil] at ran
  have closed : (closeSpine (fun _ => true) ⟨frames ++ [], some operand, 0⟩).run σ' = .ok (⟨[], some whole, 0⟩, σ') :=
    pending.run_closeSpine names' (fun _ _ _ => rfl) fun _ first => by cases first
  rw [parseExpr, if_neg (by simpa using nonempty), Spine.empty, ran, parseSpine, finish, if_neg (by simp),
    run_bind_ok closed]
  rfl

/-- Tokens that the parser reads as several arguments. -/
def BringsArguments (declared : Declarations) (ts : List Lexeme) (args : List Tree) : Prop :=
  ∀ (line endLine : Nat) (σ : Scopes), σ.find? = declared → ∃ es σ',
    (parseArguments line (splitClauses .comma endLine 0 ts)).run σ = .ok (es, σ') ∧ σ'.find? = declared ∧
      Expr.trees es = args

theorem bringsArguments_none : BringsArguments declared [] [] := by
  intro line endLine σ names
  refine ⟨[], σ, ?_, names, rfl⟩
  rw [splitClauses, parseArguments]
  rfl

theorem splitClauses_passed (passed : Passed 0 ts) (endLine : Nat) :
    splitClauses .comma endLine 0 ts = [⟨ts, endLine⟩] := by
  have whole := passed.split endLine 0 [] (Nat.le_refl 0)
  rw [List.append_nil, splitClauses] at whole
  rw [whole, prepend]
  clear whole passed
  induction ts with
  | nil => rfl
  | cons l rest ih => rw [List.foldr_cons, ih]; rfl

theorem splitClauses_comma (passed : Passed 0 ts) (token : l.token = .comma) (endLine : Nat) :
    splitClauses .comma endLine 0 (ts ++ l :: us) = ⟨ts, l.line⟩ :: splitClauses .comma endLine 0 us := by
  rw [passed.split _ _ _ (Nat.le_refl 0), splitClauses, if_pos ⟨token, rfl⟩, prepend]
  clear passed
  induction ts with
  | nil => rfl
  | cons l rest ih => rw [List.foldr_cons, ih]; rfl

theorem bringsArguments_one (nonempty : ts ≠ []) (passed : Passed 0 ts) (arg : Brings declared 1 ts t) :
    BringsArguments declared ts [t] := by
  intro line endLine σ names
  obtain ⟨e, σ', ran, names', same⟩ := arg.run_parseExpr nonempty (Clause.line ⟨ts, endLine⟩) names
  refine ⟨[e], σ', ?_, names', by rw [Expr.trees, Expr.trees, same]⟩
  rw [splitClauses_passed passed, parseArguments, if_neg (by simpa using nonempty), run_bind_ok ran]
  rfl

theorem bringsArguments_more {next : Tree} {others : List Tree} (nonempty : ts ≠ []) (passed : Passed 0 ts)
    (arg : Brings declared 1 ts t) (token : l.token = .comma) (rest : BringsArguments declared us (next :: others)) :
    BringsArguments declared (ts ++ l :: us) (t :: next :: others) := by
  intro line endLine σ names
  obtain ⟨e, σ₁, ran, names₁, same⟩ := arg.run_parseExpr nonempty (Clause.line ⟨ts, l.line⟩) names
  obtain ⟨es, σ₂, ran', names₂, same'⟩ := rest line endLine σ₁ names₁
  refine ⟨e :: es, σ₂, ?_, names₂, by rw [Expr.trees, same, same']⟩
  rw [splitClauses_comma passed token]
  cases cut : splitClauses .comma endLine 0 us with
  | nil => exact absurd cut (splitClauses_ne_nil _ _ _ _)
  | cons c cs =>
    rw [cut] at ran'
    rw [parseArguments, run_bind_ok ran, run_bind_ok ran', if_neg]
    · rfl
    · cases es with
      | nil => cases same'
      | cons => simp

theorem brings_call {o r : Lexeme} {line : Nat} {name : String} {signature : Signature} {args : List Tree}
    (token : l.token = .ident name) (known : declared name = some ⟨.function signature, line⟩)
    (opens : o.token = .opening .round) (passed : Passed 1 ts) (arguments : BringsArguments declared ts args)
    (count : args.length = signature.params.length) (closes : r.token = .closing .round) :
    Brings declared n (l :: (o :: ts ++ [r])) (.call name args) := by
  refine .of_operand fun line' rest context d σ _ names => ?_
  obtain ⟨es, σ', ran, names', same⟩ := arguments l.line r.line σ names
  have counted : es.length = signature.params.length := by rw [← count, ← same, Expr.length_trees]
  have closed : findClose o 0 (ts ++ r :: rest) = .ok ⟨ts, r, rest⟩ := by
    rw [passed.close, findClose]
    simp [closes, opens, Except.map]
  have expected : (parameterCount l.line name).run σ = .ok (signature.params.length, σ) := by
    rw [parameterCount, run_get_bind, names, known]
    rfl
  refine ⟨.call l.line name es, σ', ?_, names', by rw [Expr.tree, same]⟩
  have shape : l :: (o :: ts ++ [r]) ++ rest = l :: o :: (ts ++ r :: rest) := by simp
  rw [shape, parseSpine]
  simp only [token, opens]
  rw [run_bind_ok expected]
  split
  · next failed =>
    rw [closed] at failed
    cases failed
  · next enclosed found =>
    rw [closed] at found
    cases found
    rw [run_bind_ok ran, if_pos counted]
    rfl

/-- Tokens that the parser reads as several indices. -/
def BringsIndices (declared : Declarations) (ts : List Lexeme) (indices : List Tree) : Prop :=
  ∀ rest, Stops rest → ∃ clauses, findIndices (ts ++ rest) = ⟨clauses, .ok rest⟩ ∧
    ∀ σ : Scopes, σ.find? = declared → ∃ es σ', (parseClauses clauses).run σ = .ok (es, σ') ∧
      σ'.find? = declared ∧ Expr.trees es = indices

theorem bringsIndices_none : BringsIndices declared [] [] := by
  intro rest stops
  refine ⟨[], ?_, fun σ names => ⟨[], σ, by rw [parseClauses]; rfl, names, rfl⟩⟩
  rw [List.nil_append, findIndices.eq_def]
  cases rest with
  | nil => rfl
  | cons l rest => exact if_neg (stops l rfl .square)

theorem bringsIndices_more {r : Lexeme} {others : List Tree} (opens : l.token = .opening .square)
    (passed : Passed 0 ts) (nonempty : ts ≠ []) (index : Brings declared 1 ts t)
    (closes : r.token = .closing .square) (others' : BringsIndices declared us others) :
    BringsIndices declared (l :: ts ++ r :: us) (t :: others) := by
  intro rest stops
  obtain ⟨clauses, cut, reads⟩ := others' rest stops
  have closed : findClose l 0 (ts ++ r :: (us ++ rest)) = .ok ⟨ts, r, us ++ rest⟩ := by
    rw [passed.close, findClose]
    simp [closes, opens, Except.map]
  refine ⟨⟨ts, r.line⟩ :: clauses, ?_, fun σ names => ?_⟩
  · have shape : l :: ts ++ r :: us ++ rest = l :: (ts ++ r :: (us ++ rest)) := by simp
    rw [shape, findIndices.eq_def]
    simp only [opens, ↓reduceIte]
    split
    · next failed =>
      rw [closed] at failed
      cases failed
    · next enclosed found =>
      rw [closed] at found
      cases found
      rw [cut]
      rfl
  · obtain ⟨e, σ₁, ran, names₁, same⟩ := index.run_parseExpr nonempty (Clause.line ⟨ts, r.line⟩) names
    obtain ⟨es, σ₂, ran', names₂, same'⟩ := reads σ₁ names₁
    refine ⟨e :: es, σ₂, ?_, names₂, by rw [Expr.trees, same, same']⟩
    rw [parseClauses, run_bind_ok ran, run_bind_ok ran']
    rfl

theorem run_indexCount {name : String} {count line : Nat} (names : σ.find? = declared)
    (known : declared.indices? name = some count) : (indexCount line name).run σ = .ok (count, σ) := by
  rw [indexCount, run_get_bind, names]
  unfold Declarations.indices? at known
  split at known
  · next is =>
    cases known
    rw [is]
    rfl
  · next is =>
    rw [is]
    dsimp only
    split at known
    · next pointer =>
      cases known
      rw [if_pos pointer]
      rfl
    · cases known
  · cases known

theorem brings_index {name : String} {first : Tree} {others : List Tree} (token : l.token = .ident name)
    (known : declared.indices? name = some (others.length + 1))
    (indices : RendersIndices declared ts (first :: others)) (brings : BringsIndices declared ts (first :: others)) :
    Brings declared n (l :: ts) (.index name (first :: others)) := by
  refine .of_operand fun line rest context d σ stops names => ?_
  obtain ⟨clauses, cut, reads⟩ := brings rest stops
  obtain ⟨es, σ₁, ran, names₁, same⟩ := reads σ names
  have counted : es.length = others.length + 1 := by rw [← Expr.length_trees, same, List.length_cons]
  obtain ⟨occurrence, σ₂, touched, names₂⟩ := run_touch σ₁ name
  refine ⟨.index l.line name occurrence es, σ₂, ?_, names₂.trans names₁, by rw [Expr.tree, same]⟩
  cases indices with
  | @more o r us vs _ _ opens _ closes others =>
    rw [List.cons_append, List.cons_append] at cut
    rw [List.cons_append, parseSpine]
    simp only [token, opens, List.cons_append]
    rw [run_bind_ok (run_indexCount names known)]
    have ran' : (parseClauses (findIndices (o :: (us ++ r :: vs ++ rest))).clauses).run σ = .ok (es, σ₁) := by
      rw [cut]
      exact ran
    rw [run_bind_ok ran']
    split
    · next failed =>
      rw [cut] at failed
      cases failed
    · next after found =>
      rw [cut] at found
      cases found
      rw [if_pos counted, run_bind_ok touched]
      rfl

end Parser

open SmallC.Parser

variable {declared : Declarations}

/-! ### Renderings -/

theorem Renders.nonempty {n : Nat} {ts : List Lexeme} {t : Tree} (renders : Renders declared n ts t) : ts ≠ [] := by
  cases renders <;> simp

mutual

theorem Renders.brings : ∀ {n : Nat} {ts : List Lexeme} {t : Tree}, Renders declared n ts t → Brings declared n ts t
  | _, _, _, .literal token => brings_literal token
  | _, _, _, .var token known value => brings_var token known value
  | _, _, _, .parentheses opens inside closes => brings_parentheses opens inside.brings closes
  | _, _, _, .unary level token before operand named => brings_unary level token before operand.brings named
  | _, _, _, .binary level left token between right => brings_binary level left.brings token between right.brings
  | _, _, _, .assign level target assignable token value =>
    brings_assign level target.brings assignable token value.brings
  | _, _, _, .call token known opens arguments count closes =>
    brings_call token known opens arguments.passed arguments.brings count closes
  | _, _, _, .index token known indices => brings_index token known indices indices.brings

theorem RendersArguments.brings : ∀ {ts : List Lexeme} {args : List Tree}, RendersArguments declared ts args →
    BringsArguments declared ts args
  | _, _, .none => bringsArguments_none
  | _, _, .one arg => bringsArguments_one arg.nonempty arg.passed arg.brings
  | _, _, .more arg token rest => bringsArguments_more arg.nonempty arg.passed arg.brings token rest.brings

theorem RendersIndices.brings : ∀ {ts : List Lexeme} {indices : List Tree}, RendersIndices declared ts indices →
    BringsIndices declared ts indices
  | _, _, .none => bringsIndices_none
  | _, _, .more opens index closes rest =>
    bringsIndices_more opens index.passed index.nonempty index.brings closes rest.brings

end

/-- Every rendering of a tree, with the parentheses that the precedences ask for and any others, is parsed
as that tree. What names are declared as stays. -/
theorem parseExpr_renders {σ : Scopes} {ts : List Lexeme} {t : Tree} (renders : Renders σ.find? 1 ts t)
    (line : Nat) : ∃ e σ', (parseExpr line ts).run σ = .ok (e, σ') ∧ σ'.find? = σ.find? ∧ e.tree = t :=
  renders.brings.run_parseExpr renders.nonempty line rfl

/-- In `a = 1 - (-a) * 2`, the product is taken first, and the parentheses are not needed. -/
theorem parseExpr_renders_assignment :
    let scopes := Scopes.root.add "a" ⟨.variable ⟨.int, 0⟩, 1⟩
    let word (token : Token) : Lexeme := ⟨token, 1, 0, 0, false⟩
    let a := word (.ident "a")
    let negated := [word (.opening .round), ⟨.operator .minus, 1, 0, 0, true⟩, a, word (.closing .round)]
    let product := negated ++ [word (.operator .star), word (.int 2)]
    let difference := [word (.int 1), word (.operator .minus)] ++ product
    let t := Tree.assign none (.var "a") (.binary .minus (.int 1) (.binary .star (.unary .neg (.var "a")) (.int 2)))
    Renders scopes.find? 1 ([a, word (.assign none)] ++ difference) t ∧
      ∃ e σ', (parseExpr 1 ([a, word (.assign none)] ++ difference)).run scopes = .ok (e, σ') ∧ e.tree = t := by
  intro scopes word a negated product difference t
  have number : ∀ {n : Nat} {value : Int}, FitsSigned 32 value →
      Renders scopes.find? n [word (.int value)] (.int value) := fun fits => .literal (.int fits)
  have named : ∀ {n : Nat}, Renders scopes.find? n [a] (.var "a") :=
    fun {n} => @Renders.var scopes.find? n a "a" ⟨.variable ⟨.int, 0⟩, 1⟩ rfl rfl nofun
  have inside : Renders scopes.find? 1 [⟨.operator .minus, 1, 0, 0, true⟩, a] (.unary .neg (.var "a")) :=
    .unary (by decide) rfl (fun _ => rfl) named (by simp)
  have inner : Renders scopes.find? 9 negated (.unary .neg (.var "a")) := .parentheses rfl inside rfl
  have outer : Renders scopes.find? 9 product (.binary .star (.unary .neg (.var "a")) (.int 2)) :=
    .binary (Nat.le_refl 9) inner rfl rfl (number (by decide))
  have value : Renders scopes.find? 1 difference (.binary .minus (.int 1) (.binary .star _ _)) :=
    @Renders.binary _ _ _ .minus [word (.int 1)] product _ _ (by decide) (number (by decide)) rfl rfl outer
  have assignable : Tree.Assignable scopes.find? none (.var "a") := by
    rw [Tree.Assignable]
    intro ty dims line is
    cases is
  have whole : Renders scopes.find? 1 ([a, word (.assign none)] ++ difference) t :=
    @Renders.assign _ _ _ none [a] difference _ _ (Nat.le_refl 1) named assignable rfl value
  obtain ⟨e, σ', ran, -, same⟩ := parseExpr_renders whole 1
  exact ⟨whole, e, σ', ran, same⟩

end SmallC
