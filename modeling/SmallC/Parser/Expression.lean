import SmallC.Parser.Cursor

/-!
Parsing expressions by precedence and depth. The parser keeps the right spine of the tree under
construction as a list of open operators, the innermost first, and the operand that the innermost one
waits for. An operator between two operands first closes every open operator that binds tighter, or as
tight unless it associates to the right, and that was opened at the same or a greater depth of
parentheses; then it takes what was closed as its left operand. Parentheses only count the depth, and a
closing one closes the operators that were opened inside it.
-/
namespace SmallC.Parser

/-- An operator that waits for its right operand; what stands on its left is known. -/
inductive OpenOperator where
  | unary (op : UnaryOp)
  | binary (op : BinaryOp) (left : Expr)
  | assign (op : Option WordOp) (target : Expr)

namespace OpenOperator

/-- How tightly the operator binds. -/
def precedence : OpenOperator → Nat
  | unary _ => unaryPrecedence
  | binary op _ => op.precedence
  | assign .. => assignPrecedence

/-- The operator as it is written. -/
def symbol : OpenOperator → String
  | unary op => op.symbol
  | binary op _ => op.symbol
  | assign op _ => assignSymbol op

end OpenOperator

/-- An open operator with the depth of parentheses and the line that it stands on. -/
structure Frame where
  operator : OpenOperator
  depth : Nat
  line : Nat

/-- The right spine of an expression under construction. -/
structure Spine where
  /-- The open operators, the innermost first. -/
  frames : List Frame
  /-- The operand that the innermost operator waits for, once it is known. -/
  operand : Option Expr
  /-- Number of open parentheses. -/
  depth : Nat

namespace Spine

/-- Nothing yet. -/
def empty : Spine := ⟨[], none, 0⟩

end Spine

/-- Operators between two operands, or assignments, as tokens name them. -/
inductive InnerOperator where
  | binary (op : BinaryOp)
  | assign (op : Option WordOp)

namespace InnerOperator

/-- The operator with its left operand. -/
def applyLeft (left : Expr) : InnerOperator → OpenOperator
  | binary op => .binary op left
  | assign op => .assign op left

/-- How tightly the operator binds. -/
def precedence : InnerOperator → Nat
  | binary op => op.precedence
  | assign _ => assignPrecedence

/-- Whether a chain of the operator groups to the right. -/
def groupsRight : InnerOperator → Bool
  | binary _ => false
  | assign _ => true

/-- The operator as it is written. -/
def symbol : InnerOperator → String
  | binary op => op.symbol
  | assign op => assignSymbol op

end InnerOperator

/-- The operator before an operand that a lexeme is, if it is one. -/
def unaryOperator? (l : Lexeme) : Option UnaryOp :=
  match l.token with
  | .bang => some .not
  | .operator .minus => if l.beforeOperand then some .neg else none
  | .operator .star => if l.beforeOperand then some .deref else none
  | .operator .ampersand => if l.beforeOperand then some .ref else none
  | _ => none

/-- The operator between operands that a lexeme is, if it is one. -/
def innerOperator? (l : Lexeme) : Option InnerOperator :=
  match l.token with
  | .operator op => some (.binary op)
  | .assign op => some (.assign op)
  | _ => none

/-- Whether an expression can be assigned to: a variable that is no array, and, unless the assignment
is compounded, an element or what a pointer points at. -/
def isAssignable (scopes : Scopes) (op : Option WordOp) : Expr → Bool
  | .var _ name _ =>
    match scopes.find? name with
    | some ⟨.array .., _⟩ => false
    | _ => true
  | .index .. => op.isNone
  | .unary _ .deref _ => op.isNone
  | _ => false

/-- The expression of an open operator and its right operand. -/
def closeFrame (f : Frame) (right : Expr) : ParseM Expr := do
  match f.operator with
  | .unary op =>
    if (op = .ref ∨ op = .deref) ∧ right.varName?.isNone then
      failSemantic f.line (.addressOperandAt f.line)
    else return .unary f.line op right
  | .binary op left => return .binary f.line op left right
  | .assign op target =>
    if isAssignable (← get) op target then return .assign f.line op target right
    else failSemantic f.line (.assignedExpression target.text)

/-- Closes the innermost operators as long as a condition holds. -/
def closeWhile (condition : Frame → Bool) (operand : Expr) :
    List Frame → ParseM (List Frame × Expr)
  | [] => return ([], operand)
  | f :: rest =>
    if condition f then do closeWhile condition (← closeFrame f operand) rest
    else return (f :: rest, operand)

/-- Closes the innermost operators as long as a condition holds. Without an operand none can be
closed. -/
def closeSpine (condition : Frame → Bool) (s : Spine) : ParseM Spine :=
  match s.operand, s.frames with
  | some operand, frames => do
    let (frames, operand) ← closeWhile condition operand frames
    return { s with frames, operand := some operand }
  | none, f :: _ =>
    if condition f then failParse f.line (.noRightOperand f.operator.symbol) else return s
  | none, [] => return s

/-- Gives the innermost operator its operand, which a token ends. -/
def pushOperand (s : Spine) (l : Lexeme) (operand : Expr) : ParseM Spine :=
  match s.operand with
  | some _ => failParse l.line (.operatorBefore l.token)
  | none => return { s with operand := some operand }

/-- Opens an operator before an operand. -/
def pushUnary (s : Spine) (line : Nat) (op : UnaryOp) : ParseM Spine :=
  match s.operand with
  | some _ => failParse line (.operatorAfterValue op.symbol)
  | none => return { s with frames := ⟨.unary op, s.depth, line⟩ :: s.frames }

/-- Whether an open operator is closed before another one is opened at a depth. -/
def closesBefore (op : InnerOperator) (depth : Nat) (f : Frame) : Bool :=
  depth ≤ f.depth &&
    (op.precedence < f.operator.precedence ||
      (op.precedence = f.operator.precedence && !op.groupsRight))

/-- Opens an operator between operands. -/
def pushInner (s : Spine) (line : Nat) (op : InnerOperator) : ParseM Spine :=
  match s.operand with
  | none => failParse line (.noLeftOperand op.symbol)
  | some operand => do
    let (frames, left) ← closeWhile (closesBefore op s.depth) operand s.frames
    return { s with frames := ⟨op.applyLeft left, s.depth, line⟩ :: frames, operand := none }

/-- Opens a parenthesis. -/
def openParenthesis (s : Spine) (l : Lexeme) : ParseM Spine :=
  match s.operand with
  | some _ => failParse l.line (.operatorBefore l.token)
  | none => return { s with depth := s.depth + 1 }

/-- Closes a parenthesis and the operators that were opened inside it. -/
def closeParenthesis (s : Spine) (line : Nat) : ParseM Spine :=
  match s.depth with
  | 0 => failParse line .strayClosingParenthesis
  | depth + 1 => closeSpine (fun f => depth < f.depth) { s with depth }

/-- Takes in a token that is neither a name nor a parenthesis. -/
def pushToken (s : Spine) (l : Lexeme) : ParseM Spine :=
  match l.token with
  | .int value =>
    if FitsSigned 32 value then pushOperand s l (.int l.line value)
    else failParse l.line (.integerTooLarge value)
  | .decimal text => pushOperand s l (.fixed l.line ((FixedPoint.ofDecimal? text).getD 0))
  | .char value => pushOperand s l (.int l.line value.toNat)
  | .keyword .nullWord => pushOperand s l (.int l.line 0)
  | _ =>
    match unaryOperator? l with
    | some op => pushUnary s l.line op
    | none =>
      match innerOperator? l with
      | some op => pushInner s l.line op
      | none => failParse l.line (.notInExpression l.token)

/-- The expression that a spine ends as, given the line that it starts on. -/
def finish (line : Nat) (s : Spine) : ParseM Expr := do
  if s.depth ≠ 0 then failParse line .mismatchedParentheses
  let closed ← closeSpine (fun _ => true) s
  match closed.operand with
  | some e => return e
  | none => failParse line .expectedExpression

/-- Numbers an occurrence of a name. -/
def touch (name : String) : ParseM Nat := modifyGet fun scopes => (scopes.touch name).swap

/-- A variable or array that stands for itself. -/
def variableOperand (line : Nat) (name : String) : ParseM Expr := do
  match (← get).find? name with
  | none => failSemantic line (.undefinedName name)
  | some ⟨.function _, _⟩ => failSemantic line (.functionAsValue name)
  | some _ => return .var line name (← touch name)

/-- Number of arguments that a function takes. -/
def parameterCount (line : Nat) (name : String) : ParseM Nat := do
  match (← get).find? name with
  | none => failSemantic line (.undefinedFunction name)
  | some ⟨.function signature, _⟩ => return signature.params.length
  | some _ => failSemantic line (.calledOther name)

/-- Number of indices that an array or a pointer takes. -/
def indexCount (line : Nat) (name : String) : ParseM Nat := do
  match (← get).find? name with
  | none => failSemantic line (.undefinedName name)
  | some ⟨.array _ dims, _⟩ => return dims.length
  | some ⟨.variable ty, _⟩ =>
    if ty.refs > 0 then return 1 else failSemantic line (.notIndexable name)
  | some ⟨.function _, _⟩ => failSemantic line (.notIndexable name)

/-- The indices that stand in front of a token list, and what is behind them. A bracket that is never
closed shows only after the indices before it, so what is behind may be an error. -/
structure Indices where
  clauses : List Clause
  after : Except CompileError (List Lexeme)

/-- Puts one more index in front of others. -/
def Indices.cons (c : Clause) (behind : Indices) : Indices :=
  { behind with clauses := c :: behind.clauses }

/-- Finds the bracketed indices in front of a token list. -/
def findIndices (tokens : List Lexeme) : Indices :=
  match tokens with
  | [] => ⟨[], .ok []⟩
  | l :: rest =>
    if l.token = .opening .square then
      match _found : findClose l 0 rest with
      | .error e => ⟨[], .error e⟩
      | .ok enclosed =>
        (findIndices enclosed.after).cons ⟨enclosed.inside, enclosed.closer.line⟩
    else ⟨[], .ok (l :: rest)⟩
termination_by tokens.length
decreasing_by
  have := findClose_length _found
  simp
  omega

theorem findIndices_length {tokens after : List Lexeme}
    (found : (findIndices tokens).after = .ok after) :
    clausesSize (findIndices tokens).clauses + after.length ≤ tokens.length := by
  fun_induction findIndices tokens with
  | case1 => simp_all [clausesSize]
  | case2 => cases found
  | case3 l rest opening enclosed closed ih =>
    have shorter := ih found
    have length := findClose_length closed
    simp only [Indices.cons, clausesSize, List.length_cons]
    omega
  | case4 => simp_all [clausesSize]

theorem clausesSize_findIndices (tokens : List Lexeme) :
    clausesSize (findIndices tokens).clauses ≤ tokens.length := by
  fun_induction findIndices tokens with
  | case1 => simp [clausesSize]
  | case2 => simp [clausesSize]
  | case3 l rest opening enclosed closed ih =>
    have length := findClose_length closed
    simp only [Indices.cons, clausesSize, List.length_cons]
    omega
  | case4 => simp [clausesSize]

mutual

/-- Parses a clause as one expression. -/
def parseExpr (line : Nat) (tokens : List Lexeme) : ParseM Expr :=
  if tokens.isEmpty then failParse line .expectedExpression
  else parseSpine line tokens Spine.empty
termination_by 2 * tokens.length + 1

/-- Parses the rest of an expression, given its spine and the line that it starts on. -/
def parseSpine (line : Nat) (tokens : List Lexeme) (s : Spine) : ParseM Expr :=
  match tokens with
  | [] => finish line s
  | l :: rest =>
    match l.token with
    | .opening .round => do parseSpine line rest (← openParenthesis s l)
    | .closing .round => do parseSpine line rest (← closeParenthesis s l.line)
    | .ident name =>
      match rest with
      | [] => do parseSpine line [] (← pushOperand s l (← variableOperand l.line name))
      | next :: behind =>
        match next.token with
        | .opening .round => do
          let expected ← parameterCount l.line name
          match _found : findClose next 0 behind with
          | .error e => throw e
          | .ok enclosed =>
            let clauses := splitClauses .comma enclosed.closer.line 0 enclosed.inside
            have := clausesSize_splitClauses .comma enclosed.closer.line 0 enclosed.inside
            have := findClose_length _found
            let args ← parseArguments l.line clauses
            if args.length = expected then
              parseSpine line enclosed.after (← pushOperand s l (.call l.line name args))
            else failSemantic l.line (.argumentCount name expected args.length)
        | .opening .square => do
          let expected ← indexCount l.line name
          have := clausesSize_findIndices (next :: behind)
          let indices ← parseClauses (findIndices (next :: behind)).clauses
          match _found : (findIndices (next :: behind)).after with
          | .error e => throw e
          | .ok after =>
            have := findIndices_length _found
            if indices.length = expected then
              let occurrence ← touch name
              parseSpine line after (← pushOperand s l (.index l.line name occurrence indices))
            else failSemantic l.line (.indexCount name expected indices.length)
        | _ => do parseSpine line (next :: behind) (← pushOperand s l (← variableOperand l.line name))
    | _ => do parseSpine line rest (← pushToken s l)
termination_by 2 * tokens.length
decreasing_by
  all_goals
    simp only [List.length_cons, List.length_nil] at *
    omega

/-- Parses the arguments of a call. Only a call without any argument has an empty last clause. -/
def parseArguments (line : Nat) (clauses : List Clause) : ParseM (List Expr) :=
  match clauses with
  | [] => return []
  | [c] => if c.tokens.isEmpty then return [] else return [← parseExpr c.line c.tokens]
  | c :: next :: rest => do
    let arg ← parseExpr c.line c.tokens
    let args ← parseArguments line (next :: rest)
    if args.isEmpty then failParse line .expectedArgument else return arg :: args
termination_by 2 * clausesSize clauses
decreasing_by
  all_goals
    simp only [clausesSize]
    omega

/-- Parses each of several clauses. -/
def parseClauses (clauses : List Clause) : ParseM (List Expr) :=
  match clauses with
  | [] => return []
  | c :: rest => return (← parseExpr c.line c.tokens) :: (← parseClauses rest)
termination_by 2 * clausesSize clauses
decreasing_by
  all_goals
    simp only [clausesSize]
    omega

end

end SmallC.Parser
