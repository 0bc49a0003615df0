import SmallC.Parser.Indexed.Cursor

/-!
Expressions between two positions. An expression is parsed again for each argument and each index in it, between positions
that are computed on the way, so what does that is a parameter here, and the depth of such calls is bounded where it is put
in.
-/
namespace SmallC.Parser.Indexed

variable (toks : List Lexeme) (limit : Nat) (recur : Nat → Nat → CursorM Expr)

/-- Parses the arguments that end at a comma, among so many tokens from a position on. The answer has where the next
argument starts. -/
def argumentsFrom : Nat → Nat → Nat → Int → List Expr → CursorM (List Expr × Nat)
  | 0, _, start, _, args => return (args, start)
  | n + 1, i, start, nesting, args => do
    let l ← tokenAt toks i
    if l.token = .comma ∧ nesting = 0 then
      let arg ← recur start i
      argumentsFrom n (i + 1) (i + 1) nesting (args ++ [arg])
    else argumentsFrom n (i + 1) start (openAfter nesting l.token) args

/-- Parses the call of the function at a position. The answer has where its closing parenthesis is. -/
def callAt (name : String) (here hi : Nat) : CursorM (Expr × Nat) := do
  let line := lineAt toks here
  let expected ← embed (parameterCount line name)
  let close ← findClose toks (here + 1) hi
  let (args, start) ← argumentsFrom toks recur (close - (here + 2)) (here + 2) (here + 2) 0 []
  let args ←
    if start < close then pure (args ++ [← recur start close])
    else if args.isEmpty then pure args
    else failParse line .expectedArgument
  if args.length = expected then return (.call line name args, close)
  else failSemantic line (.argumentCount name expected args.length)

/-- Parses one more index; the state has the indices before it, where the last one ends and where parsing is. -/
def indexRound (hi : Nat) : (List Expr × Nat) × Nat → CursorM (Round ((List Expr × Nat) × Nat) (List Expr × Nat))
  | ((indices, last), opener) =>
    if opener < hi then do
      let l ← tokenAt toks opener
      if l.token = .opening .square then
        let close ← findClose toks opener hi
        let index ← recur (opener + 1) close
        return .again ((indices ++ [index], close), close + 1)
      else return .done (indices, last)
    else return .done (indices, last)

/-- Parses the element of the array at a position. The answer has where its last bracket is. -/
def elementAt (name : String) (here hi : Nat) : CursorM (Expr × Nat) := do
  let line := lineAt toks here
  let expected ← embed (indexCount line name)
  let (indices, last) ← rounds (indexRound toks recur hi) limit (([], here), here + 1)
  if indices.length = expected then
    let occurrence ← embed (touch name)
    return (.index line name occurrence indices, last)
  else failSemantic line (.indexCount name expected indices.length)

/-- Parses the name at a position as a variable or an array that stands for itself. -/
def plainAt (name : String) (line here : Nat) : CursorM (Expr × Nat) := do
  return (← embed (variableOperand line name), here)

/-- Parses what the name at a position starts. The answer has where it ends. -/
def nameAt (name : String) (line here hi : Nat) : CursorM (Expr × Nat) :=
  match peek toks (here + 1) with
  | some (.opening .round) =>
    if here + 1 < hi then callAt toks recur name here hi else plainAt name line here
  | some (.opening .square) =>
    if here + 1 < hi then elementAt toks limit recur name here hi else plainAt name line here
  | _ => plainAt name line here

/-- Takes in one more token, or what a name starts; the state has the spine and where parsing is. -/
def expressionRound (hi : Nat) : Spine × Nat → CursorM (Round (Spine × Nat) Spine)
  | (s, i) =>
    if i < hi then do
      let l ← tokenAt toks i
      match l.token with
      | .opening .round => return .again (← embed (openParenthesis s l), i + 1)
      | .closing .round => return .again (← embed (closeParenthesis s l.line), i + 1)
      | .ident name =>
        let (operand, last) ← nameAt toks limit recur name l.line i hi
        return .again (← embed (pushOperand s l operand), last + 1)
      | _ => return .again (← embed (pushToken s l), i + 1)
    else return .done s

/-- Parses what stands between two positions as one expression. -/
def expressionStep (lo hi : Nat) : CursorM Expr :=
  if hi ≤ lo then failParse (lineAt toks lo) .expectedExpression
  else do
    let s ← rounds (expressionRound toks limit recur hi) limit (Spine.empty, lo)
    embed (finish (lineAt toks lo) s)

/-- Parses what stands between two positions as one expression, with calls down to a depth. -/
def expressionTo : Nat → Nat → Nat → CursorM Expr
  | 0, _, _ => throw .exhausted
  | depth + 1, lo, hi => expressionStep toks limit (expressionTo depth) lo hi

/-- Parses what stands between two positions as one expression. -/
def expression (lo hi : Nat) : CursorM Expr := expressionTo toks limit limit lo hi

end SmallC.Parser.Indexed
