import SmallC.Parser.Indexed.Expression

/-!
Statements from a position on. Each function answers where parsing goes on. The loops are rounds, whose states have where
parsing is in second place; the elements of an initialiser and the statements in a statement are parsed by parameters, whose
depth is bounded where they are put in.
-/
namespace SmallC.Parser.Indexed

variable (toks : List Lexeme) (limit : Nat)

/-- Parses an expression up to the semicolon that ends it. -/
def fullAt (position : Nat) : CursorM (Expr × Nat) := do
  let stop ← findEnd toks position
  let e ← expression toks limit position stop
  return (e, stop + 1)

/-- Parses what stands before a semicolon as an expression, if anything does. -/
def endedAt (position : Nat) : CursorM (Option Expr × Nat) := do
  let stop ← findEnd toks position
  if stop = position then return (none, stop + 1)
  else return (some (← expression toks limit position stop), stop + 1)

/-- Parses an expression in parentheses. -/
def conditionAt (position : Nat) : CursorM (Expr × Nat) := do
  let _ ← expect toks (.opening .round) position
  let close ← findClose toks position toks.length
  let cond ← expression toks limit (position + 1) close
  return (cond, close + 1)

/-! ### Definitions -/

/-- Takes in one more pointer star. -/
def starRound : Nat × Nat → CursorM (Round (Nat × Nat) (Nat × Nat))
  | (refs, i) =>
    if peek toks i = some (.operator .star) then return .again (min (refs + 1) 255, i + 1)
    else return .done (refs, i)

/-- Parses a type. -/
def typeAt (position : Nat) : CursorM (TypeSpec × Nat) :=
  match toks[position]? with
  | some l =>
    match l.token with
    | .type base => do
      let (refs, behind) ← rounds (starRound toks) limit (0, position + 1)
      return (⟨base, refs⟩, behind)
    | _ => failParse l.line (.expectedType l.token)
  | none => failParse (lineAt toks position) .expectedTypeAtEnd

/-- Parses the initialiser of a variable, if it has one, and the end of its definition. -/
def variableEndAt (name : String) (position : Nat) : CursorM (Option Expr × Nat) :=
  match peek toks position with
  | some (.assign none) => do
    let (value, behind) ← fullAt toks limit (position + 1)
    return (some value, behind)
  | some .semicolon => return (none, position + 1)
  | _ => failParse (lineAt toks position) (.definitionEnd name)

/-- Parses the definition of a variable behind its name. -/
def variableAt (line : Nat) (ty : TypeSpec) (name : String) (position : Nat) : CursorM (Stmt × Nat) := do
  if ty.isVoid then failSemantic line (.declaredVoid name)
  embed (checkRedefinition line name)
  let (value, behind) ← variableEndAt toks limit name position
  embed (declare line name (.variable ty))
  return (.define line name ty value, behind)

/-- Parses one dimension of an array behind its opening bracket. -/
def dimensionAt (line : Nat) (name : String) (position : Nat) : CursorM (Nat × Nat) :=
  match peek toks position with
  | some (.int n) =>
    if 0 < n ∧ n ≤ maxDimension then do
      let (_, behind) ← expect toks (.closing .square) (position + 1)
      return (n.toNat, behind)
    else failParse line (.arraySize name)
  | _ => failParse line (.arraySize name)

/-- Parses one more dimension of an array; the state has the dimensions before it. -/
def dimensionRound (line : Nat) (name : String) : List Nat × Nat → CursorM (Round (List Nat × Nat) (List Nat × Nat))
  | (dims, i) =>
    if peek toks i = some (.opening .square) then do
      let (dim, behind) ← dimensionAt toks line name (i + 1)
      return .again (dims ++ [dim], behind)
    else return .done (dims, i)

/-- Passes one more token of an element of an initialiser; the state has how many brackets are open. -/
def elementRound : Int × Nat → CursorM (Round (Int × Nat) Nat)
  | (nesting, i) =>
    match peek toks i with
    | some token =>
      if endsElement nesting token then return .done i else return .again (nestingAfter nesting token, i + 1)
    | none => return .done i

/-- Parses the separator behind an element of an initialiser. -/
def separatorAt (position : Nat) : CursorM (Unit × Nat) :=
  match peek toks position with
  | some .comma => return ((), position + 1)
  | some (.closing .curly) => return ((), position)
  | _ => failParse (lineAt toks position) .initializerSeparator

/-- Parses one more element of an initialiser, or its closing brace; the state has the elements before it. -/
def initializerRound (recur : List Expr → Nat → CursorM (List Expr × Nat)) :
    List Expr × Nat → CursorM (Round (List Expr × Nat) (List Expr × Nat))
  | (elements, i) =>
    match peek toks i with
    | some (.closing .curly) => return .done (elements, i + 1)
    | some (.opening .curly) => do
      let (elements, behind) ← recur elements i
      let (_, behind) ← separatorAt toks behind
      return .again (elements, behind)
    | some _ => do
      let stop ← rounds (elementRound toks) limit (0, i)
      let e ← expression toks limit i stop
      let (_, behind) ← separatorAt toks stop
      return .again (elements ++ [e], behind)
    | none => failParse (lineAt toks i) .unclosedInitializer

/-- Parses an initialiser in braces, behind the given elements. -/
def initializerStep (recur : List Expr → Nat → CursorM (List Expr × Nat)) (elements : List Expr) (position : Nat) :
    CursorM (List Expr × Nat) := do
  let (_, inside) ← expect toks (.opening .curly) position
  rounds (initializerRound toks limit recur) limit (elements, inside)

/-- Parses an initialiser in braces, with initialisers in it down to a depth. -/
def initializerTo : Nat → List Expr → Nat → CursorM (List Expr × Nat)
  | 0, _, _ => throw .exhausted
  | depth + 1, elements, position => initializerStep toks limit (initializerTo depth) elements position

/-- Parses the initialiser of an array, if there is one. -/
def initializerAt (position : Nat) : CursorM (List Expr × Nat) :=
  if peek toks position = some (.assign none) then initializerTo toks limit limit [] (position + 1)
  else return ([], position)

/-- Parses the definition of an array behind its name. -/
def arrayAt (line : Nat) (ty : TypeSpec) (name : String) (position : Nat) : CursorM (Stmt × Nat) := do
  embed (checkRedefinition line name)
  let (dims, behind) ← rounds (dimensionRound toks line name) limit ([], position)
  let (init, behind) ← initializerAt toks limit behind
  if init.length > wordCount dims then failSemantic line (.tooManyInitializers name)
  let (_, behind) ← expect toks .semicolon behind
  embed (declare line name (.array ty dims))
  return (.array line name ty dims init, behind)

/-- Parses one more parameter and what stands behind it; the state has the parameters before it. -/
def parameterRound : List Param × Nat → CursorM (Round (List Param × Nat) (List Param × Nat))
  | (params, i) => do
    let (ty, behindType) ← typeAt toks limit i
    let ((name, line), behindName) ← expectIdentifier toks behindType
    if params.any (fun p => p.name = name) then failSemantic line (.repeatedParameter name)
    match peek toks behindName with
    | some .comma => return .again (params ++ [⟨name, ty⟩], behindName + 1)
    | some (.closing .round) => return .done (params ++ [⟨name, ty⟩], behindName + 1)
    | _ => failParse line .parameterSeparator

/-- Parses a parameter list. -/
def parametersAt (position : Nat) : CursorM (List Param × Nat) := do
  let (_, inside) ← expect toks (.opening .round) position
  if peek toks inside = some (.closing .round) then return ([], inside + 1)
  else if peek toks inside = some (.type .void) ∧ peek toks (inside + 1) = some (.closing .round) then
    return ([], inside + 2)
  else rounds (parameterRound toks limit) limit ([], inside)

/-- Takes in one more string of an assembly statement, or its closing parenthesis. -/
def asmRound (line : Nat) : String × Nat → CursorM (Round (String × Nat) (String × Nat))
  | (text, i) =>
    match toks[i]? with
    | some l =>
      match l.token with
      | .str content => return .again (text ++ content ++ "\n", i + 1)
      | .closing .round => return .done (text, i + 1)
      | _ => failParse l.line (.asmContent l.token)
    | none => failParse line .unclosedAsm

/-- Parses an assembly statement behind its keyword. -/
def asmAt (line position : Nat) : CursorM (Stmt × Nat) := do
  let (_, inside) ← expect toks (.opening .round) position
  let (text, behind) ← rounds (asmRound toks line) limit ("", inside)
  if peek toks behind = some .semicolon then return (.asm line text, behind + 1)
  else return (.asm line text, behind)

/-! ### Statements in statements -/

section

variable (recur : Bool → Nat → CursorM (Option Stmt × Nat)) (inFunction : Bool)

/-- Parses one more statement of a block, or its closing brace; the state has the statements before it. -/
def blockRound : List Stmt × Nat → CursorM (Round (List Stmt × Nat) (List Stmt × Nat))
  | (stmts, i) =>
    match peek toks i with
    | some (.closing .curly) => return .done (stmts, i + 1)
    | some _ => do
      let (stmt, behind) ← recur inFunction i
      return .again (stmts ++ stmt.toList, behind)
    | none => failParse (lineAt toks i) .unclosedBlock

/-- Parses statements up to a closing brace. -/
def blockAt (position : Nat) : CursorM (List Stmt × Nat) :=
  rounds (blockRound toks recur inFunction) limit ([], position)

/-- Parses a block or a single statement in a scope of its own. At the end of the source there is neither, and the scope
would hold nothing. -/
def bodyAt (position : Nat) : CursorM (List Stmt × Nat) :=
  match peek toks position with
  | some (.opening .curly) => inScope (blockAt toks limit recur inFunction (position + 1))
  | some _ => do
    let (stmt, behind) ← inScope (recur inFunction position)
    return (stmt.toList, behind)
  | none => return ([], position)

/-- Parses a condition in parentheses and the body that it governs. -/
def branchAt (position : Nat) : CursorM (Branch × Nat) := do
  let (cond, behind) ← conditionAt toks limit position
  let (body, behind) ← bodyAt toks limit recur inFunction behind
  return (.mk cond body, behind)

/-- Parses one more branch of a conditional, or its last resort; the state has the branches before it. -/
def elseRound : List Branch × Nat →
    CursorM (Round (List Branch × Nat) ((List Branch × Option (List Stmt)) × Nat))
  | (branches, i) =>
    if peek toks i = some (.keyword .elseWord) then
      if peek toks (i + 1) = some (.keyword .ifWord) then do
        let (branch, behind) ← branchAt toks limit recur inFunction (i + 2)
        return .again (branches ++ [branch], behind)
      else do
        let (body, behind) ← bodyAt toks limit recur inFunction (i + 1)
        return .done ((branches, some body), behind)
    else return .done ((branches, none), i)

/-- Parses a conditional behind its keyword. -/
def conditionalAt (line position : Nat) : CursorM (Stmt × Nat) := do
  let (branch, behind) ← branchAt toks limit recur inFunction position
  let ((branches, otherwise), behind) ← rounds (elseRound toks limit recur inFunction) limit ([branch], behind)
  return (.conditional line branches otherwise, behind)

/-- Parses a function behind its name. -/
def functionAt (line : Nat) (ret : TypeSpec) (name : String) (isInline : Bool) (position : Nat) :
    CursorM (Stmt × Nat) := do
  let (params, behind) ← parametersAt toks limit position
  if params.length > maxParameters then failSemantic line (.tooManyParameters name maxParameters)
  let types := params.map Param.ty
  embed (checkSignature line name ⟨ret, types, false, isInline⟩)
  if peek toks behind = some .semicolon then
    embed (declare line name (.function ⟨ret, types, false, isInline⟩))
    return (.function line name ret params none isInline, behind + 1)
  else
    if inFunction || !(← get).isRoot then failSemantic line .nestedFunction
    embed (declare line name (.function ⟨ret, types, true, isInline⟩))
    inScope do
      embed (params.forM fun p => declare line p.name (.variable p.ty))
      let (_, inside) ← expect toks (.opening .curly) behind
      let (body, behind) ← blockAt toks limit recur true inside
      return (.function line name ret params (some body) isInline, behind)

/-- Parses a definition of a variable, an array or a function, or a function header. -/
def definitionAt (isInline : Bool) (position : Nat) : CursorM (Stmt × Nat) := do
  let line := lineAt toks position
  let (ty, behindType) ← typeAt toks limit position
  let ((name, _), behindName) ← expectIdentifier toks behindType
  if peek toks behindName = some (.opening .round) then
    functionAt toks limit recur inFunction line ty name isInline behindName
  else if isInline then failParse line .inlineWithoutFunction
  else if peek toks behindName = some (.opening .square) then arrayAt toks limit line ty name behindName
  else variableAt toks limit line ty name behindName

/-- Parses the first clause of a counting loop, between two positions. -/
def loopInitAt (line lo hi : Nat) : CursorM (Option Stmt) := do
  if hi = lo then return none
  else
    let l ← tokenAt toks lo
    match l.token with
    | .type _ =>
      let (definition, behind) ← definitionAt toks limit recur inFunction false lo
      if behind ≠ hi + 1 then failParse line .forInitializer
      return some definition
    | _ => return some (.expr (← expression toks limit lo hi))

/-- Parses a clause of a counting loop, between two positions, as an expression, unless it is empty. -/
def loopClauseAt (lo hi : Nat) : CursorM (Option Expr) := do
  if hi = lo then return none else return some (← expression toks limit lo hi)

/-- Parses a counting loop behind its keyword. -/
def loopAt (line position : Nat) : CursorM (Stmt × Nat) := do
  let _ ← expect toks (.opening .round) position
  let close ← findClose toks position toks.length
  match ← separatorsFrom toks .semicolon (close - (position + 1)) (position + 1) 0 with
  | [first, second] =>
    inScope do
      let init ← loopInitAt toks limit recur inFunction line (position + 1) first
      let cond ← loopClauseAt toks limit (first + 1) second
      let step ← loopClauseAt toks limit (second + 1) close
      let (body, behind) ← bodyAt toks limit recur inFunction (close + 1)
      return (.forLoop line init cond step body, behind)
  | _ => failParse line .forClauses

/-- Parses one statement. An empty statement leaves nothing, and neither does the end of the source. -/
def statementStep (position : Nat) : CursorM (Option Stmt × Nat) :=
  match toks[position]? with
  | none => return (none, position)
  | some l =>
    match l.token with
    | .semicolon => return (none, position + 1)
    | .opening .curly => do
      let (body, behind) ← inScope (blockAt toks limit recur inFunction (position + 1))
      return (some (.group l.line body), behind)
    | .keyword .ifWord => do
      let (conditional, behind) ← conditionalAt toks limit recur inFunction l.line (position + 1)
      return (some conditional, behind)
    | .keyword .whileWord => do
      let (.mk cond body, behind) ← branchAt toks limit recur inFunction (position + 1)
      return (some (.whileLoop l.line cond body), behind)
    | .keyword .forWord => do
      let (loop, behind) ← loopAt toks limit recur inFunction l.line (position + 1)
      return (some loop, behind)
    | .keyword .returnWord => do
      if !inFunction then failSemantic l.line .returnOutsideFunction
      let (value, behind) ← endedAt toks limit (position + 1)
      return (some (.returns l.line value), behind)
    | .keyword .breakWord => do
      let (_, behind) ← expect toks .semicolon (position + 1)
      return (some (.breaks l.line), behind)
    | .keyword .continueWord => do
      let (_, behind) ← expect toks .semicolon (position + 1)
      return (some (.continues l.line), behind)
    | .keyword .asmWord => do
      let (block, behind) ← asmAt toks limit l.line (position + 1)
      return (some block, behind)
    | .keyword .inlineWord => do
      let (definition, behind) ← definitionAt toks limit recur inFunction true (position + 1)
      if !isDefinedFunction definition then failParse l.line .inlineWithoutFunction
      return (some definition, behind)
    | .type _ => do
      let (definition, behind) ← definitionAt toks limit recur inFunction false position
      return (some definition, behind)
    | _ => do
      let (e, behind) ← fullAt toks limit position
      return (some (.expr e), behind)

end

/-- Parses one statement, with statements in it down to a depth. -/
def statementTo : Nat → Bool → Nat → CursorM (Option Stmt × Nat)
  | 0, _, _ => throw .exhausted
  | depth + 1, inFunction, position => statementStep toks limit (statementTo depth) inFunction position

/-- Parses one statement. -/
def statementAt (inFunction : Bool) (position : Nat) : CursorM (Option Stmt × Nat) :=
  statementTo toks limit limit inFunction position

/-- Parses one more statement of the source, or its end; the state has the statements before it. -/
def unitRound : List Stmt × Nat → CursorM (Round (List Stmt × Nat) (List Stmt))
  | (stmts, i) =>
    match toks[i]? with
    | some l => do
      if l.token = .closing .curly then failParse l.line .strayClosingBrace
      let (stmt, behind) ← statementAt toks limit false i
      return .again (stmts ++ stmt.toList, behind)
    | none => return .done stmts

/-- Parses the tokens of a source, with no more rounds or nested calls than a limit anywhere. -/
def parse : Except Halt TranslationUnit := do
  let (statements, scopes) ← (rounds (unitRound toks limit) limit ([], 0)).run Scopes.root
  return ⟨statements, scopes.occurrences⟩

end SmallC.Parser.Indexed
