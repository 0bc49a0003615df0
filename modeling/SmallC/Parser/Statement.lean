import SmallC.Parser.Definition
import SmallC.Source.Lexer

/-!
Parsing statements and translation units. Each block, each body of a conditional or a loop, each loop
with its initialiser, and each function with its parameters opens a scope of its own.
-/
namespace SmallC.Parser

/-- What a statement needs to know about where it stands. -/
structure Surroundings where
  /-- The line of the last token of the source. -/
  endLine : Nat
  /-- Whether the statement stands in the body of a function. -/
  inFunction : Bool

/-- Runs a parser in a scope of its own. -/
def inScope {α : Type} (p : ParseM α) : ParseM α := do
  modify Scopes.enter
  let value ← p
  modify Scopes.leave
  return value

/-- Parses a clause as an expression, unless it is empty. -/
def parseOptional (c : Clause) : ParseM (Option Expr) :=
  if c.tokens.isEmpty then return none else return some (← parseExpr c.line c.tokens)

/-- Whether a token list starts with a type. -/
def startsWithType (tokens : List Lexeme) : Bool :=
  match tokens with
  | [] => false
  | l :: _ => match l.token with
    | .type _ => true
    | _ => false

/-- Whether a statement is a function with a body. -/
def isDefinedFunction : Stmt → Bool
  | .function _ _ _ _ (some _) _ => true
  | _ => false

/-- What stands behind a branch of a conditional, in front of fewer than the given number of tokens:
another branch, the last resort, or neither. -/
inductive Alternative (bound : Nat) where
  | missing
  | branch (rest : List Lexeme) (fewer : rest.length < bound)
  | last (rest : List Lexeme) (fewer : rest.length < bound)

/-- What stands behind a branch of a conditional. -/
def Alternative.of (tokens : List Lexeme) : Alternative tokens.length :=
  match takeToken? (.keyword .elseWord) tokens with
  | none => .missing
  | some ⟨_, behind, fewer⟩ =>
    match takeToken? (.keyword .ifWord) behind with
    | some ⟨_, rest, shorter⟩ => .branch rest (shorter_trans shorter fewer)
    | none => .last behind fewer

mutual

/-- Parses one statement. An empty statement leaves nothing. -/
def parseStatement (around : Surroundings) (l : Lexeme) (rest : List Lexeme) :
    ParseM (Parsed (Option Stmt) (rest.length + 1)) :=
  match l.token with
  | .semicolon => return ⟨none, rest, by omega⟩
  | .opening .curly => do
    let ⟨body, behind, fewer⟩ ← inScope (parseBlock around rest)
    return ⟨some (.group l.line body), behind, by omega⟩
  | .keyword .ifWord => do
    let ⟨branch, behind, fewer⟩ ← parseBranch around rest
    let ⟨(branches, otherwise), behind, _⟩ ← parseElse around behind
    return ⟨some (.conditional l.line (branch :: branches) otherwise), behind, by omega⟩
  | .keyword .whileWord => do
    let ⟨.mk cond body, behind, fewer⟩ ← parseBranch around rest
    return ⟨some (.whileLoop l.line cond body), behind, by omega⟩
  | .keyword .forWord => do
    let ⟨loop, behind, fewer⟩ ← parseFor around l.line rest
    return ⟨some loop, behind, by omega⟩
  | .keyword .returnWord => do
    if !around.inFunction then failSemantic l.line .returnOutsideFunction
    let ⟨value, behind, fewer⟩ ← parseEnded around.endLine rest
    return ⟨some (.returns l.line value), behind, by omega⟩
  | .keyword .breakWord => do
    let ⟨_, behind, fewer⟩ ← expect around.endLine .semicolon rest
    return ⟨some (.breaks l.line), behind, by omega⟩
  | .keyword .continueWord => do
    let ⟨_, behind, fewer⟩ ← expect around.endLine .semicolon rest
    return ⟨some (.continues l.line), behind, by omega⟩
  | .keyword .asmWord => do
    let ⟨block, behind, fewer⟩ ← parseAsm around.endLine l.line rest
    return ⟨some block, behind, by omega⟩
  | .keyword .inlineWord => do
    let ⟨definition, behind, fewer⟩ ← parseDefinition around true rest
    if !isDefinedFunction definition then failParse l.line .inlineWithoutFunction
    return ⟨some definition, behind, by omega⟩
  | .type _ => do
    let ⟨definition, behind, fewer⟩ ← parseDefinition around false (l :: rest)
    return ⟨some definition, behind, fewer⟩
  | _ => do
    let ⟨e, behind, fewer⟩ ← parseFull around.endLine (l :: rest)
    return ⟨some (.expr e), behind, fewer⟩
termination_by 4 * (rest.length + 1) + 1

/-- Parses statements up to a closing brace. -/
def parseBlock (around : Surroundings) (tokens : List Lexeme) :
    ParseM (Parsed (List Stmt) tokens.length) :=
  match tokens with
  | [] => failParse around.endLine .unclosedBlock
  | l :: rest => do
    if l.token = .closing .curly then return ⟨[], rest, length_lt_cons l rest⟩
    else
      let ⟨stmt, behind, fewer⟩ ← parseStatement around l rest
      let ⟨stmts, behind, _⟩ ← parseBlock around behind
      return ⟨stmt.toList ++ stmts, behind, by simp only [List.length_cons]; omega⟩
termination_by 4 * tokens.length + 2

/-- Parses a block or a single statement in a scope of its own. At the end of the source there is
neither, which leaves nothing. -/
def parseBody (around : Surroundings) (tokens : List Lexeme) :
    ParseM (Parsed (List Stmt) (tokens.length + 1)) :=
  match tokens with
  | [] => return ⟨[], [], by simp⟩
  | l :: rest =>
    if l.token = .opening .curly then do
      let ⟨body, behind, fewer⟩ ← inScope (parseBlock around rest)
      return ⟨body, behind, by simp only [List.length_cons]; omega⟩
    else do
      let ⟨stmt, behind, fewer⟩ ← inScope (parseStatement around l rest)
      return ⟨stmt.toList, behind, by simp only [List.length_cons]; omega⟩
termination_by 4 * tokens.length + 3

/-- Parses a condition in parentheses and the body that it governs. -/
def parseBranch (around : Surroundings) (tokens : List Lexeme) :
    ParseM (Parsed Branch tokens.length) := do
  let ⟨cond, behind, fewer⟩ ← parseCondition around.endLine tokens
  let ⟨body, behind, _⟩ ← parseBody around behind
  return ⟨.mk cond body, behind, by omega⟩
termination_by 4 * tokens.length + 3

/-- Parses the further branches of a conditional and its last resort, if there are any. -/
def parseElse (around : Surroundings) (tokens : List Lexeme) :
    ParseM (Parsed (List Branch × Option (List Stmt)) (tokens.length + 1)) := do
  match Alternative.of tokens with
  | .missing => return ⟨([], none), tokens, length_lt_succ tokens⟩
  | .branch behind fewer =>
    let ⟨branch, behind, _⟩ ← parseBranch around behind
    let ⟨(branches, otherwise), behind, _⟩ ← parseElse around behind
    return ⟨(branch :: branches, otherwise), behind, by omega⟩
  | .last behind fewer =>
    let ⟨body, behind, _⟩ ← parseBody around behind
    return ⟨([], some body), behind, by omega⟩
termination_by 4 * tokens.length + 3

/-- Parses a counting loop behind its keyword. A definition in its first clause must end where the
clause does. -/
def parseFor (around : Surroundings) (line : Nat) (tokens : List Lexeme) :
    ParseM (Parsed Stmt tokens.length) := do
  let ⟨opener, header, opened⟩ ← expect around.endLine (.opening .round) tokens
  match _found : findClose opener 0 header with
  | .error e => throw e
  | .ok enclosed =>
    have closed := findClose_length _found
    match splitClauses .semicolon enclosed.closer.line 0 enclosed.inside with
    | [init, cond, step] =>
      inScope do
        let init ←
          if startsWithType init.tokens then
            let ⟨definition, behind, _⟩ ← parseDefinition around false header
            if behind.length + init.tokens.length + 1 ≠ header.length then
              failParse line .forInitializer
            pure (some definition)
          else pure ((← parseOptional init).map Stmt.expr)
        let cond ← parseOptional cond
        let step ← parseOptional step
        let ⟨body, behind, _⟩ ← parseBody around enclosed.after
        return ⟨.forLoop line init cond step body, behind, by omega⟩
    | _ => failParse line .forClauses
termination_by 4 * tokens.length + 3

/-- Parses a definition of a variable, an array or a function, or a function header. -/
def parseDefinition (around : Surroundings) (isInline : Bool) (tokens : List Lexeme) :
    ParseM (Parsed Stmt tokens.length) := do
  let line := lineOr around.endLine tokens
  let ⟨ty, behindType, typed⟩ ← parseType around.endLine tokens
  let ⟨(name, _), behindName, named⟩ ← expectIdentifier around.endLine behindType
  if (takeToken? (.opening .round) behindName).isSome then
    let ⟨function, rest, fewer⟩ ← parseFunction around line ty name isInline behindName
    return ⟨function, rest, by omega⟩
  else if isInline then failParse line .inlineWithoutFunction
  else if (takeToken? (.opening .square) behindName).isSome then
    let ⟨array, rest, fewer⟩ ← parseArray around.endLine line ty name behindName
    return ⟨array, rest, by omega⟩
  else
    let ⟨scalar, rest, fewer⟩ ← parseVariable around.endLine line ty name behindName
    return ⟨scalar, rest, by omega⟩
termination_by 4 * tokens.length

/-- Parses a function behind its name. The function is declared before its body, so that it can call
itself, and only the outermost scope can hold a body. -/
def parseFunction (around : Surroundings) (line : Nat) (ret : TypeSpec) (name : String)
    (isInline : Bool) (tokens : List Lexeme) : ParseM (Parsed Stmt tokens.length) := do
  let ⟨params, behind, fewer⟩ ← parseParameters around.endLine tokens
  if params.length > maxParameters then
    failSemantic line (.tooManyParameters name maxParameters)
  let types := params.map Param.ty
  checkSignature line name ⟨ret, types, false, isInline⟩
  match takeToken? .semicolon behind with
  | some ⟨_, rest, _⟩ =>
    declare line name (.function ⟨ret, types, false, isInline⟩)
    return ⟨.function line name ret params none isInline, rest, by omega⟩
  | none =>
    if around.inFunction || !(← get).isRoot then failSemantic line .nestedFunction
    declare line name (.function ⟨ret, types, true, isInline⟩)
    inScope do
      params.forM fun p => declare line p.name (.variable p.ty)
      let ⟨_, inside, _⟩ ← expect around.endLine (.opening .curly) behind
      let ⟨body, rest, _⟩ ← parseBlock { around with inFunction := true } inside
      return ⟨.function line name ret params (some body) isInline, rest, by omega⟩
termination_by 4 * tokens.length

end

/-- Parses statements up to the end of the source. -/
def parseUnit (endLine : Nat) (tokens : List Lexeme) : ParseM (List Stmt) :=
  match tokens with
  | [] => return []
  | l :: rest => do
    if l.token = .closing .curly then failParse l.line .strayClosingBrace
    let ⟨stmt, behind, _⟩ ← parseStatement ⟨endLine, false⟩ l rest
    return stmt.toList ++ (← parseUnit endLine behind)
termination_by tokens.length

end SmallC.Parser

namespace SmallC

/-- Parses the lexemes of a source. -/
def parse (tokens : List Lexeme) : Except CompileError TranslationUnit := do
  let endLine := (tokens.getLast?.map Lexeme.line).getD 1
  let (statements, scopes) ← (Parser.parseUnit endLine tokens).run Scopes.root
  return ⟨statements, scopes.occurrences⟩

/-- Parses a source. -/
def parseSource (source : String) : Except CompileError TranslationUnit :=
  match tokenize source with
  | .ok tokens => parse tokens
  | .error e => .error (.lexical e)

end SmallC
