import SmallC.Parser.Expression
import SmallC.Tree.Stmt

/-!
Parsing definitions and the other statements that hold no statements themselves. Every function here
knows the line of the last token of the source, which is where a source that ends too early is at
fault.
-/
namespace SmallC.Parser

/-- Parses the pointer stars behind a base type; no more than 255 count. -/
def parseStars (refs : Nat) : List Lexeme → Nat × List Lexeme
  | [] => (refs, [])
  | l :: rest =>
    if l.token = .operator .star then parseStars (min (refs + 1) 255) rest else (refs, l :: rest)

theorem parseStars_length (refs : Nat) (tokens : List Lexeme) :
    (parseStars refs tokens).2.length ≤ tokens.length := by
  induction tokens generalizing refs with
  | nil => simp [parseStars]
  | cons l rest ih =>
    unfold parseStars
    split
    · exact Nat.le_succ_of_le (ih _)
    · exact Nat.le_refl _

/-- Parses a type. -/
def parseType (endLine : Nat) (tokens : List Lexeme) : ParseM (Parsed TypeSpec tokens.length) :=
  match tokens with
  | [] => failParse endLine .expectedTypeAtEnd
  | l :: rest =>
    match l.token with
    | .type base =>
      let stars := parseStars 0 rest
      return ⟨⟨base, stars.1⟩, stars.2, by
        have := parseStars_length 0 rest
        simp only [List.length_cons, stars]
        omega⟩
    | _ => failParse l.line (.expectedType l.token)

/-- Parses what stands before a semicolon as an expression, if anything does. -/
def parseEnded (endLine : Nat) (tokens : List Lexeme) :
    ParseM (Parsed (Option Expr) tokens.length) :=
  match _found : findSemicolon (lineOr endLine tokens) 0 tokens with
  | .error e => throw e
  | .ok ended => do
    have fewer : ended.after.length < tokens.length := by
      have := findSemicolon_length _found
      omega
    if ended.before.isEmpty then return ⟨none, ended.after, fewer⟩
    else
      let e ← parseExpr (lineOr endLine ended.before) ended.before
      return ⟨some e, ended.after, fewer⟩

/-- Parses an expression that ends at a semicolon. -/
def parseFull (endLine : Nat) (tokens : List Lexeme) : ParseM (Parsed Expr tokens.length) := do
  let ⟨value, rest, fewer⟩ ← parseEnded endLine tokens
  match value with
  | some e => return ⟨e, rest, fewer⟩
  | none => failParse (lineOr endLine tokens) .expectedExpression

/-- Parses an expression in parentheses. -/
def parseCondition (endLine : Nat) (tokens : List Lexeme) :
    ParseM (Parsed Expr tokens.length) := do
  let ⟨opener, rest, fewer⟩ ← expect endLine (.opening .round) tokens
  match _found : findClose opener 0 rest with
  | .error e => throw e
  | .ok enclosed =>
    let e ← parseExpr (lineOr enclosed.closer.line enclosed.inside) enclosed.inside
    return ⟨e, enclosed.after, by
      have := findClose_length _found
      omega⟩

/-- What an entity is redefined as breaking the rule of. -/
def redefinition : Entity → Rule
  | .variable _ => .variableRedefinition
  | .array .. => .arrayRedefinition
  | .function _ => .functionRedefinition

/-- Refuses a name that is declared in the innermost scope. -/
def checkRedefinition (line : Nat) (name : String) : ParseM Unit := do
  match (← get).findLocal? name with
  | some symbol => failSemantic line (.redefined (redefinition symbol.entity) name symbol.line)
  | none => return ()

/-- Declares a name in the innermost scope. -/
def declare (line : Nat) (name : String) (entity : Entity) : ParseM Unit :=
  modify fun scopes => scopes.add name ⟨entity, line⟩

/-- Parses the initialiser of a variable, if it has one, and the end of its definition. -/
def parseVariableEnd (endLine : Nat) (name : String) (tokens : List Lexeme) :
    ParseM (Parsed (Option Expr) tokens.length) :=
  match tokens with
  | [] => failParse endLine (.definitionEnd name)
  | l :: rest =>
    match l.token with
    | .assign none => do
      let ⟨value, behind, fewer⟩ ← parseFull endLine rest
      return ⟨some value, behind, by simp only [List.length_cons]; omega⟩
    | .semicolon => return ⟨none, rest, length_lt_cons l rest⟩
    | _ => failParse l.line (.definitionEnd name)

/-- Parses the definition of a variable behind its name. The variable is declared behind its
initialiser, which therefore sees what the name stood for before. -/
def parseVariable (endLine line : Nat) (ty : TypeSpec) (name : String) (tokens : List Lexeme) :
    ParseM (Parsed Stmt tokens.length) := do
  if ty.isVoid then failSemantic line (.declaredVoid name)
  checkRedefinition line name
  let ⟨value, rest, fewer⟩ ← parseVariableEnd endLine name tokens
  declare line name (.variable ty)
  return ⟨.define line name ty value, rest, fewer⟩

/-- The greatest size of one dimension of an array. -/
def maxDimension : Int := 32767

/-- Parses one dimension of an array behind its opening bracket. -/
def parseDimension (endLine line : Nat) (name : String) (tokens : List Lexeme) :
    ParseM (Parsed Nat tokens.length) :=
  match tokens with
  | [] => failParse line (.arraySize name)
  | size :: rest =>
    match size.token with
    | .int n =>
      if 0 < n ∧ n ≤ maxDimension then do
        let ⟨_, behind, closed⟩ ← expect endLine (.closing .square) rest
        return ⟨n.toNat, behind, by simp only [List.length_cons]; omega⟩
      else failParse line (.arraySize name)
    | _ => failParse line (.arraySize name)

/-- Parses the dimensions of an array. -/
def parseDimensions (endLine line : Nat) (name : String) (tokens : List Lexeme) :
    ParseM (Parsed (List Nat) (tokens.length + 1)) :=
  match tokens with
  | [] => return ⟨[], [], by simp⟩
  | l :: rest => do
    if l.token = .opening .square then
      let ⟨dim, behind, closed⟩ ← parseDimension endLine line name rest
      let ⟨dims, behind, fewer⟩ ← parseDimensions endLine line name behind
      return ⟨dim :: dims, behind, by simp only [List.length_cons]; omega⟩
    else return ⟨[], l :: rest, by simp⟩
termination_by tokens.length
decreasing_by
  simp only [List.length_cons]
  omega

/-- Whether a token ends an element of an initialiser: a comma or a closing brace that stands outside
of parentheses and square brackets, and any semicolon or opening brace. -/
def endsElement (nesting : Int) : Token → Bool
  | .comma => nesting == 0
  | .closing .curly => nesting == 0
  | .semicolon => true
  | .opening .curly => true
  | _ => false

/-- How many parentheses and square brackets are open behind a token; the count may fall below zero. -/
def nestingAfter (nesting : Int) : Token → Int
  | .opening .round => nesting + 1
  | .opening .square => nesting + 1
  | .closing .round => nesting - 1
  | .closing .square => nesting - 1
  | _ => nesting

/-- An element of an initialiser and the tokens behind it. -/
def findElement (nesting : Int) : List Lexeme → List Lexeme × List Lexeme
  | [] => ([], [])
  | l :: rest =>
    if endsElement nesting l.token then ([], l :: rest)
    else
      let (element, behind) := findElement (nestingAfter nesting l.token) rest
      (l :: element, behind)

theorem findElement_eq (nesting : Int) (tokens : List Lexeme) :
    (findElement nesting tokens).1 ++ (findElement nesting tokens).2 = tokens := by
  induction tokens generalizing nesting with
  | nil => rfl
  | cons l rest ih =>
    rw [findElement]
    split
    · rfl
    · simpa using ih _

/-- Parses the separator behind an element of an initialiser: a comma, or nothing where the closing
brace follows. -/
def parseSeparator (endLine : Nat) (tokens : List Lexeme) :
    ParseM (Parsed Unit (tokens.length + 1)) :=
  match tokens with
  | [] => failParse endLine .initializerSeparator
  | l :: rest =>
    if l.token = .comma then return ⟨(), rest, by simp only [List.length_cons]; omega⟩
    else if l.token = .closing .curly then return ⟨(), l :: rest, by simp⟩
    else failParse l.line .initializerSeparator

/-- Parses the elements of an initialiser behind its opening brace. Inner braces are flattened. -/
def parseElements (endLine : Nat) (tokens : List Lexeme) :
    ParseM (Parsed (List Expr) tokens.length) :=
  match tokens with
  | [] => failParse endLine .unclosedInitializer
  | l :: rest => do
    if l.token = .closing .curly then return ⟨[], rest, length_lt_cons l rest⟩
    else if l.token = .opening .curly then
      let ⟨inner, rest, inside⟩ ← parseElements endLine rest
      let ⟨_, rest, separated⟩ ← parseSeparator endLine rest
      let ⟨others, rest, fewer⟩ ← parseElements endLine rest
      return ⟨inner ++ others, rest, by simp only [List.length_cons]; omega⟩
    else
      match found : findElement 0 (l :: rest) with
      | (element, behind) =>
        have whole := congrArg List.length (findElement_eq 0 (l :: rest))
        if empty : element.isEmpty then failParse (lineOr endLine behind) .expectedExpression
        else
          have shorter : behind.length < (l :: rest).length := by
            rw [found, List.length_append] at whole
            have := List.length_pos_iff.2 (fun h => empty (List.isEmpty_iff.2 h))
            simp only at whole
            omega
          let e ← parseExpr (lineOr endLine element) element
          let ⟨_, rest', separated⟩ ← parseSeparator endLine behind
          let ⟨others, rest'', fewer⟩ ← parseElements endLine rest'
          return ⟨e :: others, rest'', by omega⟩
termination_by tokens.length
decreasing_by
  all_goals
    simp only [List.length_cons] at *
    omega

/-- Parses the initialiser of an array, if there is one. -/
def parseInitializer (endLine : Nat) (tokens : List Lexeme) :
    ParseM (Parsed (List Expr) (tokens.length + 1)) := do
  match takeToken? (.assign none) tokens with
  | none => return ⟨[], tokens, length_lt_succ tokens⟩
  | some ⟨_, behind, assigned⟩ =>
    let ⟨_, inside, opened⟩ ← expect endLine (.opening .curly) behind
    let ⟨init, rest, fewer⟩ ← parseElements endLine inside
    return ⟨init, rest, by omega⟩

/-- Parses the definition of an array behind its name. -/
def parseArray (endLine line : Nat) (ty : TypeSpec) (name : String) (tokens : List Lexeme) :
    ParseM (Parsed Stmt tokens.length) := do
  checkRedefinition line name
  let ⟨dims, behind, sized⟩ ← parseDimensions endLine line name tokens
  let ⟨init, behind, initialised⟩ ← parseInitializer endLine behind
  if init.length > wordCount dims then failSemantic line (.tooManyInitializers name)
  let ⟨_, rest, fewer⟩ ← expect endLine .semicolon behind
  declare line name (.array ty dims)
  return ⟨.array line name ty dims init, rest, by omega⟩

/-- The most parameters that a function can have, in registers and on the stack together. -/
def maxParameters : Nat := 16

/-- Parses what stands behind a parameter, and says whether another one follows. -/
def parseParameterEnd (line : Nat) (tokens : List Lexeme) : ParseM (Parsed Bool tokens.length) :=
  match tokens with
  | [] => failParse line .parameterSeparator
  | l :: rest =>
    if l.token = .comma then return ⟨true, rest, length_lt_cons l rest⟩
    else if l.token = .closing .round then return ⟨false, rest, length_lt_cons l rest⟩
    else failParse line .parameterSeparator

/-- Parses the parameters that follow the given ones, up to the closing parenthesis. -/
def parseMoreParameters (endLine : Nat) (earlier : List Param) (tokens : List Lexeme) :
    ParseM (Parsed (List Param) tokens.length) := do
  let ⟨ty, behindType, typed⟩ ← parseType endLine tokens
  let ⟨(name, line), behindName, named⟩ ← expectIdentifier endLine behindType
  if earlier.any (fun p => p.name = name) then failSemantic line (.repeatedParameter name)
  let params := earlier ++ [⟨name, ty⟩]
  let ⟨more, rest, ended⟩ ← parseParameterEnd line behindName
  if more then
    let ⟨params, rest, fewer⟩ ← parseMoreParameters endLine params rest
    return ⟨params, rest, by omega⟩
  else return ⟨params, rest, by omega⟩
termination_by tokens.length

/-- What is behind an empty parameter list, if there is one behind an opening parenthesis: nothing, or
the word `void`, and the closing parenthesis. -/
def noParameters? (tokens : List Lexeme) : Option (Parsed Lexeme tokens.length) :=
  match takeToken? (.closing .round) tokens with
  | some closed => some closed
  | none =>
    match takeToken? (.type .void) tokens with
    | none => none
    | some ⟨_, behind, fewer⟩ =>
      (takeToken? (.closing .round) behind).map fun ⟨l, rest, closed⟩ => ⟨l, rest, by omega⟩

/-- Parses a parameter list. -/
def parseParameters (endLine : Nat) (tokens : List Lexeme) :
    ParseM (Parsed (List Param) tokens.length) := do
  let ⟨_, inside, opened⟩ ← expect endLine (.opening .round) tokens
  match noParameters? inside with
  | some ⟨_, rest, fewer⟩ => return ⟨[], rest, by omega⟩
  | none =>
    let ⟨params, rest, fewer⟩ ← parseMoreParameters endLine [] inside
    return ⟨params, rest, by omega⟩

/-- Refuses a function whose name the innermost scope declares as something else, as a function with a
body, or with another signature. -/
def checkSignature (line : Nat) (name : String) (signature : Signature) : ParseM Unit := do
  match (← get).findLocal? name with
  | none => return ()
  | some symbol =>
    match symbol.entity with
    | .function earlier =>
      if earlier.isDefined then
        failSemantic line (.redefined .functionRedefinition name symbol.line)
      else if earlier.ret ≠ signature.ret ∨ earlier.params ≠ signature.params then
        failSemantic line (.signatureMismatch name)
      else return ()
    | _ => checkRedefinition line name

/-- Parses the strings of an assembly statement up to the closing parenthesis. -/
def parseStrings (line : Nat) (tokens : List Lexeme) : ParseM (Parsed String tokens.length) :=
  match tokens with
  | [] => failParse line .unclosedAsm
  | l :: rest =>
    match l.token with
    | .str content => do
      let ⟨text, behind, fewer⟩ ← parseStrings line rest
      return ⟨content ++ "\n" ++ text, behind, by simp only [List.length_cons]; omega⟩
    | .closing .round => return ⟨"", rest, length_lt_cons l rest⟩
    | _ => failParse l.line (.asmContent l.token)

/-- Parses an assembly statement behind its keyword: strings in parentheses, each of which becomes one
line, and a semicolon that may be left out. -/
def parseAsm (endLine line : Nat) (tokens : List Lexeme) :
    ParseM (Parsed Stmt tokens.length) := do
  let ⟨_, inside, opened⟩ ← expect endLine (.opening .round) tokens
  let ⟨text, behind, closed⟩ ← parseStrings line inside
  match takeToken? .semicolon behind with
  | some ⟨_, rest, fewer⟩ => return ⟨.asm line text, rest, by omega⟩
  | none => return ⟨.asm line text, behind, by omega⟩

end SmallC.Parser
