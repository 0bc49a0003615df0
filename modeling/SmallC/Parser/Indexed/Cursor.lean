import SmallC.Parser.Statement

/-!
The parser on positions. The tokens stand in one list that is never cut: a position says where parsing is, the end of a
construct is looked for from there, and an expression is what stands between two positions. Nothing in a position says that
a token is there, and nothing in a loop says that it ends, so both can go wrong here: to look at a position without a token,
and to go on beyond a limit that is given for the rounds of each loop and for the depth of calls, are outcomes of their own.
-/
namespace SmallC.Parser.Indexed

/-- Why parsing on positions stops without a result. -/
inductive Halt where
  /-- The source is at fault. -/
  | fault (e : CompileError)
  /-- A position was looked at where no token is. -/
  | outOfBounds (position : Nat)
  /-- A loop or a chain of calls went on beyond the limit. -/
  | exhausted
  deriving DecidableEq, Repr

/-- Parsing on positions reads and extends the declarations in scope as well. -/
abbrev CursorM := StateT Scopes (Except Halt)

/-- Stops with a parse fault. -/
def failParse {α : Type} (line : Nat) (fault : ParseFault) : CursorM α :=
  throw (.fault (.parse line fault))

/-- Stops with a semantic fault. -/
def failSemantic {α : Type} (line : Nat) (fault : SemanticFault) : CursorM α :=
  throw (.fault (.semantic line fault))

/-- Does what looks at no position. -/
def embed {α : Type} (act : ParseM α) : CursorM α := fun s => (act s).mapError .fault

/-- Does something in a scope of its own. -/
def inScope {α : Type} (act : CursorM α) : CursorM α := do
  modify Scopes.enter
  let value ← act
  modify Scopes.leave
  return value

/-- What a round of a loop leads to. -/
inductive Round (σ β : Type) where
  | again (state : σ)
  | done (result : β)

/-- A loop with at most so many rounds. -/
def rounds {σ β : Type} (body : σ → CursorM (Round σ β)) : Nat → σ → CursorM β
  | 0, _ => throw .exhausted
  | n + 1, state => do
    match ← body state with
    | .again state => rounds body n state
    | .done result => return result

variable (toks : List Lexeme)

/-- The token at a position, where one has to be. -/
def tokenAt (position : Nat) : Except Halt Lexeme :=
  match toks[position]? with
  | some l => return l
  | none => throw (.outOfBounds position)

/-- The token at a position, if there is one. -/
def peek (position : Nat) : Option Token := toks[position]?.map Lexeme.token

/-- The line of the token at a position, or of the last one. -/
def lineAt (position : Nat) : Nat := ((toks[position]?.or toks.getLast?).map Lexeme.line).getD 1

/-- Looks for the bracket that closes the one at a position, among so many tokens from another position on. -/
def closeFrom (opener : Nat) : Nat → Nat → Int → Except Halt Nat
  | 0, _, _ => do
    let l ← tokenAt toks opener
    throw (.fault (.parse (lineAt toks opener) (.unclosedBracket l.token)))
  | n + 1, i, depth => do
    let l ← tokenAt toks i
    match l.token with
    | .opening _ => closeFrom opener n (i + 1) (depth + 1)
    | .closing bracket =>
      if depth - 1 = 0 then
        let first ← tokenAt toks opener
        if first.token = .opening bracket then return i
        else throw (.fault (.parse l.line (.mismatchedBracket l.token)))
      else closeFrom opener n (i + 1) (depth - 1)
    | _ => closeFrom opener n (i + 1) depth

/-- The position of the bracket that closes the one at a position, below a bound. -/
def findClose (opener bound : Nat) : Except Halt Nat :=
  closeFrom toks opener (min bound toks.length - opener) opener 0

/-- Looks for the semicolon that ends a statement, among so many tokens from a position on. -/
def endFrom (start : Nat) : Nat → Nat → Int → Except Halt Nat
  | 0, _, _ => throw (.fault (.parse (lineAt toks start) .semicolonAtEnd))
  | n + 1, i, depth => do
    let l ← tokenAt toks i
    match l.token with
    | .opening _ => endFrom start n (i + 1) (depth + 1)
    | .closing _ =>
      if depth - 1 < 0 then throw (.fault (.parse l.line (.semicolonBefore l.token)))
      else endFrom start n (i + 1) (depth - 1)
    | .semicolon => if depth = 0 then return i else endFrom start n (i + 1) depth
    | _ => endFrom start n (i + 1) depth

/-- The position of the semicolon that ends the statement at a position. -/
def findEnd (start : Nat) : Except Halt Nat := endFrom toks start (toks.length - start) start 0

/-- How many brackets are open behind a token; the count may fall below zero. -/
def openAfter (nesting : Int) : Token → Int
  | .opening _ => nesting + 1
  | .closing _ => nesting - 1
  | _ => nesting

/-- The positions of the separators outside of all brackets, among so many tokens from a position on. -/
def separatorsFrom (separator : Token) : Nat → Nat → Int → Except Halt (List Nat)
  | 0, _, _ => return []
  | n + 1, i, nesting => do
    let l ← tokenAt toks i
    if l.token = separator ∧ nesting = 0 then return i :: (← separatorsFrom separator n (i + 1) nesting)
    else separatorsFrom separator n (i + 1) (openAfter nesting l.token)

/-- Expects a token at a position. -/
def expect (token : Token) (position : Nat) : CursorM (Lexeme × Nat) :=
  match toks[position]? with
  | some l =>
    if l.token = token then return (l, position + 1) else failParse l.line (.expectedToken token l.token)
  | none => failParse (lineAt toks position) (.expectedTokenAtEnd token)

/-- Expects an identifier at a position; the answer is its name and its line. -/
def expectIdentifier (position : Nat) : CursorM ((String × Nat) × Nat) :=
  match toks[position]? with
  | some l =>
    match l.token with
    | .ident name => return ((name, l.line), position + 1)
    | _ => failParse l.line (.expectedIdentifier l.token)
  | none => failParse (lineAt toks position) .expectedIdentifierAtEnd

end SmallC.Parser.Indexed
