import SmallC.Error
import SmallC.Scope
import SmallC.Source.Token

/-!
Cutting token lists. The parser finds the end of a construct by counting brackets and then works on the
tokens in front of it, so each cut here comes with the fact that its parts are shorter than the whole.
-/
namespace SmallC

/-- Parsing reads and extends the declarations in scope, and stops at the first error. -/
abbrev ParseM := StateT Scopes (Except CompileError)

namespace Parser

/-- Stops with a parse fault. -/
def failParse {α : Type} (line : Nat) (fault : ParseFault) : ParseM α :=
  throw (.parse line fault)

/-- Stops with a semantic fault. -/
def failSemantic {α : Type} (line : Nat) (fault : SemanticFault) : ParseM α :=
  throw (.semantic line fault)

/-- The line of the first token, or the given line if there is none. -/
def lineOr (line : Nat) (tokens : List Lexeme) : Nat :=
  (tokens.head?.map Lexeme.line).getD line

/-- What lies between two brackets and behind them. -/
structure Enclosed where
  inside : List Lexeme
  closer : Lexeme
  after : List Lexeme

/-- Puts one more token in front of what is enclosed. -/
def Enclosed.cons (l : Lexeme) (e : Enclosed) : Enclosed := { e with inside := l :: e.inside }

/-- Finds the bracket that closes an open one, given the tokens behind it and how many brackets were
opened among the tokens passed. Brackets are counted regardless of their kind; only the one that
closes must be of the kind of the open one. -/
def findClose (opener : Lexeme) (depth : Nat) : List Lexeme → Except CompileError Enclosed
  | [] => .error (.parse opener.line (.unclosedBracket opener.token))
  | l :: rest =>
    match l.token with
    | .opening _ => (findClose opener (depth + 1) rest).map (Enclosed.cons l)
    | .closing bracket =>
      match depth with
      | 0 =>
        if opener.token = .opening bracket then .ok ⟨[], l, rest⟩
        else .error (.parse l.line (.mismatchedBracket l.token))
      | depth + 1 => (findClose opener depth rest).map (Enclosed.cons l)
    | _ => (findClose opener depth rest).map (Enclosed.cons l)

theorem findClose_eq {opener : Lexeme} {depth : Nat} {tokens : List Lexeme} {e : Enclosed}
    (found : findClose opener depth tokens = .ok e) : tokens = e.inside ++ e.closer :: e.after := by
  induction tokens generalizing depth e with
  | nil => simp [findClose] at found
  | cons l rest ih =>
    have step : ∀ depth, (findClose opener depth rest).map (Enclosed.cons l) = .ok e →
        l :: rest = e.inside ++ e.closer :: e.after := by
      intro depth mapped
      cases inner : findClose opener depth rest with
      | error err => simp [inner, Except.map] at mapped
      | ok e' =>
        simp only [inner, Except.map, Except.ok.injEq] at mapped
        subst mapped
        simp [Enclosed.cons, ← ih inner]
    unfold findClose at found
    split at found
    · exact step _ found
    · split at found
      · split at found
        · cases found
          rfl
        · cases found
      · exact step _ found
    · exact step _ found

theorem findClose_length {opener : Lexeme} {depth : Nat} {tokens : List Lexeme} {e : Enclosed}
    (found : findClose opener depth tokens = .ok e) :
    tokens.length = e.inside.length + e.after.length + 1 := by
  rw [findClose_eq found]
  simp
  omega

/-- The tokens before a semicolon and those behind it. -/
structure Ended where
  before : List Lexeme
  semicolon : Lexeme
  after : List Lexeme

/-- Puts one more token in front of what is ended. -/
def Ended.cons (l : Lexeme) (e : Ended) : Ended := { e with before := l :: e.before }

/-- Finds the semicolon that ends a statement, given the line that the statement starts on. -/
def findSemicolon (line : Nat) (depth : Nat) : List Lexeme → Except CompileError Ended
  | [] => .error (.parse line .semicolonAtEnd)
  | l :: rest =>
    match l.token, depth with
    | .opening _, depth => (findSemicolon line (depth + 1) rest).map (Ended.cons l)
    | .closing _, 0 => .error (.parse l.line (.semicolonBefore l.token))
    | .closing _, depth + 1 => (findSemicolon line depth rest).map (Ended.cons l)
    | .semicolon, 0 => .ok ⟨[], l, rest⟩
    | _, depth => (findSemicolon line depth rest).map (Ended.cons l)

theorem findSemicolon_eq {line depth : Nat} {tokens : List Lexeme} {e : Ended}
    (found : findSemicolon line depth tokens = .ok e) :
    tokens = e.before ++ e.semicolon :: e.after := by
  induction tokens generalizing depth e with
  | nil => simp [findSemicolon] at found
  | cons l rest ih =>
    have step : ∀ depth, (findSemicolon line depth rest).map (Ended.cons l) = .ok e →
        l :: rest = e.before ++ e.semicolon :: e.after := by
      intro depth mapped
      cases inner : findSemicolon line depth rest with
      | error err => simp [inner, Except.map] at mapped
      | ok e' =>
        simp only [inner, Except.map, Except.ok.injEq] at mapped
        subst mapped
        simp [Ended.cons, ← ih inner]
    unfold findSemicolon at found
    split at found
    · exact step _ found
    · cases found
    · exact step _ found
    · cases found
      rfl
    · exact step _ found

theorem findSemicolon_length {line depth : Nat} {tokens : List Lexeme} {e : Ended}
    (found : findSemicolon line depth tokens = .ok e) :
    tokens.length = e.before.length + e.after.length + 1 := by
  rw [findSemicolon_eq found]
  simp
  omega

/-- Tokens up to a separator, and the line of the token that ends them. -/
structure Clause where
  tokens : List Lexeme
  endLine : Nat

/-- The line that an expression in the clause starts on. -/
def Clause.line (c : Clause) : Nat := lineOr c.endLine c.tokens

/-- Puts one more token in front of the first clause. -/
def consToFirst (l : Lexeme) : List Clause → List Clause
  | [] => []
  | c :: rest => { c with tokens := l :: c.tokens } :: rest

/-- How many brackets are open behind a token. -/
def depthAfter (depth : Nat) : Token → Nat
  | .opening _ => depth + 1
  | .closing _ => depth - 1
  | _ => depth

/-- Cuts tokens at the separators that stand outside of all brackets. The last clause ends at the
given line. There is always one clause more than there are separators. -/
def splitClauses (separator : Token) (endLine depth : Nat) : List Lexeme → List Clause
  | [] => [⟨[], endLine⟩]
  | l :: rest =>
    if l.token = separator ∧ depth = 0 then
      ⟨[], l.line⟩ :: splitClauses separator endLine depth rest
    else consToFirst l (splitClauses separator endLine (depthAfter depth l.token) rest)

/-- Number of tokens in clauses, each counted with one token behind it. -/
def clausesSize : List Clause → Nat
  | [] => 0
  | c :: rest => c.tokens.length + 1 + clausesSize rest

theorem splitClauses_ne_nil (separator : Token) (endLine depth : Nat) (tokens : List Lexeme) :
    splitClauses separator endLine depth tokens ≠ [] := by
  induction tokens generalizing depth with
  | nil => simp [splitClauses]
  | cons l rest ih =>
    unfold splitClauses
    split
    · simp
    · cases inner : splitClauses separator endLine (depthAfter depth l.token) rest with
      | nil => exact absurd inner (ih _)
      | cons => simp [consToFirst]

theorem clausesSize_consToFirst (l : Lexeme) {clauses : List Clause} (nonempty : clauses ≠ []) :
    clausesSize (consToFirst l clauses) = clausesSize clauses + 1 := by
  cases clauses with
  | nil => exact absurd rfl nonempty
  | cons c rest =>
    simp only [consToFirst, clausesSize, List.length_cons]
    omega

theorem clausesSize_splitClauses (separator : Token) (endLine depth : Nat) (tokens : List Lexeme) :
    clausesSize (splitClauses separator endLine depth tokens) = tokens.length + 1 := by
  induction tokens generalizing depth with
  | nil => simp [splitClauses, clausesSize]
  | cons l rest ih =>
    unfold splitClauses
    split
    · simp only [clausesSize, ih, List.length_cons, List.length_nil]
      omega
    · rw [clausesSize_consToFirst l (splitClauses_ne_nil separator endLine _ rest), ih,
        List.length_cons]

/-- What was parsed from fewer than the given number of tokens, and the tokens that remain. -/
structure Parsed (α : Type) (bound : Nat) where
  value : α
  rest : List Lexeme
  fewer : rest.length < bound

theorem length_lt_cons (l : Lexeme) (rest : List Lexeme) : rest.length < (l :: rest).length :=
  Nat.lt_succ_self rest.length

theorem length_lt_succ (tokens : List Lexeme) : tokens.length < tokens.length + 1 :=
  Nat.lt_succ_self tokens.length

theorem shorter_trans {a b c : List Lexeme} (first : a.length < b.length)
    (second : b.length < c.length) : a.length < c.length :=
  Nat.lt_trans first second

/-- What is behind a token, if the tokens start with it. -/
def takeToken? (token : Token) (tokens : List Lexeme) : Option (Parsed Lexeme tokens.length) :=
  match tokens with
  | [] => none
  | l :: rest => if l.token = token then some ⟨l, rest, length_lt_cons l rest⟩ else none

/-- Expects a token, at the end of the source on the given line. -/
def expect (endLine : Nat) (token : Token) (tokens : List Lexeme) :
    ParseM (Parsed Lexeme tokens.length) :=
  match tokens with
  | [] => failParse endLine (.expectedTokenAtEnd token)
  | l :: rest =>
    if l.token = token then return ⟨l, rest, length_lt_cons l rest⟩
    else failParse l.line (.expectedToken token l.token)

/-- Expects an identifier; the answer is its name and its line. -/
def expectIdentifier (endLine : Nat) (tokens : List Lexeme) :
    ParseM (Parsed (String × Nat) tokens.length) :=
  match tokens with
  | [] => failParse endLine .expectedIdentifierAtEnd
  | l :: rest =>
    match l.token with
    | .ident name => return ⟨(name, l.line), rest, length_lt_cons l rest⟩
    | _ => failParse l.line (.expectedIdentifier l.token)

end Parser

end SmallC
