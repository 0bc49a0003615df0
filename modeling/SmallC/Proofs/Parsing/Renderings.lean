import SmallC.Parser.Expression

/-!
Expressions as the textbook has them: trees without lines, and the token lists that render a tree. An operator
binds as tightly as the table of precedences says, what is not in parentheses groups to the left, assignments to
the right, and parentheses may stand around any expression.
-/
namespace SmallC

open SmallC.Parser

/-- An expression tree: an expression without lines and numbers of occurrences. -/
inductive Tree where
  | int (value : Int)
  | fixed (value : Int)
  | var (name : String)
  | binary (op : BinaryOp) (left right : Tree)
  | assign (op : Option WordOp) (target value : Tree)
  | unary (op : UnaryOp) (operand : Tree)
  | call (name : String) (args : List Tree)
  | index (name : String) (indices : List Tree)

namespace Expr

mutual

/-- The tree that an expression is. -/
def tree : Expr → Tree
  | int _ value => .int value
  | fixed _ value => .fixed value
  | var _ name _ => .var name
  | binary _ op left right => .binary op left.tree right.tree
  | assign _ op target value => .assign op target.tree value.tree
  | unary _ op operand => .unary op operand.tree
  | call _ name args => .call name (trees args)
  | index _ name _ indices => .index name (trees indices)

/-- The trees that several expressions are. -/
def trees : List Expr → List Tree
  | [] => []
  | e :: rest => e.tree :: trees rest

end

theorem length_trees (es : List Expr) : (trees es).length = es.length := by
  induction es with
  | nil => rfl
  | cons e rest ih => simp [trees, ih]

end Expr

/-- What names are declared as. -/
abbrev Declarations := String → Option Symbol

/-- Number of indices that an array or a pointer takes. -/
def Declarations.indices? (declared : Declarations) (name : String) : Option Nat :=
  match declared name with
  | some ⟨.array _ dims, _⟩ => some dims.length
  | some ⟨.variable ty, _⟩ => if ty.refs > 0 then some 1 else none
  | _ => none

/-- Whether a tree can be assigned to: a variable that is no array, and, unless the assignment is compounded,
an element or what a pointer points at. -/
def Tree.Assignable (declared : Declarations) (op : Option WordOp) : Tree → Prop
  | .var name => ∀ ty dims line, declared name ≠ some ⟨.array ty dims, line⟩
  | .index .. => op = none
  | .unary .deref _ => op = none
  | _ => False

/-- The token of an operator before an operand. -/
def UnaryOp.token : UnaryOp → Token
  | neg => .operator .minus
  | deref => .operator .star
  | ref => .operator .ampersand
  | not => .bang

/-- The trees of literals, by their tokens. -/
inductive Token.Literal : Token → Tree → Prop where
  | int {value : Int} (fits : FitsSigned 32 value) : Literal (.int value) (.int value)
  | decimal {text : String} : Literal (.decimal text) (.fixed ((FixedPoint.ofDecimal? text).getD 0))
  | char {value : Char} : Literal (.char value) (.int value.toNat)
  | null : Literal (.keyword .nullWord) (.int 0)

mutual

/-- Tokens render a tree where operators that bind less tightly than at a level need parentheses. -/
inductive Renders (declared : Declarations) : Nat → List Lexeme → Tree → Prop where
  | literal {n : Nat} {l : Lexeme} {t : Tree} (token : l.token.Literal t) : Renders declared n [l] t
  | var {n : Nat} {l : Lexeme} {name : String} {symbol : Symbol} (token : l.token = .ident name)
      (known : declared name = some symbol) (value : ∀ signature, symbol.entity ≠ .function signature) :
      Renders declared n [l] (.var name)
  | parentheses {n : Nat} {l r : Lexeme} {ts : List Lexeme} {t : Tree} (opens : l.token = .opening .round)
      (inside : Renders declared 1 ts t) (closes : r.token = .closing .round) :
      Renders declared n (l :: ts ++ [r]) t
  | unary {n : Nat} {l : Lexeme} {op : UnaryOp} {ts : List Lexeme} {t : Tree} (level : n ≤ unaryPrecedence)
      (token : l.token = op.token) (before : op ≠ .not → l.beforeOperand = true)
      (operand : Renders declared unaryPrecedence ts t)
      (named : op = .ref ∨ op = .deref → ∃ name, t = .var name) : Renders declared n (l :: ts) (.unary op t)
  | binary {n : Nat} {l : Lexeme} {op : BinaryOp} {ts us : List Lexeme} {t u : Tree} (level : n ≤ op.precedence)
      (left : Renders declared op.precedence ts t) (token : l.token = .operator op)
      (between : l.beforeOperand = false) (right : Renders declared (op.precedence + 1) us u) :
      Renders declared n (ts ++ l :: us) (.binary op t u)
  | assign {n : Nat} {l : Lexeme} {op : Option WordOp} {ts us : List Lexeme} {t u : Tree}
      (level : n ≤ assignPrecedence) (target : Renders declared (assignPrecedence + 1) ts t)
      (assignable : t.Assignable declared op) (token : l.token = .assign op)
      (value : Renders declared assignPrecedence us u) : Renders declared n (ts ++ l :: us) (.assign op t u)
  | call {n line : Nat} {l o r : Lexeme} {name : String} {signature : Signature} {ts : List Lexeme}
      {args : List Tree} (token : l.token = .ident name)
      (known : declared name = some ⟨.function signature, line⟩) (opens : o.token = .opening .round)
      (arguments : RendersArguments declared ts args) (count : args.length = signature.params.length)
      (closes : r.token = .closing .round) : Renders declared n (l :: (o :: ts ++ [r])) (.call name args)
  | index {n : Nat} {l : Lexeme} {name : String} {ts : List Lexeme} {first : Tree} {others : List Tree}
      (token : l.token = .ident name) (known : declared.indices? name = some (others.length + 1))
      (indices : RendersIndices declared ts (first :: others)) :
      Renders declared n (l :: ts) (.index name (first :: others))

/-- Tokens render the arguments of a call, with commas between them. -/
inductive RendersArguments (declared : Declarations) : List Lexeme → List Tree → Prop where
  | none : RendersArguments declared [] []
  | one {ts : List Lexeme} {t : Tree} (arg : Renders declared 1 ts t) : RendersArguments declared ts [t]
  | more {l : Lexeme} {ts us : List Lexeme} {t next : Tree} {others : List Tree} (arg : Renders declared 1 ts t)
      (token : l.token = .comma) (rest : RendersArguments declared us (next :: others)) :
      RendersArguments declared (ts ++ l :: us) (t :: next :: others)

/-- Tokens render indices, each in brackets. -/
inductive RendersIndices (declared : Declarations) : List Lexeme → List Tree → Prop where
  | none : RendersIndices declared [] []
  | more {l r : Lexeme} {ts us : List Lexeme} {t : Tree} {others : List Tree} (opens : l.token = .opening .square)
      (index : Renders declared 1 ts t) (closes : r.token = .closing .square)
      (rest : RendersIndices declared us others) : RendersIndices declared (l :: ts ++ r :: us) (t :: others)

end

/-! ### Cutting -/

namespace Parser

/-- Puts tokens in front of the first clause. -/
def prepend (ts : List Lexeme) (clauses : List Clause) : List Clause := ts.foldr consToFirst clauses

/-- Tokens that cutting passes over as a whole, at least so deep inside of brackets. -/
structure Passed (least : Nat) (ts : List Lexeme) : Prop where
  close : ∀ opener depth rest, findClose opener depth (ts ++ rest) =
    (findClose opener depth rest).map fun e => { e with inside := ts ++ e.inside }
  split : ∀ endLine depth rest, least ≤ depth → splitClauses .comma endLine depth (ts ++ rest) =
    prepend ts (splitClauses .comma endLine depth rest)

namespace Passed

variable {least : Nat} {ts us : List Lexeme} {l r : Lexeme}

theorem nil : Passed least [] := by
  refine ⟨fun opener depth rest => ?_, fun _ _ _ _ => rfl⟩
  rw [List.nil_append]
  cases findClose opener depth rest <;> rfl

theorem append (first : Passed least ts) (second : Passed least us) : Passed least (ts ++ us) := by
  refine ⟨fun opener depth rest => ?_, fun endLine depth rest deep => ?_⟩
  · rw [List.append_assoc, first.close, second.close]
    cases findClose opener depth rest with
    | error e => rfl
    | ok e => simp [Except.map]
  · rw [List.append_assoc, first.split _ _ _ deep, second.split _ _ _ deep, prepend, prepend, prepend,
      List.foldr_append]

theorem deeper (passed : Passed 0 ts) : Passed least ts :=
  ⟨passed.close, fun endLine depth rest _ => passed.split endLine depth rest (Nat.zero_le depth)⟩

/-- A token that is no bracket, and no comma except inside of brackets. -/
theorem single {token : Token} (is : l.token = token) (opening : ∀ b, token ≠ .opening b)
    (closing : ∀ b, token ≠ .closing b) (comma : token = .comma → 0 < least) : Passed least [l] := by
  subst is
  refine ⟨fun opener depth rest => ?_, fun endLine depth rest deep => ?_⟩
  · rw [List.singleton_append, findClose]
    split
    · next b is => exact absurd is (opening b)
    · next b is => exact absurd is (closing b)
    · rfl
  · have after : depthAfter depth l.token = depth := by
      unfold depthAfter
      split
      · next b is => exact absurd is (opening b)
      · next b is => exact absurd is (closing b)
      · rfl
    rw [List.singleton_append, splitClauses, if_neg, after]
    · rfl
    · rintro ⟨is, rfl⟩
      exact absurd (comma is) (Nat.not_lt.2 deep)

/-- Tokens in brackets. -/
theorem bracketed {b b' : Bracket} (opens : l.token = .opening b) (inside : Passed 1 ts)
    (closes : r.token = .closing b') : Passed 0 (l :: ts ++ [r]) := by
  refine ⟨fun opener depth rest => ?_, fun endLine depth rest _ => ?_⟩
  · have inner : findClose opener (depth + 1) (r :: rest) =
        (findClose opener depth rest).map (Enclosed.cons r) := by
      rw [findClose]
      simp only [closes]
    rw [List.cons_append, List.cons_append, List.append_assoc, List.singleton_append, findClose]
    simp only [opens]
    rw [inside.close, inner]
    cases findClose opener depth rest with
    | error e => rfl
    | ok e => simp [Except.map, Enclosed.cons]
  · have inner : splitClauses .comma endLine (depth + 1) (r :: rest) =
        consToFirst r (splitClauses .comma endLine depth rest) := by
      rw [splitClauses, if_neg (fun is => by simp [closes] at is), closes]
      rfl
    rw [List.cons_append, List.cons_append, List.append_assoc, List.singleton_append, splitClauses,
      if_neg (fun is => by simp [opens] at is), opens]
    change consToFirst l (splitClauses .comma endLine (depth + 1) (ts ++ r :: rest)) = _
    rw [inside.split _ _ _ (Nat.le_add_left 1 depth), inner]
    simp [prepend]

end Passed

end Parser

open SmallC.Parser

variable {declared : Declarations}

theorem Token.Literal.passed {l : Lexeme} {t : Tree} (literal : l.token.Literal t) : Passed 0 [l] := by
  generalize same : l.token = token at literal
  cases literal <;> exact .single same nofun nofun nofun

theorem UnaryOp.passed {l : Lexeme} {op : UnaryOp} (token : l.token = op.token) : Passed 0 [l] := by
  cases op <;> exact .single token nofun nofun nofun

mutual

/-- The brackets of a rendered tree are balanced, and commas stand inside of them. -/
theorem Renders.passed : ∀ {n : Nat} {ts : List Lexeme} {t : Tree}, Renders declared n ts t → Passed 0 ts
  | _, _, _, .literal token => token.passed
  | _, _, _, .var token _ _ => .single token nofun nofun nofun
  | _, _, _, .parentheses opens inside closes => .bracketed opens inside.passed.deeper closes
  | _, _, _, .unary _ token _ operand _ => (UnaryOp.passed token).append operand.passed
  | _, _, _, .binary _ left token _ right =>
    left.passed.append (.append (.single token nofun nofun nofun) right.passed)
  | _, _, _, .assign _ target _ token value =>
    target.passed.append (.append (.single token nofun nofun nofun) value.passed)
  | _, _, _, .call token _ opens arguments _ closes =>
    .append (.single token nofun nofun nofun)
      (.bracketed opens arguments.passed closes)
  | _, _, _, .index token _ indices =>
    .append (.single token nofun nofun nofun) indices.passed

theorem RendersArguments.passed : ∀ {ts : List Lexeme} {args : List Tree}, RendersArguments declared ts args →
    Passed 1 ts
  | _, _, .none => .nil
  | _, _, .one arg => arg.passed.deeper
  | _, _, .more arg token rest => arg.passed.deeper.append
    (.append (.single token nofun nofun fun _ => Nat.one_pos) rest.passed)

theorem RendersIndices.passed : ∀ {ts : List Lexeme} {args : List Tree}, RendersIndices declared ts args →
    Passed 0 ts
  | _, _, .none => .nil
  | _, _, .more opens index closes rest => by
    have whole := (Passed.bracketed opens index.passed.deeper closes).append rest.passed
    rwa [List.append_assoc, List.singleton_append] at whole

end

end SmallC
