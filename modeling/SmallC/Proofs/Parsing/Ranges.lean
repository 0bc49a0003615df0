import SmallC.Proofs.Parsing.Following

/-!
Expressions between two positions, as on lists. Where the expressions in an expression are parsed as on lists, so is the
whole, and it makes no difference how expressions are parsed that do not lie strictly inside of it. Those inside are shorter,
so calls need to go no deeper than an expression has tokens.
-/
namespace SmallC.Parser.Indexed

variable {toks tokens rest : List Lexeme} {l : Lexeme} {limit lo hi n : Nat} {recur recur' : Nat → Nat → CursorM Expr}

/-! ### As on lists -/

/-- What the parser on lists makes of the tokens between two positions. -/
def listed (toks : List Lexeme) (lo hi : Nat) : CursorM Expr :=
  embed (parseExpr (lineAt toks lo) ((toks.take hi).drop lo))

theorem Clause.line_eq {c : Clause} (spans : Spans toks lo hi c.tokens)
    (ends : c.tokens = [] → c.endLine = lineAt toks hi) : c.line = lineAt toks lo := by
  by_cases empty : c.tokens = []
  · have same : lo = hi := by simpa [empty] using spans.length
    rw [Clause.line, empty, same, ← ends empty]
    rfl
  · exact spans.lineOr_eq empty _

section

variable {name : String} {line : Nat} {next : Lexeme} {behind : List Lexeme}

end

section

variable {here : Nat} {name : String}

end

end SmallC.Parser.Indexed
