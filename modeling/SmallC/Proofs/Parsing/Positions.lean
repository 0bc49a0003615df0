import SmallC.Proofs.Parsing.Ranges

/-!
Statements from a position on, as on lists. Each function follows its counterpart on the tokens that begin at its position.
A loop does if it has more rounds than there are tokens, since every round leaves fewer of them, and the statements and the
initialisers inside of others do since they begin further on.
-/
namespace SmallC.Parser.Indexed

variable {α : Type} {toks tokens rest : List Lexeme} {l : Lexeme} {limit lo hi i n : Nat}

/-! ### Single tokens -/

theorem Stands.fits (enough : toks.length < limit) (stands : Stands toks i tokens) : tokens.length < limit := by
  have := stands.length
  omega

/-- The results before, with those of the list parser behind them. -/
def Behind (toks : List Lexeme) (before : List α) (r : List α × Nat) (p : Parsed (List α) n) : Prop :=
  r.1 = before ++ p.value ∧ Stands toks r.2 p.rest

/-- From a position on, statements are parsed as on lists. -/
def Recurs (toks : List Lexeme) (floor : Nat) (recur : Bool → Nat → CursorM (Option Stmt × Nat)) : Prop :=
  ∀ {inFunction i l rest}, floor ≤ i → Stands toks i (l :: rest) →
    Follows (At toks) (recur inFunction i) (parseStatement ⟨endLine toks, inFunction⟩ l rest)

section

variable {recur : Bool → Nat → CursorM (Option Stmt × Nat)} {inFunction : Bool} {floor : Nat}

end

end SmallC.Parser.Indexed
