import SmallC.Proofs.Parsing.Positions

/-!
Progress of the parser on positions. Whatever the tokens are, each of its functions ends with a result or with a fault of the
source: it looks at no position without a token, its loops come to an end, and no chain of calls goes on for ever. Three
things keep it so: a statement ends behind where it begins, each round of a loop does too, and the expressions that are
parsed in an expression lie strictly inside of it.
-/
namespace SmallC.Parser.Indexed

variable {α β σ τ : Type} {toks tokens rest : List Lexeme} {l : Lexeme} {limit lo hi i n : Nat}

/-! ### Outcomes -/

/-- Parsing ends with a result of a kind, or with a fault of the source. -/
def Meets (Q : α → Prop) (act : CursorM α) : Prop :=
  ∀ s, (∃ x s', act s = .ok (x, s') ∧ Q x) ∨ ∃ e, act s = .error (.fault e)

namespace Meets

variable {Q : α → Prop} {R : β → Prop} {act other : CursorM α}

theorem pure {x : α} (holds : Q x) : Meets Q (Pure.pure x) := fun s => .inl ⟨x, s, rfl, holds⟩

theorem failParse (line : Nat) (fault : ParseFault) : Meets Q (Indexed.failParse line fault) := fun _ => .inr ⟨_, rfl⟩

theorem failSemantic (line : Nat) (fault : SemanticFault) : Meets Q (Indexed.failSemantic line fault) :=
  fun _ => .inr ⟨_, rfl⟩

theorem bind {f : α → CursorM β} (first : Meets Q act) (rest : ∀ x, Q x → Meets R (f x)) : Meets R (act >>= f) := by
  intro s
  change (∃ y s', ((act s).bind fun done => f done.1 done.2) = .ok (y, s') ∧ R y) ∨
    ∃ e, ((act s).bind fun done => f done.1 done.2) = .error (.fault e)
  rcases first s with ⟨x, s', ran, holds⟩ | ⟨e, ran⟩
  · rw [ran]
    exact rest x holds s'
  · exact .inr ⟨e, by rw [ran]; rfl⟩

theorem ite {c : Prop} [Decidable c] (yes : c → Meets Q act) (no : ¬ c → Meets Q other) :
    Meets Q (if c then act else other) := by
  split
  · next holds => exact yes holds
  · next fails => exact no fails

end Meets

/-- What follows a parser on lists ends as that one does. -/
theorem Follows.meets {R : α → β → Prop} {Q : α → Prop} {act : CursorM α} {p : ParseM β} (follows : Follows R act p)
    (gives : ∀ x y, R x y → Q x) : Meets Q act := by
  intro s
  rcases follows.outcome s with ⟨x, s', y, ran, -, related⟩ | ⟨e, ran, -⟩
  · exact .inl ⟨x, s', ran, gives x y related⟩
  · exact .inr ⟨e, ran⟩

/-- What follows the same parser on lists is the same, if that determines the result. -/
theorem Follows.unique {R : α → β → Prop} {act other : CursorM α} {p : ParseM β}
    (determined : ∀ x x' y, R x y → R x' y → x = x') (follows : Follows R act p) (follows' : Follows R other p) :
    act = other := by
  funext s
  rcases follows.outcome s with ⟨x, s', y, ran, listed, related⟩ | ⟨e, ran, listed⟩
  · rcases follows'.outcome s with ⟨x', s'', y', ran', listed', related'⟩ | ⟨e, ran', listed'⟩
    · rw [listed] at listed'
      cases listed'
      rw [ran, ran', determined x x' y related related']
    · rw [listed] at listed'
      cases listed'
  · rcases follows'.outcome s with ⟨x', s'', y', ran', listed', related'⟩ | ⟨e', ran', listed'⟩
    · rw [listed] at listed'
      cases listed'
    · rw [listed] at listed'
      cases listed'
      rw [ran, ran']

/-! ### Further on -/

/-- Parsing goes on behind a position, within the tokens. -/
def Beyond (toks : List Lexeme) (position : Nat) (r : α × Nat) : Prop := position < r.2 ∧ r.2 ≤ toks.length

theorem Beyond.of_fewer {r : α × Nat} {p : Parsed β n} (stands : Stands toks i tokens) (behind : Stands toks r.2 p.rest)
    (fewer : p.rest.length < tokens.length) : Beyond toks i r :=
  ⟨Stands.lt stands behind fewer, by have := behind.length; omega⟩

/-- A token that is there can be passed. -/
theorem Beyond.next (found : toks[i]? = some l) (x : α) : Beyond toks i (x, i + 1) :=
  ⟨Nat.lt_succ_self i, (List.getElem?_eq_some_iff.1 found).1⟩

theorem Follows.advances {act : CursorM (α × Nat)} {p : ParseM (Parsed α tokens.length)} (stands : Stands toks i tokens)
    (follows : Follows (At toks) act p) : Meets (Beyond toks i) act :=
  follows.meets fun _ p here => .of_fewer stands here.2 p.fewer

theorem At.determined {p : Parsed α n} {r r' : α × Nat} (here : At toks r p) (here' : At toks r' p) : r = r' :=
  Prod.ext (here.1.trans here'.1.symm) (Stands.unique here.2 here'.2)

theorem Behind.determined {before : List α} {p : Parsed (List α) n} {r r' : List α × Nat}
    (here : Behind toks before r p) (here' : Behind toks before r' p) : r = r' :=
  Prod.ext (here.1.trans here'.1.symm) (Stands.unique here.2 here'.2)

end SmallC.Parser.Indexed
