import SmallC.Proofs.Meaning.Reference
import SmallC.Proofs.Parsing.Renderings

/-!
When an expression has a value. The values of expressions that are the same but for their lines are the same, and a
variable that is added changes none of them. An expression whose variables all have numbers has a value unless it
divides by zero.
-/
namespace SmallC

variable {e e' : Expr} {env env' : Env} {x y z : Number} {names : String → Prop} {name : String} {op : ArithmeticOp}

/-! ### Divisors -/

namespace Number

/-- The word that a division or a remainder divides by. A fixed-point divisor loses half of its fraction. -/
def divisor (op : ArithmeticOp) (x y : Number) : Word :=
  match op, y.kind with
  | .div, .fixed => y.word.sshiftRight halfFraction
  | .div, .int => y.word
  | _, _ => (common x y).2.word

/-- Whether an operation divides by zero. -/
def dividesByZero (op : ArithmeticOp) (x y : Number) : Bool := (op = .div ∨ op = .mod) ∧ divisor op x y = 0

theorem onWords_isSome {a b : Word} (defined : (op = .div ∨ op = .mod) → b ≠ 0) : (op.onWords a b).isSome = true := by
  cases op with
  | div =>
    rw [ArithmeticOp.onWords, if_neg (defined (.inl rfl))]
    rfl
  | mod =>
    rw [ArithmeticOp.onWords, if_neg (defined (.inr rfl))]
    rfl
  | _ => rfl

/-- Only divisions by zero are undefined. -/
theorem apply_isSome (defined : dividesByZero op x y = false) : (apply op x y).isSome = true := by
  obtain ⟨kx, a⟩ := x
  obtain ⟨ky, b⟩ := y
  have nonzero : (op = .div ∨ op = .mod) → divisor op ⟨kx, a⟩ ⟨ky, b⟩ ≠ 0 := by
    simpa [dividesByZero] using defined
  cases op <;> cases kx <;> cases ky <;>
    simp only [apply, Option.isSome_map, Option.isSome_some] <;>
    exact onWords_isSome nonzero

/-- A fixed-point divisor below a 256th counts as zero, unless it is negative. -/
theorem divisor_eq_zero_iff (fixed : y.kind = .fixed) :
    divisor .div x y = 0 ↔ 0 ≤ y.word.toInt ∧ y.word.toInt < 256 := by
  have scaled : (y.word.sshiftRight halfFraction).toInt = y.word.toInt / 256 := by
    rw [BitVec.toInt_sshiftRight, Int.shiftRight_eq_div_pow]
    rfl
  have zero : (0 : Word).toInt = 0 := rfl
  rw [divisor, ← BitVec.toInt_inj, scaled, zero]
  · omega
  · exact fixed

end Number

namespace Expr

/-! ### Trees -/

theorem amount?_of_tree (same : e.tree = e'.tree) : e.amount? = e'.amount? := by
  cases e <;> cases e' <;> simp only [tree, reduceCtorEq, Tree.int.injEq] at same <;> simp only [amount?]
  rw [same]

/-- What an expression is worth depends on its tree alone. -/
theorem eval_of_tree : ∀ e e' : Expr, e.tree = e'.tree → e.eval env = e'.eval env
  | .int .., e', same | .fixed .., e', same | .var .., e', same | .assign .., e', same | .call .., e', same
  | .index .., e', same => by
    cases e' <;> simp only [tree, reduceCtorEq, Tree.int.injEq, Tree.fixed.injEq, Tree.var.injEq] at same
    simp only [eval, same]
  | .binary _ op left right, e', same => by
    cases e' with
    | binary line' op' left' right' =>
      simp only [tree, Tree.binary.injEq] at same
      obtain ⟨rfl, first, second⟩ := same
      rcases op with (op | direction) | r | (_ | _) <;>
        simp only [eval, eval_of_tree left left' first, eval_of_tree right right' second, amount?_of_tree second]
    | _ => simp [tree] at same
  | .unary _ op operand, e', same => by
    cases e' with
    | unary line' op' operand' =>
      simp only [tree, Tree.unary.injEq] at same
      obtain ⟨rfl, inner⟩ := same
      cases op <;> simp only [eval, eval_of_tree operand operand' inner]
    | _ => simp [tree] at same

/-- Whether two expressions that only compute are the same but for their lines. -/
def alike : Expr → Expr → Bool
  | int _ n, int _ n' => n = n'
  | fixed _ n, fixed _ n' => n = n'
  | var _ name _, var _ name' _ => name = name'
  | binary _ op left right, binary _ op' left' right' => op = op' && left.alike left' && right.alike right'
  | unary _ op operand, unary _ op' operand' => op = op' && operand.alike operand'
  | _, _ => false

theorem tree_of_alike : ∀ e e' : Expr, e.alike e' = true → e.tree = e'.tree
  | .int .., e', same | .fixed .., e', same | .var .., e', same => by
    cases e' <;> simp only [alike, Bool.false_eq_true, decide_eq_true_eq] at same
    simp only [tree, same]
  | .binary _ op left right, e', same => by
    cases e' <;> simp only [alike, Bool.false_eq_true, Bool.and_eq_true, decide_eq_true_eq] at same
    obtain ⟨⟨rfl, first⟩, second⟩ := same
    simp only [tree, tree_of_alike left _ first, tree_of_alike right _ second]
  | .unary _ op operand, e', same => by
    cases e' <;> simp only [alike, Bool.false_eq_true, Bool.and_eq_true, decide_eq_true_eq] at same
    obtain ⟨rfl, inner⟩ := same
    simp only [tree, tree_of_alike operand _ inner]
  | .assign .., e', same | .call .., e', same | .index .., e', same => by
    cases e' <;> simp only [alike, Bool.false_eq_true] at same

/-! ### More variables -/

/-- An expression keeps its value if its variables keep their numbers. -/
theorem eval_mono (more : ∀ name x, env.find? name = some x → env'.find? name = some x) :
    ∀ (e : Expr) {x : Number}, e.eval env = some x → e.eval env' = some x
  | .int .., x, value | .fixed .., x, value => value
  | .var _ name _, x, value => more name x value
  | .binary _ (.word (.arithmetic op)) left right, x, value => by
    obtain ⟨y, first, value⟩ := Option.bind_eq_some_iff.1 value
    obtain ⟨z, second, value⟩ := Option.bind_eq_some_iff.1 value
    rw [eval, eval_mono more left first, eval_mono more right second]
    exact value
  | .binary _ (.word (.shift direction)) left right, x, value => by
    obtain ⟨amount, known, value⟩ := Option.bind_eq_some_iff.1 value
    obtain ⟨y, first, value⟩ := Option.bind_eq_some_iff.1 value
    rw [eval, known, eval_mono more left first]
    exact value
  | .binary _ (.relation r) left right, x, value => by
    obtain ⟨y, first, value⟩ := Option.bind_eq_some_iff.1 value
    obtain ⟨z, second, value⟩ := Option.bind_eq_some_iff.1 value
    rw [eval, eval_mono more left first, eval_mono more right second]
    exact value
  | .binary _ (.logical .and) left right, x, value => by
    obtain ⟨y, first, value⟩ := Option.bind_eq_some_iff.1 value
    rw [eval, eval_mono more left first]
    change (if y.isTrue then _ else _) = _ at value
    change (if y.isTrue then _ else _) = _
    split at value
    · next holds =>
      obtain ⟨z, second, value⟩ := Option.bind_eq_some_iff.1 value
      rw [if_pos holds, eval_mono more right second]
      exact value
    · next fails =>
      rw [if_neg fails]
      exact value
  | .binary _ (.logical .or) left right, x, value => by
    obtain ⟨y, first, value⟩ := Option.bind_eq_some_iff.1 value
    rw [eval, eval_mono more left first]
    change (if y.isTrue then _ else _) = _ at value
    change (if y.isTrue then _ else _) = _
    split at value
    · next holds =>
      rw [if_pos holds]
      exact value
    · next fails =>
      obtain ⟨z, second, value⟩ := Option.bind_eq_some_iff.1 value
      rw [if_neg fails, eval_mono more right second]
      exact value
  | .unary _ .neg operand, x, value | .unary _ .not operand, x, value => by
    obtain ⟨y, inner, value⟩ := Option.bind_eq_some_iff.1 value
    rw [eval, eval_mono more operand inner]
    exact value
  | .unary _ .ref _, x, value | .unary _ .deref _, x, value | .assign .., x, value | .call .., x, value
  | .index .., x, value => nomatch value

/-! ### Expressions with a value -/

/-- Whether an expression computes from some variables and from literals, which are words. It assigns and calls
nothing, and has to do with no memory. -/
def Over (names : String → Prop) : Expr → Prop
  | int _ value | fixed _ value => FitsSigned 32 value
  | var _ name _ => names name
  | binary _ _ left right => left.Over names ∧ right.Over names
  | unary _ .neg operand | unary _ .not operand => operand.Over names
  | _ => False

instance decidableOver [DecidablePred names] : ∀ e : Expr, Decidable (e.Over names)
  | int _ value | fixed _ value => inferInstanceAs (Decidable (FitsSigned 32 value))
  | var _ name _ => inferInstanceAs (Decidable (names name))
  | binary _ _ left right =>
    have := decidableOver left
    have := decidableOver right
    inferInstanceAs (Decidable (left.Over names ∧ right.Over names))
  | unary _ .neg operand | unary _ .not operand => decidableOver operand
  | unary _ .ref _ | unary _ .deref _ | assign .. | call .. | index .. => inferInstanceAs (Decidable False)

/-- Whether all shifts of an expression are by literal amounts. -/
def ShiftsByLiterals : Expr → Prop
  | binary _ (.word (.shift _)) left right => left.ShiftsByLiterals ∧ right.amount?.isSome = true
  | binary _ _ left right => left.ShiftsByLiterals ∧ right.ShiftsByLiterals
  | unary _ .neg operand | unary _ .not operand => operand.ShiftsByLiterals
  | _ => True

/-- Whether an expression comes to divide by zero. A connective looks at its right operand only where the left one
does not decide. -/
def dividesByZero (env : Env) : Expr → Bool
  | binary _ (.word (.arithmetic op)) left right =>
    left.dividesByZero env || right.dividesByZero env ||
      ((left.eval env).any fun x => (right.eval env).any fun y => Number.dividesByZero op x y)
  | binary _ (.word (.shift _)) left _ => left.dividesByZero env
  | binary _ (.relation _) left right => left.dividesByZero env || right.dividesByZero env
  | binary _ (.logical .and) left right =>
    left.dividesByZero env || ((left.eval env).any Number.isTrue && right.dividesByZero env)
  | binary _ (.logical .or) left right =>
    left.dividesByZero env || ((left.eval env).any (fun x => !x.isTrue) && right.dividesByZero env)
  | unary _ _ operand => operand.dividesByZero env
  | _ => false

theorem isPure_of_over : ∀ e : Expr, e.Over names → e.isPure = true
  | .int .., _ | .fixed .., _ | .var .., _ => rfl
  | .binary _ _ left right, within => by
    rw [isPure, isPure_of_over left within.1, isPure_of_over right within.2]
    rfl
  | .unary _ .neg operand, within | .unary _ .not operand, within => by
    rw [isPure]
    exact isPure_of_over operand within
  | .unary _ .ref _, within | .unary _ .deref _, within | .assign .., within | .call .., within | .index .., within =>
    nomatch within

/-- An expression has a value if its variables have numbers and it does not divide by zero. -/
theorem eval_isSome (known : ∀ name, names name → (env.find? name).isSome = true) :
    ∀ e : Expr, e.Over names → e.ShiftsByLiterals → e.dividesByZero env = false → ∃ x, e.eval env = some x
  | .int .., within, _, _ | .fixed .., within, _, _ => ⟨_, if_pos within⟩
  | .var _ name _, within, _, _ => Option.isSome_iff_exists.1 (known name within)
  | .binary _ (.word (.arithmetic op)) left right, within, shifts, defined => by
    simp only [dividesByZero, Bool.or_eq_false_iff] at defined
    obtain ⟨x, first⟩ := eval_isSome known left within.1 shifts.1 defined.1.1
    obtain ⟨y, second⟩ := eval_isSome known right within.2 shifts.2 defined.1.2
    have whole : (Number.apply op x y).isSome = true := Number.apply_isSome (by simpa [first, second] using defined.2)
    rw [eval, first, second]
    exact Option.isSome_iff_exists.1 whole
  | .binary _ (.word (.shift direction)) left right, within, shifts, defined => by
    obtain ⟨x, first⟩ := eval_isSome known left within.1 shifts.1 defined
    obtain ⟨amount, literal⟩ := Option.isSome_iff_exists.1 shifts.2
    rw [eval, first, literal]
    exact ⟨_, rfl⟩
  | .binary _ (.relation r) left right, within, shifts, defined => by
    rw [dividesByZero, Bool.or_eq_false_iff] at defined
    obtain ⟨x, first⟩ := eval_isSome known left within.1 shifts.1 defined.1
    obtain ⟨y, second⟩ := eval_isSome known right within.2 shifts.2 defined.2
    rw [eval, first, second]
    exact ⟨_, rfl⟩
  | .binary _ (.logical .and) left right, within, shifts, defined => by
    rw [dividesByZero, Bool.or_eq_false_iff] at defined
    obtain ⟨x, first⟩ := eval_isSome known left within.1 shifts.1 defined.1
    cases holds : x.isTrue with
    | true =>
      obtain ⟨y, second⟩ := eval_isSome known right within.2 shifts.2 (by simpa [first, holds] using defined.2)
      exact ⟨.ofBool y.isTrue, by simp [eval, first, holds, second]⟩
    | false => exact ⟨.ofBool false, by simp [eval, first, holds]⟩
  | .binary _ (.logical .or) left right, within, shifts, defined => by
    rw [dividesByZero, Bool.or_eq_false_iff] at defined
    obtain ⟨x, first⟩ := eval_isSome known left within.1 shifts.1 defined.1
    cases holds : x.isTrue with
    | true => exact ⟨.ofBool true, by simp [eval, first, holds]⟩
    | false =>
      obtain ⟨y, second⟩ := eval_isSome known right within.2 shifts.2 (by simpa [first, holds] using defined.2)
      exact ⟨.ofBool y.isTrue, by simp [eval, first, holds, second]⟩
  | .unary _ .neg operand, within, shifts, defined | .unary _ .not operand, within, shifts, defined => by
    obtain ⟨x, inner⟩ := eval_isSome known operand within shifts defined
    rw [eval, inner]
    exact ⟨_, rfl⟩
  | .unary _ .ref _, within, _, _ | .unary _ .deref _, within, _, _ | .assign .., within, _, _ | .call .., within, _, _
  | .index .., within, _, _ => nomatch within

/-! ### Conditions -/

/-- Whether an expression is a condition: a relation, a connective or a negation of truth. -/
def isCondition : Expr → Bool
  | binary _ (.relation _) _ _ => true
  | binary _ (.logical _) _ _ => true
  | unary _ .not _ => true
  | _ => false

/-- The value of a condition is one or zero. -/
theorem eval_of_isCondition {e : Expr} (condition : e.isCondition = true) (value : e.eval env = some x) :
    x = .ofBool x.isTrue := by
  match e, condition with
  | .binary _ (.relation _) left right, _ =>
    obtain ⟨y, -, value⟩ := Option.bind_eq_some_iff.1 value
    obtain ⟨z, -, value⟩ := Option.bind_eq_some_iff.1 value
    cases value
    rw [Number.isTrue_ofBool]
  | .binary _ (.logical .and) left right, _ =>
    obtain ⟨y, -, value⟩ := Option.bind_eq_some_iff.1 value
    split at value
    · obtain ⟨z, -, value⟩ := Option.bind_eq_some_iff.1 value
      cases value
      rw [Number.isTrue_ofBool]
    · cases value
      rfl
  | .binary _ (.logical .or) left right, _ =>
    obtain ⟨y, -, value⟩ := Option.bind_eq_some_iff.1 value
    split at value
    · cases value
      rfl
    · obtain ⟨z, -, value⟩ := Option.bind_eq_some_iff.1 value
      cases value
      rw [Number.isTrue_ofBool]
  | .unary _ .not operand, _ =>
    obtain ⟨y, -, value⟩ := Option.bind_eq_some_iff.1 value
    cases value
    rw [Number.isTrue_ofBool]

end Expr

end SmallC
