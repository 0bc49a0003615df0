import SmallC.Machine.Word
import SmallC.Tree.Stmt
import SmallC.Generation.Gen

/-!
What structured programs mean, apart from how they are compiled. A number is a word together with how it is
read; arithmetic wraps, and an operation on numbers of two kinds brings them to one scale first. Division by
zero has no meaning, nor has what the programs at hand do not contain: calls, pointers and arrays.

A statement changes the values of variables in nested scopes and may leave the loop around it. Loops are bounded
in how often they go round, so that everything that ends has a meaning from some bound on.
-/
namespace SmallC

/-- A number: a word, and how it is read. -/
structure Number where
  kind : NumberKind
  word : Word
  deriving DecidableEq, Repr

/-- What an operator makes of two words. -/
def ArithmeticOp.onWords (op : ArithmeticOp) (a b : Word) : Option Word :=
  match op with
  | .add => some (a + b)
  | .sub => some (a - b)
  | .mul => some (a * b)
  | .div => if b = 0 then none else some (a.sdiv b)
  | .mod => if b = 0 then none else some (a.srem b)
  | .bitAnd => some (a &&& b)
  | .bitOr => some (a ||| b)
  | .xor => some (a ^^^ b)

/-- Whether a relation holds between two words. -/
def Relation.onWords (r : Relation) (a b : Word) : Bool :=
  match r with
  | .eq => a = b
  | .ne => a ≠ b
  | .lt => a.slt b
  | .le => a.sle b
  | .gt => b.slt a
  | .ge => b.sle a

/-- A word shifted in a direction; to the right the sign is copied. -/
def ShiftDirection.onWord (direction : ShiftDirection) (a : Word) (amount : Nat) : Word :=
  match direction with
  | .left => a <<< amount
  | .right => a.sshiftRight amount

namespace Number

/-- A truth value as a number. -/
def ofBool (b : Bool) : Number := ⟨.int, if b then 1 else 0⟩

/-- Bits by which each factor of a fixed-point product is scaled down. -/
def halfFraction : Nat := 8

/-- A number as one of a kind. -/
def convert (x : Number) (kind : NumberKind) : Number :=
  match x.kind, kind with
  | .int, .fixed => ⟨.fixed, x.word <<< FixedPoint.fractionBits⟩
  | .fixed, .int => ⟨.int, x.word.sshiftRight FixedPoint.fractionBits⟩
  | _, _ => x

theorem convert_self (x : Number) : x.convert x.kind = x := by
  obtain ⟨kind, w⟩ := x
  cases kind <;> rfl

/-- An operation on two numbers. A product or quotient with one integer factor needs no scaling. -/
def apply (op : ArithmeticOp) (x y : Number) : Option Number :=
  match op, x.kind, y.kind with
  | op, .int, .int => (op.onWords x.word y.word).map fun w => ⟨.int, w⟩
  | .mul, .fixed, .fixed =>
    some ⟨.fixed, x.word.sshiftRight halfFraction * y.word.sshiftRight halfFraction⟩
  | .mul, _, _ => some ⟨.fixed, x.word * y.word⟩
  | .div, .fixed, .int => (ArithmeticOp.div.onWords x.word y.word).map fun w => ⟨.fixed, w⟩
  | .div, _, .fixed =>
    (ArithmeticOp.div.onWords (x.convert .fixed).word (y.word.sshiftRight halfFraction)).map
      fun w : Word => ⟨.fixed, w <<< halfFraction⟩
  | op, _, _ =>
    (op.onWords (x.convert .fixed).word (y.convert .fixed).word).map fun w => ⟨.fixed, w⟩

theorem apply_ints (op : ArithmeticOp) (a b : Word) :
    apply op ⟨.int, a⟩ ⟨.int, b⟩ = (op.onWords a b).map fun w => ⟨.int, w⟩ := by
  cases op <;> rfl

/-- Products and quotients apart, an operation that involves a fixed-point number is one on two of them. -/
theorem apply_fixed {op : ArithmeticOp} {x y : Number} (mixed : ¬ (x.kind = .int ∧ y.kind = .int))
    (noMul : op ≠ .mul) (noDiv : op ≠ .div) : apply op x y =
      (op.onWords (x.convert .fixed).word (y.convert .fixed).word).map fun w => ⟨.fixed, w⟩ := by
  obtain ⟨kx, a⟩ := x
  obtain ⟨ky, b⟩ := y
  cases op with
  | mul => exact absurd rfl noMul
  | div => exact absurd rfl noDiv
  | _ =>
    cases kx <;> cases ky <;> simp only [and_self, not_true_eq_false, apply] at mixed ⊢

/-- The result of an operation is a fixed-point number if one of the operands is one. -/
theorem kind_of_apply {op : ArithmeticOp} {x y z : Number} (value : apply op x y = some z) :
    z.kind = if x.kind = .fixed ∨ y.kind = .fixed then .fixed else .int := by
  obtain ⟨kx, a⟩ := x
  obtain ⟨ky, b⟩ := y
  cases kx <;> cases ky <;> cases op <;>
    simp only [apply, Option.map_eq_some_iff, Option.some.injEq] at value <;>
    (obtain ⟨w, -, rfl⟩ := value; rfl)

/-- Two numbers at one scale. -/
def common (x y : Number) : Number × Number :=
  if x.kind = .fixed ∨ y.kind = .fixed then (x.convert .fixed, y.convert .fixed) else (x, y)

/-- Whether a relation holds between two numbers. -/
def relates (r : Relation) (x y : Number) : Bool := r.onWords (common x y).1.word (common x y).2.word

/-- Whether a number counts as true. -/
def isTrue (x : Number) : Bool := x.word ≠ 0

theorem isTrue_ofBool (b : Bool) : (ofBool b).isTrue = b := by
  cases b <;> rfl

end Number

/-- The variables in scope with their values, the innermost scope first. -/
abbrev Env := List (List (String × Number))

namespace Env

/-- The value of a variable. -/
def find? (env : Env) (name : String) : Option Number := env.findSome? fun scope => scope.lookup name

/-- Gives a variable another value, in the innermost scope that has it. -/
def set (name : String) (x : Number) : Env → Env
  | [] => []
  | scope :: outer =>
    if (scope.lookup name).isSome then
      scope.map (fun entry => if entry.1 = name then (name, x) else entry) :: outer
    else scope :: set name x outer

/-- Adds a variable to the innermost scope, which must not have it. -/
def add? (name : String) (x : Number) : Env → Option Env
  | [] => none
  | scope :: outer =>
    if (scope.lookup name).isSome then none else some (((name, x) :: scope) :: outer)

end Env

namespace Expr

/-- The number that a literal stands for, which must be a word. -/
def ofLiteral (kind : NumberKind) (value : Int) : Option Number :=
  if FitsSigned 32 value then some ⟨kind, Word.ofInt value⟩ else none

/-- Whether an expression only computes: it assigns and calls nothing, and has to do with no memory. -/
def isPure : Expr → Bool
  | int .. => true
  | fixed .. => true
  | var .. => true
  | binary _ _ left right => left.isPure && right.isPure
  | unary _ .neg operand => operand.isPure
  | unary _ .not operand => operand.isPure
  | _ => false

/-- Whether an expression assigns to a variable what only has to be computed. -/
def isAssignment : Expr → Bool
  | assign _ _ (var ..) value => value.isPure
  | _ => false

/-- The amount of a shift, which must be a literal. -/
def amount? : Expr → Option Nat
  | int _ amount => if 0 ≤ amount ∧ amount < 32 then some amount.toNat else none
  | _ => none

/-- The value of an expression. A connective looks at its right operand only where the left one does not
decide. -/
def eval (env : Env) : Expr → Option Number
  | int _ value => ofLiteral .int value
  | fixed _ value => ofLiteral .fixed value
  | var _ name _ => env.find? name
  | binary _ (.word (.arithmetic op)) left right => do
    let x ← left.eval env
    let y ← right.eval env
    Number.apply op x y
  | binary _ (.word (.shift direction)) left right => do
    let amount ← right.amount?
    let x ← left.eval env
    return ⟨x.kind, direction.onWord x.word amount⟩
  | binary _ (.relation r) left right => do
    let x ← left.eval env
    let y ← right.eval env
    return .ofBool (Number.relates r x y)
  | binary _ (.logical .and) left right => do
    let x ← left.eval env
    if x.isTrue then return .ofBool (← right.eval env).isTrue else return .ofBool false
  | binary _ (.logical .or) left right => do
    let x ← left.eval env
    if x.isTrue then return .ofBool true else return .ofBool (← right.eval env).isTrue
  | unary _ .neg operand => do
    let x ← operand.eval env
    return ⟨x.kind, -x.word⟩
  | unary _ .not operand => do
    let x ← operand.eval env
    return .ofBool !x.isTrue
  | _ => none

end Expr

/-- How a statement ends: it goes on to the next, or leaves the loop around it or its round of it. -/
inductive Ending where
  | onward | broken | continued
  deriving DecidableEq, Repr

/-- One thing after the other, unless the first leaves the loop around it or its round of it. -/
def Env.andThen (first : Option (Ending × Env)) (rest : Env → Option (Ending × Env)) : Option (Ending × Env) :=
  first.bind fun done => if done.1 = .onward then rest done.2 else some done

/-- What happens in a scope of its own. -/
def Env.scoped (body : Env → Option (Ending × Env)) (env : Env) : Option (Ending × Env) :=
  (body ([] :: env)).map fun done => (done.1, done.2.tail)

/-- A loop that tests before each round, with a bound on how often it does. -/
def Env.iterate (test : Env → Option Bool) (round : Env → Option (Ending × Env)) (step : Env → Option Env) :
    Nat → Env → Option (Ending × Env)
  | 0, _ => none
  | bound + 1, env =>
    (test env).bind fun holds =>
      if holds then
        (round env).bind fun done =>
          if done.1 = .broken then some (.onward, done.2)
          else (step done.2).bind (Env.iterate test round step bound)
      else some (.onward, env)

namespace Expr

/-- The number that an assignment, compounded with an operator or plain, makes of an old one. -/
def assigned (env : Env) (op : Option WordOp) (old : Number) (value : Expr) : Option Number :=
  match op with
  | none => value.eval env
  | some (.arithmetic op) => (value.eval env).bind fun x => Number.apply op old x
  | some (.shift direction) => value.amount?.map fun amount => ⟨old.kind, direction.onWord old.word amount⟩

/-- What an assignment to a variable does to variables. The variable keeps its kind. -/
def assigns (env : Env) : Expr → Option Env
  | assign _ op (var _ name _) value => do
    let old ← env.find? name
    let new ← assigned env op old value
    return env.set name (new.convert old.kind)
  | _ => none

/-- Whether a condition holds; one that is left out does. -/
def tests (cond : Option Expr) (env : Env) : Option Bool :=
  match cond with
  | some cond => (cond.eval env).map Number.isTrue
  | none => some true

/-- What the step of a loop does to variables, if it has one. -/
def steps (step : Option Expr) (env : Env) : Option Env :=
  match step with
  | some step => step.assigns env
  | none => some env

end Expr

namespace Stmt

mutual

/-- Whether a statement is made of definitions of numbers with their values, of assignments, blocks, conditionals
and loops, and of what leaves a loop or its round. -/
def isStructured : Stmt → Bool
  | expr e => e.isAssignment
  | define _ _ ty (some value) => ty.refs = 0 && value.isPure
  | conditional _ branches (some otherwise) => areStructuredBranches branches && areStructured otherwise
  | conditional _ branches none => areStructuredBranches branches
  | whileLoop _ cond body => cond.isPure && areStructured body
  | forLoop _ (some init) cond step body =>
    init.isStructured && cond.all Expr.isPure && step.all Expr.isAssignment && areStructured body
  | forLoop _ none cond step body => cond.all Expr.isPure && step.all Expr.isAssignment && areStructured body
  | breaks _ => true
  | continues _ => true
  | group _ body => areStructured body
  | _ => false

/-- Whether several statements are structured. -/
def areStructured : List Stmt → Bool
  | [] => true
  | s :: rest => s.isStructured && areStructured rest

/-- Whether several branches are structured. -/
def areStructuredBranches : List Branch → Bool
  | [] => true
  | .mk cond body :: rest => cond.isPure && areStructured body && areStructuredBranches rest

end

mutual

/-- What a statement does to variables, and how it ends, given a bound on how often a loop goes round. -/
def runs (bound : Nat) : Stmt → Env → Option (Ending × Env)
  | expr e, env => (e.assigns env).map fun after => (.onward, after)
  | define _ name ty (some value), env => do
    let x ← value.eval env
    let after ← env.add? name (x.convert ty.kind)
    return (.onward, after)
  | conditional _ branches (some otherwise), env =>
    runsFirst bound branches env fun env => Env.scoped (runsAll bound otherwise) env
  | conditional _ branches none, env => runsFirst bound branches env fun env => some (.onward, env)
  | whileLoop _ cond body, env =>
    Env.iterate (Expr.tests (some cond)) (Env.scoped (runsAll bound body)) some bound env
  | forLoop _ (some init) cond step body, env =>
    Env.scoped (fun env => Env.andThen (init.runs bound env) (Env.iterate (Expr.tests cond)
      (Env.scoped (runsAll bound body)) (Expr.steps step) bound)) env
  | forLoop _ none cond step body, env =>
    Env.scoped (Env.iterate (Expr.tests cond) (Env.scoped (runsAll bound body)) (Expr.steps step) bound) env
  | breaks _, env => some (.broken, env)
  | continues _, env => some (.continued, env)
  | group _ body, env => Env.scoped (runsAll bound body) env
  | _, _ => none

/-- What several statements do, one after the other. -/
def runsAll (bound : Nat) : List Stmt → Env → Option (Ending × Env)
  | [], env => some (.onward, env)
  | s :: rest, env => Env.andThen (s.runs bound env) (runsAll bound rest)

/-- What the first branch whose condition holds does, or else something else. -/
def runsFirst (bound : Nat) : List Branch → Env → (Env → Option (Ending × Env)) → Option (Ending × Env)
  | [], env, otherwise => otherwise env
  | .mk cond body :: rest, env, otherwise => do
    let x ← cond.eval env
    if x.isTrue then Env.scoped (runsAll bound body) env else runsFirst bound rest env otherwise

end

end Stmt

end SmallC
