import SmallC.Generation.Source

/-!
Names. A source gives its variables names that start with a letter or an underscore and are no words of the
language. So none of them is the name of a temporary or of the variable that takes the result of an
expansion, and what the generator adds to a program never meets what the source names.
-/
namespace SmallC

/-- Whether a name has the form of those of temporaries. -/
def isTempName (name : String) : Bool := name.toList.head? = some '%'

theorem isTempName_tempName (n : Nat) : isTempName (Alloc.tempName n) = true := by
  simp [isTempName, Alloc.tempName, String.toList_append, toString]

theorem isTempName_resultName : isTempName resultName = false := by decide

/-- A name that a source can give to a variable: it is neither that of a temporary nor that of the variable
that takes the result of an expansion. -/
structure SourceName (name : String) : Prop where
  named : isTempName name = false
  other : name ≠ resultName

/-- A name that no generated label has. -/
def Unlabelled (name : String) : Prop := ∀ n, name ≠ Draft.labelName n

theorem head?_labelName (n : Nat) : (Draft.labelName n).toList.head? = some '.' := by
  simp [Draft.labelName, String.toList_append, toString]

theorem labelName_inj {k n : Nat} (same : Draft.labelName k = Draft.labelName n) : k = n := by
  have digits := congrArg String.toList same
  simp only [Draft.labelName, String.toList_append, Nat.toList_repr, toString] at digits
  have digits := List.append_cancel_left digits
  rw [← Nat.ofDigitChars_ten_toDigits (n := k), digits, Nat.ofDigitChars_ten_toDigits]

namespace Expr

mutual

/-- Whether a source can name the variables of an expression so. -/
def Proper : Expr → Prop
  | int .. => True
  | fixed .. => True
  | var _ name _ => SourceName name
  | binary _ _ left right => left.Proper ∧ right.Proper
  | assign _ _ target value => target.Proper ∧ value.Proper
  | unary _ _ operand => operand.Proper
  | call _ _ args => AllProper args
  | index _ name _ indices => SourceName name ∧ AllProper indices

/-- Whether a source can name the variables of several expressions so. -/
def AllProper : List Expr → Prop
  | [] => True
  | e :: rest => e.Proper ∧ AllProper rest

end

end Expr

namespace Stmt

mutual

/-- Whether a source can name the variables of a statement inside of a function or a block so. No
function is compiled there. -/
def Proper : Stmt → Prop
  | expr e => e.Proper
  | define _ _ _ value => ∀ e, value = some e → e.Proper
  | array _ _ _ _ init => Expr.AllProper init
  | function _ _ _ _ body _ => body = none
  | conditional _ branches (some otherwise) => BranchesProper branches ∧ AllProper otherwise
  | conditional _ branches none => BranchesProper branches
  | whileLoop _ cond body => cond.Proper ∧ AllProper body
  | forLoop _ (some init) cond step body =>
    init.Proper ∧ (∀ e, cond = some e → e.Proper) ∧ (∀ e, step = some e → e.Proper) ∧ AllProper body
  | forLoop _ none cond step body =>
    (∀ e, cond = some e → e.Proper) ∧ (∀ e, step = some e → e.Proper) ∧ AllProper body
  | returns _ value => ∀ e, value = some e → e.Proper
  | breaks _ => True
  | continues _ => True
  | asm .. => True
  | group _ body => AllProper body

/-- Whether a source can name the variables of several statements so. -/
def AllProper : List Stmt → Prop
  | [] => True
  | s :: rest => s.Proper ∧ AllProper rest

/-- Whether a source can name the variables of branches so. -/
def BranchesProper : List Branch → Prop
  | [] => True
  | .mk cond body :: rest => cond.Proper ∧ AllProper body ∧ BranchesProper rest

end

end Stmt

/-- Whether a source can name the variables of a function so. -/
structure Function.Proper (f : Function) : Prop where
  params : ∀ param ∈ f.params, SourceName param.name
  body : ∀ body, f.body = some body → Stmt.AllProper body

/-- Whether a source can name the variables of a statement of the top level so. -/
def Stmt.RootProper (s : Stmt) : Prop :=
  match s.function? with
  | some f => f.2.Proper
  | none => s.Proper

/-- Whether all functions of a source are proper. -/
def Context.Proper (c : Context) : Prop := ∀ name f, (name, f) ∈ c.functions → f.Proper

end SmallC
