import SmallC.Generation.Call

/-!
How expressions compile, given how calls do.
-/
namespace SmallC

/-- Code of an expression that is computed as a value. -/
def Code.ofResult (e : Expr) (result : Gen (Option String)) : Code where
  expr := e
  result := result
  branch := Gen.branchValue ⟨e, result, fun _ => return⟩

/-- Code of an expression that always has a value. -/
def Code.ofValue (e : Expr) (value : Gen String) : Code := Code.ofResult e (some <$> value)

/-- Code of a condition that is decided by branches. -/
def Code.ofBranch (e : Expr) (branch : String → Gen Unit) : Code :=
  ⟨e, some <$> Gen.decided branch, branch⟩

namespace Gen

/-- Reads a variable. -/
def readVariable (line : Nat) (name : String) : Gen String := do
  if ← look fun a => a.isDefined name then return name
  match ← function? name with
  | some _ => fail line (.functionNotVariable name)
  | none => fail line (.undefinedName name)

mutual

/-- The code of an expression. -/
def code (calls : CallCode) : Expr → Code
  | .int line value => .ofValue (.int line value) (literal value .int)
  | .fixed line value => .ofValue (.fixed line value) (literal value .fixed)
  | .var line name n => .ofValue (.var line name n) (readVariable line name)
  | .binary line (.word (.arithmetic op)) left right =>
    .ofValue (.binary line (.word (.arithmetic op)) left right)
      (arithmetic op (code calls left) (code calls right))
  | .binary line (.word (.shift direction)) left right =>
    let whole := .binary line (.word (.shift direction)) left right
    .ofValue whole (shift whole direction (code calls left) right)
  | .binary line (.relation r) left right =>
    ⟨.binary line (.relation r) left right,
      some <$> relationValue r (code calls left) (code calls right),
      branchRelation r (code calls left) (code calls right)⟩
  | .binary line (.logical .and) left right =>
    .ofBranch (.binary line (.logical .and) left right)
      (branchBoth (code calls left) (code calls right))
  | .binary line (.logical .or) left right =>
    .ofBranch (.binary line (.logical .or) left right)
      (branchEither (code calls left) (code calls right))
  | .assign line op target value =>
    let whole := .assign line op target value
    .ofValue whole (assign whole target op (assignee calls target) (code calls value))
  | .unary line .neg operand => .ofValue (.unary line .neg operand) (negate (code calls operand))
  | .unary line .ref operand =>
    .ofValue (.unary line .ref operand) (addressOf (.unary line .ref operand) operand)
  | .unary line .deref operand =>
    .ofValue (.unary line .deref operand) (dereference (.unary line .deref operand) operand)
  | .unary line .not operand =>
    .ofBranch (.unary line .not operand) (branchNot (code calls operand))
  | .call line name args => .ofResult (.call line name args) (calls line name (codes calls args))
  | .index line name n indices =>
    .ofValue (.index line name n indices) (readElement line name (codes calls indices))

/-- The code of several expressions. -/
def codes (calls : CallCode) : List Expr → List Code
  | [] => []
  | e :: rest => code calls e :: codes calls rest

/-- What an assignment with a given target writes to. -/
def assignee (calls : CallCode) : Expr → Assignee
  | .var line name n => .variable name (.ofValue (.var line name n) (readVariable line name))
  | .unary _ .deref operand => .pointed operand
  | .index _ name _ indices => .element name (codes calls indices)
  | _ => .other

end

/-- The variable assigned to is read as any other is. -/
theorem assignee_var (calls : CallCode) (line : Nat) (name : String) (n : Nat) :
    assignee calls (.var line name n) = .variable name (code calls (.var line name n)) := by
  rw [assignee, code]

end Gen

end SmallC
