import SmallC.Proofs.Generation.Deciding
import SmallC.Proofs.Meaning.Defined

/-!
Shifts in expressions that compile. Code is only generated for an expression if all its shifts are by literal
amounts: whatever way the expression is compiled, every operand is gone through but the literals.
-/
namespace SmallC

/-- Code that is only generated where shifts are by literal amounts. -/
structure LiteralShifts (c : Context) (code : Code) : Prop where
  value : ∀ {p p' : Progress} {v : String}, code.value.exec c p = .ok (v, p') → code.expr.ShiftsByLiterals
  branch : ∀ {p p' : Progress} {target : String}, (code.branch target).exec c p = .ok ((), p') →
    code.expr.ShiftsByLiterals

namespace Gen

section

variable {c : Context} {p p' : Progress} {left right code : Code} {e : Expr} {v target : String} {a b : Reg}

/-! ### Operands -/

theorem arithmetic_shifts {op : ArithmeticOp} (first : LiteralShifts c left) (second : LiteralShifts c right)
    (ran : (arithmetic op left right).exec c p = .ok (v, p')) :
    left.expr.ShiftsByLiterals ∧ right.expr.ShiftsByLiterals := by
  obtain ⟨l, p₁, computed, ran⟩ := exec_bind_ok ran
  obtain ⟨kind, p₂, noted, ran⟩ := exec_bind_ok ran
  refine ⟨first.value computed, ?_⟩
  split at ran
  · next n known =>
    -- only literals are immediates
    have known := (Option.filter_eq_some_iff.1 known).1
    cases literal : right.expr with
    | int | fixed => trivial
    | _ =>
      rw [literal] at known
      cases op <;> cases known
  · obtain ⟨r, p₃, computed', ran⟩ := exec_bind_ok ran
    exact second.value computed'

theorem relationOperands_shifts (first : LiteralShifts c left) (second : LiteralShifts c right)
    (ran : (relationOperands left right).exec c p = .ok ((a, b), p')) :
    left.expr.ShiftsByLiterals ∧ right.expr.ShiftsByLiterals := by
  obtain ⟨l, p₁, computed, ran⟩ := exec_bind_ok ran
  refine ⟨first.value computed, ?_⟩
  split at ran
  · next line zero =>
    rw [zero]
    trivial
  · obtain ⟨r, p₂, computed', ran⟩ := exec_bind_ok ran
    exact second.value computed'

theorem conditionRegister_shifts (operand : LiteralShifts c code) (ran : (conditionRegister code).exec c p = .ok (a, p')) :
    code.expr.ShiftsByLiterals := by
  obtain ⟨v, p₁, computed, ran⟩ := exec_bind_ok ran
  exact operand.value computed

/-! ### Values and branches -/

theorem shifts_ofValue {value : Gen String}
    (computes : ∀ {p p' v}, value.exec c p = .ok (v, p') → e.ShiftsByLiterals) : LiteralShifts c (.ofValue e value) := by
  have own : ∀ {branch : String → Gen Unit} {p p' v}, (Code.value ⟨e, some <$> value, branch⟩).exec c p = .ok (v, p') →
      e.ShiftsByLiterals := fun ran => by
    rw [value_of_result rfl] at ran
    exact computes ran
  refine ⟨own, fun ran => ?_⟩
  obtain ⟨r, p₁, ran, -⟩ := exec_bind_ok ran
  obtain ⟨v, p₂, ran, -⟩ := exec_bind_ok ran
  exact own ran

/-- The value of a condition is what its branch decides. -/
theorem decided_branches {branch : String → Gen Unit} (ran : (decided branch).exec c p = .ok (v, p')) :
    ∃ target p₁ p₂, (branch target).exec c p₁ = .ok ((), p₂) := by
  obtain ⟨temp, p₁, -, ran⟩ := exec_bind_ok ran
  obtain ⟨yes, p₂, -, ran⟩ := exec_bind_ok ran
  obtain ⟨done, p₃, -, ran⟩ := exec_bind_ok ran
  obtain ⟨⟨⟩, p₄, ran, -⟩ := exec_bind_ok ran
  exact ⟨_, _, _, ran⟩

theorem shifts_ofBranch {branch : String → Gen Unit}
    (decides : ∀ {p p' target}, (branch target).exec c p = .ok ((), p') → e.ShiftsByLiterals) :
    LiteralShifts c (.ofBranch e branch) := by
  refine ⟨fun ran => ?_, decides⟩
  rw [value_of_result rfl] at ran
  obtain ⟨target, p₁, p₂, ran⟩ := decided_branches ran
  exact decides ran

theorem relation_shifts (r : Relation) (line : Nat) (first : LiteralShifts c left) (second : LiteralShifts c right) :
    LiteralShifts c ⟨.binary line (.relation r) left.expr right.expr, some <$> relationValue r left right,
      branchRelation r left right⟩ := by
  have branches : ∀ {p p' target}, (branchRelation r left right target).exec c p = .ok ((), p') →
      left.expr.ShiftsByLiterals ∧ right.expr.ShiftsByLiterals := fun ran => by
    obtain ⟨⟨a, b⟩, p₁, operands, -⟩ := exec_bind_ok ran
    exact relationOperands_shifts first second operands
  refine ⟨fun ran => ?_, branches⟩
  rw [value_of_result rfl] at ran
  cases r with
  | eq | ne =>
    obtain ⟨target, p₁, p₂, ran⟩ := decided_branches ran
    exact branches ran
  | lt | le | gt | ge =>
    obtain ⟨⟨a, b⟩, p₁, operands, -⟩ := exec_bind_ok ran
    exact relationOperands_shifts first second operands

theorem and_shifts (line : Nat) (first : LiteralShifts c left) (second : LiteralShifts c right) :
    LiteralShifts c (.ofBranch (.binary line (.logical .and) left.expr right.expr) (branchBoth left right)) := by
  apply shifts_ofBranch
  intro p p' target ran
  obtain ⟨label, p₁, -, ran⟩ := exec_bind_ok ran
  obtain ⟨skip, p₂, -, ran⟩ := exec_bind_ok ran
  obtain ⟨⟨⟩, p₃, one, ran⟩ := exec_bind_ok ran
  obtain ⟨⟨⟩, p₄, -, ran⟩ := exec_bind_ok ran
  obtain ⟨⟨⟩, p₅, -, ran⟩ := exec_bind_ok ran
  obtain ⟨⟨⟩, p₆, two, -⟩ := exec_bind_ok ran
  exact ⟨first.branch one, second.branch two⟩

theorem or_shifts (line : Nat) (first : LiteralShifts c left) (second : LiteralShifts c right) :
    LiteralShifts c (.ofBranch (.binary line (.logical .or) left.expr right.expr) (branchEither left right)) := by
  apply shifts_ofBranch
  intro p p' target ran
  obtain ⟨⟨⟩, p₁, one, two⟩ := exec_bind_ok ran
  exact ⟨first.branch one, second.branch two⟩

theorem not_shifts (line : Nat) (operand : LiteralShifts c code) :
    LiteralShifts c (.ofBranch (.unary line .not code.expr) (branchNot code)) := by
  apply shifts_ofBranch
  intro p p' target ran
  obtain ⟨r, p₁, ran, -⟩ := exec_bind_ok ran
  exact conditionRegister_shifts operand ran

end

/-- By induction on the expression, its code is only generated if its shifts are by literals. -/
theorem code_shifts (c : Context) (calls : CallCode) : ∀ e : Expr, LiteralShifts c (code calls e)
  | .int .. | .fixed .. | .var .. => by
    rw [code]
    exact shifts_ofValue fun _ => trivial
  | .binary line op left right => by
    have left' := code_shifts c calls left
    have right' := code_shifts c calls right
    rcases op with (op | direction) | r | (_ | _)
    · rw [code]
      refine shifts_ofValue fun ran => ?_
      have both := arithmetic_shifts left' right' ran
      rwa [expr_code, expr_code] at both
    · rw [code]
      refine shifts_ofValue fun ran => ?_
      obtain ⟨amount, p₁, amounts, ran⟩ := exec_bind_ok ran
      obtain ⟨-, -, known⟩ := exec_shiftAmount amounts
      obtain ⟨l, p₂, computed, -⟩ := exec_bind_ok ran
      have operand := left'.value computed
      rw [expr_code] at operand
      exact ⟨operand, by rw [known]; rfl⟩
    · have shifts := relation_shifts r line left' right'
      rw [expr_code, expr_code] at shifts
      rw [code]
      exact shifts
    · have shifts := and_shifts line left' right'
      rw [expr_code, expr_code] at shifts
      rw [code]
      exact shifts
    · have shifts := or_shifts line left' right'
      rw [expr_code, expr_code] at shifts
      rw [code]
      exact shifts
  | .unary line .neg operand => by
    have inner := code_shifts c calls operand
    rw [code]
    refine shifts_ofValue fun ran => ?_
    obtain ⟨v, p₁, computed, -⟩ := exec_bind_ok ran
    have shifts := inner.value computed
    rwa [expr_code] at shifts
  | .unary line .not operand => by
    have shifts := not_shifts line (code_shifts c calls operand)
    rw [expr_code] at shifts
    rw [code]
    exact shifts
  | .unary _ .ref _ | .unary _ .deref _ | .assign .. | .index .. => by
    rw [code]
    exact shifts_ofValue fun _ => trivial
  | .call .. => by
    rw [code]
    exact ⟨fun _ => trivial, fun _ => trivial⟩

end Gen

end SmallC
