import SmallC.Generation.Expression
import SmallC.Proofs.Generation.Calls

/-!
Expressions. By induction on the expression, its code leaves behind its result alone, given that calls do.
-/
namespace SmallC

namespace Expr

theorem Proper.named {e : Expr} (proper : e.Proper) : e.Named := by
  intro name is
  cases e with
  | var =>
    cases is
    rw [Proper] at proper
    exact proper.named
  | _ => cases is

end Expr

namespace Gen

open Allocator

variable {c : Context} {calls : CallCode}

theorem readVariable_yields (line : Nat) {name : String} (named : isTempName name = false) :
    Yields c (readVariable line name) := by
  intro s _
  refine (look_stays _).bind fun _ => .ite (fun _ => ?_) fun _ => ?_
  · exact .pure fun a before => (congrArg (At · a) (Shape.holding_named named)).mpr before
  · refine (function?_stays name).bind fun f => .given fun _ => ?_
    cases f with
    | some f => exact .fail _ _
    | none => exact .fail _ _

theorem variable_tidy (line : Nat) {name : String} (n : Nat) (named : isTempName name = false) :
    (code calls (.var line name n)).Tidy c := by
  rw [code]
  exact Code.tidy_ofValue (readVariable_yields line named)

mutual

/-- The code of an expression leaves behind its result alone, and nothing where it branches. -/
theorem code_tidy (calls' : calls.Tidy c) : ∀ e : Expr, e.Proper → (code calls e).Tidy c
  | .int line value, _ => by
    rw [code]
    exact Code.tidy_ofValue fun _ _ => literal_yields value .int
  | .fixed line value, _ => by
    rw [code]
    exact Code.tidy_ofValue fun _ _ => literal_yields value .fixed
  | .var line name n, proper => by
    rw [Expr.Proper] at proper
    exact variable_tidy line n proper.named
  | .binary line op left right, proper => by
    rw [Expr.Proper] at proper
    have left' := code_tidy calls' left proper.1
    have right' := code_tidy calls' right proper.2
    match op with
    | .word (.arithmetic op) =>
      rw [code]
      exact Code.tidy_ofValue (arithmetic_yields op left' right')
    | .word (.shift direction) =>
      rw [code]
      exact Code.tidy_ofValue (shift_yields _ direction left' right)
    | .relation r =>
      rw [code]
      exact ⟨Code.yieldsMaybe_some (relationValue_yields r left' right'), branchRelation_stays r left' right'⟩
    | .logical .and =>
      rw [code]
      exact Code.tidy_ofBranch (branchBoth_stays left' right')
    | .logical .or =>
      rw [code]
      exact Code.tidy_ofBranch (branchEither_stays left' right')
  | .assign line op target value, proper => by
    rw [Expr.Proper] at proper
    rw [code]
    exact Code.tidy_ofValue (assign_yields _ target op (assignee_tidy calls' target proper.1)
      (code_tidy calls' value proper.2))
  | .unary line op operand, proper => by
    rw [Expr.Proper] at proper
    have operand' := code_tidy calls' operand proper
    cases op with
    | neg =>
      rw [code]
      exact Code.tidy_ofValue (negate_yields operand')
    | ref =>
      rw [code]
      exact Code.tidy_ofValue (addressOf_yields _ operand)
    | deref =>
      rw [code]
      exact Code.tidy_ofValue (dereference_yields _ proper.named)
    | not =>
      rw [code]
      exact Code.tidy_ofBranch (branchNot_stays operand')
  | .call line name args, proper => by
    rw [Expr.Proper] at proper
    rw [code]
    exact Code.tidy_ofResult (calls' line name _ (codes_tidy calls' args proper))
  | .index line name n indices, proper => by
    rw [Expr.Proper] at proper
    rw [code]
    exact Code.tidy_ofValue (readElement_yields line proper.1.named (codes_tidy calls' indices proper.2))

theorem codes_tidy (calls' : calls.Tidy c) :
    ∀ es : List Expr, Expr.AllProper es → ∀ code ∈ codes calls es, code.Tidy c
  | [], _ => by
    rw [codes]
    exact fun _ member => nomatch member
  | e :: rest, proper => by
    rw [Expr.AllProper] at proper
    rw [codes]
    exact List.forall_mem_cons.2 ⟨code_tidy calls' e proper.1, codes_tidy calls' rest proper.2⟩

/-- What an assignment writes to is tidy. -/
theorem assignee_tidy (calls' : calls.Tidy c) : ∀ e : Expr, e.Proper → (assignee calls e).Tidy c
  | .var line name n, proper => by
    rw [Expr.Proper] at proper
    rw [assignee_var]
    exact ⟨proper.named, variable_tidy line n proper.named⟩
  | .unary line .deref operand, proper => by
    rw [Expr.Proper] at proper
    rw [assignee]
    exact proper.named
  | .index line name n indices, proper => by
    rw [Expr.Proper] at proper
    rw [assignee]
    exact ⟨proper.1.named, codes_tidy calls' indices proper.2⟩
  | .int .., _ | .fixed .., _ | .binary .., _ | .assign .., _ | .call .., _ | .unary _ .neg _, _
  | .unary _ .ref _, _ | .unary _ .not _, _ => by simp [assignee, Assignee.Tidy]

end

end Gen

end SmallC
