import SmallC.Proofs.Generation.Looping

/-!
Structured statements. By induction on its syntax, the code of a statement does what the statement means.
-/
namespace SmallC

open Allocator Machine

variable {S : Site} {p p' : Progress} {c : Context} {verifies : Bool} {exits : Exits} {calls : CallCode}
  {first : Option (Ending × Env)} {bound : Nat} {e : Expr}

theorem Env.andThen_onward (first : Option (Ending × Env)) :
    Env.andThen first (fun env => some (.onward, env)) = first := by
  obtain _ | ⟨ending, env⟩ := first
  · rfl
  · cases ending <;> rfl

/-- The branches of a conditional with what their bodies mean. -/
def Gen.arms (calls : CallCode) (exits : Exits) (bound : Nat) : List Branch → List Arm
  | [] => []
  | .mk cond body :: rest =>
    ⟨code calls cond, statements calls exits body, Env.scoped (Stmt.runsAll bound body)⟩ :: arms calls exits bound rest

namespace Gen

open Alloc

theorem branchCodes_eq (calls : CallCode) (exits : Exits) (bound : Nat) (branches : List Branch) :
    branchCodes calls exits branches = (arms calls exits bound branches).map fun arm => (arm.test, arm.body) := by
  induction branches with
  | nil => simp [branchCodes, arms]
  | cons branch rest ih =>
    obtain ⟨cond, body⟩ := branch
    simp [branchCodes, arms, ih]

theorem runsFirst_eq (calls : CallCode) (exits : Exits) (branches : List Branch)
    (otherwise : Env → Option (Ending × Env)) (env : Env) :
    Stmt.runsFirst bound branches env otherwise = Arm.first otherwise (arms calls exits bound branches) env := by
  induction branches with
  | nil => simp [Stmt.runsFirst, arms, Arm.first]
  | cons branch rest ih =>
    obtain ⟨cond, body⟩ := branch
    rw [Stmt.runsFirst, arms, Arm.first, expr_code, ih]
    rfl

/-! ### Parts of statements -/

theorem map_expr_code (calls : CallCode) (e : Option Expr) : (e.map (code calls)).map Code.expr = e := by
  rw [Option.map_map]
  cases e with
  | some e => exact congrArg some (expr_code calls e)
  | none => rfl

/-- An assignment as a statement, or as the step of a loop. -/
theorem assignment_transforms (structured : e.isAssignment = true) (proper : e.Proper) (calls' : calls.Tidy c)
    (clear : p.allocator.Clear) (ran : (evaluate (code calls e)).exec (c.checked verifies) p = .ok ((), p')) :
    Transforms S p p' fun env => e.assigns env := by
  match e, structured with
  | .assign line op (.var line' name n) value, structured =>
    obtain ⟨flat, assigns⟩ := evaluate_assigned (S := S) structured proper calls' clear ran
    exact ⟨flat, assigns⟩

theorem step_transforms {step : Option Expr} (structured : step.all Expr.isAssignment = true)
    (proper : ∀ e, step = some e → e.Proper) (calls' : calls.Tidy c) (clear : p.allocator.Clear)
    (ran : (match step.map (code calls) with | some step => evaluate step | none => pure ()).exec
      (c.checked verifies) p = .ok ((), p')) : Transforms S p p' (Expr.steps step) := by
  cases step with
  | some e => exact assignment_transforms structured (proper e rfl) calls' clear ran
  | none =>
    cases ran
    exact .refl clear

theorem optional_faithful {cond : Option Expr} (structured : cond.all Expr.isPure = true)
    (proper : ∀ e, cond = some e → e.Proper) (calls' : calls.Tidy c) :
    ∀ code', cond.map (code calls) = some code' → Faithful S (c.checked verifies) code' ∧ code'.Tidy c := by
  intro code' is
  obtain ⟨e, has, rfl⟩ := Option.map_eq_some_iff.1 is
  cases has
  exact ⟨code_faithful S _ calls e structured (proper e rfl), code_tidy calls' e (proper e rfl)⟩

theorem releaseHolds_executes (clear : p.allocator.Clear)
    (ran : releaseHolds.exec (c.checked verifies) p = .ok ((), p')) :
    Executes S exits 1 p p' fun env => some (.onward, env) := by
  obtain ⟨flat, passes⟩ := releaseHolds_flat (S := S) clear ran
  refine .of_onward flat.toForward (fun {env ending env'} came => ?_) fun hosts env env' m stopped came => ?_
  · cases came
    rfl
  · cases came
    exact passes hosts stopped

theorem transforms_executes {act : Env → Option Env} {n : Nat} (transforms : Transforms S p p' act) :
    Executes S exits n p p' fun env => (act env).map fun after => (.onward, after) := by
  refine .of_onward transforms.toForward (fun {env ending env'} came => ?_) fun hosts env env' m stopped came => ?_
  · obtain ⟨after, -, same⟩ := Option.map_eq_some_iff.1 came
    cases same
    rfl
  · obtain ⟨after, did, same⟩ := Option.map_eq_some_iff.1 came
    cases same
    exact transforms.runs hosts stopped did

/-! ### Statements -/

mutual

/-- The code of a structured statement does what the statement means. -/
theorem statement_executes (calls' : calls.Tidy c) (untaken : c.addressTaken = []) :
    ∀ s : Stmt, s.isStructured = true → s.Proper → ∀ {exits p p'}, p.allocator.Clear →
      (statement calls exits s).exec (c.checked verifies) p = .ok ((), p') →
      Executes S exits 1 p p' fun env => s.runs bound env
  | .expr e, structured, proper, exits, p, p', clear, ran => by
    rw [Stmt.isStructured] at structured
    rw [Stmt.Proper] at proper
    rw [statement] at ran
    simp only [Stmt.runs]
    exact transforms_executes (assignment_transforms structured proper calls' clear ran)
  | .define line name ty (some value), structured, proper, exits, p, p', clear, ran => by
    rw [Stmt.isStructured, Bool.and_eq_true] at structured
    rw [Stmt.Proper] at proper
    rw [statement] at ran
    have own := proper value rfl
    simp only [Stmt.runs]
    rw [← expr_code calls value]
    exact define_executes (code_faithful S _ calls value structured.2 own) (code_tidy calls' value own)
      (of_decide_eq_true structured.1) untaken clear ran
  | .conditional line branches (some otherwise), structured, proper, exits, p, p', clear, ran => by
    rw [Stmt.isStructured, Bool.and_eq_true] at structured
    rw [Stmt.Proper] at proper
    rw [statement, branchCodes_eq calls exits bound branches] at ran
    have arms' := branches_execute calls' untaken branches structured.1 proper.1 exits
    have executes : Executes S exits 0 p p' (Arm.first (Env.scoped (Stmt.runsAll bound otherwise))
        (arms calls exits bound branches)) := by
      refine conditional_executes (fun arm member => (arms' arm member).1) (fun arm member => (arms' arm member).2)
        (fun clear ran => ?_) clear ran
      exact block_executes (statements_settle calls' exits otherwise proper.2)
        (fun clear ran => statements_execute calls' untaken otherwise structured.2 proper.2 clear ran) clear ran
    simp only [Stmt.runs, runsFirst_eq calls exits]
    exact executes.fewer 1
  | .conditional line branches none, structured, proper, exits, p, p', clear, ran => by
    rw [Stmt.isStructured] at structured
    rw [Stmt.Proper] at proper
    rw [statement, branchCodes_eq calls exits bound branches] at ran
    have arms' := branches_execute calls' untaken branches structured proper exits
    have executes : Executes S exits 0 p p' (Arm.first (fun env => some (.onward, env))
        (arms calls exits bound branches)) :=
      conditional_executes (fun arm member => (arms' arm member).1) (fun arm member => (arms' arm member).2)
        (fun clear ran => by cases ran; exact ⟨.refl clear, .refl clear⟩) clear ran
    simp only [Stmt.runs, runsFirst_eq calls exits]
    exact executes.fewer 1
  | .whileLoop line cond body, structured, proper, exits, p, p', clear, ran => by
    rw [Stmt.isStructured, Bool.and_eq_true] at structured
    rw [Stmt.Proper] at proper
    rw [statement] at ran
    simp only [Stmt.runs]
    rw [← expr_code calls cond]
    exact whileLoop_executes (code_faithful S _ calls cond structured.1 proper.1) (code_tidy calls' cond proper.1)
      (fun {brk cont _ _} clear ran => block_executes (statements_settle calls' (exits.inLoop brk cont) body proper.2)
        (fun clear ran => statements_execute calls' untaken body structured.2 proper.2 clear ran) clear ran) clear ran
  | .forLoop line (some init) cond step body, structured, proper, exits, p, p', clear, ran => by
    simp only [Stmt.isStructured, Bool.and_eq_true] at structured
    rw [Stmt.Proper] at proper
    rw [statement] at ran
    have rounds : ∀ brk cont, Settles c exits (statements calls (exits.inLoop brk cont) body) := fun brk cont =>
      statements_settle calls' (exits.inLoop brk cont) body proper.2.2.2
    simp only [Stmt.runs]
    rw [← map_expr_code calls cond]
    refine (forLoop_executes (fun s ready empty => (statement_settles calls' exits init proper.1 s ready empty).bind
      fun _ => releaseHolds_stays) rounds (optional_tidy calls' proper.2.2.1)
      (optional_faithful structured.1.1.2 proper.2.1 calls') (fun clear ran => ?_)
      (fun clear ran => step_transforms structured.1.2 proper.2.2.1 calls' clear ran)
      (fun {brk cont _ _} clear ran => block_executes (rounds brk cont)
        (fun clear ran => statements_execute calls' untaken body structured.2 proper.2.2.2 clear ran) clear ran)
      clear ran).fewer 1
    obtain ⟨⟨⟩, p₁, began, released⟩ := exec_bind_ok ran
    have first := statement_executes calls' untaken init structured.1.1.1 proper.1 clear began
    have both := first.andThen (releaseHolds_executes first.forward.clear released)
    simpa only [Env.andThen_onward] using both
  | .forLoop line none cond step body, structured, proper, exits, p, p', clear, ran => by
    simp only [Stmt.isStructured, Bool.and_eq_true] at structured
    rw [Stmt.Proper] at proper
    rw [statement] at ran
    have rounds : ∀ brk cont, Settles c exits (statements calls (exits.inLoop brk cont) body) := fun brk cont =>
      statements_settle calls' (exits.inLoop brk cont) body proper.2.2
    simp only [Stmt.runs]
    rw [← map_expr_code calls cond]
    refine (forLoop_executes (fun _ _ _ => .pure fun _ before => before) rounds (optional_tidy calls' proper.2.1)
      (optional_faithful structured.1.1 proper.1 calls')
      (fun clear ran => by cases ran; exact (Executes.refl clear).fewer 1)
      (fun clear ran => step_transforms structured.1.2 proper.2.1 calls' clear ran)
      (fun {brk cont _ _} clear ran => block_executes (rounds brk cont)
        (fun clear ran => statements_execute calls' untaken body structured.2 proper.2.2 clear ran) clear ran)
      clear ran).fewer 1
  | .breaks line, structured, proper, exits, p, p', clear, ran => by
    rw [statement] at ran
    simp only [Stmt.runs]
    have executes : Executes S exits 0 p p' fun env => some (.broken, env) := leaveFor_executes nofun clear ran
    exact executes.fewer 1
  | .continues line, structured, proper, exits, p, p', clear, ran => by
    rw [statement] at ran
    simp only [Stmt.runs]
    have executes : Executes S exits 0 p p' fun env => some (.continued, env) := leaveFor_executes nofun clear ran
    exact executes.fewer 1
  | .group line body, structured, proper, exits, p, p', clear, ran => by
    rw [Stmt.isStructured] at structured
    rw [Stmt.Proper] at proper
    rw [statement] at ran
    simp only [Stmt.runs]
    exact (block_executes (statements_settle calls' exits body proper)
      (fun clear ran => statements_execute calls' untaken body structured proper clear ran) clear ran).2.fewer 1

theorem statements_execute (calls' : calls.Tidy c) (untaken : c.addressTaken = []) :
    ∀ body : List Stmt, Stmt.areStructured body = true → Stmt.AllProper body → ∀ {exits p p'}, p.allocator.Clear →
      (statements calls exits body).exec (c.checked verifies) p = .ok ((), p') →
      Executes S exits 1 p p' fun env => Stmt.runsAll bound body env
  | [], structured, proper, exits, p, p', clear, ran => by
    rw [statements] at ran
    cases ran
    simp only [Stmt.runsAll]
    exact (Executes.refl clear).fewer 1
  | s :: rest, structured, proper, exits, p, p', clear, ran => by
    rw [Stmt.areStructured, Bool.and_eq_true] at structured
    rw [Stmt.AllProper] at proper
    rw [statements] at ran
    obtain ⟨⟨⟩, p₁, own, ran⟩ := exec_bind_ok ran
    obtain ⟨⟨⟩, p₂, ended, ran⟩ := exec_bind_ok ran
    have first := statement_executes calls' untaken s structured.1 proper.1 clear own
    have ends := endStatement_executes (S := S) (n := 1) first.forward.clear ended
    have others := statements_execute calls' untaken rest structured.2 proper.2 ends.forward.clear ran
    simp only [Stmt.runsAll]
    exact first.andThen (ends.andThen others)

theorem branches_execute (calls' : calls.Tidy c) (untaken : c.addressTaken = []) :
    ∀ branches : List Branch, Stmt.areStructuredBranches branches = true → Stmt.BranchesProper branches → ∀ exits,
      ∀ arm ∈ arms calls exits bound branches,
        (Faithful S (c.checked verifies) arm.test ∧ arm.test.Tidy c) ∧ ∀ {p p'}, p.allocator.Clear →
          (block arm.body).exec (c.checked verifies) p = .ok ((), p') → Flat p p' ∧ Executes S exits 0 p p' arm.run
  | [], structured, proper, exits => by
    rw [arms]
    exact nofun
  | .mk cond body :: rest, structured, proper, exits => by
    simp only [Stmt.areStructuredBranches, Bool.and_eq_true] at structured
    rw [Stmt.BranchesProper] at proper
    rw [arms]
    refine List.forall_mem_cons.2 ⟨⟨⟨code_faithful S _ calls cond structured.1.1 proper.1,
      code_tidy calls' cond proper.1⟩, fun clear ran => ?_⟩,
      branches_execute calls' untaken rest structured.2 proper.2.2 exits⟩
    exact block_executes (statements_settle calls' exits body proper.2.1)
      (fun clear ran => statements_execute calls' untaken body structured.1.2 proper.2.1 clear ran) clear ran

end

end Gen

end SmallC
