import SmallC.Proofs.Generation.Labelled
import SmallC.Proofs.Meaning.Reference

/-!
What structured sources leave out: they take no addresses, inline no assembly and have no functions.
-/
namespace SmallC

namespace Expr

variable {e : Expr}

theorem addressTaken_of_isPure : ∀ e : Expr, e.isPure = true → e.addressTaken = []
  | .int .., _ | .fixed .., _ | .var .., _ => by rw [addressTaken]
  | .binary _ _ left right, structured => by
    rw [isPure, Bool.and_eq_true] at structured
    rw [addressTaken, addressTaken_of_isPure left structured.1, addressTaken_of_isPure right structured.2]
    rfl
  | .unary _ .neg operand, structured | .unary _ .not operand, structured => by
    rw [isPure] at structured
    simp only [addressTaken]
    exact addressTaken_of_isPure operand structured
  | .unary _ .ref _, structured | .unary _ .deref _, structured | .assign .., structured | .call .., structured
  | .index .., structured => nomatch structured

theorem addressTaken_of_isAssignment (structured : e.isAssignment = true) : e.addressTaken = [] := by
  match e, structured with
  | .assign line op (.var line' name n) value, structured =>
    rw [addressTaken, addressTaken, addressTaken_of_isPure value structured]
    rfl

end Expr

namespace Stmt

theorem addressTakenIn?_of_arePure {cond : Option Expr} (structured : cond.all Expr.isPure = true) :
    addressTakenIn? cond = [] := by
  cases cond with
  | none => rfl
  | some e => exact Expr.addressTaken_of_isPure e structured

theorem addressTakenIn?_of_areAssignments {step : Option Expr} (structured : step.all Expr.isAssignment = true) :
    addressTakenIn? step = [] := by
  cases step with
  | none => rfl
  | some e => exact Expr.addressTaken_of_isAssignment structured

mutual

/-- A structured statement takes no addresses. -/
theorem addressTaken_of_isStructured : ∀ s : Stmt, s.isStructured = true → s.addressTaken = []
  | .expr e, structured => by
    rw [isStructured] at structured
    rw [addressTaken]
    exact Expr.addressTaken_of_isAssignment structured
  | .define line name ty (some value), structured => by
    rw [isStructured, Bool.and_eq_true] at structured
    rw [addressTaken]
    exact Expr.addressTaken_of_isPure value structured.2
  | .conditional line branches (some otherwise), structured => by
    rw [isStructured, Bool.and_eq_true] at structured
    rw [addressTaken, addressTakenInBranches_of_areStructured branches structured.1,
      addressTakenIn_of_areStructured otherwise structured.2]
    rfl
  | .conditional line branches none, structured => by
    rw [isStructured] at structured
    rw [addressTaken]
    exact addressTakenInBranches_of_areStructured branches structured
  | .whileLoop line cond body, structured => by
    rw [isStructured, Bool.and_eq_true] at structured
    rw [addressTaken, Expr.addressTaken_of_isPure cond structured.1, addressTakenIn_of_areStructured body structured.2]
    rfl
  | .forLoop line (some init) cond step body, structured => by
    simp only [isStructured, Bool.and_eq_true] at structured
    rw [addressTaken, addressTaken_of_isStructured init structured.1.1.1, addressTakenIn?_of_arePure structured.1.1.2,
      addressTakenIn?_of_areAssignments structured.1.2, addressTakenIn_of_areStructured body structured.2]
    rfl
  | .forLoop line none cond step body, structured => by
    simp only [isStructured, Bool.and_eq_true] at structured
    rw [addressTaken, addressTakenIn?_of_arePure structured.1.1, addressTakenIn?_of_areAssignments structured.1.2,
      addressTakenIn_of_areStructured body structured.2]
    rfl
  | .breaks line, _ | .continues line, _ => by rw [addressTaken]
  | .group line body, structured => by
    rw [isStructured] at structured
    rw [addressTaken]
    exact addressTakenIn_of_areStructured body structured

theorem addressTakenIn_of_areStructured : ∀ body : List Stmt, areStructured body = true → addressTakenIn body = []
  | [], _ => by rw [addressTakenIn]
  | s :: rest, structured => by
    rw [areStructured, Bool.and_eq_true] at structured
    rw [addressTakenIn, addressTaken_of_isStructured s structured.1, addressTakenIn_of_areStructured rest structured.2]
    rfl

theorem addressTakenInBranches_of_areStructured :
    ∀ branches : List Branch, areStructuredBranches branches = true → addressTakenInBranches branches = []
  | [], _ => by rw [addressTakenInBranches]
  | .mk cond body :: rest, structured => by
    simp only [areStructuredBranches, Bool.and_eq_true] at structured
    rw [addressTakenInBranches, Expr.addressTaken_of_isPure cond structured.1.1,
      addressTakenIn_of_areStructured body structured.1.2, addressTakenInBranches_of_areStructured rest structured.2]
    rfl

end

mutual

/-- A structured statement has no assembly in it. -/
theorem isAsmFree_of_isStructured : ∀ s : Stmt, s.isStructured = true → s.isAsmFree = true
  | .expr e, _ => by rw [isAsmFree]
  | .define .., _ => by rw [isAsmFree]
  | .conditional line branches (some otherwise), structured => by
    rw [isStructured, Bool.and_eq_true] at structured
    rw [isAsmFree, areAsmFreeBranches_of_areStructured branches structured.1,
      areAsmFree_of_areStructured otherwise structured.2]
    rfl
  | .conditional line branches none, structured => by
    rw [isStructured] at structured
    rw [isAsmFree]
    exact areAsmFreeBranches_of_areStructured branches structured
  | .whileLoop line cond body, structured => by
    rw [isStructured, Bool.and_eq_true] at structured
    rw [isAsmFree]
    exact areAsmFree_of_areStructured body structured.2
  | .forLoop line (some init) cond step body, structured => by
    simp only [isStructured, Bool.and_eq_true] at structured
    rw [isAsmFree, isAsmFree_of_isStructured init structured.1.1.1, areAsmFree_of_areStructured body structured.2]
    rfl
  | .forLoop line none cond step body, structured => by
    simp only [isStructured, Bool.and_eq_true] at structured
    rw [isAsmFree]
    exact areAsmFree_of_areStructured body structured.2
  | .breaks line, _ | .continues line, _ => by rw [isAsmFree]
  | .group line body, structured => by
    rw [isStructured] at structured
    rw [isAsmFree]
    exact areAsmFree_of_areStructured body structured

theorem areAsmFree_of_areStructured : ∀ body : List Stmt, areStructured body = true → areAsmFree body = true
  | [], _ => by rw [areAsmFree]
  | s :: rest, structured => by
    rw [areStructured, Bool.and_eq_true] at structured
    rw [areAsmFree, isAsmFree_of_isStructured s structured.1, areAsmFree_of_areStructured rest structured.2]
    rfl

theorem areAsmFreeBranches_of_areStructured :
    ∀ branches : List Branch, areStructuredBranches branches = true → areAsmFreeBranches branches = true
  | [], _ => by rw [areAsmFreeBranches]
  | .mk cond body :: rest, structured => by
    simp only [areStructuredBranches, Bool.and_eq_true] at structured
    rw [areAsmFreeBranches, areAsmFree_of_areStructured body structured.1.2,
      areAsmFreeBranches_of_areStructured rest structured.2]
    rfl

end

theorem areStructured_iff {body : List Stmt} : areStructured body = true ↔ ∀ s ∈ body, s.isStructured = true := by
  induction body with
  | nil => simp [areStructured]
  | cons s rest ih => simp [areStructured, ih]

/-- A structured statement declares no function. -/
theorem function?_of_isStructured {s : Stmt} (structured : s.isStructured = true) : s.function? = none := by
  cases s with
  | function => cases structured
  | _ => rfl

theorem allProper_of_rootProper {body : List Stmt} (structured : areStructured body = true)
    (proper : ∀ s ∈ body, s.RootProper) : AllProper body := by
  induction body with
  | nil => rw [AllProper]; trivial
  | cons s rest ih =>
    rw [areStructured, Bool.and_eq_true] at structured
    have own := proper s List.mem_cons_self
    rw [RootProper, function?_of_isStructured structured.1] at own
    rw [AllProper]
    exact ⟨own, ih structured.2 fun s member => proper s (List.mem_cons_of_mem _ member)⟩

end Stmt

namespace TranslationUnit

variable {unit : TranslationUnit}

/-- A structured source is in order of execution as it stands. -/
theorem ordered_of_areStructured (structured : Stmt.areStructured unit.statements = true) : unit.ordered = unit := by
  have none : ∀ s ∈ unit.statements, s.isCompiledFunction = false := fun s member => by
    have own := Stmt.areStructured_iff.1 structured s member
    cases s with
    | function => cases own
    | _ => rfl
  have functions : unit.statements.filter Stmt.isCompiledFunction = [] :=
    List.filter_eq_nil_iff.2 fun s member => by rw [none s member]; exact Bool.false_ne_true
  have straight : unit.statements.filter (not ∘ Stmt.isCompiledFunction) = unit.statements :=
    List.filter_eq_self.2 fun s member => by rw [Function.comp_apply, none s member]; rfl
  unfold ordered
  simp only [List.partition_eq_filter_filter, functions, straight]
  simp

end TranslationUnit

end SmallC
