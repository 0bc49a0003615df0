import SmallC.Proofs.Generation.Values

/-!
Conditions. A branch leaves no temporary behind on either path, and what a branch decides is one temporary
where it is needed as a value.
-/
namespace SmallC

namespace Gen

open Allocator

variable {c : Context} {s : Shape} {code left right : Code}

theorem conditionRegister_stays (tidy : code.Tidy c) : Stays c (conditionRegister code) := fun s ready =>
  (value_yields tidy s ready).bind fun v => (fetch_stays v).bind fun _ => (free_gives v).bind fun _ =>
    (hint_stays _).bind fun _ => sync_stays.bind fun _ => .pure fun _ after => after

/-- Both operands are traded for others or kept as they are. -/
theorem commonKind_trades (l r : String) :
    Meets c (At ((s.holding l).holding r)) (commonKind l r) fun out =>
      At ((s.holding out.1).holding out.2) :=
  (arithmeticKind_stays l).bind fun _ => (arithmeticKind_stays r).bind fun _ =>
    .ite (fun _ => ((convert_trades _).under r).bind fun _ => (convert_trades _ _).bind fun _ =>
      .pure fun _ after => after) fun _ => .pure fun _ after => after

theorem relationOperands_stays (left' : left.Tidy c) (right' : right.Tidy c) :
    Stays c (relationOperands left right) := by
  intro s ready
  refine (value_yields left' s ready).bind fun l => ?_
  split
  · exact (fetch_stays l).bind fun _ => (free_gives l).bind fun _ => (hint_stays _).bind fun _ =>
      .pure fun _ after => after
  · refine (value_yields right' _ (ready.holding l)).bind fun r => ?_
    refine (commonKind_trades l r).bind fun out => ?_
    exact (fetch_stays out.1).bind fun _ => (fetch_stays out.2).bind fun _ =>
      (free_under out.1 out.2).bind fun _ => (free_gives out.2).bind fun _ =>
        (hint_stays _).bind fun _ => (hint_stays _).bind fun _ => .pure fun _ after => after

theorem branchRelation_stays (r : Relation) (left' : left.Tidy c) (right' : right.Tidy c)
    (target : String) : Stays c (branchRelation r left right target) := by
  intro s ready
  refine (relationOperands_stays left' right' s ready).bind fun operands => sync_stays.bind fun _ => ?_
  split
  · exact (emit_stays _).bind fun _ => releaseHolds_stays
  · exact freshLabel_stays.bind fun around => (emit_stays _).bind fun _ => (emit_stays _).bind fun _ =>
      releaseHolds_stays.bind fun _ => placeLabel_stays around

theorem branchBoth_stays (left' : left.Tidy c) (right' : right.Tidy c) (target : String) :
    Stays c (branchBoth left right target) := fun s ready =>
  freshLabel_stays.bind fun second => freshLabel_stays.bind fun skip =>
    (left'.branch second s ready).bind fun _ => (jump_stays skip).bind fun _ =>
      (placeLabel_stays second).bind fun _ => (right'.branch target s ready).bind fun _ =>
        placeLabel_stays skip

theorem branchEither_stays (left' : left.Tidy c) (right' : right.Tidy c) (target : String) :
    Stays c (branchEither left right target) := fun s ready =>
  (left'.branch target s ready).bind fun _ => right'.branch target s ready

theorem branchNot_stays (tidy : code.Tidy c) (target : String) : Stays c (branchNot code target) :=
  fun s ready =>
  (conditionRegister_stays tidy s ready).bind fun _ => freshLabel_stays.bind fun around =>
    (emit_stays _).bind fun _ => (emit_stays _).bind fun _ => releaseHolds_stays.bind fun _ =>
      placeLabel_stays around

theorem branchValue_stays (tidy : code.Tidy c) (target : String) : Stays c (branchValue code target) :=
  fun s ready =>
  (conditionRegister_stays tidy s ready).bind fun _ => (emit_stays _).bind fun _ => releaseHolds_stays

/-- The temporary that takes what is decided is alive while the branch is computed. -/
theorem decided_yields {branch : String → Gen Unit} (stays : ∀ label, Stays c (branch label)) :
    Yields c (decided branch) := fun _ ready =>
  newTemp_bind fun temp _ _ => freshLabel_stays.bind fun yes => freshLabel_stays.bind fun done =>
    (stays yes _ (ready.holding temp)).bind fun _ => (fetch_stays temp).bind fun _ =>
      (emit_stays _).bind fun _ => (jump_stays done).bind fun _ => (placeLabel_stays yes).bind fun _ =>
        (fetch_stays temp).bind fun _ => (emit_stays _).bind fun _ => (placeLabel_stays done).bind fun _ =>
          computed temp

theorem relationValue_yields (r : Relation) (left' : left.Tidy c) (right' : right.Tidy c) :
    Yields c (relationValue r left right) := by
  cases r with
  | eq | ne => exact decided_yields (branchRelation_stays _ left' right')
  | lt | gt | le | ge =>
    exact fun s ready => (relationOperands_stays left' right' s ready).bind fun _ =>
      newTemp_bind fun temp _ _ => (emitAll_stays _).bind fun _ => computed temp

end Gen

/-! ### The two ways to compile -/

namespace Code

open Gen

variable {c : Context} {e : Expr}

theorem tidy_ofResult {result : Gen (Option String)} (yields : YieldsMaybe c result) :
    (Code.ofResult e result).Tidy c :=
  have value : (⟨e, result, fun _ => return⟩ : Code).Tidy c :=
    ⟨yields, fun _ _ _ => .pure fun _ before => before⟩
  ⟨yields, branchValue_stays value⟩

theorem yieldsMaybe_some {value : Gen String} (yields : Yields c value) :
    YieldsMaybe c (some <$> value) := fun s ready => .map (yields s ready)

theorem tidy_ofValue {value : Gen String} (yields : Yields c value) : (Code.ofValue e value).Tidy c :=
  tidy_ofResult (yieldsMaybe_some yields)

theorem tidy_ofBranch {branch : String → Gen Unit} (stays : ∀ label, Stays c (branch label)) :
    (Code.ofBranch e branch).Tidy c :=
  ⟨yieldsMaybe_some (decided_yields stays), stays⟩

end Code

end SmallC
