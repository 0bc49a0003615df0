import SmallC.Proofs.Generation.Branching

/-!
Loops. Control goes to the test first, which stands behind the body, and back to the body as long as the condition
holds. A round ends at the step, unless it leaves the loop. By induction on how often the loop may go round, it ends
behind its code with the numbers that it should.
-/
namespace SmallC

open Allocator Machine

/-- Code that leaves all levels alone and is run through, with what it does to numbers. -/
structure Transforms (S : Site) (p p' : Progress) (act : Env → Option Env) : Prop extends Flat p p' where
  runs : S.Hosts p' → ∀ {env env' m}, Stopped S p env m → act env = some env' →
    ∃ m', Reaches S.entries m m' ∧ Stopped S p' env' m'

/-- What the parts of a loop do, each of which control comes to where something was generated: the test leads to the
body or out, the body to the step or out, and the step to the test. -/
structure Turns (S : Site) (test : Env → Option Bool) (round : Env → Option (Ending × Env)) (step : Env → Option Env)
    (atTest atBody atStep out : Progress) : Prop where
  enters : ∀ {env m}, Stopped S atTest env m → test env = some true →
    ∃ m', Reaches S.entries m m' ∧ Stopped S atBody env m'
  ends : ∀ {env m}, Stopped S atTest env m → test env = some false →
    ∃ m', Reaches S.entries m m' ∧ Stopped S out env m'
  rounds : ∀ {env ending env' m}, Stopped S atBody env m → round env = some (ending, env') → ending ≠ .broken →
    ∃ m', Reaches S.entries m m' ∧ Stopped S atStep env' m'
  breaks : ∀ {env env' m}, Stopped S atBody env m → round env = some (.broken, env') →
    ∃ m', Reaches S.entries m m' ∧ Stopped S out env' m'
  steps : ∀ {env env' m}, Stopped S atStep env m → step env = some env' →
    ∃ m', Reaches S.entries m m' ∧ Stopped S atTest env' m'

/-- The code of a round of a loop with a label behind it. A round ends there, or leaves the loop for another label. -/
structure Rounds (S : Site) (done : String) (p p' : Progress) (round : Env → Option (Ending × Env)) : Prop
    extends Flat p p' where
  ends : S.Hosts p' → ∀ {env ending env' m}, Stopped S p env m → round env = some (ending, env') → ending ≠ .broken →
    ∃ m', Reaches S.entries m m' ∧ Stopped S p' env' m'
  breaks : S.Hosts p' → ∀ {env env' m}, Stopped S p env m → round env = some (.broken, env') →
    ∃ m', Leaps S p'.allocator done env' p.allocator.scopes m m'

/-- The code of a condition. Control arrives at a label where it holds, and goes on where it does not. -/
structure Splits (S : Site) (again : String) (p p' : Progress) (cond : Env → Option Bool) : Prop extends Flat p p' where
  holds : S.Hosts p' → ∀ {env m}, Stopped S p env m → cond env = some true →
    ∃ m', Leaps S p'.allocator again env p.allocator.scopes m m'
  fails : S.Hosts p' → ∀ {env m}, Stopped S p env m → cond env = some false →
    ∃ m', Reaches S.entries m m' ∧ Stopped S p' env m'

variable {S : Site} {p p' p₁ p₂ p₃ p₄ p₅ : Progress} {m m₁ : Machine} {c : Context} {verifies : Bool} {env env' : Env}
  {ls : List Level} {exits : Exits} {ending : Ending} {again next test done : String} {bound n : Nat}
  {cond : Env → Option Bool} {round run : Env → Option (Ending × Env)} {act step : Env → Option Env}

/-- A loop goes on behind it. -/
theorem Env.iterate_onward (came : Env.iterate cond round step bound env = some (ending, env')) : ending = .onward := by
  induction bound generalizing env with
  | zero => cases came
  | succ bound ih =>
    obtain ⟨holds, -, came⟩ := Option.bind_eq_some_iff.1 came
    split at came
    · obtain ⟨⟨how, mid⟩, -, came⟩ := Option.bind_eq_some_iff.1 came
      split at came
      · cases came
        rfl
      · obtain ⟨mid', -, came⟩ := Option.bind_eq_some_iff.1 came
        exact ih came
    · cases came
      rfl

/-- However often it goes round, a loop ends as it should. -/
theorem Turns.runs (turns : Turns S cond round step p₁ p₂ p₃ p₄) (stopped : Stopped S p₁ env m)
    (came : Env.iterate cond round step bound env = some (ending, env')) :
    ∃ m', Reaches S.entries m m' ∧ Stopped S p₄ env' m' := by
  induction bound generalizing env m with
  | zero => cases came
  | succ bound ih =>
    obtain ⟨holds, tested, came⟩ := Option.bind_eq_some_iff.1 came
    cases holds with
    | false =>
      cases came
      exact turns.ends stopped tested
    | true =>
      obtain ⟨m₁, reaches₁, stopped₁⟩ := turns.enters stopped tested
      obtain ⟨⟨how, mid⟩, rounded, came⟩ := Option.bind_eq_some_iff.1 came
      by_cases broken : how = .broken
      · cases broken
        cases came
        obtain ⟨m', reaches', stopped'⟩ := turns.breaks stopped₁ rounded
        exact ⟨m', reaches₁.trans reaches', stopped'⟩
      · obtain ⟨m₂, reaches₂, stopped₂⟩ := turns.rounds stopped₁ rounded broken
        rw [if_neg broken] at came
        obtain ⟨mid', stepped, came⟩ := Option.bind_eq_some_iff.1 came
        obtain ⟨m₃, reaches₃, stopped₃⟩ := turns.steps stopped₂ stepped
        obtain ⟨m', reaches', stopped'⟩ := ih stopped₃ came
        exact ⟨m', ((reaches₁.trans reaches₂).trans reaches₃).trans reaches', stopped'⟩

namespace Transforms

theorem refl (clear : p.allocator.Clear) : Transforms S p p some := by
  refine ⟨.refl clear, fun hosts env env' m stopped same => ?_⟩
  cases same
  exact ⟨m, .refl, stopped⟩

/-- More is run through that changes no numbers. -/
theorem extend (first : Transforms S p p₁ act) (more : Transforms S p₁ p' some) : Transforms S p p' act := by
  refine ⟨first.toFlat.trans more.toFlat, fun hosts env env' m stopped came => ?_⟩
  obtain ⟨m₁, reaches, stopped₁⟩ := first.runs (more.hosts hosts) stopped came
  obtain ⟨m', reaches', stopped'⟩ := more.runs hosts stopped₁ rfl
  exact ⟨m', reaches.trans reaches', stopped'⟩

end Transforms

namespace Gen

open Alloc

/-! ### The parts of a loop -/

theorem placeLabel_transforms (clear : p.allocator.Clear)
    (ran : (placeLabel test).exec (c.checked verifies) p = .ok ((), p')) : Transforms S p p' some := by
  obtain ⟨flat, -, through, -⟩ := placeLabel_catches (S := S) clear ran
  refine ⟨flat, fun hosts env env' m stopped same => ?_⟩
  cases same
  exact through hosts stopped

/-- A condition that may be left out, which counts as one that holds. -/
theorem decision_splits {code : Option Code} (clear : p.allocator.Clear)
    (faithful : ∀ code', code = some code' → Faithful S (c.checked verifies) code' ∧ code'.Tidy c)
    (ran : (match code with | some code => code.branch again | none => jump again).exec (c.checked verifies) p =
      .ok ((), p')) : Splits S again p p' (Expr.tests (code.map Code.expr)) := by
  cases code with
  | some code =>
    obtain ⟨own, tidy⟩ := faithful code rfl
    obtain ⟨flat, taken, passed⟩ := branch_leaps own tidy clear ran
    refine ⟨flat, fun hosts env m stopped holds => ?_, fun hosts env m stopped fails => ?_⟩
    · obtain ⟨x, value, holds⟩ := Option.map_eq_some_iff.1 holds
      exact taken hosts stopped value holds
    · obtain ⟨x, value, fails⟩ := Option.map_eq_some_iff.1 fails
      exact passed hosts stopped value fails
  | none =>
    obtain ⟨flat, leaps⟩ := jump_leaps (S := S) clear ran
    exact ⟨flat, fun hosts _ _ stopped _ => leaps hosts stopped, fun _ _ _ _ fails => nomatch fails⟩

/-- The label of the next round stands behind the body. -/
theorem round_ends (flat : Flat p p₁) (executes : Executes S (exits.inLoop done next) 0 p p₁ round)
    (ran : (placeLabel next).exec (c.checked verifies) p₁ = .ok ((), p')) : Rounds S done p p' round := by
  obtain ⟨last, -, through, caught⟩ := placeLabel_catches (S := S) flat.clear ran
  rw [flat.scopes] at caught
  refine ⟨flat.trans last, fun hosts env ending env' m stopped came goes => ?_, fun hosts env env' m stopped came => ?_⟩
  · cases ending with
    | broken => exact absurd rfl goes
    | onward =>
      obtain ⟨m₁, reaches, stopped₁⟩ := executes.onward (last.hosts hosts) stopped came
      obtain ⟨m', reaches', stopped'⟩ := through hosts stopped₁
      exact ⟨m', reaches.trans reaches', stopped'⟩
    | continued =>
      obtain ⟨label, m₁, target, leaps⟩ := executes.leaves (last.hosts hosts) stopped came nofun
      cases target
      exact caught hosts (leaps.forth flat.clear (flat.over last))
  · obtain ⟨label, m', target, leaps⟩ := executes.leaves (last.hosts hosts) stopped came nofun
    cases target
    exact ⟨m', leaps.forth flat.clear (flat.over last)⟩

/-- The parts of a loop where they stand. -/
theorem loop_turns (clear : p.allocator.Clear)
    (placed : (placeLabel again).exec (c.checked verifies) p = .ok ((), p₁)) (body : Rounds S done p₁ p₂ round)
    (steps : Transforms S p₂ p₃ step) (decision : Splits S again p₃ p₄ cond)
    (ended : (placeLabel done).exec (c.checked verifies) p₄ = .ok ((), p')) :
    Flat p p' ∧ (S.Hosts p' → S.Hosts p₃ ∧ Turns S cond round step p₃ p₁ p₂ p') := by
  obtain ⟨first, met, -, again'⟩ := placeLabel_catches (S := S) clear placed
  have inside := body.toFlat.trans steps.toFlat
  have behind := inside.trans decision.toFlat
  obtain ⟨last, -, through, done'⟩ := placeLabel_catches (S := S) behind.clear ended
  refine ⟨(first.trans behind).trans last, fun hosts => ?_⟩
  have hosts₄ := last.hosts hosts
  have hosts₃ := decision.hosts hosts₄
  have hosts₂ := steps.hosts hosts₃
  refine ⟨hosts₃, fun stopped holds => ?_, fun stopped fails => ?_,
    fun stopped came goes => body.ends hosts₂ stopped came goes, fun stopped came => ?_,
    fun stopped came => steps.runs hosts₃ stopped came⟩
  · obtain ⟨m', leaps⟩ := decision.holds hosts₄ stopped holds
    rw [inside.scopes, first.scopes] at leaps
    exact again' (body.hosts hosts₂) (leaps.back met (first.over behind))
  · obtain ⟨m₁, reaches, stopped₁⟩ := decision.fails hosts₄ stopped fails
    obtain ⟨m', reaches', stopped'⟩ := through hosts stopped₁
    exact ⟨m', reaches.trans reaches', stopped'⟩
  · obtain ⟨m', leaps⟩ := body.breaks hosts₂ stopped came
    rw [behind.scopes] at done'
    exact done' hosts (leaps.forth body.clear (body.toFlat.over ((steps.toFlat.trans decision.toFlat).trans last)))

/-- Code that jumps to the test first. -/
theorem loop_executes (start : Flat p p₁) (placed : (placeLabel again).exec (c.checked verifies) p₁ = .ok ((), p₂))
    (body : Rounds S done p₂ p₃ round) (steps : Transforms S p₃ p₄ step) (decision : Splits S again p₄ p₅ cond)
    (ended : (placeLabel done).exec (c.checked verifies) p₅ = .ok ((), p'))
    (comes : S.Hosts p₄ → ∀ {env m}, Stopped S p env m → ∃ m', Reaches S.entries m m' ∧ Stopped S p₄ env m') :
    Executes S exits n p p' (Env.iterate cond round step bound) := by
  obtain ⟨flat, turns⟩ := loop_turns start.clear placed body steps decision ended
  refine .of_onward (start.trans flat).toForward Env.iterate_onward fun hosts env env' m stopped came => ?_
  obtain ⟨hosts₄, turns⟩ := turns hosts
  obtain ⟨m₁, reaches, stopped₁⟩ := comes hosts₄ stopped
  obtain ⟨m', reaches', stopped'⟩ := turns.runs stopped₁ came
  exact ⟨m', reaches.trans reaches', stopped'⟩

/-- A jump over some code to a label. -/
theorem jump_comes (clear : p.allocator.Clear) (jumped : (jump test).exec (c.checked verifies) p = .ok ((), p₁))
    (between : Flat p₁ p₂) (placed : (placeLabel test).exec (c.checked verifies) p₂ = .ok ((), p')) (hosts : S.Hosts p')
    (stopped : Stopped S p env m) : ∃ m', Reaches S.entries m m' ∧ Stopped S p' env m' := by
  obtain ⟨first, leaps⟩ := jump_leaps (S := S) clear jumped
  obtain ⟨last, -, -, caught⟩ := placeLabel_catches (S := S) between.clear placed
  obtain ⟨m', leaps⟩ := leaps (between.hosts (last.hosts hosts)) stopped
  rw [(first.trans between).scopes] at caught
  exact caught hosts (leaps.forth first.clear (first.over (between.trans last)))

/-- Labels are handed out first. -/
theorem executes_behind (upto : Flat p p₁) (still : ∀ {env m}, Stopped S p env m → Stopped S p₁ env m)
    (executes : Executes S exits 0 p₁ p' run) : Executes S exits 0 p p' run := by
  refine ⟨upto.toForward.trans executes.forward, fun hosts env env' m stopped came =>
    executes.onward hosts (still stopped) came, fun hosts env ending env' m stopped came off => ?_⟩
  rw [← upto.scopes]
  exact executes.leaves hosts (still stopped) came off

/-! ### Loops -/

theorem whileLoop_executes {code : Code} {body : Exits → Gen Unit}
    (faithful : Faithful S (c.checked verifies) code) (tidy : code.Tidy c)
    (executes : ∀ {brk cont p p'}, p.allocator.Clear →
      (block (body (exits.inLoop brk cont))).exec (c.checked verifies) p = .ok ((), p') →
      Flat p p' ∧ Executes S (exits.inLoop brk cont) 0 p p' round)
    (clear : p.allocator.Clear) (ran : (whileLoop exits code body).exec (c.checked verifies) p = .ok ((), p')) :
    Executes S exits n p p' (Env.iterate (Expr.tests (some code.expr)) round some bound) := by
  obtain ⟨again, p₁, one, ran⟩ := exec_bind_ok ran
  obtain ⟨test, p₂, two, ran⟩ := exec_bind_ok ran
  obtain ⟨done, p₃, three, ran⟩ := exec_bind_ok ran
  obtain ⟨⟨⟩, p₄, jumped, ran⟩ := exec_bind_ok ran
  obtain ⟨⟨⟩, p₅, placed, ran⟩ := exec_bind_ok ran
  obtain ⟨⟨⟩, p₆, blocked, ran⟩ := exec_bind_ok ran
  obtain ⟨⟨⟩, p₇, tested, ran⟩ := exec_bind_ok ran
  obtain ⟨⟨⟩, p₈, branched, ended⟩ := exec_bind_ok ran
  obtain ⟨flat₁, still₁⟩ := freshLabel_flat (S := S) clear one
  obtain ⟨flat₂, still₂⟩ := freshLabel_flat (S := S) flat₁.clear two
  obtain ⟨flat₃, still₃⟩ := freshLabel_flat (S := S) flat₂.clear three
  have upto := (flat₁.trans flat₂).trans flat₃
  obtain ⟨flat₄, -⟩ := jump_leaps (S := S) upto.clear jumped
  obtain ⟨flat₅, -⟩ := placeLabel_catches (S := S) flat₄.clear placed
  obtain ⟨flat₆, rounds⟩ := executes flat₅.clear blocked
  have body := round_ends flat₆ rounds tested
  have decision : Splits S again p₇ p₈ (Expr.tests (some code.expr)) :=
    decision_splits body.clear (fun code' (same : some code = some code') => by cases same; exact ⟨faithful, tidy⟩) branched
  refine loop_executes (upto.trans flat₄) placed body (.refl body.clear) decision ended fun hosts env m stopped => ?_
  exact jump_comes upto.clear jumped (flat₅.trans flat₆) tested hosts (still₃ (still₂ (still₁ stopped)))

/-- The code of a loop with its own initialisation, in a level of its own. -/
theorem loopCode_executes {init inside : Gen Unit} {cond' step' : Option Code}
    (tested : ∀ code, cond' = some code → Faithful S (c.checked verifies) code ∧ code.Tidy c)
    (starts : ∀ {p p'}, p.allocator.Clear → init.exec (c.checked verifies) p = .ok ((), p') → Executes S exits 1 p p' run)
    (stepped : ∀ {p p'}, p.allocator.Clear → (match step' with | some step => evaluate step | none => pure ()).exec
      (c.checked verifies) p = .ok ((), p') → Transforms S p p' step)
    (executes : ∀ {p p'}, p.allocator.Clear → inside.exec (c.checked verifies) p = .ok ((), p') →
      Flat p p' ∧ Executes S (exits.inLoop done next) 0 p p' round)
    (clear : p.allocator.Clear)
    (ran : (do
      init
      jump test
      placeLabel again
      inside
      placeLabel next
      match step' with
      | some step => evaluate step
      | none => pure ()
      placeLabel test
      match cond' with
      | some cond => cond.branch again
      | none => jump again
      placeLabel done : Gen Unit).exec (c.checked verifies) p = .ok ((), p')) :
    Executes S exits 1 p p' fun env => Env.andThen (run env)
      (Env.iterate (Expr.tests (cond'.map Code.expr)) round step bound) := by
  obtain ⟨⟨⟩, p₁, began, ran⟩ := exec_bind_ok ran
  obtain ⟨⟨⟩, p₂, jumped, ran⟩ := exec_bind_ok ran
  obtain ⟨⟨⟩, p₃, placed, ran⟩ := exec_bind_ok ran
  obtain ⟨⟨⟩, p₄, blocked, ran⟩ := exec_bind_ok ran
  obtain ⟨⟨⟩, p₅, nexted, ran⟩ := exec_bind_ok ran
  obtain ⟨p₆, p₇, p₈, stepping, labelled, decided, ended⟩ : ∃ p₆ p₇ p₈,
      (match step' with | some step => evaluate step | none => pure ()).exec (c.checked verifies) p₅ = .ok ((), p₆) ∧
      (placeLabel test).exec (c.checked verifies) p₆ = .ok ((), p₇) ∧
      (match cond' with | some cond => cond.branch again | none => jump again).exec (c.checked verifies) p₇ =
        .ok ((), p₈) ∧
      (placeLabel done).exec (c.checked verifies) p₈ = .ok ((), p') := by
    have closed : ∀ {p₆}, (do
        placeLabel test
        match cond' with
        | some cond => cond.branch again
        | none => jump again
        placeLabel done : Gen Unit).exec (c.checked verifies) p₆ = .ok ((), p') → ∃ p₇ p₈,
          (placeLabel test).exec (c.checked verifies) p₆ = .ok ((), p₇) ∧
          (match cond' with | some cond => cond.branch again | none => jump again).exec (c.checked verifies) p₇ =
            .ok ((), p₈) ∧
          (placeLabel done).exec (c.checked verifies) p₈ = .ok ((), p') := by
      intro p₆ ran
      obtain ⟨⟨⟩, p₇, labelled, ran⟩ := exec_bind_ok ran
      cases cond' with
      | some cond =>
        obtain ⟨⟨⟩, p₈, decided, ended⟩ := exec_bind_ok ran
        exact ⟨p₇, p₈, labelled, decided, ended⟩
      | none =>
        obtain ⟨⟨⟩, p₈, decided, ended⟩ := exec_bind_ok ran
        exact ⟨p₇, p₈, labelled, decided, ended⟩
    cases step' with
    | some step =>
      obtain ⟨⟨⟩, p₆, stepping, ran⟩ := exec_bind_ok ran
      exact ⟨p₆, (closed ran).imp fun _ => Exists.imp fun _ rest => ⟨stepping, rest⟩⟩
    | none => exact ⟨p₅, (closed ran).imp fun _ => Exists.imp fun _ rest => ⟨rfl, rest⟩⟩
  have start := starts clear began
  have clear₁ := start.forward.clear
  obtain ⟨flat₂, -⟩ := jump_leaps (S := S) clear₁ jumped
  obtain ⟨flat₃, -⟩ := placeLabel_catches (S := S) flat₂.clear placed
  obtain ⟨flat₄, rounds⟩ := executes flat₃.clear blocked
  have body := round_ends flat₄ rounds nexted
  have steps := (stepped body.clear stepping).extend (placeLabel_transforms (stepped body.clear stepping).clear labelled)
  have decision := decision_splits steps.clear tested decided
  have between := (flat₃.trans body.toFlat).trans (stepped body.clear stepping).toFlat
  exact start.andThen (loop_executes flat₂ placed body steps decision ended fun hosts _ _ stopped =>
    jump_comes clear₁ jumped between labelled hosts stopped)

/-- What a loop does with its own initialisation and step. -/
theorem forLoop_executes {init : Gen Unit} {cond' step' : Option Code} {body : Exits → Gen Unit}
    (settles : Settles c exits init) (settles' : ∀ brk cont, Settles c exits (body (exits.inLoop brk cont)))
    (tidy : ∀ code, step' = some code → code.Tidy c)
    (tested : ∀ code, cond' = some code → Faithful S (c.checked verifies) code ∧ code.Tidy c)
    (starts : ∀ {p p'}, p.allocator.Clear → init.exec (c.checked verifies) p = .ok ((), p') → Executes S exits 1 p p' run)
    (stepped : ∀ {p p'}, p.allocator.Clear → (match step' with | some step => evaluate step | none => pure ()).exec
      (c.checked verifies) p = .ok ((), p') → Transforms S p p' step)
    (executes : ∀ {brk cont p p'}, p.allocator.Clear →
      (block (body (exits.inLoop brk cont))).exec (c.checked verifies) p = .ok ((), p') →
      Flat p p' ∧ Executes S (exits.inLoop brk cont) 0 p p' round)
    (clear : p.allocator.Clear)
    (ran : (forLoop exits init cond' step' body).exec (c.checked verifies) p = .ok ((), p')) :
    Executes S exits 0 p p' (Env.scoped fun env => Env.andThen (run env)
      (Env.iterate (Expr.tests (cond'.map Code.expr)) round step bound)) := by
  obtain ⟨again, p₁, one, ran⟩ := exec_bind_ok ran
  obtain ⟨next, p₂, two, ran⟩ := exec_bind_ok ran
  obtain ⟨test, p₃, three, ran⟩ := exec_bind_ok ran
  obtain ⟨done, p₄, four, ran⟩ := exec_bind_ok ran
  obtain ⟨flat₁, still₁⟩ := freshLabel_flat (S := S) clear one
  obtain ⟨flat₂, still₂⟩ := freshLabel_flat (S := S) flat₁.clear two
  obtain ⟨flat₃, still₃⟩ := freshLabel_flat (S := S) flat₂.clear three
  obtain ⟨flat₄, still₄⟩ := freshLabel_flat (S := S) flat₃.clear four
  have upto := ((flat₁.trans flat₂).trans flat₃).trans flat₄
  have inside : Settles c exits _ := loop_settles settles (fun code same => (tested code same).2) tidy (block_settles (settles' done next))
    again next test done
  refine executes_behind upto (fun stopped => still₄ (still₃ (still₂ (still₁ stopped)))) ?_
  exact (block_executes inside (loopCode_executes tested starts stepped executes) upto.clear ran).2

end Gen

end SmallC
