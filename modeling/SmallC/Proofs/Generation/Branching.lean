import SmallC.Proofs.Generation.Nesting

/-!
Conditionals. The conditions are tested one after the other, and control goes to the arm of the first that holds, or
else on to what holds otherwise. The arms stand behind that, in reverse; wherever an arm ends, it goes to one label in
the end.
-/
namespace SmallC

open Allocator Machine

/-- Where a statement ends: where what was generated does, at a label that stands for that, or at the label that the
statement leaves for. -/
inductive Concludes (S : Site) (exits : Exits) (done : String) (p : Progress) (ls : List Level) (m : Machine) :
    Ending → Env → Prop where
  | here {env : Env} {m' : Machine} (reaches : Reaches S.entries m m') (stopped : Stopped S p env m') :
      Concludes S exits done p ls m .onward env
  | done {env : Env} {m' : Machine} (leaps : Leaps S p.allocator done env ls m m') :
      Concludes S exits done p ls m .onward env
  | leaves {ending : Ending} {env : Env} {label : String} {m' : Machine} (off : ending ≠ .onward)
      (target : exits.target? ending = some label) (leaps : Leaps S p.allocator label env ls m m') :
      Concludes S exits done p ls m ending env

/-- An arm of a conditional, and what its body does. -/
structure Arm where
  test : Code
  body : Gen Unit
  run : Env → Option (Ending × Env)

/-- What the first arm does whose condition holds, or else something else. -/
def Arm.first (otherwise : Env → Option (Ending × Env)) : List Arm → Env → Option (Ending × Env)
  | [], env => otherwise env
  | arm :: rest, env => (arm.test.expr.eval env).bind fun x => if x.isTrue then arm.run env else first otherwise rest env

variable {S : Site} {p p' p₁ p₂ : Progress} {m m₁ : Machine} {c : Context} {verifies : Bool} {env : Env}
  {ls : List Level} {exits : Exits} {ending : Ending} {label done : String}
  {run otherwise : Env → Option (Ending × Env)} {placed : List (Arm × String)}

/-- What stood in the levels from some point on stands in them where generation went on from there. -/
theorem Flat.over (first : Flat p p₁) (later : Flat p₁ p') :
    Stands (InScopes p.allocator.scopes) p₁.allocator p'.allocator := by
  have within := later.within first.clear 0
  rwa [first.scopes] at within

theorem Executes.refl (clear : p.allocator.Clear) :
    Executes S exits 0 p p fun env => some (.onward, env) := by
  refine .of_onward (.refl clear) (fun {env ending env'} came => ?_) fun hosts env env' m stopped came => ?_
  · cases came
    rfl
  · cases came
    exact ⟨m, .refl, stopped⟩

theorem Executes.concludes {env' : Env} (executes : Executes S exits 0 p p' run) (hosts : S.Hosts p')
    (stopped : Stopped S p env m) (came : run env = some (ending, env')) :
    Concludes S exits done p' p.allocator.scopes m ending env' := by
  by_cases off : ending = .onward
  · cases off
    obtain ⟨m', reaches, stopped'⟩ := executes.onward hosts stopped came
    exact .here reaches stopped'
  · obtain ⟨label, m', target, leaps⟩ := executes.leaves hosts stopped came off
    exact .leaves off target leaps

namespace Concludes

theorem after (reaches : Reaches S.entries m m₁) (concludes : Concludes S exits done p ls m₁ ending env) :
    Concludes S exits done p ls m ending env := by
  cases concludes with
  | here reaches' stopped => exact .here (reaches.trans reaches') stopped
  | done leaps => exact .done (leaps.after reaches)
  | leaves off target leaps => exact .leaves off target (leaps.after reaches)

/-- More is generated behind, which goes on to where statements end. -/
theorem onto (concludes : Concludes S exits done p ls m ending env) (clear : p.allocator.Clear)
    (stands : Stands (InScopes ls) p.allocator p'.allocator)
    (goes : ∀ {env m}, Stopped S p env m → Concludes S exits done p' ls m .onward env) :
    Concludes S exits done p' ls m ending env := by
  cases concludes with
  | here reaches stopped => exact (goes stopped).after reaches
  | done leaps => exact .done (leaps.forth clear stands)
  | leaves off target leaps => exact .leaves off target (leaps.forth clear stands)

end Concludes

namespace Gen

open Alloc

/-! ### Tests -/

/-- Control goes to the label of the first arm whose condition holds, or on if there is none. -/
theorem testAll_leads (faithful : ∀ q ∈ placed, Faithful S (c.checked verifies) q.1.test ∧ q.1.test.Tidy c)
    (clear : p.allocator.Clear)
    (ran : (testAll (placed.map fun q => (q.1.test, q.2))).exec (c.checked verifies) p = .ok ((), p')) :
    Flat p p' ∧ (S.Hosts p' → ∀ {otherwise env m end'}, Stopped S p env m →
      Arm.first otherwise (placed.map Prod.fst) env = some end' →
      (∃ q ∈ placed, q.1.run env = some end' ∧ ∃ m', Leaps S p'.allocator q.2 env p.allocator.scopes m m') ∨
      (otherwise env = some end' ∧ ∃ m', Reaches S.entries m m' ∧ Stopped S p' env m')) := by
  induction placed generalizing p with
  | nil =>
    cases ran
    exact ⟨.refl clear, fun _ _ _ m _ stopped came => .inr ⟨came, m, .refl, stopped⟩⟩
  | cons q rest ih =>
    obtain ⟨⟨⟩, p₁, branched, ran⟩ := exec_bind_ok ran
    obtain ⟨own, tidy⟩ := faithful q List.mem_cons_self
    obtain ⟨first, taken, passed⟩ := branch_leaps own tidy clear branched
    obtain ⟨later, leads⟩ := ih (fun q member => faithful q (List.mem_cons_of_mem _ member)) first.clear ran
    refine ⟨first.trans later, fun hosts otherwise env m end' stopped came => ?_⟩
    have hosts₁ := later.hosts hosts
    obtain ⟨x, value, came⟩ := Option.bind_eq_some_iff.1 came
    cases holds : x.isTrue with
    | true =>
      rw [holds, if_pos rfl] at came
      obtain ⟨m', leaps⟩ := taken hosts₁ stopped value holds
      exact .inl ⟨q, List.mem_cons_self, came, m', leaps.forth first.clear (first.over later)⟩
    | false =>
      rw [holds, if_neg Bool.false_ne_true] at came
      obtain ⟨m₁, reaches, stopped₁⟩ := passed hosts₁ stopped value holds
      rcases leads hosts stopped₁ came with ⟨q', member, came, m', leaps⟩ | ⟨came, m', reaches', stopped'⟩
      · rw [first.scopes] at leaps
        exact .inl ⟨q', List.mem_cons_of_mem _ member, came, m', leaps.after reaches⟩
      · exact .inr ⟨came, m', reaches.trans reaches', stopped'⟩

/-! ### Arms -/

/-- An arm does what its body does once control has gone to its label. -/
theorem arm_concludes {q : Arm × String}
    (executes : ∀ {p p'}, p.allocator.Clear → (block q.1.body).exec (c.checked verifies) p = .ok ((), p') →
      Flat p p' ∧ Executes S exits 0 p p' q.1.run)
    (clear : p.allocator.Clear) (placed : (placeLabel q.2).exec (c.checked verifies) p = .ok ((), p₁))
    (ran : (block q.1.body).exec (c.checked verifies) p₁ = .ok ((), p₂)) :
    Flat p p₂ ∧ (S.Hosts p₂ → ∀ {env ending env' m m₁}, Leaps S p.allocator q.2 env p.allocator.scopes m m₁ →
      q.1.run env = some (ending, env') → Concludes S exits done p₂ p.allocator.scopes m ending env') := by
  obtain ⟨first, -, -, caught⟩ := placeLabel_catches (S := S) clear placed
  obtain ⟨second, body⟩ := executes first.clear ran
  refine ⟨first.trans second, fun hosts env ending env' m m₁ leaps came => ?_⟩
  obtain ⟨m₂, reaches, stopped⟩ := caught (second.hosts hosts) (leaps.forth clear (first.within clear 0))
  rw [← first.scopes]
  exact .after reaches (body.concludes hosts stopped came)

/-- The arms one after the other. All but the last of them go to the end. -/
theorem branchBodies_concludes
    (executes : ∀ q ∈ placed, ∀ {p p'}, p.allocator.Clear →
      (block q.1.body).exec (c.checked verifies) p = .ok ((), p') → Flat p p' ∧ Executes S exits 0 p p' q.1.run)
    (clear : p.allocator.Clear)
    (ran : (branchBodies done (placed.map fun q => (q.1.body, q.2))).exec (c.checked verifies) p = .ok ((), p')) :
    Flat p p' ∧ ∀ q ∈ placed, S.Hosts p' → ∀ {env ending env' m m₁},
      Leaps S p.allocator q.2 env p.allocator.scopes m m₁ → q.1.run env = some (ending, env') →
      Concludes S exits done p' p.allocator.scopes m ending env' := by
  induction placed generalizing p with
  | nil =>
    cases ran
    exact ⟨.refl clear, nofun⟩
  | cons q rest ih =>
    cases rest with
    | nil =>
      obtain ⟨⟨⟩, p₁, placed, ran⟩ := exec_bind_ok ran
      obtain ⟨flat, concludes⟩ := arm_concludes (executes q List.mem_cons_self) clear placed ran
      refine ⟨flat, fun q' member => ?_⟩
      cases List.mem_singleton.1 member
      exact concludes
    | cons second others =>
      obtain ⟨⟨⟩, p₁, placed, ran⟩ := exec_bind_ok ran
      obtain ⟨⟨⟩, p₂, blocked, ran⟩ := exec_bind_ok ran
      obtain ⟨⟨⟩, p₃, jumped, ran⟩ := exec_bind_ok ran
      obtain ⟨first, concludes⟩ := arm_concludes (executes q List.mem_cons_self) clear placed blocked
      obtain ⟨jumps, leaps⟩ := jump_leaps (S := S) first.clear jumped
      obtain ⟨later, concludes'⟩ := ih (fun q member => executes q (List.mem_cons_of_mem _ member)) jumps.clear ran
      have upto := first.trans jumps
      refine ⟨upto.trans later, fun q' member hosts env ending env' m m₁ leaps' came => ?_⟩
      rcases List.mem_cons.1 member with rfl | member
      · have ended := concludes ((jumps.trans later).hosts hosts) leaps' came
        refine ended.onto first.clear (first.over (jumps.trans later)) fun {env m} stopped => ?_
        obtain ⟨m', leaps⟩ := leaps (later.hosts hosts) stopped
        rw [first.scopes] at leaps
        exact .done (leaps.forth jumps.clear (upto.over later))
      · rw [← upto.scopes] at leaps' ⊢
        exact concludes' q' member hosts (leaps'.forth clear (upto.scopes ▸ upto.within clear 0)) came

/-! ### Conditionals -/

/-- The label is placed that statements end at. -/
theorem executes_of_concludes (flat : Flat p p₁)
    (ends : S.Hosts p₁ → ∀ {env ending env' m}, Stopped S p env m → run env = some (ending, env') →
      Concludes S exits done p₁ p.allocator.scopes m ending env')
    (placed : (placeLabel done).exec (c.checked verifies) p₁ = .ok ((), p')) : Executes S exits 0 p p' run := by
  obtain ⟨last, -, through, caught⟩ := placeLabel_catches (S := S) flat.clear placed
  rw [flat.scopes] at caught
  refine ⟨(flat.trans last).toForward, fun hosts env env' m stopped came => ?_,
    fun hosts env ending env' m stopped came off => ?_⟩
  · cases ends (last.hosts hosts) stopped came with
    | here reaches stopped' =>
      obtain ⟨m', reaches', stopped'⟩ := through hosts stopped'
      exact ⟨m', reaches.trans reaches', stopped'⟩
    | done leaps => exact caught hosts (leaps.forth flat.clear (flat.over last))
    | leaves off => exact absurd rfl off
  · cases ends (last.hosts hosts) stopped came with
    | here => exact absurd rfl off
    | done => exact absurd rfl off
    | leaves off target leaps => exact ⟨_, _, target, leaps.forth flat.clear (flat.over last)⟩

theorem freshLabels_flat {α : Type} {xs : List α} {labels : List String} (clear : p.allocator.Clear)
    (ran : (freshLabels xs).exec (c.checked verifies) p = .ok (labels, p')) :
    labels.length = xs.length ∧ Flat p p' ∧ ∀ {env m}, Stopped S p env m → Stopped S p' env m := by
  induction xs generalizing p labels with
  | nil =>
    cases ran
    exact ⟨rfl, .refl clear, fun stopped => stopped⟩
  | cons x rest ih =>
    obtain ⟨label, p₁, first, ran⟩ := exec_bind_ok ran
    obtain ⟨others, p₂, more, ran⟩ := exec_bind_ok ran
    cases ran
    obtain ⟨flat, stopped⟩ := freshLabel_flat (S := S) clear first
    obtain ⟨length, flat', stopped'⟩ := ih flat.clear more
    exact ⟨congrArg (· + 1) length, flat.trans flat', fun before => stopped' (stopped before)⟩

/-- A conditional does what its first arm does whose condition holds. -/
theorem conditional_executes {arms : List Arm} {rest : Option (Gen Unit)}
    (faithful : ∀ arm ∈ arms, Faithful S (c.checked verifies) arm.test ∧ arm.test.Tidy c)
    (executes : ∀ arm ∈ arms, ∀ {p p'}, p.allocator.Clear →
      (block arm.body).exec (c.checked verifies) p = .ok ((), p') → Flat p p' ∧ Executes S exits 0 p p' arm.run)
    (last : ∀ {p p'}, p.allocator.Clear →
      (match rest with | some body => block body | none => pure ()).exec (c.checked verifies) p = .ok ((), p') →
      Flat p p' ∧ Executes S exits 0 p p' otherwise)
    (clear : p.allocator.Clear)
    (ran : (conditional (arms.map fun arm => (arm.test, arm.body)) rest).exec (c.checked verifies) p = .ok ((), p')) :
    Executes S exits 0 p p' (Arm.first otherwise arms) := by
  obtain ⟨done, p₁, one, ran⟩ := exec_bind_ok ran
  obtain ⟨labels, p₂, more, ran⟩ := exec_bind_ok ran
  obtain ⟨⟨⟩, p₃, tested, ran⟩ := exec_bind_ok ran
  obtain ⟨p₄, rested, ran⟩ : ∃ p₄,
      (match rest with | some body => block body | none => pure ()).exec (c.checked verifies) p₃ = .ok ((), p₄) ∧ (do
      jump done
      branchBodies done (((arms.map fun arm => (arm.test, arm.body)).map Prod.snd).zip labels).reverse
      placeLabel done : Gen Unit).exec (c.checked verifies) p₄ = .ok ((), p') := by
    cases rest with
    | some body =>
      obtain ⟨⟨⟩, p₄, blocked, ran⟩ := exec_bind_ok ran
      exact ⟨p₄, blocked, ran⟩
    | none => exact ⟨p₃, rfl, ran⟩
  obtain ⟨⟨⟩, p₅, jumped, ran⟩ := exec_bind_ok ran
  obtain ⟨⟨⟩, p₆, bodies, placed⟩ := exec_bind_ok ran
  obtain ⟨flat₁, still₁⟩ := freshLabel_flat (S := S) clear one
  obtain ⟨length, flat₂, still₂⟩ := freshLabels_flat (S := S) flat₁.clear more
  have whole : (arms.zip labels).map Prod.fst = arms :=
    List.map_fst_zip (by rw [length, List.length_map])
  have mine : ∀ q ∈ arms.zip labels, q.1 ∈ arms := fun q member => (List.of_mem_zip member).1
  rw [List.map_map, List.zip_map_left] at tested bodies
  rw [← List.map_reverse] at bodies
  obtain ⟨flat₃, leads⟩ := testAll_leads (S := S)
    (fun q member => faithful q.1 (mine q member)) flat₂.clear tested
  obtain ⟨flat₄, others⟩ := last flat₃.clear rested
  obtain ⟨flat₅, leaps⟩ := jump_leaps (S := S) flat₄.clear jumped
  obtain ⟨flat₆, concludes⟩ := branchBodies_concludes (S := S)
    (fun q member => executes q.1 (mine q (List.mem_reverse.1 member))) flat₅.clear bodies
  have upto := (flat₁.trans flat₂).trans flat₃
  have front := (upto.trans flat₄).trans flat₅
  refine executes_of_concludes (front.trans flat₆) (fun hosts env ending env' m stopped came => ?_) placed
  have hosts₅ := flat₆.hosts hosts
  have hosts₄ := flat₅.hosts hosts₅
  rw [← whole] at came
  rcases leads (flat₄.hosts hosts₄) (still₂ (still₁ stopped)) came with
    ⟨q, member, came, m₁, leaps'⟩ | ⟨came, m₁, reaches, stopped₁⟩
  · rw [(flat₁.trans flat₂).scopes] at leaps'
    have ended := concludes q (List.mem_reverse.2 member) hosts
      (front.scopes ▸ leaps'.forth upto.clear (upto.over (flat₄.trans flat₅))) came
    rwa [front.scopes] at ended
  · have ended : Concludes S exits done p₄ p₃.allocator.scopes m ending env' :=
      .after reaches (others.concludes hosts₄ stopped₁ came)
    rw [upto.scopes] at ended
    refine ended.onto flat₄.clear ((upto.trans flat₄).over (flat₅.trans flat₆)) fun {env m} stopped => ?_
    obtain ⟨m', leaps⟩ := leaps hosts₅ stopped
    rw [(upto.trans flat₄).scopes] at leaps
    exact .done (leaps.forth flat₅.clear (front.over flat₆))

end Gen

end SmallC
