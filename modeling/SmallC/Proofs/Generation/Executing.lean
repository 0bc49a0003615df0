import SmallC.Proofs.Generation.Defining

/-!
Statements that are executed. Between two statements a machine stands at the end of what was generated, and the
variables in scope have their numbers. The code of a statement brings it to the end of what is generated for it, with
the numbers that the statement leaves behind, or, if the statement leaves the loop around it, to the label for that.
-/
namespace SmallC

open Allocator Machine

/-- A machine at the end of what was generated, with numbers for the variables in scope. -/
def Stopped (S : Site) (p : Progress) (env : Env) (m : Machine) : Prop :=
  ∃ last, Abreast S p last m ∧ Reflects p.allocator last env p.allocator.scopes

/-- Control has gone to a label, with numbers for the variables of some levels. -/
def Leaps (S : Site) (a : Allocator) (label : String) (env : Env) (ls : List Level) (m m' : Machine) : Prop :=
  ∃ last, Arrives S (InScopes ls) a label last m m' ∧ Reflects a last env ls

/-- Generation from one state between two statements to another. The levels around the innermost one are left alone. -/
structure Forward (p p' : Progress) : Prop where
  stands : Stands p.allocator.Known p.allocator p'.allocator
  clear : p'.allocator.Clear
  code : Appends p p'
  outer : p'.allocator.scopes.tail = p.allocator.scopes.tail

/-- Generation that leaves all levels alone. -/
structure Flat (p p' : Progress) : Prop extends Forward p p' where
  scopes : p'.allocator.scopes = p.allocator.scopes

/-- Where control leaves for. -/
def Exits.target? (exits : Exits) : Ending → Option String
  | .onward => Option.none
  | .broken => exits.brk
  | .continued => exits.cont

/-- The code of a statement does what the statement does to numbers. Where control leaves for a label, only so many
of the outer scopes count. -/
structure Executes (S : Site) (exits : Exits) (n : Nat) (p p' : Progress) (run : Env → Option (Ending × Env)) : Prop where
  forward : Forward p p'
  onward : S.Hosts p' → ∀ {env env' m}, Stopped S p env m → run env = some (.onward, env') →
    ∃ m', Reaches S.entries m m' ∧ Stopped S p' env' m'
  leaves : S.Hosts p' → ∀ {env ending env' m}, Stopped S p env m → run env = some (ending, env') →
    ending ≠ .onward → ∃ label m', exits.target? ending = some label ∧
      Leaps S p'.allocator label (env'.drop n) (p.allocator.scopes.drop n) m m'

variable {S : Site} {K : VarId → Prop} {kept : List Reg} {p p' p₁ : Progress} {a a' : Allocator} {m m' m₁ : Machine}
  {last : VarId → Option Word} {c : Context} {verifies : Bool} {env : Env} {ls : List Level} {exits : Exits} {n : Nat}
  {name label target : String} {id : VarId} {code : Code} {run run' : Env → Option (Ending × Env)}

theorem Number.convert_kind (x : Number) (kind : NumberKind) : (x.convert kind).kind = kind := by
  obtain ⟨own, w⟩ := x
  cases own <;> cases kind <;> rfl

namespace Forward

theorem refl (clear : p.allocator.Clear) : Forward p p :=
  ⟨.refl fun known => known, clear, .refl p, rfl⟩

theorem trans (first : Forward p p₁) (second : Forward p₁ p') : Forward p p' :=
  ⟨first.stands.trans (second.stands.mono first.stands.still), second.clear, first.code.trans second.code,
    second.outer.trans first.outer⟩

theorem hosts (forward : Forward p p') (hosts : S.Hosts p') : S.Hosts p :=
  hosts.earlier forward.code forward.stands.grows

/-- What stands in levels was known, and is left alone. -/
theorem within (forward : Forward p p') (clear : p.allocator.Clear) (n : Nat) :
    Stands (InScopes (p.allocator.scopes.drop n)) p.allocator p'.allocator := by
  apply forward.stands.mono
  intro i inScope
  exact (inScope.mono (List.drop_subset _ _)).known clear.sound.names

theorem drop_outer (forward : Forward p p') (one : 1 ≤ n) :
    p'.allocator.scopes.drop n = p.allocator.scopes.drop n := by
  obtain ⟨k, rfl⟩ := Nat.exists_eq_add_of_le one
  rw [← List.drop_drop, ← List.drop_drop, List.drop_one, List.drop_one, forward.outer]

end Forward

namespace Flat

theorem refl (clear : p.allocator.Clear) : Flat p p := ⟨.refl clear, rfl⟩

theorem trans (first : Flat p p₁) (second : Flat p₁ p') : Flat p p' :=
  ⟨first.toForward.trans second.toForward, second.scopes.trans first.scopes⟩

theorem of_along (clear : p.allocator.Clear) (along : Along p.allocator.Known kept p p')
    (after : At p.allocator.shape p'.allocator) : Flat p p' := by
  have scopes := scopes_congr along.root along.inner
  exact ⟨⟨along.stands, clear.along along after, along.code, by rw [scopes]⟩, scopes⟩

end Flat

/-- Code that is run through leaves the numbers of variables alone. -/
theorem Stopped.through (stopped : Stopped S p env m) (flows : RunsThrough S p.allocator.Known [] p p')
    (clear : p.allocator.Clear) (hosts : S.Hosts p') :
    ∃ m', Reaches S.entries m m' ∧ Stopped S p' env m' := by
  obtain ⟨last, abreast, reflects⟩ := stopped
  obtain ⟨m', comes⟩ := flows.runs hosts abreast
  refine ⟨m', comes.reaches, last, comes.abreast, ?_⟩
  rw [scopes_congr flows.along.root flows.along.inner]
  exact reflects.congr flows.along.stands.alike (fun inScope => inScope.known clear.sound.names) fun _ => rfl

namespace Leaps

theorem after (reaches : Reaches S.entries m m₁) (leaps : Leaps S a label env ls m₁ m') :
    Leaps S a label env ls m m' := by
  obtain ⟨last, arrives, reflects⟩ := leaps
  exact ⟨last, arrives.after reaches, reflects⟩

/-- The label may stand behind more code. -/
theorem forth (leaps : Leaps S p.allocator label env ls m m') (clear : p.allocator.Clear)
    (stands : Stands (InScopes ls) p.allocator a') : Leaps S a' label env ls m m' := by
  obtain ⟨last, arrives, reflects⟩ := leaps
  exact ⟨last, arrives.forth clear.orderly stands, reflects.congr stands.alike (fun inScope => inScope) fun _ => rfl⟩

/-- The label may stand where paths met before. -/
theorem back (leaps : Leaps S a' label env ls m m') (met : Met a) (stands : Stands (InScopes ls) a a') :
    Leaps S a label env ls m m' := by
  obtain ⟨last, arrives, reflects⟩ := leaps
  exact ⟨last, arrives.back met stands, reflects.congr stands.alike_back (fun inScope => inScope) fun _ => rfl⟩

/-- Fewer levels may count. -/
theorem drop (leaps : Leaps S a label env ls m m') (k : Nat) : Leaps S a label (env.drop k) (ls.drop k) m m' := by
  obtain ⟨last, arrives, reflects⟩ := leaps
  exact ⟨last, arrives.mono fun inScope => inScope.mono (List.drop_subset _ _), reflects.drop k⟩

end Leaps

/-- What comes second is done where the first goes on. -/
theorem Env.andThen_eq_some {first : Option (Ending × Env)} {rest : Env → Option (Ending × Env)} {done : Ending × Env}
    (ran : Env.andThen first rest = some done) :
    (∃ mid, first = some (.onward, mid) ∧ rest mid = some done) ∨ (first = some done ∧ done.1 ≠ .onward) := by
  obtain ⟨⟨ending, mid⟩, came, goes⟩ := Option.bind_eq_some_iff.1 ran
  split at goes
  · next same =>
    cases same
    exact .inl ⟨mid, came, goes⟩
  · next off =>
    cases goes
    exact .inr ⟨came, off⟩

namespace Executes

/-- What is left may be told of fewer scopes. -/
theorem fewer (executes : Executes S exits 0 p p' run) (n : Nat) : Executes S exits n p p' run := by
  refine ⟨executes.forward, executes.onward, fun hosts env ending env' m stopped ran off => ?_⟩
  obtain ⟨label, m', target, leaps⟩ := executes.leaves hosts stopped ran off
  exact ⟨label, m', target, leaps.drop n⟩

/-- Code that is run through and does what a statement does that goes on. -/
theorem of_onward (forward : Forward p p') (quiet : ∀ {env ending env'}, run env = some (ending, env') → ending = .onward)
    (onward : S.Hosts p' → ∀ {env env' m}, Stopped S p env m → run env = some (.onward, env') →
      ∃ m', Reaches S.entries m m' ∧ Stopped S p' env' m') : Executes S exits n p p' run :=
  ⟨forward, onward, fun _ _ _ _ _ _ ran off => absurd (quiet ran) off⟩

/-- One statement after the other. -/
theorem andThen (first : Executes S exits 1 p p₁ run) (rest : Executes S exits 1 p₁ p' run') :
    Executes S exits 1 p p' fun env => Env.andThen (run env) run' := by
  have within := rest.forward.within first.forward.clear 1
  have outer := first.forward.drop_outer (Nat.le_refl 1)
  rw [outer] at within
  refine ⟨first.forward.trans rest.forward, fun hosts env env' m stopped ran => ?_,
    fun hosts env ending env' m stopped ran off => ?_⟩
  · obtain ⟨mid, ran, ran'⟩ | ⟨-, off⟩ := Env.andThen_eq_some ran
    · obtain ⟨m₁, reaches, stopped₁⟩ := first.onward (rest.forward.hosts hosts) stopped ran
      obtain ⟨m', reaches', stopped'⟩ := rest.onward hosts stopped₁ ran'
      exact ⟨m', reaches.trans reaches', stopped'⟩
    · exact absurd rfl off
  · obtain ⟨mid, ran, ran'⟩ | ⟨ran, -⟩ := Env.andThen_eq_some ran
    · obtain ⟨m₁, reaches, stopped₁⟩ := first.onward (rest.forward.hosts hosts) stopped ran
      obtain ⟨label, m', target, leaps⟩ := rest.leaves hosts stopped₁ ran' off
      rw [outer] at leaps
      exact ⟨label, m', target, leaps.after reaches⟩
    · obtain ⟨label, m', target, leaps⟩ := first.leaves (rest.forward.hosts hosts) stopped ran off
      exact ⟨label, m', target, leaps.forth first.forward.clear within⟩

end Executes

namespace Gen

open Alloc

/-! ### Labels and jumps -/

theorem releaseHolds_flat (clear : p.allocator.Clear) (ran : releaseHolds.exec (c.checked verifies) p = .ok ((), p')) :
    Flat p p' ∧ (S.Hosts p' → ∀ {env m}, Stopped S p env m → ∃ m', Reaches S.entries m m' ∧ Stopped S p' env m') := by
  have flows := releaseHolds_flows (S := S) clear.orderly ran
  exact ⟨.of_along clear flows.along ((releaseHolds_stays (s := p.allocator.shape)).run clear.atShape ran),
    fun hosts _ _ stopped => stopped.through flows clear hosts⟩

/-- A jump arrives at its label. -/
theorem jump_leaps (clear : p.allocator.Clear) (ran : (jump label).exec (c.checked verifies) p = .ok ((), p')) :
    Flat p p' ∧ (S.Hosts p' → ∀ {env m}, Stopped S p env m →
      ∃ m', Leaps S p'.allocator label env p.allocator.scopes m m') := by
  obtain ⟨along, -, leaves⟩ := jump_leaves (S := S) clear.orderly ran
  have flat : Flat p p' := .of_along clear along ((jump_stays label (s := p.allocator.shape)).run clear.atShape ran)
  refine ⟨flat, fun hosts env m stopped => ?_⟩
  obtain ⟨last, abreast, reflects⟩ := stopped
  obtain ⟨m', arrives⟩ := leaves hosts abreast
  have within := flat.within clear 0
  exact ⟨m', last, arrives.mono fun inScope => inScope.known clear.sound.names,
    reflects.congr within.alike (fun inScope => inScope) fun _ => rfl⟩

/-- A label is come to from the code in front of it, and from wherever control arrives at it. -/
theorem placeLabel_catches (clear : p.allocator.Clear)
    (ran : (placeLabel label).exec (c.checked verifies) p = .ok ((), p')) :
    Flat p p' ∧ Met p'.allocator ∧
      (S.Hosts p' → ∀ {env m}, Stopped S p env m → ∃ m', Reaches S.entries m m' ∧ Stopped S p' env m') ∧
      (S.Hosts p' → ∀ {env m m₁}, Leaps S p'.allocator label env p.allocator.scopes m m₁ →
        ∃ m', Reaches S.entries m m' ∧ Stopped S p' env m') := by
  obtain ⟨flows, met, -⟩ := placeLabel_flows (S := S) clear.orderly ran
  have flat : Flat p p' :=
    .of_along clear flows.along ((placeLabel_stays label (s := p.allocator.shape)).run clear.atShape ran)
  have within : ∀ {id}, InScopes p.allocator.scopes id → p.allocator.Known id :=
    fun inScope => inScope.known clear.sound.names
  obtain ⟨-, -, caught⟩ := placeLabel_flows (S := S) (clear.orderly.mono within (List.Subset.refl _)) ran
  refine ⟨flat, met, fun hosts _ _ stopped => stopped.through flows clear hosts, fun hosts env m m₁ leaps => ?_⟩
  obtain ⟨last, arrives, reflects⟩ := leaps
  obtain ⟨m', comes⟩ := caught hosts arrives
  refine ⟨m', comes.reaches, _, comes.abreast, ?_⟩
  rw [flat.scopes]
  exact reflects.congr (Stands.refl fun inScope => flat.stands.still (within inScope)).alike (fun inScope => inScope)
    fun counts => valuesOf_of counts

/-- A condition is decided: where it holds control arrives at a label, and elsewhere goes on. -/
theorem branch_leaps (faithful : Faithful S (c.checked verifies) code) (tidy : code.Tidy c) (clear : p.allocator.Clear)
    (ran : (code.branch target).exec (c.checked verifies) p = .ok ((), p')) :
    Flat p p' ∧
      (S.Hosts p' → ∀ {env m x}, Stopped S p env m → code.expr.eval env = some x → x.isTrue = true →
        ∃ m', Leaps S p'.allocator target env p.allocator.scopes m m') ∧
      (S.Hosts p' → ∀ {env m x}, Stopped S p env m → code.expr.eval env = some x → x.isTrue = false →
        ∃ m', Reaches S.entries m m' ∧ Stopped S p' env m') := by
  have decides := faithful.branch.decides clear.orderly clear.covers ran
  have flat : Flat p p' :=
    .of_along clear decides.along ((tidy.branch target p.allocator.shape clear.ready).run clear.atShape ran)
  have within := flat.within clear 0
  refine ⟨flat, fun hosts env m x stopped value holds => ?_, fun hosts env m x stopped value fails => ?_⟩
  · obtain ⟨last, abreast, reflects⟩ := stopped
    obtain ⟨m', arrives⟩ := decides.taken hosts abreast ⟨x, ⟨env, reflects.shows clear, value⟩, holds⟩
    exact ⟨m', last, arrives.mono fun inScope => inScope.known clear.sound.names,
      reflects.congr within.alike (fun inScope => inScope) fun _ => rfl⟩
  · obtain ⟨last, abreast, reflects⟩ := stopped
    obtain ⟨last', m', comes⟩ := decides.passed hosts abreast ⟨x, ⟨env, reflects.shows clear, value⟩, fails⟩
    refine ⟨m', comes.reaches, last', comes.abreast, ?_⟩
    rw [flat.scopes]
    exact reflects.congr within.alike (fun inScope => inScope) fun inScope =>
      comes.same (InScopes.known clear.sound.names inScope)

/-- A label that is handed out changes nothing. -/
theorem freshLabel_flat (clear : p.allocator.Clear)
    (ran : freshLabel.exec (c.checked verifies) p = .ok (label, p')) :
    Flat p p' ∧ ∀ {env m}, Stopped S p env m → Stopped S p' env m := by
  obtain ⟨along, same, still⟩ := freshLabel_along (S := S) clear.orderly ran
  refine ⟨.of_along clear along ((freshLabel_stays (P := At p.allocator.shape)).run clear.atShape ran), fun stopped => ?_⟩
  obtain ⟨last, abreast, reflects⟩ := stopped
  refine ⟨last, still abreast, ?_⟩
  rw [same]
  exact reflects

/-! ### Statements without others in them -/

/-- An assignment gives a variable its number. -/
theorem evaluate_assigned {op : Option WordOp} {calls : CallCode} {line line' n : Nat} {value : Expr}
    (pure : value.isPure = true) (proper : (Expr.assign line op (.var line' name n) value).Proper) (calls' : calls.Tidy c)
    (clear : p.allocator.Clear)
    (ran : (evaluate (Gen.code calls (.assign line op (.var line' name n) value))).exec (c.checked verifies) p =
      .ok ((), p')) :
    Flat p p' ∧ (S.Hosts p' → ∀ {env env' m}, Stopped S p env m →
      Expr.assigns env (.assign line op (.var line' name n) value) = some env' →
      ∃ m', Reaches S.entries m m' ∧ Stopped S p' env' m') := by
  have stays := evaluate_stays (code_tidy calls' _ proper) p.allocator.shape clear.ready
  rw [Expr.Proper, Expr.Proper] at proper
  obtain ⟨id, resolved, assigns⟩ := evaluate_assigns (S := S) pure proper.2 proper.1.named clear.orderly clear.covers ran
  have flat : Flat p p' := .of_along clear assigns.along (stays.run clear.atShape ran)
  refine ⟨flat, fun hosts env env' m stopped assigned => ?_⟩
  obtain ⟨last, abreast, reflects⟩ := stopped
  obtain ⟨old, number, assigned⟩ := Option.bind_eq_some_iff.1 assigned
  obtain ⟨new, computed, assigned⟩ := Option.bind_eq_some_iff.1 assigned
  cases assigned
  obtain ⟨last', m', abreast', reaches, written, others⟩ := assigns.runs hosts abreast
    ⟨env, old, new, reflects.shows clear, number, computed, rfl⟩
  rw [clear.find?] at resolved
  have within := flat.within clear 0
  refine ⟨m', reaches, last', abreast', ?_⟩
  rw [flat.scopes]
  have before : Reflects p.allocator (Function.update last' id (last id)) env p.allocator.scopes :=
    reflects.congr (Stands.refl within.inside).alike (fun inScope => inScope) fun {i} inScope => by
      by_cases same : i = id
      · rw [same, Function.update_self]
      · rw [Function.update_of_ne same, others (inScope.known clear.sound.names) same]
  have after := before.set (y := new.convert old.kind) resolved number (new.convert_kind _) written
    fun apart => (Function.update_of_ne apart _ _).symm
  exact after.congr within.alike (fun inScope => inScope) fun _ => rfl

/-- A definition adds a variable with its number. -/
theorem define_executes {ty : TypeSpec} (faithful : Faithful S (c.checked verifies) code) (tidy : code.Tidy c)
    (plain : ty.refs = 0) (untaken : c.addressTaken = []) (clear : p.allocator.Clear)
    (ran : (define name ty (some code)).exec (c.checked verifies) p = .ok ((), p')) :
    Executes S exits n p p' fun env => do
      let x ← code.expr.eval env
      let after ← env.add? name (x.convert ty.kind)
      return (.onward, after) := by
  obtain ⟨⟨⟩, p₁, initialised, ran⟩ := exec_bind_ok ran
  obtain ⟨⟨⟩, p₂, noted, released⟩ := exec_bind_ok ran
  obtain ⟨id, introduces⟩ := initialise_introduces (S := S) faithful.value plain clear.orderly clear.covers initialised
  have at₁ := (initialise_stays name ty tidy p.allocator.shape clear.ready).run clear.atShape initialised
  have resolved := ((introduces.clear clear at₁).find? name).trans introduces.resolved
  obtain ⟨notes, v, found, kind⟩ := noteType_flows (S := S) (c := c.checked verifies) plain untaken introduces.orderly
    resolved introduces.other noted
  have at₂ := (noteType_stays name ty true).run at₁ noted
  have whole := (introduces.extend notes).extend (releaseHolds_flows notes.along.orderly released)
  have clear' := whole.clear clear (releaseHolds_stays.run at₂ released)
  have found' : p'.allocator.var? id = some v := by
    rw [exec_releaseHolds released]
    exact found
  have forward : Forward p p' := by
    refine ⟨whole.stands, clear', whole.code, ?_⟩
    rw [whole.scopes]
    rfl
  refine .of_onward forward (fun {env ending env'} ran => ?_) fun hosts env env' m stopped ran => ?_
  · obtain ⟨x, -, ran⟩ := Option.bind_eq_some_iff.1 ran
    obtain ⟨after, -, ran⟩ := Option.bind_eq_some_iff.1 ran
    cases ran
    rfl
  · obtain ⟨x, value, ran⟩ := Option.bind_eq_some_iff.1 ran
    obtain ⟨after, added, ran⟩ := Option.bind_eq_some_iff.1 ran
    cases ran
    obtain ⟨last, abreast, reflects⟩ := stopped
    obtain ⟨last', m', abreast', reaches, written, others⟩ :=
      whole.runs hosts abreast ⟨x, ⟨env, reflects.shows clear, value⟩, rfl⟩
    refine ⟨m', reaches, last', abreast', whole.toGains.reflects reflects others clear.sound found' ?_ written added⟩
    rw [kind, x.convert_kind]

/-- Control leaves for a label. -/
theorem leaveFor_executes {ending : Ending} {line : Nat} {fault : SemanticFault} (off : ending ≠ .onward)
    (clear : p.allocator.Clear)
    (ran : (leaveFor (exits.target? ending) line fault).exec (c.checked verifies) p = .ok ((), p')) :
    Executes S exits 0 p p' fun env => some (ending, env) := by
  cases target : exits.target? ending with
  | none =>
    rw [target] at ran
    cases ran
  | some label =>
    rw [target] at ran
    obtain ⟨flat, leaps⟩ := jump_leaps (S := S) clear ran
    refine ⟨flat.toForward, fun hosts env env' m stopped ran => ?_, fun hosts env ending' env' m stopped ran off' => ?_⟩
    · cases ran
      exact absurd rfl off
    · cases ran
      obtain ⟨m', leaps⟩ := leaps hosts stopped
      exact ⟨label, m', target, leaps⟩

/-- Checks that pass change nothing. -/
theorem exec_checks (ran : (do
    if (← MonadReader.read).verifies then
      match ← look Allocator.checkConsistency with
      | .ok () => return
      | .error fault => throw (.allocator fault) : Gen Unit).exec c p = .ok ((), p')) : p = p' := by
  obtain ⟨context, p₁, known, ran⟩ := exec_bind_ok ran
  cases known
  split at ran
  · obtain ⟨outcome, p₁, looked, ran⟩ := exec_bind_ok ran
    cases looked
    split at ran <;> cases ran
    rfl
  · cases ran
    rfl

/-- The end of a statement only releases registers. -/
theorem exec_endStatement {line : Nat} (clear : p.allocator.Clear)
    (ran : (endStatement exits line).exec (c.checked verifies) p = .ok ((), p')) :
    releaseHolds.exec (c.checked verifies) p = .ok ((), p') := by
  obtain ⟨⟨⟩, p₁, released, ran⟩ := exec_bind_ok ran
  have after := releaseHolds_stays.run clear.atShape released
  have same : p₁ = p' := by
    dsimp only at ran
    split at ran
    · obtain ⟨temps, p₂, looked, ran⟩ := exec_bind_ok ran
      cases looked
      rw [At.liveTemps after clear.empty] at ran
      exact exec_checks ran
    · exact exec_checks ran
  exact same ▸ released

theorem endStatement_executes {line : Nat} (clear : p.allocator.Clear)
    (ran : (endStatement exits line).exec (c.checked verifies) p = .ok ((), p')) :
    Executes S exits n p p' fun env => some (.onward, env) := by
  obtain ⟨flat, passes⟩ := releaseHolds_flat (S := S) clear (exec_endStatement clear ran)
  refine .of_onward flat.toForward (fun {env ending env'} ran => ?_) fun hosts env env' m stopped ran => ?_
  · cases ran
    rfl
  · cases ran
    exact passes hosts stopped

end Gen

end SmallC
