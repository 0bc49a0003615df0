import SmallC.Proofs.Generation.Executing

/-!
Blocks. A block has a level of its own, with a scope that has no variables yet. When the level is closed, all that was
introduced in it is gone, and what was known before stands as it did.
-/
namespace SmallC

open Allocator Machine

variable {S : Site} {K : VarId → Prop} {p p' p₁ : Progress} {m m' : Machine} {c : Context} {verifies : Bool} {env : Env}
  {exits : Exits} {id : VarId} {run : Env → Option (Ending × Env)} {body : Gen Unit}

namespace Alloc

variable {w w' : Work} {x : Unit} {hand : List Reg}

/-! ### Levels that are closed -/

/-- A variable of the innermost level is dropped, and the levels around it are left alone. -/
theorem drop_outer (own : ∀ {v}, w.allocator.var? id = some v → v.isTemp = false ∧ v.depth = w.allocator.depth)
    (ran : Ran (drop id) w x w') : w'.allocator.scopes.tail = w.allocator.scopes.tail := by
  have forgets : ∀ {a : Allocator} {v : Variable}, v.isTemp = false → v.depth = a.depth →
      (a.forgotten id v).scopes.tail = a.scopes.tail := fun {a v} isNamed deep => by
    have same : (a.forgotten id v).scopes = (a.modifyCurrent (Level.removeNameOf v.name id)).scopes := by
      rw [forgotten, if_neg (by rw [isNamed]; exact Bool.false_ne_true), deep]
      rfl
    rw [same, scopes_modifyCurrent]
    rfl
  obtain ⟨v, found, ⟨-, rfl⟩ | ⟨r, -, rfl⟩⟩ := ran_drop ran
  · exact forgets (own found).1 (own found).2
  · exact forgets (a := w.allocator.unbound id r v) (v := v.parted) (own found).1 (own found).2

theorem popLevel_outer (names : Names w.allocator) (ran : Ran popLevel w x w') :
    w'.allocator.scopes = w.allocator.scopes.tail ∧ ∀ other, w'.allocator.var? other =
      if other ∈ w.allocator.current.names.map Prod.snd then none else w.allocator.var? other := by
  obtain ⟨inside, closed⟩ := ran_popLevel ran
  refine ⟨?_, (closes closed).vars⟩
  simp only [closeLevel, ran_bind, ran_change] at closed
  obtain ⟨_, mid, dropped, rfl⟩ := closed
  obtain ⟨outer, depth, -⟩ := dropped.forM (P := fun mid => mid.allocator.scopes.tail = w.allocator.scopes.tail ∧
      mid.allocator.depth = w.allocator.depth ∧ ∀ entry ∈ w.allocator.current.names, ∀ v,
        mid.allocator.var? entry.2 = some v → v.isTemp = false ∧ v.depth = w.allocator.depth)
    ⟨rfl, rfl, fun entry member v found => by
      obtain ⟨u, found', isNamed, -, deep⟩ := names.namedIs current_level member
      cases found.symm.trans found'
      exact ⟨isNamed, deep⟩⟩
    fun entry member mid mid' still ran => by
      obtain ⟨outer, depth, own⟩ := still
      have drops := drops_one ran
      refine ⟨(drop_outer (fun found => ?_) ran).trans outer, drops.depth.trans depth, fun other member' v found => ?_⟩
      · rw [depth]
        exact own entry member _ found
      · rw [drops.vars] at found
        split at found
        · cases found
        · exact own other member' v found
  have inside' : mid.allocator.inner ≠ [] := fun empty => by
    rw [Allocator.depth, Allocator.depth, empty] at depth
    exact inside (List.eq_nil_of_length_eq_zero depth.symm)
  rw [← outer]
  obtain ⟨level, rest, split⟩ := List.exists_cons_of_ne_nil inside'
  simp [scopes, split]

/-- What is not in the innermost level stands as it did once that is closed. -/
theorem popLevel_stands (names : Names w.allocator) (inside : ∀ {id}, K id → w.allocator.Known id)
    (outside : ∀ {id v}, K id → w.allocator.var? id = some v → v.isTemp = true ∨ v.depth < w.allocator.depth)
    (ran : Ran popLevel w x w') : Stands K w.allocator w'.allocator := by
  obtain ⟨-, vars⟩ := popLevel_outer names ran
  refine ⟨growing_popLevel _ _ _ ran, inside, fun {i v} counts found => ⟨v, ?_, .refl v⟩, fun {i} _ none => ?_⟩
  · rw [vars, if_neg, found]
    intro member
    obtain ⟨⟨own, i⟩, inside, rfl⟩ := List.mem_map.1 member
    obtain ⟨u, found', isNamed, -, deep⟩ := names.namedIs current_level inside
    cases found.symm.trans found'
    rcases outside counts found with isTemp | shallow
    · cases isTemp.symm.trans isNamed
    · exact Nat.lt_irrefl _ (deep ▸ shallow)
  · rw [vars, none]
    split <;> rfl

end Alloc

/-- What was known before a level was opened does not stand in it. -/
theorem Allocator.Clear.shallow {a a' : Allocator} {v : Variable} (clear : a.Clear) (stands : Stands a.Known a a')
    (deep : a'.depth = a.depth + 1) (known : a.Known id) (found : a'.var? id = some v) :
    v.isTemp = true ∨ v.depth < a'.depth := by
  obtain ⟨u, found', stays⟩ := stands.old known found
  cases isTemp : v.isTemp with
  | true => exact .inl rfl
  | false =>
    right
    obtain ⟨l, level, -⟩ := clear.sound.names.named found' (stays.isTemp.symm.trans isTemp)
    have within := (List.getElem?_eq_some_iff.1 level).1
    rw [length_levels] at within
    rw [deep, stays.depth]
    exact within

theorem Env.scoped_eq_some {ending : Ending} {env' : Env} (came : Env.scoped run env = some (ending, env')) :
    ∃ mid, run ([] :: env) = some (ending, mid) ∧ mid.tail = env' := by
  obtain ⟨⟨ending', mid⟩, inside, same⟩ := Option.map_eq_some_iff.1 came
  cases same
  exact ⟨mid, inside, rfl⟩

namespace Gen

open Alloc

/-! ### Blocks -/

/-- A level is opened, with a scope that has no variables yet. -/
theorem pushLevel_scope (clear : p.allocator.Clear)
    (ran : (Gen.alloc (pushLevel false)).exec (c.checked verifies) p = .ok ((), p')) :
    p'.allocator.Clear ∧ p'.allocator.scopes = Level.empty false :: p.allocator.scopes ∧
      Stands p.allocator.Known p.allocator p'.allocator ∧ Appends p p' ∧
      (S.Hosts p' → ∀ {env m}, Stopped S p env m → ∃ m', Reaches S.entries m m' ∧ Stopped S p' ([] :: env) m') := by
  obtain ⟨w, did, rfl⟩ := exec_alloc ran
  have opened := pushLevel_opens false _ _ _ clear.atShape did
  have carries : ∀ {last m}, Carried m S.base S.size last [] ⟨p.allocator, #[]⟩ m →
      Carried m S.base S.size last [] w m := fun carried => pushLevel_carried carried did
  have grows := growing_pushLevel _ _ _ did
  have shape := opened.shape
  cases ran_pushLevel did
  have stands : Stands p.allocator.Known p.allocator (on (fun a => { a with inner := Level.empty false :: a.inner })
      ⟨p.allocator, #[]⟩).allocator :=
    .of_vars grows (fun known => known) fun _ => rfl
  refine ⟨⟨opened.sound, opened.idle, ?_, ?_, clear.numeric, ?_⟩, rfl, stands,
    .of_pushAll (fun i member => absurd member (Array.not_mem_empty i)) rfl, fun hosts env m stopped => ?_⟩
  · rw [shape]
    exact clear.ready.opened rfl
  · rw [shape]
    exact clear.empty
  · exact List.forall_mem_cons.2 ⟨⟨rfl, rfl⟩, clear.plain⟩
  · obtain ⟨last, abreast, reflects⟩ := stopped
    obtain ⟨m', abreast', reaches, -⟩ := alloc_comes (List.forall_mem_nil fun r : Reg => r.isPool = true)
      (fun i member => absurd member (Array.not_mem_empty i)) hosts abreast.here
      (carries ⟨clear.sound, abreast.agrees, rfl⟩)
    exact ⟨m', reaches, last, abreast', .cons (fun name => .inl ⟨rfl, rfl⟩)
      (reflects.congr stands.alike (fun inScope => inScope.known clear.sound.names) fun _ => rfl)⟩

/-- The innermost level is closed, and its scope is gone. -/
theorem popLevel_scope (clear : p.allocator.Clear)
    (stands : Stands p.allocator.Known p.allocator p₁.allocator)
    (scopes : p₁.allocator.scopes.tail = p.allocator.scopes) (clear₁ : p₁.allocator.Clear)
    (before : At { p.allocator.shape with aliases := p.allocator.shape.aliases ++ [[]] } p₁.allocator)
    (ran : (Gen.alloc popLevel).exec (c.checked verifies) p₁ = .ok ((), p')) :
    p'.allocator.Clear ∧ p'.allocator.scopes = p.allocator.scopes ∧
      Stands p.allocator.Known p₁.allocator p'.allocator ∧ Appends p₁ p' ∧
      (S.Hosts p' → ∀ {env m}, Stopped S p₁ env m → ∃ m', Reaches S.entries m m' ∧ Stopped S p' env.tail m') := by
  obtain ⟨w, did, rfl⟩ := exec_alloc ran
  have after := popLevel_closes clear.ready.deep _ _ _ before did
  obtain ⟨outer, vars⟩ := popLevel_outer clear₁.sound.names did
  have outer := outer.trans scopes
  have deep : p₁.allocator.depth = p.allocator.depth + 1 := by
    have length := congrArg List.length (scopes_eq p₁.allocator)
    rw [scopes] at length
    simpa [Allocator.scopes, Allocator.depth] using length
  have stands' : Stands p.allocator.Known p₁.allocator w.allocator :=
    popLevel_stands clear₁.sound.names stands.still (fun known found => clear.shallow stands deep known found) did
  have silent : ∀ i, i ∉ w.code := by
    rw [code_closeLevel (ran_popLevel did).2]
    exact fun i => Array.not_mem_empty i
  refine ⟨⟨after.sound, after.idle, ?_, ?_, fun {id v} found => ?_, ?_⟩, outer, stands',
    .of_pushAll (fun i member => absurd member (silent i)) rfl, fun hosts env m stopped => ?_⟩
  · rw [after.shape]
    exact clear.ready
  · rw [after.shape]
    exact clear.empty
  · rw [vars] at found
    split at found
    · cases found
    · exact clear₁.numeric found
  · rw [outer]
    exact clear.plain
  · obtain ⟨last, abreast, reflects⟩ := stopped
    have within : p₁.allocator.frame.isSome → 2 ≤ p₁.allocator.depth := fun within => by
      have inside : p.allocator.shape.inside = true := (congrArg Shape.inside before.shape).symm.trans within
      have enough := clear.ready.deep inside
      rw [shape, List.length_map, length_levels] at enough
      rw [deep]
      exact enough
    obtain ⟨m', abreast', reaches, -⟩ := alloc_comes (List.forall_mem_nil fun r : Reg => r.isPool = true)
      (fun i member => absurd member (silent i)) hosts abreast.here
      (popLevel_carried ⟨clear₁.sound, abreast.agrees, rfl⟩ within did)
    refine ⟨m', reaches, last, abreast', ?_⟩
    rw [outer]
    have reflects := reflects.tail
    rw [scopes] at reflects
    exact reflects.congr stands'.alike (fun inScope => inScope.known clear.sound.names) fun _ => rfl

theorem block_executes (settles : Settles c exits body)
    (executes : ∀ {p p'}, p.allocator.Clear → body.exec (c.checked verifies) p = .ok ((), p') → Executes S exits 1 p p' run)
    (clear : p.allocator.Clear) (ran : (block body).exec (c.checked verifies) p = .ok ((), p')) :
    Flat p p' ∧ Executes S exits 0 p p' (Env.scoped run) := by
  obtain ⟨⟨⟩, p₁, pushed, ran⟩ := exec_bind_ok ran
  obtain ⟨⟨⟩, p₂, inside, popped⟩ := exec_bind_ok ran
  obtain ⟨clear₁, scopes₁, stands₁, code₁, opens⟩ := pushLevel_scope (S := S) clear pushed
  have at₁ := (Meets.alloc (c := c) (pushLevel_opens (s := p.allocator.shape) false)).run clear.atShape pushed
  have body := executes clear₁ inside
  have at₂ := (settles _ (clear.ready.opened rfl) fun _ => clear.empty).run at₁ inside
  have outer : p₂.allocator.scopes.tail = p.allocator.scopes := by
    rw [body.forward.outer, scopes₁]
    rfl
  have stands₂ := stands₁.trans (body.forward.stands.mono stands₁.still)
  obtain ⟨clear', scopes, stands', code', closes⟩ :=
    popLevel_scope (S := S) clear stands₂ outer body.forward.clear at₂ popped
  have flat : Flat p p' :=
    ⟨⟨stands₂.trans stands', clear', (code₁.trans body.forward.code).trans code', by rw [scopes]⟩, scopes⟩
  have inner : S.Hosts p' → S.Hosts p₂ := fun hosts => hosts.earlier code' stands'.grows
  refine ⟨flat, flat.toForward, fun hosts env env' m stopped came => ?_,
    fun hosts env ending env' m stopped came off => ?_⟩
  · obtain ⟨mid, within, rfl⟩ := Env.scoped_eq_some came
    obtain ⟨m₁, reaches₁, stopped₁⟩ := opens (body.forward.hosts (inner hosts)) stopped
    obtain ⟨m₂, reaches₂, stopped₂⟩ := body.onward (inner hosts) stopped₁ within
    obtain ⟨m', reaches', stopped'⟩ := closes hosts stopped₂
    exact ⟨m', (reaches₁.trans reaches₂).trans reaches', stopped'⟩
  · obtain ⟨mid, within, rfl⟩ := Env.scoped_eq_some came
    obtain ⟨m₁, reaches₁, stopped₁⟩ := opens (body.forward.hosts (inner hosts)) stopped
    obtain ⟨label, m', target, leaps⟩ := body.leaves (inner hosts) stopped₁ within off
    rw [scopes₁, List.drop_one, List.drop_one, List.tail_cons] at leaps
    exact ⟨label, m', target, (leaps.after reaches₁).forth body.forward.clear
      (stands'.mono fun inScope => inScope.known clear.sound.names)⟩

end Gen

end SmallC
