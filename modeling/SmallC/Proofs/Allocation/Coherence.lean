import SmallC.Proofs.Allocation.Protocol

/-!
What holds of registers however operations are mixed, even where the generator of code would not use them. A register
that a variable lives in, or that comes back to one behind a pending call, is free for nobody else. Operations break
this only where a register that a call brings back is put into circulation meanwhile, so it needs far less than the
accounts of all registers do: a register may be lost, and its owner may be out of date, as long as nobody lives there.
-/
namespace SmallC

/-- Behind pending calls no register comes back to two variables. -/
def Pending : List CallSave → Prop
  | [] => True
  | save :: calls =>
    (∀ s ∈ save.saved, ∀ t ∈ save.saved, s.2.1 = t.2.1 → s.1 = t.1) ∧
      (∀ s ∈ save.saved, s.2.1 ∉ calls.flatMap fun later => later.saved.map fun t => t.2.1) ∧ Pending calls

/-- What holds of a variable by itself, whatever became of it: it is in no memory but its own, and a named one has
memory to go to and waits for no call. -/
structure Variable.Housed (v : Variable) : Prop where
  memory : ∀ {home}, v.storage = .memory home → v.memory? = some home
  home : v.isTemp = false → v.memory?.isSome
  unsaved : v.isTemp = false → ∀ slot, v.storage ≠ .saved slot

theorem Variable.Fits.housed {v : Variable} (fits : v.Fits) : v.Housed := ⟨fits.memory, fits.home, fits.unsaved⟩

/-- A named variable is at home unless it is in a register. -/
theorem Variable.Housed.place {v : Variable} {home : Home} (housed : v.Housed) (isNamed : v.isTemp = false)
    (memory : v.memory? = some home) : (∃ r, v.storage = .register r) ∨ v.storage = .memory home := by
  cases there : v.storage with
  | register r => exact .inl ⟨r, rfl⟩
  | memory other =>
    cases memory.symm.trans (housed.memory there)
    exact .inr rfl
  | saved slot => exact absurd there (housed.unsaved isNamed slot)

/-- A variable that is parted from its register goes home, unless it has none. -/
theorem Variable.Housed.parted {v : Variable} (housed : v.Housed) : v.parted.Housed := by
  refine ⟨fun {home} there => ?_, housed.home, fun isNamed slot there => ?_⟩
  · cases memory : v.memory? with
    | some other =>
      simp only [Variable.parted, memory, Storage.memory.injEq] at there
      exact there ▸ memory
    | none =>
      simp only [Variable.parted, memory] at there
      cases memory.symm.trans (housed.memory there)
  · obtain ⟨home, memory⟩ := Option.isSome_iff_exists.1 (housed.home isNamed)
    simp [Variable.parted, memory] at there

/-- The registers outside of a function body can all come back: no two of them to one variable, and none of them to
two. -/
structure Outside.Returns (o : Outside) : Prop where
  once : ∀ b ∈ o.bindings, ∀ c ∈ o.bindings, b.1 = c.1 → b = c
  apart : ∀ b ∈ o.bindings, ∀ c ∈ o.bindings, b.2.1 = c.2.1 → b.1 = c.1
  unfree : ∀ b ∈ o.bindings, b.2.1 ∉ o.free

namespace Allocator

/-- Whether a variable is in a register, as far as the variable knows. -/
def Lives (a : Allocator) (id : VarId) (r : Reg) : Prop := ∃ v, a.var? id = some v ∧ v.storage = .register r

/-- Registers that variables live in, or that calls bring back, are theirs. -/
structure Placed (a : Allocator) : Prop where
  owner : ∀ {id r}, a.Lives id r → a.ownerOf r = some id
  unfree : ∀ {id r}, a.Lives id r → r ∉ a.free
  unawaited : ∀ {id r}, a.Lives id r → r ∉ a.parked
  awaited : ∀ {r}, r ∈ a.parked → r ∉ a.free
  pending : Pending a.calls

/-- Every temporary stands under its name, which no other has had. -/
structure Listed (a : Allocator) : Prop where
  temp : ∀ {id v}, a.var? id = some v → v.isTemp = true → (v.name, id) ∈ a.temps
  tempOnce : (a.temps.map Prod.fst).Nodup
  tempNumber : ∀ {name id}, (name, id) ∈ a.temps → ∃ k < a.nextTemp, name = Alloc.tempName k

/-- What every mix of operations keeps. -/
structure Coherent (a : Allocator) : Prop extends Placed a, Listed a where
  housed : ∀ {id v}, a.var? id = some v → v.Housed
  returns : ∀ {o}, a.outside = some o → o.Returns

/-- A register that is in hand: it is not free, nobody lives there and no call brings it back. -/
structure InHand (r : Reg) (a : Allocator) : Prop where
  unfree : r ∉ a.free
  unawaited : r ∉ a.parked
  empty : ∀ id, ¬ a.Lives id r

/-- A named variable with memory to go to, which neither the end of a level nor that of the temporaries drops. -/
structure Rooted (id : VarId) (home : Home) (a : Allocator) : Prop where
  known : ∃ v, a.var? id = some v ∧ v.isTemp = false ∧ v.memory? = some home
  temps : id ∉ a.temps.map Prod.snd
  levels : ∀ level ∈ a.inner, id ∉ level.names.map Prod.snd

/-- Whether a function body is being compiled, and the registers outside of it. -/
def surroundings (a : Allocator) : Bool × Option Outside := (a.inFunction, a.outside)

/-- The state stays coherent, what is around a function body stays, and some variables stay where they are
rooted. -/
structure Coheres (P : VarId → Prop) (a a' : Allocator) : Prop where
  coherent : Coherent a'
  around : a'.surroundings = a.surroundings
  rooted : ∀ {id home}, P id → Rooted id home a → Rooted id home a'

variable {a a' b c : Allocator} {id other : VarId} {r s : Reg} {v v' : Variable} {home : Home}
  {P : VarId → Prop} {name : String}

/-- Who lives where once one variable is somewhere else. -/
theorem lives_iff (vars : ∀ other, a'.var? other = if other = id then some v else a.var? other) :
    a'.Lives other s ↔ (other = id ∧ v.storage = .register s) ∨ (other ≠ id ∧ a.Lives other s) := by
  rw [Lives, vars]
  by_cases here : other = id
  · simp [here]
  · simp [here, Lives]

theorem lives_congr (vars : a'.vars = a.vars) : a'.Lives other s ↔ a.Lives other s := by
  rw [Lives, Lives, var?, var?, vars]

/-- A register that is released is the only one that may become free. -/
theorem mem_free_released (member : s ∈ (a.released r).free) : s ∈ a.free ∨ s = r := by
  unfold released at member
  simp only at member
  split at member
  · exact (List.mem_append.1 member).imp_right List.mem_singleton.1
  · exact .inl member

theorem outside_eq (around : a'.surroundings = a.surroundings) : a'.outside = a.outside := congrArg Prod.snd around

theorem inFunction_eq (around : a'.surroundings = a.surroundings) : a'.inFunction = a.inFunction :=
  congrArg Prod.fst around

theorem surroundings_grown (a : Allocator) (words : Nat) : (a.grown words).surroundings = a.surroundings := by
  simp [surroundings, inFunction, Allocator.grown]

namespace Placed

/-- No two variables live in one register. -/
theorem unique (placed : Placed a) (lives : a.Lives id r) (lives' : a.Lives other r) : id = other :=
  Option.some.inj ((placed.owner lives).symm.trans (placed.owner lives'))

/-- Nobody moves, and what becomes free is empty. -/
theorem mono (placed : Placed a) (lives : ∀ {id r}, a'.Lives id r → a.Lives id r)
    (owner : ∀ {id r}, a'.Lives id r → a'.ownerOf r = a.ownerOf r)
    (free : ∀ r ∈ a'.free, r ∈ a.free ∨ r ∉ a.parked ∧ ∀ id, ¬ a'.Lives id r) (calls : a'.calls = a.calls) :
    Placed a' := by
  have parked : a'.parked = a.parked := by rw [Allocator.parked, calls, Allocator.parked]
  refine ⟨fun here => ?_, fun {id r} here member => ?_, fun here => ?_, fun {r} awaited member => ?_, ?_⟩
  · rw [owner here]
    exact placed.owner (lives here)
  · rcases free r member with before | ⟨-, empty⟩
    · exact placed.unfree (lives here) before
    · exact empty id here
  · rw [parked]
    exact placed.unawaited (lives here)
  · rw [parked] at awaited
    rcases free r member with before | ⟨unawaited, -⟩
    · exact placed.awaited awaited before
    · exact unawaited awaited
  · rw [calls]
    exact placed.pending

/-- A variable leaves its register, which becomes free at most. -/
theorem leave (placed : Placed a) (id : VarId) (lives : ∀ {i s}, a'.Lives i s → i ≠ id ∧ a.Lives i s)
    (owner : ∀ {s}, ¬ a.Lives id s → a'.ownerOf s = a.ownerOf s)
    (free : ∀ s ∈ a'.free, s ∈ a.free ∨ a.Lives id s) (calls : a'.calls = a.calls) : Placed a' := by
  have empty : ∀ {i s}, a.Lives id s → ¬ a'.Lives i s := fun left here =>
    (lives here).1 (placed.unique (lives here).2 left)
  refine placed.mono (fun here => (lives here).2) (fun here => owner fun left => empty left here) (fun s member => ?_)
    calls
  exact (free s member).imp_right fun left => ⟨placed.unawaited left, fun i => empty left⟩

/-- A variable comes to a register that nobody else lives in. -/
theorem arrive (placed : Placed a) (id : VarId) (unfree : r ∉ a.free) (unawaited : r ∉ a.parked)
    (empty : ∀ {other}, a.Lives other r → other = id)
    (lives : ∀ {other s}, a'.Lives other s → (other = id ∧ s = r) ∨ (other ≠ id ∧ a.Lives other s))
    (owner : a'.ownerOf r = some id) (others : ∀ {other s}, a.Lives other s → s ≠ r → other ≠ id →
      a'.ownerOf s = a.ownerOf s)
    (free : a'.free = a.free) (calls : a'.calls = a.calls) : Placed a' := by
  have parked : a'.parked = a.parked := by rw [Allocator.parked, calls, Allocator.parked]
  refine ⟨fun {i s} here => ?_, fun {i s} here => ?_, fun {i s} here => ?_, fun {s} => ?_, ?_⟩
  · rcases lives here with ⟨rfl, rfl⟩ | ⟨apart, before⟩
    · exact owner
    · rw [others before (fun same => apart (empty (same ▸ before))) apart]
      exact placed.owner before
  · rw [free]
    rcases lives here with ⟨rfl, rfl⟩ | ⟨-, before⟩
    · exact unfree
    · exact placed.unfree before
  · rw [parked]
    rcases lives here with ⟨rfl, rfl⟩ | ⟨-, before⟩
    · exact unawaited
    · exact placed.unawaited before
  · rw [parked, free]
    exact placed.awaited
  · rw [calls]
    exact placed.pending

end Placed

namespace Listed

/-- There is no new temporary, and none has lost its name. -/
theorem mono (listed : Listed a)
    (vars : ∀ {id v}, a'.var? id = some v → v.isTemp = true →
      ∃ u, a.var? id = some u ∧ u.isTemp = true ∧ u.name = v.name)
    (temps : a'.temps = a.temps) (next : a'.nextTemp = a.nextTemp) : Listed a' := by
  refine ⟨fun found isTemp => ?_, ?_, fun member => ?_⟩
  · obtain ⟨u, known, isTemp', same⟩ := vars found isTemp
    rw [temps, ← same]
    exact listed.temp known isTemp'
  · rw [temps]
    exact listed.tempOnce
  · rw [temps] at member
    rw [next]
    exact listed.tempNumber member

/-- A variable is a temporary under the next name. -/
theorem add (listed : Listed a) (id : VarId)
    (own : ∀ {v}, a'.var? id = some v → v.isTemp = true → v.name = Alloc.tempName a.nextTemp)
    (others : ∀ {other}, other ≠ id → a'.var? other = a.var? other)
    (temps : a'.temps = Level.without (Alloc.tempName a.nextTemp) a.temps ++ [(Alloc.tempName a.nextTemp, id)])
    (next : a'.nextTemp = a.nextTemp + 1) : Listed a' := by
  refine ⟨fun {i u} found isTemp => ?_, ?_, fun {n i} member => ?_⟩
  · rw [temps, List.mem_append, List.mem_singleton]
    by_cases here : i = id
    · subst here
      exact .inr (by rw [own found isTemp])
    · rw [others here] at found
      have before := listed.temp found isTemp
      refine .inl (Level.mem_without.2 ⟨before, fun same => ?_⟩)
      obtain ⟨k, older, named⟩ := listed.tempNumber before
      rw [tempName_inj (named.symm.trans same)] at older
      exact Nat.lt_irrefl _ older
  · rw [temps]
    exact Level.nodup_without_append listed.tempOnce
  · rw [temps, List.mem_append, List.mem_singleton] at member
    rw [next]
    rcases member with before | new
    · obtain ⟨k, older, named⟩ := listed.tempNumber (Level.mem_without.1 before).1
      exact ⟨k, Nat.lt_succ_of_lt older, named⟩
    · exact ⟨a.nextTemp, Nat.lt_succ_self _, (Prod.mk.inj new).1⟩

/-- A variable is no temporary any more, and its name is forgotten. -/
theorem forget (listed : Listed a) (member : (name, id) ∈ a.temps)
    (own : ∀ {v}, a'.var? id = some v → v.isTemp = false)
    (others : ∀ {other}, other ≠ id → a'.var? other = a.var? other)
    (temps : a'.temps = Level.without name a.temps) (next : a'.nextTemp = a.nextTemp) : Listed a' := by
  refine ⟨fun {i u} found isTemp => ?_, ?_, fun member' => ?_⟩
  · rw [temps, Level.mem_without]
    by_cases here : i = id
    · subst here
      cases (own found).symm.trans isTemp
    · rw [others here] at found
      refine ⟨listed.temp found isTemp, fun same => here ?_⟩
      have under : (name, i) ∈ a.temps := same ▸ listed.temp found isTemp
      exact Level.eq_of_mem listed.tempOnce under member
  · rw [temps]
    exact Level.nodup_without listed.tempOnce
  · rw [temps] at member'
    rw [next]
    exact listed.tempNumber (Level.mem_without.1 member').1

end Listed

namespace Rooted

/-- A rooted variable stays rooted as long as it stays a named one with memory, and no list of names takes it in. -/
theorem mono (rooted : Rooted id home a)
    (known : ∀ {v}, a.var? id = some v → v.isTemp = false → v.memory? = some home →
      ∃ v', a'.var? id = some v' ∧ v'.isTemp = false ∧ v'.memory? = some home)
    (temps : id ∈ a'.temps.map Prod.snd → id ∈ a.temps.map Prod.snd)
    (levels : ∀ level ∈ a'.inner, id ∈ level.names.map Prod.snd →
      ∃ old ∈ a.inner, id ∈ old.names.map Prod.snd) : Rooted id home a' := by
  obtain ⟨v, found, isNamed, memory⟩ := rooted.known
  refine ⟨known found isNamed memory, fun member => rooted.temps (temps member), fun level member listed => ?_⟩
  obtain ⟨old, here, listed'⟩ := levels level member listed
  exact rooted.levels old here listed'

theorem lt_size (rooted : Rooted id home a) : id < a.vars.size := by
  obtain ⟨v, found, -⟩ := rooted.known
  exact var?_lt found

end Rooted

namespace Coheres

theorem refl (coherent : Coherent a) : Coheres P a a := ⟨coherent, rfl, fun _ rooted => rooted⟩

theorem trans (first : Coheres P a b) (second : Coheres P b c) : Coheres P a c :=
  ⟨second.coherent, second.around.trans first.around, fun chosen rooted =>
    second.rooted chosen (first.rooted chosen rooted)⟩

theorem weaken {Q : VarId → Prop} (coheres : Coheres Q a b) (chosen : ∀ {i home}, P i → Rooted i home a → Q i) :
    Coheres P a b :=
  ⟨coheres.coherent, coheres.around, fun it rooted => coheres.rooted (chosen it rooted) rooted⟩

/-- What does not concern the places of variables, and the names that are dropped, is free to change. -/
theorem of_placed (coherent : Coherent a) (placed : Placed a') (vars : a'.vars = a.vars) (temps : a'.temps = a.temps)
    (next : a'.nextTemp = a.nextTemp) (around : a'.surroundings = a.surroundings)
    (levels : ∀ level ∈ a'.inner, ∀ id ∈ level.names.map Prod.snd, ∃ old ∈ a.inner, id ∈ old.names.map Prod.snd) :
    Coheres P a a' := by
  have known : ∀ {id v}, a'.var? id = some v → a.var? id = some v := by
    intro id v found
    rwa [var?, vars] at found
  refine ⟨⟨placed, coherent.toListed.mono (fun {i u} found isTemp => ⟨u, known found, isTemp, rfl⟩) temps next,
    fun found => coherent.housed (known found), fun aside => coherent.returns (outside_eq around ▸ aside)⟩, around,
    fun _ rooted => ?_⟩
  refine rooted.mono (fun {v} found isNamed memory => ⟨v, ?_, isNamed, memory⟩) (fun member => temps ▸ member)
    fun level member listed => levels level member _ listed
  rwa [var?, vars]

/-- Where registers are and who is in them stays. -/
theorem congr (coherent : Coherent a) (vars : a'.vars = a.vars) (owner : a'.owner = a.owner)
    (free : ∀ r ∈ a'.free, r ∈ a.free) (calls : a'.calls = a.calls) (temps : a'.temps = a.temps)
    (next : a'.nextTemp = a.nextTemp) (around : a'.surroundings = a.surroundings)
    (levels : ∀ level ∈ a'.inner, ∀ id ∈ level.names.map Prod.snd, ∃ old ∈ a.inner, id ∈ old.names.map Prod.snd) :
    Coheres P a a' := by
  refine .of_placed coherent (coherent.toPlaced.mono (lives_congr vars).1 (fun _ => ?_)
    (fun r member => .inl (free r member)) calls) vars temps next around levels
  rw [ownerOf, owner, ownerOf]

/-- The same, where the levels stay as well. -/
theorem same_levels (coherent : Coherent a) (vars : a'.vars = a.vars) (owner : a'.owner = a.owner)
    (free : ∀ r ∈ a'.free, r ∈ a.free) (calls : a'.calls = a.calls) (temps : a'.temps = a.temps)
    (next : a'.nextTemp = a.nextTemp) (around : a'.surroundings = a.surroundings) (inner : a'.inner = a.inner) :
    Coheres P a a' :=
  congr coherent vars owner free calls temps next around fun level member _ listed => ⟨level, inner ▸ member, listed⟩

/-- What is known about a variable changes, but neither its name nor its memory. -/
theorem revise (coherent : Coherent a) (found : a.var? id = some v) (placed : Placed a')
    (vars : ∀ other, a'.var? other = if other = id then some v' else a.var? other) (name : v'.name = v.name)
    (temp : v'.isTemp = v.isTemp) (memory : ∀ home, v.isTemp = false → v.memory? = some home →
      v'.memory? = some home) (housed : v'.Housed) (temps : a'.temps = a.temps) (next : a'.nextTemp = a.nextTemp)
    (around : a'.surroundings = a.surroundings) (inner : a'.inner = a.inner) : Coheres P a a' := by
  refine ⟨⟨placed, ?_, fun {i u} known => ?_, fun aside => ?_⟩, around, fun {i h} _ rooted => ?_⟩
  · refine coherent.toListed.mono (fun {i u} known isTemp => ?_) temps next
    rw [vars] at known
    split at known
    · next here =>
      cases known
      exact ⟨v, here ▸ found, temp ▸ isTemp, name.symm⟩
    · exact ⟨u, known, isTemp, rfl⟩
  · rw [vars] at known
    split at known
    · cases known
      exact housed
    · exact coherent.housed known
  · rw [outside_eq around] at aside
    exact coherent.returns aside
  · refine rooted.mono (fun {u} known isNamed has => ?_) (fun member => temps ▸ member) fun level member listed =>
      ⟨level, inner ▸ member, listed⟩
    rw [vars]
    by_cases here : i = id
    · subst here
      cases found.symm.trans known
      exact ⟨v', if_pos rfl, temp.trans isNamed, memory h isNamed has⟩
    · exact ⟨u, (if_neg here).trans known, isNamed, has⟩

/-- What is known about a variable changes, but neither its name nor its memory, and it comes to no register. -/
theorem setVar (coherent : Coherent a) (found : a.var? id = some v) (v' : Variable)
    (register : ∀ s, v'.storage = .register s → v.storage = .register s) (name : v'.name = v.name)
    (temp : v'.isTemp = v.isTemp) (memory : ∀ home, v.isTemp = false → v.memory? = some home →
      v'.memory? = some home) (housed : v'.Housed) : Coheres P a (a.setVar id v') := by
  refine revise coherent found ?_ (var?_setVar found v') name temp memory housed rfl rfl rfl rfl
  refine coherent.toPlaced.mono (fun {i s} lives => ?_) (fun _ => rfl) (fun r member => .inl member) rfl
  rcases (lives_iff (var?_setVar found _)).1 lives with ⟨rfl, there⟩ | ⟨-, before⟩
  · exact ⟨v, found, register s there⟩
  · exact before

/-- A variable comes to a register that nobody else lives in. -/
theorem bound (coherent : Coherent a) (found : a.var? id = some v) (unfree : r ∉ a.free) (unawaited : r ∉ a.parked)
    (empty : ∀ {other}, a.Lives other r → other = id) : Coheres P a (a.bound id r v) := by
  have housed := coherent.housed found
  refine revise coherent found ?_ (var?_bound found) rfl rfl (fun _ _ has => has)
    ⟨nofun, housed.home, fun _ _ => nofun⟩ rfl rfl rfl rfl
  refine coherent.toPlaced.arrive id unfree unawaited empty (fun {i s} lives => ?_) (by simp)
    (fun {i s} _ apart _ => by simp [apart]) rfl rfl
  rcases (lives_iff (var?_setVar found _)).1 lives with ⟨rfl, there⟩ | before
  · exact .inl ⟨rfl, (Storage.register.inj there).symm⟩
  · exact .inr before

/-- A variable with memory to go to is parted from its register. -/
theorem unbound (coherent : Coherent a) (found : a.var? id = some v) (there : v.storage = .register r)
    (memory : v.memory? = some home) : Coheres P a (a.unbound id r v) := by
  have storage : v.parted.storage = .memory home := by simp [Variable.parted, memory]
  refine revise coherent found ?_ (var?_unbound found) rfl rfl (fun _ _ has => has) (coherent.housed found).parted
    rfl rfl rfl rfl
  refine coherent.toPlaced.leave id (fun {i s} lives => ?_) (fun {s} elsewhere => ?_)
    (fun s member => (mem_free_released member).imp_right fun same => ?_) rfl
  · rcases (lives_iff (var?_unbound found)).1 lives with ⟨-, there'⟩ | before
    · cases storage.symm.trans there'
    · exact before
  · rw [ownerOf_unbound, if_neg]
    rintro rfl
    exact elsewhere ⟨v, found, there⟩
  · rw [same]
    exact ⟨v, found, there⟩

theorem withdrawn (coherent : Coherent a) (r : Reg) : Coheres P a (a.withdrawn r) :=
  same_levels coherent rfl rfl (fun _ member => (List.mem_filter.1 member).1) rfl rfl rfl rfl rfl

theorem grown (coherent : Coherent a) (words : Nat) : Coheres P a (a.grown words) :=
  same_levels coherent rfl rfl (fun _ member => member) rfl rfl rfl (surroundings_grown a words) rfl

/-- A temporary gets the home that is handed out next. -/
theorem giveHome (coherent : Coherent a) (found : a.var? id = some v) (isTemp : v.isTemp = true)
    (homeless : v.home = none) : Coheres P a ((a.grown 1).setVar id { v with home := some a.nextHome }) := by
  have housed := coherent.housed found
  refine (grown coherent 1).trans (setVar (a := a.grown 1) (grown (P := P) coherent 1).coherent found _
    (fun s there => there) rfl rfl (fun h isNamed => ?_) ⟨fun {h} there => ?_, ?_, ?_⟩)
  · cases isTemp.symm.trans isNamed
  · have memory := housed.memory there
    unfold Variable.memory? at memory ⊢
    rw [homeless] at memory
    cases array : v.array with
    | none =>
      rw [array] at memory
      cases memory
    | some block =>
      rw [array] at memory
      exact memory
  all_goals
    intro isNamed
    cases isTemp.symm.trans isNamed

end Coheres

end Allocator

namespace Alloc

open Allocator

variable {w w' : Work} {id other : VarId} {r : Reg} {v : Variable} {P : VarId → Prop} {x : Unit}

theorem writeBack_coheres (coherent : Coherent w.allocator) (ran : Ran (writeBack id r) w x w') :
    Coheres P w.allocator w'.allocator := by
  obtain ⟨v, home, address, found, -, -, rfl⟩ := ran_writeBack.1 ran
  have housed := coherent.housed found
  exact .setVar coherent found _ (fun _ there => there) rfl rfl (fun _ _ has => has)
    ⟨housed.memory, housed.home, housed.unsaved⟩

theorem ensureHome_coheres (coherent : Coherent w.allocator) (found : w.allocator.var? id = some v)
    (isTemp : v.isTemp = true) (ran : Ran (ensureHome id) w x w') :
    Coheres P w.allocator w'.allocator := by
  obtain ⟨u, found', ⟨-, rfl⟩ | ⟨homeless, rfl⟩⟩ := ran_ensureHome.1 ran
  · exact .refl coherent
  · cases found.symm.trans found'
    exact .giveHome coherent found isTemp homeless

/-- A named variable is parted from whatever register it is in. -/
theorem unbind_coheres (coherent : Coherent w.allocator) (found : w.allocator.var? id = some v)
    (isNamed : v.isTemp = false) (ran : Ran (unbind id) w x w') : Coheres P w.allocator w'.allocator := by
  have housed := coherent.housed found
  obtain ⟨home, memory⟩ := Option.isSome_iff_exists.1 (housed.home isNamed)
  obtain ⟨u, found', ⟨-, rfl⟩ | ⟨s, there, rfl⟩⟩ := ran_unbind.1 ran
  · exact .refl coherent
  · cases found.symm.trans found'
    exact .unbound coherent found there memory

/-- A named variable goes home, whatever register it is written from. -/
theorem goesHome_coheres {mid : Work} (coherent : Coherent w.allocator) (found : w.allocator.var? id = some v)
    (isNamed : v.isTemp = false) (wrote : Ran (writeBack id r) w () mid ∨ mid = w)
    (parted : Ran (unbind id) mid x w') : Coheres P w.allocator w'.allocator := by
  rcases wrote with wrote | rfl
  · obtain ⟨u, found', same⟩ := (writeBack_keeps wrote).same found
    have went := writeBack_coheres (P := P) coherent wrote
    exact went.trans (unbind_coheres went.coherent found' (same.isTemp.trans isNamed) parted)
  · exact unbind_coheres coherent found isNamed parted

/-- A register was taken: nobody is in it now, no other register has a new owner, and a variable that was in no
register is as it was. -/
structure Took (r : Reg) (a a' : Allocator) : Prop where
  find? : ∀ name, a'.find? name = a.find? name
  coherent : Coherent a'
  inHand : InHand r a'
  loose : r ∉ a.held
  owner : ∀ {s i}, a'.ownerOf s = some i → a.ownerOf s = some i
  only : ∀ {id v}, a.var? id = some v → v.storage.register? = none → a'.var? id = some v

theorem evict_coheres (coherent : Coherent w.allocator) (loose : r ∉ w.allocator.held) (ran : Ran (evict id) w r w') :
    Coheres P w.allocator w'.allocator ∧ Took r w.allocator w'.allocator := by
  obtain ⟨v, mid, last, found, there, unpinned, went, parted, rfl⟩ := ran_evict ran
  have first : Coheres P w.allocator mid.allocator := by
    rcases went with ⟨isTemp, housed, first, second⟩ | ⟨-, -, wrote⟩ | ⟨-, -, rfl⟩
    · have housed := ensureHome_coheres (P := P) coherent found isTemp first
      exact housed.trans (writeBack_coheres housed.coherent second)
    · exact writeBack_coheres coherent wrote
    · exact .refl coherent
  obtain ⟨keeps, only, -, -, owner, u, home, found', there', -, memory⟩ :=
    leaving (coherent.housed found).home found there unpinned went
  obtain ⟨u', found'', ⟨away, -⟩ | ⟨s, there'', rfl⟩⟩ := ran_unbind.1 parted
  · cases found'.symm.trans found''
    rw [there'] at away
    cases away
  · cases found'.symm.trans found''
    cases there'.symm.trans there''
    have second := Coheres.unbound (P := P) first.coherent found' there' memory
    have third := Coheres.withdrawn (P := P) second.coherent r
    have lives : mid.allocator.Lives id r := ⟨u, found', there'⟩
    refine ⟨(first.trans second).trans third, keeps.find?, third.coherent, ⟨?_, ?_, fun i here => ?_⟩, loose,
      fun {s i} owned => ?_, fun {i x} known away => ?_⟩
    · simp [Allocator.withdrawn]
    · exact first.coherent.unawaited lives
    · have owned : (mid.allocator.unbound id r u).ownerOf r = some i := third.coherent.owner here
      rw [ownerOf_unbound, if_pos rfl] at owned
      cases owned
    · have owned' : (mid.allocator.unbound id r u).ownerOf s = some i := owned
      rw [ownerOf_unbound] at owned'
      split at owned'
      · cases owned'
      · rwa [ownerOf, ← owner]
    · have apart : i ≠ id := by
        rintro rfl
        cases found.symm.trans known
        rw [there] at away
        cases away
      have last := unbind_only parted i apart
      exact (last.trans (only i apart)).trans known

theorem take_coheres (coherent : Coherent w.allocator) (ran : Ran take w r w') :
    Coheres P w.allocator w'.allocator ∧ Took r w.allocator w'.allocator := by
  rcases ran_take ran with ⟨free, loose, rfl⟩ | ⟨id, evicted, -, loose⟩
  · have withdrawn := Coheres.withdrawn (P := P) coherent r
    refine ⟨withdrawn, fun _ => rfl, withdrawn.coherent, ⟨?_, fun awaited => ?_, fun i here => ?_⟩, loose,
      fun owned => owned, fun known _ => known⟩
    · simp [Allocator.withdrawn]
    · exact coherent.awaited awaited free
    · exact coherent.unfree here free
  · exact evict_coheres coherent loose evicted

end Alloc

end SmallC
