import SmallC.Proofs.Allocation.Mixing

/-!
A function body leaves the registers around it alone. Whatever operations it is made of, at its end the variables of
the root are back in the registers that they were in, or at home, and the free registers and the order of use are
those from before. All it takes is that no register is put into circulation that a pending call brings back.
-/
namespace SmallC

open Alloc

namespace Allocator

variable {a : Allocator} {id other : VarId} {r s : Reg} {v : Variable} {home : Home} {P : VarId → Prop}

theorem initial_coherent : Coherent initial := by
  have unknown : ∀ {id v}, initial.var? id ≠ some v := by
    intro id v found
    cases found
  have empty : ∀ {id r}, ¬ initial.Lives id r := fun ⟨_, found, _⟩ => unknown found
  exact ⟨⟨fun here => absurd here empty, fun here => absurd here empty, fun here => absurd here empty, nofun, trivial⟩,
    ⟨fun found => absurd found unknown, List.nodup_nil, nofun⟩, fun found => absurd found unknown, nofun⟩

/-- Whoever lives in a register is put aside, and nobody else. -/
theorem mem_putAside (placed : Placed a) {b : VarId × Reg × Bool} :
    b ∈ a.putAside.bindings ↔ ∃ v, a.var? b.1 = some v ∧ v.storage = .register b.2.1 ∧ v.isDirty = b.2.2 := by
  rw [putAside, List.mem_filterMap]
  constructor
  · rintro ⟨r, -, same⟩
    simp only [tenant?, Option.bind_eq_some_iff, Option.map_eq_some_iff] at same
    obtain ⟨id, -, v, found, s, there, rfl⟩ := same
    refine ⟨v, found, ?_, rfl⟩
    cases storage : v.storage <;> rw [storage] at there <;> cases there
    rfl
  · rintro ⟨v, found, there, dirty⟩
    refine ⟨b.2.1, Reg.mem_all _, ?_⟩
    have owned := placed.owner ⟨v, found, there⟩
    simp [tenant?, owned, found, there, Storage.register?, dirty]

theorem putAside_returns (placed : Placed a) : a.putAside.Returns := by
  refine ⟨fun b inside c inside' same => ?_, fun b inside c inside' same => ?_, fun b inside => ?_⟩
  · obtain ⟨v, found, there, dirty⟩ := (mem_putAside placed).1 inside
    obtain ⟨v', found', there', dirty'⟩ := (mem_putAside placed).1 inside'
    rw [same] at found
    cases found.symm.trans found'
    exact Prod.ext same (Prod.ext (Storage.register.inj (there.symm.trans there')) (dirty.symm.trans dirty'))
  · obtain ⟨v, found, there, -⟩ := (mem_putAside placed).1 inside
    obtain ⟨v', found', there', -⟩ := (mem_putAside placed).1 inside'
    exact placed.unique ⟨v, found, there⟩ ⟨v', found', same ▸ there'⟩
  · obtain ⟨v, found, there, -⟩ := (mem_putAside placed).1 inside
    exact placed.unfree ⟨v, found, there⟩

end Allocator

namespace Alloc

open Allocator

variable {w w' : Work} {id : VarId} {r : Reg} {v : Variable} {home : Home} {P : VarId → Prop} {x : Unit}

/-! ### The start of a body -/

/-- A named variable that is parted from its register is in none any more, and nobody comes to one. -/
theorem lives_unbind (coherent : Coherent w.allocator) (found : w.allocator.var? id = some v)
    (isNamed : v.isTemp = false) (ran : Ran (unbind id) w x w') {i : VarId} {s : Reg}
    (here : w'.allocator.Lives i s) : i ≠ id ∧ w.allocator.Lives i s := by
  obtain ⟨u, found', ⟨away, rfl⟩ | ⟨r, there, rfl⟩⟩ := ran_unbind.1 ran
  · refine ⟨?_, here⟩
    rintro rfl
    obtain ⟨u', known, there⟩ := here
    cases found'.symm.trans known
    rw [there] at away
    cases away
  · cases found.symm.trans found'
    obtain ⟨home, memory⟩ := Option.isSome_iff_exists.1 ((coherent.housed found).home isNamed)
    rcases (lives_iff (var?_unbound found)).1 here with ⟨-, there'⟩ | before
    · simp [Variable.parted, memory] at there'
    · exact before

/-- Variables that are put aside leave their registers. -/
theorem unbindAll_coheres {bindings : List (VarId × Reg × Bool)} (coherent : Coherent w.allocator)
    (named : ∀ b ∈ bindings, ∀ {v}, w.allocator.var? b.1 = some v → v.isTemp = false)
    (ran : Ran (bindings.forM fun binding => unbind binding.1) w x w') :
    Coheres P w.allocator w'.allocator ∧ w'.allocator.calls = w.allocator.calls ∧
      ∀ {i s}, w'.allocator.Lives i s → i ∉ bindings.map Prod.fst ∧ w.allocator.Lives i s := by
  induction bindings generalizing w with
  | nil =>
    rw [ran_forM_nil.1 ran]
    exact ⟨.refl coherent, rfl, fun here => ⟨List.not_mem_nil, here⟩⟩
  | cons binding rest ih =>
    obtain ⟨mid, first, second⟩ := ran_forM_cons.1 ran
    obtain ⟨v, found, -⟩ := ran_unbind.1 first
    have isNamed := named binding List.mem_cons_self found
    have one := unbind_coheres (P := P) coherent found isNamed first
    have kept : ∀ {i u}, mid.allocator.var? i = some u →
        ∃ u', w.allocator.var? i = some u' ∧ u'.isTemp = u.isTemp := by
      intro i u known
      obtain ⟨v', found', ⟨-, rfl⟩ | ⟨r, -, rfl⟩⟩ := ran_unbind.1 first
      · exact ⟨u, known, rfl⟩
      · rw [allocator_on, var?_unbound found'] at known
        split at known
        · next here =>
          cases known
          exact ⟨v', here ▸ found', rfl⟩
        · exact ⟨u, known, rfl⟩
    obtain ⟨others, calls, lives⟩ := ih one.coherent (fun b member {u} known => by
      obtain ⟨u', known', same⟩ := kept known
      exact same.symm.trans (named b (List.mem_cons_of_mem _ member) known')) second
    have calls' : mid.allocator.calls = w.allocator.calls := by rw [unbind_rest first]
    refine ⟨one.trans others, calls.trans calls', fun here => ?_⟩
    obtain ⟨absent, before⟩ := lives here
    obtain ⟨apart, before'⟩ := lives_unbind coherent found isNamed first before
    rw [List.map_cons, List.mem_cons, not_or]
    exact ⟨⟨apart, absent⟩, before'⟩

/-- What the start of a function body comes to. -/
structure Enters (a a' : Allocator) : Prop where
  coherent : Coherent a'
  inside : a'.inFunction = true
  outside : a'.outside = some a.putAside
  rooted : ∀ {id home}, Rooted id home a → Rooted id home a'

theorem enterFunction_enters (coherent : Coherent w.allocator)
    (orderly : Operation.enterFunction.Orderly w.allocator) (ran : Ran enterFunction w x w') :
    Enters w.allocator w'.allocator := by
  obtain ⟨-, isNamed, parted, unbound, rfl⟩ := ran_enterFunction_any ran
  have aside : Coherent { w.allocator with outside := some w.allocator.putAside } := by
    refine ⟨⟨coherent.owner, coherent.unfree, coherent.unawaited, coherent.awaited, coherent.pending⟩,
      ⟨coherent.temp, coherent.tempOnce, coherent.tempNumber⟩, coherent.housed, fun same => ?_⟩
    cases same
    exact putAside_returns coherent.toPlaced
  obtain ⟨coheres, calls, lives⟩ := unbindAll_coheres (P := fun _ => True)
    (w := on (fun a => { a with outside := some w.allocator.putAside }) w) aside (fun b member {v} found => by
      obtain ⟨u, known, there, -⟩ := (mem_putAside coherent.toPlaced).1 member
      exact isNamed (coherent.owner ⟨u, known, there⟩) found) unbound
  have empty : ∀ {i s}, ¬ parted.allocator.Lives i s := by
    intro i s here
    obtain ⟨absent, v, found, there⟩ := lives here
    exact absent (List.mem_map.2 ⟨(i, s, v.isDirty), (mem_putAside coherent.toPlaced).2 ⟨v, found, there, rfl⟩, rfl⟩)
  have before := coheres.coherent
  refine ⟨⟨⟨fun here => absurd here empty, fun here => absurd here empty, fun here => absurd here empty,
    fun {r} awaited inPool => ?_, before.pending⟩, ⟨before.temp, before.tempOnce, before.tempNumber⟩, before.housed,
    before.returns⟩, rfl, outside_eq coheres.around, fun {i h} rooted => ?_⟩
  · refine orderly r inPool ?_
    rw [Allocator.parked, ← show parted.allocator.calls = w.allocator.calls from calls]
    exact awaited
  · have here := coheres.rooted trivial ⟨rooted.known, rooted.temps, rooted.levels⟩
    refine ⟨here.known, here.temps, fun level member => ?_⟩
    rcases List.mem_cons.1 member with rfl | old
    · exact List.not_mem_nil
    · exact here.levels level old

/-! ### The end of a body -/

/-- What holds of named variables while registers are vacated, whatever becomes of temporaries. -/
structure Vacating (a : Allocator) : Prop where
  owner : ∀ {id v r}, a.var? id = some v → v.isTemp = false → v.storage = .register r → a.ownerOf r = some id
  unique : ∀ {i j r}, a.Lives i r → a.Lives j r → i = j
  housed : ∀ {id v}, a.var? id = some v → v.Housed

/-- What vacating registers comes to: no named variable is in one of them, and none is lost. -/
structure Vacated (rs : List Reg) (a a' : Allocator) : Prop where
  vacating : Vacating a'
  lives : ∀ {i s}, a'.Lives i s → a.Lives i s
  empty : ∀ r ∈ rs, ∀ {id v}, a'.var? id = some v → v.isTemp = false → v.storage ≠ .register r
  kept : ∀ {id v}, a.var? id = some v →
    ∃ v', a'.var? id = some v' ∧ v'.isTemp = v.isTemp ∧ v'.name = v.name ∧ v'.memory? = v.memory?
  back : ∀ {id v'}, a'.var? id = some v' → ∃ v, a.var? id = some v
  rest : a' = { a with
    vars := a'.vars, owner := a'.owner, free := a'.free, recency := a'.recency }

/-- The owner of a register is parted from whatever register it is in. -/
theorem Vacating.unbound {a : Allocator} {s : Reg} (vacating : Vacating a) (found : a.var? id = some v)
    (there : v.storage = .register s) (owned : a.ownerOf r = some id) : Vacated [r] a (a.unbound id s v) := by
  have vars : ∀ other, (a.unbound id s v).var? other = if other = id then some v.parted else a.var? other :=
    var?_unbound found
  have housed := vacating.housed found
  -- A temporary without a home is left behind in its register.
  have lives : ∀ {i t}, (a.unbound id s v).Lives i t → a.Lives i t := by
    intro i t here
    rcases (lives_iff vars).1 here with ⟨rfl, there'⟩ | ⟨-, before⟩
    · cases memory : v.memory? with
      | some home => simp [Variable.parted, memory] at there'
      | none => exact ⟨v, found, by simpa [Variable.parted, memory] using there'⟩
    · exact before
  have settled : ∀ {i u t}, (a.unbound id s v).var? i = some u → u.isTemp = false → u.storage = .register t →
      i ≠ id ∧ a.var? i = some u := by
    intro i u t known isNamed there'
    rw [vars] at known
    split at known
    · cases known
      obtain ⟨home, memory⟩ := Option.isSome_iff_exists.1 (housed.home isNamed)
      simp [Variable.parted, memory] at there'
    · next apart => exact ⟨apart, known⟩
  refine ⟨⟨fun {i u t} known isNamed there' => ?_, fun here here' => vacating.unique (lives here) (lives here'),
    fun {i u} known => ?_⟩, lives, fun t member {i u} known isNamed there' => ?_, fun {i u} known => ?_,
    fun {i u} known => ?_, rfl⟩
  · obtain ⟨apart, before⟩ := settled known isNamed there'
    rw [ownerOf_unbound, if_neg]
    · exact vacating.owner before isNamed there'
    · rintro rfl
      exact apart (vacating.unique ⟨u, before, there'⟩ ⟨v, found, there⟩)
  · rw [vars] at known
    split at known
    · cases known
      exact housed.parted
    · exact vacating.housed known
  · cases List.mem_singleton.1 member
    obtain ⟨apart, before⟩ := settled known isNamed there'
    exact apart (Option.some.inj ((vacating.owner before isNamed there').symm.trans owned))
  · by_cases here : i = id
    · subst here
      cases found.symm.trans known
      exact ⟨v.parted, (vars i).trans (if_pos rfl), rfl, rfl, rfl⟩
    · exact ⟨u, (vars i).trans ((if_neg here).trans known), rfl, rfl, rfl⟩
  · rw [vars] at known
    split at known
    · next here => exact ⟨v, here ▸ found⟩
    · exact ⟨u, known⟩

/-- Nothing is to be done where no named variable is in a register. -/
theorem Vacating.same {a : Allocator} (vacating : Vacating a)
    (empty : ∀ {id v}, a.var? id = some v → v.isTemp = false → v.storage ≠ .register r) : Vacated [r] a a := by
  refine ⟨vacating, fun here => here, fun s member {i u} known isNamed there => ?_,
    fun {i u} known => ⟨u, known, rfl, rfl, rfl⟩, fun {i u} known => ⟨u, known⟩, rfl⟩
  cases List.mem_singleton.1 member
  exact empty known isNamed there

theorem vacate_vacated (vacating : Vacating w.allocator) (ran : Ran (vacate r) w x w') :
    Vacated [r] w.allocator w'.allocator := by
  obtain ⟨unowned, rfl⟩ | ⟨id, owned, parted⟩ := ran_vacate ran
  · refine vacating.same fun found isNamed there => ?_
    cases unowned.symm.trans (vacating.owner found isNamed there)
  · obtain ⟨v, found, ⟨away, rfl⟩ | ⟨s, there, rfl⟩⟩ := ran_unbind.1 parted
    · refine vacating.same fun known isNamed there => ?_
      cases owned.symm.trans (vacating.owner known isNamed there)
      cases found.symm.trans known
      rw [there] at away
      cases away
    · exact vacating.unbound found there owned

theorem vacateAll_vacated {rs : List Reg} (vacating : Vacating w.allocator) (ran : Ran (rs.forM vacate) w x w') :
    Vacated rs w.allocator w'.allocator := by
  induction rs generalizing w with
  | nil =>
    rw [ran_forM_nil.1 ran]
    exact ⟨vacating, fun here => here, nofun, fun {i v} found => ⟨v, found, rfl, rfl, rfl⟩,
      fun {i v} found => ⟨v, found⟩, rfl⟩
  | cons r rs ih =>
    obtain ⟨mid, first, second⟩ := ran_forM_cons.1 ran
    have one := vacate_vacated vacating first
    have others := ih one.vacating second
    refine ⟨others.vacating, fun here => one.lives (others.lives here), fun s member {i v} found isNamed there => ?_,
      fun {i v} found => ?_, fun {i v} found => ?_, ?_⟩
    · rcases List.mem_cons.1 member with rfl | later
      · obtain ⟨u, known, there'⟩ := others.lives ⟨v, found, there⟩
        obtain ⟨u', known', same, -⟩ := others.kept known
        cases found.symm.trans known'
        exact one.empty s (List.mem_singleton_self s) known (same.symm.trans isNamed) there'
      · exact others.empty s later found isNamed there
    · obtain ⟨u, known, isTemp, name, memory⟩ := one.kept found
      obtain ⟨u', known', isTemp', name', memory'⟩ := others.kept known
      exact ⟨u', known', isTemp'.trans isTemp, name'.trans name, memory'.trans memory⟩
    · obtain ⟨u, known⟩ := others.back found
      exact one.back known
    · rw [others.rest, one.rest]

/-- Dropping variables brings no temporary's name into use. -/
theorem dropAll_temps {entries : List (String × VarId)} (ran : Ran (entries.forM fun entry => drop entry.2) w x w') :
    w'.allocator.temps.Sublist w.allocator.temps ∧ w'.allocator.nextTemp = w.allocator.nextTemp := by
  refine Ran.forM ran (P := fun mid => mid.allocator.temps.Sublist w.allocator.temps ∧
    mid.allocator.nextTemp = w.allocator.nextTemp) ⟨.refl _, rfl⟩ fun entry _ mid mid' kept pass => ?_
  obtain ⟨v, found, left⟩ := ran_drop pass
  have dropped := dropped found left
  refine ⟨?_, dropped.next.trans kept.2⟩
  rw [dropped.temps]
  split
  · exact List.filter_sublist.trans kept.1
  · exact kept.1

theorem closeAll_coheres {levels : List Level} (coherent : Coherent w.allocator)
    (deep : w.allocator.depth = levels.length) (ran : Ran (levels.forM closeLevel) w x w') :
    Coheres (fun id => ∀ level ∈ levels, id ∉ level.names.map Prod.snd) w.allocator w'.allocator ∧
      w'.allocator.depth = 0 ∧ w'.allocator.calls = w.allocator.calls := by
  induction levels generalizing w with
  | nil =>
    rw [ran_forM_nil.1 ran]
    exact ⟨.refl coherent, deep, rfl⟩
  | cons level outer ih =>
    obtain ⟨mid, first, second⟩ := ran_forM_cons.1 ran
    have closes := closes first
    have one := closeLevel_coheres coherent first
    obtain ⟨others, depth, calls⟩ := ih one.coherent (by rw [closes.depth, deep]; rfl) second
    refine ⟨.trans (one.weaken fun absent _ => absent level List.mem_cons_self)
      (others.weaken fun absent _ inner member => absent inner (List.mem_cons_of_mem _ member)), depth,
      calls.trans closes.calls⟩

/-- Once everything of a function body is gone, only named variables are left, which are at home. -/
structure Stripped (a a' : Allocator) : Prop where
  named : ∀ {id v}, a'.var? id = some v → v.isTemp = false
  empty : ∀ {id r}, ¬ a'.Lives id r
  housed : ∀ {id v}, a'.var? id = some v → v.Housed
  tempOnce : (a'.temps.map Prod.fst).Nodup
  tempNumber : ∀ {name id}, (name, id) ∈ a'.temps → ∃ k < a'.nextTemp, name = tempName k
  inner : a'.inner = []
  calls : a'.calls = a.calls
  outside : a'.outside = a.outside
  rooted : ∀ {id home}, Rooted id home a → ∃ v, a'.var? id = some v ∧ v.memory? = some home

theorem leaveFunction_strips {sent closed vacated dropped : Work} {k : Nat} (coherent : Coherent w.allocator)
    (first : Ran (Reg.all.forM sendRootHome) w () sent)
    (second : Ran (sent.allocator.inner.forM closeLevel) sent () closed)
    (third : Ran (Reg.all.forM vacate) closed () vacated) (fourth : Ran discardTemps vacated k dropped) :
    Stripped w.allocator dropped.allocator := by
  have sends : Coheres (fun _ => True) w.allocator sent.allocator ∧ sent.allocator.calls = w.allocator.calls := by
    refine first.forM (P := fun mid => Coheres (fun _ => True) w.allocator mid.allocator ∧
      mid.allocator.calls = w.allocator.calls) ⟨.refl coherent, rfl⟩ fun r _ mid mid' kept pass => ?_
    obtain rfl | ⟨id, s, -, -, -, -, -, -, wrote⟩ := ran_sendRootHome pass
    · exact kept
    · exact ⟨kept.1.trans (writeBack_coheres kept.1.coherent wrote), (writeBack_keeps wrote).calls.trans kept.2⟩
  obtain ⟨closes, depth, calls⟩ := closeAll_coheres sends.1.coherent rfl second
  have settled := closes.coherent
  have vacates := vacateAll_vacated ⟨fun found _ there => settled.owner ⟨_, found, there⟩, settled.toPlaced.unique,
    settled.housed⟩ third
  have temps : vacated.allocator.temps = closed.allocator.temps := by rw [vacates.rest]
  simp only [discardTemps, ran_bind, ran_look, ran_pure, and_assoc, exists_and_left, exists_eq_left] at fourth
  obtain ⟨_, mid, dropping, -, rfl⟩ := fourth
  have drops := drops dropping
  obtain ⟨fewer, next⟩ := dropAll_temps dropping
  have before : ∀ {id v}, dropped.allocator.var? id = some v →
      id ∉ vacated.allocator.temps.map Prod.snd ∧ vacated.allocator.var? id = some v := by
    intro id v found
    rw [drops.vars] at found
    split at found
    · cases found
    · next absent => exact ⟨absent, found⟩
  have named : ∀ {id v}, dropped.allocator.var? id = some v → v.isTemp = false := by
    intro id v found
    obtain ⟨absent, known⟩ := before found
    cases isTemp : v.isTemp with
    | false => rfl
    | true =>
      obtain ⟨u, known'⟩ := vacates.back known
      obtain ⟨v', known'', isTemp', name, -⟩ := vacates.kept known'
      cases known.symm.trans known''
      have listed := settled.temp known' (isTemp'.symm.trans isTemp)
      rw [temps] at absent
      exact absurd (List.mem_map.2 ⟨_, listed, rfl⟩) absent
  refine ⟨named, fun {id r} here => ?_, fun found => vacates.vacating.housed (before found).2, ?_, fun member => ?_,
    ?_, ?_, ?_, fun {id home} rooted => ?_⟩
  · obtain ⟨v, found, there⟩ := here
    exact vacates.empty r (Reg.mem_all r) (before found).2 (named found) there
  · exact (temps ▸ settled.tempOnce).sublist (fewer.map Prod.fst)
  · rw [next, vacates.rest]
    exact settled.tempNumber (temps ▸ fewer.subset member)
  · have deep := drops.depth
    rw [vacates.rest] at deep
    exact List.eq_nil_of_length_eq_zero (deep.trans depth)
  · rw [drops.calls, vacates.rest]
    exact calls.trans sends.2
  · rw [drops.outside, vacates.rest]
    exact (outside_eq closes.around).trans (outside_eq sends.1.around)
  · have sent' := sends.1.rooted trivial rooted
    have closed' := closes.rooted sent'.levels sent'
    obtain ⟨v, found, -, memory⟩ := closed'.known
    obtain ⟨v', found', -, -, memory'⟩ := vacates.kept found
    refine ⟨v', ?_, memory'.trans memory⟩
    rw [drops.vars, temps, if_neg closed'.temps, found']

/-- Registers come back to the variables that were put aside, and nothing else changes. -/
structure Rebinds (bindings : List (VarId × Reg × Bool)) (a a' : Allocator) : Prop where
  bound : ∀ b ∈ bindings, ∃ v, a.var? b.1 = some v ∧
    a'.var? b.1 = some { v with storage := .register b.2.1, isDirty := b.2.2 }
  others : ∀ {id}, id ∉ bindings.map Prod.fst → a'.var? id = a.var? id
  owner : ∀ b ∈ bindings, a'.ownerOf b.2.1 = some b.1
  owners : ∀ {r}, r ∉ (bindings.map fun b => b.2.1) → a'.ownerOf r = a.ownerOf r
  rest : a' = { a with vars := a'.vars, owner := a'.owner }

theorem rebindAll_rebinds {bindings : List (VarId × Reg × Bool)}
    (once : ∀ b ∈ bindings, ∀ c ∈ bindings, b.1 = c.1 → b = c)
    (apart : ∀ b ∈ bindings, ∀ c ∈ bindings, b.2.1 = c.2.1 → b.1 = c.1) (ran : Ran (bindings.forM rebind) w x w') :
    Rebinds bindings w.allocator w'.allocator := by
  induction bindings generalizing w with
  | nil =>
    rw [ran_forM_nil.1 ran]
    exact ⟨nofun, fun _ => rfl, nofun, fun _ => rfl, rfl⟩
  | cons binding rest ih =>
    obtain ⟨mid, first, second⟩ := ran_forM_cons.1 ran
    obtain ⟨v, found, rfl⟩ := ran_rebind first
    have vars : ∀ other, (rebound binding.1 binding.2.1 binding.2.2 v w.allocator).var? other =
        if other = binding.1 then some { v with storage := .register binding.2.1, isDirty := binding.2.2 }
        else w.allocator.var? other :=
      fun other => var?_setVar (a := w.allocator.setOwner binding.2.1 (some binding.1)) found _ other
    have owner : ∀ s, (rebound binding.1 binding.2.1 binding.2.2 v w.allocator).ownerOf s =
        if s = binding.2.1 then some binding.1 else w.allocator.ownerOf s := fun s => ownerOf_setOwner
    have later : ∀ {b}, b ∈ rest → b ∈ binding :: rest := fun member => List.mem_cons_of_mem binding member
    have rebinds := ih (fun b member c member' => once b (later member) c (later member'))
      (fun b member c member' => apart b (later member) c (later member')) second
    refine ⟨fun b member => ?_, fun {id} absent => ?_, fun b member => ?_, fun {r} absent => ?_, ?_⟩
    · by_cases same : b.1 = binding.1
      · cases once b member binding List.mem_cons_self same
        have here := (vars binding.1).trans (if_pos rfl)
        refine ⟨v, found, ?_⟩
        by_cases again : binding.1 ∈ rest.map Prod.fst
        · -- The same binding a second time is of no effect.
          obtain ⟨c, inside, same'⟩ := List.mem_map.1 again
          cases once c (later inside) binding member same'
          obtain ⟨u, known, last⟩ := rebinds.bound binding inside
          cases here.symm.trans known
          exact last
        · exact (rebinds.others again).trans here
      · have inside := (List.mem_cons.1 member).resolve_left fun here => same (by rw [here])
        obtain ⟨u, known, last⟩ := rebinds.bound b inside
        exact ⟨u, ((vars b.1).trans (if_neg same)).symm.trans known, last⟩
    · rw [List.map_cons, List.mem_cons, not_or] at absent
      exact (rebinds.others absent.2).trans ((vars id).trans (if_neg absent.1))
    · by_cases again : b.2.1 ∈ rest.map fun c => c.2.1
      · obtain ⟨c, inside, same⟩ := List.mem_map.1 again
        rw [← same, rebinds.owner c inside, apart c (later inside) b member same]
      · rcases List.mem_cons.1 member with rfl | inside
        · exact (rebinds.owners again).trans ((owner _).trans (if_pos rfl))
        · exact absurd (List.mem_map.2 ⟨b, inside, rfl⟩) again
    · rw [List.map_cons, List.mem_cons, not_or] at absent
      exact (rebinds.owners absent.2).trans ((owner r).trans (if_neg absent.1))
    · rw [rebinds.rest]
      rfl

/-- A function body ends with what was put aside at its start. -/
theorem leaveFunction_rebinds {n : Nat} (coherent : Coherent w.allocator) (ran : Ran leaveFunction w n w') :
    ∃ o a b, w.allocator.outside = some o ∧ Stripped w.allocator a ∧
      Rebinds o.bindings
        { a with frame := none, outside := none, free := o.free, recency := o.recency, pushed := o.pushed } b ∧
      w'.allocator = { b with held := [] } := by
  obtain ⟨sent, closed, vacated, dropped, k, o, bound, first, second, third, fourth, -, outside, fifth, rfl⟩ :=
    ran_leaveFunction ran
  have stripped := leaveFunction_strips coherent first second third fourth
  have same := stripped.outside.symm.trans outside
  have returns := coherent.returns same
  exact ⟨o, dropped.allocator, bound.allocator, same, stripped, rebindAll_rebinds returns.once returns.apart fifth, rfl⟩

theorem leaveFunction_coherent {n : Nat} (coherent : Coherent w.allocator)
    (orderly : Operation.leaveFunction.Orderly w.allocator) (ran : Ran leaveFunction w n w') :
    Coherent w'.allocator := by
  obtain ⟨o, a, b, outside, stripped, rebinds, last⟩ := leaveFunction_rebinds coherent ran
  have returns := coherent.returns outside
  have unawaited : ∀ {r}, r ∈ o.free ∨ (∃ c ∈ o.bindings, c.2.1 = r) → r ∉ w.allocator.parked := by
    intro r back
    refine orderly r ?_
    simp only [Operation.circulates, outside, Option.toList_some, List.flatMap_singleton, List.mem_append, List.mem_map]
    exact back
  have known : ∀ {i u}, w'.allocator.var? i = some u → u.isTemp = false ∧ u.Housed ∧
      ∀ {s}, u.storage = .register s → ∃ c ∈ o.bindings, c.1 = i ∧ c.2.1 = s := by
    intro i u found
    have found' : b.var? i = some u := by
      rw [last] at found
      exact found
    by_cases back : i ∈ o.bindings.map Prod.fst
    · obtain ⟨c, inside, rfl⟩ := List.mem_map.1 back
      obtain ⟨v, before, after⟩ := rebinds.bound c inside
      cases after.symm.trans found'
      have before : a.var? c.1 = some v := before
      have isNamed := stripped.named before
      refine ⟨isNamed, ⟨nofun, (stripped.housed before).home, fun _ _ => nofun⟩,
        fun there => ⟨c, inside, rfl, Storage.register.inj there⟩⟩
    · have before : a.var? i = some u := (rebinds.others back).symm.trans found'
      exact ⟨stripped.named before, stripped.housed before, fun there => absurd ⟨u, before, there⟩ stripped.empty⟩
  have lives : ∀ {i s}, w'.allocator.Lives i s → ∃ c ∈ o.bindings, c.1 = i ∧ c.2.1 = s := fun ⟨_, found, there⟩ =>
    (known found).2.2 there
  have free : w'.allocator.free = o.free := by rw [last, rebinds.rest]
  have calls : w'.allocator.calls = w.allocator.calls := by
    rw [last, rebinds.rest]
    exact stripped.calls
  have parked : w'.allocator.parked = w.allocator.parked := by rw [Allocator.parked, calls, Allocator.parked]
  refine ⟨⟨fun here => ?_, fun here => ?_, fun here => ?_, fun {r} awaited => ?_, ?_⟩,
    ⟨fun found isTemp => ?_, ?_, fun {k i} member => ?_⟩, fun found => (known found).2.1, fun {o'} aside => ?_⟩
  · obtain ⟨c, inside, rfl, rfl⟩ := lives here
    rw [last]
    exact rebinds.owner c inside
  · obtain ⟨c, inside, rfl, rfl⟩ := lives here
    rw [free]
    exact returns.unfree c inside
  · obtain ⟨c, inside, rfl, rfl⟩ := lives here
    rw [parked]
    exact unawaited (.inr ⟨c, inside, rfl⟩)
  · rw [parked] at awaited
    rw [free]
    exact fun member => unawaited (.inl member) awaited
  · rw [calls]
    exact coherent.pending
  · cases (known found).1.symm.trans isTemp
  · rw [last, rebinds.rest]
    exact stripped.tempOnce
  · rw [last, rebinds.rest] at member ⊢
    exact stripped.tempNumber member
  · rw [last, rebinds.rest] at aside
    cases aside

end Alloc

/-! ### Runs -/

namespace Allocator

/-- Whether operations lead from one state to another, each of them successful and allowed where it is done. -/
inductive Goes (allowed : Allocator → Operation → Prop) (a : Allocator) : Allocator → Prop where
  | refl : Goes allowed a a
  | step {w w' : Work} (op : Operation) (goes : Goes allowed a w.allocator) (may : allowed w.allocator op)
      (ran : Ran op.act w () w') : Goes allowed a w'.allocator

variable {allowed : Allocator → Operation → Prop} {a a' : Allocator} {w w' : Work} {P : VarId → Prop}

/-- The states that the generator of code reaches are among those that are reached in order. -/
theorem Reached.goes (reached : Reached a) : Goes (fun a op => op.Orderly a) Allocator.initial a := by
  induction reached with
  | initial => exact .refl
  | step op _ permitted ran ih => exact .step op ih (Operation.Permitted.orderly permitted) ran

/-- Whatever is mixed, the state stays coherent, as long as no register is put into circulation that a pending call
brings back. -/
theorem Goes.coherent (goes : Goes (fun a op => op.Orderly a) initial a) : Coherent a := by
  induction goes with
  | refl => exact initial_coherent
  | @step w w' op _ orderly ran ih =>
    by_cases enters : op = .enterFunction
    · subst enters
      exact (enterFunction_enters ih orderly ran).coherent
    · by_cases leaves : op = .leaveFunction
      · subst leaves
        obtain ⟨n, ran, -⟩ := ran_map.1 ran
        exact leaveFunction_coherent ih orderly ran
      · exact (Operation.step_coheres op ih orderly enters leaves ran).coherent

/-- In a function body no other one can start. -/
theorem not_enters (inside : w.allocator.inFunction = true) {x : Unit} : ¬ Ran enterFunction w x w' := by
  intro ran
  rw [inFunction, (ran_enterFunction_any ran).1] at inside
  cases inside

/-- The operations of a function body spare all variables that none of them ends by name. -/
theorem Goes.coheres (coherent : Coherent a) (inside : a.inFunction = true)
    (sparing : ∀ {a op}, allowed a op → op.Orderly a ∧ op ≠ .leaveFunction ∧ ∀ id, P id → ¬ op.Ends a id)
    (goes : Goes allowed a a') : Coheres P a a' := by
  induction goes with
  | refl => exact .refl coherent
  | @step w w' op _ may ran ih =>
    obtain ⟨orderly, leaves, spared⟩ := sparing may
    have inside' : w.allocator.inFunction = true := (inFunction_eq ih.around).trans inside
    have one := Operation.step_coheres op ih.coherent orderly
      (fun enters => not_enters inside' (enters ▸ ran : Ran Operation.enterFunction.act w () w')) leaves ran
    exact ih.trans (one.weaken fun {id home} chosen _ => spared id chosen)

/-- The operations that a function body may be made of: it goes on, and no variable that it found in the root is ended
by name. -/
def InBody (outer a : Allocator) (op : Operation) : Prop :=
  op ≠ .leaveFunction ∧ ∀ id ∈ outer.root.names.map Prod.snd, ¬ op.Ends a id

/-- The registers around a function body are as they were: the variables that it found in the root are back in their
registers, each as new as it was, or at home, and the free registers and the order of use are the same. -/
structure Restored (a a' : Allocator) : Prop where
  storage : ∀ {name id v}, (name, id) ∈ a.root.names → a.var? id = some v → ∃ v', a'.var? id = some v' ∧
    v'.storage = v.storage ∧ (v.storage.register?.isSome → v'.isDirty = v.isDirty)
  free : a'.free = a.free
  recency : a'.recency = a.recency
  pushed : a'.pushed = a.pushed
  inner : a'.inner = []

/-- Where nothing is left of temporaries, every variable is a named one. -/
theorem Listed.named (listed : Listed a) (noTemps : a.temps = []) {id : VarId} {v : Variable}
    (found : a.var? id = some v) : v.isTemp = false := by
  cases isTemp : v.isTemp with
  | false => rfl
  | true =>
    have listed := listed.temp found isTemp
    rw [noTemps] at listed
    cases listed

/-- A function body leaves the registers around it alone. Where nothing is pending at the root, whatever succeeds
between the start of a body and its end leads back to the registers from before, as long as no register is put into
circulation, then or ever before, that a pending call brings back. -/
theorem function_body_restores {w w₀ w₁ w₂ : Work} {n : Nat}
    (history : Goes (fun a op => op.Orderly a) initial w.allocator) (root : w.allocator.inner = [])
    (noTemps : w.allocator.temps = []) (idle : w.allocator.calls = []) (enters : Ran enterFunction w () w₀)
    (body : Goes (fun a op => op.Orderly a ∧ InBody w.allocator a op) w₀.allocator w₁.allocator)
    (leaves : Ran leaveFunction w₁ n w₂) : Restored w.allocator w₂.allocator := by
  have coherent := history.coherent
  have quiet : ∀ r, r ∉ w.allocator.parked := fun r => by
    rw [Allocator.parked, idle]
    exact List.not_mem_nil
  have started := enterFunction_enters coherent (fun r _ => quiet r) enters
  have course := body.coheres (P := (· ∈ w.allocator.root.names.map Prod.snd)) started.coherent started.inside
    fun may => ⟨may.1, may.2.1, may.2.2⟩
  obtain ⟨o, a, b, outside, stripped, rebinds, last⟩ := leaveFunction_rebinds course.coherent leaves
  cases ((outside_eq course.around).trans started.outside).symm.trans outside
  refine ⟨fun {name id v} named found => ?_, ?_, ?_, ?_, ?_⟩
  · have isNamed := coherent.toListed.named noTemps found
    have housed := coherent.housed found
    obtain ⟨home, memory⟩ := Option.isSome_iff_exists.1 (housed.home isNamed)
    have rooted : Rooted id home w.allocator :=
      ⟨⟨v, found, isNamed, memory⟩, by simp [noTemps], by simp [root]⟩
    have rooted' := course.rooted (List.mem_map.2 ⟨_, named, rfl⟩) (started.rooted rooted)
    rw [last]
    obtain ⟨r, there⟩ | atHome := housed.place isNamed memory
    · -- A variable in a register was put aside with it.
      obtain ⟨u, -, bound⟩ := rebinds.bound (id, r, v.isDirty)
        ((mem_putAside coherent.toPlaced).2 ⟨v, found, there, rfl⟩)
      exact ⟨_, bound, there.symm, fun _ => rfl⟩
    · obtain ⟨u, known, memory'⟩ := stripped.rooted rooted'
      have absent : id ∉ w.allocator.putAside.bindings.map Prod.fst := fun member => by
        obtain ⟨c, inside, rfl⟩ := List.mem_map.1 member
        obtain ⟨v', found', there, -⟩ := (mem_putAside coherent.toPlaced).1 inside
        cases found.symm.trans found'
        cases atHome.symm.trans there
      have atHome' : u.storage = .memory home :=
        ((stripped.housed known).place (stripped.named known) memory').resolve_left fun inRegister => by
          obtain ⟨r, there⟩ := inRegister
          exact stripped.empty ⟨u, known, there⟩
      refine ⟨u, (rebinds.others absent).trans known, atHome'.trans atHome.symm, fun inRegister => ?_⟩
      rw [atHome] at inRegister
      cases inRegister
  all_goals rw [last, rebinds.rest]
  · rfl
  · rfl
  · rfl
  · exact stripped.inner

/-- What some operations lead to, if all of them succeed. -/
def runAll : List Operation → Work → Option Work
  | [], w => some w
  | op :: ops, w =>
    match op.act.run w with
    | .ok _ w' => runAll ops w'
    | .error _ _ => none

/-- The work that some operations leave behind. -/
def afterAll (ops : List Operation) (w : Work) : Work := (runAll ops w).getD w

theorem Goes.of_runAll {ops : List Operation} (may : ∀ op ∈ ops, ∀ a, allowed a op)
    (goes : Goes allowed a w.allocator) (ran : runAll ops w = some w') : Goes allowed a w'.allocator := by
  induction ops generalizing w with
  | nil =>
    cases ran
    exact goes
  | cons op ops ih =>
    rw [runAll] at ran
    split at ran
    · next x mid did =>
      exact ih (fun op member => may op (List.mem_cons_of_mem _ member))
        (.step op goes (may op List.mem_cons_self _) did) ran
    · cases ran

theorem Goes.afterAll {ops : List Operation} (may : ∀ op ∈ ops, ∀ a, allowed a op) (succeeds : (runAll ops w).isSome)
    (goes : Goes allowed a w.allocator) : Goes allowed a (afterAll ops w).allocator := by
  obtain ⟨w', ran⟩ := Option.isSome_iff_exists.1 succeeds
  rw [Allocator.afterAll, ran]
  exact goes.of_runAll may ran

theorem ran_afterAll {op : Operation} (succeeds : (runAll [op] w).isSome) : Ran op.act w () (afterAll [op] w) := by
  obtain ⟨w', ran⟩ := Option.isSome_iff_exists.1 succeeds
  rw [Allocator.afterAll, ran]
  rw [runAll] at ran
  split at ran
  · next did =>
    cases ran
    exact did
  · cases ran

/-- A variable of the root, loaded into a register. -/
def loadedGlobal : Work := afterAll [.declareVariable "g", .getRegister "g" false] ⟨initial, #[]⟩

/-- A body in which the variable is written, a temporary waits for a call, and what is left is in other registers. -/
def callingBody : List Operation :=
  [.addTemp, .prepareWrite "g", .saveForCall, .restoreAfterCall, .addVariable "x" none, .getRegister "g" false]

def calledBody : Work := afterAll callingBody (afterAll [.enterFunction] loadedGlobal)

theorem function_body_restores_loaded :
    (calledBody.allocator.var? 0).map Variable.storage = some (.register ⟨12⟩) ∧
      (loadedGlobal.allocator.var? 0).map Variable.storage = some (.register ⟨8⟩) ∧
      Restored loadedGlobal.allocator (afterAll [.leaveFunction] calledBody).allocator := by
  have history : Goes (fun a op => op.Orderly a) initial loadedGlobal.allocator := by
    refine Goes.afterAll (w := ⟨initial, #[]⟩) (fun op member a => ?_) (by decide +kernel) .refl
    simp only [List.mem_cons, List.not_mem_nil, or_false] at member
    rcases member with rfl | rfl <;>
    · intro r circulates
      cases circulates
  have body : Goes (fun a op => op.Orderly a ∧ InBody loadedGlobal.allocator a op)
      (afterAll [.enterFunction] loadedGlobal).allocator calledBody.allocator := by
    refine Goes.afterAll (fun op member a => ?_) (by decide +kernel) .refl
    simp only [callingBody, List.mem_cons, List.not_mem_nil, or_false] at member
    rcases member with rfl | rfl | rfl | rfl | rfl | rfl <;>
    · refine ⟨fun r circulates => ?_, fun same => ?_, fun _ _ => id⟩
      · cases circulates
      · cases same
  have enters : Ran Operation.enterFunction.act loadedGlobal () (afterAll [.enterFunction] loadedGlobal) :=
    ran_afterAll (by decide +kernel)
  have ends : Ran Operation.leaveFunction.act calledBody () (afterAll [.leaveFunction] calledBody) :=
    ran_afterAll (by decide +kernel)
  obtain ⟨n, leaves, -⟩ := ran_map.1 ends
  exact ⟨by decide +kernel, by decide +kernel, function_body_restores history (by decide +kernel) (by decide +kernel)
    (by decide +kernel) enters body leaves⟩

/-- A body that puts the register of a temporary into circulation while the temporary waits for a call, so that a
variable of the root comes to live in the register as well. -/
def doubleBody : List Operation :=
  [.addTemp, .saveForCall] ++ (Reg.pool.take 1).map .reserve ++ [.unreserveAll, .releaseHolds] ++
    (Reg.pool.drop 1).map .hold ++ [.getRegister "g" false, .restoreAfterCall]

def declaredGlobal : Work := afterAll [.declareVariable "g"] ⟨initial, #[]⟩

def doubledBody : Work := afterAll doubleBody (afterAll [.enterFunction] declaredGlobal)

/-- Without regard for pending calls, a function body may leave a variable of the root in a register, though blocks
are balanced and nothing is reserved or pending outside. -/
theorem function_body_fails_to_restore : ¬ ∀ (w w₀ w₁ w₂ : Work) (n : Nat),
    Goes (fun _ _ => True) initial w.allocator → w.allocator.inner = [] → w.allocator.temps = [] →
    w.allocator.reserved = [] → w.allocator.calls = [] → Ran enterFunction w () w₀ →
    Goes (fun a op => InBody w.allocator a op ∧ (op = .popLevel → 2 ≤ a.depth)) w₀.allocator w₁.allocator →
    w₁.allocator.depth = w₀.allocator.depth → Ran leaveFunction w₁ n w₂ → Restored w.allocator w₂.allocator := by
  intro restores
  have history : Goes (fun _ _ => True) initial declaredGlobal.allocator :=
    Goes.afterAll (w := ⟨initial, #[]⟩) (fun _ _ _ => trivial) (by decide +kernel) .refl
  have body : Goes (fun a op => InBody declaredGlobal.allocator a op ∧ (op = .popLevel → 2 ≤ a.depth))
      (afterAll [.enterFunction] declaredGlobal).allocator doubledBody.allocator := by
    refine Goes.afterAll (fun op member a => ?_) (by decide +kernel) .refl
    simp only [doubleBody, List.mem_append, List.mem_cons, List.mem_map, List.not_mem_nil, or_false] at member
    rcases member with ((((rfl | rfl) | ⟨r, -, rfl⟩) | (rfl | rfl)) | ⟨r, -, rfl⟩) | (rfl | rfl) <;>
    · refine ⟨⟨?_, fun _ _ => id⟩, ?_⟩ <;>
      · intro same
        cases same
  have enters : Ran Operation.enterFunction.act declaredGlobal () (afterAll [.enterFunction] declaredGlobal) :=
    ran_afterAll (by decide +kernel)
  have ends : Ran Operation.leaveFunction.act doubledBody () (afterAll [.leaveFunction] doubledBody) :=
    ran_afterAll (by decide +kernel)
  obtain ⟨n, leaves, -⟩ := ran_map.1 ends
  have restored := restores _ _ _ _ n history (by decide +kernel) (by decide +kernel) (by decide +kernel)
    (by decide +kernel) enters body (by decide +kernel) leaves
  have named : ("g", 0) ∈ declaredGlobal.allocator.root.names := by decide +kernel
  have before : declaredGlobal.allocator.var? 0 =
      some (Variable.plain "g" false 0 (some (.global 0)) (.memory (.global 0))) := by decide +kernel
  have behind : ((afterAll [.leaveFunction] doubledBody).allocator.var? 0).map Variable.storage =
      some (.register ⟨8⟩) := by decide +kernel
  obtain ⟨v', found, storage, -⟩ := restored.storage named before
  rw [found] at behind
  cases (Option.some.inj behind).symm.trans storage

end Allocator

end SmallC
