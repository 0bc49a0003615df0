import SmallC.Proofs.Allocation.Carrying
import SmallC.Proofs.Allocation.Protocol

/-!
Operations on variables and the code they emit. Whatever an operation moves, the machine agrees with the
allocator behind it. A variable that is about to be written has no value until it is.
-/
namespace SmallC.Alloc

open Allocator Machine

variable {m₀ m m' : Machine} {base : Int} {size : Nat} {last : VarId → Option Word} {hand : List Reg}
  {hand' : List Reg} {w w' : Work} {id : VarId} {r : Reg} {v : Variable} {name temp : String}

/-! ### Reading -/

/-- What is known about a variable outside of registers after a register was taken for it and loaded. -/
theorem known_loaded {mid loaded : Work} {u : Variable} (sound : Sound hand w.allocator)
    (found : w.allocator.var? id = some v) (away : v.storage.register? = none)
    (took : Ran take w r mid) (load : Ran (load id r) mid () loaded)
    (known : loaded.allocator.var? id = some u) : mid.allocator.var? id = some v ∧ u = v := by
  have known' := (takes sound took).only found fun there => by
    rw [there] at away
    cases away
  rw [allocator_load load, known'] at known
  exact ⟨known', (Option.some.inj known).symm⟩

/-- A variable that is in no register is loaded into one that is taken for it. -/
theorem Carried.fetch {mid loaded : Work} (carried : Carried m₀ base size last hand w m)
    (found : w.allocator.var? id = some v) (away : v.storage.register? = none)
    (took : Ran take w r mid) (load : Ran (load id r) mid () loaded) (v' : Variable)
    (room : Room base size ((loaded.allocator.bound id r v).setVar id v'))
    (storage : v'.storage = .register r) (name : v'.name = v.name) (temp : v'.isTemp = v.isTemp)
    (depth : v'.depth = v.depth) (home : v'.home = v.home) (array : v'.array = v.array)
    (reload : v'.mustReload = v.mustReload) (pinned : v'.isTemp = false → v'.isPinned = v.isPinned) :
    ∃ m', Carried m₀ base size last hand (on (fun a => (a.bound id r v).setVar id v') loaded) m' := by
  have taken := takes carried.sound took
  have known := taken.only found fun there => by
    rw [there] at away
    cases away
  have grows : Grows loaded.allocator ((loaded.allocator.bound id r v).setVar id v') :=
    .of_same rfl rfl (Nat.le_of_eq
      (Array.size_setIfInBounds.symm.trans Array.size_setIfInBounds.symm)) rfl
  have room' := room.of_grows ((growing_load _ _ _ load).trans grows)
  obtain ⟨m₁, carried₁⟩ := take_carried carried room' took
  obtain ⟨m₂, carried₂, reads⟩ := load_carried carried₁ taken.inPool room' known away load
  refine ⟨m₂, carried₂.arrive taken.inPool ?_ away v' storage name temp depth home array reload pinned
    reads⟩
  rw [allocator_load load]
  exact known

theorem getRegister_carried {modifies : Bool} (carried : Carried m₀ base size last hand w m)
    (room : Room base size w'.allocator) (ran : Ran (getRegister name modifies) w r w') :
    ∃ m', Carried m₀ base size last hand w' m' := by
  have sound' := getRegister_sound carried.sound ran
  obtain ⟨id, v, -, found, ⟨there, mid, loaded, rfl⟩ |
    ⟨away, mid, loaded, u, took, load, known, rfl⟩⟩ := ran_getRegister ran
  · have grows : Grows mid.allocator (mid.allocator.used id r) :=
      .of_same rfl rfl (Nat.le_refl _) rfl
    obtain ⟨m', carried'⟩ : ∃ m', Carried m₀ base size last hand mid m' := by
      rcases loaded with ⟨reloads, clean, ran⟩ | ⟨rfl, -⟩
      · have room' := room.of_grows ((growing_load _ _ _ ran).trans grows)
        exact carried.reload room' found there reloads clean ran
      · exact ⟨m, carried⟩
    exact ⟨m', carried'.of_vars sound' grows fun _ => rfl⟩
  · obtain ⟨-, rfl⟩ := known_loaded carried.sound found away took load known
    exact carried.fetch found away took load _ room rfl rfl rfl rfl rfl rfl rfl fun _ => rfl

/-! ### Names -/

/-- A variable or temporary becomes something else where it is, and no home that it has counts before it
is stored there. -/
theorem Carried.renamed (carried : Carried m₀ base size last hand w m) (v' : Variable)
    (sound : Sound hand w'.allocator) (grows : Grows w.allocator w'.allocator)
    (code : w'.code = w.code) (found : w.allocator.var? id = some v)
    (vars : ∀ other, w'.allocator.var? other =
      if other = id then some v' else w.allocator.var? other)
    (storage : v'.storage = v.storage) (array : v'.array = v.array)
    (reload : v'.isTemp = true → v'.mustReload = false)
    (aside : ∀ {s}, v'.isTemp = false → v.storage = .register s → v'.isDirty = true) :
    Carried m₀ base size last hand w' m := by
  refine ⟨sound, carried.agrees.only id grows (fun other apart => (vars other).trans (if_neg apart))
    fun u known => ?_, code.symm ▸ carried.performed⟩
  rw [vars, if_pos rfl] at known
  cases known
  have ordinary := carried.agrees.ordinary found
  refine ⟨⟨fun there => ordinary.pooled (storage.symm.trans there), fun slot there =>
    ordinary.unsaved slot (storage.symm.trans there), reload⟩, fun x scalar written => ?_⟩
  have holds := carried.agrees.holds found (array.symm.trans scalar) written
  refine ⟨fun there => holds.register (storage.symm.trans there), fun there =>
    holds.memory (storage.symm.trans there), fun isNamed there clean => ?_⟩
  cases (aside isNamed (storage.symm.trans there)).symm.trans clean

theorem renameTemp_carried {x : Unit} (carried : Carried m₀ base size last hand w m)
    (ran : Ran (renameTemp temp name) w x w') : Carried m₀ base size last hand w' m := by
  have sound' := renameTemp_sound carried.sound ran
  have grows := growing_renameTemp _ _ _ ran
  obtain ⟨-, id, v, -, found, ⟨r, there, rfl⟩ | ⟨place, home, there, -, rfl⟩⟩ := ran_renameTemp ran
  · refine carried.renamed (renamedVar (w.allocator.grown 1) name w.allocator.nextHome true v)
      sound' grows rfl found (fun other => ?_) rfl rfl (fun isTemp => ?_) fun _ _ => rfl
    · refine (var?_modifyLevel _ _).trans ?_
      exact var?_setVar (a := w.allocator.grown 1) found _ other
    · cases isTemp
  · refine carried.renamed (renamedVar w.allocator name home false v) sound' grows rfl found
      (fun other => ?_) rfl rfl (fun isTemp => ?_) fun {s} _ there' => ?_
    · refine (var?_modifyLevel _ _).trans ?_
      exact var?_setVar (a := w.allocator) found _ other
    · cases isTemp
    · cases there.symm.trans there'

theorem detachAsTemp_carried (carried : Carried m₀ base size last hand w m)
    (room : Room base size w'.allocator)
    (own : ∀ {id v}, w.allocator.find? name = some id → w.allocator.var? id = some v →
      v.isTemp = false ∧ v.name = name)
    (ran : Ran (detachAsTemp name) w temp w') : ∃ m', Carried m₀ base size last hand w' m' := by
  have sound' := detachAsTemp_sound carried.sound own ran
  obtain ⟨r, mid, id, v, read, -, found, -, rfl⟩ := ran_detachAsTemp ran
  have grows : Grows mid.allocator { withDetached name id v mid.allocator with
      held := if r ∈ mid.allocator.held then mid.allocator.held else r :: mid.allocator.held } := by
    rw [withDetached_eq]
    exact .of_same rfl rfl (Nat.le_of_eq Array.size_setIfInBounds.symm) rfl
  obtain ⟨m', carried'⟩ := getRegister_carried carried (room.of_grows grows) read
  refine ⟨m', carried'.renamed (detachedVar (tempName mid.allocator.nextTemp) v) sound' grows
    rfl found (fun other => var?_withDetached name found other) rfl rfl (fun _ => rfl) fun isNamed _ => ?_⟩
  cases isNamed

/-- Further names, holds, the order of use and levels that are opened are of no concern to values. -/
theorem Carried.change {f : Allocator → Allocator} {hand' : List Reg}
    (carried : Carried m₀ base size last hand w m)
    (sound : Sound hand' (f w.allocator)) (grows : Grows w.allocator (f w.allocator))
    (vars : (f w.allocator).vars = w.allocator.vars) :
    Carried m₀ base size last hand' (on f w) m :=
  carried.of_vars sound grows fun other => by rw [var?, var?, vars]

theorem setAlias_carried {target : String} {x : Unit} (carried : Carried m₀ base size last hand w m)
    (ran : Ran (setAlias name target) w x w') : Carried m₀ base size last hand w' m := by
  have sound' := (setAlias_sound carried.sound ran).1
  have grows := growing_setAlias _ _ _ ran
  simp only [setAlias, ran_bind, ran_resolve, ran_change, and_assoc, exists_and_left,
    exists_eq_left] at ran
  obtain ⟨id, -, rfl⟩ := ran
  exact carried.change sound' grows (vars_modifyLevel _ _)

theorem removeAlias_carried {x : Unit} (carried : Carried m₀ base size last hand w m)
    (ran : Ran (removeAlias name) w x w') : Carried m₀ base size last hand w' m := by
  have sound' := (removeAlias_sound carried.sound ran).1
  have grows := growing_removeAlias _ _ _ ran
  rw [ran_change.1 ran] at sound' grows ⊢
  exact carried.change sound' grows (vars_modifyLevel _ _)

theorem demote_carried {x : Unit} (carried : Carried m₀ base size last hand w m)
    (ran : Ran (demote name) w x w') : Carried m₀ base size last hand w' m := by
  have sound' := (demote_sound carried.sound ran).1
  have grows := growing_demote _ _ _ ran
  simp only [demote, ran_bind, ran_look, and_assoc, exists_and_left, exists_eq_left] at ran
  split at ran
  · rw [ran_change.1 ran] at sound' grows ⊢
    exact carried.change sound' grows rfl
  · obtain ⟨-, rfl⟩ := ran_pure.1 ran
    exact carried

theorem pushLevel_carried {hides : Bool} {x : Unit} (carried : Carried m₀ base size last hand w m)
    (ran : Ran (pushLevel hides) w x w') : Carried m₀ base size last hand w' m := by
  have sound' := (pushLevel_sound carried.sound ran).1
  have grows := growing_pushLevel _ _ _ ran
  rw [ran_pushLevel ran] at sound' grows ⊢
  exact carried.change sound' grows rfl

/-! ### Dropping -/

/-- Some variables are gone, and nothing is emitted for it. -/
theorem Carried.dropped (carried : Carried m₀ base size last hand w m) (ids : List VarId)
    (sound : Sound hand w'.allocator) (grows : Grows w.allocator w'.allocator)
    (code : w'.code = w.code)
    (vars : ∀ other, w'.allocator.var? other = if other ∈ ids then none else w.allocator.var? other) :
    Carried m₀ base size last hand w' m := by
  have agrees := carried.agrees
  have known : ∀ {i u}, w'.allocator.var? i = some u → w.allocator.var? i = some u := by
    intro i u found
    rw [vars] at found
    split at found
    · cases found
    · exact found
  refine ⟨sound, ⟨agrees.zero, ?_, agrees.memory, fun above => agrees.fresh (grows.size.trans above),
    fun found => agrees.ordinary (known found), fun found => agrees.holds (known found)⟩, ?_⟩
  · rw [grows.pushed]
    exact agrees.stack
  · rw [code]
    exact carried.performed

theorem drop_carried {x : Unit} (carried : Carried m₀ base size last hand w m) (ran : Ran (drop id) w x w') :
    Carried m₀ base size last hand w' m :=
  carried.dropped [id] (drop_sound carried.sound ran) (growing_drop _ _ _ ran) (code_drop ran)
    (drops_one ran).vars

theorem remove_carried {x : Unit} (carried : Carried m₀ base size last hand w m)
    (ran : Ran (remove name) w x w') : Carried m₀ base size last hand w' m := by
  obtain ⟨id, mid, resolved, dropped⟩ := ran_bind.1 ran
  obtain ⟨-, rfl⟩ := ran_resolve.1 resolved
  exact drop_carried carried dropped

theorem removeIfTemp_carried {x : Unit} (carried : Carried m₀ base size last hand w m)
    (ran : Ran (removeIfTemp name) w x w') : Carried m₀ base size last hand w' m := by
  simp only [removeIfTemp, ran_bind, ran_look, and_assoc, exists_and_left, exists_eq_left] at ran
  split at ran
  · exact drop_carried carried ran
  · obtain ⟨-, rfl⟩ := ran_pure.1 ran
    exact carried

theorem popLevel_carried {x : Unit} (carried : Carried m₀ base size last hand w m)
    (deep : w.allocator.frame.isSome → 2 ≤ w.allocator.depth) (ran : Ran popLevel w x w') :
    Carried m₀ base size last hand w' m := by
  have sound' := (popLevel_sound carried.sound deep ran).1
  have grows := growing_popLevel _ _ _ ran
  obtain ⟨-, closed⟩ := ran_popLevel ran
  exact carried.dropped _ sound' grows (code_closeLevel closed) (closes closed).vars

/-! ### Introducing and writing -/

/-- A variable comes to the others, and has no value yet. -/
theorem Carried.introduced (carried : Carried m₀ base size last hand w m)
    (sound : Sound hand' w'.allocator) (grows : Grows w.allocator w'.allocator)
    (code : w'.code = w.code)
    (vars : ∀ other, w'.allocator.var? other =
      if other = w.allocator.vars.size then some v else w.allocator.var? other)
    (ordinary : v.Ordinary) : Carried m₀ base size last hand' w' m := by
  refine ⟨sound, carried.agrees.only w.allocator.vars.size grows
    (fun other apart => (vars other).trans (if_neg apart)) fun u known => ?_,
    code.symm ▸ carried.performed⟩
  rw [vars, if_pos rfl] at known
  cases known
  refine ⟨ordinary, fun x _ written => ?_⟩
  cases (carried.agrees.fresh (Nat.le_refl _)).symm.trans written

theorem declareVariable_carried {x : Unit} (carried : Carried m₀ base size last hand w m)
    (ran : Ran (declareVariable name) w x w') : Carried m₀ base size last hand w' m := by
  have sound' := declareVariable_sound carried.sound ran
  have grows := growing_declareVariable _ _ _ ran
  obtain ⟨-, rfl⟩ := ran_declareVariable ran
  refine carried.introduced (v := Variable.plain name false w.allocator.depth
    (some w.allocator.nextHome) (.memory w.allocator.nextHome)) sound' grows rfl (fun other => ?_)
    ⟨fun there => ?_, fun slot there => ?_, fun isTemp => ?_⟩
  · rw [allocator_on, modifyCurrent, var?_modifyLevel, var?_addVar]
    rfl
  · cases there
  · cases there
  · cases isTemp

/-- The variable in a register is about to be written there: its home counts for nothing. -/
def Poised (id : VarId) (r : Reg) (a : Allocator) : Prop :=
  ∃ v, a.var? id = some v ∧ v.storage = .register r ∧ (v.isTemp = false → v.isDirty = true)

theorem grows_withVariable (a : Allocator) (name : String) (r : Reg) :
    Grows a (withVariable name r a) := by
  have grown : Grows a (a.grown 1) :=
    ⟨fun granted => grants_grown granted 1, Nat.le_refl _, rfl⟩
  refine grown.trans ?_
  rw [withVariable, modifyCurrent, modifyLevel_eq]
  refine .of_same rfl rfl ?_ rfl
  rw [Allocator.bound, Array.size_setIfInBounds, addVar, Array.size_push]
  exact Nat.le_succ _

theorem addVariable_carried (carried : Carried m₀ base size last [] w m)
    (room : Room base size w'.allocator) (ran : Ran (addVariable name none) w r w') :
    ∃ m', Carried m₀ base size last [] w' m' ∧ ∃ id, Poised id r w'.allocator := by
  obtain ⟨unbound, mid, ⟨-, took⟩ | ⟨given, -⟩, rfl⟩ := ran_addVariable ran
  · have taken := takes carried.sound took
    have sound' : Sound [] (withVariable name r mid.allocator) := by
      refine withVariable_sound taken.sound ?_
      rwa [Allocator.current, taken.keeps.inner, taken.keeps.root]
    have grows := grows_withVariable mid.allocator name r
    obtain ⟨m', carried'⟩ := take_carried carried (room.of_grows grows) took
    have vars := var?_withVariable mid.allocator name r
    refine ⟨m', carried'.introduced sound' grows rfl vars ⟨fun there => ?_, fun slot there => ?_,
      fun isTemp => ?_⟩, mid.allocator.vars.size, _, (vars _).trans (if_pos rfl), rfl, fun _ => rfl⟩
    · cases there
      exact taken.inPool
    · cases there
    · cases isTemp
  · cases given

theorem grows_withTemp (a : Allocator) : Grows a (withTemp r a) := by
  refine .of_same rfl rfl ?_ rfl
  rw [withTemp, Allocator.bound, Array.size_setIfInBounds, addVar, Array.size_push]
  exact Nat.le_succ _

theorem addTemp_carried (carried : Carried m₀ base size last hand w m)
    (room : Room base size w'.allocator) (ran : Ran addTemp w temp w') :
    ∃ m', Carried m₀ base size last hand w' m' ∧ ∃ id v, w'.allocator.find? temp = some id ∧
      w'.allocator.var? id = some v ∧ v.isTemp = true := by
  have sound' := addTemp_sound carried.sound ran
  obtain ⟨r, mid, took, rfl, rfl⟩ := ran_addTemp ran
  have taken := takes carried.sound took
  have grows := grows_withTemp (r := r) mid.allocator
  obtain ⟨m', carried'⟩ := take_carried carried (room.of_grows grows) took
  have vars := var?_withTemp (r := r) mid.allocator
  refine ⟨m', carried'.introduced sound' grows rfl vars ⟨fun there => ?_, fun slot there => ?_,
    fun _ => rfl⟩, mid.allocator.vars.size, _, ?_, (vars _).trans (if_pos rfl), rfl⟩
  · cases there
    exact taken.inPool
  · cases there
  · have named : (tempName mid.allocator.nextTemp, mid.allocator.vars.size) ∈
        (withTemp r mid.allocator).temps := List.mem_append_right _ (List.mem_singleton_self _)
    have looked := (Level.lookup_eq_some sound'.names.tempOnce).2 named
    rw [allocator_on] at looked ⊢
    rw [Allocator.find?, looked]
    rfl

theorem prepareWrite_carried (carried : Carried m₀ base size last hand w m)
    (room : Room base size w'.allocator) (ran : Ran (prepareWrite name) w r w') :
    ∃ m' id, Carried m₀ base size (Function.update last id none) hand w' m' ∧
      Poised id r w'.allocator := by
  have sound' := prepareWrite_sound carried.sound ran
  obtain ⟨id, v, -, found, -, ⟨there, rfl⟩ | ⟨away, mid, u, took, known, rfl⟩⟩ :=
    ran_prepareWrite ran
  · have known := var?_setVar_self (a := w.allocator.used id r) found { v with isDirty := true }
    have forgot : Carried m₀ base size (Function.update last id none) hand w m :=
      ⟨carried.sound, carried.agrees.forget id, carried.performed⟩
    refine ⟨m, id, forgot.renamed { v with isDirty := true } sound' ?_ rfl found
      (fun other => ?_) rfl rfl (carried.agrees.ordinary found).settled (fun _ _ => rfl),
      _, known, there, fun _ => rfl⟩
    · exact .of_same rfl rfl (Nat.le_of_eq Array.size_setIfInBounds.symm) rfl
    · exact var?_setVar (a := w.allocator.used id r) found _ other
  · have taken := takes carried.sound took
    have known' := taken.only found fun there => by
      rw [there] at away
      cases away
    cases known.symm.trans known'
    have grows : Grows mid.allocator ((mid.allocator.bound id r v).setVar id
        { v with storage := .register r, isDirty := true }) :=
      .of_same rfl rfl (Nat.le_of_eq
        (Array.size_setIfInBounds.symm.trans Array.size_setIfInBounds.symm)) rfl
    obtain ⟨m', carried'⟩ := take_carried carried (room.of_grows grows) took
    have forgot : Carried m₀ base size (Function.update last id none) (r :: hand) mid m' :=
      ⟨carried'.sound, carried'.agrees.forget id, carried'.performed⟩
    have bound : (mid.allocator.bound id r v).var? id = some { v with storage := .register r } := by
      rw [var?_bound known', if_pos rfl]
    refine ⟨m', id, forgot.arrive taken.inPool known' away { v with
      storage := .register r, isDirty := true } rfl rfl rfl rfl rfl rfl rfl (fun _ => rfl) ?_,
      _, var?_setVar_self bound _, rfl, fun _ => rfl⟩
    intro x _ written
    rw [Function.update_self] at written
    cases written

/-- The instruction behind an operation that hands out a register gives the variable its value. -/
theorem Carried.written {i : MachineInstr} (carried : Carried m₀ base size last hand w m)
    (poised : Poised id r w.allocator) (writes : i.written? = some r) (done : m.effect i = .ok m') :
    Carried m₀ base size (Function.update last id (some (m'.reg r))) hand (push i w) m' := by
  obtain ⟨v, found, there, dirty⟩ := poised
  have sound := carried.sound
  have aside := (Reg.ne_of_isPool ((carried.agrees.ordinary found).pooled there)).2.1
  have owned := sound.registers.owner.2 ⟨v, found, there⟩
  have agrees : Agrees base size (Function.update last id none) w.allocator m' := by
    refine (carried.agrees.forget id).write sound.registers.toOwners aside
      (effect_writes writes done) fun owned' known scalar value => ?_
    cases owned.symm.trans owned'
    rw [Function.update_self] at value
    cases value
  have learnt := agrees.learn (x := m'.reg r) found ⟨fun there' => ?_, fun there' => ?_,
    fun isNamed there' clean => ?_⟩
  · rw [Function.update_idem] at learnt
    exact ⟨sound, learnt, performs_push carried.performed done⟩
  · cases there.symm.trans there'
    rfl
  · cases there.symm.trans there'
  · cases (dirty isNamed).symm.trans clean

theorem markWritten_carried {x : Unit} (carried : Carried m₀ base size last hand w m)
    (room : Room base size w'.allocator) (ran : Ran (markWritten name) w x w') :
    ∃ m', Carried m₀ base size last hand w' m' := by
  obtain ⟨id, v, -, found, ⟨-, rfl⟩ | ⟨-, mid, rfl, written⟩⟩ := ran_markWritten ran
  · exact ⟨m, carried⟩
  · have fits := carried.sound.fits found
    have sound := carried.sound.setVar found { v with isDirty := true } (fun _ => Iff.rfl) rfl rfl rfl
      rfl ⟨fits.memory, fits.home, fits.unpinned, fits.unsaved, fits.pinned⟩
    have grows : Grows w.allocator (w.allocator.setVar id { v with isDirty := true }) :=
      .of_same rfl rfl (Nat.le_of_eq Array.size_setIfInBounds.symm) rfl
    have marked : Carried m₀ base size last hand
        (on (fun a => a.setVar id { v with isDirty := true }) w) m :=
      carried.renamed { v with isDirty := true } sound grows rfl found
        (fun other => var?_setVar found _ other) rfl rfl (carried.agrees.ordinary found).settled
        fun _ _ => rfl
    rcases written with ⟨r, -, there, wrote⟩ | ⟨-, rfl⟩
    · have room' := room.of_grows (growing_writeBack _ _ _ wrote)
      obtain ⟨⟨m', carried', -⟩, -⟩ := writeBack_carried marked room'
        (var?_setVar_self found _) there wrote
      exact ⟨m', carried'⟩
    · exact ⟨m, marked⟩

/-! ### Reserving -/

theorem reserve_carried {x : Unit} (carried : Carried m₀ base size last [] w m)
    (idle : w.allocator.calls = []) (room : Room base size w'.allocator)
    (ran : Ran (reserve r) w x w') : ∃ m', Carried m₀ base size last [] w' m' := by
  have sound' := (reserve_sound carried.sound idle ran).1
  obtain ⟨mid, rfl, ⟨-, rfl⟩ | ⟨id, target, taken, u, owned, took, found, rfl⟩⟩ := ran_reserve ran
  · exact ⟨m, carried.change sound' (.of_same rfl rfl (Nat.le_refl _) rfl) rfl⟩
  · have held : Carried m₀ base size last [] (on (fun a => { a with
        held := if r ∈ a.held then a.held else r :: a.held }) w) m :=
      carried.change (carried.sound.congr (fun _ => Iff.rfl) rfl)
        (.of_same rfl rfl (Nat.le_refl _) rfl) rfl
    have taken' := takes held.sound took
    have grows : Grows taken.allocator (withReserved r ((taken.allocator.setOwner r none).bound id
        target u)) := .of_same rfl rfl (Nat.le_of_eq Array.size_setIfInBounds.symm) rfl
    obtain ⟨m₁, carried₁⟩ := take_carried held (room.of_grows grows) took
    obtain ⟨v, known, there⟩ := carried.sound.registers.owner.1 owned
    have known' := taken'.only (v := v) known fun there' => by
      cases there.symm.trans there'
      exact taken'.loose (mem_held_hold _ r)
    cases found.symm.trans known'
    obtain ⟨writable, aside, -⟩ := Reg.ne_of_isPool taken'.inPool
    have done := effect_move (r := target) (q := r) carried₁.agrees.zero
    have unowned := taken'.sound.registers.not_owned
    have agrees : Agrees base size last taken.allocator (m₁.setReg target (m₁.reg r)) :=
      carried₁.agrees.write taken'.sound.registers.toOwners aside (writes_setReg _) fun owned => by
        cases unowned.symm.trans owned
    refine ⟨_, sound', agrees.only id grows (fun other apart => ?_) fun v' found' => ?_,
      performs_push carried₁.performed done⟩
    · exact (var?_bound (a := taken.allocator.setOwner r none) known' other).trans (if_neg apart)
    · have bound := var?_bound (a := taken.allocator.setOwner r none) (r := target) (v := u) known' id
      rw [if_pos rfl] at bound
      cases bound.symm.trans found'
      have ordinary := agrees.ordinary known'
      refine ⟨⟨fun there' => ?_, fun slot there' => ?_, ordinary.settled⟩, fun x scalar written =>
        ⟨fun there' => ?_, fun there' => ?_, fun isNamed there' clean has => ?_⟩⟩
      · cases there'
        exact taken'.inPool
      · cases there'
      · cases there'
        rw [reg_setReg_self _ _ _ writable]
        exact (carried₁.agrees.holds known' scalar written).register there
      · cases there'
      · exact (agrees.holds known' scalar written).home isNamed there clean has

theorem unreserveAll_carried {x : Unit} (carried : Carried m₀ base size last [] w m)
    (ran : Ran unreserveAll w x w') : Carried m₀ base size last [] w' m := by
  have sound' := (unreserveAll_sound carried.sound ran).1
  have grows := growing_unreserveAll _ _ _ ran
  simp only [unreserveAll, ran_bind, ran_look, ran_change, and_assoc, exists_and_left,
    exists_eq_left, exists_const] at ran
  have same : w'.allocator.vars = w.allocator.vars ∧ w'.code = w.code := by
    refine Ran.forM ran (P := fun mid => mid.allocator.vars = w.allocator.vars ∧ mid.code = w.code)
      ⟨rfl, rfl⟩ fun r _ mid mid' same ran => ?_
    simp only [ran_bind, ran_look, ran_ite, ran_release, ran_pure, and_assoc, exists_and_left,
      exists_eq_left] at ran
    obtain ⟨-, rfl⟩ | ⟨-, -, rfl⟩ := ran
    · exact same
    · exact same
  refine carried.dropped [] sound' grows same.2 fun other => ?_
  rw [var?, same.1, if_neg List.not_mem_nil]
  rfl

/-! ### Synchronizing -/

theorem sendHome_carried {x : Unit} (carried : Carried m₀ base size last hand w m)
    (room : Room base size w'.allocator) (ran : Ran (sendHome r) w x w') :
    ∃ m', Carried m₀ base size last hand w' m' := by
  obtain ⟨-, rfl⟩ | ⟨id, v, owned, found, ⟨-, rfl⟩ | ⟨isNamed, mid, wrote, parted⟩⟩ :=
    ran_sendHome ran
  · exact ⟨m, carried⟩
  · exact ⟨m, carried⟩
  · obtain ⟨v', found', there⟩ := carried.sound.registers.owner.1 owned
    cases found.symm.trans found'
    have went := wrote.imp (fun dirty => And.intro isNamed dirty) fun clean => And.intro isNamed clean
    have room' := room.of_grows (growing_unbind _ _ _ parted)
    obtain ⟨m', carried', stored⟩ := carried.leave room' found there (.inr went)
    have unpinned := (carried.sound.fits found).unpinned isNamed
    obtain ⟨u, home, known, there', unpinned', memory⟩ :=
      (leaving (carried.sound.fits found).home found there unpinned (.inr went)).place
    obtain ⟨u', known', ⟨away, -⟩ | ⟨s, there'', rfl⟩⟩ := ran_unbind.1 parted
    · cases known.symm.trans known'
      rw [there'] at away
      cases away
    · cases known.symm.trans known'
      cases there'.symm.trans there''
      exact ⟨m', carried'.part known there' memory unpinned' (stored known)⟩

theorem pin_carried {x : Unit} (carried : Carried m₀ base size last hand w m)
    (found : w.allocator.var? id = some v) (isTemp : v.isTemp = true) (ran : Ran (pin id) w x w') :
    Carried m₀ base size last hand w' m := by
  have sound' := (pin_sound carried.sound found isTemp ran).1
  have grows := growing_update _ _ _ ran
  obtain ⟨u, known, rfl⟩ := ran_pin ran
  cases known.symm.trans found
  refine carried.renamed { v with isPinned := v.isPinned || v.storage.register?.isSome } sound'
    grows rfl found (fun other => var?_setVar found _ other) rfl rfl
    (carried.agrees.ordinary found).settled fun isNamed _ => ?_
  cases isTemp.symm.trans isNamed

theorem bringBack_carried {x : Unit} (carried : Carried m₀ base size last hand w m)
    (room : Room base size w'.allocator) (found : w.allocator.var? id = some v)
    (isTemp : v.isTemp = true) (ran : Ran (bringBack id) w x w') :
    ∃ m', Carried m₀ base size last hand w' m' := by
  obtain ⟨v', found', ⟨-, rfl⟩ | ⟨inMemory, r, mid, loaded, u, took, load, known, rfl⟩⟩ :=
    ran_bringBack ran
  · exact ⟨m, carried⟩
  · cases found.symm.trans found'
    have away : v.storage.register? = none := by
      cases there : v.storage with
      | register s =>
        rw [there] at inMemory
        cases inMemory
      | memory | saved => rfl
    obtain ⟨-, rfl⟩ := known_loaded carried.sound found away took load known
    refine carried.fetch found away took load _ room rfl rfl rfl rfl rfl rfl rfl fun isNamed => ?_
    cases isTemp.symm.trans isNamed

/-- A loop of which every pass keeps what the machine holds. -/
theorem Carried.forM {α : Type} {f : α → Alloc Unit} {xs : List α} {x : Unit} {P : Allocator → Prop}
    (carried : Carried m₀ base size last hand w m) (room : Room base size w'.allocator)
    (start : P w.allocator) (growing : ∀ y, Growing (f y))
    (pass : ∀ {y m w w'}, y ∈ xs → P w.allocator → Carried m₀ base size last hand w m →
      Room base size w'.allocator → Ran (f y) w () w' →
      P w'.allocator ∧ ∃ m', Carried m₀ base size last hand w' m')
    (ran : Ran (xs.forM f) w x w') : ∃ m', Carried m₀ base size last hand w' m' := by
  induction xs generalizing w m with
  | nil =>
    rw [ran_forM_nil.1 ran]
    exact ⟨m, carried⟩
  | cons y ys ih =>
    obtain ⟨mid, first, rest⟩ := ran_forM_cons.1 ran
    have room' := room.of_grows (Growing.forM growing ys _ _ _ rest)
    obtain ⟨start', m', carried'⟩ := pass List.mem_cons_self start carried room' first
    exact ih carried' start' (fun member => pass (List.mem_cons_of_mem y member)) rest

theorem sync_carried {x : Unit} (carried : Carried m₀ base size last hand w m)
    (room : Room base size w'.allocator) (ran : Ran sync w x w') :
    ∃ m', Carried m₀ base size last hand w' m' := by
  obtain ⟨home, ids, pinned, sent, listed, first, second⟩ := ran_sync ran
  have room₂ := room.of_grows (Growing.forM (fun _ => growing_bringBack) ids _ _ _ second)
  have room₁ := room₂.of_grows (Growing.forM (fun _ => growing_update) ids _ _ _ first)
  obtain ⟨m₁, carried₁⟩ := carried.forM (P := fun _ => True) room₁ trivial
    (fun _ => growing_sendHome) (fun _ _ carried room ran => ⟨trivial, sendHome_carried carried room ran⟩) sent
  obtain ⟨temps, -⟩ := mem_tempIds carried₁.sound.names listed
  obtain ⟨sound', keeps⟩ := temps_forM carried₁.sound temps pin_sound first
  obtain ⟨m₂, carried₂⟩ := carried₁.forM (P := AllTemps ids) room₂ temps (fun _ => growing_update)
    (fun {y m w w'} member temps carried _ ran => by
      obtain ⟨v, found, isTemp⟩ := temps y member
      exact ⟨temps.keeps (pin_sound carried.sound found isTemp ran).2, m,
        pin_carried carried found isTemp ran⟩) first
  exact carried₂.forM (P := AllTemps ids) room (temps.keeps keeps) (fun _ => growing_bringBack)
    (fun {y m w w'} member temps carried room ran => by
      obtain ⟨v, found, isTemp⟩ := temps y member
      exact ⟨temps.keeps (bringBack_sound carried.sound found isTemp ran).2,
        bringBack_carried carried room found isTemp ran⟩) second

end SmallC.Alloc
