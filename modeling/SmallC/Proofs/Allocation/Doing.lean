import SmallC.Proofs.Allocation.Deeds
import SmallC.Proofs.Allocation.Values

/-!
The operations of the allocator come to deeds, as far as they do not move the stack, begin or end the body of a
function or prepare for a call. Reading, moving and dropping keep the values of all variables; the few operations
that write a variable, or turn it into another, are named with the variable.
-/
namespace SmallC

open Alloc

namespace Allocator

variable {a a' : Allocator} {id : VarId} {v v' : Variable} {r : Reg} {T : Reg → Prop}

theorem Onward.modifyLevel (a : Allocator) (d : Nat) (f : Level → Level) : Onward a (a.modifyLevel d f) := by
  rw [modifyLevel_eq]
  exact .of_same (Nat.le_refl _) rfl

theorem Onward.bound (a : Allocator) (id : VarId) (r : Reg) (v : Variable) : Onward a (a.bound id r v) :=
  .of_same (by simp [Allocator.bound]) rfl

theorem Onward.addVar (a : Allocator) (v : Variable) : Onward a (a.addVar v) :=
  .of_same (by simp [Allocator.addVar]) rfl

theorem Onward.unbound (a : Allocator) (id : VarId) (r : Reg) (v : Variable) : Onward a (a.unbound id r v) :=
  .of_same (by simp [Allocator.unbound, released]) rfl

theorem Onward.forgotten (a : Allocator) (id : VarId) (v : Variable) : Onward a (a.forgotten id v) := by
  rw [forgotten_eq]
  exact .of_same (by simp) rfl

/-- What is known about a variable once it came to a register. -/
theorem var?_bound_setVar {u : Variable} (found : a.var? id = some v) (v' : Variable) (other : VarId) :
    ((a.bound id r u).setVar id v').var? other = if other = id then some v' else a.var? other := by
  refine (var?_setVar ((var?_bound found id).trans (if_pos rfl)) v' other).trans ?_
  split
  · rfl
  · next different => exact (var?_bound found other).trans (if_neg different)

theorem Onward.withdrawn (a : Allocator) (r : Reg) : Onward a (a.withdrawn r) := .of_same (Nat.le_refl _) rfl

theorem Onward.hold (a : Allocator) (r : Reg) :
    Onward a { a with held := if r ∈ a.held then a.held else r :: a.held } := .of_same (Nat.le_refl _) rfl

/-- A variable is as it was, except for what is noted about it. -/
theorem placing_of_same (fits : v.Fits) (storage : v'.storage = v.storage) (home : v'.home = v.home)
    (array : v'.array = v.array) : Placing T a a' (some v) v' where
  register there := .inl ⟨v, rfl, storage.symm.trans there⟩
  memory stands := by
    have memory := fits.memory (storage.symm.trans stands)
    rwa [Variable.memory?, array, home]
  waits there := ⟨v, rfl, storage.symm.trans there⟩
  home has := .inl ⟨v, rfl, home.symm.trans has⟩

/-- The home handed out next was not handed out before. -/
theorem fresh_nextHome {words : Nat} (positive : 0 < words) (onward : Onward (a.grown words) a') :
    ¬ a.Grants a.nextHome ∧ a'.Grants a.nextHome :=
  ⟨not_grants_nextHome, onward.grants (grants_nextHome positive)⟩

/-- A variable that stays where it is and keeps its home, or gets the one handed out next. -/
theorem placing_of_register (there : v.storage = .register r) (storage : v'.storage = .register r)
    (home : ∀ {h}, v'.home = some h → ¬ a.Grants h ∧ a'.Grants h) : Placing T a a' (some v) v' where
  register there' := .inl ⟨v, rfl, by rw [there, ← storage, there']⟩
  memory stands := by
    rw [storage] at stands
    cases stands
  waits there' := by
    rw [storage] at there'
    cases there'
  home has := .inr (home has)

end Allocator

namespace Alloc

open Allocator

variable {w w' mid : Work} {id : VarId} {r : Reg} {v : Variable} {name temp : String} {hand : List Reg}
  {K : VarId → Prop} {T : Reg → Prop}

/-! ### Traffic -/

theorem does_store {x : Unit} (found : w.allocator.var? id = some v) (there : v.storage = .register r)
    (dirty : v.isDirty = true) (ran : Ran (writeBack id r) w x w') :
    Does K T w w' ∧ w'.allocator.var? id = some { v with isDirty := false } := by
  obtain ⟨u, home, address, found', has, known, rfl⟩ := ran_writeBack.1 ran
  cases found.symm.trans found'
  have vars := var?_setVar found { v with isDirty := false }
  exact ⟨.emits (.shift (.setVar _ _ _) found vars (.store there dirty has known)) rfl,
    (vars id).trans (if_pos rfl)⟩

theorem does_part {x : Unit} (found : w.allocator.var? id = some v) (isNamed : v.isTemp = false)
    (there : v.storage = .register r) (clean : v.isDirty = false) (memory : v.memory?.isSome)
    (ran : Ran (unbind id) w x w') : Does K T w w' := by
  obtain ⟨u, found', ⟨away, rfl⟩ | ⟨s, there', rfl⟩⟩ := ran_unbind.1 ran
  · exact .refl _
  · cases found.symm.trans found'
    exact .quiet (.shift (.unbound _ _ _ _) found (var?_unbound found) (.part there isNamed clean memory)) rfl

/-- A named variable leaves its register, and is written home first if the register is newer. -/
theorem does_goesHome {x : Unit} (sound : Sound hand w.allocator) (found : w.allocator.var? id = some v)
    (isNamed : v.isTemp = false) (there : v.storage = .register r)
    (wrote : (v.isDirty = true ∧ Ran (writeBack id r) w () mid) ∨ (v.isDirty = false ∧ mid = w))
    (parted : Ran (unbind id) mid x w') : Does K T w w' := by
  have memory := (sound.fits found).home isNamed
  obtain ⟨dirty, wrote⟩ | ⟨clean, rfl⟩ := wrote
  · obtain ⟨does, found'⟩ := does_store (K := K) (T := T) found there dirty wrote
    exact does.trans (does_part found' isNamed there rfl memory parted)
  · exact does_part found isNamed there clean memory parted

/-- A temporary goes to its home, which it is given if it has none, and leaves its register. -/
theorem does_spill {housed last : Work} {x : Unit} (found : w.allocator.var? id = some v)
    (isTemp : v.isTemp = true) (there : v.storage = .register r) (gave : Ran (ensureHome id) w () housed)
    (wrote : Ran (writeBack id r) housed () mid) (parted : Ran (unbind id) mid x last) : Does K T w last := by
  have given : ∃ home, (v.home = some home ∨
      v.home = none ∧ ¬ w.allocator.Grants home ∧ housed.allocator.Grants home) ∧
      Onward w.allocator housed.allocator ∧ housed.code = w.code ∧
      housed.allocator.var? id = some { v with home := some home } ∧
      ∀ other, other ≠ id → housed.allocator.var? other = w.allocator.var? other := by
    obtain ⟨u, found', ⟨has, rfl⟩ | ⟨homeless, rfl⟩⟩ := ran_ensureHome.1 gave
    · cases found.symm.trans found'
      obtain ⟨home, has⟩ := Option.isSome_iff_exists.1 has
      refine ⟨home, .inl has, .refl _, rfl, ?_, fun _ _ => rfl⟩
      rw [found, ← has]
    · cases found.symm.trans found'
      have onward := (Onward.grown w.allocator 1).trans
        (.setVar _ id { v with home := some w.allocator.nextHome })
      exact ⟨_, .inr ⟨homeless, fresh_nextHome Nat.one_pos (.setVar _ _ _)⟩, onward, rfl,
        var?_setVar_self (a := w.allocator.grown 1) found _, fun _ other => var?_setVar_of_ne other⟩
  obtain ⟨home, has, onward, code, found₁, others⟩ := given
  obtain ⟨u, home', address, found', has', known, rfl⟩ := ran_writeBack.1 wrote
  cases found₁.symm.trans found'
  cases has'
  have found₂ := var?_setVar_self found₁ { v with home := some home, isDirty := false }
  obtain ⟨u, found', away | ⟨s, there', rfl⟩⟩ := ran_unbind.1 parted
  · cases found₂.symm.trans found'
    cases (congrArg Storage.register? there).symm.trans away.1
  · cases found₂.symm.trans found'
    cases there.symm.trans there'
    rw [onward.address?] at known
    refine .emits (.shift (onward.trans ((Onward.setVar _ _ _).trans (.unbound _ _ _ _))) found (fun other => ?_)
      (.spill there isTemp has known)) (congrArg (Array.push · _) code)
    refine (var?_unbound found₂ other).trans ?_
    split
    · rfl
    · next different => exact (var?_setVar_of_ne different).trans (others _ different)

theorem does_evict (sound : Sound hand w.allocator) (ran : Ran (evict id) w r w') : Does K T w w' := by
  obtain ⟨v, mid, last, found, there, -, went, parted, rfl⟩ := ran_evict ran
  refine Does.trans ?_ (.aside (.withdrawn _ r) fun _ => rfl)
  obtain ⟨isTemp, housed, gave, wrote⟩ | ⟨isNamed, dirty, wrote⟩ | ⟨isNamed, clean, rfl⟩ := went
  · exact does_spill found isTemp there gave wrote parted
  · exact does_goesHome sound found isNamed there (.inl ⟨dirty, wrote⟩) parted
  · exact does_goesHome sound found isNamed there (.inr ⟨clean, rfl⟩) parted

theorem does_take (sound : Sound hand w.allocator) (ran : Ran take w r w') : Does K T w w' := by
  obtain ⟨-, -, rfl⟩ | ⟨id, ran, -⟩ := ran_take ran
  · exact .aside (.withdrawn _ r) fun _ => rfl
  · exact does_evict sound ran

/-- What was taken was to be had. -/
theorem Takes.was_open (taken : Takes r hand w.allocator w'.allocator) : w.allocator.Open r :=
  ⟨taken.inPool, taken.loose⟩

/-- What loading comes to: one instruction. -/
theorem loadedBy {x : Unit} (found : w.allocator.var? id = some v) (ran : Ran (load id r) w x w') :
    ∃ i, v.LoadedBy w.allocator r i ∧ w' = push i w := by
  obtain ⟨u, home, address, found', known, ⟨array, rfl⟩ | ⟨scalar, place, rfl⟩⟩ := ran_load ran
  · cases found.symm.trans found'
    exact ⟨_, .address array known, rfl⟩
  · cases found.symm.trans found'
    exact ⟨_, .word scalar place known, rfl⟩

/-- A variable comes to a register that is taken for it. -/
theorem does_fetch {loaded : Work} {u v' : Variable} (sound : Sound hand w.allocator)
    (opens : ∀ r, w.allocator.Open r → T r) (found : w.allocator.var? id = some v)
    (away : v.storage.register? = none) (took : Ran take w r mid) (load : Ran (load id r) mid () loaded)
    (known : loaded.allocator.var? id = some u) (there : v'.storage = .register r) (home : v'.home = u.home)
    (array : v'.array = u.array) (isTemp : v'.isTemp = u.isTemp)
    (isDirty : v'.isDirty = false ∨ u.isTemp = true) (reload : v'.mustReload = u.mustReload) :
    Does K T w (on (fun a => (a.bound id r u).setVar id v') loaded) := by
  have taken := takes sound took
  obtain ⟨found', rfl⟩ := known_loaded sound found away took load known
  obtain ⟨i, loads, rfl⟩ := loadedBy found' load
  exact (does_take sound took).trans (.emits (.shift ((Onward.bound _ _ _ _).trans (.setVar _ _ _)) found'
    (var?_bound_setVar found' v') (.fetch away (opens r taken.was_open) taken.sound.registers.vacant loads there home
      array isTemp isDirty reload)) rfl)

/-! ### Variables and temporaries -/

theorem does_addVariable {given : Option Reg} (sound : Sound [] w.allocator)
    (opens : ∀ r, w.allocator.Open r → T r) (argument : ∀ s, given = some s → T s)
    (ran : Ran (addVariable name given) w r w') : Does K T w w' := by
  obtain ⟨-, mid, took, rfl⟩ := ran_addVariable ran
  have came : Does K T w mid ∧ T r ∧ mid.allocator.Vacant r := by
    obtain ⟨-, took⟩ | ⟨given, unowned, rfl⟩ := took
    · have taken := takes sound took
      exact ⟨does_take sound took, opens r taken.was_open, taken.sound.registers.vacant⟩
    · refine ⟨.aside (.withdrawn _ r) fun _ => rfl, argument r given, fun {id v} found there => ?_⟩
      have owned := sound.registers.owner.2 ⟨v, found, there⟩
      rw [unowned] at owned
      cases owned
  obtain ⟨does, usable, vacant⟩ := came
  have onward : Onward (mid.allocator.grown 1) (withVariable name r mid.allocator) :=
    (Onward.addVar _ _).trans ((Onward.modifyLevel _ _ _).trans (.bound _ _ _ _))
  refine does.trans (.quiet (.add ((Onward.grown _ 1).trans onward) (var?_withVariable mid.allocator name r)
    ⟨fun there => ?_, fun stands => ?_, fun waits => ?_, fun has => ?_⟩) rfl)
  · cases there
    exact .inr ⟨usable, vacant⟩
  · cases stands
  · cases waits
  · cases has
    exact .inr (fresh_nextHome Nat.one_pos onward)

theorem does_declared {words : Nat} {f : Level → Level} (v : Variable) (positive : 0 < words)
    (storage : v.storage = .memory w.allocator.nextHome) (memory : v.memory? = some w.allocator.nextHome)
    (home : ∀ {h}, v.home = some h → h = w.allocator.nextHome) :
    Does K T w (on (fun a => ((a.grown words).addVar v).modifyCurrent f) w) := by
  have onward : Onward (w.allocator.grown words) (((w.allocator.grown words).addVar v).modifyCurrent f) :=
    (Onward.addVar _ _).trans (.modifyLevel _ _ _)
  have vars : ∀ other, (((w.allocator.grown words).addVar v).modifyCurrent f).var? other =
      if other = w.allocator.vars.size then some v else w.allocator.var? other := fun other => by
    rw [modifyCurrent, var?_modifyLevel, var?_addVar]
    rfl
  refine .quiet (.add ((Onward.grown _ words).trans onward) vars
    ⟨fun there => ?_, fun stands => ?_, fun waits => ?_, fun has => ?_⟩) rfl
  · cases storage.symm.trans there
  · cases storage.symm.trans stands
    exact memory
  · cases storage.symm.trans waits
  · cases home has
    exact .inr (fresh_nextHome positive onward)

theorem does_declareVariable {x : Unit} (ran : Ran (declareVariable name) w x w') : Does K T w w' := by
  obtain ⟨-, rfl⟩ := ran_declareVariable ran
  exact does_declared (f := Level.addName name w.allocator.vars.size) _ Nat.one_pos rfl rfl
    fun has => (Option.some.inj has).symm

theorem does_setArray {size : Nat} {x : Unit} (ran : Ran (setArray name size) w x w') : Does K T w w' := by
  obtain ⟨-, rfl⟩ := ran_setArray ran
  exact does_declared (f := Level.addName name w.allocator.vars.size) _
    (Nat.lt_of_lt_of_le Nat.one_pos (Nat.le_max_right _ _)) rfl rfl
    fun has => nomatch has

theorem does_addTemp (sound : Sound hand w.allocator) (opens : ∀ r, w.allocator.Open r → T r)
    (ran : Ran addTemp w temp w') : Does K T w w' := by
  obtain ⟨r, mid, took, -, rfl⟩ := ran_addTemp ran
  have taken := takes sound took
  refine (does_take sound took).trans (.quiet (.add ?_ (var?_withTemp mid.allocator)
    ⟨fun there => ?_, fun stands => ?_, fun waits => ?_, fun has => ?_⟩) rfl)
  · exact .of_same (by simp [withTemp, Allocator.bound, Allocator.addVar]) rfl
  · cases there
    exact .inr ⟨opens r taken.was_open, taken.sound.registers.vacant⟩
  · cases stands
  · cases waits
  · cases has

theorem onward_withRenamed (a : Allocator) (v : Variable) : Onward a (withRenamed temp name id v a) := by
  rw [withRenamed_eq]
  exact .of_same (by simp) rfl

/-- A temporary that becomes a named variable is another variable from now on. -/
theorem does_renameTemp {x : Unit} (sound : Sound hand w.allocator)
    (renamed : ∀ {id}, w.allocator.temps.lookup temp = some id → K id)
    (ran : Ran (renameTemp temp name) w x w') : Does K T w w' := by
  obtain ⟨-, id, v, looked, found, ⟨r, there, rfl⟩ | ⟨stands, home, memory, has, rfl⟩⟩ := ran_renameTemp ran
  · have onward : Onward (w.allocator.grown 1) { withRenamed temp name id
        (renamedVar w.allocator name w.allocator.nextHome true v) (w.allocator.grown 1) with
        recency := (withRenamed temp name id (renamedVar w.allocator name w.allocator.nextHome true v)
          (w.allocator.grown 1)).recency.touch id } :=
      (onward_withRenamed _ _).trans (.of_same (Nat.le_refl _) rfl)
    refine .quiet (.rewrite ((Onward.grown _ 1).trans onward) found (renamed looked)
      (var?_withRenamed (a := w.allocator.grown 1) found) rfl (placing_of_register there there fun has => ?_)) rfl
    cases has
    exact fresh_nextHome Nat.one_pos onward
  · exact .quiet (.rewrite (onward_withRenamed _ _) found (renamed looked) (var?_withRenamed found) rfl
      (placing_of_same (sound.fits found) rfl has.symm rfl)) rfl

theorem does_getRegister {modifies : Bool} (sound : Sound hand w.allocator)
    (opens : ∀ r, w.allocator.Open r → T r) (ran : Ran (getRegister name modifies) w r w') : Does K T w w' := by
  obtain ⟨id, v, -, found, ⟨there, mid, loaded, rfl⟩ | ⟨away, mid, loaded, u, took, load, known, rfl⟩⟩ :=
    ran_getRegister ran
  · have used : Does K T mid (on (fun a => a.used id r) mid) :=
      .aside (.of_same (Nat.le_refl _) rfl) fun _ => rfl
    refine Does.trans ?_ used
    obtain ⟨reloads, clean, load⟩ | ⟨rfl, -⟩ := loaded
    · obtain ⟨i, loads, rfl⟩ := loadedBy found load
      refine .emits (.shift (.refl _) found (fun other => ?_) (.reload there reloads clean loads)) rfl
      split
      · next same => rw [same, allocator_push, found]
      · rfl
    · exact .refl _
  · exact does_fetch sound opens found away took load known rfl rfl rfl rfl (.inl rfl) rfl

/-- A named variable that becomes a temporary is another variable from now on. -/
theorem does_detachAsTemp (sound : Sound hand w.allocator) (opens : ∀ r, w.allocator.Open r → T r)
    (detached : ∀ {id}, w.allocator.find? name = some id → K id)
    (ran : Ran (detachAsTemp name) w temp w') : Does K T w w' := by
  obtain ⟨r, mid, id, v, read, resolved, found, -, rfl⟩ := ran_detachAsTemp ran
  obtain ⟨keeps, -, id', v', resolved', found', there⟩ := getRegister_reads sound read
  cases resolved.symm.trans resolved'
  cases found.symm.trans found'
  have onward : Onward mid.allocator { withDetached name id v mid.allocator with
      held := if r ∈ mid.allocator.held then mid.allocator.held else r :: mid.allocator.held } := by
    rw [withDetached_eq]
    exact .of_same (by simp) rfl
  refine (does_getRegister sound opens read).trans (.quiet (.rewrite onward found
    (detached (by rwa [← keeps.find? name])) (var?_withDetached name found) rfl
    (placing_of_register there there fun has => ?_)) rfl)
  cases has

/-- A variable that is about to be written has no value until it is. -/
theorem does_prepareWrite (sound : Sound hand w.allocator) (opens : ∀ r, w.allocator.Open r → T r)
    (written : ∀ {id}, w.allocator.find? name = some id → K id)
    (ran : Ran (prepareWrite name) w r w') : Does K T w w' := by
  obtain ⟨id, v, resolved, found, -, ⟨there, rfl⟩ | ⟨away, mid, u, took, known, rfl⟩⟩ := ran_prepareWrite ran
  · have vars := var?_setVar (a := w.allocator.used id r) found { v with isDirty := true }
    exact .quiet (.rewrite (.of_same (by simp [used, Allocator.setVar]) rfl) found (written resolved) vars rfl
      (placing_of_same (sound.fits found) rfl rfl rfl)) rfl
  · have taken := takes sound took
    have known' := taken.only found fun there => by cases (congrArg Storage.register? there).symm.trans away
    cases known.symm.trans known'
    have vars := var?_bound_setVar (r := r) (u := v) known { v with storage := .register r, isDirty := true }
    refine (does_take sound took).trans (.quiet (.rewrite ((Onward.bound _ _ _ _).trans (.setVar _ _ _)) known
      (written resolved) vars rfl
      ⟨fun there => ?_, fun stands => ?_, fun waits => ?_, fun has => .inl ⟨v, rfl, has⟩⟩) rfl)
    · cases there
      exact .inr ⟨opens r taken.was_open, taken.sound.registers.vacant⟩
    · cases stands
    · cases waits

theorem does_markWritten {x : Unit} (sound : Sound hand w.allocator)
    (written : ∀ {id}, w.allocator.find? name = some id → K id)
    (ran : Ran (markWritten name) w x w') : Does K T w w' := by
  obtain ⟨id, v, resolved, found, ⟨-, rfl⟩ | ⟨-, mid, rfl, ⟨r, -, there, wrote⟩ | ⟨-, rfl⟩⟩⟩ := ran_markWritten ran
  · exact .refl _
  · have noted := var?_setVar found { v with isDirty := true }
    obtain ⟨u, home, address, found', has, known, rfl⟩ := ran_writeBack.1 wrote
    cases ((noted id).trans (if_pos rfl)).symm.trans found'
    have vars : ∀ other, ((w.allocator.setVar id { v with isDirty := true }).setVar id
        { v with isDirty := false }).var? other =
        if other = id then some { v with isDirty := false } else w.allocator.var? other := fun other => by
      refine (var?_setVar ((noted id).trans (if_pos rfl)) _ other).trans ?_
      split
      · rfl
      · next different => exact (noted other).trans (if_neg different)
    exact .emits (.overwrite ((Onward.setVar _ _ _).trans (.setVar _ _ _)) found (written resolved) vars has known rfl
      (placing_of_same (sound.fits found) rfl rfl rfl)) rfl
  · exact .quiet (.rewrite (.setVar _ _ _) found (written resolved) (var?_setVar found _) rfl
      (placing_of_same (sound.fits found) rfl rfl rfl)) rfl

/-- What is noted about a variable that has nothing to do with where it is. -/
theorem does_note {f : Variable → Variable} {x : Unit}
    (note : ∀ v, (f v).storage = v.storage ∧ (f v).home = v.home ∧ (f v).array = v.array ∧ (f v).isTemp = v.isTemp ∧
      (f v).isDirty = v.isDirty ∧ (f v).mustReload = v.mustReload)
    (ran : Ran (update id f) w x w') : Does K T w w' := by
  obtain ⟨v, found, rfl⟩ := ran_update.1 ran
  obtain ⟨storage, home, array, isTemp, isDirty, reload⟩ := note v
  exact .quiet (.shift (.setVar _ _ _) found (var?_setVar found _)
    (.note storage home array isTemp isDirty (.inl reload))) rfl

theorem does_noteOf {f : Variable → Variable} {x : Unit} (ran : Ran (do update (← resolve name) f) w x w')
    (note : ∀ v, (f v).storage = v.storage ∧ (f v).home = v.home ∧ (f v).array = v.array ∧ (f v).isTemp = v.isTemp ∧
      (f v).isDirty = v.isDirty ∧ (f v).mustReload = v.mustReload) : Does K T w w' := by
  simp only [ran_bind, ran_resolve, and_assoc, exists_and_left, exists_eq_left] at ran
  obtain ⟨id, -, ran⟩ := ran
  exact does_note note ran

/-- That a pointer may change a variable counts at once for a temporary, whose home may be out of date. -/
theorem does_exposes {x : Unit} (sound : Sound hand w.allocator)
    (exposed : ∀ {v}, w.allocator.var? id = some v → v.isTemp = true → K id)
    (ran : Ran (update id fun v => { v with mustReload := true }) w x w') : Does K T w w' := by
  obtain ⟨v, found, rfl⟩ := ran_update.1 ran
  cases isTemp : v.isTemp with
  | false =>
    exact .quiet (.shift (.setVar _ _ _) found (var?_setVar found _)
      (.note rfl rfl rfl isTemp.symm rfl (.inr ⟨isTemp, rfl⟩))) rfl
  | true =>
    exact .quiet (.rewrite (.setVar _ _ _) found (exposed found isTemp) (var?_setVar found _) rfl
      (placing_of_same (sound.fits found) rfl rfl rfl)) rfl

theorem does_setMustReload {x : Unit} (sound : Sound hand w.allocator)
    (exposed : ∀ {id v}, w.allocator.find? name = some id → w.allocator.var? id = some v → v.isTemp = true → K id)
    (ran : Ran (setMustReload name) w x w') : Does K T w w' := by
  simp only [setMustReload, ran_bind, ran_resolve, and_assoc, exists_and_left, exists_eq_left] at ran
  obtain ⟨id, resolved, ran⟩ := ran
  exact does_exposes sound (exposed resolved) ran

theorem does_memoryAddress {address : Address} (sound : Sound hand w.allocator)
    (exposed : ∀ {id v}, w.allocator.find? name = some id → w.allocator.var? id = some v → v.isTemp = true → K id)
    (ran : Ran (memoryAddress name) w address w') : Does K T w w' := by
  simp only [memoryAddress, ran_bind, ran_resolve, ran_known, and_assoc, exists_and_left, exists_eq_left] at ran
  obtain ⟨id, resolved, v, found, ran⟩ := ran
  split at ran
  · obtain ⟨-, rfl⟩ := ran_addressOf.1 ran
    exact .refl _
  · exact (ran_throw.1 ran).elim
  · split at ran
    · next r there dirty =>
      simp only [ran_bind] at ran
      obtain ⟨_, mid, wrote, _, marked, noted, addressed⟩ := ran
      obtain ⟨-, rfl⟩ := ran_addressOf.1 addressed
      have there : v.storage = .register r := by
        cases storage : v.storage <;> rw [storage] at there <;> cases there
        rfl
      obtain ⟨does, found'⟩ := does_store (K := K) (T := T) found there dirty wrote
      refine does.trans (does_exposes (writeBack_sound sound wrote) (fun found'' isTemp => ?_) noted)
      cases found'.symm.trans found''
      exact exposed resolved found isTemp
    · simp only [ran_bind] at ran
      obtain ⟨_, marked, noted, addressed⟩ := ran
      obtain ⟨-, rfl⟩ := ran_addressOf.1 addressed
      exact does_exposes sound (fun found' isTemp => exposed resolved found' isTemp) noted

/-! ### Dropping, holding and reserving -/

theorem does_drop {x : Unit} (ran : Ran (drop id) w x w') : Does K T w w' := by
  have vars := var?_drop ran
  obtain ⟨v, found, ⟨-, rfl⟩ | ⟨r, -, rfl⟩⟩ := ran_drop ran
  · exact .quiet (.drop id (.forgotten _ _ _) vars) rfl
  · exact .quiet (.drop id ((Onward.unbound _ _ _ _).trans (.forgotten _ _ _)) vars) rfl

theorem does_remove {x : Unit} (ran : Ran (remove name) w x w') : Does K T w w' := by
  simp only [remove, ran_bind, ran_resolve, and_assoc, exists_and_left, exists_eq_left] at ran
  obtain ⟨id, -, ran⟩ := ran
  exact does_drop ran

theorem does_removeIfTemp {x : Unit} (ran : Ran (removeIfTemp name) w x w') : Does K T w w' := by
  simp only [removeIfTemp, ran_bind, ran_look, and_assoc, exists_and_left, exists_eq_left] at ran
  split at ran
  · exact does_drop ran
  · obtain ⟨-, rfl⟩ := ran_pure.1 ran
    exact .refl _

theorem does_drops {entries : List (String × VarId)} {x : Unit} (sound : Sound hand w.allocator)
    (ran : Ran (entries.forM fun entry => drop entry.2) w x w') : Does K T w w' :=
  Does.forM sound ran fun _ _ _ _ sound ran => ⟨drop_sound sound ran, does_drop ran⟩

theorem does_discardTemps {n : Nat} (sound : Sound hand w.allocator) (ran : Ran discardTemps w n w') :
    Does K T w w' := by
  simp only [discardTemps, ran_bind, ran_look, ran_pure, and_assoc, exists_and_left, exists_eq_left] at ran
  obtain ⟨_, dropped, ran, -, rfl⟩ := ran
  exact does_drops sound ran

/-- What a register holds goes to another one, if it holds anything. -/
theorem does_reserve {x : Unit} (sound : Sound hand w.allocator)
    (opens : ∀ r, w.allocator.Open r → T r) (ran : Ran (reserve r) w x w') : Does K T w w' := by
  obtain ⟨mid, rfl, went⟩ := ran_reserve ran
  have reserved : Does K T mid (on (withReserved r) mid) :=
    .aside (.of_same (Nat.le_refl _) rfl) fun _ => rfl
  refine Does.trans ?_ reserved
  obtain ⟨-, rfl⟩ | ⟨id, target, taken, u, owned, took, known, rfl⟩ := went
  · exact .refl _
  · have sound' : Sound hand
        (on (fun a => { a with held := if r ∈ a.held then a.held else r :: a.held }) w).allocator :=
      sound.congr (fun _ => Iff.rfl) rfl
    have takes := takes sound' took
    obtain ⟨v, found, there⟩ := sound'.registers.owner.1 owned
    have apart : target ≠ r := fun same => takes.loose (same ▸ mem_held_hold _ _)
    have found' := takes.only found fun there' => apart (Storage.register.inj (there'.symm.trans there))
    cases known.symm.trans found'
    have usable : T target := opens target ⟨takes.inPool, fun held => takes.loose (by
      change target ∈ if r ∈ w.allocator.held then w.allocator.held else r :: w.allocator.held
      split
      · exact held
      · exact .tail _ held)⟩
    refine Does.trans (.aside (.hold _ r) fun _ => rfl) ((does_take sound' took).trans ?_)
    exact .emits (.shift (.of_same (by simp [Allocator.bound, Allocator.setOwner]) rfl) found'
      (var?_bound (a := taken.allocator.setOwner r none) found')
      (.relocate there usable takes.sound.registers.vacant)) rfl

theorem does_unreserveAll {x : Unit} (ran : Ran unreserveAll w x w') : Does K T w w' := by
  simp only [unreserveAll, ran_bind, ran_look, ran_change, and_assoc, exists_and_left, exists_eq_left,
    exists_const] at ran
  refine Ran.forM ran (P := fun w' => Does K T w w') (.aside (.of_same (Nat.le_refl _) rfl) fun _ => rfl)
    fun r _ mid mid' before ran => before.trans ?_
  simp only [ran_bind, ran_look, and_assoc, ran_ite, ran_release, ran_pure] at ran
  obtain ⟨_, _, rfl, rfl, ⟨-, rfl⟩ | ⟨-, -, rfl⟩⟩ := ran
  · exact .aside (.of_same (Nat.le_refl _) rfl) fun _ => rfl
  · exact .refl _

/-- Levels and further names. -/
theorem does_modifyLevel (d : Nat) (f : Level → Level) : Does K T w (on (fun a => a.modifyLevel d f) w) :=
  .aside (.modifyLevel _ d f) fun _ => var?_modifyLevel d f

theorem does_setAlias {target : String} {x : Unit} (ran : Ran (setAlias name target) w x w') : Does K T w w' := by
  simp only [setAlias, ran_bind, ran_resolve, ran_change, and_assoc, exists_and_left, exists_eq_left] at ran
  obtain ⟨id, -, rfl⟩ := ran
  exact does_modifyLevel _ _

theorem does_removeAlias {x : Unit} (ran : Ran (removeAlias name) w x w') : Does K T w w' := by
  cases ran_change.1 ran
  exact does_modifyLevel _ _

theorem does_demote {x : Unit} (ran : Ran (demote name) w x w') : Does K T w w' := by
  simp only [demote, ran_bind, ran_look, and_assoc, exists_and_left, exists_eq_left] at ran
  split at ran
  · cases ran_change.1 ran
    exact .aside (.of_same (Nat.le_refl _) rfl) fun _ => rfl
  · obtain ⟨-, rfl⟩ := ran_pure.1 ran
    exact .refl _

/-! ### Where paths of control meet -/

theorem does_sendHome {x : Unit} (sound : Sound hand w.allocator) (ran : Ran (sendHome r) w x w') :
    Does K T w w' := by
  obtain ⟨-, rfl⟩ | ⟨id, v, owned, found, ⟨-, rfl⟩ | ⟨isNamed, mid, wrote, parted⟩⟩ := ran_sendHome ran
  · exact .refl _
  · exact .refl _
  · obtain ⟨u, found', there⟩ := sound.registers.owner.1 owned
    cases found.symm.trans found'
    exact does_goesHome sound found isNamed there wrote parted

theorem does_bringBack {x : Unit} (sound : Sound hand w.allocator) (pool : ∀ r, r.isPool = true → T r)
    (isTemp : ∀ {v}, w.allocator.var? id = some v → v.isTemp = true) (ran : Ran (bringBack id) w x w') :
    Does K T w w' := by
  obtain ⟨v, found, ⟨-, rfl⟩ | ⟨stands, r, mid, loaded, u, took, load, known, rfl⟩⟩ := ran_bringBack ran
  · exact .refl _
  · have away : v.storage.register? = none := by
      cases storage : v.storage <;> rw [storage] at stands <;> first | rfl | cases stands
    obtain ⟨found', rfl⟩ := known_loaded sound found away took load known
    exact does_fetch sound (fun r opens => pool r opens.1) found away took load known rfl rfl rfl rfl
      (.inr (isTemp found)) rfl

theorem AllTemps.isTemp {ids : List VarId} (temps : AllTemps ids w.allocator) (member : id ∈ ids)
    (found : w.allocator.var? id = some v) : v.isTemp = true := by
  obtain ⟨u, found', isTemp⟩ := temps id member
  cases found.symm.trans found'
  exact isTemp

theorem does_sync {x : Unit} (sound : Sound hand w.allocator) (pool : ∀ r, r.isPool = true → T r)
    (ran : Ran sync w x w') : Does K T w w' := by
  obtain ⟨home, ids, pinned, sent, listed, first, second⟩ := ran_sync ran
  have sent' : Sound hand home.allocator ∧ Does K T w home :=
    Ran.forM sent (P := fun mid => Sound hand mid.allocator ∧ Does K T w mid) ⟨sound, .refl w⟩
      fun r _ mid mid' before ran => ⟨(sendHome_sound before.1 ran).1, before.2.trans (does_sendHome before.1 ran)⟩
  obtain ⟨temps, -⟩ := mem_tempIds sent'.1.names listed
  -- the temporaries stay temporaries as they are pinned and brought back
  have loop : ∀ {f : VarId → Alloc Unit} {start stop : Work}, Sound hand start.allocator →
      AllTemps ids start.allocator →
      (∀ {id v w w'}, Sound hand w.allocator → w.allocator.var? id = some v → v.isTemp = true →
        Ran (f id) w () w' → (Sound hand w'.allocator ∧ Keeps w.allocator w'.allocator) ∧ Does K T w w') →
      Ran (ids.forM f) start () stop →
      (Sound hand stop.allocator ∧ AllTemps ids stop.allocator) ∧ Does K T start stop := by
    intro f start stop sound temps pass ran
    refine Ran.forM ran (P := fun mid => (Sound hand mid.allocator ∧ AllTemps ids mid.allocator) ∧ Does K T start mid)
      ⟨⟨sound, temps⟩, .refl _⟩ fun id member mid mid' before ran => ?_
    obtain ⟨v, found, isTemp⟩ := before.1.2 id member
    obtain ⟨⟨sound', keeps⟩, does⟩ := pass before.1.1 found isTemp ran
    exact ⟨⟨sound', before.1.2.keeps keeps⟩, before.2.trans does⟩
  have pins := loop sent'.1 temps (fun sound found isTemp ran => ⟨pin_sound sound found isTemp ran, by
    obtain ⟨v, found, rfl⟩ := ran_pin ran
    exact .quiet (.shift (.setVar _ _ _) found (var?_setVar found _) (.note rfl rfl rfl rfl rfl (.inl rfl))) rfl⟩) first
  have brings := loop pins.1.1 pins.1.2 (fun sound found isTemp ran => ⟨bringBack_sound sound found isTemp ran,
    does_bringBack sound pool (fun found' => by
      cases found.symm.trans found'
      exact isTemp) ran⟩) second
  exact sent'.2.trans (pins.2.trans brings.2)

theorem does_pushLevel {hides : Bool} {x : Unit} (ran : Ran (pushLevel hides) w x w') : Does K T w w' := by
  cases ran_pushLevel ran
  exact .aside (.of_same (Nat.le_refl _) rfl) fun _ => rfl

theorem does_popLevel {x : Unit} (sound : Sound hand w.allocator) (ran : Ran popLevel w x w') : Does K T w w' := by
  obtain ⟨-, ran⟩ := ran_popLevel ran
  simp only [closeLevel, ran_bind, ran_change] at ran
  obtain ⟨_, dropped, gone, rfl⟩ := ran
  exact (does_drops sound gone).trans (.aside (.of_same (Nat.le_refl _) rfl) fun _ => rfl)

end Alloc

namespace Operation

/-- Whether an operation leaves the stack, function bodies and calls alone. -/
def IsDeed : Operation → Prop
  | enterFunction | leaveFunction | pushWords _ | popWords _ | saveForCall | restoreAfterCall => False
  | _ => True

/-- The variables that an operation writes, or turns into others. -/
def Rewrites (a : Allocator) : Operation → VarId → Prop
  | prepareWrite name | markWritten name | detachAsTemp name => fun id => a.find? name = some id
  | renameTemp temp _ => fun id => a.temps.lookup temp = some id
  | memoryAddress name | setMustReload name => fun id =>
    a.find? name = some id ∧ ∃ v, a.var? id = some v ∧ v.isTemp = true
  | _ => fun _ => False

end Operation

namespace Alloc

open Allocator

variable {w w' : Work}

/-- What operations come to. -/
theorem does_operation (op : Operation) (sound : Sound [] w.allocator) (permitted : op.Permitted w.allocator)
    (deed : op.IsDeed) (ran : Ran op.act w () w') : Does (op.Rewrites w.allocator) Reg.Carries w w' := by
  have pool : ∀ r : Reg, r.isPool = true → r.Carries := fun r inPool => .inl inPool
  have opens : ∀ r, w.allocator.Open r → r.Carries := fun r free => pool r free.1
  cases op with
  | addVariable name given =>
    obtain ⟨r, ran, -⟩ := ran_map.1 ran
    exact does_addVariable sound opens (fun s given => .inr (permitted.2 s given)) ran
  | declareVariable name => exact does_declareVariable ran
  | addTemp =>
    obtain ⟨temp, ran, -⟩ := ran_map.1 ran
    exact does_addTemp sound opens ran
  | renameTemp temp name => exact does_renameTemp sound (fun looked => looked) ran
  | detachAsTemp name =>
    obtain ⟨temp, ran, -⟩ := ran_map.1 ran
    exact does_detachAsTemp sound opens (fun resolved => resolved) ran
  | getRegister name modifies =>
    obtain ⟨r, ran, -⟩ := ran_map.1 ran
    exact does_getRegister sound opens ran
  | prepareWrite name =>
    obtain ⟨r, ran, -⟩ := ran_map.1 ran
    exact does_prepareWrite sound opens (fun resolved => resolved) ran
  | markWritten name => exact does_markWritten sound (fun resolved => resolved) ran
  | remove name => exact does_remove ran
  | removeIfTemp name => exact does_removeIfTemp ran
  | discardTemps =>
    obtain ⟨n, ran, -⟩ := ran_map.1 ran
    exact does_discardTemps sound ran
  | reserve r => exact does_reserve sound opens ran
  | unreserveAll => exact does_unreserveAll ran
  | setArray name size => exact does_setArray ran
  | arrayAddress name =>
    obtain ⟨address, ran, -⟩ := ran_map.1 ran
    have same := knownAs_reads (fun v ran => by
      split at ran
      · exact (ran_addressOf.1 ran).2
      · exact (ran_throw.1 ran).elim) ran
    rw [same]
    exact .refl _
  | setDims name sizes => exact does_noteOf ran fun v => ⟨rfl, rfl, rfl, rfl, rfl, rfl⟩
  | dims name | kind name | refs name =>
    obtain ⟨answer, ran, -⟩ := ran_map.1 ran
    rw [knownAs_reads (fun v ran => (ran_pure.1 ran).2) ran]
    exact .refl _
  | memoryAddress name =>
    obtain ⟨address, ran, -⟩ := ran_map.1 ran
    exact does_memoryAddress sound (fun resolved found isTemp => ⟨resolved, _, found, isTemp⟩) ran
  | setMustReload name =>
    exact does_setMustReload sound (fun resolved found isTemp => ⟨resolved, _, found, isTemp⟩) ran
  | setKind name read | setRefs name stars => exact does_noteOf ran fun v => ⟨rfl, rfl, rfl, rfl, rfl, rfl⟩
  | setAlias name target => exact does_setAlias ran
  | removeAlias name => exact does_removeAlias ran
  | demote name => exact does_demote ran
  | hold r =>
    cases ran_hold.1 ran
    exact .aside (.hold _ r) fun _ => rfl
  | releaseHolds =>
    cases (ran_change (f := fun a => { a with held := [] })).1 ran
    exact .aside (.of_same (Nat.le_refl _) rfl) fun _ => rfl
  | sync => exact does_sync sound pool ran
  | pushLevel hidesOuter => exact does_pushLevel ran
  | popLevel => exact does_popLevel sound ran
  | enterFunction | leaveFunction | pushWords words | popWords words | saveForCall | restoreAfterCall =>
    exact deed.elim

end Alloc

end SmallC
