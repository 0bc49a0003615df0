import SmallC.Proofs.Allocation.Dropping

/-!
Operations on variables and temporaries. Each is inverted into the traffic it causes and the change of
names and variables it makes, and preserves the order of the state.
-/
namespace SmallC.Alloc

open Allocator

variable {w w' : Work} {id : VarId} {r : Reg} {name temp : String} {hand : List Reg}

@[simp]
theorem ran_insert {v : Variable} :
    Ran (insert v) w id w' ↔ id = w.allocator.vars.size ∧ w' = on (fun a => a.addVar v) w := by
  unfold insert
  simp only [ran_bind, ran_look, ran_change, ran_pure, and_assoc, exists_and_left, exists_eq_left,
    exists_const]
  rfl

@[simp]
theorem ran_name {x : Unit} :
    Ran (Alloc.name name id) w x w' ↔
      w' = on (fun a => a.modifyCurrent (Level.addName name id)) w :=
  ran_change

/-! ### Introducing variables -/

/-- The named variable that is introduced in a register. -/
def introducedVar (a : Allocator) (name : String) (r : Reg) : Variable :=
  { Variable.plain name false a.depth (some a.nextHome) (.register r) with isDirty := true }

/-- The state with a named variable introduced in a register. -/
def withVariable (name : String) (r : Reg) (a : Allocator) : Allocator :=
  (((a.grown 1).addVar (introducedVar a name r)).modifyCurrent (Level.addName name a.vars.size)).bound
    a.vars.size r (introducedVar a name r)

theorem var?_introduced (a : Allocator) (v : Variable) (words : Nat) (f : Level → Level) :
    (((a.grown words).addVar v).modifyCurrent f).var? a.vars.size = some v := by
  rw [modifyCurrent, var?_modifyLevel, var?_addVar]
  exact if_pos rfl

theorem var?_withVariable (a : Allocator) (name : String) (r : Reg) (other : VarId) :
    (withVariable name r a).var? other =
      if other = a.vars.size then some (introducedVar a name r) else a.var? other := by
  rw [withVariable, var?_bound (var?_introduced a _ 1 _)]
  split
  · rfl
  · next apart =>
    rw [modifyCurrent, var?_modifyLevel, var?_addVar]
    exact if_neg apart

theorem ran_addVariable {given : Option Reg} (ran : Ran (addVariable name given) w r w') :
    w.allocator.current.names.lookup name = none ∧ ∃ mid,
      ((given = none ∧ Ran take w r mid) ∨
        (given = some r ∧ w.allocator.ownerOf r = none ∧ mid = on (fun a => a.withdrawn r) w)) ∧
      w' = on (withVariable name r) mid := by
  unfold addVariable at ran
  cases given with
  | none =>
    simp only [ran_bind, ran_checkUnbound, ran_allocHome, ran_look, ran_insert, ran_name, ran_pure,
      ran_bindTo, and_assoc, exists_and_left, exists_eq_left, exists_const] at ran
    obtain ⟨unbound, s, mid, took, _, ⟨v, found, rfl⟩, rfl, rfl⟩ := ran
    cases found.symm.trans (var?_introduced mid.allocator _ 1 _)
    exact ⟨unbound, mid, .inl ⟨rfl, took⟩, rfl⟩
  | some s =>
    simp only [ran_bind, ran_checkUnbound, ran_allocHome, ran_look, ran_insert, ran_name, ran_pure,
      ran_bindTo, ran_ite, ran_throw, ran_withdraw, and_assoc, exists_and_left, exists_eq_left,
      exists_const, and_false, false_and, exists_false, false_or] at ran
    obtain ⟨unbound, unowned, _, ⟨v, found, rfl⟩, rfl, rfl⟩ := ran
    cases found.symm.trans (var?_introduced (w.allocator.withdrawn r) _ 1 _)
    exact ⟨unbound, _, .inr ⟨rfl, Option.not_isSome_iff_eq_none.1 unowned, rfl⟩, rfl⟩

theorem introducedVar_fits (a : Allocator) (name : String) (r : Reg) :
    (introducedVar a name r).Fits :=
  ⟨nofun, fun _ => rfl, fun _ => rfl, fun _ _ => nofun, nofun⟩

/-- A named variable may be introduced in any register that is in hand. -/
theorem withVariable_sound {a : Allocator} (sound : Sound (r :: hand) a)
    (unbound : a.current.names.lookup name = none) : Sound hand (withVariable name r a) :=
  sound.introduce rfl rfl unbound rfl (introducedVar_fits a name r) rfl

/-- A register that is no place of the others is taken in hand. -/
theorem given_sound {a : Allocator} (sound : Sound [] a) (idle : a.calls = [])
    (unowned : a.ownerOf r = none) (outside : r.isPool = false) :
    Sound [r] (a.withdrawn r) where
  registers := sound.registers.give outside unowned (by simp [parked, idle]) List.not_mem_nil
  names := sound.names.congr (fun _ => rfl) rfl rfl fun _ => rfl
  homes := ⟨sound.homes.granted, sound.homes.apart, sound.homes.root⟩
  fits := sound.fits
  body := sound.body.congr rfl rfl rfl

theorem addVariable_sound {given : Option Reg} (sound : Sound [] w.allocator)
    (idle : w.allocator.calls = []) (argument : ∀ s, given = some s → s.isPool = false)
    (ran : Ran (addVariable name given) w r w') : Sound [] w'.allocator := by
  obtain ⟨unbound, mid, ⟨-, took⟩ | ⟨rfl, unowned, rfl⟩, rfl⟩ := ran_addVariable ran
  · have taken := takes sound took
    refine withVariable_sound taken.sound ?_
    rwa [Allocator.current, taken.keeps.inner, taken.keeps.root]
  · exact withVariable_sound (given_sound sound idle unowned (argument r rfl)) unbound

theorem addVariable_calls {given : Option Reg} (sound : Sound [] w.allocator)
    (ran : Ran (addVariable name given) w r w') : w'.allocator.calls = w.allocator.calls := by
  obtain ⟨-, mid, ⟨-, took⟩ | ⟨-, -, rfl⟩, rfl⟩ := ran_addVariable ran
  · rw [allocator_on, withVariable, modifyCurrent, modifyLevel_eq]
    exact (takes sound took).keeps.calls
  · rw [allocator_on, withVariable, modifyCurrent, modifyLevel_eq]
    rfl

theorem ran_declareVariable {x : Unit} (ran : Ran (declareVariable name) w x w') :
    w.allocator.current.names.lookup name = none ∧
      w' = on (fun a => ((a.grown 1).addVar
        (Variable.plain name false a.depth (some a.nextHome) (.memory a.nextHome))).modifyCurrent
          (Level.addName name a.vars.size)) w := by
  simp only [declareVariable, ran_bind, ran_checkUnbound, ran_allocHome, ran_look, ran_insert,
    ran_name, and_assoc, exists_and_left, exists_eq_left, exists_const] at ran
  exact ran

theorem declareVariable_sound {x : Unit} (sound : Sound hand w.allocator)
    (ran : Ran (declareVariable name) w x w') : Sound hand w'.allocator := by
  obtain ⟨unbound, rfl⟩ := ran_declareVariable ran
  exact sound.declare rfl rfl unbound Nat.one_pos (fun has => (Option.some.inj has).symm)
    ⟨fun there => (by cases there; rfl), fun _ => rfl, fun _ => rfl, fun _ _ => nofun, nofun⟩
    fun _ => nofun

theorem declareVariable_calls {x : Unit} (ran : Ran (declareVariable name) w x w') :
    w'.allocator.calls = w.allocator.calls := by
  obtain ⟨-, rfl⟩ := ran_declareVariable ran
  rw [allocator_on, modifyCurrent, modifyLevel_eq]
  rfl

theorem ran_setArray {size : Nat} {x : Unit} (ran : Ran (setArray name size) w x w') :
    w.allocator.current.names.lookup name = none ∧
      w' = on (fun a => ((a.grown (max size 1)).addVar
        { Variable.plain name false a.depth none (.memory a.nextHome) with
          array := some a.nextHome, refs := 1 }).modifyCurrent (Level.addName name a.vars.size)) w := by
  simp only [setArray, ran_bind, ran_checkUnbound, ran_allocHome, ran_look, ran_insert, ran_name,
    and_assoc, exists_and_left, exists_eq_left, exists_const] at ran
  exact ran

theorem setArray_sound {size : Nat} {x : Unit} (sound : Sound hand w.allocator)
    (ran : Ran (setArray name size) w x w') : Sound hand w'.allocator := by
  obtain ⟨unbound, rfl⟩ := ran_setArray ran
  exact sound.declare rfl rfl unbound (Nat.lt_of_lt_of_le Nat.one_pos (Nat.le_max_right _ _))
    nofun ⟨fun there => (by cases there; rfl), fun _ => rfl, fun _ => rfl, fun _ _ => nofun, nofun⟩
    fun _ => nofun

theorem setArray_calls {size : Nat} {x : Unit} (ran : Ran (setArray name size) w x w') :
    w'.allocator.calls = w.allocator.calls := by
  obtain ⟨-, rfl⟩ := ran_setArray ran
  rw [allocator_on, modifyCurrent, modifyLevel_eq]
  rfl

/-- The temporary that is introduced in a register. -/
def introducedTemp (a : Allocator) (r : Reg) : Variable :=
  Variable.plain (tempName a.nextTemp) true a.depth none (.register r)

/-- The state with a temporary introduced in a register. -/
def withTemp (r : Reg) (a : Allocator) : Allocator :=
  ({ a.addVar (introducedTemp a r) with
    nextTemp := a.nextTemp + 1
    temps := Level.without (tempName a.nextTemp) a.temps ++ [(tempName a.nextTemp, a.vars.size)] }).bound
      a.vars.size r (introducedTemp a r)

theorem var?_withTemp (a : Allocator) (other : VarId) :
    (withTemp r a).var? other =
      if other = a.vars.size then some (introducedTemp a r) else a.var? other := by
  have found : (a.addVar (introducedTemp a r)).var? a.vars.size = some (introducedTemp a r) := by
    rw [var?_addVar]
    exact if_pos rfl
  refine (var?_bound (a := a.addVar (introducedTemp a r)) found other).trans ?_
  rw [var?_addVar]
  split
  · rfl
  · rfl

theorem ran_addTemp (ran : Ran addTemp w temp w') :
    ∃ r mid, Ran take w r mid ∧ temp = tempName mid.allocator.nextTemp ∧
      w' = on (withTemp r) mid := by
  simp only [addTemp, freshTemp, addTempName, ran_bind, ran_look, ran_change, ran_insert, ran_pure,
    ran_bindTo, and_assoc, exists_and_left, exists_eq_left, exists_const] at ran
  obtain ⟨r, mid, took, _, ⟨v, found, rfl⟩, rfl, rfl⟩ := ran
  have known : (mid.allocator.addVar (introducedTemp mid.allocator r)).var?
      mid.allocator.vars.size = some (introducedTemp mid.allocator r) := by
    rw [var?_addVar]
    exact if_pos rfl
  cases found.symm.trans known
  exact ⟨r, mid, took, rfl, rfl⟩

theorem withTemp_sound {a : Allocator} (sound : Sound (r :: hand) a) :
    Sound hand (withTemp r a) :=
  sound.introduceTemp (v := introducedTemp a r) rfl rfl rfl
    ⟨nofun, nofun, nofun, nofun, nofun⟩ rfl

theorem addTemp_sound (sound : Sound hand w.allocator) (ran : Ran addTemp w temp w') :
    Sound hand w'.allocator := by
  obtain ⟨r, mid, took, -, rfl⟩ := ran_addTemp ran
  exact withTemp_sound (takes sound took).sound

theorem addTemp_calls (sound : Sound hand w.allocator) (ran : Ran addTemp w temp w') :
    w'.allocator.calls = w.allocator.calls := by
  obtain ⟨r, mid, took, -, rfl⟩ := ran_addTemp ran
  exact (takes sound took).keeps.calls

/-! ### Temporaries that become variables, and variables that become temporaries -/

theorem memory_of_home {v : Variable} {home : Home} (has : v.home = some home) : v.memory?.isSome := by
  rw [Variable.memory?, has]
  cases v.array <;> rfl

/-- A temporary as the named variable that it becomes. -/
def renamedVar (a : Allocator) (name : String) (home : Home) (isDirty : Bool) (v : Variable) : Variable :=
  { v with name, isTemp := false, isPinned := false, depth := a.depth, home := some home, isDirty }

/-- The state with a temporary that became a named variable. -/
def withRenamed (temp name : String) (id : VarId) (v : Variable) (a : Allocator) : Allocator :=
  ({ a with temps := Level.without temp a.temps }.setVar id v).modifyCurrent (Level.addName name id)

/-- What does not concern names and variables stays. -/
theorem withRenamed_eq (temp name : String) (id : VarId) (v : Variable) (a : Allocator) :
    withRenamed temp name id v a = { a with
      root := (withRenamed temp name id v a).root
      inner := (withRenamed temp name id v a).inner
      temps := Level.without temp a.temps
      vars := a.vars.setIfInBounds id (some v) } := by
  unfold withRenamed modifyCurrent
  rw [modifyLevel_eq]
  rfl

theorem var?_withRenamed {a : Allocator} {v v' : Variable} (found : a.var? id = some v) (other : VarId) :
    (withRenamed temp name id v' a).var? other = if other = id then some v' else a.var? other := by
  rw [withRenamed, modifyCurrent, var?_modifyLevel]
  exact var?_setVar (a := { a with temps := Level.without temp a.temps }) found v' other

theorem ran_renameTemp {x : Unit} (ran : Ran (renameTemp temp name) w x w') :
    w.allocator.current.names.lookup name = none ∧ ∃ id v,
      w.allocator.temps.lookup temp = some id ∧ w.allocator.var? id = some v ∧
        ((∃ r, v.storage = .register r ∧
            w' = on (fun a => { a with recency := a.recency.touch id }) (on (fun a =>
              withRenamed temp name id (renamedVar a name a.nextHome true v) (a.grown 1)) w)) ∨
          ∃ there home, v.storage = .memory there ∧ v.home = some home ∧
            w' = on (fun a => withRenamed temp name id (renamedVar a name home false v) a) w) := by
  simp only [renameTemp, ran_bind, ran_checkUnbound, ran_look, and_assoc, exists_and_left,
    exists_eq_left, exists_const] at ran
  obtain ⟨unbound, ran⟩ := ran
  refine ⟨unbound, ?_⟩
  cases looked : w.allocator.temps.lookup temp with
  | none =>
    rw [looked] at ran
    exact (ran_throw.1 ran).elim
  | some id =>
    simp only [looked, ran_bind, ran_known, and_assoc, exists_and_left, exists_eq_left] at ran
    obtain ⟨v, found, y, mid, adopted, ran⟩ := ran
    refine ⟨id, v, rfl, found, ?_⟩
    cases there : v.storage with
    | register r =>
      left
      simp only [adoptedHome, there, ran_bind, ran_allocHome, ran_pure, and_assoc, exists_and_left,
        exists_eq_left] at adopted
      obtain ⟨rfl, rfl⟩ := adopted
      simp only [there, removeTempName, Storage.register?, Option.isSome_some, ↓reduceIte, ran_change,
        ran_look, ran_update, ran_name, ran_touch, and_assoc, exists_and_left, exists_eq_left,
        exists_const] at ran
      obtain ⟨_, ⟨v', found', rfl⟩, rfl⟩ := ran
      cases found'.symm.trans found
      exact ⟨r, rfl, rfl⟩
    | memory place =>
      right
      cases has : v.home with
      | none =>
        simp only [adoptedHome, there, has] at adopted
        exact (ran_throw.1 adopted).elim
      | some home =>
        simp only [adoptedHome, there, has, ran_pure] at adopted
        obtain ⟨rfl, rfl⟩ := adopted
        simp only [there, removeTempName, Storage.register?, Option.isSome_none, Bool.false_eq_true,
          ↓reduceIte, ran_change, ran_look, ran_update, ran_name, ran_pure, and_assoc,
          exists_and_left, exists_eq_left, exists_const] at ran
        obtain ⟨_, ⟨v', found', rfl⟩, -, rfl⟩ := ran
        cases found'.symm.trans found
        exact ⟨place, home, rfl, rfl, rfl⟩
    | saved slot =>
      simp only [adoptedHome, there] at adopted
      exact (ran_throw.1 adopted).elim

/-- A temporary that is not put aside for a call may become a named variable. -/
theorem withRenamed_sound {a : Allocator} {v : Variable} (v' : Variable) (words : Nat)
    (sound : Sound hand a)
    (looked : a.temps.lookup temp = some id) (found : a.var? id = some v)
    (unbound : a.current.names.lookup v'.name = none) (isNamed : v'.isTemp = false)
    (depth : v'.depth = a.depth) (storage : v'.storage = v.storage)
    (home : ∃ home, v'.home = some home ∧ (v.home = some home ∨ home = a.nextHome) ∧
      (a.grown words).Grants home) (fits : v'.Fits) :
    Sound hand (withRenamed temp v'.name id v' (a.grown words)) := by
  obtain ⟨u, found', isTemp, rfl⟩ :=
    sound.names.tempIs ((Level.lookup_eq_some sound.names.tempOnce).1 looked)
  cases found'.symm.trans found
  have vars : ∀ other, (withRenamed v.name v'.name id v' (a.grown words)).var? other =
      if other = id then some v' else a.var? other := by
    intro other
    rw [withRenamed, modifyCurrent, var?_modifyLevel]
    exact var?_setVar (a := a) found v' other
  -- The names once the temporary is gone, and then once the variable is there.
  have gone : Names { a.dropVar id with temps := Level.without v.name a.temps } :=
    sound.names.forgetTemp found isTemp (fun other => var?_dropVar) rfl rfl rfl
  have names : Names (withRenamed v.name v'.name id v' (a.grown words)) := by
    have absent : (a.dropVar id).var? id = none := var?_dropVar.trans (if_pos rfl)
    refine gone.addNamed (v := v') absent isNamed depth unbound (fun other => ?_) ?_ ?_ ?_
    · rw [vars]
      by_cases here : other = id
      · rw [if_pos here, if_pos here]
      · rw [if_neg here, if_neg here]
        exact ((var?_dropVar (a := a)).trans (if_neg here)).symm
    · exact temps_modifyLevel _ _
    · exact nextTemp_modifyLevel _ _
    · exact levels_modifyLevel _ _
  have grants : ∀ {home}, (a.grown words).Grants home →
      (withRenamed v.name v'.name id v' (a.grown words)).Grants home := by
    intro home granted
    rw [withRenamed_eq]
    exact granted
  obtain ⟨own, has, origin, granted⟩ := home
  refine sound.change found ?_ names vars (fun granted => grants (grants_grown granted words))
    (fun {home} has' => ?_) (fun {home} _ shallow has' => ?_) fits ?_
  · rw [withRenamed_eq]
    exact (sound.registers.setVar found v' fun s => by rw [storage]).congr rfl rfl
      (fun _ => Iff.rfl) rfl rfl rfl
  · cases has.symm.trans has'
    exact ⟨origin, grants granted⟩
  · cases has.symm.trans has'
    exact (sound.grown words).body.root granted (depth.symm.trans shallow)
  · refine sound.body.congr ?_ (depth_modifyLevel _ _) ?_
    · rw [withRenamed_eq]
      exact Option.isSome_map
    · rw [withRenamed_eq]
      rfl

theorem renameTemp_sound {x : Unit} (sound : Sound hand w.allocator)
    (ran : Ran (renameTemp temp name) w x w') : Sound hand w'.allocator := by
  obtain ⟨unbound, id, v, looked, found, ⟨r, there, rfl⟩ | ⟨place, home, there, has, rfl⟩⟩ :=
    ran_renameTemp ran
  · have named : (renamedVar (w.allocator.grown 1) name w.allocator.nextHome true v).Fits := by
      refine ⟨fun {h} there' => ?_, fun _ => memory_of_home rfl, fun _ => rfl, fun _ slot there' => ?_,
        nofun⟩ <;>
      · cases there.symm.trans there'
    have renamed := withRenamed_sound
      (renamedVar (w.allocator.grown 1) name w.allocator.nextHome true v) 1 sound looked found
      unbound rfl rfl rfl ⟨_, rfl, .inr rfl, grants_nextHome Nat.one_pos⟩ named
    exact renamed.touched ((var?_withRenamed (a := w.allocator.grown 1) found id).trans (if_pos rfl)) there
  · have named : (renamedVar w.allocator name home false v).Fits := by
      refine ⟨fun {h} there' => ?_, fun _ => memory_of_home rfl, fun _ => rfl, fun _ slot there' => ?_,
        nofun⟩
      · have memory := (sound.fits found).memory there'
        rw [Variable.memory?, has] at memory
        exact memory
      · cases there.symm.trans there'
    have grown := grown_zero w.allocator
    have renamed := withRenamed_sound (renamedVar w.allocator name home false v) 0
      sound looked found unbound rfl rfl rfl ⟨home, rfl, .inl has, grown.symm ▸ sound.homes.granted found has⟩ named
    rw [grown] at renamed
    exact renamed

theorem renameTemp_calls {x : Unit} (ran : Ran (renameTemp temp name) w x w') :
    w'.allocator.calls = w.allocator.calls := by
  obtain ⟨-, id, v, -, -, ⟨r, -, rfl⟩ | ⟨place, home, -, -, rfl⟩⟩ := ran_renameTemp ran
  · rw [allocator_on, allocator_on, withRenamed_eq]
    rfl
  · rw [allocator_on, withRenamed_eq]

/-! ### Reading and writing -/

/-- What reading a variable comes to: it is in a register, and loaded anew if a pointer may have
changed it, or it is loaded into a register that is taken for it. -/
theorem ran_getRegister {modifies : Bool} (ran : Ran (getRegister name modifies) w r w') :
    ∃ id v, w.allocator.find? name = some id ∧ w.allocator.var? id = some v ∧
      ((v.storage = .register r ∧ ∃ mid,
          ((v.mustReload = true ∧ v.isDirty = false ∧ Ran (load id r) w () mid) ∨
            mid = w ∧ ¬ (modifies = true ∧ v.mustReload = true ∧ v.isDirty = false)) ∧
          w' = on (fun a => a.used id r) mid) ∨
        (v.storage.register? = none ∧ ∃ mid loaded u, Ran take w r mid ∧
          Ran (load id r) mid () loaded ∧ loaded.allocator.var? id = some u ∧
          w' = on (fun a => (a.bound id r u).setVar id
            { u with storage := .register r, isDirty := false }) loaded)) := by
  simp only [getRegister, ran_bind, ran_resolve, ran_known, and_assoc, exists_and_left,
    exists_eq_left] at ran
  obtain ⟨id, resolved, v, found, ran⟩ := ran
  refine ⟨id, v, resolved, found, ?_⟩
  cases there : v.storage with
  | register s =>
    left
    simp only [there, Storage.register?, ran_bind, ran_ite, ran_touch, ran_hold, ran_pure, and_assoc,
      exists_and_left, exists_eq_left, exists_const] at ran
    rcases ran with ⟨-, reloads, clean, _, mid, loaded, rfl, rfl⟩ | ⟨fresh, rfl, rfl⟩
    · exact ⟨rfl, mid, .inl ⟨reloads, eq_false_of_ne_true clean, loaded⟩, rfl⟩
    · refine ⟨rfl, w, .inr ⟨rfl, fun it => fresh ⟨it.1, it.2.1, ?_⟩⟩, rfl⟩
      rw [it.2.2]
      exact Bool.false_ne_true
  | memory | saved =>
    right
    simp only [there, Storage.register?, ran_bind, ran_bindTo, ran_update, ran_pure] at ran
    obtain ⟨s, mid, took, _, after, loaded, _, _, ⟨u, known, rfl⟩, _, _, ⟨u', known', rfl⟩, rfl, rfl⟩ := ran
    rw [allocator_on, var?_bound known, if_pos rfl] at known'
    cases known'
    exact ⟨rfl, mid, after, u, took, loaded, known, rfl⟩

/-- A variable that is in no register comes to the register in hand. -/
theorem arrives_sound {a : Allocator} {v v' : Variable} (sound : Sound (r :: hand) a)
    (found : a.var? id = some v) (away : v.storage.register? = none)
    (storage : v'.storage = .register r) (name : v'.name = v.name) (temp : v'.isTemp = v.isTemp)
    (depth : v'.depth = v.depth) (home : v'.home = v.home) (array : v'.array = v.array)
    (pinned : v'.isTemp = false → v'.isPinned = v.isPinned) :
    Sound hand ((a.bound id r v).setVar id v') := by
  have fits := sound.fits found
  have bound := sound.bound found fun s there => by
    rw [there] at away
    cases away
  refine bound.setVar (v := { v with storage := .register r }) ?_ v' (fun s => by rw [storage]) name temp
    depth home ⟨fun there => ?_, fun isNamed => ?_, fun isNamed => ?_, fun _ slot there => ?_,
      fun _ home there => ?_⟩
  · rw [var?_bound found, if_pos rfl]
  · rw [storage] at there
    cases there
  · rw [Variable.memory?, home, array]
    exact fits.home (temp ▸ isNamed)
  · rw [pinned isNamed]
    exact fits.unpinned (temp ▸ isNamed)
  · rw [storage] at there
    cases there
  · rw [storage] at there
    cases there

theorem getRegister_sound {modifies : Bool} (sound : Sound hand w.allocator)
    (ran : Ran (getRegister name modifies) w r w') : Sound hand w'.allocator := by
  obtain ⟨id, v, resolved, found, ⟨there, mid, loaded, rfl⟩ |
    ⟨away, mid, loaded, u, took, load, known, rfl⟩⟩ := ran_getRegister ran
  · have same : mid.allocator = w.allocator := by
      rcases loaded with ⟨-, -, load⟩ | ⟨rfl, -⟩
      · exact allocator_load load
      · rfl
    rw [allocator_on, same]
    exact sound.used found there
  · have taken := takes sound took
    have known' := taken.only found fun there => by
      rw [there] at away
      cases away
    rw [allocator_load load, known'] at known
    cases known
    rw [allocator_on, allocator_load load]
    exact arrives_sound taken.sound known' away rfl rfl rfl rfl rfl rfl fun _ => rfl

/-- A variable that is in no register comes to the register in hand, and all else stays. -/
theorem arrives_keeps {a : Allocator} {v : Variable} (v' : Variable) (found : a.var? id = some v)
    (away : v.storage.register? = none) (storage : v'.storage = .register r) (same : v.Same v') :
    Keeps a ((a.bound id r v).setVar id v') := by
  refine (Keeps.bound found fun {s} there => ?_).trans (Keeps.setVar (v := { v with
    storage := .register r }) ?_ ⟨same.name, same.isTemp, same.depth, same.array, same.dims, same.kind,
      same.refs, same.mustReload, same.home⟩ fun {s} there _ => ?_)
  · rw [there] at away
    cases away
  · rw [var?_bound found, if_pos rfl]
  · cases there
    exact storage

theorem mem_held_hold (held : List Reg) (r : Reg) : r ∈ if r ∈ held then held else r :: held := by
  split
  · assumption
  · exact List.mem_cons_self

/-- A variable that was read is in the register that was answered, which is held. -/
theorem getRegister_reads {modifies : Bool} (sound : Sound hand w.allocator)
    (ran : Ran (getRegister name modifies) w r w') :
    Keeps w.allocator w'.allocator ∧ r ∈ w'.allocator.held ∧ ∃ id v,
      w'.allocator.find? name = some id ∧ w'.allocator.var? id = some v ∧
        v.storage = .register r := by
  obtain ⟨id, v, resolved, found, ⟨there, mid, loaded, rfl⟩ |
    ⟨away, mid, loaded, u, took, load, known, rfl⟩⟩ := ran_getRegister ran
  · have same : mid.allocator = w.allocator := by
      rcases loaded with ⟨-, -, load⟩ | ⟨rfl, -⟩
      · exact allocator_load load
      · rfl
    rw [allocator_on, same]
    exact ⟨.used _ id r, mem_held_hold _ r, id, v, resolved, found, there⟩
  · have taken := takes sound took
    have known' := taken.only found fun there => by
      rw [there] at away
      cases away
    rw [allocator_load load, known'] at known
    cases known
    rw [allocator_on, allocator_load load]
    have keeps := taken.keeps.trans (arrives_keeps (r := r)
      { v with storage := .register r, isDirty := false } known' away rfl
      ⟨rfl, rfl, rfl, rfl, rfl, rfl, rfl, rfl, fun has => has⟩)
    refine ⟨keeps, mem_held_hold _ r, id, _, (keeps.find? name).trans resolved,
      var?_setVar_self (v := { v with storage := .register r }) ?_ _, rfl⟩
    rw [var?_bound known', if_pos rfl]

/-- A named variable as the temporary that it becomes. -/
def detachedVar (temp : String) (v : Variable) : Variable :=
  { v with
    name := temp, isTemp := true, depth := v.depth - 1, home := none, isDirty := false
    mustReload := false }

/-- The state with a named variable that became a temporary. -/
def withDetached (name : String) (id : VarId) (v : Variable) (a : Allocator) : Allocator :=
  { (a.modifyLevel v.depth (Level.removeName name)).setVar id
      (detachedVar (tempName a.nextTemp) v) with
    nextTemp := a.nextTemp + 1
    temps := Level.without (tempName a.nextTemp) a.temps ++ [(tempName a.nextTemp, id)] }

/-- What does not concern names and variables stays. -/
theorem withDetached_eq (name : String) (id : VarId) (v : Variable) (a : Allocator) :
    withDetached name id v a = { a with
      root := (withDetached name id v a).root
      inner := (withDetached name id v a).inner
      temps := (withDetached name id v a).temps
      nextTemp := a.nextTemp + 1
      vars := a.vars.setIfInBounds id (some (detachedVar (tempName a.nextTemp) v)) } := by
  unfold withDetached
  rw [modifyLevel_eq]
  rfl

theorem var?_withDetached {a : Allocator} {v u : Variable} (name : String) (found : a.var? id = some u)
    (other : VarId) : (withDetached name id v a).var? other =
      if other = id then some (detachedVar (tempName a.nextTemp) v) else a.var? other := by
  rw [withDetached_eq]
  exact var?_setVar found _ other

theorem ran_detachAsTemp (ran : Ran (detachAsTemp name) w temp w') :
    ∃ r mid id v, Ran (getRegister name true) w r mid ∧ mid.allocator.find? name = some id ∧
      mid.allocator.var? id = some v ∧ temp = tempName mid.allocator.nextTemp ∧
      w' = on (fun a => { withDetached name id v a with
        held := if r ∈ a.held then a.held else r :: a.held }) mid := by
  simp only [detachAsTemp, freshTemp, addTempName, ran_bind, ran_resolve, ran_known, ran_change,
    ran_look, ran_pure, ran_update, ran_hold, and_assoc, exists_and_left, exists_eq_left,
    exists_const] at ran
  obtain ⟨r, mid, read, id, resolved, v, found, _, ⟨u, known, rfl⟩, rfl, rfl⟩ := ran
  have known' : mid.allocator.var? id = some u := (var?_modifyLevel _ _).symm.trans known
  rw [found] at known'
  cases known'
  refine ⟨r, mid, id, v, read, resolved, found, ?_, ?_⟩
  · simp
  · simp only [on, withDetached, setVar, nextTemp_modifyLevel, temps_modifyLevel,
      held_modifyLevel, detachedVar]

/-- A named variable in a register may become a temporary. -/
theorem withDetached_sound {a : Allocator} {v : Variable} (sound : Sound hand a)
    (found : a.var? id = some v) (isNamed : v.isTemp = false) (there : v.storage = .register r) :
    Sound hand (withDetached v.name id v a) := by
  have vars := fun other => var?_withDetached (v := v) v.name found other
  have storage : (detachedVar (tempName a.nextTemp) v).storage = v.storage := rfl
  -- The names once the variable is gone, and then once the temporary is there.
  have gone : Names ((a.dropVar id).modifyLevel v.depth (Level.removeName v.name)) :=
    sound.names.forgetNamed found isNamed (fun l _ => rfl)
      (fun other => (var?_modifyLevel _ _).trans var?_dropVar) (temps_modifyLevel _ _)
      (nextTemp_modifyLevel _ _) (levels_modifyLevel _ _)
  have names : Names (withDetached v.name id v a) := by
    have next : ((a.dropVar id).modifyLevel v.depth (Level.removeName v.name)).nextTemp =
        a.nextTemp := nextTemp_modifyLevel _ _
    have absent : ((a.dropVar id).modifyLevel v.depth (Level.removeName v.name)).var? id = none :=
      ((var?_modifyLevel _ _).trans var?_dropVar).trans (if_pos rfl)
    refine gone.addTemp (v := detachedVar (tempName a.nextTemp) v) absent rfl ?_
      (fun other => ?_) ?_ ?_ ?_
    · rw [next]
      rfl
    · rw [vars, var?_modifyLevel, var?_dropVar]
      split <;> rfl
    · rw [next, temps_modifyLevel]
      rfl
    · rw [next]
      rfl
    · exact (levels_modifyLevel _ _).trans (levels_modifyLevel (a := a.dropVar id) _ _).symm
  have fits := sound.fits found
  refine sound.change found ?_ names vars (fun granted => ?_) nofun nofun
    ⟨fun there' => ?_, nofun, nofun, nofun, fun pinned => ?_⟩ ?_
  · rw [withDetached_eq]
    exact (sound.registers.setVar found _ fun s => by rw [storage]).congr rfl rfl (fun _ => Iff.rfl)
      rfl rfl rfl
  · rw [withDetached_eq]
    exact granted
  · cases (storage.trans there).symm.trans there'
  · have unpinned := fits.unpinned isNamed
    cases unpinned.symm.trans pinned
  · refine sound.body.congr ?_ (depth_modifyLevel _ _) ?_
    · rw [withDetached_eq]
    · rw [withDetached_eq]

theorem detachAsTemp_sound (sound : Sound hand w.allocator)
    (own : ∀ {id v}, w.allocator.find? name = some id → w.allocator.var? id = some v →
      v.isTemp = false ∧ v.name = name)
    (ran : Ran (detachAsTemp name) w temp w') : Sound hand w'.allocator := by
  obtain ⟨r, mid, id, v, read, resolved, found, -, rfl⟩ := ran_detachAsTemp ran
  obtain ⟨keeps, -, id', v', resolved', found', there⟩ := getRegister_reads sound read
  cases resolved.symm.trans resolved'
  cases found.symm.trans found'
  rw [keeps.find?] at resolved
  cases known : w.allocator.var? id with
  | none =>
    rw [keeps.absent known] at found
    cases found
  | some u =>
    obtain ⟨isNamed, named⟩ := own resolved known
    obtain ⟨u', found'', same⟩ := keeps.same known
    cases found.symm.trans found''
    rw [← same.isTemp] at isNamed
    rw [← same.name] at named
    have detached := withDetached_sound (getRegister_sound sound read) found isNamed there
    rw [named] at detached
    exact detached.congr (fun _ => Iff.rfl) rfl

theorem detachAsTemp_calls (sound : Sound hand w.allocator) (ran : Ran (detachAsTemp name) w temp w') :
    w'.allocator.calls = w.allocator.calls := by
  obtain ⟨r, mid, id, v, read, -, -, -, rfl⟩ := ran_detachAsTemp ran
  obtain ⟨keeps, -⟩ := getRegister_reads sound read
  rw [allocator_on, withDetached_eq]
  exact keeps.calls

theorem ran_prepareWrite (ran : Ran (prepareWrite name) w r w') :
    ∃ id v, w.allocator.find? name = some id ∧ w.allocator.var? id = some v ∧ v.array = none ∧
      ((v.storage = .register r ∧
          w' = on (fun a => (a.used id r).setVar id { v with isDirty := true }) w) ∨
        (v.storage.register? = none ∧ ∃ mid u, Ran take w r mid ∧ mid.allocator.var? id = some u ∧
          w' = on (fun a => (a.bound id r u).setVar id
            { u with storage := .register r, isDirty := true }) mid)) := by
  simp only [prepareWrite, ran_bind, ran_resolve, ran_known, ran_ite, ran_throw, and_assoc,
    exists_and_left, exists_eq_left, false_and, and_false, exists_false, false_or] at ran
  obtain ⟨id, resolved, v, found, scalar, ran⟩ := ran
  refine ⟨id, v, resolved, found, Option.not_isSome_iff_eq_none.1 scalar, ?_⟩
  rcases v.storage.in_register with ⟨s, there⟩ | away
  · left
    simp only [there, Storage.register?, ran_bind, ran_touch, ran_hold, ran_pure, ran_update,
      and_assoc, exists_and_left, exists_eq_left, exists_const] at ran
    obtain ⟨_, ⟨u, known, rfl⟩, rfl, rfl⟩ := ran
    cases known.symm.trans found
    exact ⟨there, rfl⟩
  · right
    simp only [away, ran_bind, ran_bindTo, ran_update, ran_pure] at ran
    obtain ⟨s, mid, took, _, _, ⟨u, known, rfl⟩, _, _, ⟨rfl, rfl⟩, _, _, ⟨u', known', rfl⟩, rfl, rfl⟩ := ran
    rw [allocator_on, var?_bound known, if_pos rfl] at known'
    cases known'
    exact ⟨away, mid, u, took, known, rfl⟩

theorem prepareWrite_sound (sound : Sound hand w.allocator) (ran : Ran (prepareWrite name) w r w') :
    Sound hand w'.allocator := by
  obtain ⟨id, v, resolved, found, -, ⟨there, rfl⟩ | ⟨away, mid, u, took, known, rfl⟩⟩ :=
    ran_prepareWrite ran
  · have fits := sound.fits found
    exact (sound.used found there).setVar found { v with isDirty := true } (fun _ => Iff.rfl)
      rfl rfl rfl rfl ⟨fits.memory, fits.home, fits.unpinned, fits.unsaved, fits.pinned⟩
  · have taken := takes sound took
    have known' := taken.only found fun there => by
      rw [there] at away
      cases away
    cases known.symm.trans known'
    exact arrives_sound taken.sound known away rfl rfl rfl rfl rfl rfl fun _ => rfl

theorem prepareWrite_calls (sound : Sound hand w.allocator) (ran : Ran (prepareWrite name) w r w') :
    w'.allocator.calls = w.allocator.calls := by
  obtain ⟨id, v, -, -, -, ⟨-, rfl⟩ | ⟨-, mid, u, took, -, rfl⟩⟩ := ran_prepareWrite ran
  · rfl
  · exact (takes sound took).keeps.calls

theorem ran_markWritten {x : Unit} (ran : Ran (markWritten name) w x w') :
    ∃ id v, w.allocator.find? name = some id ∧ w.allocator.var? id = some v ∧
      ((v.isTemp = true ∧ w' = w) ∨ (v.isTemp = false ∧ ∃ mid,
        mid = on (fun a => a.setVar id { v with isDirty := true }) w ∧
          ((∃ r, v.mustReload = true ∧ v.storage = .register r ∧ Ran (writeBack id r) mid () w') ∨
            ((v.mustReload = false ∨ v.storage.register? = none) ∧ w' = mid)))) := by
  simp only [markWritten, ran_bind, ran_resolve, ran_known, ran_ite, ran_pure, ran_update, and_assoc,
    exists_and_left, exists_eq_left, exists_const] at ran
  obtain ⟨id, resolved, v, found, ⟨isTemp, -, rfl⟩ | ⟨isNamed, _, ⟨u, known, rfl⟩, ran⟩⟩ := ran
  · exact ⟨id, v, resolved, found, .inl ⟨isTemp, rfl⟩⟩
  · cases known.symm.trans found
    refine ⟨id, v, resolved, found, .inr ⟨eq_false_of_ne_true isNamed, _, rfl, ?_⟩⟩
    cases reload : v.mustReload with
    | false =>
      simp only [reload, ran_pure] at ran
      exact .inr ⟨.inl rfl, ran.2⟩
    | true =>
      cases there : v.storage with
      | register r =>
        simp only [reload, there, Storage.register?] at ran
        exact .inl ⟨r, rfl, rfl, ran⟩
      | memory | saved =>
        simp only [reload, there, Storage.register?, ran_pure] at ran
        exact .inr ⟨.inr rfl, ran.2⟩

theorem markWritten_sound {x : Unit} (sound : Sound hand w.allocator)
    (ran : Ran (markWritten name) w x w') : Sound hand w'.allocator := by
  obtain ⟨id, v, resolved, found, ⟨-, rfl⟩ | ⟨-, mid, rfl, written⟩⟩ := ran_markWritten ran
  · exact sound
  · have fits := sound.fits found
    have marked := sound.setVar found { v with isDirty := true } (fun _ => Iff.rfl) rfl rfl rfl
      rfl ⟨fits.memory, fits.home, fits.unpinned, fits.unsaved, fits.pinned⟩
    rcases written with ⟨r, -, -, wrote⟩ | ⟨-, rfl⟩
    · refine writeBack_sound ?_ wrote
      exact marked
    · exact marked

theorem markWritten_calls {x : Unit} (ran : Ran (markWritten name) w x w') :
    w'.allocator.calls = w.allocator.calls := by
  obtain ⟨id, v, -, -, ⟨-, rfl⟩ | ⟨-, mid, rfl, ⟨r, -, -, wrote⟩ | ⟨-, rfl⟩⟩⟩ := ran_markWritten ran
  · rfl
  · exact (writeBack_keeps wrote).calls
  · rfl

/-! ### Notes about variables -/

/-- What is noted about a variable is of no concern to where it is. -/
theorem note_sound {f : Variable → Variable} {x : Unit} (sound : Sound hand w.allocator)
    (note : ∀ v, (f v).storage = v.storage ∧ (f v).name = v.name ∧ (f v).isTemp = v.isTemp ∧
      (f v).depth = v.depth ∧ (f v).home = v.home ∧ (f v).array = v.array ∧
      (f v).isPinned = v.isPinned)
    (ran : Ran (update id f) w x w') : Sound hand w'.allocator := by
  obtain ⟨v, found, rfl⟩ := ran_update.1 ran
  obtain ⟨storage, name, temp, depth, home, array, pinned⟩ := note v
  have fits := sound.fits found
  have memory : (f v).memory? = v.memory? := by rw [Variable.memory?, Variable.memory?, home, array]
  refine sound.setVar found _ (fun s => by rw [storage]) name temp depth home
    ⟨fun there => ?_, ?_, ?_, ?_, ?_⟩
  · rw [storage] at there
    exact memory ▸ fits.memory there
  · rw [temp, memory]
    exact fits.home
  · rw [temp, pinned]
    exact fits.unpinned
  · rw [temp, storage]
    exact fits.unsaved
  · rw [storage, pinned]
    exact fits.pinned

/-- A note about a variable that a name stands for. -/
theorem noteOf_sound {f : Variable → Variable} {x : Unit} (sound : Sound hand w.allocator)
    (note : ∀ v, (f v).storage = v.storage ∧ (f v).name = v.name ∧ (f v).isTemp = v.isTemp ∧
      (f v).depth = v.depth ∧ (f v).home = v.home ∧ (f v).array = v.array ∧
      (f v).isPinned = v.isPinned)
    (ran : Ran (do update (← resolve name) f) w x w') : Sound hand w'.allocator := by
  simp only [ran_bind, ran_resolve] at ran
  obtain ⟨id, _, ⟨-, rfl⟩, ran⟩ := ran
  exact note_sound sound note ran

theorem memoryAddress_sound {address : Address} (sound : Sound hand w.allocator)
    (ran : Ran (memoryAddress name) w address w') :
    Sound hand w'.allocator ∧ w'.allocator.calls = w.allocator.calls := by
  simp only [memoryAddress, ran_bind, ran_resolve, ran_known, and_assoc, exists_and_left,
    exists_eq_left] at ran
  obtain ⟨id, resolved, v, found, ran⟩ := ran
  split at ran
  · obtain ⟨-, rfl⟩ := ran_addressOf.1 ran
    exact ⟨sound, rfl⟩
  · exact (ran_throw.1 ran).elim
  · have rest : ∀ {mid : Work}, Sound hand mid.allocator →
        mid.allocator.calls = w.allocator.calls → ∀ {home : Home} {marked : Work} {x : Unit},
        Ran (update id fun v => { v with mustReload := true }) mid x marked →
        Ran (addressOf home) marked address w' →
        Sound hand w'.allocator ∧ w'.allocator.calls = w.allocator.calls := by
      intro mid sound calls home marked x noted addressed
      have sound' : Sound hand marked.allocator := by
        refine note_sound sound ?_ noted
        exact fun v => ⟨rfl, rfl, rfl, rfl, rfl, rfl, rfl⟩
      obtain ⟨-, rfl⟩ := ran_addressOf.1 addressed
      obtain ⟨u, -, rfl⟩ := ran_update.1 noted
      exact ⟨sound', calls⟩
    split at ran
    · simp only [ran_bind] at ran
      obtain ⟨_, mid, wrote, _, marked, noted, addressed⟩ := ran
      exact rest (writeBack_sound sound wrote) (writeBack_keeps wrote).calls noted addressed
    · simp only [ran_bind] at ran
      obtain ⟨_, marked, noted, addressed⟩ := ran
      exact rest sound rfl noted addressed

/-! ### Dropping, holding and reserving -/

theorem drop_calls {x : Unit} (ran : Ran (drop id) w x w') :
    w'.allocator.calls = w.allocator.calls := by
  obtain ⟨v, -, ⟨-, rfl⟩ | ⟨r, -, rfl⟩⟩ := ran_drop ran
  · rw [allocator_on, forgotten_eq]
  · rw [allocator_on, forgotten_eq]
    rfl

theorem discardTemps_sound {n : Nat} (sound : Sound hand w.allocator)
    (ran : Ran discardTemps w n w') :
    Sound hand w'.allocator ∧ w'.allocator.calls = w.allocator.calls := by
  simp only [discardTemps, ran_bind, ran_look, ran_pure, and_assoc, exists_and_left,
    exists_eq_left] at ran
  obtain ⟨_, dropped, ran, -, rfl⟩ := ran
  refine Ran.forM ran (P := fun mid => Sound hand mid.allocator ∧
    mid.allocator.calls = w.allocator.calls) ⟨sound, rfl⟩ fun temp _ mid mid' kept ran => ?_
  exact ⟨drop_sound kept.1 ran, (drop_calls ran).trans kept.2⟩

theorem removeIfTemp_sound {x : Unit} (sound : Sound hand w.allocator)
    (ran : Ran (removeIfTemp name) w x w') :
    Sound hand w'.allocator ∧ w'.allocator.calls = w.allocator.calls := by
  simp only [removeIfTemp, ran_bind, ran_look, and_assoc, exists_and_left, exists_eq_left] at ran
  split at ran
  · exact ⟨drop_sound sound ran, drop_calls ran⟩
  · obtain ⟨-, rfl⟩ := ran_pure.1 ran
    exact ⟨sound, rfl⟩

/-- Further names are of no concern to variables. -/
theorem aliases_sound {a : Allocator} {f : Level → Level} (sound : Sound hand a)
    (same : ∀ l, (f l).names = l.names) : Sound hand (a.modifyCurrent f) := by
  have level : ∀ d : Nat, ((a.modifyCurrent f).levels[d]?).map Level.names =
      (a.levels[d]?).map Level.names := by
    intro d
    rw [modifyCurrent, levels_modifyLevel, List.getElem?_modify]
    cases a.levels[d]? with
    | none => rfl
    | some l =>
      by_cases here : a.depth = d <;> simp [here, same]
  have fields := modifyLevel_eq (a := a) a.depth f
  refine ⟨⟨?_, sound.names.congr (fun _ => var?_modifyLevel _ _) (temps_modifyLevel _ _)
    (nextTemp_modifyLevel _ _) level, ?_, fun {i v} found => ?_⟩, ?_⟩
  · rw [modifyCurrent, fields]
    exact sound.registers.congr rfl rfl (fun _ => Iff.rfl) rfl rfl rfl
  · rw [modifyCurrent, fields]
    exact ⟨sound.homes.granted, sound.homes.apart, sound.homes.root⟩
  · rw [modifyCurrent, var?_modifyLevel] at found
    exact sound.fits found
  · refine sound.body.congr ?_ (depth_modifyLevel _ _) ?_
    · rw [modifyCurrent, fields]
    · rw [modifyCurrent, fields]

theorem setAlias_sound {target : String} {x : Unit} (sound : Sound hand w.allocator)
    (ran : Ran (setAlias name target) w x w') :
    Sound hand w'.allocator ∧ w'.allocator.calls = w.allocator.calls := by
  simp only [setAlias, ran_bind, ran_resolve, ran_change, and_assoc, exists_and_left,
    exists_eq_left] at ran
  obtain ⟨id, -, rfl⟩ := ran
  exact ⟨aliases_sound sound fun _ => rfl, by rw [allocator_on, modifyCurrent, modifyLevel_eq]⟩

theorem removeAlias_sound {x : Unit} (sound : Sound hand w.allocator)
    (ran : Ran (removeAlias name) w x w') :
    Sound hand w'.allocator ∧ w'.allocator.calls = w.allocator.calls := by
  rw [ran_change.1 ran]
  exact ⟨aliases_sound sound fun _ => rfl, by rw [allocator_on, modifyCurrent, modifyLevel_eq]⟩

theorem demote_sound {x : Unit} (sound : Sound hand w.allocator) (ran : Ran (demote name) w x w') :
    Sound hand w'.allocator ∧ w'.allocator.calls = w.allocator.calls := by
  simp only [demote, ran_bind, ran_look, and_assoc, exists_and_left, exists_eq_left] at ran
  split at ran
  · rw [ran_change.1 ran]
    exact ⟨sound.congr (fun _ => Recency.mem_demote) rfl, rfl⟩
  · obtain ⟨-, rfl⟩ := ran_pure.1 ran
    exact ⟨sound, rfl⟩

/-- The state with a register of the pool out of circulation. -/
def withReserved (r : Reg) (a : Allocator) : Allocator :=
  { a.withdrawn r with
    reserved := if r.isPool ∧ r ∉ a.reserved then a.reserved ++ [r] else a.reserved }

/-- What reserving a register comes to: what it holds goes to another register, and a register of the
pool is out of circulation. -/
theorem ran_reserve {x : Unit} (ran : Ran (reserve r) w x w') :
    ∃ mid, w' = on (withReserved r) mid ∧
      ((w.allocator.ownerOf r = none ∧ mid = w) ∨
        ∃ id target taken u, w.allocator.ownerOf r = some id ∧
          Ran take (on (fun a => { a with held := if r ∈ a.held then a.held else r :: a.held }) w)
            target taken ∧
          taken.allocator.var? id = some u ∧
          mid = on (fun a => (a.setOwner r none).bound id target u)
            (push (MachineInstr.move target r) taken)) := by
  have rest : ∀ {mid : Work} {x : Unit}, Ran (do
      withdraw r
      if r.isPool then
        change fun a => { a with
          reserved := if r ∈ a.reserved then a.reserved else a.reserved ++ [r] }) mid x w' →
      w' = on (withReserved r) mid := by
    intro mid x ran
    simp only [ran_bind, ran_withdraw, ran_ite, ran_change, ran_pure, exists_eq_left,
      exists_const] at ran
    have same : (mid.allocator.withdrawn r).reserved = mid.allocator.reserved := rfl
    rcases ran with ⟨inPool, rfl⟩ | ⟨outside, -, rfl⟩
    · by_cases already : r ∈ mid.allocator.reserved
      · simp [on, withReserved, inPool, same, already]
      · simp [on, withReserved, inPool, same, already]
    · simp [on, withReserved, outside]
      rfl
  simp only [reserve, ran_bind, ran_look, and_assoc, exists_and_left, exists_eq_left] at ran
  cases owned : w.allocator.ownerOf r with
  | none =>
    simp only [owned] at ran
    exact ⟨w, rest ran, .inl ⟨rfl, rfl⟩⟩
  | some id =>
    simp only [owned, ran_bind, ran_hold, ran_emit, ran_setOwner, ran_bindTo] at ran
    obtain ⟨_, _, rfl, target, taken, took, _, _, rfl, _, _, rfl, _, _, ⟨u, found, rfl⟩, ran⟩ := ran
    exact ⟨_, rest (ran_bind.2 ran), .inr ⟨id, target, taken, u, rfl, took, found, rfl⟩⟩

theorem withReserved_sound {a : Allocator} (sound : Sound (r :: hand) a) :
    Sound hand (withReserved r a) := by
  rw [withReserved, withdrawn_of_not_mem sound.registers.hand_not_free]
  cases inPool : r.isPool with
  | true =>
    refine sound.of_registers ?_ rfl
    simp only [sound.registers.hand_not_reserved, not_false_eq_true, and_self, ↓reduceIte]
    exact sound.registers.reserve inPool
  | false =>
    refine sound.of_registers ?_ (by simp)
    simp only [Bool.false_eq_true, false_and, ↓reduceIte]
    exact sound.registers.discard inPool

theorem reserve_sound {x : Unit} (sound : Sound [] w.allocator) (idle : w.allocator.calls = [])
    (ran : Ran (reserve r) w x w') :
    Sound [] w'.allocator ∧ w'.allocator.calls = w.allocator.calls := by
  obtain ⟨mid, rfl, ⟨unowned, rfl⟩ | ⟨id, target, taken, u, owned, took, found, rfl⟩⟩ :=
    ran_reserve ran
  · refine ⟨?_, rfl⟩
    by_cases free : r ∈ mid.allocator.free
    · have held := sound.withdrawn free
      have same : withReserved r mid.allocator = withReserved r (mid.allocator.withdrawn r) := by
        rw [withReserved, withReserved, withdrawn_of_not_mem held.registers.hand_not_free]
        rfl
      rw [allocator_on, same]
      exact withReserved_sound held
    · rw [allocator_on, withReserved, withdrawn_of_not_mem free]
      have stays : ¬ (r.isPool = true ∧ r ∉ mid.allocator.reserved) := by
        rintro ⟨inPool, unreserved⟩
        have pool := sound.registers.pool inPool
        simp only [places, holds_of_no_owner unowned, parked, idle, List.count_eq_zero.2 free,
          List.count_eq_zero.2 unreserved, List.flatMap_nil, List.count_nil] at pool
        omega
      rw [if_neg stays]
      exact sound
  · have held : Sound [] { w.allocator with
        held := if r ∈ w.allocator.held then w.allocator.held else r :: w.allocator.held } :=
      sound.congr (fun _ => Iff.rfl) rfl
    have taken' := takes (w := on _ w) held took
    obtain ⟨v, known, there⟩ := sound.registers.owner.1 owned
    have known' := taken'.only (v := v) known fun there' => by
      cases there.symm.trans there'
      exact taken'.loose (mem_held_hold _ r)
    cases found.symm.trans known'
    refine ⟨withReserved_sound (taken'.sound.move known' there), ?_⟩
    exact taken'.keeps.calls

/-- Registers of the pool in hand that hold nothing become free one after the other. -/
theorem release_sound {rs : List Reg} {x : Unit} (inPool : ∀ r ∈ rs, r.isPool = true)
    (sound : Sound rs w.allocator)
    (ran : Ran (rs.forM fun r => do
      if (← look fun a => a.ownerOf r).isNone then release r) w x w') :
    Sound [] w'.allocator ∧ w'.allocator.calls = w.allocator.calls := by
  induction rs generalizing w with
  | nil =>
    rw [ran_forM_nil.1 ran]
    exact ⟨sound, rfl⟩
  | cons r rs ih =>
    obtain ⟨mid, first, rest⟩ := ran_forM_cons.1 ran
    simp only [ran_bind, ran_look, ran_ite, ran_release, and_assoc, exists_and_left, exists_eq_left,
      sound.registers.not_owned, Option.isNone_none, true_and, not_true_eq_false, false_and,
      or_false] at first
    have released : Sound rs (w.allocator.released r) :=
      sound.of_registers (sound.registers.give_back (inPool r List.mem_cons_self)) rfl
    subst first
    exact ih (w := on (fun a => a.released r) w)
      (fun s member => inPool s (List.mem_cons_of_mem _ member)) released rest

theorem unreserveAll_sound {x : Unit} (sound : Sound [] w.allocator)
    (ran : Ran unreserveAll w x w') :
    Sound [] w'.allocator ∧ w'.allocator.calls = w.allocator.calls := by
  simp only [unreserveAll, ran_bind, ran_look, ran_change, and_assoc, exists_and_left,
    exists_eq_left, exists_const] at ran
  have unreserved := sound.registers.unreserve
  rw [List.append_nil] at unreserved
  have taken : Sound w.allocator.reserved { w.allocator with reserved := [] } :=
    sound.of_registers unreserved rfl
  exact release_sound (w := on (fun a => { a with reserved := [] }) w)
    (fun r => sound.registers.reservedPool) taken ran

end SmallC.Alloc
