import SmallC.Proofs.Allocation.Coherence

/-!
Operations in any mix keep the state coherent. One that puts a register into circulation needs that no pending call
brings that register back; all others may come at any time.
-/
namespace SmallC

namespace Allocator

variable {a a' : Allocator} {id other : VarId} {r : Reg} {v v' : Variable} {home : Home} {name : String}
  {P : VarId → Prop}

/-- A level behind the change of one level is one of before, or the changed one. -/
theorem mem_inner_modifyLevel {d : Nat} {f : Level → Level} {level : Level}
    (member : level ∈ (a.modifyLevel d f).inner) : ∃ old ∈ a.inner, level = old ∨ level = f old := by
  unfold modifyLevel at member
  split at member
  · exact ⟨level, member, .inl rfl⟩
  · split at member
    · obtain ⟨k, found⟩ := List.mem_iff_getElem?.1 member
      rw [List.getElem?_modify] at found
      obtain ⟨old, here, rfl⟩ := Option.map_eq_some_iff.1 found
      refine ⟨old, List.mem_of_getElem? here, ?_⟩
      split
      · exact .inr rfl
      · exact .inl rfl
    · exact ⟨level, member, .inl rfl⟩

/-- Levels hold no more variables than before, but for one. -/
def NoNewNames (id : VarId) (a a' : Allocator) : Prop :=
  ∀ level ∈ a'.inner, ∀ other ∈ level.names.map Prod.snd, other ≠ id →
    ∃ old ∈ a.inner, other ∈ old.names.map Prod.snd

theorem noNewNames_of_same (inner : a'.inner = a.inner) : NoNewNames id a a' :=
  fun level member _ listed _ => ⟨level, inner ▸ member, listed⟩

theorem noNewNames_modifyLevel {d : Nat} {f : Level → Level}
    (names : ∀ l : Level, ∀ entry ∈ (f l).names, entry ∈ l.names ∨ entry.2 = id) :
    NoNewNames id a (a.modifyLevel d f) := by
  intro level member other listed apart
  obtain ⟨old, here, rfl | rfl⟩ := mem_inner_modifyLevel member
  · exact ⟨level, here, listed⟩
  · obtain ⟨entry, inside, rfl⟩ := List.mem_map.1 listed
    rcases names old entry inside with before | same
    · exact ⟨old, here, List.mem_map.2 ⟨entry, before, rfl⟩⟩
    · exact absurd same apart

theorem addName_names (l : Level) : ∀ entry ∈ (Level.addName name id l).names, entry ∈ l.names ∨ entry.2 = id := by
  intro entry member
  rcases List.mem_append.1 member with before | new
  · exact .inl (Level.mem_without.1 before).1
  · exact .inr (by rw [List.mem_singleton.1 new])

/-- One variable becomes something else, or nothing is left of it; none that is to be spared. -/
theorem Coheres.replace (coherent : Coherent a) (id : VarId) (placed : Placed a') (listed : Listed a')
    (others : ∀ other, other ≠ id → a'.var? other = a.var? other) (housed : ∀ {u}, a'.var? id = some u → u.Housed)
    (around : a'.surroundings = a.surroundings) (apart : ∀ {i home}, P i → Rooted i home a → i ≠ id)
    (temps : ∀ i ∈ a'.temps.map Prod.snd, i ≠ id → i ∈ a.temps.map Prod.snd) (names : NoNewNames id a a') :
    Coheres P a a' := by
  refine ⟨⟨placed, listed, fun {i u} found => ?_, fun aside => coherent.returns (outside_eq around ▸ aside)⟩, around,
    fun {i h} chosen rooted => ?_⟩
  · by_cases here : i = id
    · subst here
      exact housed found
    · rw [others i here] at found
      exact coherent.housed found
  · have elsewhere := apart chosen rooted
    refine rooted.mono (fun {u} found isNamed memory => ⟨u, ?_, isNamed, memory⟩)
      (fun member => temps i member elsewhere) fun level member inside => names level member i inside elsewhere
    rw [others i elsewhere, found]

/-- No variable has the next number. -/
theorem Rooted.not_next {i : VarId} (rooted : Rooted i home a) : i ≠ a.vars.size := by
  rintro rfl
  exact Nat.lt_irrefl _ rooted.lt_size

/-- A new variable comes to a register in hand, or to none. -/
theorem Placed.introduce (placed : Placed a)
    (vars : ∀ other, a'.var? other = if other = a.vars.size then some v else a.var? other)
    (inHand : InHand r a) (there : v.storage = .register r)
    (owner : ∀ s, a'.ownerOf s = if s = r then some a.vars.size else a.ownerOf s)
    (free : a'.free = a.free) (calls : a'.calls = a.calls) : Placed a' := by
  refine placed.arrive a.vars.size inHand.unfree inHand.unawaited (fun here => absurd here (inHand.empty _))
    (fun {i s} lives => ?_) ((owner r).trans (if_pos rfl)) (fun {i s} _ apart _ => (owner s).trans (if_neg apart))
    free calls
  rcases (lives_iff vars).1 lives with ⟨rfl, there'⟩ | before
  · exact .inl ⟨rfl, Storage.register.inj (there'.symm.trans there)⟩
  · exact .inr before

theorem forgotten_temps : (a.forgotten id v).temps = if v.isTemp then Level.without v.name a.temps else a.temps := by
  unfold forgotten
  split
  · rfl
  · exact temps_modifyLevel _ _

theorem forgotten_names : NoNewNames id a (a.forgotten id v) := by
  unfold forgotten
  split
  · exact noNewNames_of_same rfl
  · refine noNewNames_modifyLevel fun l entry member => .inl ?_
    unfold Level.removeNameOf at member
    split at member
    · exact (Level.mem_without.1 member).1
    · exact member

/-- A new named variable stands in the innermost level. -/
theorem Coheres.addNamed (coherent : Coherent a) (placed : Placed a') (isNamed : v.isTemp = false) (housed : v.Housed)
    (vars : ∀ other, a'.var? other = if other = a.vars.size then some v else a.var? other)
    (temps : a'.temps = a.temps) (next : a'.nextTemp = a.nextTemp) (around : a'.surroundings = a.surroundings)
    (names : NoNewNames a.vars.size a a') : Coheres P a a' := by
  refine .replace coherent a.vars.size placed (coherent.toListed.mono (fun {i u} found isTemp => ?_) temps next)
    (fun other apart => (vars other).trans (if_neg apart)) (fun {u} found => ?_) around
    (fun _ rooted => rooted.not_next) (fun i member _ => temps ▸ member) names
  · rw [vars] at found
    split at found
    · cases found
      cases isNamed.symm.trans isTemp
    · exact ⟨u, found, isTemp, rfl⟩
  · rw [vars, if_pos rfl] at found
    cases found
    exact housed

end Allocator

namespace Alloc

open Allocator

variable {w w' : Work} {id : VarId} {r : Reg} {name temp : String} {v : Variable} {P : VarId → Prop} {x : Unit}

/-! ### Introducing variables -/

theorem withVariable_coheres {a : Allocator} (coherent : Coherent a) (inHand : InHand r a) :
    Coheres P a (withVariable name r a) := by
  have fields := modifyLevel_eq (a := (a.grown 1).addVar (introducedVar a name r)) (a.depth)
    (Level.addName name a.vars.size)
  have same : withVariable name r a = (((a.grown 1).addVar (introducedVar a name r)).modifyLevel a.depth
    (Level.addName name a.vars.size)).bound a.vars.size r (introducedVar a name r) := rfl
  refine .addNamed coherent
    (coherent.toPlaced.introduce (var?_withVariable a name r) inHand rfl (fun s => ?owner) ?_ ?_) rfl
    (introducedVar_fits a name r).housed (var?_withVariable a name r) ?_ ?_ ?around fun level member => ?names
  case owner =>
    rw [same, ownerOf_bound, fields]
    rfl
  case around =>
    rw [same, fields]
    exact surroundings_grown a 1
  case names =>
    exact noNewNames_modifyLevel (a := (a.grown 1).addVar (introducedVar a name r)) addName_names level member
  all_goals
    rw [same, fields]
    rfl

theorem addVariable_coheres {given : Option Reg} (coherent : Coherent w.allocator)
    (unawaited : ∀ s, given = some s → s ∉ w.allocator.parked) (ran : Ran (addVariable name given) w r w') :
    Coheres P w.allocator w'.allocator := by
  obtain ⟨-, mid, ⟨-, took⟩ | ⟨rfl, unowned, rfl⟩, rfl⟩ := ran_addVariable ran
  · obtain ⟨first, taken⟩ := take_coheres (P := P) coherent took
    exact first.trans (withVariable_coheres taken.coherent taken.inHand)
  · have first := Coheres.withdrawn (P := P) coherent r
    refine first.trans (withVariable_coheres first.coherent ⟨?_, unawaited r rfl, fun i lives => ?_⟩)
    · simp [Allocator.withdrawn]
    · have owned : w.allocator.ownerOf r = some i := coherent.owner lives
      cases unowned.symm.trans owned

/-- A new named variable that starts in memory. -/
theorem declared_coheres {a : Allocator} (words : Nat) (coherent : Coherent a) (isNamed : v.isTemp = false)
    (housed : v.Housed) (away : v.storage.register? = none) : Coheres P a
      (((a.grown words).addVar v).modifyCurrent (Level.addName name a.vars.size)) := by
  have fields := modifyLevel_eq (a := (a.grown words).addVar v) a.depth (Level.addName name a.vars.size)
  have same : ((a.grown words).addVar v).modifyCurrent (Level.addName name a.vars.size) =
    ((a.grown words).addVar v).modifyLevel a.depth (Level.addName name a.vars.size) := rfl
  have vars : ∀ other, (((a.grown words).addVar v).modifyCurrent (Level.addName name a.vars.size)).var? other =
      if other = a.vars.size then some v else a.var? other := by
    intro other
    rw [modifyCurrent, var?_modifyLevel, var?_addVar]
    rfl
  refine .addNamed coherent (coherent.toPlaced.mono (fun {i s} lives => ?lives) (fun _ => ?_)
    (fun s member => .inl ?free) ?_) isNamed housed vars ?_ ?_ ?around fun level member => ?names
  case lives =>
    rcases (lives_iff vars).1 lives with ⟨-, there⟩ | ⟨-, before⟩
    · rw [there] at away
      cases away
    · exact before
  case free =>
    rw [same, fields] at member
    exact member
  case around =>
    rw [same, fields]
    exact surroundings_grown a words
  case names =>
    exact noNewNames_modifyLevel (a := (a.grown words).addVar v) addName_names level member
  all_goals
    rw [same, fields]
    rfl

theorem declareVariable_coheres (coherent : Coherent w.allocator) (ran : Ran (declareVariable name) w x w') :
    Coheres P w.allocator w'.allocator := by
  obtain ⟨-, rfl⟩ := ran_declareVariable ran
  exact declared_coheres 1 coherent rfl
    ⟨fun there => (by cases there; rfl), fun _ => rfl, fun _ _ => nofun⟩ rfl

theorem setArray_coheres {size : Nat} (coherent : Coherent w.allocator) (ran : Ran (setArray name size) w x w') :
    Coheres P w.allocator w'.allocator := by
  obtain ⟨-, rfl⟩ := ran_setArray ran
  exact declared_coheres (max size 1) coherent rfl
    ⟨fun there => (by cases there; rfl), fun _ => rfl, fun _ _ => nofun⟩ rfl

theorem addTemp_coheres (coherent : Coherent w.allocator) (ran : Ran addTemp w temp w') :
    Coheres P w.allocator w'.allocator := by
  obtain ⟨r, mid, took, -, rfl⟩ := ran_addTemp ran
  obtain ⟨first, taken⟩ := take_coheres (P := P) coherent took
  refine first.trans ?_
  have vars := var?_withTemp (r := r) mid.allocator
  refine .replace taken.coherent mid.allocator.vars.size
    (taken.coherent.toPlaced.introduce vars taken.inHand rfl (fun s => ?_) rfl rfl)
    (taken.coherent.toListed.add mid.allocator.vars.size (fun {u} found _ => ?_) (fun {other} apart => ?_) rfl rfl)
    (fun other apart => (vars other).trans (if_neg apart)) (fun {u} found => ?_) rfl (fun _ rooted => rooted.not_next)
    (fun i member apart => ?_) (noNewNames_of_same rfl)
  · exact ownerOf_bound (a := mid.allocator.addVar (introducedTemp mid.allocator r))
      (v := introducedTemp mid.allocator r)
  · cases ((vars _).trans (if_pos rfl)).symm.trans found
    rfl
  · exact (vars other).trans (if_neg apart)
  · cases ((vars _).trans (if_pos rfl)).symm.trans found
    exact ⟨nofun, nofun, nofun⟩
  · obtain ⟨entry, inside, rfl⟩ := List.mem_map.1 member
    rcases List.mem_append.1 inside with before | new
    · exact List.mem_map.2 ⟨entry, (Level.mem_without.1 before).1, rfl⟩
    · exact absurd (by rw [List.mem_singleton.1 new]) apart

/-! ### Temporaries that become variables, and variables that become temporaries -/

/-- What stands in a list of names once one is forgotten stood there before. -/
theorem mem_ids_without {names : List (String × VarId)} {i : VarId}
    (member : i ∈ (Level.without name names).map Prod.snd) : i ∈ names.map Prod.snd := by
  obtain ⟨entry, inside, rfl⟩ := List.mem_map.1 member
  exact List.mem_map.2 ⟨entry, (Level.mem_without.1 inside).1, rfl⟩

/-- A temporary that becomes a named variable stays where it is. -/
theorem withRenamed_coheres {a : Allocator} (v' : Variable) (coherent : Coherent a)
    (looked : a.temps.lookup temp = some id) (found : a.var? id = some v) (isNamed : v'.isTemp = false)
    (storage : v'.storage = v.storage) (housed : v'.Housed) : Coheres P a (withRenamed temp name id v' a) := by
  have member : (temp, id) ∈ a.temps := (Level.lookup_eq_some coherent.tempOnce).1 looked
  have vars : ∀ other, (withRenamed temp name id v' a).var? other =
      if other = id then some v' else a.var? other := var?_withRenamed found
  have fields := withRenamed_eq temp name id v' a
  refine .replace coherent id (coherent.toPlaced.mono (fun {i s} lives => ?_) (fun _ => ?_)
    (fun s free => .inl ?_) ?_) (coherent.toListed.forget member (fun {u} known => ?_) (fun {other} apart => ?_) ?_ ?_)
    (fun other apart => (vars other).trans (if_neg apart)) (fun {u} known => ?_) ?_ (fun _ rooted => ?_)
    (fun i inside _ => ?_) ?_
  · rcases (lives_iff vars).1 lives with ⟨rfl, there⟩ | ⟨-, before⟩
    · exact ⟨v, found, storage ▸ there⟩
    · exact before
  · rw [fields]
    rfl
  · rw [fields] at free
    exact free
  · rw [fields]
  · cases ((vars id).trans (if_pos rfl)).symm.trans known
    exact isNamed
  · exact (vars other).trans (if_neg apart)
  · rw [fields]
  · rw [fields]
  · cases ((vars id).trans (if_pos rfl)).symm.trans known
    exact housed
  · rw [fields]
    rfl
  · rintro rfl
    exact rooted.temps (List.mem_map.2 ⟨_, member, rfl⟩)
  · rw [fields] at inside
    exact mem_ids_without inside
  · exact noNewNames_modifyLevel (a := { a with temps := Level.without temp a.temps }.setVar id v') addName_names

theorem renameTemp_coheres (coherent : Coherent w.allocator) (ran : Ran (renameTemp temp name) w x w') :
    Coheres P w.allocator w'.allocator := by
  obtain ⟨-, id, v, looked, found, ⟨r, there, rfl⟩ | ⟨place, home, there, has, rfl⟩⟩ := ran_renameTemp ran
  · have named : (renamedVar w.allocator name w.allocator.nextHome true v).Housed := by
      refine ⟨fun {h} there' => ?_, fun _ => memory_of_home rfl, fun _ slot there' => ?_⟩ <;>
      · cases there.symm.trans there'
    have grown := Coheres.grown (P := P) coherent 1
    have renamed : Coheres P (w.allocator.grown 1) (withRenamed temp name id _ (w.allocator.grown 1)) :=
      withRenamed_coheres (renamedVar w.allocator name w.allocator.nextHome true v) grown.coherent looked found rfl rfl
        named
    exact (grown.trans renamed).trans (.same_levels renamed.coherent rfl rfl (fun _ member => member) rfl rfl rfl
      rfl rfl)
  · refine withRenamed_coheres _ coherent looked found rfl rfl
      ⟨fun {h} there' => ?_, fun _ => memory_of_home rfl, fun _ slot there' => ?_⟩
    · have memory := (coherent.housed found).memory there'
      rw [Variable.memory?, has] at memory
      exact memory
    · cases there.symm.trans there'

/-- A variable that is in no register comes to the register in hand. -/
theorem arrives_coheres {a : Allocator} {v' : Variable} (coherent : Coherent a) (found : a.var? id = some v)
    (inHand : InHand r a) (storage : v'.storage = .register r) (name : v'.name = v.name)
    (temp : v'.isTemp = v.isTemp) (memory : v'.memory? = v.memory?) :
    Coheres P a ((a.bound id r v).setVar id v') := by
  have housed := coherent.housed found
  have bound := Coheres.bound (P := P) coherent found inHand.unfree inHand.unawaited
    fun {other} here => absurd here (inHand.empty other)
  refine bound.trans (.setVar bound.coherent ((var?_bound found id).trans (if_pos rfl)) v' (fun s there => ?_) name temp
    (fun _ _ has => memory.trans has) ⟨fun there => ?_, fun isNamed => ?_, fun _ slot there => ?_⟩)
  · cases storage.symm.trans there
    rfl
  · cases storage.symm.trans there
  · rw [memory]
    exact housed.home (temp ▸ isNamed)
  · cases storage.symm.trans there

theorem used_coheres {a : Allocator} (coherent : Coherent a) (id : VarId) (r : Reg) : Coheres P a (a.used id r) :=
  .same_levels coherent rfl rfl (fun _ member => member) rfl rfl rfl rfl rfl

/-- A variable that was read is in the register that was answered. -/
theorem getRegister_coheres {modifies : Bool} (coherent : Coherent w.allocator)
    (ran : Ran (getRegister name modifies) w r w') : Coheres P w.allocator w'.allocator ∧
      ∃ id v, w.allocator.find? name = some id ∧ w'.allocator.find? name = some id ∧
        w'.allocator.var? id = some v ∧ v.storage = .register r := by
  obtain ⟨id, v, resolved, found, ⟨there, mid, loaded, rfl⟩ | ⟨away, mid, loaded, u, took, load, known, rfl⟩⟩ :=
    ran_getRegister ran
  · have same : mid.allocator = w.allocator := by
      rcases loaded with ⟨-, -, load⟩ | ⟨rfl, -⟩
      · exact allocator_load load
      · rfl
    rw [allocator_on, same]
    exact ⟨used_coheres coherent id r, id, v, resolved, resolved, found, there⟩
  · obtain ⟨first, taken⟩ := take_coheres (P := P) coherent took
    have known' := taken.only found away
    rw [allocator_load load, known'] at known
    cases known
    rw [allocator_on, allocator_load load]
    refine ⟨first.trans (arrives_coheres taken.coherent known' taken.inHand rfl rfl rfl rfl), id, _,
      resolved, (taken.find? name).trans resolved, var?_setVar_self (v := { v with storage := .register r }) ?_ _, rfl⟩
    exact (var?_bound known' id).trans (if_pos rfl)

/-- A variable in a register may become a temporary, unless it is to be spared. -/
theorem withDetached_coheres {a : Allocator} (coherent : Coherent a) (found : a.var? id = some v)
    (there : v.storage = .register r) (ended : ¬ P id) : Coheres P a (withDetached name id v a) := by
  have vars := fun other => var?_withDetached (v := v) name found other
  have fields := withDetached_eq name id v a
  have storage : (detachedVar (tempName a.nextTemp) v).storage = v.storage := rfl
  have housed := coherent.housed found
  refine .replace coherent id (coherent.toPlaced.mono (fun {i s} lives => ?_) (fun _ => ?_)
    (fun s free => .inl ?_) ?_) (coherent.toListed.add id (fun {u} known _ => ?_) (fun {other} apart => ?_) rfl rfl)
    (fun other apart => (vars other).trans (if_neg apart)) (fun {u} known => ?_) ?_ (fun {i h} chosen _ => ?_)
    (fun i inside apart => ?_) ?_
  · rcases (lives_iff vars).1 lives with ⟨rfl, there'⟩ | ⟨-, before⟩
    · exact ⟨v, found, storage ▸ there'⟩
    · exact before
  · rw [fields]
    rfl
  · rw [fields] at free
    exact free
  · rw [fields]
  · cases ((vars id).trans (if_pos rfl)).symm.trans known
    rfl
  · exact (vars other).trans (if_neg apart)
  · cases ((vars id).trans (if_pos rfl)).symm.trans known
    refine ⟨fun there' => ?_, nofun, nofun⟩
    cases (storage.trans there).symm.trans there'
  · rw [fields]
    rfl
  · rintro rfl
    exact ended chosen
  · have member : i ∈ (Level.without (tempName a.nextTemp) a.temps ++ [(tempName a.nextTemp, id)]).map Prod.snd :=
      inside
    rw [List.map_append, List.mem_append] at member
    exact member.elim mem_ids_without fun new => absurd (List.mem_singleton.1 new) apart
  · refine noNewNames_modifyLevel (a := a) fun l entry member => .inl ?_
    exact (Level.mem_without.1 member).1

theorem detachAsTemp_coheres (coherent : Coherent w.allocator) (ran : Ran (detachAsTemp name) w temp w')
    (ended : ∀ id, w.allocator.find? name = some id → ¬ P id) : Coheres P w.allocator w'.allocator := by
  obtain ⟨r, mid, id, v, read, resolved, found, -, rfl⟩ := ran_detachAsTemp ran
  obtain ⟨first, id', v', before, resolved', found', there⟩ := getRegister_coheres (P := P) coherent read
  cases resolved.symm.trans resolved'
  cases found.symm.trans found'
  have second : Coheres P mid.allocator (withDetached name id v mid.allocator) :=
    withDetached_coheres first.coherent found there (ended id before)
  exact (first.trans second).trans (.same_levels second.coherent rfl rfl (fun _ member => member) rfl rfl rfl rfl
    rfl)

/-! ### Writing, and notes about variables -/

theorem prepareWrite_coheres (coherent : Coherent w.allocator) (ran : Ran (prepareWrite name) w r w') :
    Coheres P w.allocator w'.allocator := by
  obtain ⟨id, v, -, found, -, ⟨there, rfl⟩ | ⟨away, mid, u, took, known, rfl⟩⟩ := ran_prepareWrite ran
  · have housed := coherent.housed found
    have first := used_coheres (P := P) coherent id r
    exact first.trans (.setVar first.coherent found { v with isDirty := true } (fun _ there => there) rfl rfl
      (fun _ _ has => has) ⟨housed.memory, housed.home, housed.unsaved⟩)
  · obtain ⟨first, taken⟩ := take_coheres (P := P) coherent took
    cases (taken.only found away).symm.trans known
    exact first.trans (arrives_coheres taken.coherent known taken.inHand rfl rfl rfl rfl)

theorem markWritten_coheres (coherent : Coherent w.allocator) (ran : Ran (markWritten name) w x w') :
    Coheres P w.allocator w'.allocator := by
  obtain ⟨id, v, -, found, ⟨-, rfl⟩ | ⟨-, mid, rfl, written⟩⟩ := ran_markWritten ran
  · exact .refl coherent
  · have housed := coherent.housed found
    have marked := Coheres.setVar (P := P) coherent found { v with isDirty := true } (fun _ there => there)
      rfl rfl (fun _ _ has => has) ⟨housed.memory, housed.home, housed.unsaved⟩
    rcases written with ⟨r, -, -, wrote⟩ | ⟨-, rfl⟩
    · exact marked.trans (writeBack_coheres (w := on (fun a => a.setVar id { v with isDirty := true }) w)
        marked.coherent wrote)
    · exact marked

/-- What is noted about a variable is of no concern to where it is. -/
theorem note_coheres {f : Variable → Variable} (coherent : Coherent w.allocator)
    (note : ∀ v, (f v).storage = v.storage ∧ (f v).name = v.name ∧ (f v).isTemp = v.isTemp ∧
      (f v).home = v.home ∧ (f v).array = v.array)
    (ran : Ran (update id f) w x w') : Coheres P w.allocator w'.allocator := by
  obtain ⟨v, found, rfl⟩ := ran_update.1 ran
  obtain ⟨storage, name, temp, home, array⟩ := note v
  have housed := coherent.housed found
  have memory : (f v).memory? = v.memory? := by rw [Variable.memory?, Variable.memory?, home, array]
  refine .setVar coherent found _ (fun s there => storage.symm.trans there) name temp
    (fun _ _ has => memory.trans has) ⟨fun there => ?_, ?_, ?_⟩
  · exact memory.trans (housed.memory (storage.symm.trans there))
  · rw [temp, memory]
    exact housed.home
  · rw [temp, storage]
    exact housed.unsaved

/-- A note about a variable that a name stands for. -/
theorem noteOf_coheres {f : Variable → Variable} (coherent : Coherent w.allocator)
    (note : ∀ v, (f v).storage = v.storage ∧ (f v).name = v.name ∧ (f v).isTemp = v.isTemp ∧
      (f v).home = v.home ∧ (f v).array = v.array)
    (ran : Ran (do update (← resolve name) f) w x w') : Coheres P w.allocator w'.allocator := by
  simp only [ran_bind, ran_resolve] at ran
  obtain ⟨id, _, ⟨-, rfl⟩, ran⟩ := ran
  exact note_coheres coherent note ran

theorem memoryAddress_coheres {address : Address} (coherent : Coherent w.allocator)
    (ran : Ran (memoryAddress name) w address w') : Coheres P w.allocator w'.allocator := by
  simp only [memoryAddress, ran_bind, ran_resolve, ran_known, and_assoc, exists_and_left, exists_eq_left] at ran
  obtain ⟨id, -, v, -, ran⟩ := ran
  have rest : ∀ {mid : Work}, Coherent mid.allocator → ∀ {home : Home} {marked : Work} {x : Unit},
      Ran (update id fun v => { v with mustReload := true }) mid x marked →
      Ran (addressOf home) marked address w' → Coheres P mid.allocator w'.allocator := by
    intro mid coherent home marked x noted addressed
    obtain ⟨-, rfl⟩ := ran_addressOf.1 addressed
    refine note_coheres coherent ?_ noted
    exact fun v => ⟨rfl, rfl, rfl, rfl, rfl⟩
  split at ran
  · obtain ⟨-, rfl⟩ := ran_addressOf.1 ran
    exact .refl coherent
  · exact (ran_throw.1 ran).elim
  · split at ran
    · simp only [ran_bind] at ran
      obtain ⟨_, mid, wrote, _, marked, noted, addressed⟩ := ran
      have first := writeBack_coheres (P := P) coherent wrote
      exact first.trans (rest first.coherent noted addressed)
    · simp only [ran_bind] at ran
      obtain ⟨_, marked, noted, addressed⟩ := ran
      exact rest coherent noted addressed

/-! ### Dropping and reserving -/

/-- What dropping a variable does besides: its register, if it is in one, becomes free at most, and its name is
forgotten. -/
structure Dropped (id : VarId) (v : Variable) (a a' : Allocator) : Prop where
  owner : ∀ {s}, ¬ a.Lives id s → a'.ownerOf s = a.ownerOf s
  free : ∀ s ∈ a'.free, s ∈ a.free ∨ a.Lives id s
  calls : a'.calls = a.calls
  temps : a'.temps = if v.isTemp then Level.without v.name a.temps else a.temps
  next : a'.nextTemp = a.nextTemp
  around : a'.surroundings = a.surroundings
  names : NoNewNames id a a'

theorem dropped (found : w.allocator.var? id = some v) (left : (v.storage.register? = none ∧
      w' = on (fun a => a.forgotten id v) w) ∨
    ∃ r, v.storage = .register r ∧ w' = on (fun a => (a.unbound id r v).forgotten id v.parted) w) :
    Dropped id v w.allocator w'.allocator := by
  obtain ⟨-, rfl⟩ | ⟨r, there, rfl⟩ := left
  · refine ⟨fun _ => ?_, fun s member => .inl ?_, ?_, forgotten_temps, ?_, ?_, forgotten_names⟩
    · rw [allocator_on, forgotten_eq]
      rfl
    · rw [allocator_on, forgotten_eq] at member
      exact member
    · rw [allocator_on, forgotten_eq]
    · rw [allocator_on, forgotten_eq]
    · rw [allocator_on, forgotten_eq]
      rfl
  · refine ⟨fun {s} elsewhere => ?_, fun s member => ?_, ?_, ?_, ?_, ?_, ?_⟩
    · have released : (w.allocator.unbound id r v).ownerOf s = if s = r then none else w.allocator.ownerOf s :=
        ownerOf_unbound
      rw [allocator_on, forgotten_eq]
      refine released.trans (if_neg ?_)
      rintro rfl
      exact elsewhere ⟨v, found, there⟩
    · rw [allocator_on, forgotten_eq] at member
      refine (mem_free_released member).imp_right ?_
      rintro rfl
      exact ⟨v, found, there⟩
    · rw [allocator_on, forgotten_eq]
      rfl
    · exact forgotten_temps (a := w.allocator.unbound id r v)
    · rw [allocator_on, forgotten_eq]
      rfl
    · rw [allocator_on, forgotten_eq]
      rfl
    · exact forgotten_names (a := w.allocator.unbound id r v)

/-- Nothing is left of a variable, unless it is to be spared. -/
theorem drop_coheres (coherent : Coherent w.allocator) (ran : Ran (drop id) w x w')
    (apart : ∀ {i home}, P i → Rooted i home w.allocator → i ≠ id) :
    Coheres P w.allocator w'.allocator := by
  have vars := var?_drop ran
  have gone : ∀ {u}, w'.allocator.var? id ≠ some u := fun known => by
    cases ((vars id).trans (if_pos rfl)).symm.trans known
  have others : ∀ other, other ≠ id → w'.allocator.var? other = w.allocator.var? other := fun other elsewhere =>
    (vars other).trans (if_neg elsewhere)
  have lives : ∀ {i s}, w'.allocator.Lives i s → i ≠ id ∧ w.allocator.Lives i s := by
    rintro i s ⟨u, known, there⟩
    by_cases here : i = id
    · exact absurd (here ▸ known) gone
    · exact ⟨here, u, (others i here).symm.trans known, there⟩
  obtain ⟨v, found, left⟩ := ran_drop ran
  obtain ⟨owner, free, calls, temps, next, around, names⟩ := dropped found left
  refine .replace coherent id (coherent.toPlaced.leave id lives owner free calls) ?_ others
    (fun known => absurd known gone) around apart (fun i member _ => ?_) names
  · cases isTemp : v.isTemp with
    | true =>
      rw [isTemp, if_pos rfl] at temps
      exact coherent.toListed.forget (coherent.temp found isTemp) (fun known => absurd known gone) (others _) temps next
    | false =>
      rw [isTemp] at temps
      refine coherent.toListed.mono (fun {i u} known isTemp' => ⟨u, ?_, isTemp', rfl⟩) temps next
      rw [← known, others]
      rintro rfl
      exact gone known
  · rw [temps] at member
    split at member
    · exact mem_ids_without member
    · exact member

theorem dropAll_coheres {entries : List (String × VarId)} (coherent : Coherent w.allocator)
    (ran : Ran (entries.forM fun entry => drop entry.2) w x w') :
    Coheres (· ∉ entries.map Prod.snd) w.allocator w'.allocator := by
  refine Ran.forM ran (P := fun mid => Coheres (· ∉ entries.map Prod.snd) w.allocator mid.allocator) (.refl coherent)
    fun entry member mid mid' coheres pass => coheres.trans (drop_coheres coheres.coherent pass ?_)
  rintro i home kept - rfl
  exact kept (List.mem_map.2 ⟨entry, member, rfl⟩)

theorem discardTemps_coheres {n : Nat} (coherent : Coherent w.allocator) (ran : Ran discardTemps w n w') :
    Coheres P w.allocator w'.allocator := by
  simp only [discardTemps, ran_bind, ran_look, ran_pure, and_assoc, exists_and_left, exists_eq_left] at ran
  obtain ⟨_, dropped, ran, -, rfl⟩ := ran
  exact (dropAll_coheres coherent ran).weaken fun _ rooted => rooted.temps

theorem removeIfTemp_coheres (coherent : Coherent w.allocator) (ran : Ran (removeIfTemp name) w x w') :
    Coheres P w.allocator w'.allocator := by
  simp only [removeIfTemp, ran_bind, ran_look, and_assoc, exists_and_left, exists_eq_left] at ran
  split at ran
  · next id looked =>
    refine drop_coheres coherent ran ?_
    rintro i home - rooted rfl
    exact rooted.temps (List.mem_map.2 ⟨_, (Level.lookup_eq_some coherent.tempOnce).1 looked, rfl⟩)
  · obtain ⟨-, rfl⟩ := ran_pure.1 ran
    exact .refl coherent

theorem remove_coheres (coherent : Coherent w.allocator) (ran : Ran (remove name) w x w')
    (ended : ∀ id, w.allocator.find? name = some id → ¬ P id) : Coheres P w.allocator w'.allocator := by
  obtain ⟨id, mid, resolved, dropped⟩ := ran_bind.1 ran
  obtain ⟨found, rfl⟩ := ran_resolve.1 resolved
  refine drop_coheres coherent dropped ?_
  rintro i home chosen - rfl
  exact ended i found chosen

theorem reserve_coheres (coherent : Coherent w.allocator) (ran : Ran (reserve r) w x w') :
    Coheres P w.allocator w'.allocator := by
  obtain ⟨mid, rfl, came⟩ := ran_reserve ran
  have first : Coheres P w.allocator mid.allocator := by
    obtain ⟨-, rfl⟩ | ⟨id, target, taken, u, owned, took, found, rfl⟩ := came
    · exact .refl coherent
    · have held : Coheres P w.allocator (on (fun a => { a with
          held := if r ∈ a.held then a.held else r :: a.held }) w).allocator :=
        .same_levels coherent rfl rfl (fun _ member => member) rfl rfl rfl rfl rfl
      obtain ⟨second, took'⟩ := take_coheres (P := P) held.coherent took
      refine held.trans (second.trans ?_)
      have housed := took'.coherent.housed found
      have vars := var?_bound (a := taken.allocator.setOwner r none) (r := target) (v := u) found
      refine .revise took'.coherent found (took'.coherent.toPlaced.arrive id took'.inHand.unfree
        took'.inHand.unawaited (fun here => absurd here (took'.inHand.empty _)) (fun {i s} lives => ?_)
        ((ownerOf_bound (v := u)).trans (if_pos rfl)) (fun {i s} lives apart elsewhere => ?_) rfl rfl) vars rfl rfl
        (fun _ _ has => has) ⟨nofun, housed.home, fun _ _ => nofun⟩ rfl rfl rfl rfl
      · rcases (lives_iff vars).1 lives with ⟨rfl, there⟩ | before
        · exact .inl ⟨rfl, (Storage.register.inj there).symm⟩
        · exact .inr before
      · -- Nobody else can live in the register that is to be reserved.
        refine (ownerOf_bound.trans (if_neg apart)).trans (ownerOf_setOwner.trans (if_neg ?_))
        rintro rfl
        have owned' : w.allocator.ownerOf s = some i := took'.owner (took'.coherent.owner lives)
        exact elsewhere (Option.some.inj (owned'.symm.trans owned))
  exact first.trans (.same_levels first.coherent rfl rfl (fun _ member => (List.mem_filter.1 member).1) rfl rfl rfl rfl
    rfl)

/-- A register that no call brings back may be put into circulation. -/
theorem unreserveAll_coheres (coherent : Coherent w.allocator)
    (unawaited : ∀ r ∈ w.allocator.reserved, r ∉ w.allocator.parked) (ran : Ran unreserveAll w x w') :
    Coheres P w.allocator w'.allocator := by
  simp only [unreserveAll, ran_bind, ran_look, ran_change, and_assoc, exists_and_left, exists_eq_left,
    exists_const] at ran
  have emptied : Coheres P w.allocator (on (fun a => { a with reserved := [] }) w).allocator :=
    .same_levels coherent rfl rfl (fun _ member => member) rfl rfl rfl rfl rfl
  refine (Ran.forM ran (P := fun mid => Coheres P w.allocator mid.allocator ∧
    mid.allocator.calls = w.allocator.calls) ⟨emptied, rfl⟩ fun r member mid mid' kept pass => ?_).1
  obtain ⟨coheres, calls⟩ := kept
  simp only [ran_bind, ran_look, ran_ite, ran_release, ran_pure, and_assoc, exists_and_left, exists_eq_left] at pass
  rcases pass with ⟨unowned, rfl⟩ | ⟨-, -, rfl⟩
  · have unowned' : mid.allocator.ownerOf r = none := Option.isNone_iff_eq_none.1 unowned
    have empty : ∀ i, ¬ mid.allocator.Lives i r := fun i lives => by
      cases (coheres.coherent.owner lives).symm.trans unowned'
    have unawaited' : r ∉ mid.allocator.parked := by
      rw [Allocator.parked, calls]
      exact unawaited r member
    refine ⟨coheres.trans (.of_placed coheres.coherent (coheres.coherent.toPlaced.mono (fun lives => lives)
      (fun {i s} lives => ownerOf_released.trans (if_neg ?_)) (fun s free => ?_) rfl) rfl rfl rfl rfl
      fun level inside _ listed => ⟨level, inside, listed⟩), calls⟩
    · rintro rfl
      exact empty i lives
    · rcases mem_free_released free with before | rfl
      · exact .inl before
      · exact .inr ⟨unawaited', empty⟩
  · exact ⟨coheres, calls⟩

/-! ### Levels and further names -/

/-- Further names are of no concern to variables. -/
theorem aliases_coheres {a : Allocator} {f : Level → Level} (coherent : Coherent a)
    (same : ∀ l, (f l).names = l.names) :
    Coheres P a (a.modifyCurrent f) := by
  have fields := modifyLevel_eq (a := a) a.depth f
  have levels : ∀ level ∈ (a.modifyCurrent f).inner, ∀ i ∈ level.names.map Prod.snd,
      ∃ old ∈ a.inner, i ∈ old.names.map Prod.snd := by
    intro level member i listed
    obtain ⟨old, here, rfl | rfl⟩ := mem_inner_modifyLevel member
    · exact ⟨level, here, listed⟩
    · exact ⟨old, here, same old ▸ listed⟩
  refine .congr coherent ?_ ?_ (fun r member => ?_) ?_ ?_ ?_ ?_ levels
  case refine_3 =>
    rw [modifyCurrent, fields] at member
    exact member
  case refine_7 =>
    rw [modifyCurrent, fields]
    rfl
  all_goals rw [modifyCurrent, fields]

theorem setAlias_coheres {target : String} (coherent : Coherent w.allocator)
    (ran : Ran (setAlias name target) w x w') :
    Coheres P w.allocator w'.allocator := by
  simp only [setAlias, ran_bind, ran_resolve, ran_change, and_assoc, exists_and_left, exists_eq_left] at ran
  obtain ⟨id, -, rfl⟩ := ran
  exact aliases_coheres coherent fun _ => rfl

theorem removeAlias_coheres (coherent : Coherent w.allocator) (ran : Ran (removeAlias name) w x w') :
    Coheres P w.allocator w'.allocator := by
  rw [ran_change.1 ran]
  exact aliases_coheres coherent fun _ => rfl

theorem demote_coheres (coherent : Coherent w.allocator) (ran : Ran (demote name) w x w') :
    Coheres P w.allocator w'.allocator := by
  simp only [demote, ran_bind, ran_look, and_assoc, exists_and_left, exists_eq_left] at ran
  split at ran
  · rw [ran_change.1 ran]
    exact .same_levels coherent rfl rfl (fun _ member => member) rfl rfl rfl rfl rfl
  · obtain ⟨-, rfl⟩ := ran_pure.1 ran
    exact .refl coherent

theorem pushLevel_coheres {hides : Bool} (coherent : Coherent w.allocator) (ran : Ran (pushLevel hides) w x w') :
    Coheres P w.allocator w'.allocator := by
  rw [ran_pushLevel ran]
  refine .congr coherent rfl rfl (fun _ member => member) rfl rfl rfl rfl fun level member i listed => ?_
  rcases List.mem_cons.1 member with rfl | before
  · cases listed
  · exact ⟨level, before, listed⟩

/-- A level is closed, which drops what stands in it. -/
theorem closeLevel_coheres {level : Level} (coherent : Coherent w.allocator) (ran : Ran (closeLevel level) w x w') :
    Coheres (· ∉ level.names.map Prod.snd) w.allocator w'.allocator := by
  simp only [closeLevel, ran_bind, ran_change] at ran
  obtain ⟨_, mid, dropped, rfl⟩ := ran
  have first := dropAll_coheres coherent dropped
  exact first.trans (.congr first.coherent rfl rfl (fun _ member => member) rfl rfl rfl rfl
    fun level member i listed => ⟨level, List.mem_of_mem_drop member, listed⟩)

theorem popLevel_coheres (coherent : Coherent w.allocator) (ran : Ran popLevel w x w') :
    Coheres P w.allocator w'.allocator := by
  obtain ⟨inside, closed⟩ := ran_popLevel ran
  refine (closeLevel_coheres coherent closed).weaken fun _ rooted => rooted.levels _ ?_
  obtain ⟨level, outer, split⟩ := List.exists_cons_of_ne_nil inside
  rw [Allocator.current, split]
  exact List.mem_cons_self

/-! ### Synchronizing -/

theorem sendHome_coheres (coherent : Coherent w.allocator) (ran : Ran (sendHome r) w x w') :
    Coheres P w.allocator w'.allocator := by
  obtain ⟨-, rfl⟩ | ⟨id, v, -, found, ⟨-, rfl⟩ | ⟨isNamed, mid, wrote, parted⟩⟩ := ran_sendHome ran
  · exact .refl coherent
  · exact .refl coherent
  · exact goesHome_coheres coherent found isNamed (wrote.imp And.right And.right) parted

theorem pin_coheres (coherent : Coherent w.allocator) (ran : Ran (pin id) w x w') :
    Coheres P w.allocator w'.allocator := by
  have noted : Ran (update id fun v => { v with isPinned := v.isPinned || v.storage.register?.isSome }) w x w' := ran
  refine note_coheres coherent ?_ noted
  exact fun v => ⟨rfl, rfl, rfl, rfl, rfl⟩

/-- Whatever is brought back is loaded into a register that is taken for it. -/
theorem bringBack_coheres (coherent : Coherent w.allocator) (ran : Ran (bringBack id) w x w') :
    Coheres P w.allocator w'.allocator := by
  obtain ⟨v, found, ⟨-, rfl⟩ | ⟨inMemory, r, mid, loaded, u, took, load, known, rfl⟩⟩ := ran_bringBack ran
  · exact .refl coherent
  · have away : v.storage.register? = none := by
      cases there : v.storage with
      | register s =>
        rw [there] at inMemory
        cases inMemory
      | memory | saved => rfl
    obtain ⟨first, taken⟩ := take_coheres (P := P) coherent took
    have known' := taken.only found away
    rw [allocator_load load, known'] at known
    cases known
    rw [allocator_on, allocator_load load]
    exact first.trans (arrives_coheres taken.coherent known' taken.inHand rfl rfl rfl rfl)

/-- What every pass of a loop keeps coherent, the loop does. -/
theorem forM_coheres {α : Type} {f : α → Alloc Unit} {xs : List α} (coherent : Coherent w.allocator)
    (ran : Ran (xs.forM f) w x w') (pass : ∀ {y w w'}, Coherent w.allocator → Ran (f y) w () w' →
      Coheres P w.allocator w'.allocator) : Coheres P w.allocator w'.allocator :=
  Ran.forM ran (P := fun mid => Coheres P w.allocator mid.allocator) (.refl coherent)
    fun _ _ _ _ coheres ran => coheres.trans (pass coheres.coherent ran)

theorem sync_coheres (coherent : Coherent w.allocator) (ran : Ran sync w x w') :
    Coheres P w.allocator w'.allocator := by
  obtain ⟨home, ids, pinned, sent, -, first, second⟩ := ran_sync ran
  have sent' := forM_coheres (P := P) coherent sent sendHome_coheres
  have pins := forM_coheres (P := P) sent'.coherent first pin_coheres
  exact sent'.trans (pins.trans (forM_coheres pins.coherent second bringBack_coheres))

/-! ### Calls -/

/-- Before a call, registers are emptied of named variables, and temporaries are to be put aside from the registers
that they live in. -/
structure Emptying (temps : List (VarId × Reg)) (a a' : Allocator) : Prop where
  there : ∀ t ∈ temps, ∃ v, a'.var? t.1 = some v ∧ v.isTemp = true ∧ v.storage = .register t.2
  same : ∀ {i u}, u.isTemp = true → (a'.var? i = some u ↔ a.var? i = some u)

theorem leaveForCall_coheres {y : Option (VarId × Reg)} (coherent : Coherent w.allocator)
    (ran : Ran (leaveForCall r) w y w') :
    Coheres P w.allocator w'.allocator ∧ Emptying y.toList w.allocator w'.allocator := by
  obtain ⟨-, rfl, rfl⟩ | ⟨id, v, s, -, found, there, ⟨isTemp, rfl, rfl⟩ | ⟨isNamed, rfl, mid, wrote, parted⟩⟩ :=
    ran_leaveForCall_any ran
  · exact ⟨.refl coherent, nofun, fun _ => Iff.rfl⟩
  · refine ⟨.refl coherent, fun t member => ?_, fun _ => Iff.rfl⟩
    rw [List.mem_singleton.1 member]
    exact ⟨v, found, isTemp, there⟩
  · exact ⟨goesHome_coheres coherent found isNamed (wrote.imp And.right And.right) parted, nofun,
      fun isTemp => goesHome_temps found isNamed wrote parted isTemp⟩

theorem leaveForCalls_coheres {rs : List Reg} {ys : List (Option (VarId × Reg))} (coherent : Coherent w.allocator)
    (ran : Ran (rs.mapM leaveForCall) w ys w') : Coheres P w.allocator w'.allocator ∧
      Emptying (ys.filterMap fun y => y) w.allocator w'.allocator := by
  induction rs generalizing w ys with
  | nil =>
    obtain ⟨rfl, rfl⟩ := ran_mapM_nil.1 ran
    exact ⟨.refl coherent, nofun, fun _ => Iff.rfl⟩
  | cons r rs ih =>
    obtain ⟨y, mid, ys', first, second, rfl⟩ := ran_mapM_cons.1 ran
    obtain ⟨one, emptied⟩ := leaveForCall_coheres (P := P) coherent first
    obtain ⟨others, emptied'⟩ := ih one.coherent second
    have split : ((y :: ys').filterMap fun y => y) = y.toList ++ ys'.filterMap fun y => y := by
      cases y <;> rfl
    refine ⟨one.trans others, fun t member => ?_, fun isTemp => (emptied'.same isTemp).trans (emptied.same isTemp)⟩
    rw [split] at member
    rcases List.mem_append.1 member with here | later
    · obtain ⟨v, found, isTemp, there⟩ := emptied.there t here
      exact ⟨v, (emptied'.same isTemp).2 found, isTemp, there⟩
    · exact emptied'.there t later

/-- A temporary goes to wait for a call, apart from the register that nobody else lives in. -/
theorem parkedAt_coheres {a : Allocator} (slot : Nat) (coherent : Coherent a) (found : a.var? id = some v)
    (isTemp : v.isTemp = true) (own : ∀ {i}, a.Lives i r → i = id) :
    Coheres P a (a.parkedAt id r slot v) ∧ ∀ {i s}, (a.parkedAt id r slot v).Lives i s → i ≠ id ∧ a.Lives i s := by
  have vars : ∀ other, (a.parkedAt id r slot v).var? other =
      if other = id then some { v with storage := .saved slot } else a.var? other :=
    fun other => var?_setVar found _ other
  have lives : ∀ {i s}, (a.parkedAt id r slot v).Lives i s → i ≠ id ∧ a.Lives i s := by
    intro i s here
    rcases (lives_iff vars).1 here with ⟨-, there⟩ | before
    · cases there
    · exact before
  refine ⟨.revise coherent found ?_ vars rfl rfl (fun _ _ has => has) ⟨nofun, fun isNamed => ?_, fun isNamed => ?_⟩
    rfl rfl rfl rfl, lives⟩
  · refine coherent.toPlaced.mono (fun here => (lives here).2) (fun {i s} here => ownerOf_setOwner.trans (if_neg ?_))
      (fun _ member => .inl member) rfl
    rintro rfl
    exact (lives here).1 (own (lives here).2)
  all_goals
    have isNamed' : v.isTemp = false := isNamed
    cases isNamed'.symm.trans isTemp

/-- Whoever lives in a register that is put aside, or comes back, is the one that it is put aside for. -/
def Reserved (saved : List (VarId × Reg × Nat)) (a : Allocator) : Prop :=
  ∀ s ∈ saved, ∀ {i}, a.Lives i s.2.1 → i = s.1

theorem parkAll_coheres {saved : List (VarId × Reg × Nat)} (coherent : Coherent w.allocator)
    (temps : ∀ s ∈ saved, ∀ {u}, w.allocator.var? s.1 = some u → u.isTemp = true)
    (own : Reserved saved w.allocator) (ran : Ran (saved.forM park) w x w') :
    Coheres P w.allocator w'.allocator ∧
      (∀ {i s}, w'.allocator.Lives i s → i ∉ saved.map Prod.fst ∧ w.allocator.Lives i s) ∧
      w'.allocator.free = w.allocator.free ∧ w'.allocator.calls = w.allocator.calls := by
  induction saved generalizing w with
  | nil =>
    rw [ran_forM_nil.1 ran]
    exact ⟨.refl coherent, fun here => ⟨List.not_mem_nil, here⟩, rfl, rfl⟩
  | cons s rest ih =>
    obtain ⟨mid, first, second⟩ := ran_forM_cons.1 ran
    obtain ⟨v, found, rfl⟩ := ran_park first
    have isTemp := temps s List.mem_cons_self found
    obtain ⟨one, fewer⟩ := parkedAt_coheres (P := P) s.2.2 coherent found isTemp (own s List.mem_cons_self)
    have temps' : ∀ t ∈ rest, ∀ {u}, (w.allocator.parkedAt s.1 s.2.1 s.2.2 v).var? t.1 = some u →
        u.isTemp = true := by
      intro t member u known
      have known' := (var?_setVar found { v with storage := .saved s.2.2 } t.1).symm.trans known
      split at known'
      · cases known'
        exact isTemp
      · exact temps t (List.mem_cons_of_mem s member) known'
    obtain ⟨others, lives, free, calls⟩ := ih (w := on (fun a => a.parkedAt s.1 s.2.1 s.2.2 v) w) one.coherent
      temps' (fun t member _ here => own t (List.mem_cons_of_mem s member) (fewer here).2) second
    refine ⟨one.trans others, fun here => ?_, free, calls⟩
    obtain ⟨absent, before⟩ := lives here
    obtain ⟨apart, before'⟩ := fewer before
    rw [List.map_cons, List.mem_cons, not_or]
    exact ⟨⟨apart, absent⟩, before'⟩

/-- A call is pending that brings back registers in hand. -/
theorem pended_coheres {a : Allocator} (save : CallSave) (coherent : Coherent a)
    (once : ∀ s ∈ save.saved, ∀ t ∈ save.saved, s.2.1 = t.2.1 → s.1 = t.1)
    (inHand : ∀ s ∈ save.saved, InHand s.2.1 a) : Coheres P a { a with calls := save :: a.calls } := by
  have parked : ∀ {r}, r ∈ ({ a with calls := save :: a.calls } : Allocator).parked →
      (∃ s ∈ save.saved, s.2.1 = r) ∨ r ∈ a.parked := fun member =>
    (List.mem_append.1 member).imp_left List.mem_map.1
  refine .of_placed coherent ⟨coherent.owner, coherent.unfree, fun {i r} here awaited => ?_, fun {r} awaited => ?_,
    once, fun s member => (inHand s member).unawaited, coherent.pending⟩ rfl rfl rfl rfl
    fun level member _ listed => ⟨level, member, listed⟩
  · rcases parked awaited with ⟨s, member, rfl⟩ | before
    · exact (inHand s member).empty i here
    · exact coherent.unawaited here before
  · rcases parked awaited with ⟨s, member, rfl⟩ | before
    · exact (inHand s member).unfree
    · exact coherent.awaited before

/-- What writes temporaries to a save area leaves all of them where they are. -/
theorem storeAll_coheres {left stored : Work} {temps : List (VarId × Reg)} {saved : List (VarId × Reg × Nat)}
    {words : Nat} (coherent : Coherent left.allocator)
    (saving : Ran (saveOnStack 1 temps) (push (.sw Reg.returnAddress Reg.stackPointer 0)
          (on (fun a => { a with pushed := a.pushed + (words : Int) })
            (push (.addi Reg.stackPointer Reg.stackPointer (-(words : Int))) left))) saved stored ∨
      Ran (temps.mapM saveInGlobal) left saved stored) :
    Coheres P left.allocator stored.allocator ∧ (saved.map fun s => (s.1, s.2.1)) = temps ∧
      stored.allocator.vars = left.allocator.vars := by
  rcases saving with saving | saving
  · obtain ⟨same, temps⟩ := ran_saveOnStack saving
    rw [same]
    exact ⟨.same_levels coherent rfl rfl (fun _ member => member) rfl rfl rfl rfl rfl, temps, rfl⟩
  · obtain ⟨temps, same⟩ := ran_saveInGlobal saving
    rw [same]
    exact ⟨.same_levels coherent rfl rfl (fun _ member => member) rfl rfl rfl rfl rfl, temps, rfl⟩

/-- Every temporary that is put aside lived in its register, which is now empty. -/
theorem saveForCall_coheres (coherent : Coherent w.allocator) (ran : Ran saveForCall w x w') :
    Coheres P w.allocator w'.allocator := by
  obtain ⟨xs, left, emptied, saved, words, stored, parked, saving, parking, rfl⟩ := ran_saveForCall ran
  obtain ⟨first, emptying⟩ := leaveForCalls_coheres (P := P) coherent emptied
  obtain ⟨second, temps, vars⟩ := storeAll_coheres (P := P) first.coherent
    (saving.imp (fun saving => saving.2.2) fun saving => saving.2.2)
  have there : ∀ s ∈ saved, ∃ v, stored.allocator.var? s.1 = some v ∧ v.isTemp = true ∧
      v.storage = .register s.2.1 := by
    intro s member
    have member' : (s.1, s.2.1) ∈ xs.filterMap fun y => y := temps ▸ List.mem_map.2 ⟨s, member, rfl⟩
    rw [var?, vars, ← var?]
    exact emptying.there _ member'
  have lives : ∀ s ∈ saved, stored.allocator.Lives s.1 s.2.1 := by
    intro s member
    obtain ⟨v, found, -, place⟩ := there s member
    exact ⟨v, found, place⟩
  obtain ⟨third, fewer, free, calls⟩ := parkAll_coheres (P := P) second.coherent (fun s member u known => by
    obtain ⟨v, found, isTemp, -⟩ := there s member
    cases found.symm.trans known
    exact isTemp) (fun s member i here => second.coherent.toPlaced.unique here (lives s member)) parking
  have inHand : ∀ s ∈ saved, InHand s.2.1 parked.allocator := by
    refine fun s member => ⟨?_, ?_, fun i here => ?_⟩
    · rw [free]
      exact second.coherent.unfree (lives s member)
    · rw [Allocator.parked, calls]
      exact second.coherent.unawaited (lives s member)
    · obtain ⟨absent, before⟩ := fewer here
      rw [second.coherent.toPlaced.unique before (lives s member)] at absent
      exact absent (List.mem_map.2 ⟨s, member, rfl⟩)
  refine (first.trans second).trans (third.trans (pended_coheres ⟨saved, words⟩ third.coherent
    (fun s member t member' same => ?_) inHand))
  have lives' : stored.allocator.Lives t.1 s.2.1 := same ▸ lives t member'
  exact second.coherent.toPlaced.unique (lives s member) lives'

/-- Temporaries come back to the registers that they left. -/
theorem unparkAll_coheres {base : Reg} {saved : List (VarId × Reg × Nat)} (coherent : Coherent w.allocator)
    (once : ∀ s ∈ saved, ∀ t ∈ saved, s.2.1 = t.2.1 → s.1 = t.1)
    (unfree : ∀ s ∈ saved, s.2.1 ∉ w.allocator.free) (unawaited : ∀ s ∈ saved, s.2.1 ∉ w.allocator.parked)
    (own : Reserved saved w.allocator) (ran : Ran (saved.forM (unpark base)) w x w') :
    Coheres P w.allocator w'.allocator := by
  induction saved generalizing w with
  | nil =>
    rw [ran_forM_nil.1 ran]
    exact .refl coherent
  | cons s rest ih =>
    obtain ⟨mid, first, second⟩ := ran_forM_cons.1 ran
    obtain ⟨v, found, rfl⟩ := ran_unpark first
    have later : ∀ {t}, t ∈ rest → t ∈ s :: rest := fun member => List.mem_cons_of_mem s member
    have one := Coheres.bound (P := P) coherent found (unfree s List.mem_cons_self) (unawaited s List.mem_cons_self)
      (own s List.mem_cons_self)
    refine one.trans (ih (w := on (fun a => a.bound s.1 s.2.1 v) (push (.lw s.2.1 base s.2.2) w)) one.coherent
      (fun t member u member' => once t (later member) u (later member'))
      (fun t member => unfree t (later member)) (fun t member => unawaited t (later member))
      (fun t member i here => ?_) second)
    rcases (lives_iff (var?_bound found)).1 here with ⟨rfl, there⟩ | ⟨-, before⟩
    · exact once s List.mem_cons_self t (later member) (Storage.register.inj there)
    · exact own t (later member) before

/-- A pending call is over, so its registers are awaited no more. -/
theorem unpended_coheres {a : Allocator} {save : CallSave} {calls : List CallSave} (coherent : Coherent a)
    (pending : a.calls = save :: calls) : Coheres P a { a with calls } := by
  have wider : ∀ {r}, r ∈ ({ a with calls } : Allocator).parked → r ∈ a.parked := by
    intro r awaited
    rw [Allocator.parked, pending, List.flatMap_cons]
    exact List.mem_append.2 (.inr awaited)
  have before := coherent.pending
  rw [pending] at before
  exact .of_placed coherent ⟨coherent.owner, coherent.unfree,
    fun here awaited => coherent.unawaited here (wider awaited),
    fun awaited => coherent.awaited (wider awaited), before.2.2⟩ rfl rfl rfl rfl
    fun level member _ listed => ⟨level, member, listed⟩

theorem restoreAfterCall_coheres (coherent : Coherent w.allocator) (ran : Ran restoreAfterCall w x w') :
    Coheres P w.allocator w'.allocator := by
  obtain ⟨save, calls, back, pending, loaded, last⟩ := ran_restoreAfterCall ran
  have waits := coherent.pending
  rw [pending] at waits
  obtain ⟨once, apart, -⟩ := waits
  have awaited : ∀ s ∈ save.saved, s.2.1 ∈ w.allocator.parked := by
    intro s member
    rw [Allocator.parked, pending, List.flatMap_cons]
    exact List.mem_append.2 (.inl (List.mem_map.2 ⟨s, member, rfl⟩))
  have first := unpended_coheres (P := P) coherent pending
  have second : Coheres P { w.allocator with calls } back.allocator :=
    unparkAll_coheres (w := on (fun a => { a with calls }) w) first.coherent once
      (fun s member => coherent.awaited (awaited s member)) apart
      (fun s member i here => absurd (awaited s member) (coherent.unawaited here)) loaded
  rcases last with ⟨-, rfl⟩ | ⟨-, rfl⟩
  · exact (first.trans second).trans
      (.same_levels second.coherent rfl rfl (fun _ member => member) rfl rfl rfl rfl rfl)
  · exact first.trans second

end Alloc

open Alloc Allocator

/-! ### Any operation -/

namespace Operation

/-- The registers that an operation puts into circulation, whoever is to have them. -/
def circulates (a : Allocator) : Operation → List Reg
  | addVariable _ given => given.toList
  | unreserveAll => a.reserved
  | enterFunction => Reg.pool
  | leaveFunction => a.outside.toList.flatMap fun o => o.free ++ o.bindings.map fun b => b.2.1
  | _ => []

/-- Whether an operation puts no register into circulation that a pending call brings back. -/
def Orderly (a : Allocator) (op : Operation) : Prop := ∀ r ∈ op.circulates a, r ∉ a.parked

/-- What the generator of code may use is in order: it uses nothing of the kind while a call is pending. -/
theorem Permitted.orderly {a : Allocator} {op : Operation} (permitted : op.Permitted a) : op.Orderly a := by
  have quiet : a.calls = [] → op.Orderly a := by
    intro idle r _
    rw [Allocator.parked, idle]
    exact List.not_mem_nil
  cases op with
  | addVariable | enterFunction | leaveFunction => exact quiet permitted.1
  | unreserveAll => exact quiet permitted
  | _ =>
    intro r member
    cases member

/-- Whether an operation removes a variable by its name, or turns it into a temporary. -/
def Ends (a : Allocator) (id : VarId) : Operation → Prop
  | remove name | detachAsTemp name => a.find? name = some id
  | _ => False

variable {w w' : Work}

/-- Every operation but those that start and end function bodies keeps the state coherent, and spares all variables
that it does not end by name. -/
theorem step_coheres (op : Operation) (coherent : Coherent w.allocator) (orderly : op.Orderly w.allocator)
    (enters : op ≠ .enterFunction) (leaves : op ≠ .leaveFunction) (ran : Ran op.act w () w') :
    Coheres (fun id => ¬ op.Ends w.allocator id) w.allocator w'.allocator := by
  cases op with
  | addVariable name given =>
    obtain ⟨r, ran, -⟩ := ran_map.1 ran
    exact addVariable_coheres coherent (fun s same => orderly s (Option.mem_toList.2 same)) ran
  | declareVariable name => exact declareVariable_coheres coherent ran
  | addTemp =>
    obtain ⟨temp, ran, -⟩ := ran_map.1 ran
    exact addTemp_coheres coherent ran
  | renameTemp temp name => exact renameTemp_coheres coherent ran
  | detachAsTemp name =>
    obtain ⟨temp, ran, -⟩ := ran_map.1 ran
    exact detachAsTemp_coheres coherent ran fun id found spared => spared found
  | getRegister name modifies =>
    obtain ⟨r, ran, -⟩ := ran_map.1 ran
    exact (getRegister_coheres coherent ran).1
  | prepareWrite name =>
    obtain ⟨r, ran, -⟩ := ran_map.1 ran
    exact prepareWrite_coheres coherent ran
  | markWritten name => exact markWritten_coheres coherent ran
  | remove name => exact remove_coheres coherent ran fun id found spared => spared found
  | removeIfTemp name => exact removeIfTemp_coheres coherent ran
  | discardTemps =>
    obtain ⟨n, ran, -⟩ := ran_map.1 ran
    exact discardTemps_coheres coherent ran
  | reserve r => exact reserve_coheres coherent ran
  | unreserveAll => exact unreserveAll_coheres coherent orderly ran
  | setArray name size => exact setArray_coheres coherent ran
  | arrayAddress name =>
    obtain ⟨address, ran, -⟩ := ran_map.1 ran
    rw [knownAs_reads (fun v ran => by
      split at ran
      · exact (ran_addressOf.1 ran).2
      · exact (ran_throw.1 ran).elim) ran]
    exact .refl coherent
  | dims name | kind name | refs name =>
    obtain ⟨answer, ran, -⟩ := ran_map.1 ran
    rw [knownAs_reads (fun v ran => (ran_pure.1 ran).2) ran]
    exact .refl coherent
  | memoryAddress name =>
    obtain ⟨address, ran, -⟩ := ran_map.1 ran
    exact memoryAddress_coheres coherent ran
  | setDims name sizes | setMustReload name | setKind name read | setRefs name stars =>
    refine noteOf_coheres coherent ?_ ran
    exact fun v => ⟨rfl, rfl, rfl, rfl, rfl⟩
  | setAlias name target => exact setAlias_coheres coherent ran
  | removeAlias name => exact removeAlias_coheres coherent ran
  | demote name => exact demote_coheres coherent ran
  | hold r =>
    rw [ran_hold.1 ran]
    exact .same_levels coherent rfl rfl (fun _ member => member) rfl rfl rfl rfl rfl
  | releaseHolds =>
    have ran : Ran Alloc.releaseHolds w () w' := ran
    rw [ran_change.1 ran]
    exact .same_levels coherent rfl rfl (fun _ member => member) rfl rfl rfl rfl rfl
  | sync => exact sync_coheres coherent ran
  | pushLevel hidesOuter => exact pushLevel_coheres coherent ran
  | popLevel => exact popLevel_coheres coherent ran
  | enterFunction => exact absurd rfl enters
  | leaveFunction => exact absurd rfl leaves
  | pushWords words | popWords words =>
    obtain ⟨pushed, rfl⟩ : ∃ pushed, w' = on (fun a => { a with pushed }) w := ⟨_, ran_change.1 ran⟩
    exact .same_levels coherent rfl rfl (fun _ member => member) rfl rfl rfl rfl rfl
  | saveForCall => exact saveForCall_coheres coherent ran
  | restoreAfterCall => exact restoreAfterCall_coheres coherent ran

end Operation

end SmallC
