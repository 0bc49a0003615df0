import SmallC.Proofs.Allocation.InUse
import SmallC.Proofs.Allocation.Course

/-!
Reading variables. The register that is handed out for the value of a variable holds it, whether the variable was
there before, is loaded from where it is, or is loaded anew since a pointer may have changed its home. Registers
that were not to be had hold what they held, whatever is read, reserved or given up meanwhile.
-/
namespace SmallC

open Alloc Allocator Machine

variable {w w' mid : Work} {a : Allocator} {id : VarId} {v : Variable} {r : Reg} {name : String} {base : Int}
  {size : Nat} {m : Machine} {x : Word} {last : VarId → Option Word}

/-- The instruction that loads a variable brings its value into the register, if the variable is away or is loaded
anew. -/
theorem Variable.LoadedBy.reads {i : MachineInstr} (loaded : v.LoadedBy a r i) (based : Based base size a m)
    (room : Room base size a) (granted : ∀ {home}, v.home = some home → a.Grants home)
    (memory : ∀ {home}, v.storage = .memory home → v.memory? = some home) (carries : r.Carries)
    (bears : v.Bears base m x) (anew : ∀ {s}, v.storage = .register s → v.mustReload = true ∧ v.isDirty = false) :
    ∃ m', m.effect i = .ok m' ∧ m'.reg r = x := by
  obtain ⟨m', done, -, reads⟩ := loaded.effect based room granted memory carries
  refine ⟨m', done, reads x bears.address fun {home} scalar has => ?_⟩
  cases loaded with
  | address array known => cases array.symm.trans scalar
  | word _ place known =>
    obtain stands | ⟨⟨s, there⟩, -⟩ := place
    · have stands' := (memory?_scalar scalar).symm.trans (memory stands)
      cases has.symm.trans stands'
      exact bears.memory scalar stands
    · obtain ⟨reloads, clean⟩ := anew there
      exact bears.home scalar there clean (.inr reloads) has

/-- What stands under other names is found without a name. -/
theorem Level.lookup_without_of_ne {names : List (String × VarId)} {name other : String} (different : other ≠ name) :
    (Level.without name names).lookup other = names.lookup other := lookup_dropped_of_ne names different

namespace Allocator

/-- No variable comes to a vacant register that may not be used. -/
theorem Deed.vacant {a' : Allocator} {K : VarId → Prop} {T : Reg → Prop} {code : List MachineInstr}
    (deed : Deed K T a a' code) (tidy : Tidy a) (closed : ¬ T r) (vacant : a.Vacant r) : a'.Vacant r := by
  intro other u known there
  have keeps : ∀ {id : VarId} {v' : Variable} {old : Option Variable}, a.var? id = old → Placing T a a' old v' →
      (∀ other, a'.var? other = if other = id then some v' else a.var? other) → False := by
    intro id v' old found placing vars
    rw [vars] at known
    split at known
    · cases known
      obtain ⟨before, same, was⟩ | ⟨usable, -⟩ := placing.register there
      · exact vacant (found.trans same) was
      · exact closed usable
    · exact vacant known there
  cases deed with
  | aside onward vars => exact vacant ((vars other).symm.trans known) there
  | add onward vars placing => exact keeps (by simp [var?]) placing vars
  | drop id onward vars =>
    rw [vars] at known
    split at known
    · cases known
    · exact vacant known there
  | shift onward found vars shift => exact keeps found (shift.placing (tidy.memory found)) vars
  | rewrite onward found written vars array placing => exact keeps found placing vars
  | overwrite onward found written vars has known' array placing => exact keeps found placing vars

theorem Deeds.vacant {a' : Allocator} {K : VarId → Prop} {T : Reg → Prop} {code : List MachineInstr}
    (deeds : Deeds K T a a' code) (tidy : Tidy a) (narrow : ∀ r, T r → r.Carries) (closed : ¬ T r)
    (vacant : a.Vacant r) : a'.Vacant r := by
  induction deeds with
  | refl => exact vacant
  | snoc first last ih => exact last.vacant (first.tidy tidy narrow) closed ih

theorem Open.carries (opens : a.Open r) : r.Carries := .inl opens.1

/-- Registers of arguments are never to be had. -/
theorem not_open_of_argument (argument : r ∈ Reg.arguments) : ¬ a.Open r := fun opens => by
  have outside : ∀ s ∈ Reg.arguments, s.isPool = false := by decide
  cases opens.1.symm.trans (outside r argument)

end Allocator

namespace Alloc

/-- What was read is in the register that was handed out. -/
theorem reg_of_read {code : List MachineInstr} {m' : Machine} (sound : Sound [] w.allocator) (tidy : Tidy w.allocator)
    (room : Room base size w'.allocator) (bearing : Bearing base size last w.allocator m)
    (named : w.allocator.find? name = some id) (valued : last id = some x)
    (ran : Ran (getRegister name true) w r w') (emitted : w'.code.toList = w.code.toList ++ code)
    (done : m.performs code = .ok m') : m'.reg r = x := by
  have before := room.of_grows (growing_getRegister _ _ _ ran)
  obtain ⟨id', v, named', found, ⟨there, mid, loaded, rfl⟩ | ⟨away, mid, loaded, u, took, load, known, rfl⟩⟩ :=
    ran_getRegister ran
  · cases named.symm.trans named'
    have bears := bearing.bears found valued
    obtain ⟨reloads, clean, load⟩ | ⟨rfl, fresh⟩ := loaded
    · obtain ⟨i, loads, rfl⟩ := loadedBy found load
      obtain ⟨m'', one, reads⟩ := loads.reads bearing.toBased before (tidy.granted found) (tidy.memory found)
        (tidy.carried found there) bears fun _ => ⟨reloads, clean⟩
      rw [code_on, code_push, Array.toList_push] at emitted
      rw [← List.append_cancel_left emitted, performs_one] at done
      cases one.symm.trans done
      exact reads
    · rw [List.append_cancel_left ((List.append_nil _).trans emitted).symm] at done
      cases done
      exact bears.register there fun stale => fresh ⟨rfl, stale.2.2.1, stale.2.2.2⟩
  · cases named.symm.trans named'
    have taken := takes sound took
    obtain ⟨found', rfl⟩ := known_loaded sound found away took load known
    obtain ⟨i, loads, rfl⟩ := loadedBy found' load
    obtain ⟨first, emitted₁, deeds⟩ := does_take (K := fun _ => False) (T := w.allocator.Open) sound took
    have room₁ : Room base size mid.allocator :=
      room.of_grows ((Onward.bound mid.allocator _ r u).trans (.setVar _ _ _)).toGrows
    have tidy₁ := deeds.tidy tidy fun _ => Open.carries
    obtain ⟨⟨m₁, done₁, bearing₁, -⟩, -⟩ := deeds.performs tidy room₁ (fun _ => Open.carries) False.elim bearing
    obtain ⟨m₂, one, reads⟩ := loads.reads bearing₁.toBased room₁ (tidy₁.granted found') (tidy₁.memory found')
      (.inl taken.inPool) (bearing₁.bears found' valued) fun there => by
        cases (congrArg Storage.register? there).symm.trans away
    rw [code_on, code_push, Array.toList_push, emitted₁, List.append_assoc] at emitted
    rw [← List.append_cancel_left emitted, performs_append done₁, performs_one] at done
    cases one.symm.trans done
    exact reads

/-- The code for reading a variable executes. Its value is in the register that was handed out, and registers that
were not to be had hold what they held. -/
theorem read_performs (sound : Sound [] w.allocator) (tidy : Tidy w.allocator) (room : Room base size w'.allocator)
    (bearing : Bearing base size last w.allocator m) (named : w.allocator.find? name = some id)
    (valued : last id = some x) (ran : Ran (getRegister name true) w r w') :
    ∃ code m', w'.code.toList = w.code.toList ++ code ∧ m.performs code = .ok m' ∧
      Bearing base size last w'.allocator m' ∧ Secures last w'.allocator m' r x ∧
      ∀ {s y}, ¬ w.allocator.Open s → s ≠ Reg.status → Secures last w.allocator m s y →
        Secures last w'.allocator m' s y := by
  obtain ⟨code, emitted, deeds⟩ := does_getRegister (K := fun _ => False) (T := w.allocator.Open) sound (fun _ it => it) ran
  obtain ⟨⟨m', done, bearing', secures⟩, -⟩ := deeds.performs tidy room (fun _ => Open.carries) False.elim bearing
  refine ⟨code, m', emitted, done, bearing', ⟨?_, fun {other u} found there => ?_⟩, secures⟩
  · exact reg_of_read sound tidy room bearing named valued ran emitted done
  · obtain ⟨keeps, -, id', v, named', found', there'⟩ := getRegister_reads sound ran
    rw [keeps.find?] at named'
    cases named.symm.trans named'
    cases (deeds.tidy tidy fun _ => Open.carries).alone found found' there there'
    exact valued

/-! ### Registers are taken -/

/-- A variable that is not pinned can be made to leave its register, if it has a home to be written back to. -/
theorem evict_succeeds (sound : Sound [] w.allocator)
    (homed : v.isTemp = false → v.isDirty = true → v.home.isSome = true)
    (found : w.allocator.var? id = some v) (there : v.storage = .register r) (loose : v.isPinned = false) :
    ∃ w', Ran (evict id) w r w' := by
  have leaves : ∀ {mid : Work} {u}, mid.allocator.var? id = some u → ∃ w', Ran (do
      unbind id
      withdraw r
      return r) mid r w' := fun known => by
    obtain ⟨last, parted⟩ := unbind_succeeds known
    exact ⟨_, ran_bind.2 ⟨(), last, parted, ran_bind.2 ⟨(), _, ran_withdraw.2 rfl, ran_pure.2 ⟨rfl, rfl⟩⟩⟩⟩
  suffices rest : ∃ w', Ran (if v.isTemp then do
        ensureHome id
        writeBack id r
        unbind id
        withdraw r
        return r
      else if v.memory?.isNone then do
        throw (.spillWithoutHome v.name)
        unbind id
        withdraw r
        return r
      else if v.isDirty then do
        writeBack id r
        unbind id
        withdraw r
        return r
      else do
        unbind id
        withdraw r
        return r) w r w' by
    obtain ⟨w', ran⟩ := rest
    refine ⟨w', ran_bind.2 ⟨v, w, ran_known.2 ⟨found, rfl⟩, ?_⟩⟩
    simp only [there, Storage.register?, loose, Bool.false_eq_true, if_false]
    exact ran
  cases isTemp : v.isTemp with
  | true =>
    rw [if_pos rfl]
    obtain ⟨housed, u, home, gave, known, has, granted⟩ : ∃ housed u home, Ran (ensureHome id) w () housed ∧
        housed.allocator.var? id = some u ∧ u.home = some home ∧ housed.allocator.Grants home := by
      cases has : v.home with
      | some home =>
        exact ⟨w, v, home, ran_ensureHome.2 ⟨v, found, .inl ⟨by rw [has]; rfl, rfl⟩⟩, found, has,
          sound.homes.granted found has⟩
      | none =>
        exact ⟨_, _, _, ran_ensureHome.2 ⟨v, found, .inr ⟨has, rfl⟩⟩,
          var?_setVar_self (a := w.allocator.grown 1) found _, rfl, grants_nextHome Nat.one_pos⟩
    obtain ⟨mid, wrote, same⟩ := writeBack_runs known has granted r
    obtain ⟨w', rest⟩ := leaves (same ▸ var?_setVar_self known _)
    exact ⟨w', ran_bind.2 ⟨(), housed, gave, ran_bind.2 ⟨(), mid, wrote, rest⟩⟩⟩
  | false =>
    have some := (sound.fits found).home isTemp
    rw [if_neg Bool.false_ne_true, if_neg (by rw [Option.isNone_iff_eq_none]; rintro none; rw [none] at some; cases some)]
    cases dirty : v.isDirty with
    | true =>
      rw [if_pos rfl]
      obtain ⟨home, has⟩ := Option.isSome_iff_exists.1 (homed isTemp dirty)
      obtain ⟨mid, wrote, same⟩ := writeBack_runs found has (sound.homes.granted found has) r
      obtain ⟨w', rest⟩ := leaves (same ▸ var?_setVar_self found _)
      exact ⟨w', ran_bind.2 ⟨(), mid, wrote, rest⟩⟩
    | false =>
      rw [if_neg Bool.false_ne_true]
      exact leaves found

/-- Who is chosen to leave a register is in one. -/
theorem of_victim {a : Allocator} {eligible : Variable → Bool} (chosen : victim? a eligible = some id) :
    ∃ v r, a.var? id = some v ∧ v.storage = .register r ∧ eligible v = true := by
  have suits := List.find?_some chosen
  cases found : a.var? id with
  | none =>
    rw [found] at suits
    cases suits
  | some v =>
    simp only [found, Option.any_some, Bool.and_eq_true] at suits
    cases there : v.storage with
    | register r => exact ⟨v, r, rfl, there, suits.1⟩
    | memory home | saved slot =>
      rw [there] at suits
      cases suits.2

/-- Who has to give way is not pinned. -/
theorem of_chooseVictim {a : Allocator} (sound : Sound [] a) (chosen : chooseVictim? a = some id) :
    ∃ v r, a.var? id = some v ∧ v.storage = .register r ∧ v.isPinned = false := by
  simp only [chooseVictim?, Option.orElse_eq_orElse, Option.orElse_eq_or] at chosen
  obtain first | ⟨-, second⟩ := Option.or_eq_some_iff.1 chosen
  · obtain ⟨v, r, found, there, isNamed⟩ := of_victim first
    exact ⟨v, r, found, there, (sound.fits found).unpinned (by simpa using isNamed)⟩
  · obtain ⟨v, r, found, there, suits⟩ := of_victim second
    exact ⟨v, r, found, there, by simpa using (Bool.and_eq_true_iff.1 suits).2⟩

/-- A register can be taken as long as one is free that is not held, or a variable can be made to leave its own. -/
theorem take_runs (sound : Sound [] w.allocator) (scalars : WritesScalars w.allocator)
    (available : (∃ r ∈ w.allocator.free, r ∉ w.allocator.held) ∨ (chooseVictim? w.allocator).isSome) :
    ∃ r w', Ran take w r w' := by
  cases free : w.allocator.free.find? (· ∉ w.allocator.held) with
  | some s =>
    obtain ⟨r, took⟩ := take_succeeds (w := w) ⟨s, List.mem_of_find?_eq_some free, by simpa using List.find?_some free⟩
    exact ⟨r, _, took⟩
  | none =>
    have full : ¬ ∃ r ∈ w.allocator.free, r ∉ w.allocator.held := by
      rintro ⟨r, member, loose⟩
      have held := List.find?_eq_none.1 free r member
      simp only [loose, not_false_eq_true, decide_true, not_true_eq_false] at held
    obtain ⟨id, chosen⟩ := Option.isSome_iff_exists.1 (available.resolve_left full)
    obtain ⟨v, r, found, there, loose⟩ := of_chooseVictim sound chosen
    obtain ⟨w', evicted⟩ := evict_succeeds sound (fun isNamed dirty =>
      (sound.fits found).home_of_scalar (scalars id v found isNamed dirty) isNamed) found there loose
    refine ⟨r, w', ?_⟩
    rw [Ran, take_of_full free, chosen]
    exact evicted

end Alloc

/-! ### Reading several variables -/

/-- Between two operations: the state is in order, no call is pending, and the machine bears the values. -/
structure AtRest (base : Int) (size : Nat) (last : VarId → Option Word) (a : Allocator) (m : Machine) : Prop where
  sound : Sound [] a
  idle : a.calls = []
  tidy : Tidy a
  bearing : Bearing base size last a m

/-- Registers that could not be had before can still not be had, no variable came to them, and they hold what they
held. -/
structure Keeping (last : VarId → Option Word) (a a' : Allocator) (m m' : Machine) : Prop where
  closed : ∀ {r}, a'.Open r → a.Open r
  vacant : ∀ {r}, ¬ a.Open r → a.Vacant r → a'.Vacant r
  secures : ∀ {r x}, ¬ a.Open r → r ≠ Reg.status → Secures last a m r x → Secures last a' m' r x

theorem Keeping.refl (last : VarId → Option Word) (a : Allocator) (m : Machine) : Keeping last a a m m :=
  ⟨fun opens => opens, fun _ vacant => vacant, fun _ _ secures => secures⟩

theorem Keeping.trans {b c : Allocator} {m₁ m₂ : Machine} (first : Keeping last a b m m₁)
    (second : Keeping last b c m₁ m₂) : Keeping last a c m m₂ where
  closed opens := first.closed (second.closed opens)
  vacant shut vacant := second.vacant (fun opens => shut (first.closed opens)) (first.vacant shut vacant)
  secures shut noStatus secures :=
    second.secures (fun opens => shut (first.closed opens)) noStatus (first.secures shut noStatus secures)

/-- A name stands for a variable that has a value. -/
def Allocator.Means (last : VarId → Option Word) (a : Allocator) (name : String) (x : Word) : Prop :=
  ∃ id, a.find? name = some id ∧ last id = some x

/-- A register that was held before can still not be had. -/
theorem Allocator.Open.of_held {a a' : Allocator} (held : ∀ {r}, r ∈ a.held → r ∈ a'.held) : a'.Open r → a.Open r :=
  fun opens => ⟨opens.1, fun member => opens.2 (held member)⟩

theorem AtRest.read (rest : AtRest base size last w.allocator m) (room : Room base size w'.allocator)
    (means : w.allocator.Means last name x) (ran : Ran (getRegister name true) w r w') :
    ∃ code m', w'.code.toList = w.code.toList ++ code ∧ m.performs code = .ok m' ∧
      AtRest base size last w'.allocator m' ∧ Keeping last w.allocator w'.allocator m m' ∧
      Secures last w'.allocator m' r x ∧ ¬ w'.allocator.Open r ∧ r.Carries ∧ Keeps w.allocator w'.allocator := by
  obtain ⟨id, named, valued⟩ := means
  obtain ⟨keeps, held, other, v, -, found, there⟩ := getRegister_reads rest.sound ran
  obtain ⟨code, m', emitted, done, bearing, reads, secures⟩ :=
    read_performs rest.sound rest.tidy room rest.bearing named valued ran
  obtain ⟨code', -, deeds⟩ := does_getRegister (K := fun _ => False) (T := w.allocator.Open) rest.sound (fun _ it => it) ran
  have tidy := deeds.tidy rest.tidy fun _ => Open.carries
  exact ⟨code, m', emitted, done, ⟨getRegister_sound rest.sound ran, keeps.calls.trans rest.idle, tidy, bearing⟩,
    ⟨Open.of_held keeps.held, deeds.vacant rest.tidy fun _ => Open.carries, secures⟩, reads,
    fun opens => opens.2 held, tidy.carried found there, keeps⟩

/-- What reserving a register comes to as far as names are concerned, and who owns which register. -/
theorem reserve_keeps {u : Unit} (sound : Sound [] w.allocator) (ran : Ran (reserve r) w u w') :
    (∀ name, w'.allocator.find? name = w.allocator.find? name) ∧
      w'.allocator.temps = w.allocator.temps ∧ (∀ {s}, s ∈ w.allocator.held → s ∈ w'.allocator.held) ∧
      w'.allocator.ownerOf r = none := by
  obtain ⟨mid, rfl, ⟨unowned, rfl⟩ | ⟨id, target, taken, u, owned, took, known, rfl⟩⟩ := ran_reserve ran
  · exact ⟨fun _ => rfl, rfl, fun member => member, unowned⟩
  · have sound' : Sound []
        (on (fun a => { a with held := if r ∈ a.held then a.held else r :: a.held }) w).allocator :=
      sound.congr (fun _ => Iff.rfl) rfl
    have taken' := takes sound' took
    have keeps := (Keeps.hold w.allocator r).trans taken'.keeps
    refine ⟨keeps.find?, keeps.temps, fun member => ?_, ?_⟩
    · have held := keeps.held member
      change _ ∈ if target ∈ taken.allocator.held then taken.allocator.held else target :: taken.allocator.held
      split
      · exact held
      · exact .tail _ held
    · have apart : r ≠ target := fun same => taken'.loose (same ▸ mem_held_hold _ _)
      have owner : Allocator.ownerOf ((taken.allocator.setOwner r none).bound id target u) r = none := by
        rw [ownerOf_bound, if_neg apart, ownerOf_setOwner, if_pos rfl]
      exact owner

/-- A register is vacant once it is reserved. -/
theorem AtRest.reserve {u : Unit} (rest : AtRest base size last w.allocator m) (room : Room base size w'.allocator)
    (ran : Ran (reserve r) w u w') :
    ∃ code m', w'.code.toList = w.code.toList ++ code ∧ m.performs code = .ok m' ∧
      AtRest base size last w'.allocator m' ∧ Keeping last w.allocator w'.allocator m m' ∧ w'.allocator.Vacant r ∧
      (∀ name, w'.allocator.find? name = w.allocator.find? name) ∧ w'.allocator.temps = w.allocator.temps := by
  obtain ⟨sound, calls⟩ := reserve_sound rest.sound rest.idle ran
  obtain ⟨names, temps, held, unowned⟩ := reserve_keeps rest.sound ran
  obtain ⟨code, emitted, deeds⟩ := does_reserve (K := fun _ => False) (T := w.allocator.Open) rest.sound (fun _ it => it) ran
  obtain ⟨⟨m', done, bearing, secures⟩, -⟩ := deeds.performs rest.tidy room (fun _ => Open.carries) False.elim rest.bearing
  refine ⟨code, m', emitted, done, ⟨sound, calls.trans rest.idle, deeds.tidy rest.tidy fun _ => Open.carries, bearing⟩,
    ⟨Open.of_held held, deeds.vacant rest.tidy fun _ => Open.carries, secures⟩, fun {id v} found there => ?_, names,
    temps⟩
  cases unowned.symm.trans (sound.registers.owner.2 ⟨v, found, there⟩)

/-- A vacant register may be written. -/
theorem AtRest.write {m' : Machine} (rest : AtRest base size last a m) (vacant : a.Vacant r) (aside : r ≠ Reg.stackPointer)
    (writes : Writes r m m') : AtRest base size last a m' where
  sound := rest.sound
  idle := rest.idle
  tidy := rest.tidy
  bearing := ⟨rest.bearing.toBased.writes writes aside, rest.bearing.fresh, fun found valued =>
    (rest.bearing.bears found valued).writes writes (vacant found) (rest.tidy.carried found)⟩

/-- Giving up a temporary concerns no other name, and giving up anything else does nothing. -/
theorem removeIfTemp_names {u : Unit} (sound : Sound [] w.allocator) (ran : Ran (removeIfTemp name) w u w') :
    (w.allocator.isTemp name = false ∧ w' = w) ∨ (w.allocator.isTemp name = true ∧ ∀ other, other ≠ name →
      w'.allocator.find? other = w.allocator.find? other ∧ w'.allocator.isTemp other = w.allocator.isTemp other) := by
  simp only [removeIfTemp, ran_bind, ran_look, and_assoc, exists_and_left, exists_eq_left] at ran
  split at ran
  · next id looked =>
    refine .inr ⟨by rw [Allocator.isTemp, looked]; rfl, fun other different => ?_⟩
    obtain ⟨v, found, isTemp, same⟩ := sound.names.tempIs ((Level.lookup_eq_some sound.names.tempOnce).1 looked)
    have names : ∀ {b : Allocator} {v' : Variable}, v'.isTemp = true → v'.name = name → b.root = w.allocator.root →
        b.inner = w.allocator.inner → b.temps = w.allocator.temps →
        (b.forgotten id v').find? other = w.allocator.find? other ∧
          (b.forgotten id v').isTemp other = w.allocator.isTemp other := by
      intro b v' isTemp' named root inner temps
      simp only [Allocator.find?, Allocator.isTemp, Allocator.forgotten, isTemp', if_true, root, inner, temps, named,
        Level.lookup_without_of_ne different, and_self]
    obtain ⟨v', found', ⟨-, rfl⟩ | ⟨r, -, rfl⟩⟩ := ran_drop ran
    · cases found.symm.trans found'
      exact names isTemp same rfl rfl rfl
    · cases found.symm.trans found'
      exact names isTemp same rfl rfl rfl
  · next absent =>
    obtain ⟨-, rfl⟩ := ran_pure.1 ran
    exact .inl ⟨by rw [Allocator.isTemp, absent]; rfl, rfl⟩

theorem AtRest.free {u : Unit} (rest : AtRest base size last w.allocator m) (room : Room base size w'.allocator)
    (ran : Ran (removeIfTemp name) w u w') :
    ∃ code m', w'.code.toList = w.code.toList ++ code ∧ m.performs code = .ok m' ∧
      AtRest base size last w'.allocator m' ∧
      ∀ {s y}, s ≠ Reg.status → Secures last w.allocator m s y → Secures last w'.allocator m' s y := by
  obtain ⟨sound, calls⟩ := removeIfTemp_sound rest.sound ran
  obtain ⟨code, emitted, deeds⟩ := does_removeIfTemp (K := fun _ => False) (T := fun _ => False) ran
  obtain ⟨⟨m', done, bearing, secures⟩, -⟩ := deeds.performs rest.tidy room (fun _ => False.elim) False.elim rest.bearing
  exact ⟨code, m', emitted, done, ⟨sound, calls.trans rest.idle, deeds.tidy rest.tidy fun _ => False.elim, bearing⟩,
    secures fun shut => shut⟩

end SmallC
