import SmallC.Proofs.Allocation.Standing
import SmallC.Proofs.Allocation.Synchronizing

/-!
Where paths of control meet. Behind a synchronization every named variable is in its home and every temporary
is pinned to a register. A home does not change, nor does the register of a pinned temporary, so a machine
that agrees with the allocator at one such point agrees with it at any later one, whatever code was laid down
in between and not run.
-/
namespace SmallC

open Alloc

namespace Allocator

/-- The state in which paths meet. -/
structure Met (a : Allocator) : Prop where
  named : ∀ {id v}, a.var? id = some v → v.isTemp = false → ∃ home, v.storage = .memory home
  temp : ∀ {id v}, a.var? id = some v → v.isTemp = true →
    v.isPinned = true ∧ ∃ r, v.storage = .register r

end Allocator

namespace Alloc

open Allocator Machine

variable {K : VarId → Prop} {kept : List Reg} {w w' mid : Work} {id : VarId} {r : Reg} {v : Variable} {hand : List Reg}
  {x : Unit} {α : Type}

theorem sendHome_steady (sound : Sound hand w.allocator) (calm : Calm K kept w.allocator)
    (ran : Ran (sendHome r) w x w') : Steady K kept w w' := by
  obtain ⟨-, rfl⟩ | ⟨id, v, owned, found, ⟨-, rfl⟩ | ⟨isNamed, mid, wrote, parted⟩⟩ := ran_sendHome ran
  · exact .refl calm
  · exact .refl calm
  · obtain ⟨v', found', there⟩ := sound.registers.owner.1 owned
    cases found.symm.trans found'
    have went := wrote.imp (fun dirty => And.intro isNamed dirty) fun clean => And.intro isNamed clean
    have unpinned := (sound.fits found).unpinned isNamed
    obtain ⟨u, home, known, -, loose, -⟩ := (leaving (sound.fits found).home found there unpinned (.inr went)).place
    have left := leave_steady calm ((calm.numeric found).pooled there) (.inr went)
    exact left.trans (unbind_steady left.calm known loose parted)

/-! ### Temporaries are pinned -/

theorem pin_steady (calm : Calm K kept w.allocator) (ran : Ran (pin id) w x w') : Steady K kept w w' := by
  obtain ⟨v, found, rfl⟩ := ran_pin ran
  have numeric := calm.numeric found
  refine .setVar calm found (fun _ => ⟨⟨rfl, rfl, rfl, rfl, rfl, rfl, rfl, rfl, fun has => has⟩,
    fun pinned _ there => ⟨?_, there⟩⟩)
    ⟨numeric.pooled, numeric.unsaved, numeric.scalar, numeric.plain, numeric.untouched⟩
  change (v.isPinned || _) = true
  rw [pinned, Bool.true_or]

theorem bringBack_steady (sound : Sound hand w.allocator) (calm : Calm K kept w.allocator)
    (ran : Ran (bringBack id) w x w') : Steady K kept w w' := by
  obtain ⟨v, found, ⟨-, rfl⟩ | ⟨inMemory, r, mid, loaded, u, took, load, known, rfl⟩⟩ := ran_bringBack ran
  · exact .refl calm
  · have away : v.storage.register? = none := by
      cases there : v.storage with
      | register s =>
        rw [there] at inMemory
        cases inMemory
      | memory | saved => rfl
    obtain ⟨-, rfl⟩ := known_loaded sound found away took load known
    exact fetch_steady sound calm found away took load known ⟨rfl, rfl, rfl, rfl, rfl, rfl, rfl, rfl, fun has => has⟩
      rfl

/-! ### Both -/

theorem sync_steady (sound : Sound hand w.allocator) (calm : Calm K kept w.allocator)
    (ran : Ran sync w x w') : Steady K kept w w' := by
  obtain ⟨home, ids, pinned, sent, listed, first, second⟩ := ran_sync ran
  obtain ⟨sound', sent'⟩ : Sound hand home.allocator ∧ Steady K kept w home :=
    sent.forM (P := fun mid => Sound hand mid.allocator ∧ Steady K kept w mid) ⟨sound, .refl calm⟩
      fun r _ mid mid' kept' ran => ⟨(sendHome_sound kept'.1 ran).1,
        kept'.2.trans (sendHome_steady kept'.1 kept'.2.calm ran)⟩
  obtain ⟨temps, -⟩ := mem_tempIds sound'.names listed
  obtain ⟨sound'', keeps⟩ := temps_forM sound' temps pin_sound first
  have pinned' : Steady K kept w pinned :=
    first.forM (P := fun mid => Steady K kept w mid) sent' fun id _ mid mid' before ran =>
      before.trans (pin_steady before.calm ran)
  obtain ⟨-, -, after⟩ := second.forM (P := fun mid => Sound hand mid.allocator ∧ AllTemps ids mid.allocator ∧
    Steady K kept w mid) ⟨sound'', temps.keeps keeps, pinned'⟩ fun id member mid mid' before ran => by
      obtain ⟨v, found, isTemp⟩ := before.2.1 id member
      obtain ⟨sound, keeps⟩ := bringBack_sound before.1 found isTemp ran
      exact ⟨sound, before.2.1.keeps keeps, before.2.2.trans (bringBack_steady before.1 before.2.2.calm ran)⟩
  exact after

/-- A synchronization brings about the state in which paths meet. -/
theorem sync_met (sound : Sound hand w.allocator) (numeric : w.allocator.Numeric) (ran : Ran sync w x w') :
    Met w'.allocator := by
  have calm : Calm (fun _ => False) [] w.allocator := ⟨False.elim, numeric, nofun⟩
  have after : w'.allocator.Numeric := (sync_steady sound calm ran).calm.numeric
  have synced := synchronizes sound ran
  refine ⟨fun {id u} known isNamed => ?_, fun {id u} known isTemp => ?_⟩
  · cases there : u.storage with
    | register r => cases isNamed.symm.trans (synced.pinned known there).1
    | memory home => exact ⟨home, rfl⟩
    | saved slot => exact absurd there ((after known).unsaved slot)
  · cases there : u.storage with
    | register r => exact ⟨(synced.pinned known there).2, r, rfl⟩
    | memory home => cases (congrArg Storage.isMemory there).symm.trans (synced.back known isTemp)
    | saved slot => exact absurd there ((after known).unsaved slot)

end Alloc

open Classical in
/-- The values of some variables. -/
noncomputable def valuesOf (K : VarId → Prop) (last : VarId → Option Word) (id : VarId) : Option Word :=
  if K id then last id else none

theorem valuesOf_eq_some {K : VarId → Prop} {last : VarId → Option Word} {id : VarId} {x : Word} :
    valuesOf K last id = some x ↔ K id ∧ last id = some x := by
  unfold valuesOf
  split
  · next counts => exact ⟨fun written => ⟨counts, written⟩, And.right⟩
  · next other => exact ⟨nofun, fun both => absurd both.1 other⟩

theorem valuesOf_of {K : VarId → Prop} {last : VarId → Option Word} {id : VarId} (counts : K id) :
    valuesOf K last id = last id := if_pos counts

theorem Variable.Numeric.ordinary {v : Variable} (numeric : v.Numeric) : v.Ordinary :=
  ⟨numeric.pooled, numeric.unsaved, fun _ => numeric.untouched⟩

/-- A machine with values where paths meet: those of named variables in their homes, and those of temporaries in
the registers that they are pinned to. Only some variables count. -/
structure Rests (base : Int) (size : Nat) (K : VarId → Prop) (last : VarId → Option Word) (a : Allocator)
    (m : Machine) : Prop where
  zero : m.reg Reg.zero = 0
  stack : (m.reg Reg.stackPointer).toInt + a.pushed = base
  memory : m.memory.size = size
  home : ∀ {id v home x}, K id → a.var? id = some v → v.isTemp = false → v.home = some home →
    last id = some x → m.cellOf? base home = some x
  register : ∀ {id v x}, K id → a.var? id = some v → v.isTemp = true → last id = some x →
    ∃ r, v.isPinned = true ∧ v.storage = .register r ∧ m.reg r = x

section

open Allocator

variable {base : Int} {size : Nat} {K L : VarId → Prop} {last last' : VarId → Option Word} {a a' : Allocator}
  {m : Machine} {hand : List Reg}

/-- A named variable that is a number has a home. -/
theorem Variable.Numeric.home {v : Variable} (numeric : v.Numeric) (fits : v.Fits) (isNamed : v.isTemp = false) :
    ∃ home, v.home = some home := by
  have memory := fits.home isNamed
  rw [Variable.memory?, numeric.scalar] at memory
  exact Option.isSome_iff_exists.1 memory

/-- What is in memory is in the variable's home. -/
theorem Variable.Numeric.home_of_memory {v : Variable} {home : Home} (numeric : v.Numeric) (fits : v.Fits)
    (there : v.storage = .memory home) : v.home = some home := by
  have memory := fits.memory there
  rwa [Variable.memory?, numeric.scalar] at memory

/-- Where paths meet, a machine that agrees with the allocator has values where they meet. -/
theorem Agrees.rests (agrees : Agrees base size last a m) (sound : Sound hand a) (numeric : a.Numeric)
    (met : Met a) : Rests base size K last a m where
  zero := agrees.zero
  stack := agrees.stack
  memory := agrees.memory
  home {id v home x} _ found isNamed has written := by
    obtain ⟨place, there⟩ := met.named found isNamed
    cases ((numeric found).home_of_memory (sound.fits found) there).symm.trans has
    exact (agrees.holds found (numeric found).scalar written).memory there
  register {id v x} _ found isTemp written := by
    obtain ⟨pinned, r, there⟩ := met.temp found isTemp
    exact ⟨r, pinned, there, (agrees.holds found (numeric found).scalar written).register there⟩

namespace Rests

theorem mono (rests : Rests base size K last a m) (less : ∀ {id}, L id → K id) : Rests base size L last a m :=
  ⟨rests.zero, rests.stack, rests.memory, fun counts => rests.home (less counts),
    fun counts => rests.register (less counts)⟩

theorem congr (rests : Rests base size K last a m) (same : ∀ {id}, K id → last' id = last id) :
    Rests base size K last' a m :=
  ⟨rests.zero, rests.stack, rests.memory,
    fun counts found isNamed has written => rests.home counts found isNamed has ((same counts).symm.trans written),
    fun counts found isTemp written => rests.register counts found isTemp ((same counts).symm.trans written)⟩

/-- A home does not change, nor does the register that a temporary is pinned to. -/
theorem forth (rests : Rests base size K last a m) (sound : Sound hand a) (numeric : a.Numeric)
    (stands : Stands K a a') : Rests base size K last a' m where
  zero := rests.zero
  stack := by
    rw [stands.grows.pushed]
    exact rests.stack
  memory := rests.memory
  home {id v' home x} counts found isNamed has written := by
    obtain ⟨v, known, stays⟩ := stands.old counts found
    have isNamed' := stays.isTemp.symm.trans isNamed
    obtain ⟨place, had⟩ := (numeric known).home (sound.fits known) isNamed'
    cases (stays.home had).symm.trans has
    exact rests.home counts known isNamed' had written
  register {id v' x} counts found isTemp written := by
    obtain ⟨v, known, stays⟩ := stands.old counts found
    obtain ⟨r, pinned, there, holds⟩ := rests.register counts known (stays.isTemp.symm.trans isTemp) written
    obtain ⟨pinned', there'⟩ := stays.pinned pinned r there
    exact ⟨r, pinned', there', holds⟩

/-- So control may also go back to where paths met before. -/
theorem back (rests : Rests base size K last a' m) (met : Met a) (stands : Stands K a a') :
    Rests base size K last a m where
  zero := rests.zero
  stack := by
    rw [← stands.grows.pushed]
    exact rests.stack
  memory := rests.memory
  home {id v home x} counts found isNamed has written := by
    obtain ⟨v', known, stays⟩ := stands.stays counts found
    exact rests.home counts known (stays.isTemp.trans isNamed) (stays.home has) written
  register {id v x} counts found isTemp written := by
    obtain ⟨pinned, r, there⟩ := met.temp found isTemp
    obtain ⟨v', known, stays⟩ := stands.stays counts found
    obtain ⟨-, there'⟩ := stays.pinned pinned r there
    obtain ⟨s, -, there'', holds⟩ := rests.register counts known (stays.isTemp.trans isTemp) written
    cases there'.symm.trans there''
    exact ⟨r, pinned, there, holds⟩

/-- Where paths meet, the machine agrees with the allocator as far as values count. -/
theorem agrees (rests : Rests base size K last a m) (sound : Sound hand a) (numeric : a.Numeric)
    (inside : ∀ {id}, K id → id < a.vars.size) (met : Met a) : Agrees base size (valuesOf K last) a m where
  zero := rests.zero
  stack := rests.stack
  memory := rests.memory
  fresh {id} above := if_neg fun counts => Nat.not_lt.2 above (inside counts)
  ordinary found := (numeric found).ordinary
  holds {id v x} found _ written := by
    obtain ⟨counts, written⟩ := valuesOf_eq_some.1 written
    cases isTemp : v.isTemp with
    | false =>
      obtain ⟨home, there⟩ := met.named found isTemp
      refine ⟨fun register => ?_, fun memory => ?_, fun _ register => ?_⟩
      · cases there.symm.trans register
      · exact rests.home counts found isTemp ((numeric found).home_of_memory (sound.fits found) memory) written
      · cases there.symm.trans register
    | true =>
      obtain ⟨r, -, there, holds⟩ := rests.register counts found isTemp written
      refine ⟨fun register => ?_, fun memory => ?_, fun isNamed => ?_⟩
      · cases there.symm.trans register
        exact holds
      · cases there.symm.trans memory
      · cases isTemp.symm.trans isNamed

end Rests

end

end SmallC
