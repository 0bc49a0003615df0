import SmallC.Proofs.Allocation.Surroundings
import SmallC.Proofs.Allocation.Waiting

/-!
What a synchronization brings about. The named variables in registers go home, those that are newer than their homes
by a store; what is left in registers is pinned there, so that a temporary that was spilled comes back to a register
that was free. Behind that there is nothing left to do, so that a second synchronization changes nothing.
-/
namespace SmallC

open Alloc

/-- What is known about a temporary once it is pinned to the register that it is in, if it is in one. -/
def Variable.fixed (v : Variable) : Variable := { v with isPinned := v.isPinned || v.storage.register?.isSome }

@[simp]
theorem Variable.fixed_fixed (v : Variable) : v.fixed.fixed = v.fixed := by
  simp [fixed]

@[simp]
theorem Variable.storage_fixed (v : Variable) : v.fixed.storage = v.storage := rfl

@[simp]
theorem Variable.isTemp_fixed (v : Variable) : v.fixed.isTemp = v.isTemp := rfl

theorem Variable.fixed_of_pinned {v : Variable} (pinned : v.isPinned = true) : v.fixed = v := by
  unfold fixed
  rw [pinned, Bool.true_or, ← pinned]

/-- What is in no register is not pinned anew. -/
theorem Variable.fixed_of_away {v : Variable} (away : v.storage.register? = none) : v.fixed = v := by
  simp [fixed, away]

theorem Storage.away_of_isMemory {s : Storage} (inMemory : s.isMemory = true) : s.register? = none := by
  cases s <;> first | rfl | cases inMemory

/-- How a variable is loaded depends on the state only as far as the addresses of homes do. -/
theorem Variable.LoadedBy.congr {a a' : Allocator} {v : Variable} {r : Reg} {i : MachineInstr}
    (loaded : v.LoadedBy a' r i) (addresses : ∀ home, address? a' home = address? a home) : v.LoadedBy a r i := by
  cases loaded with
  | address array known => exact .address array ((addresses _).symm.trans known)
  | word scalar place known => exact .word scalar place ((addresses _).symm.trans known)

namespace Allocator

/-- Whatever a register holds is a temporary. -/
def Cleared (r : Reg) (a : Allocator) : Prop :=
  ∀ {id v}, a.var? id = some v → v.storage = .register r → v.isTemp = true

/-- Whatever is in a register is a temporary that is pinned to it. -/
def AllPinned (a : Allocator) : Prop :=
  ∀ {id v r}, a.var? id = some v → v.storage = .register r → v.isTemp = true ∧ v.isPinned = true

/-- The store that sends home what is in a register, if it is a named variable that is newer than its home. -/
def homecoming? (a : Allocator) (r : Reg) : Option MachineInstr :=
  ((a.ownerOf r).bind a.var?).bind fun v =>
    if v.isTemp = false ∧ v.isDirty = true then
      (v.home.bind (address? a)).map fun address => .sw r address.base address.offset
    else none

variable {a a' : Allocator} {id : VarId} {v : Variable} {r : Reg} {i : MachineInstr}

theorem homecoming?_eq_some : a.homecoming? r = some i ↔ ∃ id v home address, a.ownerOf r = some id ∧
    a.var? id = some v ∧ (v.isTemp = false ∧ v.isDirty = true) ∧ v.home = some home ∧
    address? a home = some address ∧ i = .sw r address.base address.offset := by
  simp only [homecoming?, Option.bind_eq_some_iff, Option.ite_none_right_eq_some, Option.map_eq_some_iff]
  constructor
  · rintro ⟨v, ⟨id, owned, found⟩, newer, address, ⟨home, has, known⟩, rfl⟩
    exact ⟨id, v, home, address, owned, found, newer, has, known, rfl⟩
  · rintro ⟨id, v, home, address, owned, found, newer, has, known, rfl⟩
    exact ⟨v, ⟨id, owned, found⟩, newer, address, ⟨home, has, known⟩, rfl⟩

/-- Noting about a variable what is known about it changes nothing. -/
theorem setVar_same (found : a.var? id = some v) : a.setVar id v = a := by
  have same : a.vars.setIfInBounds id (some v) = a.vars := by
    apply Array.ext_getElem?
    intro j
    rw [Array.getElem?_setIfInBounds]
    split
    · next here =>
      subst here
      rw [if_pos (var?_lt found)]
      unfold var? at found
      exact (Option.join_eq_some_iff.1 found).symm
    · rfl
  rw [setVar, same]

/-- What is sent home from a register depends on nothing but the variable in it. -/
theorem homecoming?_congr (owner : a'.ownerOf r = a.ownerOf r)
    (vars : ∀ id, a.ownerOf r = some id → a'.var? id = a.var? id)
    (addresses : ∀ home, address? a' home = address? a home) : a'.homecoming? r = a.homecoming? r := by
  unfold homecoming?
  rw [owner, show address? a' = address? a from funext addresses]
  cases owned : a.ownerOf r with
  | none => rfl
  | some id => rw [Option.bind_some, Option.bind_some, vars id owned]

end Allocator

namespace Alloc

open Allocator Machine

variable {w w' mid : Work} {id : VarId} {r : Reg} {v : Variable} {hand : List Reg} {x : Unit} {α : Type}

/-- What the passes of a loop bring about one after the other, and none of them undoes, holds behind it. -/
theorem Ran.forM_each {f : α → Alloc Unit} {xs : List α} {P : Work → Prop} {Q : α → Work → Prop}
    (ran : Ran (xs.forM f) w x w') (start : P w)
    (pass : ∀ y ∈ xs, ∀ w w', P w → Ran (f y) w () w' → P w' ∧ Q y w' ∧ ∀ z, Q z w → Q z w') :
    P w' ∧ ∀ y ∈ xs, Q y w' := by
  have whole : P w' ∧ (∀ z, Q z w → Q z w') ∧ ∀ y ∈ xs, Q y w' := by
    induction xs generalizing w with
    | nil =>
      rw [ran_forM_nil.1 ran]
      exact ⟨start, fun _ holds => holds, nofun⟩
    | cons head rest ih =>
      obtain ⟨mid, first, second⟩ := ran_forM_cons.1 ran
      obtain ⟨start', done, still⟩ := pass head List.mem_cons_self _ _ start first
      obtain ⟨after, still', done'⟩ := ih second start' fun y member => pass y (List.mem_cons_of_mem _ member)
      exact ⟨after, fun z holds => still' z (still z holds),
        List.forall_mem_cons.2 ⟨still' head done, done'⟩⟩
  exact ⟨whole.1, whole.2.2⟩

/-- A loop whose passes change nothing changes nothing. -/
theorem ran_forM_still {f : α → Alloc Unit} {xs : List α} (still : ∀ y ∈ xs, Ran (f y) w () w) :
    Ran (xs.forM f) w () w := by
  induction xs with
  | nil => exact ran_forM_nil.2 rfl
  | cons head rest ih =>
    exact ran_forM_cons.2 ⟨w, still head List.mem_cons_self, ih fun y member => still y (List.mem_cons_of_mem _ member)⟩

/-! ### Named variables go home -/

/-- A register whose variable was sent home holds a temporary if anything, and no other register comes to
hold a named variable. -/
theorem sendHome_clears (sound : Sound hand w.allocator) (ran : Ran (sendHome r) w x w') :
    Cleared r w'.allocator ∧ ∀ s, Cleared s w.allocator → Cleared s w'.allocator := by
  obtain ⟨unowned, rfl⟩ | ⟨id, v, owned, found, ⟨isTemp, rfl⟩ | ⟨isNamed, mid, wrote, parted⟩⟩ :=
    ran_sendHome ran
  · refine ⟨fun {i u} known there => ?_, fun _ cleared => cleared⟩
    cases unowned.symm.trans (sound.registers.owner.2 ⟨u, known, there⟩)
  · refine ⟨fun {i u} known there => ?_, fun _ cleared => cleared⟩
    cases owned.symm.trans (sound.registers.owner.2 ⟨u, known, there⟩)
    cases found.symm.trans known
    exact isTemp
  · obtain ⟨v', found', there⟩ := sound.registers.owner.1 owned
    cases found.symm.trans found'
    obtain ⟨home, memory⟩ := Option.isSome_iff_exists.1 ((sound.fits found).home isNamed)
    obtain ⟨vars, -⟩ := var?_goesHome found there wrote parted
    -- the variable is in memory now, and the others are where they were
    have before : ∀ {i t s}, w'.allocator.var? i = some t → t.storage = .register s →
        i ≠ id ∧ w.allocator.var? i = some t := by
      intro i t s known there'
      rw [vars] at known
      split at known
      · cases known
        cases (parted_stands memory).symm.trans there'
      · next apart => exact ⟨apart, known⟩
    refine ⟨fun known there' => ?_, fun s cleared {_ _} known there' => cleared (before known there').2 there'⟩
    obtain ⟨apart, known'⟩ := before known there'
    cases owned.symm.trans (sound.registers.owner.2 ⟨_, known', there'⟩)
    exact absurd rfl apart

/-- What sending variables home from some registers comes to. -/
structure SendsHome (rs : List Reg) (w w' : Work) : Prop where
  code : w'.code.toList = w.code.toList ++ rs.filterMap w.allocator.homecoming?
  newer : ∀ r ∈ rs, ∀ {id v}, w.allocator.ownerOf r = some id → w.allocator.var? id = some v → v.isTemp = false →
    v.isDirty = true → (w.allocator.homecoming? r).isSome
  owner : ∀ s ∉ rs, w'.allocator.ownerOf s = w.allocator.ownerOf s
  vars : ∀ s ∉ rs, ∀ id, w.allocator.ownerOf s = some id → w'.allocator.var? id = w.allocator.var? id
  address : ∀ home, address? w'.allocator home = address? w.allocator home
  temp : ∀ {id v}, v.isTemp = true → (w'.allocator.var? id = some v ↔ w.allocator.var? id = some v)

/-- What is to be sent home from other registers stays the same. -/
theorem SendsHome.others {rs : List Reg} (sends : SendsHome rs w w') {s : Reg} (other : s ∉ rs) :
    w'.allocator.homecoming? s = w.allocator.homecoming? s :=
  homecoming?_congr (sends.owner s other) (sends.vars s other) sends.address

/-- Nothing is sent home from a register that no named variable is in. -/
theorem SendsHome.nothing (empty : ∀ {id v}, w.allocator.ownerOf r = some id → w.allocator.var? id = some v →
    v.isTemp = true) : SendsHome [r] w w := by
  have nothing : w.allocator.homecoming? r = none := by
    refine Option.eq_none_iff_forall_ne_some.2 fun i sends => ?_
    obtain ⟨id, v, -, -, owned, found, ⟨isNamed, -⟩, -⟩ := homecoming?_eq_some.1 sends
    cases isNamed.symm.trans (empty owned found)
  refine ⟨by simp [nothing], fun s member {id v} owned found isNamed => ?_, fun _ _ => rfl, fun _ _ _ _ => rfl,
    fun _ => rfl, fun _ => Iff.rfl⟩
  rw [List.mem_singleton.1 member] at owned
  cases isNamed.symm.trans (empty owned found)

/-- A named variable that goes home is stored if its register is newer. -/
theorem goesHome_sends (sound : Sound hand w.allocator) (owned : w.allocator.ownerOf r = some id)
    (found : w.allocator.var? id = some v) (isNamed : v.isTemp = false)
    (wrote : (v.isDirty = true ∧ Ran (writeBack id r) w () mid) ∨ (v.isDirty = false ∧ mid = w))
    (parted : Ran (unbind id) mid () w') : SendsHome [r] w w' := by
  obtain ⟨v', found', there⟩ := sound.registers.owner.1 owned
  cases found.symm.trans found'
  obtain ⟨vars, -⟩ := var?_goesHome found there wrote parted
  have wrote' : ∃ u, mid.allocator.var? id = some u ∧ u.storage = .register r ∧
      mid.code.toList = w.code.toList ++ [r].filterMap w.allocator.homecoming? ∧
      (v.isDirty = true → (w.allocator.homecoming? r).isSome) ∧ mid.allocator.owner = w.allocator.owner ∧
      ∀ home, address? mid.allocator home = address? w.allocator home := by
    obtain ⟨dirty, wrote⟩ | ⟨clean, rfl⟩ := wrote
    · obtain ⟨u, home, address, found', has, known, rfl⟩ := ran_writeBack.1 wrote
      cases found.symm.trans found'
      have sends : w.allocator.homecoming? r = some (.sw r address.base address.offset) :=
        homecoming?_eq_some.2 ⟨id, v, home, address, owned, found, ⟨isNamed, dirty⟩, has, known, rfl⟩
      exact ⟨_, var?_setVar_self found _, there, by simp [sends], fun _ => by simp [sends], rfl,
        (Onward.setVar _ _ _).address?⟩
    · have nothing : mid.allocator.homecoming? r = none := by simp [homecoming?, owned, found, clean]
      exact ⟨v, found, there, by simp [nothing], fun dirty => (by cases clean.symm.trans dirty), rfl, fun _ => rfl⟩
  obtain ⟨u, known, there', code, newer, owner, addresses⟩ := wrote'
  obtain ⟨u', known', ⟨away, -⟩ | ⟨s, there'', rfl⟩⟩ := ran_unbind.1 parted
  · cases known.symm.trans known'
    cases (congrArg Storage.register? there').symm.trans away
  · cases known.symm.trans known'
    cases there'.symm.trans there''
    refine ⟨code, fun s member {i t} owned' known _ dirty => ?_, fun s other => ?_, fun s other i owned' => ?_,
      fun home => ((Onward.unbound _ _ _ _).address? home).trans (addresses home), fun {i t} isTemp => ?_⟩
    · obtain rfl := List.mem_singleton.1 member
      cases owned.symm.trans owned'
      cases found.symm.trans known
      exact newer dirty
    · refine ownerOf_unbound.trans ((if_neg fun same => other (List.mem_singleton.2 same)).trans ?_)
      simp only [ownerOf, owner]
    · refine (vars i).trans (if_neg ?_)
      rintro rfl
      obtain ⟨t, known, elsewhere⟩ := sound.registers.owner.1 owned'
      cases found.symm.trans known
      cases there.symm.trans elsewhere
      exact other List.mem_cons_self
    · rw [vars]
      split
      · next here =>
        subst here
        rw [found]
        have apart : ∀ u : Variable, u.isTemp = false → some u ≠ some t := by
          rintro u isNamed ⟨⟩
          cases isNamed.symm.trans isTemp
        exact iff_of_false (apart _ isNamed) (apart _ isNamed)
      · exact Iff.rfl

theorem sendHome_sends (sound : Sound hand w.allocator) (ran : Ran (sendHome r) w x w') : SendsHome [r] w w' := by
  obtain ⟨unowned, rfl⟩ | ⟨id, v, owned, found, ⟨isTemp, rfl⟩ | ⟨isNamed, mid, wrote, parted⟩⟩ :=
    ran_sendHome ran
  · exact .nothing fun owned => by cases unowned.symm.trans owned
  · refine .nothing fun owned' known => ?_
    cases owned.symm.trans owned'
    cases found.symm.trans known
    exact isTemp
  · exact goesHome_sends sound owned found isNamed wrote parted

theorem sendHomes_send {rs : List Reg} (sound : Sound hand w.allocator) (once : rs.Nodup)
    (ran : Ran (rs.forM sendHome) w x w') : SendsHome rs w w' := by
  induction rs generalizing w with
  | nil =>
    rw [ran_forM_nil.1 ran]
    exact ⟨(List.append_nil _).symm, nofun, fun _ _ => rfl, fun _ _ _ _ => rfl, fun _ => rfl, fun _ => Iff.rfl⟩
  | cons r rest ih =>
    obtain ⟨mid, first, second⟩ := ran_forM_cons.1 ran
    obtain ⟨absent, once⟩ := List.nodup_cons.1 once
    have head := sendHome_sends sound first
    have tail := ih (sendHome_sound sound first).1 once second
    have apart : ∀ s ∈ rest, s ∉ [r] := fun s member same => absent (List.mem_singleton.1 same ▸ member)
    have later : rest.filterMap mid.allocator.homecoming? = rest.filterMap w.allocator.homecoming? :=
      List.filterMap_congr fun s member => head.others (apart s member)
    refine ⟨?_, fun s member {i t} owned known isNamed dirty => ?_, fun s other => ?_, fun s other i owned => ?_,
      fun home => (tail.address home).trans (head.address home),
      fun isTemp => (tail.temp isTemp).trans (head.temp isTemp)⟩
    · rw [tail.code, head.code, later, List.append_assoc, ← List.filterMap_append]
      rfl
    · obtain rfl | member := List.mem_cons.1 member
      · exact head.newer s List.mem_cons_self owned known isNamed dirty
      · rw [← head.others (apart s member)]
        exact tail.newer s member ((head.owner s (apart s member)).trans owned)
          ((head.vars s (apart s member) i owned).trans known) isNamed dirty
    · rw [List.mem_cons, not_or] at other
      exact (tail.owner s other.2).trans (head.owner s fun here => other.1 (List.mem_singleton.1 here))
    · rw [List.mem_cons, not_or] at other
      have first := fun here => other.1 (List.mem_singleton.1 here)
      exact (tail.vars s other.2 i ((head.owner s first).trans owned)).trans (head.vars s first i owned)

/-! ### Temporaries are pinned -/

/-- What pinning temporaries comes to: nothing moves, and nothing is emitted. -/
theorem pins {ids : List VarId} (ran : Ran (ids.forM pin) w x w') :
    w'.code = w.code ∧ ∀ id, w'.allocator.var? id =
      if id ∈ ids then (w.allocator.var? id).map Variable.fixed else w.allocator.var? id := by
  induction ids generalizing w with
  | nil =>
    rw [ran_forM_nil.1 ran]
    exact ⟨rfl, fun id => (if_neg List.not_mem_nil).symm⟩
  | cons head rest ih =>
    obtain ⟨mid, first, second⟩ := ran_forM_cons.1 ran
    obtain ⟨v, found, rfl⟩ := ran_pin first
    obtain ⟨code, vars⟩ := ih second
    refine ⟨code, fun id => (vars id).trans ?_⟩
    have one : (on (fun a => a.setVar head v.fixed) w).allocator.var? id =
        if id = head then some v.fixed else w.allocator.var? id := var?_setVar found v.fixed id
    change (if id ∈ rest then Option.map Variable.fixed ((on (fun a => a.setVar head v.fixed) w).allocator.var? id)
      else (on (fun a => a.setVar head v.fixed) w).allocator.var? id) = _
    rw [one]
    by_cases here : id = head
    · simp [here, found]
    · simp [here]

/-- Where whatever is in a register is a temporary, pinning all temporaries pins it. -/
theorem pins_allPinned {ids : List VarId} (pins : ∀ id, w'.allocator.var? id =
      if id ∈ ids then (w.allocator.var? id).map Variable.fixed else w.allocator.var? id)
    (cleared : ∀ r, Cleared r w.allocator)
    (all : ∀ {id v}, w.allocator.var? id = some v → v.isTemp = true → id ∈ ids) : AllPinned w'.allocator := by
  intro id v r found there
  rw [pins] at found
  split at found
  · obtain ⟨u, known, rfl⟩ := Option.map_eq_some_iff.1 found
    have there' : u.storage = .register r := there
    have isTemp := cleared r known there'
    exact ⟨isTemp, by simp [Variable.fixed, there', Storage.register?]⟩
  · next absent => exact absurd (all found (cleared r found there)) absent

/-! ### What was spilled comes back -/

/-- Where everything in registers is pinned, a register is only taken that is free. -/
theorem take_of_allPinned (pinned : AllPinned w.allocator) (took : Ran take w r w') :
    w'.code = w.code ∧ ∀ other, w'.allocator.var? other = w.allocator.var? other := by
  rcases ran_take took with ⟨-, -, rfl⟩ | ⟨id, evicted, -, -⟩
  · exact ⟨rfl, fun _ => rfl⟩
  · obtain ⟨v, -, -, found, there, loose, -⟩ := ran_evict evicted
    cases (pinned found there).2.symm.trans loose

/-- What bringing a temporary back comes to where everything in registers is pinned: it is loaded if it was spilled,
it is pinned, and nothing else moves. -/
structure BringsBack (id : VarId) (v : Variable) (w w' : Work) : Prop where
  pinned : AllPinned w'.allocator
  back : ∃ v', w'.allocator.var? id = some v' ∧ v'.storage.isMemory = false
  still : v.storage.isMemory = false → w'.allocator.var? id = some v
  others : ∀ other, other ≠ id → w'.allocator.var? other = w.allocator.var? other
  code : ∃ reloads, w'.code.toList = w.code.toList ++ reloads ∧
    ∀ i ∈ reloads, v.storage.isMemory = true ∧ ∃ r, v.LoadedBy w.allocator r i

theorem bringBack_brings (sound : Sound hand w.allocator) (pinned : AllPinned w.allocator)
    (found : w.allocator.var? id = some v) (isTemp : v.isTemp = true) (ran : Ran (bringBack id) w x w') :
    BringsBack id v w w' := by
  obtain ⟨u, found', ⟨elsewhere, rfl⟩ | ⟨inMemory, r, mid, loaded, u', took, load, known, rfl⟩⟩ :=
    ran_bringBack ran
  · cases found.symm.trans found'
    exact ⟨pinned, ⟨v, found, elsewhere⟩, fun _ => found, fun _ _ => rfl, [], (List.append_nil _).symm, nofun⟩
  · cases found.symm.trans found'
    obtain ⟨found', rfl⟩ := known_loaded sound found (Storage.away_of_isMemory inMemory) took load known
    obtain ⟨code, same⟩ := take_of_allPinned pinned took
    obtain ⟨i, loads, rfl⟩ := loadedBy found' load
    have vars : ∀ other, ((mid.allocator.bound id r u').setVar id
        { u' with storage := .register r, isPinned := true }).var? other =
          if other = id then some { u' with storage := .register r, isPinned := true }
          else w.allocator.var? other := by
      intro other
      rw [var?_bound_setVar found', same]
    have addresses : ∀ home, address? mid.allocator home = address? w.allocator home :=
      (Onward.of_keeps (takes sound took).keeps).address?
    refine ⟨fun {j t s} known' there => ?_, ⟨_, (vars id).trans (if_pos rfl), rfl⟩, fun elsewhere => ?_,
      fun other apart => (vars other).trans (if_neg apart), [i], ?_, fun j member => ?_⟩
    · have known'' := (vars j).symm.trans known'
      split at known''
      · cases known''
        exact ⟨isTemp, rfl⟩
      · exact pinned known'' there
    · cases inMemory.symm.trans elsewhere
    · rw [code_on, code_push, Array.toList_push, code]
    · obtain rfl := List.mem_singleton.1 member
      exact ⟨inMemory, r, loads.congr addresses⟩

/-- What bringing temporaries back comes to. -/
structure BringAllBack (ids : List VarId) (w w' : Work) : Prop where
  pinned : AllPinned w'.allocator
  back : ∀ id ∈ ids, ∃ v, w'.allocator.var? id = some v ∧ v.storage.isMemory = false
  still : ∀ {id v}, w.allocator.var? id = some v → v.storage.isMemory = false → w'.allocator.var? id = some v
  code : ∃ reloads, w'.code.toList = w.code.toList ++ reloads ∧ ∀ i ∈ reloads, ∃ id v r,
    w.allocator.var? id = some v ∧ v.isTemp = true ∧ v.storage.isMemory = true ∧ v.LoadedBy w.allocator r i

theorem bringBacks {ids : List VarId} (sound : Sound hand w.allocator) (temps : AllTemps ids w.allocator)
    (pinned : AllPinned w.allocator) (ran : Ran (ids.forM bringBack) w x w') : BringAllBack ids w w' := by
  induction ids generalizing w with
  | nil =>
    rw [ran_forM_nil.1 ran]
    exact ⟨pinned, nofun, fun found _ => found, [], (List.append_nil _).symm, nofun⟩
  | cons head rest ih =>
    obtain ⟨mid, first, second⟩ := ran_forM_cons.1 ran
    obtain ⟨v, found, isTemp⟩ := temps head List.mem_cons_self
    obtain ⟨sound', keeps⟩ := bringBack_sound sound found isTemp first
    have one := bringBack_brings sound pinned found isTemp first
    have all := ih sound' (fun id member => temps.keeps keeps id (List.mem_cons_of_mem _ member)) one.pinned second
    have still : ∀ {i u}, w.allocator.var? i = some u → u.storage.isMemory = false →
        mid.allocator.var? i = some u := by
      intro i u known elsewhere
      by_cases here : i = head
      · subst here
        cases found.symm.trans known
        exact one.still elsewhere
      · exact (one.others i here).trans known
    refine ⟨all.pinned, fun id member => ?_, fun known elsewhere => all.still (still known elsewhere) elsewhere, ?_⟩
    · obtain rfl | later := List.mem_cons.1 member
      · obtain ⟨u, known, elsewhere⟩ := one.back
        exact ⟨u, all.still known elsewhere, elsewhere⟩
      · exact all.back id later
    · obtain ⟨code, emitted, loads⟩ := one.code
      obtain ⟨more, emitted', loads'⟩ := all.code
      refine ⟨code ++ more, by rw [emitted', emitted, List.append_assoc], fun i member => ?_⟩
      obtain here | later := List.mem_append.1 member
      · obtain ⟨inMemory, r, loaded⟩ := loads i here
        exact ⟨head, v, r, found, isTemp, inMemory, loaded⟩
      · obtain ⟨id, u, r, known, isTemp', inMemory, loaded⟩ := loads' i later
        have apart : id ≠ head := by
          rintro rfl
          obtain ⟨u', known', elsewhere⟩ := one.back
          cases known.symm.trans known'
          cases inMemory.symm.trans elsewhere
        exact ⟨id, u, r, (one.others id apart).symm.trans known, isTemp', inMemory,
          loaded.congr (Onward.of_keeps keeps).address?⟩

/-! ### All of it -/

/-- What a synchronization comes to. -/
structure Synchronizes (w w' : Work) : Prop where
  newer : ∀ {id v r}, w.allocator.ownerOf r = some id → w.allocator.var? id = some v → v.isTemp = false →
    v.isDirty = true → (w.allocator.homecoming? r).isSome
  pinned : AllPinned w'.allocator
  back : ∀ {id v}, w'.allocator.var? id = some v → v.isTemp = true → v.storage.isMemory = false
  still : ∀ {id v}, w.allocator.var? id = some v → v.isTemp = true → v.storage.isMemory = false →
    w'.allocator.var? id = some v.fixed
  code : ∃ reloads, w'.code.toList = w.code.toList ++ (Reg.all.filterMap w.allocator.homecoming? ++ reloads) ∧
    ∀ i ∈ reloads, ∃ id v r, w.allocator.var? id = some v ∧ v.isTemp = true ∧ v.storage.isMemory = true ∧
      v.LoadedBy w.allocator r i

/-- All temporaries are listed. -/
theorem tempIds_all {ids : List VarId} (names : Names w.allocator) (ran : Ran tempIds w ids w')
    (found : w.allocator.var? id = some v) (isTemp : v.isTemp = true) : id ∈ ids := by
  rw [(ran_look.1 ran).1, List.mem_mergeSort]
  exact List.mem_map.2 ⟨_, names.temp found isTemp, rfl⟩

theorem synchronizes (sound : Sound hand w.allocator) (ran : Ran sync w x w') : Synchronizes w w' := by
  obtain ⟨home, ids, pinned, sent, listed, first, second⟩ := ran_sync ran
  obtain ⟨⟨sound', onward⟩, cleared⟩ := sent.forM_each
    (P := fun mid => Sound hand mid.allocator ∧ Onward w.allocator mid.allocator)
    (Q := fun r mid => Cleared r mid.allocator) ⟨sound, .refl _⟩ fun r _ mid mid' before ran =>
      ⟨⟨(sendHome_sound before.1 ran).1,
        before.2.trans (does_sendHome (K := fun _ => False) (T := fun _ => False) before.1 ran).onward⟩,
        sendHome_clears before.1 ran⟩
  have sends := sendHomes_send sound Reg.nodup_all sent
  obtain ⟨temps, -⟩ := mem_tempIds sound'.names listed
  have all : ∀ {id v}, home.allocator.var? id = some v → v.isTemp = true → id ∈ ids :=
    fun found isTemp => tempIds_all sound'.names listed found isTemp
  obtain ⟨quiet, pins⟩ := pins first
  obtain ⟨sound'', keeps⟩ := temps_forM sound' temps pin_sound first
  have allPinned : AllPinned pinned.allocator := pins_allPinned pins (fun r => cleared r (Reg.mem_all r)) all
  have brings := bringBacks sound'' (temps.keeps keeps) allPinned second
  refine ⟨fun {id v r} => sends.newer r (Reg.mem_all r), brings.pinned, fun {id v} found isTemp => ?_,
    fun {id v} found isTemp elsewhere => ?_, ?_⟩
  · have member : id ∈ ids := by
      obtain ⟨-, keeps'⟩ := temps_forM sound'' (temps.keeps keeps) bringBack_sound second
      cases before : home.allocator.var? id with
      | none => cases ((keeps.trans keeps').absent before).symm.trans found
      | some u =>
        obtain ⟨v', found', same⟩ := (keeps.trans keeps').same before
        cases found.symm.trans found'
        exact all before (same.isTemp.symm.trans isTemp)
    obtain ⟨u, known, elsewhere⟩ := brings.back id member
    cases found.symm.trans known
    exact elsewhere
  · have known := (sends.temp isTemp).2 found
    refine brings.still (v := v.fixed) ((pins id).trans ?_) elsewhere
    rw [if_pos (all known isTemp), known]
    rfl
  · obtain ⟨reloads, emitted, loads⟩ := brings.code
    refine ⟨reloads, ?_, fun i member => ?_⟩
    · rw [emitted, quiet, sends.code, List.append_assoc]
    · obtain ⟨id, v, r, known, isTemp, inMemory, loaded⟩ := loads i member
      have addresses : ∀ h, address? pinned.allocator h = address? w.allocator h :=
        (onward.trans (.of_keeps keeps)).address?
      rw [pins] at known
      have known' : home.allocator.var? id = some v := by
        split at known
        · obtain ⟨u, known', rfl⟩ := Option.map_eq_some_iff.1 known
          rwa [Variable.fixed_of_away (Storage.away_of_isMemory (s := u.storage) inMemory)]
        · exact known
      exact ⟨id, v, r, (sends.temp isTemp).1 known', isTemp, inMemory, loaded.congr addresses⟩

/-! ### Once more -/

/-- A synchronization of a state that is synchronized succeeds and changes nothing. -/
theorem sync_still (names : Names w.allocator) (owners : Owners w.allocator) (pinned : AllPinned w.allocator)
    (back : ∀ {id v}, w.allocator.var? id = some v → v.isTemp = true → v.storage.isMemory = false) :
    Ran sync w () w := by
  have home : ∀ r ∈ Reg.all, Ran (sendHome r) w () w := by
    intro r _
    simp only [sendHome, ran_bind, ran_look, and_assoc, exists_and_left, exists_eq_left]
    cases owned : w.allocator.ownerOf r with
    | none => exact ran_pure.2 ⟨rfl, rfl⟩
    | some id =>
      obtain ⟨v, found, there⟩ := owners.owner.1 owned
      simp [ran_ite, found, (pinned found there).1]
  have pins : ∀ id v, w.allocator.var? id = some v → v.isTemp = true → Ran (pin id) w () w := by
    intro id v found isTemp
    refine ran_update.2 ⟨v, found, ?_⟩
    have same : v.fixed = v := by
      cases there : v.storage with
      | register r => exact Variable.fixed_of_pinned (pinned found there).2
      | memory | saved => exact Variable.fixed_of_away (by rw [there]; rfl)
    change w = on (fun a => a.setVar id v.fixed) w
    rw [same, on, setVar_same found]
  have brings : ∀ id v, w.allocator.var? id = some v → v.isTemp = true → Ran (bringBack id) w () w := by
    intro id v found isTemp
    simp [bringBack, found, back found isTemp]
  have temps : ∀ id ∈ (w.allocator.temps.map Prod.snd).mergeSort, ∃ v, w.allocator.var? id = some v ∧ v.isTemp = true :=
    (mem_tempIds names (ran_look.2 ⟨rfl, rfl⟩)).1
  have listed : ∀ {f : VarId → Alloc Unit}, (∀ id v, w.allocator.var? id = some v → v.isTemp = true →
      Ran (f id) w () w) → Ran ((w.allocator.temps.map Prod.snd).mergeSort.forM f) w () w := fun still =>
    ran_forM_still fun id member => by
      obtain ⟨v, found, isTemp⟩ := temps id member
      exact still id v found isTemp
  refine ran_bind.2 ⟨(), w, ran_forM_still home, ran_bind.2 ⟨_, w, ran_look.2 ⟨rfl, rfl⟩, ?_⟩⟩
  exact ran_bind.2 ⟨(), w, listed pins, listed brings⟩

end Alloc

namespace Allocator

open Alloc

variable {w w' : Work}

/-- A synchronization that succeeds brings about a normal form. No named variable owns a register behind it. The code
that it emits first sends home every register that is newer than the home of the named variable in it, and after that
only reloads temporaries that were spilled. Every temporary that no pending call brings back is pinned to a register,
and one that was in a register before is still there. A second synchronization emits nothing and changes nothing. -/
theorem sync_reaches_normal_form (reached : Reached w.allocator) (ran : Ran sync w () w') :
    (∀ r id, w'.allocator.ownerOf r = some id → ∃ v, w'.allocator.var? id = some v ∧ v.isTemp = true) ∧
    (∃ stores reloads, w'.code.toList = w.code.toList ++ (stores ++ reloads) ∧
      (∀ id v r, w.allocator.var? id = some v → v.isTemp = false → v.isDirty = true → v.storage = .register r →
        ∃ home address, v.home = some home ∧ address? w.allocator home = some address ∧
          .sw r address.base address.offset ∈ stores) ∧
      (∀ i ∈ stores, ∃ id v r home address, w.allocator.var? id = some v ∧ v.isTemp = false ∧ v.isDirty = true ∧
        v.storage = .register r ∧ v.home = some home ∧ address? w.allocator home = some address ∧
        i = .sw r address.base address.offset) ∧
      ∀ i ∈ reloads, ∃ id v r, w.allocator.var? id = some v ∧ v.isTemp = true ∧ v.storage.isMemory = true ∧
        v.LoadedBy w.allocator r i) ∧
    (∀ id v, w'.allocator.var? id = some v → v.isTemp = true → ¬ w'.allocator.Awaited id →
      v.isPinned = true ∧ ∃ r, v.storage = .register r) ∧
    (∀ id v r, w.allocator.var? id = some v → v.isTemp = true → v.storage = .register r →
      ∃ v', w'.allocator.var? id = some v' ∧ v'.isTemp = true ∧ v'.storage = .register r) ∧
    Ran sync w' () w' := by
  have sound := reached.inOrder.sound
  have sound' := (sync_sound sound ran).1
  obtain ⟨code, -, deeds⟩ := does_sync (K := fun _ => False) (T := Reg.Carries) sound (fun _ => .inl) ran
  have expected : Expected w'.allocator :=
    reached.expected.hastens (deeds.hastens reached.tidy fun _ carries => carries) deeds.onward.calls
  have synced := synchronizes sound ran
  obtain ⟨reloads, emitted, loads⟩ := synced.code
  refine ⟨fun r id owned => ?owners, ⟨_, reloads, emitted, fun id v r found isNamed dirty there => ?stored,
    fun i member => ?only, loads⟩, fun id v found isTemp kept => ?pinned, fun id v r found isTemp there => ?there,
    sync_still sound'.names sound'.registers.toOwners synced.pinned synced.back⟩
  case owners =>
    obtain ⟨v, found, there⟩ := sound'.registers.owner.1 owned
    exact ⟨v, found, (synced.pinned found there).1⟩
  case stored =>
    have owned := sound.registers.owner.2 ⟨v, found, there⟩
    obtain ⟨i, sends⟩ := Option.isSome_iff_exists.1 (synced.newer owned found isNamed dirty)
    obtain ⟨j, u, home, address, owned', found', -, has, known, rfl⟩ := homecoming?_eq_some.1 sends
    cases owned.symm.trans owned'
    cases found.symm.trans found'
    exact ⟨home, address, has, known, List.mem_filterMap.2 ⟨r, Reg.mem_all r, sends⟩⟩
  case only =>
    obtain ⟨r, -, sends⟩ := List.mem_filterMap.1 member
    obtain ⟨id, v, home, address, owned, found, ⟨isNamed, dirty⟩, has, known, rfl⟩ := homecoming?_eq_some.1 sends
    obtain ⟨u, found', there⟩ := sound.registers.owner.1 owned
    cases found.symm.trans found'
    exact ⟨id, v, r, home, address, found, isNamed, dirty, there, has, known, rfl⟩
  case pinned =>
    cases there : v.storage with
    | register r => exact ⟨(synced.pinned found there).2, r, rfl⟩
    | memory home => cases (congrArg Storage.isMemory there).symm.trans (synced.back found isTemp)
    | saved slot => exact absurd (expected id v slot found there) kept
  case there =>
    exact ⟨v.fixed, synced.still found isTemp (congrArg Storage.isMemory there), isTemp, there⟩

/-- Operations that come to deeds lead from one reached state without pending calls to another, where they are permitted
as long as no call is pending. -/
theorem Reached.of_runAll {ops : List Operation} (reached : Reached w.allocator) (idle : w.allocator.calls = [])
    (quiet : ∀ op ∈ ops, op.IsDeed ∧ ∀ a, a.calls = [] → op.Permitted a) (ran : runAll ops w = some w') :
    Reached w'.allocator := by
  induction ops generalizing w with
  | nil =>
    cases ran
    exact reached
  | cons op ops ih =>
    rw [runAll] at ran
    split at ran
    · next x mid did =>
      obtain ⟨deed, permitted⟩ := quiet op List.mem_cons_self
      obtain ⟨code, -, deeds⟩ := does_operation op reached.inOrder.sound (permitted _ idle) deed did
      exact ih (reached.step op (permitted _ idle) did) (deeds.onward.calls.trans idle)
        (fun op member => quiet op (List.mem_cons_of_mem _ member)) ran
    · cases ran

theorem Reached.afterAll {ops : List Operation} (quiet : ∀ op ∈ ops, op.IsDeed ∧ ∀ a, a.calls = [] → op.Permitted a)
    (succeeds : (runAll ops ⟨Allocator.initial, #[]⟩).isSome) :
    Reached (Allocator.afterAll ops ⟨Allocator.initial, #[]⟩).allocator := by
  obtain ⟨w', ran⟩ := Option.isSome_iff_exists.1 succeeds
  rw [Allocator.afterAll, ran]
  exact Reached.of_runAll (w := ⟨Allocator.initial, #[]⟩) .initial rfl quiet ran

/-- All registers of the pool but one are reserved, so that the second temporary drives out the first, whose register
then goes to a variable that is newer than its home. -/
def crowding : List Operation := (Reg.pool.drop 1).map .reserve ++
  [.addTemp, .releaseHolds, .addTemp, .releaseHolds, .removeIfTemp (Alloc.tempName 1), .addVariable "x" none,
    .releaseHolds]

def crowded : Work := afterAll crowding ⟨initial, #[]⟩

theorem sync_reaches_normal_form_crowded :
    (crowded.allocator.var? 0).map Variable.storage = some (.memory (.global 0)) ∧
      ∃ w', Ran sync crowded () w' ∧ Ran sync w' () w' ∧
        w'.code.toList.drop crowded.code.size = [.sw ⟨8⟩ Reg.zero 1, .lw ⟨8⟩ Reg.zero 0] := by
  have reached : Reached crowded.allocator := by
    obtain ⟨w', ran⟩ := Option.isSome_iff_exists.1 (show (runAll crowding ⟨initial, #[]⟩).isSome by decide +kernel)
    rw [crowded, Allocator.afterAll, ran]
    refine Reached.of_runAll (w := ⟨initial, #[]⟩) .initial rfl (fun op member => ?_) ran
    simp only [crowding, List.mem_append, List.mem_map, List.mem_cons, List.not_mem_nil, or_false] at member
    rcases member with ⟨r, -, rfl⟩ | rfl | rfl | rfl | rfl | rfl | rfl | rfl
    all_goals first
      | exact ⟨trivial, fun _ idle => idle⟩
      | exact ⟨trivial, fun _ idle => ⟨idle, fun _ given => by cases given⟩⟩
  have ran : Ran Operation.sync.act crowded () (afterAll [.sync] crowded) := ran_afterAll (by decide +kernel)
  exact ⟨by decide +kernel, _, ran, (sync_reaches_normal_form reached ran).2.2.2.2, by decide +kernel⟩

end Allocator

end SmallC
