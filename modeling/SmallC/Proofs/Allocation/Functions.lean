import SmallC.Proofs.Allocation.Blocks

/-!
Function bodies. A body starts with every variable at home and every register of the pool free. At its
end the registers that it found come back, with the variables that were in them.
-/
namespace SmallC

namespace Allocator

variable {a a' : Allocator} {id : VarId} {v : Variable} {r : Reg} {hand : List Reg}

/-- At the root there are no levels but the root's own. -/
theorem Names.depth_zero (names : Names a) (root : a.inner = []) (found : a.var? id = some v)
    (isNamed : v.isTemp = false) : v.depth = 0 := by
  obtain ⟨l, level, -⟩ := names.named found isNamed
  have inside := (List.getElem?_eq_some_iff.1 level).1
  rw [length_levels, depth, root, List.length_nil] at inside
  omega

/-- Whether every variable is a named one. -/
def AllNamed (a : Allocator) : Prop := ∀ {id v}, a.var? id = some v → v.isTemp = false

theorem allNamed_of_no_temps (names : Names a) (none : a.temps = []) : AllNamed a := by
  intro id v found
  cases isTemp : v.isTemp with
  | false => rfl
  | true =>
    have standing := names.temp found isTemp
    rw [none] at standing
    cases standing

/-- Where all variables are those of the root, their homes are global. -/
theorem Homes.of_root (homes : Homes a) (names : Names a) (named : AllNamed a) (root : a.inner = [])
    (vars : ∀ id, a'.var? id = a.var? id) (globals : a'.globals = a.globals) : Homes a' := by
  refine ⟨fun {i w h} found has => ?_, fun {i j w w' h} found found' => ?_,
    fun {i w h} found => ?_⟩
  · rw [vars] at found
    obtain ⟨address, rfl⟩ := homes.root found (named found)
      (names.depth_zero root found (named found)) has
    have granted := homes.granted found has
    unfold Grants at granted ⊢
    rwa [globals]
  · rw [vars] at found found'
    exact homes.apart found found'
  · rw [vars] at found
    exact homes.root found

/-- What a register holds, with whether the register is newer than the home. -/
def binding? (a : Allocator) (r : Reg) : Option (VarId × Reg × Bool) :=
  (a.ownerOf r).bind fun id => (a.var? id).map fun v => (id, r, v.isDirty)

/-- The registers as they are put aside for the length of a function body. -/
def outer (a : Allocator) : Outside := ⟨Reg.all.filterMap a.binding?, a.free, a.recency, a.pushed⟩

theorem binding?_of_owner (owners : Owners a) (owned : a.ownerOf r = some id) :
    ∃ v, a.var? id = some v ∧ v.storage = .register r ∧ a.binding? r = some (id, r, v.isDirty) := by
  obtain ⟨v, found, there⟩ := owners.owner.1 owned
  exact ⟨v, found, there, by simp [binding?, owned, found]⟩

theorem outer_ids (owners : Owners a) :
    a.outer.bindings.map Prod.fst = Reg.all.filterMap a.ownerOf := by
  rw [outer, List.map_filterMap]
  refine List.filterMap_congr fun r _ => ?_
  cases owned : a.ownerOf r with
  | none => simp [binding?, owned]
  | some id =>
    obtain ⟨v, -, -, binding⟩ := binding?_of_owner owners owned
    rw [binding]
    rfl

theorem outer_registers (owners : Owners a) :
    (a.outer.bindings.map fun b => b.2.1) = Reg.all.filter fun r => (a.ownerOf r).isSome := by
  rw [outer, List.map_filterMap, ← List.filterMap_eq_filter]
  refine List.filterMap_congr fun r _ => ?_
  cases owned : a.ownerOf r with
  | none => simp [binding?, owned, Option.guard]
  | some id =>
    obtain ⟨v, -, -, binding⟩ := binding?_of_owner owners owned
    rw [binding]
    simp [owned, Option.guard]

/-- What is put aside of a register at the start of a function body: the variable that the register holds, with the
register that the variable is in and whether it is newer than the home. -/
def tenant? (a : Allocator) (r : Reg) : Option (VarId × Reg × Bool) :=
  (a.ownerOf r).bind fun id => (a.var? id).bind fun v => v.storage.register?.map fun s => (id, s, v.isDirty)

/-- What a function body puts aside. -/
def putAside (a : Allocator) : Outside := ⟨Reg.all.filterMap a.tenant?, a.free, a.recency, a.pushed⟩

theorem putAside_eq_outer (owners : Owners a) : a.putAside = a.outer := by
  have same : ∀ r, a.tenant? r = a.binding? r := by
    intro r
    cases owned : a.ownerOf r with
    | none => simp [tenant?, binding?, owned]
    | some id =>
      obtain ⟨v, found, there, binding⟩ := binding?_of_owner owners owned
      rw [binding]
      simp [tenant?, owned, found, there, Storage.register?]
  rw [putAside, outer]
  exact congrArg (Outside.mk · a.free a.recency a.pushed) (List.filterMap_congr fun r _ => same r)

theorem mem_outer_ids (owners : Owners a) :
    id ∈ a.outer.bindings.map Prod.fst ↔ ∃ r, a.ownerOf r = some id := by
  rw [outer_ids owners, List.mem_filterMap]
  exact ⟨fun ⟨r, _, owned⟩ => ⟨r, owned⟩, fun ⟨r, owned⟩ => ⟨r, Reg.mem_all r, owned⟩⟩

theorem count_outer (owners : Owners a) (r : Reg) :
    (a.outer.bindings.map fun b => b.2.1).count r = a.holds r := by
  rw [outer_registers owners, Reg.count_filter_all, holds]

/-- What is put aside accounts for all registers of the pool. -/
theorem outer_accounted (registers : Registers [] a) (unreserved : a.reserved = [])
    (idle : a.calls = []) : a.outer.Accounted := by
  have places : ∀ r, a.places r =
      a.outer.free.count r + (a.outer.bindings.map fun b => b.2.1).count r := by
    intro r
    rw [count_outer registers.toOwners, Allocator.places, unreserved, parked, idle]
    rfl
  refine ⟨?_, fun r => ?_, fun {r} inPool => ?_, registers.freePool, fun {id} => ?_⟩
  · rw [outer_ids registers.toOwners]
    exact Reg.nodup_all.filterMap fun r s id owned owned' =>
      registers.toOwners.same_register owned owned'
  · exact places r ▸ registers.once r
  · exact places r ▸ registers.pool inPool
  · rw [mem_outer_ids registers.toOwners]
    exact registers.recent

end Allocator

namespace Alloc

open Allocator

variable {w w' : Work} {id : VarId} {r : Reg} {hand : List Reg}

/-! ### The start of a body -/

theorem ran_outsideBinding {x : Option (VarId × Reg × Bool)} (ran : Ran (outsideBinding? r) w x w') :
    w' = w ∧ x = w.allocator.tenant? r ∧
      ∀ {id v}, w.allocator.ownerOf r = some id → w.allocator.var? id = some v → v.isTemp = false := by
  simp only [outsideBinding?, ran_bind, ran_look, and_assoc, exists_and_left, exists_eq_left] at ran
  cases owned : w.allocator.ownerOf r with
  | none =>
    simp only [owned, ran_pure] at ran
    refine ⟨ran.2, by simp [tenant?, owned, ran.1], fun same => ?_⟩
    cases same
  | some id =>
    simp only [owned, ran_bind, ran_known, ran_ite, ran_throw, ran_pure, and_assoc, exists_and_left,
      exists_eq_left, and_false, false_and, exists_false, false_or] at ran
    obtain ⟨v, found, isNamed, rfl, rfl⟩ := ran
    refine ⟨rfl, by simp [tenant?, owned, found], fun same known => ?_⟩
    cases same
    cases found.symm.trans known
    exact eq_false_of_ne_true isNamed

theorem ran_outsideBindings {rs : List Reg} {xs : List (Option (VarId × Reg × Bool))}
    (ran : Ran (rs.mapM outsideBinding?) w xs w') : w' = w ∧ xs = rs.map w.allocator.tenant? ∧
      ∀ r ∈ rs, ∀ {id v}, w.allocator.ownerOf r = some id → w.allocator.var? id = some v → v.isTemp = false := by
  induction rs generalizing xs with
  | nil =>
    obtain ⟨rfl, rfl⟩ := ran_mapM_nil.1 ran
    exact ⟨rfl, rfl, nofun⟩
  | cons r rs ih =>
    obtain ⟨y, mid, ys, first, second, rfl⟩ := ran_mapM_cons.1 ran
    obtain ⟨rfl, rfl, isNamed⟩ := ran_outsideBinding first
    obtain ⟨rfl, rfl, others⟩ := ih second
    refine ⟨rfl, rfl, fun s member => ?_⟩
    rcases List.mem_cons.1 member with rfl | later
    · exact isNamed
    · exact others s later

/-- What starting a function body comes to, whatever the owners of registers are: no temporary is in a register,
what is in registers is put aside and parted from them, and all of the pool is free. -/
theorem ran_enterFunction_any {x : Unit} (ran : Ran enterFunction w x w') :
    w.allocator.frame = none ∧
      (∀ {r id v}, w.allocator.ownerOf r = some id → w.allocator.var? id = some v → v.isTemp = false) ∧ ∃ parted,
      Ran (w.allocator.putAside.bindings.forM fun binding => unbind binding.1)
        (on (fun a => { a with outside := some w.allocator.putAside }) w) () parted ∧
      w' = on (fun a => { a with
        free := Reg.pool
        recency := Recency.empty
        pushed := 0
        frame := some 0
        inner := Level.empty true :: a.inner }) parted := by
  simp only [enterFunction, ran_bind, ran_look, ran_ite, ran_throw, ran_change, and_assoc,
    exists_and_left, exists_eq_left, false_and, exists_false, and_false, false_or] at ran
  obtain ⟨outside, x, mid, looked, _, _, parted, unbound, rfl⟩ := ran
  obtain ⟨rfl, rfl, isNamed⟩ := ran_outsideBindings looked
  rw [List.filterMap_map, Function.id_comp] at unbound
  exact ⟨Option.not_isSome_iff_eq_none.1 outside, isNamed _ (Reg.mem_all _), parted, unbound, rfl⟩

/-- What starting a function body comes to: the registers are put aside, everything in them is parted
from them, and all of the pool is free. -/
theorem ran_enterFunction {x : Unit} (owners : Owners w.allocator)
    (ran : Ran enterFunction w x w') :
    w.allocator.frame = none ∧ ∃ parted,
      Ran (w.allocator.outer.bindings.forM fun binding => unbind binding.1)
        (on (fun a => { a with outside := some w.allocator.outer }) w) () parted ∧
      w' = on (fun a => { a with
        free := Reg.pool
        recency := Recency.empty
        pushed := 0
        frame := some 0
        inner := Level.empty true :: a.inner }) parted := by
  obtain ⟨outside, -, started⟩ := ran_enterFunction_any ran
  rw [putAside_eq_outer owners] at started
  exact ⟨outside, started⟩

/-- What parting named variables from their registers does. -/
structure Parts (ids : List VarId) (a a' : Allocator) : Prop where
  settled : Settled [] a'
  named : AllNamed a'
  left : ∀ {s id}, a'.ownerOf s = some id → a.ownerOf s = some id ∧ id ∉ ids
  rest : a' = { a with
    vars := a'.vars, owner := a'.owner, free := a'.free, recency := a'.recency }

theorem parts_one {x : Unit} (settled : Settled [] w.allocator) (named : AllNamed w.allocator)
    (ran : Ran (unbind id) w x w') : Parts [id] w.allocator w'.allocator := by
  obtain ⟨v, found, ⟨away, rfl⟩ | ⟨r, there, rfl⟩⟩ := ran_unbind.1 ran
  · refine ⟨settled, named, fun {s i} owned => ⟨owned, ?_⟩, rfl⟩
    rw [List.mem_singleton]
    rintro rfl
    obtain ⟨v', found', there⟩ := settled.registers.owner.1 owned
    cases found.symm.trans found'
    rw [there] at away
    cases away
  · have fits := settled.fits found
    obtain ⟨home, memory⟩ := Option.isSome_iff_exists.1 (fits.home (named found))
    refine ⟨settled.unbound found there memory (fits.unpinned (named found)), fun {i u} known => ?_,
      fun {s i} owned => ?_, rfl⟩
    · rw [allocator_on, var?_unbound found] at known
      split at known
      · cases known
        have isNamed := named found
        exact isNamed
      · exact named known
    · rw [allocator_on, ownerOf_unbound] at owned
      split at owned
      · cases owned
      · next apart =>
        refine ⟨owned, ?_⟩
        rw [List.mem_singleton]
        rintro rfl
        obtain ⟨v', found', there'⟩ := settled.registers.owner.1 owned
        cases found.symm.trans found'
        cases there.symm.trans there'
        exact apart rfl

theorem parts {bindings : List (VarId × Reg × Bool)} {x : Unit} (settled : Settled [] w.allocator)
    (named : AllNamed w.allocator)
    (ran : Ran (bindings.forM fun binding => unbind binding.1) w x w') :
    Parts (bindings.map Prod.fst) w.allocator w'.allocator := by
  induction bindings generalizing w with
  | nil =>
    rw [ran_forM_nil.1 ran]
    exact ⟨settled, named, fun owned => ⟨owned, List.not_mem_nil⟩, rfl⟩
  | cons binding rest ih =>
    obtain ⟨mid, first, second⟩ := ran_forM_cons.1 ran
    have one := parts_one settled named first
    have others := ih one.settled one.named second
    refine ⟨others.settled, others.named, fun {s i} owned => ?_, ?_⟩
    · obtain ⟨owned', absent⟩ := others.left owned
      obtain ⟨owned'', apart⟩ := one.left owned'
      refine ⟨owned'', ?_⟩
      rw [List.map_cons, List.mem_cons, not_or]
      exact ⟨fun same => apart (List.mem_singleton.2 same), absent⟩
    · rw [others.rest, one.rest]

/-- The state in which a function body starts. -/
theorem enterFunction_sound {x : Unit} (sound : Sound [] w.allocator)
    (root : w.allocator.inner = []) (noTemps : w.allocator.temps = [])
    (unreserved : w.allocator.reserved = []) (idle : w.allocator.calls = [])
    (ran : Ran enterFunction w x w') :
    Sound [] w'.allocator ∧ w'.allocator.calls = [] := by
  obtain ⟨outside, parted, unbound, rfl⟩ := ran_enterFunction sound.registers.toOwners ran
  have aside : Settled [] { w.allocator with outside := some w.allocator.outer } :=
    ⟨sound.registers.congr rfl rfl (fun _ => Iff.rfl) rfl rfl rfl,
      sound.names.congr (fun _ => rfl) rfl rfl fun _ => rfl,
      ⟨sound.homes.granted, sound.homes.apart, sound.homes.root⟩, sound.fits⟩
  have parts := parts (w := on (fun a => { a with outside := some w.allocator.outer }) w) aside
    (allNamed_of_no_temps sound.names noTemps) unbound
  have unowned : ∀ s, parted.allocator.ownerOf s = none := by
    intro s
    cases owned : parted.allocator.ownerOf s with
    | none => rfl
    | some id =>
      obtain ⟨owned', absent⟩ := parts.left owned
      exact absurd ((mem_outer_ids sound.registers.toOwners).2 ⟨s, owned'⟩) absent
  have inner : parted.allocator.inner = [] := by
    rw [parts.rest]
    exact root
  have reserved : parted.allocator.reserved = [] := by
    rw [parts.rest]
    exact unreserved
  have calls : parted.allocator.calls = [] := by
    rw [parts.rest]
    exact idle
  have outside : parted.allocator.outside = some w.allocator.outer := by
    rw [parts.rest]
    rfl
  have places : ∀ s, Reg.pool.count s + parted.allocator.holds s +
      parted.allocator.reserved.count s + parted.allocator.parked.count s =
        if s.isPool then 1 else 0 := by
    intro s
    rw [holds_of_no_owner (unowned s), reserved, parked, calls, Reg.pool, Reg.count_filter_all]
    rfl
  refine ⟨⟨⟨⟨⟨fun {s i} => ?_, fun {i} => ?_⟩, fun s => ?_, fun {s} inPool => ?_, fun {s} member => ?_,
    fun {s} member => ?_⟩, ?_, ?_, parts.settled.fits⟩, ?_⟩, calls⟩
  · exact parts.settled.registers.owner
  · rw [allocator_on, Recency.toList_empty]
    constructor
    · intro member
      cases member
    · rintro ⟨s, owned⟩
      cases (unowned s).symm.trans owned
  · change Reg.pool.count s + parted.allocator.holds s + parted.allocator.reserved.count s +
      parted.allocator.parked.count s + 0 ≤ 1
    rw [places]
    split <;> omega
  · change 1 ≤ Reg.pool.count s + parted.allocator.holds s + parted.allocator.reserved.count s +
      parted.allocator.parked.count s + 0
    have one := (places s).trans (if_pos inPool)
    omega
  · exact (List.mem_filter.1 member).2
  · rw [allocator_on, reserved] at member
    cases member
  · exact parts.settled.names.pushLevel (l := Level.empty true) rfl (fun _ => rfl) rfl rfl
      (levels_push _ _)
  · exact parts.settled.homes.of_root parts.settled.names parts.named inner (fun _ => rfl) rfl
  · refine ⟨?_, fun _ => List.cons_ne_nil _ _, fun {o} found => ?_⟩
    · rw [allocator_on, outside]
      rfl
    · rw [allocator_on, outside] at found
      cases found
      exact outer_accounted sound.registers unreserved idle

/-! ### The end of a body -/

theorem ran_sendRootHome {x : Unit} (ran : Ran (sendRootHome r) w x w') :
    w' = w ∨ ∃ id s v, w.allocator.var? id = some v ∧ v.isTemp = false ∧ v.depth = 0 ∧
      v.storage = .register s ∧ v.isDirty = true ∧ Ran (writeBack id s) w () w' := by
  simp only [sendRootHome, ran_bind, ran_look, and_assoc, exists_and_left, exists_eq_left] at ran
  cases owned : w.allocator.ownerOf r with
  | none =>
    simp only [owned, ran_pure] at ran
    exact .inl ran.2
  | some id =>
    simp only [owned, ran_bind, ran_known, ran_ite, ran_pure, and_assoc, exists_and_left,
      exists_eq_left] at ran
    obtain ⟨v, found, ⟨root, isNamed, dirty, went⟩ | ⟨-, -, rfl⟩⟩ := ran
    · split at went
      · next s place =>
        have there : v.storage = .register s := by
          cases storage : v.storage <;> rw [storage] at place <;> cases place
          rfl
        exact .inr ⟨id, s, v, found, eq_false_of_ne_true isNamed, root, there, dirty, went⟩
      · exact .inl (ran_pure.1 went).2
    · exact .inl rfl

theorem ran_vacate {x : Unit} (ran : Ran (vacate r) w x w') :
    (w.allocator.ownerOf r = none ∧ w' = w) ∨
      ∃ id, w.allocator.ownerOf r = some id ∧ Ran (unbind id) w () w' := by
  simp only [vacate, ran_bind, ran_look, and_assoc, exists_and_left, exists_eq_left] at ran
  cases owned : w.allocator.ownerOf r with
  | none =>
    simp only [owned, ran_pure] at ran
    exact .inl ⟨rfl, ran.2⟩
  | some id =>
    simp only [owned] at ran
    exact .inr ⟨id, rfl, ran⟩

/-- The state with a variable back in the register that it had outside of a function body. -/
def rebound (id : VarId) (r : Reg) (isDirty : Bool) (v : Variable) (a : Allocator) : Allocator :=
  (a.setOwner r (some id)).setVar id { v with storage := .register r, isDirty }

theorem ran_rebind {binding : VarId × Reg × Bool} {x : Unit} (ran : Ran (rebind binding) w x w') :
    ∃ v, w.allocator.var? binding.1 = some v ∧
      w' = on (rebound binding.1 binding.2.1 binding.2.2 v) w := by
  simp only [rebind, ran_bind, ran_setOwner, ran_update, exists_eq_left, exists_const] at ran
  obtain ⟨v, found, rfl⟩ := ran
  exact ⟨v, found, rfl⟩

theorem code_vacate {x : Unit} (ran : Ran (vacate r) w x w') : w'.code = w.code := by
  obtain ⟨-, rfl⟩ | ⟨id, -, unbound⟩ := ran_vacate ran
  · rfl
  · obtain ⟨v, -, ⟨-, rfl⟩ | ⟨s, -, rfl⟩⟩ := ran_unbind.1 unbound <;> rfl

/-- What ending a function body comes to. Variables of the root go home, everything else is dropped, and
the registers from outside of the body come back with what they held. -/
theorem ran_leaveFunction {n : Nat} (ran : Ran leaveFunction w n w') :
    ∃ sent closed vacated dropped k outside bound,
      Ran (Reg.all.forM sendRootHome) w () sent ∧
      Ran (sent.allocator.inner.forM closeLevel) sent () closed ∧
      Ran (Reg.all.forM vacate) closed () vacated ∧ Ran discardTemps vacated k dropped ∧
      n = dropped.allocator.frame.getD 0 ∧ dropped.allocator.outside = some outside ∧
      Ran (outside.bindings.forM rebind) (on (fun a => { a with
        frame := none
        outside := none
        free := outside.free
        recency := outside.recency
        pushed := outside.pushed }) dropped) () bound ∧
      w' = on (fun a => { a with held := [] }) bound := by
  simp only [leaveFunction, ran_bind, ran_look, ran_change, and_assoc, exists_and_left,
    exists_eq_left, exists_const] at ran
  obtain ⟨_, sent, first, _, closed, second, _, vacated, third, k, dropped, fourth, ran⟩ := ran
  cases outside : dropped.allocator.outside with
  | none =>
    simp only [allocator_on, outside] at ran
    exact (ran_throw.1 ran).elim
  | some o =>
    simp only [allocator_on, outside, releaseHolds, ran_bind, ran_change, ran_pure] at ran
    obtain ⟨_, _, rfl, _, bound, rebound, _, _, rfl, size, rfl⟩ := ran
    exact ⟨sent, closed, vacated, dropped, k, o, bound, first, second, third, fourth, size, outside,
      rebound, rfl⟩

/-- The levels of a function body, and those around it, are closed from the inside out. -/
theorem closeAll_settled {levels : List Level} {x : Unit} (settled : Settled hand w.allocator)
    (deep : w.allocator.depth = levels.length)
    (all : ∀ {k : Nat} {l : Level} {id v}, levels[k]? = some l → w.allocator.var? id = some v →
      v.isTemp = false → v.depth + k = w.allocator.depth → id ∈ l.names.map Prod.snd)
    (ran : Ran (levels.forM closeLevel) w x w') :
    Settled hand w'.allocator ∧ w'.allocator.depth = 0 ∧
      w'.allocator.calls = w.allocator.calls ∧ w'.allocator.reserved = w.allocator.reserved ∧
      w'.allocator.outside = w.allocator.outside := by
  induction levels generalizing w with
  | nil =>
    rw [ran_forM_nil.1 ran]
    exact ⟨settled, deep, rfl, rfl, rfl⟩
  | cons level outer ih =>
    obtain ⟨mid, first, second⟩ := ran_forM_cons.1 ran
    have inside : w.allocator.inner ≠ [] := fun empty => by
      rw [Allocator.depth, empty] at deep
      cases deep
    have closed := closeLevel_settled settled inside
      (fun found isNamed here => all (k := 0) rfl found isNamed here) first
    have closes := closes first
    have depth : mid.allocator.depth + 1 = w.allocator.depth := by
      rw [closes.depth, deep, List.length_cons]
      rfl
    have all' : ∀ {k : Nat} {l : Level} {id v}, outer[k]? = some l →
        mid.allocator.var? id = some v → v.isTemp = false → v.depth + k = mid.allocator.depth →
        id ∈ l.names.map Prod.snd := by
      intro k l id v level found isNamed here
      rw [closes.vars] at found
      split at found
      · cases found
      · exact all (k := k + 1) level found isNamed (by omega)
    rw [List.length_cons] at deep
    obtain ⟨settled', depth', calls, reserved, outside⟩ := ih closed (by omega) all' second
    exact ⟨settled', depth', calls.trans closes.calls, reserved.trans closes.reserved,
      outside.trans closes.outside⟩

/-- Every variable stands in the level of its depth, counted from the inside. -/
theorem names_inner {a : Allocator} {k : Nat} {l : Level} {v : Variable} (names : Names a)
    (level : a.inner[k]? = some l) (found : a.var? id = some v) (isNamed : v.isTemp = false)
    (here : v.depth + k = a.depth) : id ∈ l.names.map Prod.snd := by
  obtain ⟨l', level', member⟩ := names.named found isNamed
  have inside := (List.getElem?_eq_some_iff.1 level).1
  have shallow : v.depth = (a.inner.length - 1 - k) + 1 := by
    rw [Allocator.depth] at here
    omega
  rw [Allocator.levels, shallow, List.getElem?_cons_succ, List.getElem?_reverse (by omega),
    show a.inner.length - 1 - (a.inner.length - 1 - k) = k by omega, level] at level'
  cases level'
  exact List.mem_map.2 ⟨_, member, rfl⟩

/-- What holds while registers are vacated. A temporary may be left behind without a place; a named
variable never is. -/
structure Departing (a : Allocator) : Prop where
  names : Names a
  homes : Homes a
  fits : ∀ {id v}, a.var? id = some v → v.isTemp = false → v.Fits
  named : ∀ {id v s}, a.var? id = some v → v.isTemp = false → v.storage = .register s →
    a.ownerOf s = some id
  owned : ∀ {s id}, a.ownerOf s = some id → ∃ v, a.var? id = some v ∧ v.storage = .register s

theorem Departing.unbound {a : Allocator} {v : Variable} (departing : Departing a)
    (found : a.var? id = some v) (there : v.storage = .register r)
    (own : ∀ {other}, a.ownerOf r = some other → other = id) : Departing (a.unbound id r v) := by
  refine ⟨?_, ?_, fun {i u} known isNamed => ?_, fun {i u s} known isNamed there' => ?_,
    fun {s i} owned => ?_⟩
  · exact (departing.names.setVar found v.parted rfl rfl rfl).congr (fun _ => rfl) rfl rfl
      fun _ => rfl
  · have homes := departing.homes.setVar found v.parted rfl rfl rfl
    exact ⟨homes.granted, homes.apart, homes.root⟩
  · rw [var?_unbound found] at known
    split at known
    · cases known
      have isNamed' : v.isTemp = false := isNamed
      have fits := departing.fits found isNamed'
      obtain ⟨home, memory⟩ := Option.isSome_iff_exists.1 (fits.home isNamed')
      have storage : v.parted.storage = .memory home := by simp [Variable.parted, memory]
      refine ⟨fun {h} there' => ?_, fits.home, fits.unpinned, fun _ slot there' => ?_,
        fun pinned => ?_⟩
      · cases storage.symm.trans there'
        exact memory
      · cases storage.symm.trans there'
      · cases (fits.unpinned isNamed').symm.trans pinned
    · exact departing.fits known isNamed
  · rw [ownerOf_unbound]
    rw [var?_unbound found] at known
    split at known
    · cases known
      have isNamed' : v.isTemp = false := isNamed
      obtain ⟨home, memory⟩ :=
        Option.isSome_iff_exists.1 ((departing.fits found isNamed').home isNamed')
      have storage : v.parted.storage = .memory home := by simp [Variable.parted, memory]
      cases storage.symm.trans there'
    · next apart =>
      have owned := departing.named known isNamed there'
      rw [if_neg, owned]
      rintro rfl
      exact apart (own owned)
  · rw [ownerOf_unbound] at owned
    split at owned
    · cases owned
    · next apart =>
      obtain ⟨u, known, there'⟩ := departing.owned owned
      refine ⟨u, ?_, there'⟩
      rw [var?_unbound found, if_neg, known]
      rintro rfl
      cases found.symm.trans known
      cases there.symm.trans there'
      exact apart rfl

/-- Whether no register holds anything. -/
def NothingOwned (a : Allocator) : Prop := ∀ r, a.ownerOf r = none

theorem Departing.forgotten {a : Allocator} {v : Variable} (departing : Departing a)
    (unowned : NothingOwned a) (found : a.var? id = some v) :
    Departing (a.forgotten id v) ∧ NothingOwned (a.forgotten id v) := by
  have owner : ∀ s, (a.forgotten id v).ownerOf s = none := fun s => by
    rw [forgotten_eq]
    exact unowned s
  refine ⟨⟨departing.names.forgotten found,
    departing.homes.forget (fun other => var?_forgotten) grants_forgotten,
    fun {i u} known isNamed => ?_, fun {i u s} known isNamed there => ?_, fun {s i} owned => ?_⟩, owner⟩
  · rw [var?_forgotten] at known
    split at known
    · cases known
    · exact departing.fits known isNamed
  · rw [var?_forgotten] at known
    split at known
    · cases known
    · cases (unowned s).symm.trans (departing.named known isNamed there)
  · cases (owner s).symm.trans owned

theorem drop_departing {x : Unit} (departing : Departing w.allocator)
    (unowned : NothingOwned w.allocator) (ran : Ran (drop id) w x w') :
    Departing w'.allocator ∧ NothingOwned w'.allocator := by
  obtain ⟨v, found, ⟨-, rfl⟩ | ⟨r, there, rfl⟩⟩ := ran_drop ran
  · exact departing.forgotten unowned found
  · refine (departing.unbound found there fun owned => ?_).forgotten (fun s => ?_) ?_
    · cases (unowned r).symm.trans owned
    · rw [ownerOf_unbound, unowned s]
      split <;> rfl
    · rw [var?_unbound found, if_pos rfl]

theorem unbind_rest {x : Unit} (ran : Ran (unbind id) w x w') :
    w'.allocator = { w.allocator with
      vars := w'.allocator.vars, owner := w'.allocator.owner
      free := w'.allocator.free, recency := w'.allocator.recency } := by
  obtain ⟨v, -, ⟨-, rfl⟩ | ⟨r, -, rfl⟩⟩ := ran_unbind.1 ran <;> rfl

/-- What vacating registers leaves behind. -/
structure Vacates (rs : List Reg) (a a' : Allocator) : Prop where
  departing : Departing a'
  empty : ∀ r, r ∈ rs ∨ a.ownerOf r = none → a'.ownerOf r = none
  rest : a' = { a with
    vars := a'.vars, owner := a'.owner, free := a'.free, recency := a'.recency }

theorem vacate_one {x : Unit} (departing : Departing w.allocator) (ran : Ran (vacate r) w x w') :
    Vacates [r] w.allocator w'.allocator := by
  obtain ⟨unowned, rfl⟩ | ⟨id, owned, parted⟩ := ran_vacate ran
  · refine ⟨departing, fun s empty => ?_, rfl⟩
    rcases empty with here | empty
    · rw [List.mem_singleton.1 here]
      exact unowned
    · exact empty
  · obtain ⟨v, found, there⟩ := departing.owned owned
    have rest := unbind_rest parted
    obtain ⟨v', found', ⟨away, rfl⟩ | ⟨s, there', rfl⟩⟩ := ran_unbind.1 parted
    · cases found.symm.trans found'
      rw [there] at away
      cases away
    · cases found.symm.trans found'
      cases there.symm.trans there'
      refine ⟨departing.unbound found there fun owned' => ?_, fun s empty => ?_, rest⟩
      · exact (Option.some.inj (owned.symm.trans owned')).symm
      · rw [allocator_on, ownerOf_unbound]
        rcases empty with here | empty
        · rw [if_pos (List.mem_singleton.1 here)]
        · rw [empty]
          split <;> rfl

theorem vacates {rs : List Reg} {x : Unit} (departing : Departing w.allocator)
    (ran : Ran (rs.forM vacate) w x w') : Vacates rs w.allocator w'.allocator := by
  induction rs generalizing w with
  | nil =>
    rw [ran_forM_nil.1 ran]
    exact ⟨departing, fun r empty => empty.resolve_left List.not_mem_nil, rfl⟩
  | cons r rs ih =>
    obtain ⟨mid, first, second⟩ := ran_forM_cons.1 ran
    have one := vacate_one departing first
    have others := ih one.departing second
    refine ⟨others.departing, fun s empty => others.empty s ?_, ?_⟩
    · rcases empty with here | empty
      · rcases List.mem_cons.1 here with rfl | later
        · exact .inr (one.empty _ (.inl (List.mem_singleton_self _)))
        · exact .inl later
      · exact .inr (one.empty _ (.inr empty))
    · rw [others.rest, one.rest]

/-- Registers that come back hold what they held, whatever the order of use says meanwhile. -/
theorem rebinds {bindings : List (VarId × Reg × Bool)} {recent : Recency VarId} {x : Unit}
    (settled : Settled (bindings.map fun b => b.2.1) { w.allocator with recency := recent })
    (named : AllNamed w.allocator)
    (away : ∀ {id v}, id ∈ bindings.map Prod.fst → w.allocator.var? id = some v →
      v.storage.register? = none)
    (once : (bindings.map Prod.fst).Nodup) (ran : Ran (bindings.forM rebind) w x w') :
    ∃ recent' : Recency VarId, Settled [] { w'.allocator with recency := recent' } ∧
      (∀ id, id ∈ recent'.toList ↔ id ∈ recent.toList ∨ id ∈ bindings.map Prod.fst) ∧
      w'.allocator = { w.allocator with vars := w'.allocator.vars, owner := w'.allocator.owner } := by
  induction bindings generalizing w recent with
  | nil =>
    rw [ran_forM_nil.1 ran]
    exact ⟨recent, settled, fun id => (or_iff_left List.not_mem_nil).symm, rfl⟩
  | cons binding rest ih =>
    obtain ⟨mid, first, second⟩ := ran_forM_cons.1 ran
    obtain ⟨id, r, isDirty⟩ := binding
    obtain ⟨v, found, rfl⟩ := ran_rebind first
    rw [List.map_cons, List.nodup_cons] at once
    have away' := away (List.mem_cons_self (l := rest.map Prod.fst)) found
    have vars : ∀ other, (rebound id r isDirty v w.allocator).var? other =
        if other = id then some { v with storage := .register r, isDirty }
        else w.allocator.var? other :=
      fun other => var?_setVar (a := w.allocator.setOwner r (some id)) found _ other
    have registers : Registers (rest.map fun b => b.2.1)
        { rebound id r isDirty v w.allocator with recency := recent.touch id } := by
      have bound := settled.registers.bound found fun s there => by
        rw [there] at away'
        cases away'
      have there : (({ w.allocator with recency := recent } : Allocator).bound id r v).var? id =
          some { v with storage := .register r } := by
        rw [var?_bound (a := { w.allocator with recency := recent }) found, if_pos rfl]
      refine (bound.setVar there { v with storage := .register r, isDirty }
        fun s => Iff.rfl).congr ?_ rfl (fun _ => Iff.rfl) rfl rfl rfl
      exact (vars_setVar_setVar (a := w.allocator) _ _).symm
    have settled' : Settled (rest.map fun b => b.2.1)
        { rebound id r isDirty v w.allocator with recency := recent.touch id } := by
      refine ⟨registers, ?_, ?_, fun {i u} known => ?_⟩
      · exact (settled.names.setVar found { v with storage := .register r, isDirty } rfl rfl
          rfl).congr (fun _ => rfl) rfl rfl fun _ => rfl
      · have homes := settled.homes.setVar found { v with storage := .register r, isDirty }
          rfl rfl rfl
        exact ⟨homes.granted, homes.apart, homes.root⟩
      · have known' := (vars i).symm.trans known
        split at known'
        · cases known'
          have fits := settled.fits found
          exact ⟨nofun, fits.home, fits.unpinned, fun _ _ => nofun, fun _ _ => nofun⟩
        · exact settled.fits known'
    have named' : AllNamed (rebound id r isDirty v w.allocator) := fun {i u} known => by
      rw [vars] at known
      split at known
      · cases known
        have isNamed := named found
        exact isNamed
      · exact named known
    have away'' : ∀ {i u}, i ∈ rest.map Prod.fst →
        (rebound id r isDirty v w.allocator).var? i = some u → u.storage.register? = none := by
      intro i u later known
      rw [vars] at known
      split at known
      · next here =>
        rw [here] at later
        exact absurd later once.1
      · exact away (List.mem_cons_of_mem _ later) known
    obtain ⟨recent', done, member, same⟩ := ih (w := on (rebound id r isDirty v) w) settled' named'
      away'' once.2 second
    refine ⟨recent', done, fun other => ?_, same⟩
    rw [member, Recency.mem_touch, List.map_cons, List.mem_cons]
    tauto

/-- Once everything else is gone, the registers from outside of a body can come back. -/
theorem Departing.settled {a : Allocator} {o : Outside} (departing : Departing a)
    (unowned : NothingOwned a) (named : AllNamed a) (root : a.inner = []) (idle : a.calls = [])
    (unreserved : a.reserved = []) (accounted : o.Accounted) :
    Settled (o.bindings.map fun b => b.2.1) { a with
      frame := none, outside := none, free := o.free, recency := Recency.empty
      pushed := o.pushed } := by
  have places : ∀ s, o.free.count s + a.holds s + a.reserved.count s + a.parked.count s =
      o.free.count s := by
    intro s
    rw [holds_of_no_owner (unowned s), unreserved, parked, idle]
    rfl
  refine ⟨⟨⟨fun {s i} => ⟨fun owned => ?_, ?_⟩, fun {i} => ⟨fun member => ?_, ?_⟩⟩, fun s => ?_,
    fun {s} inPool => ?_, accounted.freePool, fun {s} member => ?_⟩, ?_, ?_,
    fun found => departing.fits found (named found)⟩
  · cases (unowned s).symm.trans owned
  · rintro ⟨v, found, there⟩
    cases (unowned s).symm.trans (departing.named found (named found) there)
  · rw [Recency.toList_empty] at member
    cases member
  · rintro ⟨s, owned⟩
    cases (unowned s).symm.trans owned
  · change o.free.count s + a.holds s + a.reserved.count s + a.parked.count s + _ ≤ 1
    rw [places]
    exact accounted.once s
  · change 1 ≤ o.free.count s + a.holds s + a.reserved.count s + a.parked.count s + _
    rw [places]
    exact accounted.pool inPool
  · rw [unreserved] at member
    cases member
  · exact departing.names.congr (fun _ => rfl) rfl rfl fun _ => rfl
  · exact departing.homes.of_root departing.names named root (fun _ => rfl) rfl

/-- Dropping the temporaries that vacated registers left behind. -/
theorem discardTemps_departing {n : Nat} (departing : Departing w.allocator)
    (unowned : NothingOwned w.allocator) (ran : Ran discardTemps w n w') :
    Departing w'.allocator ∧ NothingOwned w'.allocator ∧ AllNamed w'.allocator ∧
      Drops (w.allocator.temps.map Prod.snd) w.allocator w'.allocator := by
  simp only [discardTemps, ran_bind, ran_look, ran_pure, and_assoc, exists_and_left,
    exists_eq_left] at ran
  obtain ⟨_, dropped, ran, -, rfl⟩ := ran
  have drops := drops ran
  have kept : Departing w'.allocator ∧ NothingOwned w'.allocator :=
    ran.forM (P := fun mid => Departing mid.allocator ∧ NothingOwned mid.allocator)
      ⟨departing, unowned⟩ fun temp _ mid mid' kept ran => drop_departing kept.1 kept.2 ran
  refine ⟨kept.1, kept.2, fun {i v} found => ?_, drops⟩
  rw [drops.vars] at found
  split at found
  · cases found
  · next absent =>
    cases isTemp : v.isTemp with
    | false => rfl
    | true => exact absurd (List.mem_map.2 ⟨_, departing.names.temp found isTemp, rfl⟩) absent

/-- Once everything of a function body is gone, only variables of the root are left, and no register holds
anything. -/
structure Emptied (a : Allocator) : Prop where
  departing : Departing a
  unowned : NothingOwned a
  named : AllNamed a
  root : a.inner = []

theorem leaveFunction_emptied {sent closed vacated dropped : Work} {k : Nat} (sound : Sound [] w.allocator)
    (first : Ran (Reg.all.forM sendRootHome) w () sent)
    (second : Ran (sent.allocator.inner.forM closeLevel) sent () closed)
    (third : Ran (Reg.all.forM vacate) closed () vacated) (fourth : Ran discardTemps vacated k dropped) :
    Emptied dropped.allocator ∧ dropped.allocator.calls = w.allocator.calls ∧
      dropped.allocator.reserved = w.allocator.reserved ∧ dropped.allocator.outside = w.allocator.outside := by
  have sent' : Sound [] sent.allocator ∧ Keeps w.allocator sent.allocator := by
    refine first.forM (P := fun mid => Sound [] mid.allocator ∧ Keeps w.allocator mid.allocator)
      ⟨sound, .refl _⟩ fun r _ mid mid' kept ran => ?_
    obtain rfl | ⟨id, s, -, -, -, -, -, -, wrote⟩ := ran_sendRootHome ran
    · exact kept
    · exact ⟨writeBack_sound kept.1 wrote, kept.2.trans (writeBack_keeps wrote)⟩
  obtain ⟨settled, depth, calls, reserved, same⟩ := closeAll_settled sent'.1.toSettled rfl
    (fun level found isNamed here => names_inner sent'.1.names level found isNamed here) second
  have departing : Departing closed.allocator :=
    ⟨settled.names, settled.homes, fun found _ => settled.fits found,
      fun found _ there => settled.registers.owner.2 ⟨_, found, there⟩, settled.registers.owner.1⟩
  have vacates := vacates departing third
  have unowned : NothingOwned vacated.allocator := fun r => vacates.empty r (.inl (Reg.mem_all r))
  obtain ⟨departing', unowned', named, drops⟩ :=
    discardTemps_departing vacates.departing unowned fourth
  refine ⟨⟨departing', unowned', named, ?_⟩, ?_, ?_, ?_⟩
  · have deep := drops.depth
    rw [vacates.rest] at deep
    exact List.eq_nil_of_length_eq_zero (deep.trans depth)
  · rw [drops.calls, vacates.rest]
    exact calls.trans sent'.2.calls
  · rw [drops.reserved, vacates.rest]
    exact reserved.trans sent'.2.reserved
  · rw [drops.outside, vacates.rest]
    exact same.trans sent'.2.outside

/-- The state behind a function body. -/
theorem leaveFunction_sound {n : Nat} (sound : Sound [] w.allocator)
    (unreserved : w.allocator.reserved = []) (idle : w.allocator.calls = [])
    (ran : Ran leaveFunction w n w') :
    Sound [] w'.allocator ∧ w'.allocator.calls = [] := by
  obtain ⟨sent, closed, vacated, dropped, k, o, bound, first, second, third, fourth, -, outside, fifth,
    rfl⟩ := ran_leaveFunction ran
  obtain ⟨⟨departing', unowned', named, root⟩, calls, reserved, same⟩ :=
    leaveFunction_emptied sound first second third fourth
  have idle' : dropped.allocator.calls = [] := calls.trans idle
  have unreserved' : dropped.allocator.reserved = [] := reserved.trans unreserved
  have accounted : o.Accounted := sound.body.outside (same.symm.trans outside)
  have start := departing'.settled unowned' named root idle' unreserved' accounted
  have away : ∀ {i v}, i ∈ o.bindings.map Prod.fst → dropped.allocator.var? i = some v →
      v.storage.register? = none := by
    intro i v _ found
    cases there : v.storage with
    | register s =>
      cases (unowned' s).symm.trans (departing'.named found (named found) there)
    | memory | saved => rfl
  obtain ⟨recent, settled', member, rest⟩ := rebinds (w := on (fun a => { a with
    frame := none, outside := none, free := o.free, recency := o.recency
    pushed := o.pushed }) dropped) start named away accounted.ids fifth
  have recency : bound.allocator.recency = o.recency := by
    rw [rest]
    rfl
  refine ⟨⟨⟨?_, ?_, ?_, settled'.fits⟩, ?_⟩, ?_⟩
  · refine settled'.registers.congr rfl rfl (fun other => ?_) rfl rfl rfl
    change other ∈ bound.allocator.recency.toList ↔ other ∈ recent.toList
    rw [recency, accounted.recent, member, Recency.toList_empty]
    exact (or_iff_right List.not_mem_nil).symm
  · exact settled'.names.congr (fun _ => rfl) rfl rfl fun _ => rfl
  · exact ⟨settled'.homes.granted, settled'.homes.apart, settled'.homes.root⟩
  · rw [allocator_on, rest]
    exact ⟨rfl, nofun, nofun⟩
  · rw [allocator_on, rest]
    exact idle'

end Alloc

end SmallC
