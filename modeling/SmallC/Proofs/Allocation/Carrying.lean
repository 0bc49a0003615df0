import SmallC.Proofs.Allocation.Contents

/-!
Operations of the allocator together with the code they emit. After each of them a machine that executes
the code agrees with the allocator again, given room for the homes that were handed out.
-/
namespace SmallC.Alloc

open Allocator Machine

/-- A machine that started as the given one has executed the code of some work, and agrees with the
allocator. -/
structure Carried (m₀ : Machine) (base : Int) (size : Nat) (last : VarId → Option Word)
    (hand : List Reg) (w : Work) (m : Machine) : Prop where
  sound : Sound hand w.allocator
  agrees : Agrees base size last w.allocator m
  performed : m₀.performs w.code.toList = .ok m

variable {m₀ m : Machine} {base : Int} {size : Nat} {last : VarId → Option Word} {hand : List Reg}
  {w w' mid : Work} {id : VarId} {r : Reg} {v : Variable} {name temp : String}

/-- Nothing is emitted, and nothing that is known about variables changes. -/
theorem Carried.of_vars {f : Allocator → Allocator} {hand' : List Reg}
    (carried : Carried m₀ base size last hand w m) (sound : Sound hand' (f w.allocator))
    (grows : Grows w.allocator (f w.allocator))
    (vars : ∀ other, (f w.allocator).var? other = w.allocator.var? other) :
    Carried m₀ base size last hand' (on f w) m :=
  ⟨sound, carried.agrees.congr grows vars, carried.performed⟩

theorem writeBack_carried {x : Unit} (carried : Carried m₀ base size last hand w m)
    (room : Room base size w.allocator) (found : w.allocator.var? id = some v)
    (there : v.storage = .register r) (ran : Ran (writeBack id r) w x w') :
    (∃ m', Carried m₀ base size last hand w' m' ∧ v.Stored base m' (last id)) ∧
      w'.allocator.var? id = some { v with isDirty := false } := by
  have sound' := writeBack_sound carried.sound ran
  obtain ⟨u, home, address, found', has, known, rfl⟩ := ran_writeBack.1 ran
  cases found.symm.trans found'
  refine ⟨?_, var?_setVar_self found _⟩
  obtain ⟨n, same, inside⟩ := room.inside (carried.sound.homes.granted found has)
  have formed := carried.agrees.formed known
  rw [same] at formed
  obtain ⟨agrees, stored⟩ := carried.agrees.store carried.sound room found there has same inside
  have done := effect_sw (r := r) formed (carried.agrees.memory.symm ▸ inside)
  exact ⟨m.store n (m.reg r), ⟨sound', agrees, performs_push carried.performed done⟩, stored⟩

/-- A temporary that gets a home stays where it is. -/
theorem ensureHome_carried {x : Unit} (carried : Carried m₀ base size last hand w m)
    (found : w.allocator.var? id = some v) (isTemp : v.isTemp = true)
    (there : v.storage = .register r) (ran : Ran (ensureHome id) w x w') :
    Carried m₀ base size last hand w' m ∧ ∃ u, w'.allocator.var? id = some u ∧
      u.storage = .register r := by
  have sound' := ensureHome_sound carried.sound found isTemp ran
  have grows := growing_ensureHome _ _ _ ran
  obtain ⟨u, found', ⟨-, rfl⟩ | ⟨-, rfl⟩⟩ := ran_ensureHome.1 ran
  · exact ⟨carried, v, found, there⟩
  · cases found.symm.trans found'
    have housed : ((w.allocator.grown 1).setVar id
        { v with home := some w.allocator.nextHome }).var? id = _ :=
      var?_setVar_self (a := w.allocator.grown 1) found _
    refine ⟨⟨sound', carried.agrees.only id grows
      (fun other apart => var?_setVar_of_ne (a := w.allocator.grown 1) apart) ?_, carried.performed⟩,
      _, housed, there⟩
    intro v' known
    cases housed.symm.trans known
    have ordinary := carried.agrees.ordinary found
    refine ⟨⟨ordinary.pooled, ordinary.unsaved, ordinary.settled⟩, fun x scalar written => ?_⟩
    have holds := carried.agrees.holds found scalar written
    refine ⟨holds.register, holds.memory, fun isNamed => ?_⟩
    cases isTemp.symm.trans isNamed

/-- Before a register is taken from a variable, the value is in the variable's home. -/
theorem Carried.leave (carried : Carried m₀ base size last hand w m) (room : Room base size mid.allocator)
    (found : w.allocator.var? id = some v) (there : v.storage = .register r)
    (went : (v.isTemp = true ∧ ∃ housed, Ran (ensureHome id) w () housed ∧
        Ran (writeBack id r) housed () mid) ∨
      (v.isTemp = false ∧ v.isDirty = true ∧ Ran (writeBack id r) w () mid) ∨
      (v.isTemp = false ∧ v.isDirty = false ∧ mid = w)) :
    ∃ m', Carried m₀ base size last hand mid m' ∧
      ∀ {u}, mid.allocator.var? id = some u → u.Stored base m' (last id) := by
  rcases went with ⟨isTemp, housed, first, second⟩ | ⟨isNamed, -, wrote⟩ | ⟨isNamed, clean, rfl⟩
  · obtain ⟨carried', u, found', there'⟩ := ensureHome_carried carried found isTemp there first
    have room' := room.of_grows (growing_writeBack _ _ _ second)
    obtain ⟨⟨m', carried'', stored⟩, known⟩ := writeBack_carried carried' room' found' there' second
    refine ⟨m', carried'', fun {u'} known' => ?_⟩
    cases known.symm.trans known'
    exact stored
  · have room' := room.of_grows (growing_writeBack _ _ _ wrote)
    obtain ⟨⟨m', carried', stored⟩, known⟩ := writeBack_carried carried room' found there wrote
    refine ⟨m', carried', fun {u'} known' => ?_⟩
    cases known.symm.trans known'
    exact stored
  · refine ⟨m, carried, fun {u} known x home scalar written has => ?_⟩
    cases found.symm.trans known
    exact (carried.agrees.holds found scalar written).home isNamed there clean has

/-- A variable whose value is in its home is parted from its register. -/
theorem Carried.part {home : Home} (carried : Carried m₀ base size last hand w m)
    (found : w.allocator.var? id = some v) (there : v.storage = .register r)
    (memory : v.memory? = some home) (unpinned : v.isPinned = false)
    (stored : v.Stored base m (last id)) :
    Carried m₀ base size last hand (on (fun a => a.unbound id r v) w) m := by
  have grows : Grows w.allocator (w.allocator.unbound id r v) :=
    .of_same rfl rfl (Nat.le_of_eq Array.size_setIfInBounds.symm) rfl
  refine ⟨carried.sound.unbound found there memory unpinned, carried.agrees.only id grows
    (fun other apart => (var?_unbound found other).trans (if_neg apart)) fun v' known => ?_,
    carried.performed⟩
  rw [allocator_on, var?_unbound found, if_pos rfl] at known
  cases known
  have storage : v.parted.storage = .memory home := by simp [Variable.parted, memory]
  refine ⟨⟨fun there' => ?_, fun slot there' => ?_, (carried.agrees.ordinary found).settled⟩,
    fun x scalar written => ⟨fun there' => ?_, fun {home'} there' => ?_, fun _ there' => ?_⟩⟩
  · cases storage.symm.trans there'
  · cases storage.symm.trans there'
  · cases storage.symm.trans there'
  · cases storage.symm.trans there'
    have scalar : v.array = none := scalar
    rw [Variable.memory?, scalar] at memory
    exact stored scalar written memory
  · cases storage.symm.trans there'

theorem take_carried (carried : Carried m₀ base size last hand w m) (room : Room base size w'.allocator)
    (ran : Ran take w r w') : ∃ m', Carried m₀ base size last (r :: hand) w' m' := by
  have sound' := (takes carried.sound ran).sound
  rcases ran_take ran with ⟨free, loose, rfl⟩ | ⟨id, evicted, inPool, loose⟩
  · exact ⟨m, carried.of_vars sound' (.of_same rfl rfl (Nat.le_refl _) rfl) fun _ => rfl⟩
  · obtain ⟨v, mid, last, found, there, unpinned, went, parted, rfl⟩ := ran_evict evicted
    have room' : Room base size mid.allocator := by
      refine room.of_grows ((growing_unbind _ _ _ parted).trans ?_)
      exact .of_same rfl rfl (Nat.le_refl _) rfl
    obtain ⟨m', carried', stored⟩ := carried.leave room' found there went
    have place := (leaving (carried.sound.fits found).home found there unpinned went).place
    obtain ⟨u, home, found', there', unpinned', memory⟩ := place
    obtain ⟨u', found'', ⟨away, -⟩ | ⟨s, there'', rfl⟩⟩ := ran_unbind.1 parted
    · cases found'.symm.trans found''
      rw [there'] at away
      cases away
    · cases found'.symm.trans found''
      cases there'.symm.trans there''
      have parted' := carried'.part found' there' memory unpinned' (stored found')
      exact ⟨m', parted'.of_vars sound' (.of_same rfl rfl (Nat.le_refl _) rfl) fun _ => rfl⟩

/-- A word that is loaded from a home that was handed out is what the machine holds there. -/
theorem Carried.effect_load {address : Address} {home : Home} (carried : Carried m₀ base size last hand w m)
    (room : Room base size w.allocator) (granted : w.allocator.Grants home)
    (known : address? w.allocator home = some address) (writable : r ≠ Reg.zero) :
    ∃ m', m.effect (.lw r address.base address.offset) = .ok m' ∧
      ∀ {x}, m.cellOf? base home = some x → m'.reg r = x := by
  obtain ⟨n, same, inside⟩ := room.inside granted
  have formed := carried.agrees.formed known
  rw [same] at formed
  refine ⟨_, effect_lw formed (carried.agrees.memory.symm ▸ inside), fun {x} held => ?_⟩
  rw [cellOf?, same, Int.toNat_natCast] at held
  rw [reg_setReg_self _ _ _ writable, held]
  rfl

/-- What is loaded into a register in hand is the value of the variable. -/
theorem load_carried {x : Unit} (carried : Carried m₀ base size last (r :: hand) w m) (inPool : r.isPool = true)
    (room : Room base size w.allocator) (found : w.allocator.var? id = some v)
    (away : v.storage.register? = none) (ran : Ran (load id r) w x w') :
    ∃ m', Carried m₀ base size last (r :: hand) w' m' ∧
      ∀ {x}, v.array = none → last id = some x → m'.reg r = x := by
  have sound := carried.sound
  have unowned := sound.registers.not_owned
  obtain ⟨writable, aside, -⟩ := Reg.ne_of_isPool inPool
  have write : ∀ {m'}, Writes r m m' → Agrees base size last w.allocator m' := fun writes =>
    carried.agrees.write sound.registers.toOwners aside writes fun owned => by
      cases unowned.symm.trans owned
  obtain ⟨u, home, address, found', known, ⟨array, rfl⟩ | ⟨scalar, origin, rfl⟩⟩ := ran_load ran
  · have done : m.effect (.addi r address.base address.offset) = .ok _ := rfl
    cases found.symm.trans found'
    refine ⟨_, ⟨sound, write (effect_writes rfl done), performs_push carried.performed done⟩, ?_⟩
    intro x scalar
    cases array.symm.trans scalar
  · cases found.symm.trans found'
    have there : v.storage = .memory home := by
      rcases origin with there | ⟨⟨s, there⟩, -⟩
      · exact there
      · rw [there] at away
        cases away
    have memory := (sound.fits found).memory there
    rw [Variable.memory?, scalar] at memory
    obtain ⟨m', done, reads⟩ := carried.effect_load room (sound.homes.granted found memory) known
      writable
    refine ⟨m', ⟨sound, write (effect_writes rfl done), performs_push carried.performed done⟩, ?_⟩
    intro x scalar written
    exact reads ((carried.agrees.holds found scalar written).memory there)

/-- A variable that is loaded anew into its own register keeps its value. -/
theorem Carried.reload {x : Unit} (carried : Carried m₀ base size last hand w m)
    (room : Room base size w.allocator) (found : w.allocator.var? id = some v)
    (there : v.storage = .register r) (reloads : v.mustReload = true) (clean : v.isDirty = false)
    (ran : Ran (load id r) w x w') : ∃ m', Carried m₀ base size last hand w' m' := by
  have sound := carried.sound
  have ordinary := carried.agrees.ordinary found
  obtain ⟨writable, aside, -⟩ := Reg.ne_of_isPool (ordinary.pooled there)
  have isNamed : v.isTemp = false := by
    cases isTemp : v.isTemp with
    | false => rfl
    | true => cases reloads.symm.trans (ordinary.settled isTemp)
  have own : ∀ {i w'}, w.allocator.ownerOf r = some i → w.allocator.var? i = some w' →
      i = id ∧ w' = v := by
    intro i w' owned known
    cases owned.symm.trans (sound.registers.owner.2 ⟨v, found, there⟩)
    exact ⟨rfl, Option.some.inj (known.symm.trans found)⟩
  obtain ⟨u, home, address, found', known, ⟨array, rfl⟩ | ⟨-, origin, rfl⟩⟩ := ran_load ran
  · have done : m.effect (.addi r address.base address.offset) = .ok _ := rfl
    cases found.symm.trans found'
    refine ⟨_, sound, carried.agrees.write sound.registers.toOwners aside (effect_writes rfl done)
      fun owned known scalar => ?_, performs_push carried.performed done⟩
    obtain ⟨-, rfl⟩ := own owned known
    cases array.symm.trans scalar
  · cases found.symm.trans found'
    have has : v.home = some home := by
      rcases origin with away | ⟨-, has⟩
      · cases there.symm.trans away
      · exact has
    obtain ⟨m', done, reads⟩ := carried.effect_load room (sound.homes.granted found has) known
      writable
    refine ⟨m', sound, carried.agrees.write sound.registers.toOwners aside (effect_writes rfl done)
      fun owned known scalar written => ?_, performs_push carried.performed done⟩
    obtain ⟨rfl, rfl⟩ := own owned known
    exact reads ((carried.agrees.holds found scalar written).home isNamed there clean has)

/-- A variable that is in no register comes to the register in hand, which holds its value. -/
theorem Carried.arrive (carried : Carried m₀ base size last (r :: hand) w m) (inPool : r.isPool = true)
    (found : w.allocator.var? id = some v) (away : v.storage.register? = none) (v' : Variable)
    (storage : v'.storage = .register r) (name : v'.name = v.name) (temp : v'.isTemp = v.isTemp)
    (depth : v'.depth = v.depth) (home : v'.home = v.home) (array : v'.array = v.array)
    (reload : v'.mustReload = v.mustReload) (pinned : v'.isTemp = false → v'.isPinned = v.isPinned)
    (reads : ∀ {x}, v.array = none → last id = some x → m.reg r = x) :
    Carried m₀ base size last hand (on (fun a => (a.bound id r v).setVar id v') w) m := by
  have sound := carried.sound
  have grows : Grows w.allocator ((w.allocator.bound id r v).setVar id v') :=
    .of_same rfl rfl (Nat.le_of_eq
      (Array.size_setIfInBounds.symm.trans Array.size_setIfInBounds.symm)) rfl
  have bound : (w.allocator.bound id r v).var? id = some { v with storage := .register r } := by
    rw [var?_bound found, if_pos rfl]
  refine ⟨arrives_sound sound found away storage name temp depth home array pinned,
    carried.agrees.only id grows (fun other apart => ?_) (fun u known => ?_), carried.performed⟩
  · rw [allocator_on, var?_setVar_of_ne apart, var?_bound found, if_neg apart]
  · cases (var?_setVar_self bound v').symm.trans known
    have ordinary := carried.agrees.ordinary found
    refine ⟨⟨fun there => ?_, fun slot there => ?_, fun isTemp => ?_⟩, fun x scalar written =>
      ⟨fun there => ?_, fun there => ?_, fun isNamed there clean has => ?_⟩⟩
    · cases storage.symm.trans there
      exact inPool
    · cases storage.symm.trans there
    · exact reload.trans (ordinary.settled (temp.symm.trans isTemp))
    · cases storage.symm.trans there
      exact reads (array.symm.trans scalar) written
    · cases storage.symm.trans there
    · have holds := carried.agrees.holds found (array.symm.trans scalar) written
      cases there : v.storage with
      | register s =>
        rw [there] at away
        cases away
      | saved slot => exact absurd there (ordinary.unsaved slot)
      | memory place =>
        have memory := (sound.fits found).memory there
        rw [Variable.memory?, array.symm.trans scalar] at memory
        cases (home.symm.trans has).symm.trans memory
        exact holds.memory there

end SmallC.Alloc
