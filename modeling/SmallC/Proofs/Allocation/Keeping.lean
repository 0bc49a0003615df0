import SmallC.Proofs.Allocation.Traffic

/-!
What traffic leaves alone. Names, levels, reserved registers and pending calls stay, a variable keeps all
but its place, and one in a held register stays there too.
-/
namespace SmallC

/-- Another version of a variable that differs only in where the value is. -/
structure Variable.Same (v v' : Variable) : Prop where
  name : v'.name = v.name
  isTemp : v'.isTemp = v.isTemp
  depth : v'.depth = v.depth
  array : v'.array = v.array
  dims : v'.dims = v.dims
  kind : v'.kind = v.kind
  refs : v'.refs = v.refs
  mustReload : v'.mustReload = v.mustReload
  home : ∀ {home}, v.home = some home → v'.home = some home

theorem Variable.Same.refl (v : Variable) : v.Same v :=
  ⟨rfl, rfl, rfl, rfl, rfl, rfl, rfl, rfl, fun has => has⟩

theorem Variable.Same.trans {u v w : Variable} (first : u.Same v) (second : v.Same w) : u.Same w :=
  ⟨second.name.trans first.name, second.isTemp.trans first.isTemp, second.depth.trans first.depth,
    second.array.trans first.array, second.dims.trans first.dims, second.kind.trans first.kind,
    second.refs.trans first.refs, second.mustReload.trans first.mustReload, fun has => second.home (first.home has)⟩

namespace Allocator

/-- What traffic leaves alone. -/
structure Keeps (a a' : Allocator) : Prop where
  root : a'.root = a.root
  inner : a'.inner = a.inner
  temps : a'.temps = a.temps
  nextTemp : a'.nextTemp = a.nextTemp
  outside : a'.outside = a.outside
  reserved : a'.reserved = a.reserved
  calls : a'.calls = a.calls
  pushed : a'.pushed = a.pushed
  size : a'.vars.size = a.vars.size
  frame : a'.frame.isSome = a.frame.isSome
  grants : ∀ {home}, a.Grants home → a'.Grants home
  held : ∀ {r}, r ∈ a.held → r ∈ a'.held
  same : ∀ {id v}, a.var? id = some v → ∃ v', a'.var? id = some v' ∧ v.Same v'
  absent : ∀ {id}, a.var? id = none → a'.var? id = none
  still : ∀ {id v r}, a.var? id = some v → v.storage = .register r → r ∈ a.held →
    ∃ v', a'.var? id = some v' ∧ v'.storage = .register r

namespace Keeps

variable {a b c : Allocator} {id : VarId} {r : Reg} {v v' : Variable}

theorem refl (a : Allocator) : Keeps a a where
  root := rfl
  inner := rfl
  temps := rfl
  nextTemp := rfl
  outside := rfl
  reserved := rfl
  calls := rfl
  pushed := rfl
  size := rfl
  frame := rfl
  grants granted := granted
  held member := member
  same found := ⟨_, found, .refl _⟩
  absent none := none
  still found there _ := ⟨_, found, there⟩

theorem trans (first : Keeps a b) (second : Keeps b c) : Keeps a c where
  root := second.root.trans first.root
  inner := second.inner.trans first.inner
  temps := second.temps.trans first.temps
  nextTemp := second.nextTemp.trans first.nextTemp
  outside := second.outside.trans first.outside
  reserved := second.reserved.trans first.reserved
  calls := second.calls.trans first.calls
  pushed := second.pushed.trans first.pushed
  size := second.size.trans first.size
  frame := second.frame.trans first.frame
  grants granted := second.grants (first.grants granted)
  held member := second.held (first.held member)
  same found := by
    obtain ⟨v', found', same⟩ := first.same found
    obtain ⟨v'', found'', same'⟩ := second.same found'
    exact ⟨v'', found'', same.trans same'⟩
  absent none := second.absent (first.absent none)
  still found there held := by
    obtain ⟨v', found', there'⟩ := first.still found there held
    exact second.still found' there' (first.held held)

/-- Names stand for the same variables. -/
theorem find? (keeps : Keeps a b) (name : String) : b.find? name = a.find? name := by
  rw [Allocator.find?, Allocator.find?, keeps.temps, keeps.root, keeps.inner]

/-- What is known about a variable changes, and the variable leaves no held register. -/
theorem setVar (found : a.var? id = some v) (same : v.Same v')
    (still : ∀ {r}, v.storage = .register r → r ∈ a.held → v'.storage = .register r) :
    Keeps a (a.setVar id v') :=
  { refl a with
    size := Array.size_setIfInBounds
    same := fun {i w} found' => by
      rw [var?_setVar found]
      by_cases here : i = id
      · subst here
        rw [found] at found'
        cases found'
        exact ⟨v', if_pos rfl, same⟩
      · exact ⟨w, (if_neg here).trans found', .refl w⟩
    absent := fun {i} none => by
      rw [var?_setVar_of_ne, none]
      rintro rfl
      rw [found] at none
      cases none
    still := fun {i w s} found' there held => by
      rw [var?_setVar found]
      by_cases here : i = id
      · subst here
        rw [found] at found'
        cases found'
        exact ⟨v', if_pos rfl, still there held⟩
      · exact ⟨w, (if_neg here).trans found', there⟩ }

theorem withdrawn (a : Allocator) (r : Reg) : Keeps a (a.withdrawn r) := { refl a with }

theorem hold (a : Allocator) (r : Reg) :
    Keeps a { a with held := if r ∈ a.held then a.held else r :: a.held } :=
  { refl a with
    held := fun {s} member => by
      change s ∈ if r ∈ a.held then a.held else r :: a.held
      split
      · exact member
      · exact List.mem_cons_of_mem _ member }

theorem used (a : Allocator) (id : VarId) (r : Reg) : Keeps a (a.used id r) :=
  { refl a with held := (hold a r).held }

theorem grown (a : Allocator) (words : Nat) : Keeps a (a.grown words) :=
  { refl a with
    frame := by simp [Allocator.grown]
    grants := fun granted => grants_grown granted words }

theorem giveHome (found : a.var? id = some v) (homeless : v.home = none) :
    Keeps a ((a.grown 1).setVar id { v with home := some a.nextHome }) := by
  refine (grown a 1).trans (setVar (a := a.grown 1) found ?_ fun there _ => there)
  refine ⟨rfl, rfl, rfl, rfl, rfl, rfl, rfl, rfl, fun has => ?_⟩
  rw [homeless] at has
  cases has

/-- A variable is parted from a register that is not held. -/
theorem unbound (found : a.var? id = some v) (there : v.storage = .register r) (loose : r ∉ a.held) :
    Keeps a (a.unbound id r v) := by
  have keeps : Keeps a (a.setVar id v.parted) := by
    refine setVar found ⟨rfl, rfl, rfl, rfl, rfl, rfl, rfl, rfl, fun has => has⟩ fun {s} there' held => ?_
    rw [there] at there'
    cases there'
    exact absurd held loose
  exact { keeps with }

/-- A variable that is in no held register comes to a register, which is held. -/
theorem bound (found : a.var? id = some v)
    (loose : ∀ {s}, v.storage = .register s → s ∈ a.held → s = r) :
    Keeps a (a.bound id r v) := by
  have keeps : Keeps a (a.setVar id { v with storage := .register r }) := by
    refine setVar found ⟨rfl, rfl, rfl, rfl, rfl, rfl, rfl, rfl, fun has => has⟩ fun {s} there held => ?_
    rw [loose there held]
  exact { keeps with held := (hold a r).held }

end Keeps

end Allocator

namespace Alloc

open Allocator

variable {w w' : Work} {id : VarId} {r : Reg} {hand : List Reg}

theorem writeBack_sound {x : Unit} (sound : Sound hand w.allocator) (ran : Ran (writeBack id r) w x w') :
    Sound hand w'.allocator := by
  obtain ⟨v, home, address, found, has, -, rfl⟩ := ran_writeBack.1 ran
  have fits := sound.fits found
  exact sound.setVar found _ (fun _ => Iff.rfl) rfl rfl rfl rfl
    ⟨fits.memory, fits.home, fits.unpinned, fits.unsaved, fits.pinned⟩

theorem writeBack_keeps {x : Unit} (ran : Ran (writeBack id r) w x w') :
    Keeps w.allocator w'.allocator := by
  obtain ⟨v, home, address, found, -, -, rfl⟩ := ran_writeBack.1 ran
  exact .setVar found ⟨rfl, rfl, rfl, rfl, rfl, rfl, rfl, rfl, fun has => has⟩ fun there _ => there

theorem ensureHome_sound {x : Unit} {v : Variable} (sound : Sound hand w.allocator)
    (found : w.allocator.var? id = some v) (isTemp : v.isTemp = true)
    (ran : Ran (ensureHome id) w x w') : Sound hand w'.allocator := by
  obtain ⟨v', found', ⟨-, rfl⟩ | ⟨homeless, rfl⟩⟩ := ran_ensureHome.1 ran
  · exact sound
  · rw [found] at found'
    cases found'
    exact sound.giveHome found isTemp homeless

theorem ensureHome_keeps {x : Unit} (ran : Ran (ensureHome id) w x w') :
    Keeps w.allocator w'.allocator := by
  obtain ⟨v, found, ⟨-, rfl⟩ | ⟨homeless, rfl⟩⟩ := ran_ensureHome.1 ran
  · exact .refl _
  · exact .giveHome found homeless

/-- An operation on one variable leaves the others as they are. -/
def Only (id : VarId) (a a' : Allocator) : Prop :=
  ∀ other, other ≠ id → a'.var? other = a.var? other

theorem writeBack_only {x : Unit} (ran : Ran (writeBack id r) w x w') :
    Only id w.allocator w'.allocator := by
  obtain ⟨v, home, address, found, -, -, rfl⟩ := ran_writeBack.1 ran
  exact fun other apart => var?_setVar_of_ne (a := w.allocator) apart

theorem ensureHome_only {x : Unit} (ran : Ran (ensureHome id) w x w') :
    Only id w.allocator w'.allocator := by
  obtain ⟨v, found, ⟨-, rfl⟩ | ⟨-, rfl⟩⟩ := ran_ensureHome.1 ran
  · exact fun other _ => rfl
  · exact fun other apart => var?_setVar_of_ne (a := w.allocator.grown 1) apart

theorem unbind_only {x : Unit} (ran : Ran (unbind id) w x w') :
    Only id w.allocator w'.allocator := by
  obtain ⟨v, found, ⟨-, rfl⟩ | ⟨r, -, rfl⟩⟩ := ran_unbind.1 ran
  · exact fun other _ => rfl
  · exact fun other apart => (var?_unbound found other).trans (if_neg apart)

/-- Before its register is taken from it, a variable has memory to go to and is still in the register. -/
structure Leaving (id : VarId) (r : Reg) (a mid : Allocator) : Prop where
  keeps : Keeps a mid
  only : Only id a mid
  held : mid.held = a.held
  free : mid.free = a.free
  owner : mid.owner = a.owner
  place : ∃ v home, mid.var? id = some v ∧ v.storage = .register r ∧ v.isPinned = false ∧
    v.memory? = some home

theorem leaving {v : Variable} {mid : Work} (memory : v.isTemp = false → v.memory?.isSome)
    (found : w.allocator.var? id = some v) (there : v.storage = .register r)
    (unpinned : v.isPinned = false)
    (went : (v.isTemp = true ∧ ∃ housed, Ran (ensureHome id) w () housed ∧
        Ran (writeBack id r) housed () mid) ∨
      (v.isTemp = false ∧ v.isDirty = true ∧ Ran (writeBack id r) w () mid) ∨
      (v.isTemp = false ∧ v.isDirty = false ∧ mid = w)) :
    Leaving id r w.allocator mid.allocator := by
  rcases went with ⟨-, housed, first, second⟩ | ⟨isNamed, -, wrote⟩ | ⟨isNamed, -, rfl⟩
  · have same : mid.allocator.held = w.allocator.held ∧ mid.allocator.free = w.allocator.free ∧
        mid.allocator.owner = w.allocator.owner := by
      obtain ⟨u, home, address, -, -, -, rfl⟩ := ran_writeBack.1 second
      obtain ⟨u', -, ⟨-, rfl⟩ | ⟨-, rfl⟩⟩ := ran_ensureHome.1 first <;> exact ⟨rfl, rfl, rfl⟩
    refine ⟨(ensureHome_keeps first).trans (writeBack_keeps second), fun other apart => ?_, same.1, same.2.1,
      same.2.2, ?_⟩
    · exact (writeBack_only second other apart).trans (ensureHome_only first other apart)
    · obtain ⟨u, home, address, found', has, -, rfl⟩ := ran_writeBack.1 second
      have stays : u.storage = v.storage ∧ u.isPinned = v.isPinned := by
        obtain ⟨u', found'', ⟨-, rfl⟩ | ⟨-, rfl⟩⟩ := ran_ensureHome.1 first
        · rw [found] at found'
          cases found'
          exact ⟨rfl, rfl⟩
        · rw [found] at found''
          cases found''
          rw [allocator_on, var?_setVar (a := w.allocator.grown 1) found, if_pos rfl] at found'
          cases found'
          exact ⟨rfl, rfl⟩
      refine ⟨{ u with isDirty := false }, u.array.getD home, var?_setVar_self found' _,
        stays.1.trans there, stays.2.trans unpinned, ?_⟩
      change (u.array <|> u.home) = _
      rw [has]
      cases u.array <;> rfl
  · obtain ⟨home, memory⟩ := Option.isSome_iff_exists.1 (memory isNamed)
    obtain ⟨u, home', address, found', -, -, rfl⟩ := ran_writeBack.1 wrote
    cases found.symm.trans found'
    exact ⟨writeBack_keeps wrote, writeBack_only wrote, rfl, rfl, rfl, { v with isDirty := false }, home,
      var?_setVar_self found _, there, unpinned, memory⟩
  · obtain ⟨home, memory⟩ := Option.isSome_iff_exists.1 (memory isNamed)
    exact ⟨.refl _, fun _ _ => rfl, rfl, rfl, rfl, v, home, found, there, unpinned, memory⟩

theorem leaving_sound {v : Variable} {mid : Work} (sound : Sound hand w.allocator)
    (found : w.allocator.var? id = some v)
    (went : (v.isTemp = true ∧ ∃ housed, Ran (ensureHome id) w () housed ∧
        Ran (writeBack id r) housed () mid) ∨
      (v.isTemp = false ∧ v.isDirty = true ∧ Ran (writeBack id r) w () mid) ∨
      (v.isTemp = false ∧ v.isDirty = false ∧ mid = w)) : Sound hand mid.allocator := by
  rcases went with ⟨isTemp, housed, first, second⟩ | ⟨-, -, wrote⟩ | ⟨-, -, rfl⟩
  · exact writeBack_sound (ensureHome_sound sound found isTemp first) second
  · exact writeBack_sound sound wrote
  · exact sound

/-- A register was taken: it is in hand, and only the variable that was in it has changed. -/
structure Takes (r : Reg) (hand : List Reg) (a a' : Allocator) : Prop where
  sound : Sound (r :: hand) a'
  keeps : Keeps a a'
  inPool : r.isPool = true
  loose : r ∉ a.held
  only : ∀ {id v}, a.var? id = some v → v.storage ≠ .register r → a'.var? id = some v

theorem takes (sound : Sound hand w.allocator) (ran : Ran take w r w') :
    Takes r hand w.allocator w'.allocator := by
  rcases ran_take ran with ⟨free, loose, rfl⟩ | ⟨id, evicted, inPool, loose⟩
  · exact ⟨sound.withdrawn free, .withdrawn _ r, sound.registers.freePool free, loose,
      fun found _ => found⟩
  · obtain ⟨v, mid, last, found, there, unpinned, went, parted, rfl⟩ := ran_evict evicted
    have sound' := leaving_sound sound found went
    obtain ⟨keeps, only, held, -, -, u, home, found', there', unpinned', memory⟩ :=
      leaving (sound.fits found).home found there unpinned went
    obtain ⟨u', found'', gone⟩ := ran_unbind.1 parted
    rw [found'] at found''
    cases found''
    rcases gone with ⟨away, -⟩ | ⟨s, there'', rfl⟩
    · rw [there'] at away
      cases away
    · rw [there'] at there''
      cases there''
      have sound'' := sound'.unbound found' there' memory unpinned'
      have owned : mid.allocator.ownerOf r = some id :=
        sound'.registers.owner.2 ⟨u, found', there'⟩
      have free : r ∈ (mid.allocator.unbound id r u).free := by
        change r ∈ (mid.allocator.released r).free
        unfold Allocator.released
        rw [if_pos ⟨inPool, sound'.registers.not_reserved owned, sound'.registers.not_free owned⟩]
        exact List.mem_append_right _ (List.mem_singleton_self r)
      refine ⟨sound''.withdrawn free, keeps.trans ((Keeps.unbound found' there' ?_).trans
        (.withdrawn _ r)), inPool, loose, fun {i w} known elsewhere => ?_⟩
      · rw [held]
        exact loose
      · have apart : i ≠ id := by
          rintro rfl
          rw [found] at known
          cases known
          exact elsewhere there
        exact ((unbind_only parted i apart).trans (only i apart)).trans known

end Alloc

end SmallC
