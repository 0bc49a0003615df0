import SmallC.Proofs.Allocation.Deeds

/-!
What the machine holds as deeds are done. A variable bears a value if the machine has it wherever the allocator
looks for it. The register of a scalar whose home a pointer may have changed is not relied on; in any other case a
register that is not newer than the home of a named variable agrees with it. Deeds keep the values of all variables
that are not written, and they leave alone the registers that nothing may come to.
-/
namespace SmallC

open Alloc Machine

namespace Allocator

variable {a a' : Allocator} {id : VarId} {v v' : Variable} {hand : List Reg} {K : VarId → Prop} {T : Reg → Prop}
  {code : List MachineInstr}

/-- Homes were handed out and are the variables' own, what is in memory is in the memory of its variable, and no
register has two variables. -/
structure Tidy (a : Allocator) : Prop where
  granted : ∀ {id v home}, a.var? id = some v → v.home = some home → a.Grants home
  apart : ∀ {id other v v' home}, a.var? id = some v → a.var? other = some v' →
    v.home = some home → v'.home = some home → id = other
  memory : ∀ {id v home}, a.var? id = some v → v.storage = .memory home → v.memory? = some home
  alone : ∀ {id other v v' r}, a.var? id = some v → a.var? other = some v' →
    v.storage = .register r → v'.storage = .register r → id = other
  carried : ∀ {id v r}, a.var? id = some v → v.storage = .register r → r.Carries

theorem Sound.tidy (sound : Sound hand a)
    (carried : ∀ {id v r}, a.var? id = some v → v.storage = .register r → r.Carries) : Tidy a where
  granted := sound.homes.granted
  apart := sound.homes.apart
  memory found stands := (sound.fits found).memory stands
  alone found found' there there' := sound.registers.unique found there found' there'
  carried := carried

theorem Tidy.congr (tidy : Tidy a) (onward : Onward a a') (vars : ∀ other, a'.var? other = a.var? other) :
    Tidy a' := by
  refine ⟨fun found => ?_, fun found found' => ?_, fun found => ?_, fun found found' => ?_, fun found => ?_⟩
  · rw [vars] at found
    exact fun has => onward.grants (tidy.granted found has)
  · rw [vars] at found found'
    exact tidy.apart found found'
  · rw [vars] at found
    exact tidy.memory found
  · rw [vars] at found found'
    exact tidy.alone found found'
  · rw [vars] at found
    exact tidy.carried found

/-- One variable changes place, is new or is gone. -/
theorem Tidy.change (tidy : Tidy a) (onward : Onward a a') (id : VarId) (w : Option Variable)
    (vars : ∀ other, a'.var? other = if other = id then w else a.var? other)
    (placing : ∀ v', w = some v' → Placing T a a' (a.var? id) v') (narrow : ∀ r, T r → r.Carries) : Tidy a' := by
  have cases_of : ∀ {other u}, a'.var? other = some u →
      (other = id ∧ Placing T a a' (a.var? id) u) ∨ (other ≠ id ∧ a.var? other = some u) := by
    intro other u found
    rw [vars] at found
    split at found
    · next same => exact .inl ⟨same, placing u found⟩
    · next different => exact .inr ⟨different, found⟩
  refine ⟨fun {i u h} found has => ?_, fun {i j u u' h} found found' has has' => ?_,
    fun {i u h} found stands => ?_, fun {i j u u' r} found found' there there' => ?_, fun {i u r} found there => ?_⟩
  · obtain ⟨rfl, place⟩ | ⟨-, found⟩ := cases_of found
    · obtain ⟨old, known, has'⟩ | ⟨-, granted⟩ := place.home has
      · exact onward.grants (tidy.granted known has')
      · exact granted
    · exact onward.grants (tidy.granted found has)
  · obtain ⟨rfl, place⟩ | ⟨different, found⟩ := cases_of found <;>
      obtain ⟨rfl, place'⟩ | ⟨different', found'⟩ := cases_of found'
    · rfl
    · obtain ⟨old, known, had⟩ | ⟨fresh, -⟩ := place.home has
      · exact tidy.apart known found' had has'
      · exact (fresh (tidy.granted found' has')).elim
    · obtain ⟨old, known, had⟩ | ⟨fresh, -⟩ := place'.home has'
      · exact tidy.apart found known has had
      · exact (fresh (tidy.granted found has)).elim
    · exact tidy.apart found found' has has'
  · obtain ⟨rfl, place⟩ | ⟨-, found⟩ := cases_of found
    · exact place.memory stands
    · exact tidy.memory found stands
  · obtain ⟨rfl, place⟩ | ⟨different, found⟩ := cases_of found <;>
      obtain ⟨rfl, place'⟩ | ⟨different', found'⟩ := cases_of found'
    · rfl
    · obtain ⟨old, known, was⟩ | ⟨-, vacant⟩ := place.register there
      · exact tidy.alone known found' was there'
      · exact (vacant found' there').elim
    · obtain ⟨old, known, was⟩ | ⟨-, vacant⟩ := place'.register there'
      · exact tidy.alone found known there was
      · exact (vacant found there).elim
    · exact tidy.alone found found' there there'
  · obtain ⟨rfl, place⟩ | ⟨-, found⟩ := cases_of found
    · obtain ⟨old, known, was⟩ | ⟨usable, -⟩ := place.register there
      · exact tidy.carried known was
      · exact narrow _ usable
    · exact tidy.carried found there

theorem parted_register {r : Reg} (there : v.parted.storage = .register r) : v.storage = .register r := by
  unfold Variable.parted at there
  dsimp only at there
  split at there
  · cases there
  · exact there

theorem parted_memory {home : Home} (fits : ∀ {home}, v.storage = .memory home → v.memory? = some home)
    (stands : v.parted.storage = .memory home) : v.parted.memory? = some home := by
  change v.memory? = some home
  unfold Variable.parted at stands
  dsimp only at stands
  split at stands
  · next memory =>
    cases stands
    exact memory
  · exact fits stands

theorem parted_waits {slot : Nat} (waits : v.parted.storage = .saved slot) : v.storage = .saved slot := by
  unfold Variable.parted at waits
  dsimp only at waits
  split at waits
  · cases waits
  · exact waits

theorem parted_stands {home : Home} (memory : v.memory? = some home) : v.parted.storage = .memory home := by
  simp only [Variable.parted, memory]

theorem Shift.placing (shift : Shift T a a' v v' code)
    (fits : ∀ {home}, v.storage = .memory home → v.memory? = some home) : Placing T a a' (some v) v' := by
  have had : ∀ {home}, v.home = some home → (∃ u, some v = some u ∧ u.home = some home) ∨
      ¬ a.Grants home ∧ a'.Grants home := fun has => .inl ⟨v, rfl, has⟩
  cases shift with
  | note storage home array isTemp isDirty reload =>
    refine ⟨fun there => .inl ⟨v, rfl, storage.symm.trans there⟩, fun stands => ?_,
      fun waits => ⟨v, rfl, storage.symm.trans waits⟩, fun has => had (home ▸ has)⟩
    have memory := fits (storage.symm.trans stands)
    rwa [Variable.memory?, array, home]
  | store there dirty has known =>
    exact ⟨fun there => .inl ⟨v, rfl, there⟩, fits, fun waits => ⟨v, rfl, waits⟩, had⟩
  | spill there isTemp has known =>
    refine ⟨fun there' => ?_, parted_memory fun stands => ?_, fun waits => ?_, fun has' => ?_⟩
    · have was := parted_register there'
      exact .inl ⟨v, rfl, was⟩
    · cases there.symm.trans stands
    · have was := parted_waits waits
      exact ⟨v, rfl, was⟩
    · cases has'
      exact has.elim had fun new => .inr new.2
  | part there isNamed clean memory =>
    exact ⟨fun there' => .inl ⟨v, rfl, parted_register there'⟩, parted_memory fits,
      fun waits => ⟨v, rfl, parted_waits waits⟩, had⟩
  | fetch away usable vacant loaded there home array isTemp isDirty reload =>
    refine ⟨fun there' => ?_, fun stands => ?_, fun waits => ?_, fun has => had (home ▸ has)⟩
    · cases there.symm.trans there'
      exact .inr ⟨usable, vacant⟩
    · cases there.symm.trans stands
    · cases there.symm.trans waits
  | reload there reloads clean loaded =>
    exact ⟨fun there => .inl ⟨v, rfl, there⟩, fits, fun waits => ⟨v, rfl, waits⟩, had⟩
  | relocate there usable vacant =>
    refine ⟨fun there' => ?_, fun stands => ?_, fun waits => ?_, had⟩
    · cases there'
      exact .inr ⟨usable, vacant⟩
    · cases stands
    · cases waits

theorem Deed.tidy (deed : Deed K T a a' code) (tidy : Tidy a) (narrow : ∀ r, T r → r.Carries) : Tidy a' := by
  cases deed with
  | aside onward vars => exact tidy.congr onward vars
  | @add v onward vars placing =>
    refine tidy.change onward _ (some v) vars (fun v' same => ?_) narrow
    cases same
    have absent : a.var? a.vars.size = none := by simp [var?]
    rwa [absent]
  | drop id onward vars => exact tidy.change (T := T) onward id none vars (fun _ gone => by cases gone) narrow
  | @shift id v v' _ onward found vars shift =>
    refine tidy.change onward id (some v') vars (fun u same => ?_) narrow
    cases same
    rw [found]
    exact shift.placing (tidy.memory found)
  | @rewrite id v v' onward found written vars array placing
  | @overwrite id v v' r home address onward found written vars has known array placing =>
    refine tidy.change onward id (some v') vars (fun u same => ?_) narrow
    cases same
    rwa [found]

theorem Deeds.tidy (deeds : Deeds K T a a' code) (tidy : Tidy a) (narrow : ∀ r, T r → r.Carries) : Tidy a' := by
  induction deeds with
  | refl => exact tidy
  | snoc first last ih => exact last.tidy ih narrow

end Allocator

/-! ### Values -/

/-- The register of a scalar counts for nothing: a pointer may have changed the home since it was loaded. -/
def Variable.Stale (v : Variable) : Prop :=
  v.array = none ∧ v.isTemp = false ∧ v.mustReload = true ∧ v.isDirty = false

/-- The machine has a value wherever the allocator looks for that of the variable. -/
structure Variable.Bears (base : Int) (m : Machine) (x : Word) (v : Variable) : Prop where
  /-- The value of an array is its address. -/
  address : ∀ {home}, v.array = some home → Word.ofInt (home.address base) = x
  register : ∀ {r}, v.storage = .register r → ¬ v.Stale → m.reg r = x
  memory : ∀ {home}, v.array = none → v.storage = .memory home → m.cellOf? base home = some x
  home : ∀ {r home}, v.array = none → v.storage = .register r → v.isDirty = false →
    (v.isTemp = false ∨ v.mustReload = true) → v.home = some home → m.cellOf? base home = some x

/-- What is the same for all machines in the course of a body: the register that stays zero, where the frame begins
and how much memory there is. -/
structure Based (base : Int) (size : Nat) (a : Allocator) (m : Machine) : Prop where
  zero : m.reg Reg.zero = 0
  stack : (m.reg Reg.stackPointer).toInt + a.pushed = base
  memory : m.memory.size = size

/-- The machine bears the values of all variables, as far as they have one. -/
structure Bearing (base : Int) (size : Nat) (last : VarId → Option Word) (a : Allocator) (m : Machine) : Prop
    extends Based base size a m where
  fresh : ∀ {id}, a.vars.size ≤ id → last id = none
  bears : ∀ {id v x}, a.var? id = some v → last id = some x → v.Bears base m x

/-- A register holds a word, and so it stays: the variable in it, if there is one, has that value. -/
structure Secures (last : VarId → Option Word) (a : Allocator) (m : Machine) (r : Reg) (x : Word) : Prop where
  holds : m.reg r = x
  own : ∀ {id v}, a.var? id = some v → v.storage = .register r → last id = some x

section

open Allocator

variable {a a' : Allocator} {id other : VarId} {v v' u : Variable} {r : Reg} {base : Int} {size : Nat} {m m' : Machine}
  {x : Word} {home : Home} {K : VarId → Prop} {T : Reg → Prop} {code : List MachineInstr}
  {last : VarId → Option Word}

theorem memory?_scalar (scalar : v.array = none) : v.memory? = v.home := by
  rw [Variable.memory?, scalar]
  rfl

/-- A variable has its value as long as memory and its register stay as they are. -/
theorem Variable.Bears.still (bears : v.Bears base m x) (memory : m'.memory = m.memory)
    (reg : ∀ {r}, v.storage = .register r → m'.reg r = m.reg r) : v.Bears base m' x := by
  have cells : ∀ home, m'.cellOf? base home = m.cellOf? base home := fun _ => cell?_of_memory memory
  refine ⟨bears.address, fun there fresh => ?_, fun scalar stands => ?_, fun scalar there clean shared has => ?_⟩
  · rw [reg there]
    exact bears.register there fresh
  · rw [cells]
    exact bears.memory scalar stands
  · rw [cells]
    exact bears.home scalar there clean shared has

/-- Registers that no variable is in and memory are of no concern to a variable elsewhere. -/
theorem Variable.Bears.writes (bears : v.Bears base m x) (writes : Writes r m m')
    (elsewhere : v.storage ≠ .register r) (carried : ∀ {s}, v.storage = .register s → s.Carries) :
    v.Bears base m' x :=
  bears.still writes.memory fun there =>
    writes.others (fun same => elsewhere (same ▸ there)) (carried there).ne.2.2.1

/-- A store elsewhere than in the home of a variable is of no concern to it. -/
theorem Variable.Bears.store {n : Nat} {w : Word} (bears : v.Bears base m x)
    (memory : ∀ {home}, v.storage = .memory home → v.memory? = some home)
    (elsewhere : ∀ {home}, v.home = some home → (home.address base).toNat ≠ n) : v.Bears base (m.store n w) x := by
  refine ⟨bears.address, bears.register, fun scalar stands => ?_, fun scalar there clean shared has => ?_⟩
  · have has := (memory?_scalar scalar).symm.trans (memory stands)
    exact (cell?_store_of_ne (elsewhere has)).trans (bears.memory scalar stands)
  · exact (cell?_store_of_ne (elsewhere has)).trans (bears.home scalar there clean shared has)

namespace Based

variable (based : Based base size a m)

include based

/-- The address that code forms of a home is that of the home. -/
theorem formed {address : Address} (known : address? a home = some address) :
    (m.reg address.base).toInt + address.offset = home.address base := by
  cases home with
  | global x =>
    cases known
    rw [based.zero]
    exact Int.zero_add _
  | frame slot =>
    rw [address?] at known
    split at known
    · cases known
      rw [Home.address, ← based.stack, Int.add_assoc]
    · cases known

theorem congr (pushed : a'.pushed = a.pushed) : Based base size a' m :=
  ⟨based.zero, by rw [pushed, based.stack], based.memory⟩

theorem store (n : Nat) (w : Word) : Based base size a (m.store n w) :=
  ⟨based.zero, based.stack, size_store.trans based.memory⟩

theorem writes (writes : Writes r m m') (aside : r ≠ Reg.stackPointer) : Based base size a m' where
  zero := writes.zero.trans based.zero
  stack := by rw [writes.others aside.symm (by decide), based.stack]
  memory := by rw [writes.memory, based.memory]

end Based

/-- What a deed does to the machine: nothing, or a store in the home of its variable, or a write of the register of
its variable or of one that variables may come to. -/
inductive Touch (T : Reg → Prop) (a : Allocator) (base : Int) (m : Machine) (v v' : Variable) : Machine → Prop where
  | nothing : Touch T a base m v v' m
  | store {home : Home} {n : Nat} (w : Word) (has : v'.home = some home) (at_ : home.address base = n) :
    Touch T a base m v v' (m.store n w)
  | write {r : Reg} {m' : Machine} (writes : Writes r m m')
      (place : v.storage = .register r ∨ T r ∧ a.Vacant r) : Touch T a base m v v' m'

namespace Touch

theorem based (touch : Touch T a base m v v' m') (start : Based base size a m) (narrow : ∀ r, T r → r.Carries)
    (carried : ∀ {r}, v.storage = .register r → r.Carries) : Based base size a m' := by
  cases touch with
  | nothing => exact start
  | store w has at_ => exact start.store _ w
  | write writes place => exact start.writes writes (place.elim carried fun new => narrow _ new.1).ne.2.1

/-- Other variables keep their values. -/
theorem others (touch : Touch T a base m v v' m') (tidy : Tidy a) (tidy' : Tidy a') (room : Room base size a')
    (found : a.var? id = some v) (found' : a'.var? id = some v') (different : other ≠ id)
    (known : a.var? other = some u) (known' : a'.var? other = some u) (bears : u.Bears base m x) :
    u.Bears base m' x := by
  cases touch with
  | nothing => exact bears
  | @store home n w has at_ =>
    refine bears.store (tidy.memory known) fun {h} has' same => ?_
    obtain ⟨n', at', -⟩ := room.inside (tidy'.granted known' has')
    have equal : h.address base = home.address base := by
      rw [at_, at', ← same, at']
      rfl
    cases room.apart (tidy'.granted known' has') (tidy'.granted found' has) equal
    exact different (tidy'.apart known' found' has' has)
  | write writes place =>
    refine bears.writes writes (fun there => ?_) (tidy.carried known)
    obtain own | ⟨-, vacant⟩ := place
    · exact different (tidy.alone known found there own)
    · exact vacant known there

end Touch

/-- The instruction that loads a variable does so. -/
theorem Variable.LoadedBy.effect {i : MachineInstr} (loaded : v.LoadedBy a r i) (based : Based base size a m)
    (room : Room base size a) (granted : ∀ {home}, v.home = some home → a.Grants home)
    (memory : ∀ {home}, v.storage = .memory home → v.memory? = some home) (carries : r.Carries) :
    ∃ m', m.effect i = .ok m' ∧ Writes r m m' ∧ ∀ x, (∀ {home}, v.array = some home → Word.ofInt (home.address base) = x) →
      (∀ {home}, v.array = none → v.home = some home → m.cellOf? base home = some x) → m'.reg r = x := by
  obtain ⟨nonzero, -, noStatus, -⟩ := carries.ne
  cases loaded with
  | @address home address array known =>
    refine ⟨_, rfl, effect_writes (i := .addi r address.base address.offset) rfl rfl, fun x isAddress _ => ?_⟩
    rw [based.formed known, ← isAddress array]
    exact setChecked_cases (P := fun m' => m'.reg r = _) (reg_setReg_self _ _ _ nonzero)
      ((reg_setReg_of_ne _ _ noStatus).trans (reg_setReg_self _ _ _ nonzero))
  | @word home address scalar place known =>
    have has : v.home = some home := place.elim (fun stands => (memory?_scalar scalar).symm.trans (memory stands))
      fun own => own.2
    obtain ⟨n, at_, inside⟩ := room.inside (granted has)
    have done := effect_lw (m := m) (r := r) ((based.formed known).trans at_) (based.memory ▸ inside)
    refine ⟨_, done, effect_writes (i := .lw r address.base address.offset) rfl done, fun x _ holds => ?_⟩
    have cell := holds scalar has
    rw [Machine.cellOf?, at_, Int.toNat_natCast] at cell
    rw [reg_setReg_self _ _ _ nonzero, cell]
    rfl

/-- What a change of a variable that keeps its value does to the machine. -/
theorem Allocator.Shift.performs {value : Option Word} (shift : Shift T a a' v v' code) (based : Based base size a m)
    (room : Room base size a') (onward : Onward a a') (narrow : ∀ r, T r → r.Carries) (found : a.var? id = some v)
    (granted : ∀ {home}, v.home = some home → a.Grants home)
    (memory : ∀ {home}, v.storage = .memory home → v.memory? = some home)
    (carried : ∀ {r}, v.storage = .register r → r.Carries) (bears : ∀ {x}, value = some x → v.Bears base m x) :
    ∃ m', m.performs code = .ok m' ∧ Touch T a base m v v' m' ∧ (∀ {x}, value = some x → v'.Bears base m' x) ∧
      ∀ {r x}, value = some x → v.storage = .register r → m.reg r = x → m'.reg r = x := by
  have before : Room base size a := room.of_grows onward.toGrows
  -- a register that goes to the home of its variable
  have stores : ∀ {r : Reg} {home : Home} {address : Address}, a'.Grants home → address? a home = some address →
      ∃ n : Nat, home.address base = n ∧ m.performs [.sw r address.base address.offset] = .ok (m.store n (m.reg r)) ∧
        (m.store n (m.reg r)).cellOf? base home = some (m.reg r) := by
    intro r home address given known
    obtain ⟨n, at_, inside⟩ := room.inside given
    rw [← based.memory] at inside
    refine ⟨n, at_, performs_one.trans (effect_sw ((based.formed known).trans at_) inside), ?_⟩
    rw [cellOf?, at_, Int.toNat_natCast]
    exact cell?_store_self inside
  cases shift with
  | note storage home array isTemp isDirty reload =>
    refine ⟨m, rfl, .nothing, fun {x} has => ?_, fun _ _ holds => holds⟩
    have old := bears has
    have exposed : v.mustReload = true → v'.mustReload = true := fun old =>
      reload.elim (fun same => same.trans old) fun new => new.2
    refine ⟨fun is => old.address (array ▸ is), fun there fresh => ?_, fun scalar stands => ?_,
      fun scalar there clean shared has => ?_⟩
    · refine old.register (storage ▸ there) fun stale => fresh ?_
      exact ⟨array.trans stale.1, isTemp.trans stale.2.1, exposed stale.2.2.1, isDirty.trans stale.2.2.2⟩
    · exact old.memory (array ▸ scalar) (storage ▸ stands)
    · refine old.home (array ▸ scalar) (storage ▸ there) (isDirty ▸ clean) ?_ (home ▸ has)
      obtain same | ⟨named, -⟩ := reload
      · exact shared.imp (isTemp.symm.trans ·) (same.symm.trans ·)
      · exact .inl named
  | @store r home address there dirty has known =>
    obtain ⟨n, at_, done, cell⟩ := stores (r := r) (onward.grants (granted has)) known
    refine ⟨_, done, .store _ has at_, fun {x} valued => ?_, fun _ _ holds => holds⟩
    have holds : m.reg r = x := (bears valued).register there fun stale => by
      rw [stale.2.2.2] at dirty
      cases dirty
    rw [holds] at cell ⊢
    refine ⟨(bears valued).address, fun there' _ => ?_, fun _ stands => ?_, fun _ _ _ _ has' => ?_⟩
    · cases there.symm.trans there'
      exact holds
    · cases there.symm.trans stands
    · cases has.symm.trans has'
      exact cell
  | @spill r home address there isTemp has known =>
    obtain ⟨h, goes⟩ : ∃ h, ({ v with home := some home, isDirty := false } : Variable).memory? = some h := by
      cases v.array <;> simp [Variable.memory?]
    have stands := parted_stands goes
    have given : a'.Grants home := has.elim (fun old => onward.grants (granted old)) fun new => new.2.2
    obtain ⟨n, at_, done, cell⟩ := stores (r := r) given known
    refine ⟨_, done, .store _ rfl at_, fun {x} valued => ?_, fun _ _ holds => holds⟩
    have holds : m.reg r = x := (bears valued).register there fun stale => by
      rw [stale.2.1] at isTemp
      cases isTemp
    rw [holds] at cell ⊢
    refine ⟨(bears valued).address, fun there' _ => ?_, fun scalar stands' => ?_, fun _ there' => ?_⟩
    · cases stands.symm.trans there'
    · cases stands.symm.trans stands'
      cases (memory?_scalar (v := { v with home := some home, isDirty := false }) scalar).symm.trans goes
      exact cell
    · cases stands.symm.trans there'
  | @part r there isNamed clean has =>
    obtain ⟨home, has⟩ := Option.isSome_iff_exists.1 has
    have storage := parted_stands has
    refine ⟨m, rfl, .nothing, fun {x} valued => ?_, fun _ _ holds => holds⟩
    refine ⟨(bears valued).address, fun there' _ => ?_, fun scalar stands => ?_, fun _ there' => ?_⟩
    · cases storage.symm.trans there'
    · cases storage.symm.trans stands
      exact (bears valued).home scalar there clean (.inl isNamed) ((memory?_scalar scalar).symm.trans has)
    · cases storage.symm.trans there'
  | @fetch _ r i away usable vacant loaded there home array isTemp isDirty reload =>
    obtain ⟨m', done, writes, reads⟩ := loaded.effect based before granted memory (narrow _ usable)
    refine ⟨m', performs_one.trans done, .write writes (.inr ⟨usable, vacant⟩), fun {x} valued => ?_,
      fun _ there' _ => ?_⟩
    · have old := bears valued
      have cell : ∀ {h}, v.array = none → v.home = some h → m.cellOf? base h = some x := by
        intro h scalar has
        cases loaded with
        | address isArray known => cases isArray.symm.trans scalar
        | word _ place known =>
          obtain stands | ⟨⟨s, there'⟩, -⟩ := place
          · have has' := (memory?_scalar scalar).symm.trans (memory stands)
            cases has.symm.trans has'
            exact old.memory scalar stands
          · cases (congrArg Storage.register? there').symm.trans away
      have holds : m'.reg r = x := reads x old.address cell
      refine ⟨fun is => old.address (array ▸ is), fun there' _ => ?_, fun scalar stands => ?_,
        fun scalar _ _ _ has => ?_⟩
      · cases there.symm.trans there'
        exact holds
      · cases there.symm.trans stands
      · exact (cell?_of_memory writes.memory).trans (cell (array ▸ scalar) (home ▸ has))
    · cases (congrArg Storage.register? there').symm.trans away
  | @reload r i there reloads clean loaded =>
    obtain ⟨m', done, writes, reads⟩ := loaded.effect based before granted memory (carried there)
    have loads : ∀ {x}, value = some x → m'.reg r = x := fun valued =>
      reads _ (bears valued).address fun scalar has => (bears valued).home scalar there clean (.inr reloads) has
    refine ⟨m', performs_one.trans done, .write writes (.inl there), fun {x} valued => ?_, fun valued there' _ => ?_⟩
    · refine ⟨(bears valued).address, fun there' _ => ?_, fun _ stands => ?_, fun scalar there' clean shared has => ?_⟩
      · cases there.symm.trans there'
        exact loads valued
      · cases there.symm.trans stands
      · exact (cell?_of_memory writes.memory).trans ((bears valued).home scalar there' clean shared has)
    · cases there.symm.trans there'
      exact loads valued
  | @relocate r target there usable vacant =>
    have done := effect_move (r := target) (q := r) based.zero
    have writes := effect_writes (i := MachineInstr.move target r) rfl done
    refine ⟨_, performs_one.trans done, .write writes (.inr ⟨usable, vacant⟩), fun {x} valued => ?_,
      fun {s x} valued there' holds => ?_⟩
    · have old := bears valued
      refine ⟨old.address, fun there' fresh => ?_, fun _ stands => ?_, fun scalar there' clean shared has => ?_⟩
      · cases there'
        exact (reg_setReg_self _ _ _ (narrow _ usable).ne.1).trans (old.register there fresh)
      · cases stands
      · exact (cell?_of_memory writes.memory).trans (old.home scalar there clean shared has)
    · cases there.symm.trans there'
      exact (writes.others (fun same => vacant found (same ▸ there)) (carried there).ne.2.2.1).trans holds

/-! ### Deeds -/

/-- Nothing that is known about variables changes, or some are gone. -/
theorem Bearing.fewer (bearing : Bearing base size last a m) (onward : Onward a a')
    (vars : ∀ {id v}, a'.var? id = some v → a.var? id = some v ∨ last id = none) : Bearing base size last a' m where
  toBased := bearing.toBased.congr onward.pushed
  fresh beyond := bearing.fresh (Nat.le_trans onward.size beyond)
  bears found valued := by
    obtain known | unvalued := vars found
    · exact bearing.bears known valued
    · cases unvalued.symm.trans valued

theorem Secures.fewer (secures : Secures last a m r x) (vars : ∀ {id v}, a'.var? id = some v →
    a.var? id = some v ∨ v.storage ≠ .register r) : Secures last a' m r x where
  holds := secures.holds
  own found there := by
    obtain known | elsewhere := vars found
    · exact secures.own known there
    · exact (elsewhere there).elim

/-- What a deed on one variable leaves behind, given what it does to the machine. -/
theorem Touch.leaves (touch : Touch T a base m v v' m') (tidy : Tidy a) (tidy' : Tidy a') (room : Room base size a')
    (onward : Onward a a') (narrow : ∀ r, T r → r.Carries) (found : a.var? id = some v)
    (vars : ∀ other, a'.var? other = if other = id then some v' else a.var? other)
    (placing : Placing T a a' (some v) v') (bearing : Bearing base size last a m)
    (bears : ∀ {x}, last id = some x → v'.Bears base m' x)
    (keeps : ∀ {r x}, last id = some x → v.storage = .register r → m.reg r = x → m'.reg r = x) :
    Bearing base size last a' m' ∧
      ∀ {r x}, ¬ T r → r ≠ Reg.status → Secures last a m r x → Secures last a' m' r x := by
  have found' : a'.var? id = some v' := (vars id).trans (if_pos rfl)
  have others : ∀ {other u}, other ≠ id → a'.var? other = some u → a.var? other = some u :=
    fun different known => ((vars _).trans (if_neg different)).symm.trans known
  constructor
  · refine ⟨(touch.based bearing.toBased narrow (tidy.carried found)).congr onward.pushed,
      fun beyond => bearing.fresh (Nat.le_trans onward.size beyond), fun {other u x} known valued => ?_⟩
    by_cases same : other = id
    · subst same
      cases found'.symm.trans known
      exact bears valued
    · have before := others same known
      exact touch.others tidy tidy' room found found' same before known (bearing.bears before valued)
  · intro r x closed noStatus secures
    refine ⟨?_, fun {other u} known there => ?_⟩
    · cases touch with
      | nothing => exact secures.holds
      | store w has at_ => exact secures.holds
      | @write s _ writes place =>
        by_cases same : r = s
        · subst same
          have own := place.resolve_right fun new => closed new.1
          exact keeps (secures.own found own) own secures.holds
        · exact (writes.others same noStatus).trans secures.holds
    · by_cases same : other = id
      · subst same
        cases found'.symm.trans known
        obtain ⟨old, known', was⟩ | ⟨usable, -⟩ := placing.register there
        · cases known'
          exact secures.own found was
        · exact (closed usable).elim
      · exact secures.own (others same known) there

/-- The code of a deed executes. The machine bears the values of variables behind it, and registers that nothing may
come to hold what they held. -/
theorem Allocator.Deed.performs (deed : Deed K T a a' code) (tidy : Tidy a) (room : Room base size a')
    (narrow : ∀ r, T r → r.Carries) (unwritten : ∀ {id}, K id → last id = none) (bearing : Bearing base size last a m) :
    ∃ m', m.performs code = .ok m' ∧ Bearing base size last a' m' ∧
      ∀ {r x}, ¬ T r → r ≠ Reg.status → Secures last a m r x → Secures last a' m' r x := by
  have tidy' := deed.tidy tidy narrow
  cases deed with
  | aside onward vars =>
    exact ⟨m, rfl, bearing.fewer onward fun found => .inl ((vars _).symm.trans found),
      fun _ _ secures => secures.fewer fun found => .inl ((vars _).symm.trans found)⟩
  | @add v onward vars placing =>
    have unvalued : last a.vars.size = none := bearing.fresh (Nat.le_refl _)
    have cases_of : ∀ {id u}, a'.var? id = some u → (id = a.vars.size ∧ u = v) ∨ a.var? id = some u := by
      intro id u found
      rw [vars] at found
      split at found
      · next same =>
        cases found
        exact .inl ⟨same, rfl⟩
      · exact .inr found
    refine ⟨m, rfl, bearing.fewer onward fun found => (cases_of found).symm.imp_right fun new => ?_,
      fun closed _ secures => secures.fewer fun found => (cases_of found).symm.imp_right fun new there => ?_⟩
    · rw [new.1]
      exact unvalued
    · rw [new.2] at there
      obtain ⟨old, known, -⟩ | ⟨usable, -⟩ := placing.register there
      · cases known
      · exact closed usable
  | drop id onward vars =>
    have before : ∀ {other u}, a'.var? other = some u → a.var? other = some u := by
      intro other u found
      rw [vars] at found
      split at found
      · cases found
      · exact found
    exact ⟨m, rfl, bearing.fewer onward fun found => .inl (before found),
      fun _ _ secures => secures.fewer fun found => .inl (before found)⟩
  | @shift id v v' _ onward found vars shift =>
    obtain ⟨m', done, touch, bears, keeps⟩ := shift.performs bearing.toBased room onward narrow found
      (tidy.granted found) (tidy.memory found) (tidy.carried found) (bearing.bears found)
    exact ⟨m', done, touch.leaves tidy tidy' room onward narrow found vars (shift.placing (tidy.memory found)) bearing
      bears keeps⟩
  | @rewrite id v v' onward found written vars array placing =>
    have unvalued := unwritten written
    refine ⟨m, rfl, Touch.nothing.leaves tidy tidy' room onward narrow found vars placing bearing (fun valued => ?_)
      fun valued => ?_⟩ <;> cases unvalued.symm.trans valued
  | @overwrite id v v' r home address onward found written vars has known array placing =>
    have unvalued := unwritten written
    obtain ⟨n, at_, inside⟩ := room.inside (tidy'.granted ((vars id).trans (if_pos rfl)) has)
    have done := effect_sw (m := m) (r := r) ((bearing.formed known).trans at_) (bearing.memory ▸ inside)
    refine ⟨_, performs_one.trans done, (Touch.store _ has at_).leaves tidy tidy' room onward narrow found vars placing
      bearing (fun valued => ?_) fun valued => ?_⟩ <;> cases unvalued.symm.trans valued

/-- What is known afterwards about a variable of before was known before. -/
theorem Allocator.Deed.known_before (deed : Deed K T a a' code) (old : id < a.vars.size)
    (known : a'.var? id = some v') : ∃ v, a.var? id = some v := by
  cases deed with
  | aside onward vars => exact ⟨v', (vars id).symm.trans known⟩
  | add onward vars placing => exact ⟨v', ((vars id).trans (if_neg (Nat.ne_of_lt old))).symm.trans known⟩
  | drop gone onward vars =>
    rw [vars] at known
    split at known
    · cases known
    · exact ⟨v', known⟩
  | @shift changed v _ _ onward found vars _ | @rewrite changed v _ onward found _ vars _ _
  | @overwrite changed v _ _ _ _ onward found _ vars _ _ _ _ =>
    rw [vars] at known
    split at known
    · next same => exact ⟨v, same ▸ found⟩
    · exact ⟨v', known⟩

theorem Allocator.Deeds.known_before (deeds : Deeds K T a a' code) (old : id < a.vars.size)
    (known : a'.var? id = some v') : ∃ v, a.var? id = some v := by
  induction deeds generalizing v' with
  | refl => exact ⟨v', known⟩
  | snoc first last ih =>
    obtain ⟨v, known⟩ := last.known_before (Nat.lt_of_lt_of_le old first.onward.size) known
    exact ih known

/-- Of one deed there is nothing to be seen before its instruction. -/
theorem Allocator.Deed.length_le (deed : Deed K T a a' code) : code.length ≤ 1 := by
  cases deed with
  | shift onward found vars shift => cases shift <;> simp
  | aside | add | drop | rewrite | overwrite => simp

/-- The code of deeds executes. The machine bears the values of variables behind it, and registers that nothing may
come to hold what they held; so it is behind every part of the code, with the state that the allocator was in. -/
theorem Allocator.Deeds.performs (deeds : Deeds K T a a' code) (tidy : Tidy a) (room : Room base size a')
    (narrow : ∀ r, T r → r.Carries) (unwritten : ∀ {id}, K id → last id = none) (bearing : Bearing base size last a m) :
    (∃ m', m.performs code = .ok m' ∧ Bearing base size last a' m' ∧
      ∀ {r x}, ¬ T r → r ≠ Reg.status → Secures last a m r x → Secures last a' m' r x) ∧
    ∀ part, part <+: code → ∃ b rest k, Deeds K T a b part ∧ Deeds K T b a' rest ∧ m.performs part = .ok k ∧
      Bearing base size last b k := by
  induction deeds with
  | refl =>
    refine ⟨⟨m, rfl, bearing, fun _ _ secures => secures⟩, fun part within => ?_⟩
    rw [List.prefix_nil.1 within]
    exact ⟨a, [], m, .refl, .refl, rfl, bearing⟩
  | @snoc b c code more first last ih =>
    obtain ⟨⟨m₁, done₁, bearing₁, secures₁⟩, parts⟩ := ih (room.of_grows last.onward.toGrows)
    obtain ⟨m₂, done₂, bearing₂, secures₂⟩ := last.performs (first.tidy tidy narrow) room narrow unwritten bearing₁
    have done := (performs_append done₁).trans done₂
    refine ⟨⟨m₂, done, bearing₂, fun closed noStatus secures =>
      secures₂ closed noStatus (secures₁ closed noStatus secures)⟩, fun part within => ?_⟩
    obtain whole | shorter := Nat.lt_or_ge code.length part.length
    · -- a part that is longer than the code before the last deed is all of it
      have all : part = code ++ more := by
        refine within.eq_of_length_le ?_
        have short := last.length_le
        rw [List.length_append]
        omega
      rw [all]
      exact ⟨c, [], m₂, .snoc first last, .refl, done, bearing₂⟩
    · obtain ⟨b', rest, k, before, behind, done', bearing'⟩ :=
        parts part (List.prefix_of_prefix_length_le within (List.prefix_append _ _) shorter)
      exact ⟨b', rest ++ more, k, before, .snoc behind last, done', bearing'⟩

/-! ### Words that are no variable's -/

variable {n : Nat}

/-- A word that was handed out and is the home of no variable, as those of arrays are. -/
def Allocator.Unowned (base : Int) (a : Allocator) (n : Nat) : Prop :=
  ∃ home, a.Grants home ∧ home.address base = n ∧ ∀ {id v}, a.var? id = some v → v.home ≠ some home

/-- Words that are no variable's stay so, and hold what they held. -/
structure Bypasses (base : Int) (a : Allocator) (m : Machine) (a' : Allocator) (m' : Machine) : Prop where
  unowned : ∀ {n}, a.Unowned base n → a'.Unowned base n
  cell : ∀ {n}, a.Unowned base n → m'.cell? n = m.cell? n

theorem Bypasses.trans {b : Allocator} {k : Machine} (first : Bypasses base a m b k) (second : Bypasses base b k a' m') :
    Bypasses base a m a' m' :=
  ⟨fun unowned => second.unowned (first.unowned unowned), fun unowned =>
    (second.cell (first.unowned unowned)).trans (first.cell unowned)⟩

theorem Bypasses.of_memory (memory : m'.memory = m.memory) : Bypasses base a m a m' :=
  ⟨fun unowned => unowned, fun _ => cell?_of_memory memory⟩

theorem Bypasses.aside (onward : Onward a a') (vars : ∀ other, a'.var? other = a.var? other) :
    Bypasses base a m a' m := by
  refine ⟨fun unowned => ?_, fun _ => rfl⟩
  obtain ⟨home, granted, at_, apart⟩ := unowned
  exact ⟨home, onward.grants granted, at_, fun found => apart ((vars _).symm.trans found)⟩

/-- Homes are those of before or were handed out since. -/
theorem Allocator.Deed.home_before (deed : Deed K T a a' code) (tidy : Tidy a) (found : a'.var? id = some v)
    (has : v.home = some home) : (∃ i u, a.var? i = some u ∧ u.home = some home) ∨ ¬ a.Grants home := by
  have changed : ∀ {i : VarId} {old : Option Variable} {u : Variable}, (∀ {u}, old = some u → a.var? i = some u) →
      (∀ other, a'.var? other = if other = i then some u else a.var? other) → Placing T a a' old u →
      (∃ i u, a.var? i = some u ∧ u.home = some home) ∨ ¬ a.Grants home := by
    intro i old u known vars placing
    rw [vars] at found
    split at found
    · cases found
      exact (placing.home has).imp (fun ⟨u, same, had⟩ => ⟨i, u, known same, had⟩) fun new => new.1
    · exact .inl ⟨_, _, found, has⟩
  cases deed with
  | aside onward vars => exact .inl ⟨id, v, (vars id).symm.trans found, has⟩
  | add onward vars placing => exact changed (fun none => by cases none) vars placing
  | drop gone onward vars =>
    rw [vars] at found
    split at found
    · cases found
    · exact .inl ⟨id, v, found, has⟩
  | shift onward known vars shift =>
    exact changed (fun same => same ▸ known) vars (shift.placing (tidy.memory known))
  | rewrite onward known _ vars _ placing => exact changed (fun same => same ▸ known) vars placing
  | overwrite onward known _ vars _ _ _ placing => exact changed (fun same => same ▸ known) vars placing

theorem Allocator.Unowned.deed (unowned : a.Unowned base n) (deed : Deed K T a a' code) (tidy : Tidy a) :
    a'.Unowned base n := by
  obtain ⟨home, granted, at_, apart⟩ := unowned
  refine ⟨home, deed.onward.grants granted, at_, fun found has => ?_⟩
  obtain ⟨i, u, known, had⟩ | new := deed.home_before tidy found has
  · exact apart known had
  · exact new granted

/-- What a deed does to the machine leaves words alone that are not the home of its variable. -/
theorem Touch.cell? (touch : Touch T a base m v v' m') (found : a'.var? id = some v') (tidy' : Tidy a')
    (room : Room base size a') (unowned : a'.Unowned base n) : m'.cell? n = m.cell? n := by
  cases touch with
  | nothing => rfl
  | @store own k w has at_ =>
    obtain ⟨home, granted, at', apart⟩ := unowned
    refine cell?_store_of_ne fun same => apart found ?_
    have equal : own.address base = home.address base := by rw [at_, at', same]
    rw [has, room.apart (tidy'.granted found has) granted equal]
  | write writes place => exact cell?_of_memory writes.memory

theorem Allocator.Deed.bypasses (deed : Deed K T a a' code) (tidy : Tidy a) (room : Room base size a')
    (narrow : ∀ r, T r → r.Carries) (bearing : Bearing base size last a m) (done : m.performs code = .ok m') :
    Bypasses base a m a' m' := by
  have tidy' := deed.tidy tidy narrow
  refine ⟨fun unowned => unowned.deed deed tidy, fun unowned => ?_⟩
  have unowned' := unowned.deed deed tidy
  cases deed with
  | aside | add | drop | rewrite =>
    cases done
    rfl
  | @shift id v v' _ onward found vars shift =>
    obtain ⟨k, did, touch, -⟩ := shift.performs bearing.toBased room onward narrow found (tidy.granted found)
      (tidy.memory found) (tidy.carried found) (bearing.bears found)
    cases did.symm.trans done
    exact touch.cell? ((vars id).trans (if_pos rfl)) tidy' room unowned'
  | @overwrite id v v' r home address onward found written vars has known array placing =>
    have found' := (vars id).trans (if_pos rfl)
    obtain ⟨k, at_, inside⟩ := room.inside (tidy'.granted found' has)
    have stored := effect_sw (m := m) (r := r) ((bearing.formed known).trans at_) (bearing.memory ▸ inside)
    cases (performs_one.trans stored).symm.trans done
    exact (Touch.store (T := T) (a := a) (v := v) _ has at_).cell? found' tidy' room unowned'

/-- Deeds leave the words alone that are no variable's. -/
theorem Allocator.Deeds.bypasses (deeds : Deeds K T a a' code) (tidy : Tidy a) (room : Room base size a')
    (narrow : ∀ r, T r → r.Carries) (unwritten : ∀ {id}, K id → last id = none) (bearing : Bearing base size last a m)
    (done : m.performs code = .ok m') : Bypasses base a m a' m' := by
  induction deeds generalizing m' with
  | refl =>
    cases done
    exact .of_memory rfl
  | @snoc b c code more first last ih =>
    have room₁ := room.of_grows last.onward.toGrows
    obtain ⟨⟨m₁, done₁, bearing₁, -⟩, -⟩ := first.performs tidy room₁ narrow unwritten bearing
    exact (ih room₁ done₁).trans (last.bypasses (first.tidy tidy narrow) room narrow bearing₁
      ((performs_append done₁).symm.trans done))

end

end SmallC
