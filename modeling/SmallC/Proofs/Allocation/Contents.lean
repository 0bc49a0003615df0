import SmallC.Proofs.Allocation.Growing
import SmallC.Proofs.Machine.Performing

/-!
What the machine holds while the code of the allocator runs. The value of a variable is where the
allocator has it, and also in its home as long as the register is not newer. Taking a register writes the
variable in it home before the register is used for something else.
-/
namespace SmallC

open Alloc Allocator Machine

/-- The address of a home, if the frame begins at the given address. -/
def Home.address (base : Int) : Home → Int
  | .global address => address
  | .frame slot => base + slot

/-- What a machine holds in a home. -/
def Machine.cellOf? (m : Machine) (base : Int) (home : Home) : Option Word :=
  m.cell? (home.address base).toNat

namespace Allocator

variable {a a' : Allocator} {base : Int} {size : Nat} {home home' : Home}

/-- The global words handed out so far, and the slots of the frame, which begins at the given address,
lie apart from each other in a memory of the given size. -/
structure Room (base : Int) (size : Nat) (a : Allocator) : Prop where
  globals : a.globals ≤ size
  frame : ∀ {slots slot : Nat}, a.frame = some slots → slot < slots →
    a.globals ≤ base + slot ∧ base + slot < size

namespace Room

theorem inside (room : Room base size a) (granted : a.Grants home) :
    ∃ n : Nat, home.address base = n ∧ n < size := by
  cases home with
  | global address => exact ⟨address, rfl, Nat.lt_of_lt_of_le granted room.globals⟩
  | frame slot =>
    obtain ⟨slots, frame, bound⟩ := granted
    obtain ⟨low, high⟩ := room.frame frame bound
    refine ⟨(base + slot).toNat, ?_, ?_⟩
    · rw [Home.address]
      omega
    · omega

/-- Different homes have different addresses. -/
theorem apart (room : Room base size a) (granted : a.Grants home) (granted' : a.Grants home')
    (same : home.address base = home'.address base) : home = home' := by
  cases home with
  | global address =>
    cases home' with
    | global address' =>
      have same : (address : Int) = address' := same
      rw [Int.ofNat_inj.1 same]
    | frame slot =>
      obtain ⟨slots, frame, bound⟩ := granted'
      have low := (room.frame frame bound).1
      have high : address < a.globals := granted
      have same : (address : Int) = base + slot := same
      omega
  | frame slot =>
    cases home' with
    | global address =>
      obtain ⟨slots, frame, bound⟩ := granted
      have low := (room.frame frame bound).1
      have high : address < a.globals := granted'
      have same : base + slot = (address : Int) := same
      omega
    | frame slot' =>
      have same : base + (slot : Int) = base + slot' := same
      have same' : slot = slot' := by omega
      rw [same']

/-- There was room for what was handed out before. -/
theorem of_grows (room : Room base size a') (grows : Grows a a') : Room base size a := by
  have globals : a.globals ≤ a'.globals := by
    by_cases none : a.globals = 0
    · omega
    · have last : a.Grants (.global (a.globals - 1)) := by
        change a.globals - 1 < a.globals
        omega
      have last' : a.globals - 1 < a'.globals := grows.grants last
      omega
  refine ⟨globals.trans room.globals, fun {slots slot} frame inside => ?_⟩
  have granted : a.Grants (.frame slot) := ⟨slots, frame, inside⟩
  obtain ⟨slots', frame', inside'⟩ := grows.grants granted
  obtain ⟨low, high⟩ := room.frame frame' inside'
  omega

end Room

/-- Code can form the address of a home that was handed out. -/
theorem address_of_grants (granted : a.Grants home) : ∃ address, address? a home = some address := by
  cases home with
  | global address => exact ⟨_, rfl⟩
  | frame slot =>
    obtain ⟨slots, frame, -⟩ := granted
    exact ⟨_, if_pos (by rw [inFunction, frame]; rfl)⟩

end Allocator

/-- The machine has a value where the allocator has a variable. It also has that of a named one in the
home, unless the register is newer; a temporary is stored whenever it leaves its register. -/
structure Variable.Holds (base : Int) (m : Machine) (x : Word) (v : Variable) : Prop where
  register : ∀ {r}, v.storage = .register r → m.reg r = x
  memory : ∀ {home}, v.storage = .memory home → m.cellOf? base home = some x
  home : ∀ {r home}, v.isTemp = false → v.storage = .register r → v.isDirty = false →
    v.home = some home → m.cellOf? base home = some x

/-- The value that a variable has, if any, is in its home. -/
def Variable.Stored (base : Int) (m : Machine) (value : Option Word) (v : Variable) : Prop :=
  ∀ {x home}, v.array = none → value = some x → v.home = some home → m.cellOf? base home = some x

/-- A variable that is in a register of the pool if in any, and does not wait for a call; no pointer
changes a temporary. -/
structure Variable.Ordinary (v : Variable) : Prop where
  pooled : ∀ {r}, v.storage = .register r → r.isPool = true
  unsaved : ∀ slot, v.storage ≠ .saved slot
  settled : v.isTemp = true → v.mustReload = false

/-- The machine agrees with the allocator on where the values of the variables are, as far as they have
one. -/
structure Agrees (base : Int) (size : Nat) (last : VarId → Option Word) (a : Allocator) (m : Machine) :
    Prop where
  zero : m.reg Reg.zero = 0
  stack : (m.reg Reg.stackPointer).toInt + a.pushed = base
  memory : m.memory.size = size
  fresh : ∀ {id}, a.vars.size ≤ id → last id = none
  ordinary : ∀ {id v}, a.var? id = some v → v.Ordinary
  holds : ∀ {id v x}, a.var? id = some v → v.array = none → last id = some x → v.Holds base m x

theorem Reg.ne_of_isPool {r : Reg} (inPool : r.isPool = true) :
    r ≠ Reg.zero ∧ r ≠ Reg.stackPointer ∧ r ≠ Reg.status := by
  refine ⟨?_, ?_, ?_⟩ <;>
  · rintro rfl
    cases inPool

namespace Agrees

variable {base : Int} {size : Nat} {last : VarId → Option Word} {a a' : Allocator} {m m' : Machine}
  {id : VarId} {r : Reg} {v : Variable} {hand : List Reg} {home : Home}

/-- Of what is known about variables, only that about one changes. -/
theorem only (agrees : Agrees base size last a m) (id : VarId) (grows : Grows a a')
    (others : ∀ other, other ≠ id → a'.var? other = a.var? other)
    (own : ∀ v', a'.var? id = some v' → v'.Ordinary ∧
      ∀ x, v'.array = none → last id = some x → v'.Holds base m x) : Agrees base size last a' m where
  zero := agrees.zero
  stack := by
    rw [grows.pushed]
    exact agrees.stack
  memory := agrees.memory
  fresh above := agrees.fresh (grows.size.trans above)
  ordinary {i w} found := by
    by_cases here : i = id
    · subst here
      exact (own w found).1
    · rw [others i here] at found
      exact agrees.ordinary found
  holds {i w x} found scalar written := by
    by_cases here : i = id
    · subst here
      exact (own w found).2 x scalar written
    · rw [others i here] at found
      exact agrees.holds found scalar written

/-- Nothing that is known about variables changes. -/
theorem congr (agrees : Agrees base size last a m) (grows : Grows a a')
    (vars : ∀ other, a'.var? other = a.var? other) : Agrees base size last a' m := by
  refine agrees.only 0 grows (fun other _ => vars other) fun v' found => ?_
  rw [vars] at found
  exact ⟨agrees.ordinary found, fun x => agrees.holds found⟩

/-- The address that code forms of a home is that of the home. -/
theorem formed {address : Address} (agrees : Agrees base size last a m)
    (known : address? a home = some address) :
    (m.reg address.base).toInt + address.offset = home.address base := by
  cases home with
  | global x =>
    cases known
    rw [agrees.zero]
    exact Int.zero_add _
  | frame slot =>
    rw [address?] at known
    split at known
    · cases known
      rw [Home.address, ← agrees.stack, Int.add_assoc]
    · cases known

/-- A register may be written, if it holds no variable, or else with the value of the variable. -/
theorem write (agrees : Agrees base size last a m) (owners : Owners a)
    (aside : r ≠ Reg.stackPointer) (writes : Writes r m m')
    (own : ∀ {i w x}, a.ownerOf r = some i → a.var? i = some w → w.array = none →
      last i = some x → m'.reg r = x) : Agrees base size last a m' where
  zero := writes.zero.trans agrees.zero
  stack := by
    rw [writes.others aside.symm (by decide)]
    exact agrees.stack
  memory := by
    rw [writes.memory]
    exact agrees.memory
  fresh := agrees.fresh
  ordinary := agrees.ordinary
  holds {i w x} found scalar written := by
    have holds := agrees.holds found scalar written
    have cell : ∀ home, m'.cellOf? base home = m.cellOf? base home := fun home =>
      cell?_of_memory writes.memory
    refine ⟨fun {s} there => ?_, fun there => ?_, fun named there clean has => ?_⟩
    · have pooled := (agrees.ordinary found).pooled there
      by_cases here : s = r
      · subst here
        exact own (owners.owner.2 ⟨w, found, there⟩) found scalar written
      · rw [writes.others here (Reg.ne_of_isPool pooled).2.2]
        exact holds.register there
    · rw [cell]
      exact holds.memory there
    · rw [cell]
      exact holds.home named there clean has

/-- A variable in a register may be stored in its home, which is then up to date. -/
theorem store (agrees : Agrees base size last a m) (sound : Sound hand a) (room : Room base size a)
    (found : a.var? id = some v) (there : v.storage = .register r) (has : v.home = some home) {n : Nat}
    (address : home.address base = n) (inside : n < size) :
    Agrees base size last (a.setVar id { v with isDirty := false }) (m.store n (m.reg r)) ∧
      v.Stored base (m.store n (m.reg r)) (last id) := by
  have granted := sound.homes.granted found has
  have own : (m.store n (m.reg r)).cellOf? base home = some (m.reg r) := by
    rw [cellOf?, address]
    exact cell?_store_self (agrees.memory.symm ▸ inside)
  have cell : ∀ {i w home'}, i ≠ id → a.var? i = some w → w.home = some home' →
      (m.store n (m.reg r)).cellOf? base home' = m.cellOf? base home' := by
    intro i w home' apart found' has'
    refine cell?_store_of_ne fun same => apart ?_
    have granted' := sound.homes.granted found' has'
    obtain ⟨n', address', -⟩ := room.inside granted'
    have same' : home' = home := by
      refine room.apart granted' granted ?_
      omega
    exact sound.homes.apart found' found has' (same' ▸ has)
  refine ⟨⟨agrees.zero, agrees.stack, size_store.trans agrees.memory, fun {i} above => ?_,
    fun {i w} known => ?_, fun {i w x} known scalar written => ?_⟩, fun {x home'} scalar written has' => ?_⟩
  · refine agrees.fresh ?_
    rw [setVar, Array.size_setIfInBounds] at above
    exact above
  · rw [var?_setVar found] at known
    split at known
    · cases known
      have ordinary := agrees.ordinary found
      exact ⟨ordinary.pooled, ordinary.unsaved, ordinary.settled⟩
    · exact agrees.ordinary known
  · rw [var?_setVar found] at known
    split at known
    · next here =>
      subst here
      cases known
      have holds := agrees.holds found scalar written
      have value := holds.register there
      refine ⟨fun there' => holds.register there', fun there' => ?_, fun _ _ _ has' => ?_⟩
      · cases there.symm.trans there'
      · cases has.symm.trans has'
        rw [own, value]
    · next apart =>
      have holds := agrees.holds known scalar written
      refine ⟨fun there' => holds.register there', fun there' => ?_, fun named there' clean has' => ?_⟩
      · have memory := (sound.fits known).memory there'
        rw [Variable.memory?, scalar] at memory
        rw [cell apart known memory]
        exact holds.memory there'
      · rw [cell apart known has']
        exact holds.home named there' clean has'
  · cases has.symm.trans has'
    rw [own, (agrees.holds found scalar written).register there]

/-- A variable may be taken to have no value. -/
theorem forget (agrees : Agrees base size last a m) (id : VarId) :
    Agrees base size (Function.update last id none) a m where
  zero := agrees.zero
  stack := agrees.stack
  memory := agrees.memory
  fresh {i} above := by
    by_cases here : i = id
    · rw [here, Function.update_self]
    · rw [Function.update_of_ne here]
      exact agrees.fresh above
  ordinary := agrees.ordinary
  holds {i w x} found scalar written := by
    by_cases here : i = id
    · rw [here, Function.update_self] at written
      cases written
    · rw [Function.update_of_ne here] at written
      exact agrees.holds found scalar written

/-- A variable has the value that the machine holds for it. -/
theorem learn {x : Word} (agrees : Agrees base size last a m) (found : a.var? id = some v)
    (holds : v.Holds base m x) : Agrees base size (Function.update last id (some x)) a m where
  zero := agrees.zero
  stack := agrees.stack
  memory := agrees.memory
  fresh {i} above := by
    have apart : i ≠ id := by
      rintro rfl
      exact absurd (var?_lt found) (Nat.not_lt.2 above)
    rw [Function.update_of_ne apart]
    exact agrees.fresh above
  ordinary := agrees.ordinary
  holds {i w y} known scalar written := by
    by_cases here : i = id
    · subst here
      rw [Function.update_self] at written
      cases written
      cases found.symm.trans known
      exact holds
    · rw [Function.update_of_ne here] at written
      exact agrees.holds known scalar written

end Agrees

end SmallC
