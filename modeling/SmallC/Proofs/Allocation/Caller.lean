import SmallC.Proofs.Allocation.InUse

/-!
Calls leave the caller as it was. What runs between the preparation for a call and its end may write every register
but the stack pointer and every word of memory but the homes of variables and those in which things were put aside.
Behind it temporaries are in the registers that they left, with what was in them, and named variables are at home.
-/
namespace SmallC

open Alloc Allocator Machine

theorem FitsSigned.between {bits : Nat} {a b c : Int} (low : FitsSigned bits a) (high : FitsSigned bits c) (above : a ≤ b)
    (below : b ≤ c) : FitsSigned bits b :=
  ⟨Int.le_trans low.1 above, Int.lt_of_le_of_lt below high.2⟩

namespace Allocator

variable {a : Allocator} {base : Int} {size count : Nat}

/-- Room for all that was handed out, and inside of a function for what was pushed between the words of global memory
and the frame. -/
structure Spacious (base : Int) (size : Nat) (a : Allocator) : Prop extends Room base size a where
  stack : a.inFunction = true → (a.globals : Int) + a.pushed ≤ base ∧ base ≤ size

/-- Where the words begin in which so many temporaries are put aside. -/
def asideStart (base : Int) (a : Allocator) (count : Nat) : Nat :=
  if a.inFunction then (base - a.pushed - (count + 1 : Nat)).toNat else a.globals

/-- How many words these are. -/
def asideLength (a : Allocator) (count : Nat) : Nat := if a.inFunction then count + 1 else count

/-- The word that a number of the save area stands for. -/
def asidePlace (base : Int) (a : Allocator) (count : Nat) (slot : Nat) : Nat :=
  if a.inFunction then a.asideStart base count + slot else slot

/-- There is room to put so many temporaries aside. -/
structure RoomAside (base : Int) (size : Nat) (a : Allocator) (count : Nat) : Prop where
  level : 0 ≤ a.pushed
  stack : a.inFunction = true → (a.globals : Int) + a.pushed + (count + 1 : Nat) ≤ base ∧ base ≤ size
  globals : a.inFunction = false → a.globals + count ≤ size

/-- Homes are no words in which things are put aside. -/
theorem RoomAside.apart (room : RoomAside base size a count) {home : Home} (granted : a.Grants home) {n : Nat}
    (at_ : home.address base = n) : n < a.asideStart base count ∨ a.asideStart base count + a.asideLength count ≤ n := by
  have level := room.level
  cases home with
  | global address =>
    have below : address < a.globals := granted
    have same : (address : Int) = n := at_
    left
    unfold asideStart
    split
    · next inside =>
      have stack := (room.stack inside).1
      omega
    · omega
  | frame slot =>
    obtain ⟨slots, frame, -⟩ := granted
    have inside : a.inFunction = true := by simp [inFunction, frame]
    have stack := (room.stack inside).1
    have same : base + slot = n := at_
    right
    simp only [asideStart, asideLength, if_pos inside]
    omega

theorem asidePlace_add (a : Allocator) (base : Int) (count slot i : Nat) :
    a.asidePlace base count (slot + i) = a.asidePlace base count slot + i := by
  unfold asidePlace
  split
  · exact (Nat.add_assoc ..).symm
  · rfl

namespace RoomAside

variable (room : RoomAside base size a count)

include room

/-- The words for temporaries lie in memory. -/
theorem place_room : a.asidePlace base count a.saveSlot + count ≤ size := by
  have level := room.level
  cases inside : a.inFunction with
  | true =>
    have stack := room.stack inside
    simp only [asidePlace, asideStart, saveSlot, inside, if_true]
    omega
  | false => simpa [asidePlace, saveSlot, inside] using room.globals inside

omit room in
/-- The words for temporaries are behind that for the address to return to, if there is one. -/
theorem place_start (base : Int) (a : Allocator) (count : Nat) :
    (a.inFunction = true → a.asideStart base count < a.asidePlace base count a.saveSlot) ∧
    a.asideStart base count ≤ a.asidePlace base count a.saveSlot ∧
    a.asidePlace base count a.saveSlot + count = a.asideStart base count + a.asideLength count := by
  cases inside : a.inFunction with
  | true =>
    simp only [asidePlace, asideLength, saveSlot, inside, if_true]
    omega
  | false => simp [asidePlace, asideLength, asideStart, saveSlot, inside]

/-- The addresses that code forms of these words are theirs. -/
theorem formed {m : Machine} (zero : m.reg Reg.zero = 0)
    (stack : (m.reg Reg.stackPointer).toInt = base - a.pushed - a.saveWords count) (slot : Nat) :
    (m.reg a.saveBase).toInt + slot = a.asidePlace base count slot := by
  have level := room.level
  cases inside : a.inFunction with
  | true =>
    have space := room.stack inside
    simp only [saveWords, inside, if_true] at stack
    simp only [saveBase, asidePlace, asideStart, inside, if_true]
    omega
  | false =>
    simp only [saveBase, asidePlace, inside, Bool.false_eq_true, if_false, zero]
    exact Int.zero_add _

end RoomAside

end Allocator

section

variable {a : Allocator} {m m' : Machine} {base : Int} {size count : Nat} {temps : List (VarId × Reg)}

/-- What putting temporaries aside does to the machine. -/
structure PutAside (base : Int) (a : Allocator) (temps : List (VarId × Reg)) (m m' : Machine) : Prop where
  stack : (m'.reg Reg.stackPointer).toInt = (m.reg Reg.stackPointer).toInt - a.saveWords temps.length
  regs : ∀ {r}, r ≠ Reg.stackPointer → m'.reg r = m.reg r
  size : m'.memory.size = m.memory.size
  link : a.inFunction = true → m'.cell? (a.asideStart base temps.length) = some (m.reg Reg.returnAddress)
  words : ∀ s ∈ slotted a.saveSlot temps, s.2.1 ≠ Reg.stackPointer →
    m'.cell? (a.asidePlace base temps.length s.2.2) = some (m.reg s.2.1)
  others : ∀ {k}, k < a.asideStart base temps.length ∨
    a.asideStart base temps.length + a.asideLength temps.length ≤ k → m'.cell? k = m.cell? k

/-- The stack pointer is moved, and nothing else is. -/
theorem performs_moveStack {k : Int} (fits : FitsSigned 32 ((m.reg Reg.stackPointer).toInt + k)) :
    ∃ m', m.performs [.addi Reg.stackPointer Reg.stackPointer k] = .ok m' ∧
      (m'.reg Reg.stackPointer).toInt = (m.reg Reg.stackPointer).toInt + k ∧
      (∀ {r}, r ≠ Reg.stackPointer → m'.reg r = m.reg r) ∧ m'.memory = m.memory := by
  refine ⟨_, performs_one.trans (effect_addi fits), ?_, fun other => reg_setReg_of_ne _ _ other, memory_setReg ..⟩
  rw [reg_setReg_self _ _ _ (by decide), toInt_ofInt fits]

/-- The stack pointer can be moved down to make room. -/
theorem fits_aside (based : Based base size a m) (room : RoomAside base size a count) (inside : a.inFunction = true) :
    FitsSigned 32 ((m.reg Reg.stackPointer).toInt + -((count + 1 : Nat) : Int)) := by
  have stack := based.stack
  have space := (room.stack inside).1
  exact .between (a := 0) (by decide) (fits_toInt (m.reg Reg.stackPointer)) (by omega) (by omega)

/-- Inside of a function the stack is moved, and the address to return to is put aside. -/
theorem performs_linkCode (based : Based base size a m) (room : RoomAside base size a count) :
    ∃ m', m.performs (a.linkCode count) = .ok m' ∧
      (m'.reg Reg.stackPointer).toInt = (m.reg Reg.stackPointer).toInt - a.saveWords count ∧
      (∀ {r}, r ≠ Reg.stackPointer → m'.reg r = m.reg r) ∧ m'.memory.size = m.memory.size ∧
      (a.inFunction = true → m'.cell? (a.asideStart base count) = some (m.reg Reg.returnAddress)) ∧
      ∀ {k}, (a.inFunction = true → k ≠ a.asideStart base count) → m'.cell? k = m.cell? k := by
  cases inside : a.inFunction with
  | true =>
    have based' := based.stack
    have level := room.level
    obtain ⟨space, whole⟩ := room.stack inside
    obtain ⟨m₁, moved, stack₁, regs₁, memory₁⟩ := performs_moveStack (fits_aside based room inside)
    have start : (a.asideStart base count : Int) = (m₁.reg Reg.stackPointer).toInt := by
      rw [stack₁, asideStart, if_pos inside]
      omega
    have bound : a.asideStart base count < m₁.memory.size := by
      rw [memory₁, based.memory]
      omega
    have linked : m₁.effect (.sw Reg.returnAddress Reg.stackPointer 0) =
        .ok (m₁.store (a.asideStart base count) (m₁.reg Reg.returnAddress)) := effect_sw (by omega) bound
    refine ⟨m₁.store (a.asideStart base count) (m₁.reg Reg.returnAddress), ?_, ?_, fun other => ?_, ?_, fun _ => ?_,
      fun different => ?_⟩
    · rw [linkCode, if_pos inside]
      exact (performs_append moved).trans (performs_one.trans linked)
    · rw [reg_store, stack₁, saveWords, if_pos inside]
      rfl
    · rw [reg_store, regs₁ other]
    · rw [size_store, memory₁]
    · rw [cell?_store_self bound, regs₁ (by decide)]
    · rw [cell?_store_of_ne (different rfl), cell?_of_memory memory₁]
  | false =>
    refine ⟨m, ?_, ?_, fun _ => rfl, rfl, (nomatch ·), fun _ => rfl⟩
    · rw [linkCode, inside]
      rfl
    · rw [saveWords, inside]
      exact (Int.sub_zero _).symm

/-- The code that puts temporaries aside does so. -/
theorem performs_savingCode (temps : List (VarId × Reg)) (based : Based base size a m)
    (room : RoomAside base size a temps.length) :
    ∃ m', m.performs (a.savingCode temps) = .ok m' ∧ PutAside base a temps m m' := by
  obtain ⟨m₁, linked, stack₁, regs₁, size₁, link₁, others₁⟩ := performs_linkCode based room
  have based' := based.stack
  obtain ⟨m₂, done, stores⟩ := performs_storeCode (m := m₁) (n := a.asidePlace base temps.length a.saveSlot)
    a.saveBase a.saveSlot (temps.map Prod.snd)
    (room.formed ((regs₁ (by decide)).trans based.zero) (by omega) a.saveSlot)
    (by rw [size₁, based.memory, List.length_map]; exact room.place_room)
  have within := RoomAside.place_start base a temps.length
  refine ⟨m₂, (performs_append linked).trans done, ⟨?_, fun other => ?_, stores.size.trans size₁, fun inside => ?_,
    fun s member other => ?_, fun {k} outside => ?_⟩⟩
  · rw [stores.regs, stack₁]
  · rw [stores.regs, regs₁ other]
  · rw [stores.others (.inl (within.1 inside)), link₁ inside]
  · obtain ⟨i, found, at_⟩ := mem_slotted.1 member
    rw [at_, asidePlace_add, stores.words (by rw [List.getElem?_map, found]; rfl), regs₁ other]
  · rw [stores.others (by rw [List.length_map]; omega), others₁ fun inside => by have := within.1 inside; omega]

/-- A machine in which what was put aside waits where it was left. -/
structure Awaits (base : Int) (a : Allocator) (temps : List (VarId × Reg)) (m m' : Machine) : Prop where
  zero : m'.reg Reg.zero = 0
  stack : m'.reg Reg.stackPointer = m.reg Reg.stackPointer
  size : m'.memory.size = m.memory.size
  words : ∀ s ∈ slotted a.saveSlot temps, m'.cell? (a.asidePlace base temps.length s.2.2) =
    m.cell? (a.asidePlace base temps.length s.2.2)
  link : a.inFunction = true → m'.cell? (a.asideStart base temps.length) = m.cell? (a.asideStart base temps.length)

section

variable {m₁ m₂ : Machine} (based : Based base size a m) (room : RoomAside base size a temps.length)
  (aside : PutAside base a temps m m₁) (awaits : Awaits base a temps m₁ m₂)

include based room aside awaits

/-- Temporaries are loaded from the words in which they wait. -/
theorem performs_reloading (once : (temps.map Prod.snd).Nodup) (carries : ∀ t ∈ temps, t.2.Carries) :
    ∃ m₃, m₂.performs (loadCode a.saveBase (slotted a.saveSlot temps)) = .ok m₃ ∧ m₃.memory = m₂.memory ∧
      (∀ t ∈ temps, m₃.reg t.2 = m.reg t.2) ∧ ∀ r : Reg, ¬ r.Carries → m₃.reg r = m₂.reg r := by
  have carried : ∀ s ∈ slotted a.saveSlot temps, s.2.1.Carries := fun s member => by
    obtain ⟨i, found, -⟩ := mem_slotted.1 member
    exact carries _ (List.mem_of_getElem? found)
  have stack := based.stack
  have moved := aside.stack
  obtain ⟨m₃, loads, memory, loaded, others⟩ := performs_loadCode (m := m₂) a.saveBase (slotted a.saveSlot temps)
    (a.asidePlace base temps.length)
    (fun s _ => room.formed awaits.zero (by rw [awaits.stack, moved]; omega) s.2.2)
    (fun s member => by
      obtain ⟨i, found, at_⟩ := mem_slotted.1 member
      have bound := (List.getElem?_eq_some_iff.1 found).1
      have space := room.place_room
      rw [awaits.size, aside.size, based.memory, at_, asidePlace_add]
      omega)
    (by rwa [slotted_reg]) fun s member => by
      obtain ⟨noZero, noStack, -⟩ := (carried s member).ne
      refine ⟨?_, noZero⟩
      unfold saveBase
      split
      · exact noStack
      · exact noZero
  refine ⟨m₃, loads, memory, fun t member => ?_, fun r none => others r fun member => ?_⟩
  · obtain ⟨i, bound, found⟩ := List.getElem_of_mem member
    have slot : (t.1, t.2, a.saveSlot + i) ∈ slotted a.saveSlot temps :=
      mem_slotted.2 ⟨i, List.getElem?_eq_some_iff.2 ⟨bound, found⟩, rfl⟩
    have reads := loaded _ slot
    rw [awaits.words _ slot, aside.words _ slot (carried _ slot).ne.2.1] at reads
    exact reads
  · obtain ⟨s, waits, rfl⟩ := List.mem_map.1 member
    exact none (carried s waits)

/-- The code that brings temporaries back does so, if the stack pointer and the words in which they wait are as they
were left. -/
theorem performs_restoringCode (once : (temps.map Prod.snd).Nodup) (carries : ∀ t ∈ temps, t.2.Carries) :
    ∃ m₃, m₂.performs (restoringCode ⟨slotted a.saveSlot temps, a.saveWords temps.length⟩) = .ok m₃ ∧
      m₃.memory = m₂.memory ∧ m₃.reg Reg.stackPointer = m.reg Reg.stackPointer ∧
      (a.inFunction = true → m₃.reg Reg.returnAddress = m.reg Reg.returnAddress) ∧
      ∀ t ∈ temps, m₃.reg t.2 = m.reg t.2 := by
  obtain ⟨m₃, loads, memory₃, back, others⟩ := performs_reloading based room aside awaits once carries
  have stack₃ : m₃.reg Reg.stackPointer = m₁.reg Reg.stackPointer :=
    (others _ fun it => it.ne.2.1 rfl).trans awaits.stack
  have moved := aside.stack
  cases inside : a.inFunction with
  | true =>
    have stack := based.stack
    obtain ⟨space, whole⟩ := room.stack inside
    have level := room.level
    rw [saveWords, if_pos inside] at moved
    have start : (m₃.reg Reg.stackPointer).toInt + 0 = a.asideStart base temps.length := by
      rw [stack₃, moved, asideStart, if_pos inside]
      omega
    have begins : (a.asideStart base temps.length : Int) = base - a.pushed - (temps.length + 1 : Nat) := by
      rw [asideStart, if_pos inside]
      omega
    have linked := effect_lw (m := m₃) (r := Reg.returnAddress) start (by
      rw [memory₃, awaits.size, aside.size, based.memory]
      omega)
    obtain ⟨m₄, kept⟩ : ∃ m₄, m₃.setReg Reg.returnAddress ((m₃.cell? (a.asideStart base temps.length)).getD 0) = m₄ :=
      ⟨_, rfl⟩
    rw [kept] at linked
    have stack₄ : m₄.reg Reg.stackPointer = m₁.reg Reg.stackPointer := by
      rw [← kept, reg_setReg_of_ne _ _ (by decide), stack₃]
    obtain ⟨m₅, moves, stack₅, regs₅, memory₅⟩ := performs_moveStack (m := m₄) (k := (temps.length + 1 : Nat)) (by
      rw [stack₄, moved, Int.sub_add_cancel]
      exact fits_toInt _)
    have code : restoringCode ⟨slotted a.saveSlot temps, a.saveWords temps.length⟩ =
        loadCode a.saveBase (slotted a.saveSlot temps) ++ ([.lw Reg.returnAddress Reg.stackPointer 0] ++
          [.addi Reg.stackPointer Reg.stackPointer ((temps.length + 1 : Nat) : Int)]) := by
      simp [restoringCode, saveWords, saveBase, inside]
    refine ⟨m₅, ?_, ?_, ?_, fun _ => ?_, fun t member => ?_⟩
    · rw [code]
      exact (performs_append loads).trans ((performs_append (performs_one.trans linked)).trans moves)
    · rw [memory₅, ← kept, memory_setReg, memory₃]
    · apply BitVec.eq_of_toInt_eq
      rw [stack₅, stack₄, moved]
      omega
    · rw [regs₅ (by decide), ← kept, reg_setReg_self _ _ _ (by decide), cell?_of_memory memory₃, awaits.link inside,
        aside.link inside]
      rfl
    · obtain ⟨-, noStack, -, noLink⟩ := (carries t member).ne
      rw [regs₅ noStack, ← kept, reg_setReg_of_ne _ _ noLink, back t member]
  | false =>
    refine ⟨m₃, ?_, memory₃, ?_, fun entered => (by cases entered), back⟩
    · simpa [restoringCode, saveWords, saveBase, inside] using loads
    · apply BitVec.eq_of_toInt_eq
      rw [stack₃, moved, saveWords, inside]
      simp

end

/-! ### Registers are emptied -/

/-- Stores leave registers alone. -/
theorem reg_of_stores {code : List MachineInstr} (stores : ∀ i ∈ code, ∃ r b o, i = .sw r b o)
    (done : m.performs code = .ok m') (r : Reg) : m'.reg r = m.reg r := by
  induction code generalizing m with
  | nil =>
    cases done
    rfl
  | cons i rest ih =>
    obtain ⟨s, b, o, rfl⟩ := stores i List.mem_cons_self
    change (m.effect (.sw s b o) >>= fun mid => mid.performs rest) = .ok m' at done
    cases one : m.effect (.sw s b o) with
    | error e =>
      rw [one] at done
      cases done
    | ok mid =>
      rw [one] at done
      rw [ih (fun i member => stores i (.tail _ member)) done]
      obtain ⟨n, formed, at_⟩ | failed := address_cases m b o
      · simp only [effect, formed] at one
        cases one
        rfl
      · simp only [effect, failed] at one
        cases one

/-- The code that empties registers executes: values are kept, and so is what is in the registers. -/
theorem Alloc.Empties.performs {rs : List Reg} {w left : Work} {code : List MachineInstr}
    {last : VarId → Option Word} (empties : Empties rs temps w left) (tidy : Tidy w.allocator)
    (room : Room base size left.allocator) (bearing : Bearing base size last w.allocator m)
    (emitted : left.code.toList = w.code.toList ++ code) :
    ∃ m', m.performs code = .ok m' ∧ Bearing base size last left.allocator m' ∧ ∀ r, m'.reg r = m.reg r := by
  obtain ⟨code', emitted', deeds⟩ := empties.does
  obtain ⟨code'', emitted'', stores⟩ := empties.stores
  cases List.append_cancel_left (emitted.symm.trans emitted')
  cases List.append_cancel_left (emitted.symm.trans emitted'')
  obtain ⟨⟨m', done, bearing', -⟩, -⟩ := deeds.performs tidy room (fun _ => False.elim) (fun none => none.elim) bearing
  exact ⟨m', done, bearing', reg_of_stores stores done⟩

/-- A register that is newer than the home has the value of its variable. -/
theorem Variable.bears_of_dirty {v : Variable} {r : Reg} (scalar : v.array = none) (there : v.storage = .register r)
    (dirty : v.isDirty = true) : v.Bears base m (m.reg r) where
  address is := by cases scalar.symm.trans is
  register there' _ := by
    cases there.symm.trans there'
    rfl
  memory _ stands := by cases there.symm.trans stands
  home _ _ clean := by cases dirty.symm.trans clean

/-- A temporary that no pointer may have changed has the value in its register. -/
theorem Variable.bears_of_temp {v : Variable} {r : Reg} (scalar : v.array = none) (there : v.storage = .register r)
    (isTemp : v.isTemp = true) (reload : v.mustReload = false) : v.Bears base m (m.reg r) where
  address is := by cases scalar.symm.trans is
  register there' _ := by
    cases there.symm.trans there'
    rfl
  memory _ stands := by cases there.symm.trans stands
  home _ _ _ shared := by
    obtain isNamed | reloads := shared
    · cases isTemp.symm.trans isNamed
    · cases reload.symm.trans reloads

/-- A variable that a pointer may have changed has the value in its home. -/
theorem Variable.bears_of_stale {v : Variable} {r : Reg} {home : Home} {x : Word} (stale : v.Stale)
    (there : v.storage = .register r) (has : v.home = some home) (cell : m.cellOf? base home = some x) :
    v.Bears base m x where
  address is := by cases stale.1.symm.trans is
  register _ fresh := (fresh stale).elim
  memory _ stands := by cases there.symm.trans stands
  home _ _ _ _ has' := by
    cases has.symm.trans has'
    exact cell

/-! ### What a call may do, and what it leaves -/

/-- The words in which things wait for the innermost pending call to return. -/
def Allocator.Aside (base : Int) (a : Allocator) (k : Nat) : Prop :=
  ∃ save calls, a.calls = save :: calls ∧ ((save.words = 0 ∧ k ∈ save.saved.map fun s => s.2.2) ∨
    (base ≤ k + a.pushed ∧ k + a.pushed < base + save.words))

/-- Code that leaves alone the register that stays zero and the stack pointer, the words in which things wait, and
the homes of variables. -/
structure Spares (base : Int) (a : Allocator) (m m' : Machine) : Prop where
  zero : m'.reg Reg.zero = m.reg Reg.zero
  stack : m'.reg Reg.stackPointer = m.reg Reg.stackPointer
  size : m'.memory.size = m.memory.size
  aside : ∀ {k}, a.Aside base k → m'.cell? k = m.cell? k
  homes : ∀ {id v home}, a.var? id = some v → v.home = some home → m'.cellOf? base home = m.cellOf? base home

/-- The caller behind a call: temporaries are back in their registers with what was in them, named variables that were
in registers are at home with their values, and all others are as they were. -/
structure CallerKept (base : Int) (a : Allocator) (m : Machine) (a' : Allocator) (m' : Machine) : Prop where
  temps : ∀ {id v r}, a.var? id = some v → v.isTemp = true → v.storage = .register r →
    a'.var? id = some v ∧ m'.reg r = m.reg r
  named : ∀ {id v r}, a.var? id = some v → v.isTemp = false → v.storage = .register r → ∃ home,
    v.memory? = some home ∧ a'.var? id = some { v with storage := .memory home, isDirty := false } ∧
      ∀ {x}, v.array = none → v.Bears base m x → m'.cellOf? base home = some x
  others : ∀ {id v}, a.var? id = some v → v.storage.register? = none →
    a'.var? id = some v ∧ ∀ {x}, v.Bears base m x → v.Bears base m' x
  idle : a'.calls = []
  pushed : a'.pushed = a.pushed
  stack : m'.reg Reg.stackPointer = m.reg Reg.stackPointer
  link : a.inFunction = true → m'.reg Reg.returnAddress = m.reg Reg.returnAddress

/-- A variable in no register keeps its value as long as its home does. -/
theorem Variable.Bears.of_home {v : Variable} {x : Word} (bears : v.Bears base m x) (away : v.storage.register? = none)
    (memory : ∀ {home}, v.storage = .memory home → v.memory? = some home)
    (same : ∀ {home}, v.home = some home → m'.cellOf? base home = m.cellOf? base home) : v.Bears base m' x where
  address := bears.address
  register there := by cases (congrArg Storage.register? there).symm.trans away
  memory scalar stands :=
    (same ((memory?_scalar scalar).symm.trans (memory stands))).trans (bears.memory scalar stands)
  home _ there := by cases (congrArg Storage.register? there).symm.trans away

/-- Of one variable it can be told what value it has. -/
theorem Bearing.of_one {id : VarId} {v : Variable} {x : Word} (based : Based base size a m)
    (found : a.var? id = some v) (bears : v.Bears base m x) :
    Bearing base size (Function.update (fun _ => none) id (some x)) a m where
  toBased := based
  fresh {other} beyond := by
    exact Function.update_of_ne (Nat.ne_of_gt (Nat.lt_of_lt_of_le (var?_lt found) beyond)) ..
  bears {other u y} known valued := by
    by_cases same : other = id
    · subst same
      rw [Function.update_self] at valued
      cases valued
      cases found.symm.trans known
      exact bears
    · rw [Function.update_of_ne same] at valued
      cases valued

theorem Bearing.of_none (based : Based base size a m) : Bearing base size (fun _ => none) a m :=
  ⟨based, fun _ => rfl, fun _ valued => nomatch valued⟩

theorem growing_leaveForCall {r : Reg} : Growing (leaveForCall r) := by
  refine .bind (.look _) fun owner => ?_
  split
  · exact .pure _
  · refine .bind growing_known fun v => ?_
    split
    · exact .pure _
    · exact .ite (.pure _) (.ite (.bind growing_writeBack fun _ => .bind growing_unbind fun _ => .pure _)
        (.bind growing_unbind fun _ => .pure _))

/-- There was room before a call was prepared for, whatever state that began in. -/
theorem room_before_saving {w w' : Work} (ran : Ran saveForCall w () w') (room : Room base size w'.allocator) :
    Room base size w.allocator := by
  obtain ⟨xs, left, emptied, saved, words, stored, parked, saving, parking, rfl⟩ := ran_saveForCall ran
  have grows : Grows w.allocator left.allocator :=
    Ran.mapM emptied (P := fun mid => Grows w.allocator mid.allocator) (.refl _)
      fun r _ mid _ mid' before ran => before.trans (growing_leaveForCall mid _ mid' ran)
  have stores : left.allocator.globals ≤ stored.allocator.globals ∧ stored.allocator.frame = left.allocator.frame := by
    obtain ⟨-, -, saving⟩ | ⟨-, -, saving⟩ := saving
    · obtain ⟨-, same, -⟩ := saveOnStack_eq saving
      rw [same]
      exact ⟨Nat.le_refl _, rfl⟩
    · obtain ⟨-, same, -⟩ := saveInGlobal_eq saving
      rw [same]
      exact ⟨Nat.le_add_right _ _, rfl⟩
  have parks : parked.allocator.globals = stored.allocator.globals ∧
      parked.allocator.frame = stored.allocator.frame :=
    Ran.forM parking (P := fun mid => mid.allocator.globals = stored.allocator.globals ∧
      mid.allocator.frame = stored.allocator.frame) ⟨rfl, rfl⟩ fun s _ mid mid' before ran => by
        obtain ⟨v, -, rfl⟩ := ran_park ran
        exact before
  refine Room.of_grows ⟨?_, fun {slots slot} is within => ?_⟩ grows
  · exact Nat.le_trans stores.1 (Nat.le_trans (Nat.le_of_eq parks.1.symm) room.globals)
  · have bounds := room.frame (parks.2.trans (stores.2.trans is)) within
    have below : left.allocator.globals ≤ parked.allocator.globals := parks.1 ▸ stores.1
    exact ⟨Int.le_trans (Int.ofNat_le.2 below) bounds.1, bounds.2⟩

/-- There was room before temporaries were put aside. -/
theorem Alloc.Saves.room_left {left w₁ : Work} (saves : Saves temps left w₁) (room : Spacious base size w₁.allocator) :
    Room base size left.allocator := by
  have globals : w₁.allocator.globals =
      left.allocator.globals + if left.allocator.inFunction then 0 else temps.length := by rw [saves.rest]
  have frame : w₁.allocator.frame = left.allocator.frame := by rw [saves.rest]
  refine ⟨Nat.le_trans (by omega) room.globals, fun {slots slot} is within => ?_⟩
  have bounds := room.frame (frame.trans is) within
  omega

/-- What was put aside for a call, with the machine that did so. -/
structure SavedBy (base : Int) (size : Nat) (a : Allocator) (m : Machine) (temps : List (VarId × Reg)) (left w₁ : Work)
    (m₀ m₁ : Machine) : Prop where
  empties : Empties Reg.all temps ⟨a, #[]⟩ left
  saves : Saves temps left w₁
  room : RoomAside base size left.allocator temps.length
  based : Based base size left.allocator m₀
  regs : ∀ r, m₀.reg r = m.reg r
  bears : ∀ {id v v' x}, a.var? id = some v → v.Bears base m x → left.allocator.var? id = some v' → v'.Bears base m₀ x
  aside : PutAside base left.allocator temps m₀ m₁
  done : m.performs w₁.code.toList = .ok m₁

/-- What is back behind a call. -/
structure Returned (temps : List (VarId × Reg)) (left w₁ w₂ : Work) (m m₂ m₃ : Machine) : Prop where
  back : ∀ s ∈ slotted left.allocator.saveSlot temps, ∀ v, w₁.allocator.var? s.1 = some v →
    w₂.allocator.var? s.1 = some { v with storage := .register s.2.1 }
  others : ∀ id, id ∉ temps.map Prod.fst → w₂.allocator.var? id = w₁.allocator.var? id
  idle : w₂.allocator.calls = left.allocator.calls
  pushed : w₂.allocator.pushed = left.allocator.pushed
  memory : m₃.memory = m₂.memory
  stack : m₃.reg Reg.stackPointer = m.reg Reg.stackPointer
  link : left.allocator.inFunction = true → m₃.reg Reg.returnAddress = m.reg Reg.returnAddress
  regs : ∀ t ∈ temps, m₃.reg t.2 = m.reg t.2

theorem savedBy {w₁ : Work} (sound : Sound [] a) (tidy : Tidy a) (based : Based base size a m) (level : 0 ≤ a.pushed)
    (saved : Ran saveForCall ⟨a, #[]⟩ () w₁) (room : Spacious base size w₁.allocator) :
    ∃ temps left m₀ m₁, SavedBy base size a m temps left w₁ m₀ m₁ := by
  obtain ⟨temps, left, empties, saves⟩ := saves sound saved
  obtain ⟨code, emitted, -⟩ := empties.stores
  have onward := empties.does.onward
  have globals : w₁.allocator.globals =
      left.allocator.globals + if left.allocator.inFunction then 0 else temps.length := by rw [saves.rest]
  have pushed : w₁.allocator.pushed = left.allocator.pushed + left.allocator.saveWords temps.length := by
    rw [saves.rest]
  have frame : w₁.allocator.frame = left.allocator.frame := by rw [saves.rest]
  have aside : RoomAside base size left.allocator temps.length := by
    refine ⟨by rw [onward.pushed]; exact level, fun inside => ?_, fun outside => ?_⟩
    · have stack := room.stack (by rwa [inFunction, frame])
      rw [globals, pushed, saveWords, if_pos inside, if_pos inside] at stack
      exact ⟨by omega, stack.2⟩
    · have space := room.globals
      rw [globals, outside] at space
      simpa using space
  have before := saves.room_left room
  obtain ⟨m₀, done₀, bearing₀, regs₀⟩ := empties.performs tidy before (.of_none based) emitted
  obtain ⟨m₁, done₁, put⟩ := performs_savingCode temps bearing₀.toBased aside
  refine ⟨temps, left, m₀, m₁, empties, saves, aside, bearing₀.toBased, regs₀, fun {id v v' x} found bears known => ?_,
    put, ?_⟩
  · obtain ⟨m₀', done', bearing', -⟩ := empties.performs tidy before (.of_one based found bears) emitted
    cases done₀.symm.trans done'
    exact bearing'.bears known (Function.update_self ..)
  · rw [saves.code, emitted]
    exact (performs_append done₀).trans done₁

namespace SavedBy

variable {left w₁ : Work} {m₀ m₁ m₂ : Machine} (saved : SavedBy base size a m temps left w₁ m₀ m₁)

include saved

theorem calls : w₁.allocator.calls = ⟨slotted left.allocator.saveSlot temps,
    left.allocator.saveWords temps.length⟩ :: left.allocator.calls := by rw [saved.saves.rest]

theorem pushed : w₁.allocator.pushed = left.allocator.pushed + left.allocator.saveWords temps.length := by
  rw [saved.saves.rest]

theorem aside_slot {s : VarId × Reg × Nat} (member : s ∈ slotted left.allocator.saveSlot temps) :
    w₁.allocator.Aside base (left.allocator.asidePlace base temps.length s.2.2) := by
  refine ⟨_, _, saved.calls, ?_⟩
  obtain ⟨i, found, at_⟩ := mem_slotted.1 member
  have bound := (List.getElem?_eq_some_iff.1 found).1
  cases inside : left.allocator.inFunction with
  | true =>
    have space := saved.room.stack inside
    right
    rw [saved.pushed, asidePlace, asideStart, saveWords, if_pos inside, if_pos inside, if_pos inside, at_, saveSlot,
      if_pos inside]
    dsimp only
    omega
  | false =>
    left
    rw [asidePlace, saveWords, inside]
    exact ⟨rfl, List.mem_map_of_mem member⟩

theorem aside_link (inside : left.allocator.inFunction = true) :
    w₁.allocator.Aside base (left.allocator.asideStart base temps.length) := by
  refine ⟨_, _, saved.calls, .inr ?_⟩
  have space := saved.room.stack inside
  rw [saved.pushed, asideStart, saveWords, if_pos inside, if_pos inside]
  dsimp only
  omega

/-- Homes keep what they hold as things are put aside. -/
theorem home_kept {home : Home} (granted : left.allocator.Grants home) (room : Room base size left.allocator) :
    m₁.cellOf? base home = m₀.cellOf? base home := by
  obtain ⟨n, at_, -⟩ := room.inside granted
  rw [cellOf?, cellOf?, at_, Int.toNat_natCast]
  exact saved.aside.others (saved.room.apart granted at_)

theorem room_left (room : Spacious base size w₁.allocator) : Room base size left.allocator := saved.saves.room_left room

theorem tidy_left (tidy : Tidy a) : Tidy left.allocator := by
  obtain ⟨code, -, deeds⟩ := saved.empties.does
  exact deeds.tidy tidy fun _ => False.elim

theorem carries (tidy : Tidy a) : ∀ t ∈ temps, t.2.Carries := fun t member => by
  obtain ⟨v, found, -, there⟩ := saved.empties.leaves.there t member
  exact tidy.carried found there

theorem apart (tidy : Tidy a) : (temps.map Prod.snd).Nodup := by
  refine (List.nodup_map_iff_inj_on (List.Nodup.of_map _ saved.empties.leaves.once)).2 fun t member t' member' same => ?_
  obtain ⟨v, found, -, there⟩ := saved.empties.leaves.there t member
  obtain ⟨v', found', -, there'⟩ := saved.empties.leaves.there t' member'
  exact Prod.ext (tidy.alone found found' there (same ▸ there')) same

/-- Only temporaries in registers are put aside. -/
theorem parked_only {id : VarId} {v : Variable} (found : a.var? id = some v) (member : id ∈ temps.map Prod.fst) :
    v.isTemp = true ∧ ∃ r, v.storage = .register r := by
  obtain ⟨t, listed, rfl⟩ := List.mem_map.1 member
  obtain ⟨u, found', isTemp, there⟩ := saved.empties.leaves.there t listed
  cases found.symm.trans found'
  exact ⟨isTemp, t.2, there⟩

/-- What waits comes back, whatever words are pushed and popped meanwhile. -/
theorem returns (tidy : Tidy a) (spares : Spares base w₁.allocator m₁ m₂) (words : Int) :
    ∃ w₂ m₃, Ran (do pushWords words; popWords words; restoreAfterCall) ⟨w₁.allocator, #[]⟩ () w₂ ∧
      m₂.performs w₂.code.toList = .ok m₃ ∧ Returned temps left w₁ w₂ m m₂ m₃ := by
  have once : ((slotted left.allocator.saveSlot temps).map Prod.fst).Nodup := by
    rw [slotted_fst]
    exact saved.empties.leaves.once
  obtain ⟨w₂, ran, code, back, others, rest⟩ := restores
    (w := ⟨{ w₁.allocator with pushed := w₁.allocator.pushed + words - words }, #[]⟩) saved.calls once
    fun s member => by
      obtain ⟨v, -, known⟩ := saved.saves.parked s member
      exact ⟨_, known⟩
  have awaits : Awaits base left.allocator temps m₁ m₂ :=
    ⟨by rw [spares.zero, saved.aside.regs (by decide), saved.based.zero], spares.stack, spares.size,
      fun s member => spares.aside (saved.aside_slot member), fun inside => spares.aside (saved.aside_link inside)⟩
  obtain ⟨m₃, done, memory, stack, link, regs⟩ :=
    performs_restoringCode saved.based saved.room saved.aside awaits (saved.apart tidy) (saved.carries tidy)
  rw [slotted_fst] at others
  refine ⟨w₂, m₃, ?_, ?_, back, others, ?_, ?_, memory, stack.trans (saved.regs _),
    fun inside => (link inside).trans (saved.regs _), fun t member => (regs t member).trans (saved.regs _)⟩
  · simp only [ran_bind, pushWords, popWords, ran_change, exists_eq_left, exists_const]
    exact ran
  · rw [code]
    exact done
  · rw [rest]
  · rw [rest]
    dsimp only
    rw [saved.pushed]
    omega

/-- A variable that is in no register once registers are emptied keeps its value to the end. -/
theorem values {m₃ : Machine} {id : VarId} {v : Variable} {x : Word} (tidy : Tidy a)
    (room : Spacious base size w₁.allocator) (spares : Spares base w₁.allocator m₁ m₂) (memory : m₃.memory = m₂.memory)
    (known : left.allocator.var? id = some v) (away : v.storage.register? = none) (bears : v.Bears base m₀ x) :
    v.Bears base m₃ x := by
  have tidyLeft := saved.tidy_left tidy
  refine bears.of_home away (tidyLeft.memory known) fun {home} has => ?_
  have granted := tidyLeft.granted known has
  have live : ∃ u, w₁.allocator.var? id = some u ∧ u.home = some home := by
    by_cases parked : id ∈ temps.map Prod.fst
    · rw [← slotted_fst left.allocator.saveSlot] at parked
      obtain ⟨s, member, rfl⟩ := List.mem_map.1 parked
      obtain ⟨u, known', waits⟩ := saved.saves.parked s member
      cases known.symm.trans known'
      exact ⟨_, waits, has⟩
    · exact ⟨v, (saved.saves.others id parked).trans known, has⟩
  obtain ⟨u, known', has'⟩ := live
  rw [cellOf?, cell?_of_memory memory]
  exact (spares.homes known' has').trans (saved.home_kept granted (saved.room_left room))

end SavedBy

namespace Returned

variable {left w₁ w₂ : Work} {m₀ m₁ m₂ m₃ : Machine} {id : VarId} {v : Variable} {r : Reg} {x : Word}
  (returned : Returned temps left w₁ w₂ m m₂ m₃) (saved : SavedBy base size a m temps left w₁ m₀ m₁)

include returned saved

/-- What is known behind the call about a variable that was not put aside. -/
theorem known (found : a.var? id = some v) (absent : id ∉ temps.map Prod.fst) :
    ∃ v', v.GoneHome v' ∧ left.allocator.var? id = some v' ∧ w₂.allocator.var? id = some v' := by
  obtain ⟨none, -⟩ | ⟨u, v', found', known, gone⟩ := saved.empties.vars id
  · cases found.symm.trans none
  · cases found.symm.trans found'
    exact ⟨v', gone, known, (returned.others id absent).trans ((saved.saves.others id absent).trans known)⟩

theorem temp (found : a.var? id = some v) (isTemp : v.isTemp = true) (there : v.storage = .register r) :
    w₂.allocator.var? id = some v ∧ m₃.reg r = m.reg r := by
  obtain ⟨none, -⟩ | ⟨u, v', found', known, gone⟩ := saved.empties.vars id
  · cases found.symm.trans none
  · cases found.symm.trans found'
    obtain rfl : v' = v := gone.elim (fun same => same) fun home => by cases isTemp.symm.trans home.1
    obtain ⟨-, member⟩ := saved.empties.listed (Reg.mem_all r) known there
    obtain ⟨i, bound, at_⟩ := List.getElem_of_mem member
    have slot : (id, r, left.allocator.saveSlot + i) ∈ slotted left.allocator.saveSlot temps :=
      mem_slotted.2 ⟨i, List.getElem?_eq_some_iff.2 ⟨bound, at_⟩, rfl⟩
    obtain ⟨u, known', waits⟩ := saved.saves.parked _ slot
    cases known.symm.trans known'
    refine ⟨(returned.back _ slot _ waits).trans ?_, returned.regs _ member⟩
    rw [← there]

theorem named (tidy : Tidy a) (room : Spacious base size w₁.allocator) (spares : Spares base w₁.allocator m₁ m₂)
    (found : a.var? id = some v) (isNamed : v.isTemp = false) (there : v.storage = .register r) : ∃ home,
    v.memory? = some home ∧ w₂.allocator.var? id = some { v with storage := .memory home, isDirty := false } ∧
      ∀ {x}, v.array = none → v.Bears base m x → m₃.cellOf? base home = some x := by
  have absent : id ∉ temps.map Prod.fst := fun member => by
    cases isNamed.symm.trans (saved.parked_only found member).1
  obtain ⟨v', rfl | ⟨-, some, -, rfl⟩, known, known'⟩ := returned.known saved found absent
  · cases isNamed.symm.trans (saved.empties.listed (Reg.mem_all r) known there).1
  · obtain ⟨home, memory⟩ := Option.isSome_iff_exists.1 some
    have parted : v.parted = { v with storage := .memory home, isDirty := false } := by
      simp only [Variable.parted, memory]
    refine ⟨home, memory, parted ▸ known', fun {x} scalar bears => ?_⟩
    have stands := parted_stands memory
    exact (saved.values tidy room spares returned.memory known (by rw [stands]; rfl)
      (saved.bears found bears known)).memory scalar stands

theorem other (tidy : Tidy a) (room : Spacious base size w₁.allocator) (spares : Spares base w₁.allocator m₁ m₂)
    (found : a.var? id = some v) (away : v.storage.register? = none) :
    w₂.allocator.var? id = some v ∧ ∀ {x}, v.Bears base m x → v.Bears base m₃ x := by
  have absent : id ∉ temps.map Prod.fst := fun member => by
    obtain ⟨-, r, there⟩ := saved.parked_only found member
    cases (congrArg Storage.register? there).symm.trans away
  obtain ⟨v', rfl | ⟨-, -, ⟨r, there⟩, -⟩, known, known'⟩ := returned.known saved found absent
  · exact ⟨known', fun bears =>
      saved.values tidy room spares returned.memory known away (saved.bears found bears known)⟩
  · cases (congrArg Storage.register? there).symm.trans away

end Returned

/-- A call leaves the caller as it was, whatever runs between the preparation for it and its end, as long as it
spares the words that things wait in and the homes of variables. The preparation does not fail either, unless a
register is noted as newer than an array. -/
theorem call_keeps_caller {a : Allocator} {m : Machine} (reached : Reached a) (idle : a.calls = [])
    (level : 0 ≤ a.pushed) (zero : m.reg Reg.zero = 0) :
    (WritesScalars a → ∃ w₁, Ran saveForCall ⟨a, #[]⟩ () w₁) ∧
    ∀ w₁, Ran saveForCall ⟨a, #[]⟩ () w₁ →
      Spacious ((m.reg Reg.stackPointer).toInt + a.pushed) m.memory.size w₁.allocator →
      ∃ m₁, m.performs w₁.code.toList = .ok m₁ ∧
        ∀ m₂, Spares ((m.reg Reg.stackPointer).toInt + a.pushed) w₁.allocator m₁ m₂ → ∀ words : Int, ∃ w₂ m₃,
          Ran (do pushWords words; popWords words; restoreAfterCall) ⟨w₁.allocator, #[]⟩ () w₂ ∧
          m₂.performs w₂.code.toList = .ok m₃ ∧
          CallerKept ((m.reg Reg.stackPointer).toInt + a.pushed) a m w₂.allocator m₃ := by
  have sound := reached.inOrder.sound
  have tidy := reached.tidy
  have based : Based ((m.reg Reg.stackPointer).toInt + a.pushed) m.memory.size a m := ⟨zero, rfl, rfl⟩
  generalize (m.reg Reg.stackPointer).toInt + a.pushed = base at based ⊢
  refine ⟨saveForCall_succeeds (w := ⟨a, #[]⟩) sound, fun w₁ ran room => ?_⟩
  obtain ⟨temps, left, m₀, m₁, saved⟩ := savedBy sound tidy based level ran room
  have onward := saved.empties.does.onward
  refine ⟨m₁, saved.done, fun m₂ spares words => ?_⟩
  obtain ⟨w₂, m₃, restored, done, returned⟩ := saved.returns tidy spares words
  exact ⟨w₂, m₃, restored, done, returned.temp saved, returned.named saved tidy room spares,
    returned.other saved tidy room spares, returned.idle.trans (onward.calls.trans idle),
    returned.pushed.trans onward.pushed, returned.stack, fun inside => returned.link (onward.frame.trans inside)⟩

end

/-- A machine with words in registers. -/
def Machine.withWords (m : Machine) (rs : List Reg) (words : List Word) : Machine :=
  (rs.zip words).foldl (fun m held => m.setReg held.1 held.2) m

/-- The state with a new variable and a temporary in registers. -/
def busyWork : Work := after .addTemp (after (.addVariable "x" none) ⟨initial, #[]⟩)

/-- A machine with numbers in the registers of the variable and of the temporary. -/
def busyMachine : Machine := (fresh 4).withWords Reg.pool [5, 7]

theorem call_keeps_caller_busy : ∃ w₁ m₁, Ran saveForCall ⟨busyWork.allocator, #[]⟩ () w₁ ∧
    busyMachine.performs w₁.code.toList = .ok m₁ ∧ ∃ w₂ m₃,
      Ran (do pushWords 2; popWords 2; restoreAfterCall) ⟨w₁.allocator, #[]⟩ () w₂ ∧
      (m₁.setReg ⟨9⟩ 0).performs w₂.code.toList = .ok m₃ ∧ m₃.reg ⟨9⟩ = 7 ∧ m₃.cell? 0 = some 5 := by
  have added : Reached (after (.addVariable "x" none) ⟨initial, #[]⟩).allocator :=
    .step (w := ⟨initial, #[]⟩) (.addVariable "x" none) .initial ⟨rfl, nofun⟩ rfl
  have reached : Reached busyWork.allocator :=
    .step (w := after (.addVariable "x" none) ⟨initial, #[]⟩) .addTemp added rfl rfl
  have scalars : WritesScalars busyWork.allocator := fun id v found _ _ => by
    match id with
    | 0 | 1 =>
      cases found
      rfl
    | n + 2 => cases found
  obtain ⟨saves, keeps⟩ := call_keeps_caller (m := busyMachine) reached rfl (by decide) rfl
  obtain ⟨w₁, ran⟩ := saves scalars
  have runs : Ran saveForCall ⟨busyWork.allocator, #[]⟩ () (after .saveForCall ⟨busyWork.allocator, #[]⟩) := rfl
  obtain ⟨-, rfl⟩ := ran.unique runs
  have room : Spacious ((busyMachine.reg Reg.stackPointer).toInt + busyWork.allocator.pushed) busyMachine.memory.size
      (after .saveForCall ⟨busyWork.allocator, #[]⟩).allocator :=
    ⟨⟨by decide, fun frame => nomatch frame⟩, fun inside => nomatch inside⟩
  obtain ⟨m₁, done, keeps⟩ := keeps _ ran room
  obtain ⟨w₂, m₃, restored, performed, kept⟩ := keeps (m₁.setReg ⟨9⟩ 0)
    ⟨reg_setReg_of_ne _ _ (by decide), reg_setReg_of_ne _ _ (by decide), by rw [memory_setReg],
      fun _ => cell?_of_memory (memory_setReg ..), fun _ _ => cell?_of_memory (memory_setReg ..)⟩ 2
  refine ⟨_, m₁, ran, done, w₂, m₃, restored, performed, (kept.temps (rfl : busyWork.allocator.var? 1 = _) rfl rfl).2, ?_⟩
  obtain ⟨home, memory, -, reads⟩ := kept.named (rfl : busyWork.allocator.var? 0 = _) rfl rfl
  cases memory
  exact reads (x := busyMachine.reg ⟨8⟩) rfl (Variable.bears_of_dirty (r := ⟨8⟩) rfl rfl rfl)

end SmallC
