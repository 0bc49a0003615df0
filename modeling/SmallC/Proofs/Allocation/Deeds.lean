import SmallC.Proofs.Allocation.Contents
import SmallC.Proofs.Allocation.Protocol

/-!
What the operations of the allocator are made of. A deed changes what is known about one variable at most and
emits one instruction at most. It stores the value of a variable or loads it, moves it to another register, parts
a variable from its register, introduces a variable or drops one; what is written into a variable is no concern
of deeds, so a variable that is about to be written is set apart by a condition. The operations of the allocator
come to deeds one after the other, except for those that move the stack, that begin or end the body of a function
and that prepare for a call.
-/
namespace SmallC

open Alloc

/-- The registers that variables may be in: those of the pool, and those that arguments travel in. -/
def Reg.Carries (r : Reg) : Prop := r.isPool = true ∨ r ∈ Reg.arguments

theorem Reg.Carries.ne {r : Reg} (carries : r.Carries) :
    r ≠ zero ∧ r ≠ stackPointer ∧ r ≠ status ∧ r ≠ returnAddress := by
  refine ⟨?_, ?_, ?_, ?_⟩ <;> rintro rfl <;> revert carries <;> unfold Carries <;> decide

/-- The instruction that loads the value of a variable into a register. -/
inductive Variable.LoadedBy (a : Allocator) (v : Variable) (r : Reg) : MachineInstr → Prop where
  | address {home : Home} {address : Address} (array : v.array = some home)
      (known : address? a home = some address) : LoadedBy a v r (.addi r address.base address.offset)
  | word {home : Home} {address : Address} (scalar : v.array = none)
      (place : v.storage = .memory home ∨ (∃ s, v.storage = .register s) ∧ v.home = some home)
      (known : address? a home = some address) : LoadedBy a v r (.lw r address.base address.offset)

namespace Allocator

variable {a a' b c : Allocator} {id : VarId} {v v' : Variable} {r : Reg} {home : Home}

/-- Another state in the same body, with at least the memory and the variables of this one. -/
structure Onward (a a' : Allocator) : Prop extends Grows a a' where
  frame : a'.frame.isSome = a.frame.isSome
  calls : a'.calls = a.calls
  outside : a'.outside = a.outside

namespace Onward

theorem refl (a : Allocator) : Onward a a := ⟨.refl a, rfl, rfl, rfl⟩

theorem trans (first : Onward a b) (second : Onward b c) : Onward a c where
  toGrows := first.toGrows.trans second.toGrows
  frame := second.frame.trans first.frame
  calls := second.calls.trans first.calls
  outside := second.outside.trans first.outside

/-- Nothing but names, registers and what is known about variables changes. -/
theorem of_same (size : a.vars.size ≤ a'.vars.size)
    (same : a' = { a with
      vars := a'.vars, root := a'.root, inner := a'.inner, temps := a'.temps, nextTemp := a'.nextTemp
      owner := a'.owner, free := a'.free, recency := a'.recency, held := a'.held, reserved := a'.reserved }) :
    Onward a a' := by
  refine ⟨.of_same ?_ ?_ size ?_, ?_, ?_, ?_⟩ <;> rw [same]

theorem of_keeps (keeps : Keeps a a') : Onward a a' where
  grants := keeps.grants
  size := Nat.le_of_eq keeps.size.symm
  pushed := keeps.pushed
  frame := keeps.frame
  calls := keeps.calls
  outside := keeps.outside

theorem grown (a : Allocator) (words : Nat) : Onward a (a.grown words) := of_keeps (.grown a words)

theorem setVar (a : Allocator) (id : VarId) (v : Variable) : Onward a (a.setVar id v) :=
  of_same (by simp [Allocator.setVar]) rfl

theorem address? (onward : Onward a a') (home : Home) : Alloc.address? a' home = Alloc.address? a home := by
  cases home with
  | global address => rfl
  | frame slot =>
    have inside : a'.inFunction = a.inFunction := onward.frame
    simp only [Alloc.address?, inside, onward.pushed]

end Onward

/-- A register that no variable is in. -/
def Vacant (a : Allocator) (r : Reg) : Prop := ∀ {id v}, a.var? id = some v → v.storage ≠ .register r

theorem Registers.vacant {hand : List Reg} (registers : Registers (r :: hand) a) : a.Vacant r := by
  intro id v found there
  have owned := registers.owner.2 ⟨v, found, there⟩
  rw [registers.not_owned] at owned
  cases owned

theorem Vacant.congr (vacant : a.Vacant r) (vars : ∀ id, a'.var? id = a.var? id) : a'.Vacant r :=
  fun found => vacant ((vars _).symm.trans found)

/-- A register that may be taken. -/
def Open (a : Allocator) (r : Reg) : Prop := r.isPool = true ∧ r ∉ a.held

/-- Where a variable may be of which so much was known before: in the register that it was in, or in one of those
that were to be had; in its memory; waiting for a call, if it did before; and with the home that it had, or with one
that was handed out for it. -/
structure Placing (T : Reg → Prop) (a a' : Allocator) (old : Option Variable) (v : Variable) : Prop where
  register : ∀ {r}, v.storage = .register r → (∃ u, old = some u ∧ u.storage = .register r) ∨ T r ∧ a.Vacant r
  memory : ∀ {home}, v.storage = .memory home → v.memory? = some home
  waits : ∀ {slot}, v.storage = .saved slot → ∃ u, old = some u ∧ u.storage = .saved slot
  home : ∀ {home}, v.home = some home →
    (∃ u, old = some u ∧ u.home = some home) ∨ ¬ a.Grants home ∧ a'.Grants home

/-- What may become known about a variable that keeps its value, and the code for it. -/
inductive Shift (T : Reg → Prop) (a a' : Allocator) (v : Variable) : Variable → List MachineInstr → Prop where
  /-- Something is noted that has nothing to do with where the value is; at most, a pointer may change a named
  variable from now on. -/
  | note {v' : Variable} (storage : v'.storage = v.storage) (home : v'.home = v.home) (array : v'.array = v.array)
      (isTemp : v'.isTemp = v.isTemp) (isDirty : v'.isDirty = v.isDirty)
      (reload : v'.mustReload = v.mustReload ∨ v.isTemp = false ∧ v'.mustReload = true) : Shift T a a' v v' []
  /-- A register that is newer than the home is written to it. -/
  | store {r : Reg} {home : Home} {address : Address} (there : v.storage = .register r)
      (dirty : v.isDirty = true) (has : v.home = some home) (known : address? a home = some address) :
      Shift T a a' v { v with isDirty := false } [.sw r address.base address.offset]
  /-- A temporary goes to its home, which it is given if it has none. -/
  | spill {r : Reg} {home : Home} {address : Address} (there : v.storage = .register r) (isTemp : v.isTemp = true)
      (has : v.home = some home ∨ v.home = none ∧ ¬ a.Grants home ∧ a'.Grants home)
      (known : address? a home = some address) :
      Shift T a a' v ({ v with home := some home, isDirty := false }).parted [.sw r address.base address.offset]
  /-- A named variable leaves its register, which is not newer than the home. -/
  | part {r : Reg} (there : v.storage = .register r) (isNamed : v.isTemp = false) (clean : v.isDirty = false)
      (memory : v.memory?.isSome) : Shift T a a' v v.parted []
  /-- A variable comes to a register. -/
  | fetch {v' : Variable} {r : Reg} {i : MachineInstr} (away : v.storage.register? = none) (usable : T r)
      (vacant : a.Vacant r) (loaded : v.LoadedBy a r i) (there : v'.storage = .register r)
      (home : v'.home = v.home) (array : v'.array = v.array) (isTemp : v'.isTemp = v.isTemp)
      (isDirty : v'.isDirty = false ∨ v.isTemp = true) (reload : v'.mustReload = v.mustReload) : Shift T a a' v v' [i]
  /-- A variable whose home may have changed is loaded anew. -/
  | reload {r : Reg} {i : MachineInstr} (there : v.storage = .register r) (reloads : v.mustReload = true)
      (clean : v.isDirty = false) (loaded : v.LoadedBy a r i) : Shift T a a' v v [i]
  /-- A variable goes to another register. -/
  | relocate {r target : Reg} (there : v.storage = .register r) (usable : T target) (vacant : a.Vacant target) :
      Shift T a a' v { v with storage := .register target } [MachineInstr.move target r]

/-- An elementary change of the state with the instruction for it. Only variables of which the condition `K` holds
are written, and only registers of which `T` holds come into use. -/
inductive Deed (K : VarId → Prop) (T : Reg → Prop) (a a' : Allocator) : List MachineInstr → Prop where
  | aside (onward : Onward a a') (vars : ∀ other, a'.var? other = a.var? other) : Deed K T a a' []
  | add {v : Variable} (onward : Onward a a')
      (vars : ∀ other, a'.var? other = if other = a.vars.size then some v else a.var? other)
      (placing : Placing T a a' none v) : Deed K T a a' []
  | drop (id : VarId) (onward : Onward a a')
      (vars : ∀ other, a'.var? other = if other = id then none else a.var? other) : Deed K T a a' []
  | shift {id : VarId} {v v' : Variable} {code : List MachineInstr} (onward : Onward a a')
      (found : a.var? id = some v) (vars : ∀ other, a'.var? other = if other = id then some v' else a.var? other)
      (shift : Shift T a a' v v' code) : Deed K T a a' code
  | rewrite {id : VarId} {v v' : Variable} (onward : Onward a a') (found : a.var? id = some v) (written : K id)
      (vars : ∀ other, a'.var? other = if other = id then some v' else a.var? other) (array : v'.array = v.array)
      (placing : Placing T a a' (some v) v') : Deed K T a a' []
  | overwrite {id : VarId} {v v' : Variable} {r : Reg} {home : Home} {address : Address} (onward : Onward a a')
      (found : a.var? id = some v) (written : K id)
      (vars : ∀ other, a'.var? other = if other = id then some v' else a.var? other) (has : v'.home = some home)
      (known : address? a home = some address) (array : v'.array = v.array) (placing : Placing T a a' (some v) v') :
      Deed K T a a' [.sw r address.base address.offset]

/-- Deeds one after the other, with all their code. -/
inductive Deeds (K : VarId → Prop) (T : Reg → Prop) (a : Allocator) : Allocator → List MachineInstr → Prop where
  | refl : Deeds K T a a []
  | snoc {b c : Allocator} {code more : List MachineInstr} (first : Deeds K T a b code) (last : Deed K T b c more) :
      Deeds K T a c (code ++ more)

section

variable {K K' : VarId → Prop} {T T' : Reg → Prop} {code more : List MachineInstr}

theorem Placing.mono {old : Option Variable} (placing : Placing T a a' old v) (wider : ∀ r, T r → T' r) :
    Placing T' a a' old v :=
  ⟨fun there => (placing.register there).imp_right fun new => ⟨wider _ new.1, new.2⟩, placing.memory, placing.waits,
    placing.home⟩

theorem Shift.mono (shift : Shift T a a' v v' code) (wider : ∀ r, T r → T' r) : Shift T' a a' v v' code := by
  cases shift with
  | note storage home array isTemp isDirty reload => exact .note storage home array isTemp isDirty reload
  | store there dirty has known => exact .store there dirty has known
  | spill there isTemp has known => exact .spill there isTemp has known
  | part there isNamed clean memory => exact .part there isNamed clean memory
  | fetch away usable vacant loaded there home array isTemp isDirty reload =>
    exact .fetch away (wider _ usable) vacant loaded there home array isTemp isDirty reload
  | reload there reloads clean loaded => exact .reload there reloads clean loaded
  | relocate there usable vacant => exact .relocate there (wider _ usable) vacant

theorem Deed.mono (deed : Deed K T a a' code) (more : ∀ id, K id → K' id) (wider : ∀ r, T r → T' r) :
    Deed K' T' a a' code := by
  cases deed with
  | aside onward vars => exact .aside onward vars
  | add onward vars placing => exact .add onward vars (placing.mono wider)
  | drop id onward vars => exact .drop id onward vars
  | shift onward found vars shift => exact .shift onward found vars (shift.mono wider)
  | rewrite onward found written vars array placing =>
    exact .rewrite onward found (more _ written) vars array (placing.mono wider)
  | overwrite onward found written vars has known array placing =>
    exact .overwrite onward found (more _ written) vars has known array (placing.mono wider)

theorem Deed.onward (deed : Deed K T a a' code) : Onward a a' := by
  cases deed <;> assumption

theorem Deeds.mono (deeds : Deeds K T a a' code) (more : ∀ id, K id → K' id) (wider : ∀ r, T r → T' r) :
    Deeds K' T' a a' code := by
  induction deeds with
  | refl => exact .refl
  | snoc first last ih => exact .snoc ih (last.mono more wider)

theorem Deeds.trans (first : Deeds K T a b code) (second : Deeds K T b c more) :
    Deeds K T a c (code ++ more) := by
  induction second with
  | refl => simpa using first
  | snoc second last ih =>
    rw [← List.append_assoc]
    exact .snoc ih last

theorem Deeds.onward (deeds : Deeds K T a a' code) : Onward a a' := by
  induction deeds with
  | refl => exact .refl _
  | snoc first last ih => exact ih.trans last.onward

end

end Allocator

namespace Alloc

open Allocator

variable {w w' mid : Work} {id : VarId} {r : Reg} {v : Variable} {name temp : String} {hand : List Reg}
  {K K' : VarId → Prop} {T T' : Reg → Prop}

/-- Work that comes to deeds. -/
def Does (K : VarId → Prop) (T : Reg → Prop) (w w' : Work) : Prop :=
  ∃ code, w'.code.toList = w.code.toList ++ code ∧ Deeds K T w.allocator w'.allocator code

namespace Does

theorem refl (w : Work) : Does K T w w := ⟨[], (List.append_nil _).symm, .refl⟩

theorem trans (first : Does K T w mid) (second : Does K T mid w') : Does K T w w' := by
  obtain ⟨code, emitted, deeds⟩ := first
  obtain ⟨more, emitted', deeds'⟩ := second
  exact ⟨code ++ more, by rw [emitted', emitted, List.append_assoc], deeds.trans deeds'⟩

theorem mono (does : Does K T w w') (more : ∀ id, K id → K' id) (wider : ∀ r, T r → T' r) : Does K' T' w w' := by
  obtain ⟨code, emitted, deeds⟩ := does
  exact ⟨code, emitted, deeds.mono more wider⟩

theorem onward (does : Does K T w w') : Onward w.allocator w'.allocator := by
  obtain ⟨code, -, deeds⟩ := does
  exact deeds.onward

/-- One deed that emits nothing. -/
theorem quiet (deed : Deed K T w.allocator w'.allocator []) (code : w'.code = w.code) : Does K T w w' :=
  ⟨[] ++ [], by rw [code, List.append_nil, List.append_nil], .snoc .refl deed⟩

/-- One deed that emits an instruction. -/
theorem emits {i : MachineInstr} (deed : Deed K T w.allocator w'.allocator [i]) (code : w'.code = w.code.push i) :
    Does K T w w' :=
  ⟨[] ++ [i], by rw [code, Array.toList_push, List.nil_append], .snoc .refl deed⟩

/-- What is known about variables does not change, and nothing is emitted. -/
theorem aside {f : Allocator → Allocator} (onward : Onward w.allocator (f w.allocator))
    (vars : ∀ other, (f w.allocator).var? other = w.allocator.var? other) : Does K T w (on f w) :=
  quiet (.aside onward vars) rfl

theorem forM {α : Type} {f : α → Alloc Unit} {xs : List α} {x : Unit} (sound : Sound hand w.allocator)
    (ran : Ran (xs.forM f) w x w')
    (pass : ∀ a ∈ xs, ∀ w w', Sound hand w.allocator → Ran (f a) w () w' →
      Sound hand w'.allocator ∧ Does K T w w') : Does K T w w' := by
  have both : Sound hand w'.allocator ∧ Does K T w w' :=
    Ran.forM (P := fun w' => Sound hand w'.allocator ∧ Does K T w w') ran ⟨sound, .refl w⟩
      fun a member w₁ w₂ before ran => by
        obtain ⟨sound, does⟩ := pass a member w₁ w₂ before.1 ran
        exact ⟨sound, before.2.trans does⟩
  exact both.2

end Does

end Alloc

end SmallC
