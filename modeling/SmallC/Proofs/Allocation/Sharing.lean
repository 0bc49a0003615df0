import SmallC.Proofs.Allocation.Caller
import SmallC.Proofs.Allocation.Reading

/-!
Variables that pointers reach. The machine has the value of such a variable in its home whenever the allocator is not
in the middle of a write: a write goes home at once, so that the register is never newer, and no code that the
allocator emits stores a register there that is not. Whoever stores in the home directly is therefore read, and is not
undone.
-/
namespace SmallC

open Alloc Allocator Machine

section

variable {a a' : Allocator} {id : VarId} {v v' : Variable} {home : Home} {base : Int} {size : Nat} {m m' : Machine}
  {x : Word} {K : VarId → Prop} {T : Reg → Prop} {code : List MachineInstr}

/-- A named number that a pointer may change. -/
structure Variable.Exposed (home : Home) (v : Variable) : Prop where
  isNamed : v.isTemp = false
  scalar : v.array = none
  has : v.home = some home
  reloads : v.mustReload = true

/-- A named number that a pointer may change, and that is in no register which is newer than its home. -/
structure Variable.Shared (home : Home) (v : Variable) : Prop extends v.Exposed home where
  place : v.storage = .memory home ∨ (∃ r, v.storage = .register r) ∧ v.isDirty = false

/-- The value of a shared variable is what its home holds, wherever else it may be. -/
theorem Variable.Shared.bears_iff (shared : v.Shared home) : v.Bears base m x ↔ m.cellOf? base home = some x := by
  obtain stands | ⟨⟨r, there⟩, clean⟩ := shared.place
  · refine ⟨fun bears => bears.memory shared.scalar stands, fun cell => ⟨fun is => ?_, fun there _ => ?_, fun _ stands' => ?_,
      fun _ there => ?_⟩⟩
    · cases shared.scalar.symm.trans is
    · cases stands.symm.trans there
    · cases stands.symm.trans stands'
      exact cell
    · cases stands.symm.trans there
  · exact ⟨fun bears => bears.home shared.scalar there clean (.inl shared.isNamed) shared.has,
      Variable.bears_of_stale ⟨shared.scalar, shared.isNamed, shared.reloads, clean⟩ there shared.has⟩

namespace Allocator

/-- A shared variable stays one, whatever happens to it but a write. -/
theorem Shift.shared (shift : Shift T a a' v v' code) (shared : v.Shared home) : v'.Shared home := by
  obtain ⟨⟨isNamed, scalar, has, reloads⟩, place⟩ := shared
  have clean : ∀ {r}, v.storage = .register r → v.isDirty = false := fun there =>
    place.elim (fun stands => by cases stands.symm.trans there) fun loaded => loaded.2
  cases shift with
  | note storage home array isTemp isDirty reload =>
    refine ⟨⟨isTemp.trans isNamed, array.trans scalar, home.trans has,
      reload.elim (fun same => same.trans reloads) fun new => new.2⟩, ?_⟩
    rw [storage, isDirty]
    exact place
  | store there dirty => cases (clean there).symm.trans dirty
  | spill _ isTemp => cases isNamed.symm.trans isTemp
  | part there _ clean some =>
    obtain ⟨place, memory⟩ := Option.isSome_iff_exists.1 some
    cases (memory?_scalar scalar).symm.trans memory |>.symm.trans has
    exact ⟨⟨isNamed, scalar, has, reloads⟩, .inl (parted_stands memory)⟩
  | fetch away usable vacant loaded there home array isTemp isDirty reload =>
    exact ⟨⟨isTemp.trans isNamed, array.trans scalar, home.trans has, reload.trans reloads⟩,
      .inr ⟨⟨_, there⟩, isDirty.resolve_right fun isTemp => by cases isNamed.symm.trans isTemp⟩⟩
  | reload => exact ⟨⟨isNamed, scalar, has, reloads⟩, place⟩
  | relocate there => exact ⟨⟨isNamed, scalar, has, reloads⟩, .inr ⟨⟨_, rfl⟩, clean there⟩⟩

theorem Deed.shared (deed : Deed K T a a' code) (unwritten : ¬ K id) (found : a.var? id = some v)
    (shared : v.Shared home) (known : a'.var? id = some v') : v'.Shared home := by
  have spared : ∀ {changed} {w : Option Variable}, id ≠ changed →
      (∀ other, a'.var? other = if other = changed then w else a.var? other) → v'.Shared home := by
    intro changed w different vars
    cases found.symm.trans (((vars id).trans (if_neg different)).symm.trans known)
    exact shared
  cases deed with
  | aside onward vars =>
    cases found.symm.trans ((vars id).symm.trans known)
    exact shared
  | add onward vars placing => exact spared (Nat.ne_of_lt (var?_lt found)) vars
  | drop gone onward vars =>
    refine spared (fun same => ?_) vars
    cases known.symm.trans ((vars id).trans (if_pos same))
  | @shift changed u u' _ onward found' vars shift =>
    by_cases same : id = changed
    · subst same
      cases found.symm.trans found'
      cases known.symm.trans ((vars id).trans (if_pos rfl))
      exact shift.shared shared
    · exact spared same vars
  | rewrite onward found' written vars => exact spared (fun same => unwritten (same ▸ written)) vars
  | overwrite onward found' written vars => exact spared (fun same => unwritten (same ▸ written)) vars

theorem Deeds.shared (deeds : Deeds K T a a' code) (unwritten : ¬ K id) (found : a.var? id = some v)
    (shared : v.Shared home) (known : a'.var? id = some v') : v'.Shared home := by
  induction deeds generalizing v' with
  | refl =>
    cases found.symm.trans known
    exact shared
  | snoc first last ih =>
    obtain ⟨u, between⟩ := last.known_before (Nat.lt_of_lt_of_le (var?_lt found) first.onward.size) known
    exact last.shared unwritten between (ih between) known

/-- Deeds leave the home of a shared variable alone, from the first instruction of their code to the last. -/
theorem Deeds.spare_home (deeds : Deeds K T a a' code) (tidy : Tidy a) (room : Room base size a')
    (narrow : ∀ r, T r → r.Carries) (unwritten : ¬ K id) (based : Based base size a m) (found : a.var? id = some v)
    (shared : v.Shared home) (cell : m.cellOf? base home = some x) (known : a'.var? id = some v') :
    (∃ m', m.performs code = .ok m' ∧ Based base size a' m') ∧
      ∀ part k, part <+: code → m.performs part = .ok k → k.cellOf? base home = some x := by
  have bearing := Bearing.of_one based found (shared.bears_iff.2 cell)
  have unvalued : ∀ {other}, K other → Function.update (fun _ => none) id (some x) other = none := fun {other} written =>
    Function.update_of_ne (fun same : other = id => unwritten (same ▸ written)) ..
  obtain ⟨⟨m', done, bearing', -⟩, parts⟩ := deeds.performs tidy room narrow unvalued bearing
  refine ⟨⟨m', done, bearing'.toBased⟩, fun part k within reached => ?_⟩
  obtain ⟨b, rest, k', before, behind, reached', between⟩ := parts part within
  cases reached.symm.trans reached'
  obtain ⟨u, known⟩ := behind.known_before (Nat.lt_of_lt_of_le (var?_lt found) before.onward.size) known
  exact (before.shared unwritten found shared known).bears_iff.1 (between.bears known (Function.update_self ..))

end Allocator

/-! ### Operations -/

/-- The code of the work leaves the home of a shared variable alone, wherever execution gets to in it; it executes,
unless a call is pending; and behind it the variable is still shared. -/
structure Harmless (base : Int) (size : Nat) (id : VarId) (home : Home) (m : Machine) (x : Word) (w w' : Work) : Prop where
  parts : ∀ part k, part <+: w'.code.toList → m.performs part = .ok k → k.cellOf? base home = some x
  runs : w.allocator.calls = [] → ∃ m', m.performs w'.code.toList = .ok m'
  known : ∃ v, w'.allocator.var? id = some v ∧ v.Shared home
  based : ∀ m', m.performs w'.code.toList = .ok m' → 0 ≤ w'.allocator.pushed → Based base size w'.allocator m'

theorem Allocator.Deeds.harmless {w' : Work} (deeds : Deeds K T a w'.allocator w'.code.toList) (tidy : Tidy a)
    (room : Room base size w'.allocator) (narrow : ∀ r, T r → r.Carries) (unwritten : ¬ K id)
    (based : Based base size a m) (found : a.var? id = some v) (shared : v.Shared home)
    (cell : m.cellOf? base home = some x) (known : (w'.allocator.var? id).isSome) :
    Harmless base size id home m x ⟨a, #[]⟩ w' := by
  obtain ⟨v', known⟩ := Option.isSome_iff_exists.1 known
  obtain ⟨⟨m', done, based'⟩, parts⟩ := deeds.spare_home tidy room narrow unwritten based found shared cell known
  exact ⟨parts, fun _ => ⟨m', done⟩, ⟨v', known, deeds.shared unwritten found shared known⟩, fun k reached _ => by
    cases done.symm.trans reached
    exact based'⟩

/-- A part of two pieces of code is one of the first, or the first with a part of the second. -/
theorem prefix_append_cases {α : Type} {part xs ys : List α} (within : part <+: xs ++ ys) :
    part <+: xs ∨ ∃ more, part = xs ++ more ∧ more <+: ys := by
  obtain shorter | ⟨more, rfl⟩ := List.prefix_or_prefix_of_prefix within (List.prefix_append xs ys)
  · exact .inl shorter
  · exact .inr ⟨more, rfl, (List.prefix_append_right_inj xs).1 within⟩

/-- Of the code that puts aside the address to return to, only all of it stores anything. -/
theorem prefix_linkCode {count : Nat} {part : List MachineInstr} (within : part <+: a.linkCode count) :
    part = a.linkCode count ∨ ∀ i ∈ part, i.written?.isSome := by
  unfold linkCode at within ⊢
  split at within
  · next inside =>
    rw [if_pos inside]
    obtain rfl | ⟨part, rfl, rest⟩ := List.prefix_cons_iff.1 within
    · exact .inr nofun
    · obtain rfl | ⟨more, rfl, none⟩ := List.prefix_cons_iff.1 rest
      · refine .inr fun i member => ?_
        rw [List.mem_singleton.1 member]
        rfl
      · rw [List.prefix_nil.1 none]
        exact .inl rfl
  · next outside =>
    rw [if_neg outside]
    exact .inl (List.prefix_nil.1 within)

/-- No part of the code that puts temporaries aside stores anything elsewhere. -/
theorem cell?_of_saving {temps : List (VarId × Reg)} {part : List MachineInstr} {n : Nat} (based : Based base size a m)
    (room : RoomAside base size a temps.length) (within : part <+: a.savingCode temps) (done : m.performs part = .ok m')
    (outside : n < a.asideStart base temps.length ∨ a.asideStart base temps.length + a.asideLength temps.length ≤ n) :
    m'.cell? n = m.cell? n := by
  have start := RoomAside.place_start base a temps.length
  have place := room.place_room
  have based' := based.stack
  obtain ⟨m₁, linked, stack₁, regs₁, size₁, -, others₁⟩ := performs_linkCode based room
  have spared : m₁.cell? n = m.cell? n := others₁ fun inside => by
    have := start.1 inside
    omega
  obtain early | ⟨more, rfl, later⟩ := prefix_append_cases within
  · obtain rfl | shorter := prefix_linkCode early
    · cases linked.symm.trans done
      exact spared
    · exact cell?_of_memory (performs_writes shorter done).1
  · obtain ⟨k, rfl⟩ := prefix_storeCode later
    rw [performs_append linked] at done
    obtain ⟨m₂, done', stores⟩ := performs_storeCode (m := m₁) (n := a.asidePlace base temps.length a.saveSlot)
      a.saveBase a.saveSlot ((temps.map Prod.snd).take k)
      (room.formed ((regs₁ (by decide)).trans based.zero) (by omega) a.saveSlot) (by
        rw [size₁, based.memory, List.length_take, List.length_map]
        omega)
    cases done'.symm.trans done
    rw [stores.others (by rw [List.length_take, List.length_map]; omega), spared]

theorem saveForCall_harmless {w' : Work} (sound : Sound [] a) (tidy : Tidy a) (level : 0 ≤ a.pushed)
    (based : Based base size a m) (found : a.var? id = some v) (shared : v.Shared home)
    (cell : m.cellOf? base home = some x) (ran : Ran saveForCall ⟨a, #[]⟩ () w') (room : Spacious base size w'.allocator) :
    Harmless base size id home m x ⟨a, #[]⟩ w' := by
  obtain ⟨temps, left, m₀, m₁, saved⟩ := savedBy sound tidy based level ran room
  obtain ⟨code, emitted, deeds⟩ := saved.empties.does
  have room₀ := saved.room_left room
  obtain ⟨none, -⟩ | ⟨u, v', -, known, -⟩ := saved.empties.vars id
  · cases found.symm.trans none
  have absent : id ∉ temps.map Prod.fst := fun member => by
    cases shared.isNamed.symm.trans (saved.parked_only found member).1
  obtain ⟨⟨m₂, done₂, based₂⟩, parts⟩ :=
    deeds.spare_home tidy room₀ (fun _ => False.elim) (fun none => none) based found shared cell known
  have all : w'.code.toList = code ++ left.allocator.savingCode temps := by
    rw [saved.saves.code, emitted]
    rfl
  refine ⟨fun part k within reached => ?_, fun _ => ⟨m₁, saved.done⟩,
    ⟨v', (saved.saves.others id absent).trans known, deeds.shared (fun none => none) found shared known⟩,
    fun k reached _ => ?_⟩
  · rw [all] at within
    obtain first | ⟨more, rfl, later⟩ := prefix_append_cases within
    · exact parts part k first reached
    · rw [performs_append done₂] at reached
      have granted := deeds.onward.grants (tidy.granted found shared.has)
      obtain ⟨n, at_, -⟩ := room₀.inside granted
      have spared := cell?_of_saving based₂ saved.room later reached (saved.room.apart granted at_)
      have before := parts code m₂ List.prefix_rfl done₂
      rw [cellOf?, at_, Int.toNat_natCast] at before ⊢
      exact spared.trans before
  · cases saved.done.symm.trans reached
    have stack := saved.based.stack
    have moved := saved.aside.stack
    have pushed := saved.pushed
    exact ⟨(saved.aside.regs (by decide)).trans saved.based.zero, by omega,
      saved.aside.size.trans saved.based.memory⟩

/-- The code that brings back what was put aside stores nothing, and moves the stack pointer back. -/
theorem restoringCode_writes (save : CallSave) (apart : ∀ s ∈ save.saved, s.2.1 ≠ Reg.stackPointer) :
    (∀ i ∈ restoringCode save, i.written?.isSome) ∧
      (FitsSigned 32 ((m.reg Reg.stackPointer).toInt + (save.words : Int)) →
        ∀ {k}, m.performs (restoringCode save) = .ok k →
          (k.reg Reg.stackPointer).toInt = (m.reg Reg.stackPointer).toInt + (save.words : Int)) := by
  have loads : ∀ i ∈ loadCode (if save.words = 0 then Reg.zero else Reg.stackPointer) save.saved,
      i.written?.isSome ∧ i.written? ≠ some Reg.stackPointer := fun i member => by
    obtain ⟨s, listed, rfl⟩ := List.mem_map.1 member
    exact ⟨rfl, fun same => apart s listed (Option.some.inj same)⟩
  refine ⟨fun i member => ?_, fun fits {k'} done => ?_⟩
  · obtain load | back := List.mem_append.1 member
    · exact (loads i load).1
    · split at back
      · cases back
      · simp only [List.mem_cons, List.not_mem_nil, or_false] at back
        obtain rfl | rfl := back <;> rfl
  · obtain ⟨k, loaded, done⟩ := performs_split done
    have same : k.reg Reg.stackPointer = m.reg Reg.stackPointer :=
      (performs_writes (fun i member => (loads i member).1) loaded).2.2 (by decide) fun i member => (loads i member).2
    split at done
    · next none =>
      cases done
      rw [same, none]
      exact (Int.add_zero _).symm
    · obtain ⟨k₁, linked, moved⟩ := performs_uncons done
      rw [performs_one] at moved
      have same' : k₁.reg Reg.stackPointer = m.reg Reg.stackPointer :=
        ((effect_writes (r := Reg.returnAddress) rfl linked).others (by decide) (by decide)).trans same
      rw [← same'] at fits ⊢
      exact (effect_move_stack moved fits).1

theorem restoreAfterCall_harmless {w' : Work} (order : InOrder a) (inUse : InUse a) (fits : FitsSigned 32 base)
    (based : Based base size a m) (found : a.var? id = some v) (shared : v.Shared home)
    (cell : m.cellOf? base home = some x) (ran : Ran restoreAfterCall ⟨a, #[]⟩ () w') :
    Harmless base size id home m x ⟨a, #[]⟩ w' := by
  obtain ⟨save, calls, -, pending, -⟩ := ran_restoreAfterCall ran
  obtain idle | ⟨save', pending', waits⟩ := order.pending
  · cases idle.symm.trans pending
  cases pending'.symm.trans pending
  obtain ⟨w'', ran', code, -, others, rest⟩ := restores (w := ⟨a, #[]⟩) pending waits.once fun s member =>
    (waits.there s member).imp fun _ known => known.1
  obtain ⟨-, rfl⟩ := ran.unique ran'
  have code : w'.code.toList = restoringCode save := code
  have absent : id ∉ save.saved.map Prod.fst := fun member => by
    obtain ⟨s, listed, rfl⟩ := List.mem_map.1 member
    obtain ⟨u, known, waiting⟩ := waits.there s listed
    cases found.symm.trans known
    obtain stands | ⟨⟨r, there⟩, -⟩ := shared.place
    · cases stands.symm.trans waiting
    · cases there.symm.trans waiting
  obtain ⟨writes, moves⟩ := restoringCode_writes save (m := m) fun s listed =>
    (inUse.saved save (by rw [pending]; exact List.mem_cons_self) s listed).ne.2.1
  rw [← code] at writes moves
  refine ⟨fun part k within reached => ?_, fun idle => (by cases idle.symm.trans pending),
    ⟨v, (others id absent).trans found, shared⟩, fun k reached level => ?_⟩
  · rw [cellOf?, cell?_of_memory (performs_writes (fun i member => writes i (within.subset member)) reached).1]
    exact cell
  · obtain ⟨memory, zero, -⟩ := performs_writes writes reached
    have pushed : w'.allocator.pushed = a.pushed - (save.words : Int) := by rw [rest]
    have stack := based.stack
    have bounded : FitsSigned 32 ((m.reg Reg.stackPointer).toInt + (save.words : Int)) :=
      .between (fits_toInt (m.reg Reg.stackPointer)) fits (by omega) (by omega)
    have moved := moves bounded reached
    exact ⟨zero.trans based.zero, by omega, (congrArg Array.size memory).trans based.memory⟩

end

namespace Operation

/-- Whether an operation belongs to the course of a body, and moves the stack by itself if at all. -/
def StaysInBody : Operation → Prop
  | enterFunction | leaveFunction | pushWords _ | popWords _ => False
  | _ => True

end Operation

section

variable {a : Allocator} {id : VarId} {v : Variable} {home : Home} {base : Int} {size : Nat} {m m' : Machine} {x : Word}
  {w w' : Work} {name : String} {r : Reg}

/-- No operation but those for writing does anything to a shared variable. -/
theorem operation_harmless (op : Operation) (reached : Reached a) (fits : FitsSigned 32 base) (level : 0 ≤ a.pushed)
    (based : Based base size a m) (found : a.var? id = some v) (shared : v.Shared home)
    (cell : m.cellOf? base home = some x) (permitted : op.Permitted a) (stays : op.StaysInBody)
    (unwritten : ¬ op.Rewrites a id) (ran : Ran op.act ⟨a, #[]⟩ () w') (known : (w'.allocator.var? id).isSome)
    (room : Spacious base size w'.allocator) : Harmless base size id home m x ⟨a, #[]⟩ w' := by
  by_cases deed : op.IsDeed
  · obtain ⟨code, emitted, deeds⟩ := does_operation op (w := ⟨a, #[]⟩) reached.inOrder.sound permitted deed ran
    rw [show code = w'.code.toList from emitted.symm] at deeds
    exact deeds.harmless reached.tidy room.toRoom (fun _ carries => carries) unwritten based found shared cell known
  · cases op with
    | saveForCall =>
      exact saveForCall_harmless reached.inOrder.sound reached.tidy level based found shared cell ran room
    | restoreAfterCall => exact restoreAfterCall_harmless reached.inOrder reached.inUse fits based found shared cell ran
    | enterFunction | leaveFunction | pushWords words | popWords words => exact stays.elim
    | _ => exact (deed trivial).elim

/-- At the end of the body of a function, variables of the root go home, of which no shared one has to. -/
theorem leaveFunction_spares {n : Nat} (tidy : Tidy a) (room : Room base size a)
    (based : Based base size a m) (found : a.var? id = some v) (shared : v.Shared home)
    (cell : m.cellOf? base home = some x) (ran : Ran leaveFunction ⟨a, #[]⟩ n w') :
    (∃ m', m.performs w'.code.toList = .ok m') ∧
      ∀ part k, part <+: w'.code.toList → m.performs part = .ok k → k.cellOf? base home = some x := by
  obtain ⟨sent, closed, vacated, dropped, k, outside, bound, first, second, third, fourth, -, -, fifth, rfl⟩ :=
    ran_leaveFunction ran
  have sends : Does (fun _ => False) (fun _ => False) ⟨a, #[]⟩ sent ∧ Room base size sent.allocator ∧
      (sent.allocator.var? id).isSome := by
    refine first.forM (P := fun mid => Does (fun _ => False) (fun _ => False) ⟨a, #[]⟩ mid ∧
      Room base size mid.allocator ∧ (mid.allocator.var? id).isSome) ⟨.refl _, room, by rw [found]; rfl⟩
      fun r _ mid mid' kept ran => ?_
    obtain rfl | ⟨i, s, u, known, -, -, there, dirty, wrote⟩ := ran_sendRootHome ran
    · exact kept
    · obtain ⟨before, room, some⟩ := kept
      have stores := (does_store (K := fun _ => False) (T := fun _ => False) known there dirty wrote).1
      obtain ⟨u', h, address, known', -, -, rfl⟩ := ran_writeBack.1 wrote
      refine ⟨before.trans stores, ⟨room.globals, room.frame⟩, ?_⟩
      rw [allocator_on, allocator_push, var?_setVar known']
      split
      · rfl
      · exact some
  -- nothing else is emitted
  have closes : closed.code = sent.code :=
    second.forM (P := fun mid => mid.code = sent.code) rfl fun _ _ _ _ same ran => (code_closeLevel ran).trans same
  have vacates : vacated.code = closed.code :=
    third.forM (P := fun mid => mid.code = closed.code) rfl fun _ _ _ _ same ran => (code_vacate ran).trans same
  have drops : dropped.code = vacated.code := by
    simp only [discardTemps, ran_bind, ran_look, ran_pure, and_assoc, exists_and_left, exists_eq_left] at fourth
    obtain ⟨_, mid, ran, -, rfl⟩ := fourth
    exact ran.forM (P := fun mid => mid.code = vacated.code) rfl fun _ _ _ _ same ran => (code_drop ran).trans same
  have binds : bound.code = dropped.code := fifth.forM (P := fun mid => mid.code = dropped.code) rfl
    fun _ _ _ _ same ran => by
      obtain ⟨_, -, rfl⟩ := ran_rebind ran
      exact same
  have all : (on (fun a => { a with held := [] }) bound).code = sent.code :=
    binds.trans (drops.trans (vacates.trans closes))
  obtain ⟨⟨code, emitted, deeds⟩, room', some⟩ := sends
  obtain ⟨v', known⟩ := Option.isSome_iff_exists.1 some
  obtain ⟨⟨m', done, -⟩, parts⟩ :=
    deeds.spare_home tidy room' (fun _ => False.elim) (fun none => none) based found shared cell known
  rw [all, show sent.code.toList = code from emitted]
  exact ⟨⟨m', done⟩, parts⟩

/-- Of all operations, only a note that a shared variable was written makes the allocator store in its home. -/
theorem operation_spares (op : Operation) (reached : Reached a) (fits : FitsSigned 32 base) (level : 0 ≤ a.pushed)
    (room : Room base size a) (based : Based base size a m) (found : a.var? id = some v) (shared : v.Shared home)
    (cell : m.cellOf? base home = some x) (permitted : op.Permitted a) (unwritten : ¬ op.Rewrites a id)
    (ran : Ran op.act ⟨a, #[]⟩ () w') (known : (w'.allocator.var? id).isSome) (room' : Spacious base size w'.allocator) :
    (a.calls = [] → ∃ m', m.performs w'.code.toList = .ok m') ∧
      ∀ part k, part <+: w'.code.toList → m.performs part = .ok k → k.cellOf? base home = some x := by
  have quiet : w'.code = #[] → (a.calls = [] → ∃ m', m.performs w'.code.toList = .ok m') ∧
      ∀ part k, part <+: w'.code.toList → m.performs part = .ok k → k.cellOf? base home = some x := by
    intro none
    rw [none]
    refine ⟨fun _ => ⟨m, rfl⟩, fun part k within reached => ?_⟩
    rw [List.prefix_nil.1 within] at reached
    cases reached
    exact cell
  by_cases stays : op.StaysInBody
  · have harmless := operation_harmless op reached fits level based found shared cell permitted stays unwritten ran
      known room'
    exact ⟨harmless.runs, harmless.parts⟩
  · cases op with
    | enterFunction =>
      obtain ⟨-, parted, gone, rfl⟩ := ran_enterFunction reached.inOrder.sound.registers.toOwners ran
      exact quiet (gone.forM (P := fun mid => mid.code = #[]) rfl fun _ _ _ _ same ran => by
        obtain ⟨u, -, ⟨-, rfl⟩ | ⟨r, -, rfl⟩⟩ := ran_unbind.1 ran <;> exact same)
    | leaveFunction =>
      obtain ⟨n, ran, -⟩ := ran_map.1 ran
      obtain ⟨runs, parts⟩ :=
        leaveFunction_spares reached.tidy room based found shared cell ran
      exact ⟨fun _ => runs, parts⟩
    | pushWords words =>
      cases (ran_change (f := fun a => { a with pushed := a.pushed + words })).1 ran
      exact quiet rfl
    | popWords words =>
      cases (ran_change (f := fun a => { a with pushed := a.pushed - words })).1 ran
      exact quiet rfl
    | _ => exact (stays trivial).elim

/-! ### Writes -/

/-- Where a shared variable is to be written, its register is handed out, and its home is left alone. -/
theorem prepareWrite_spares (sound : Sound [] a) (tidy : Tidy a) (based : Based base size a m)
    (found : a.var? id = some v) (shared : v.Shared home) (cell : m.cellOf? base home = some x)
    (named : a.find? name = some id) (ran : Ran (prepareWrite name) ⟨a, #[]⟩ r w') (room : Room base size w'.allocator) :
    (∃ m', m.performs w'.code.toList = .ok m' ∧ Based base size w'.allocator m') ∧
      (∀ part k, part <+: w'.code.toList → m.performs part = .ok k → k.cellOf? base home = some x) ∧
      r.Carries ∧ w'.allocator.find? name = some id ∧ Onward a w'.allocator ∧
      ∃ v', w'.allocator.var? id = some v' ∧ v'.Exposed home ∧ v'.storage = .register r := by
  obtain ⟨id', v', named', found', -, ⟨there, rfl⟩ | ⟨away, mid, u, took, known, rfl⟩⟩ := ran_prepareWrite ran
  · cases named.symm.trans named'
    cases found.symm.trans found'
    refine ⟨⟨m, rfl, based.congr rfl⟩, fun part k within reached => ?_, tidy.carried found there, named,
      .of_same (by simp [used, Allocator.setVar]) rfl, _,
      var?_setVar_self (a := a.used id r) found _, ⟨shared.isNamed, shared.scalar, shared.has, shared.reloads⟩, there⟩
    rw [List.prefix_nil.1 within] at reached
    cases reached
    exact cell
  · cases named.symm.trans named'
    cases found.symm.trans found'
    have taken := takes sound took
    have known' := taken.only found fun there => by cases (congrArg Storage.register? there).symm.trans away
    cases known.symm.trans known'
    obtain ⟨code, emitted, deeds⟩ := does_take (K := fun _ => False) (T := a.Open) sound took
    have onward : Onward mid.allocator ((mid.allocator.bound id r v).setVar id
        { v with storage := .register r, isDirty := true }) := (Onward.bound _ _ _ _).trans (.setVar _ _ _)
    obtain ⟨⟨m', done, based'⟩, parts⟩ := deeds.spare_home tidy (room.of_grows onward.toGrows) (fun _ => Open.carries)
      (fun none => none) based found shared cell known
    rw [show code = mid.code.toList from emitted.symm] at done parts
    refine ⟨⟨m', done, based'.congr onward.pushed⟩, parts, .inl taken.inPool, (taken.keeps.find? name).trans named,
      deeds.onward.trans onward, _, (var?_bound_setVar known _ id).trans (if_pos rfl),
      ⟨shared.isNamed, shared.scalar, shared.has, shared.reloads⟩, rfl⟩

/-- What holds between two events: the home of the shared variable has what was written last. -/
structure AtHome (base : Int) (size : Nat) (id : VarId) (home : Home) (a : Allocator) (m : Machine) (latest : Word) :
    Prop where
  reached : Reached a
  level : 0 ≤ a.pushed
  room : Room base size a
  based : Based base size a m
  known : ∃ v, a.var? id = some v ∧ v.Shared home
  cell : m.cellOf? base home = some latest

/-- Work that shares a variable, and brings its value home. -/
structure Delivers (base : Int) (size : Nat) (id : VarId) (home : Home) (m : Machine) (x : Word) (w w' : Work) : Prop where
  onward : Onward w.allocator w'.allocator
  room : Room base size w'.allocator
  known : ∃ v, w'.allocator.var? id = some v ∧ v.Shared home
  done : ∃ code m', w'.code.toList = w.code.toList ++ code ∧ m.performs code = .ok m' ∧
    Based base size w'.allocator m' ∧ m'.cellOf? base home = some x

theorem Delivers.atHome (delivers : Delivers base size id home m x w w') (fresh : w.code = #[])
    (reached : Reached w'.allocator) (level : 0 ≤ w.allocator.pushed) :
    ∃ m', m.performs w'.code.toList = .ok m' ∧ AtHome base size id home w'.allocator m' x := by
  obtain ⟨code, m', emitted, done, based, cell⟩ := delivers.done
  rw [fresh] at emitted
  rw [show code = w'.code.toList from emitted.symm] at done
  exact ⟨m', done, reached, by rw [delivers.onward.pushed]; exact level, delivers.room, based, delivers.known, cell⟩

/-- A register goes to the home of its variable. -/
theorem writeBack_stores {u : Unit} (found : w.allocator.var? id = some v) (has : v.home = some home)
    (stored : m.reg r = x) (granted : w.allocator.Grants home) (based : Based base size w.allocator m)
    (room : Room base size w.allocator) (ran : Ran (writeBack id r) w u w') :
    w'.allocator = w.allocator.setVar id { v with isDirty := false } ∧
      ∃ code m', w'.code.toList = w.code.toList ++ code ∧ m.performs code = .ok m' ∧
        Based base size w'.allocator m' ∧ m'.cellOf? base home = some x := by
  obtain ⟨u, home', address, known, has', formed, rfl⟩ := ran_writeBack.1 ran
  cases found.symm.trans known
  cases has.symm.trans has'
  obtain ⟨n, at_, inside⟩ := room.inside granted
  rw [← based.memory] at inside
  refine ⟨rfl, [.sw r address.base address.offset], m.store n (m.reg r), by rw [code_on, code_push, Array.toList_push],
    performs_one.trans (effect_sw ((based.formed formed).trans at_) inside), (based.store n _).congr rfl, ?_⟩
  rw [cellOf?, at_, Int.toNat_natCast, stored]
  exact cell?_store_self inside

/-- Once it is noted that a variable was written which a pointer may read, its home has the value. -/
theorem markWritten_delivers (found : w.allocator.var? id = some v) (exposed : v.Exposed home)
    (place : v.storage = .memory home ∨ ∃ r, v.storage = .register r) (named : w.allocator.find? name = some id)
    (granted : w.allocator.Grants home) (based : Based base size w.allocator m) (room : Room base size w.allocator)
    (bears : Variable.Bears base m x { v with isDirty := true }) (ran : Ran (markWritten name) w () w') :
    Delivers base size id home m x w w' := by
  obtain ⟨id', v', named', found', ⟨isTemp, -⟩ | ⟨-, mid, rfl, ⟨r, -, there, wrote⟩ | ⟨quiet, rfl⟩⟩⟩ := ran_markWritten ran
  · cases named.symm.trans named'
    cases found.symm.trans found'
    cases exposed.isNamed.symm.trans isTemp
  · cases named.symm.trans named'
    cases found.symm.trans found'
    have noted := var?_setVar_self found { v with isDirty := true }
    obtain ⟨same, done⟩ := writeBack_stores (w := on (fun a => a.setVar id { v with isDirty := true }) w) noted
      exposed.has (bears.register there fun stale => by cases stale.2.2.2) granted (based.congr rfl)
      ⟨room.globals, room.frame⟩ wrote
    have shared : Variable.Shared home { v with isDirty := false } :=
      ⟨⟨exposed.isNamed, exposed.scalar, exposed.has, exposed.reloads⟩, .inr ⟨⟨r, there⟩, rfl⟩⟩
    refine ⟨?_, ?_, ⟨_, ?_, shared⟩, done⟩ <;> rw [same]
    · exact (Onward.setVar _ _ _).trans (.setVar _ _ _)
    · exact ⟨room.globals, room.frame⟩
    · exact var?_setVar_self noted _
  · cases named.symm.trans named'
    cases found.symm.trans found'
    have stands : v.storage = .memory home := place.resolve_right fun ⟨r, there⟩ => by
      obtain settled | away := quiet
      · cases exposed.reloads.symm.trans settled
      · cases (congrArg Storage.register? there).symm.trans away
    exact ⟨.setVar _ _ _, ⟨room.globals, room.frame⟩, ⟨_, var?_setVar_self found _,
      ⟨exposed.isNamed, exposed.scalar, exposed.has, exposed.reloads⟩, .inl stands⟩,
      [], m, (List.append_nil _).symm, rfl, based.congr rfl, bears.memory exposed.scalar stands⟩

/-- A write goes home at once, and until it does the home is left alone. -/
theorem AtHome.write {w₁ : Work} (rest : AtHome base size id home a m x) (idle : a.calls = [])
    (named : a.find? name = some id) (prepared : Ran (prepareWrite name) ⟨a, #[]⟩ r w₁)
    (room : Room base size w₁.allocator) :
    (∀ part k, part <+: w₁.code.toList → m.performs part = .ok k → k.cellOf? base home = some x) ∧
      ∃ m₁, m.performs w₁.code.toList = .ok m₁ ∧ ∀ m₂ w₂, Writes r m₁ m₂ →
        Ran (markWritten name) ⟨w₁.allocator, #[]⟩ () w₂ → ∃ m₃, m₂.performs w₂.code.toList = .ok m₃ ∧
          AtHome base size id home w₂.allocator m₃ (m₂.reg r) := by
  obtain ⟨v, found, shared⟩ := rest.known
  have tidy := rest.reached.tidy
  obtain ⟨⟨m₁, performed, based⟩, parts, carries, named', onward, v', found', exposed, there⟩ :=
    prepareWrite_spares rest.reached.inOrder.sound tidy rest.based found shared rest.cell named prepared room
  refine ⟨parts, m₁, performed, fun m₂ w₂ written marked => ?_⟩
  have asked : Reached w₁.allocator := .step (w := ⟨a, #[]⟩) (.prepareWrite name) rest.reached idle
    (ran_map.2 ⟨r, prepared, rfl⟩)
  have noted : Reached w₂.allocator := .step (w := ⟨w₁.allocator, #[]⟩) (.markWritten name) asked
    (onward.calls.trans idle) marked
  have delivers := markWritten_delivers (w := ⟨w₁.allocator, #[]⟩) found' exposed (.inr ⟨r, there⟩) named'
    (onward.grants (tidy.granted found shared.has)) (based.writes written carries.ne.2.1) room
    (Variable.bears_of_dirty (v := { v' with isDirty := true }) exposed.scalar there rfl) marked
  exact delivers.atHome rfl noted (by rw [onward.pushed]; exact rest.level)

/-! ### A variable becomes shared -/

theorem ran_setMustReload {u : Unit} (ran : Ran (setMustReload name) w u w') (named : w.allocator.find? name = some id) :
    ∃ v, w.allocator.var? id = some v ∧ w' = on (fun a => a.setVar id { v with mustReload := true }) w := by
  simp only [setMustReload, ran_bind, ran_resolve, and_assoc, exists_and_left, exists_eq_left] at ran
  obtain ⟨id', named', ran⟩ := ran
  cases named.symm.trans named'
  exact ran_update.1 ran

/-- A named scalar is in a register or at home. -/
theorem Allocator.Sound.stands (sound : Sound [] a) (found : a.var? id = some v) (isNamed : v.isTemp = false)
    (scalar : v.array = none) (has : v.home = some home) :
    v.storage = .memory home ∨ ∃ r, v.storage = .register r := by
  cases storage : v.storage with
  | register r => exact .inr ⟨r, rfl⟩
  | saved slot => exact ((sound.fits found).unsaved isNamed slot storage).elim
  | memory place =>
    have memory := (sound.fits found).memory storage
    rw [memory?_scalar scalar, has] at memory
    cases memory
    exact .inl rfl

/-- A variable of which the address is formed has its value at home. -/
theorem memoryAddress_delivers {address : Address} (sound : Sound [] w.allocator) (found : w.allocator.var? id = some v)
    (isNamed : v.isTemp = false) (scalar : v.array = none) (has : v.home = some home)
    (named : w.allocator.find? name = some id) (based : Based base size w.allocator m)
    (room : Room base size w.allocator) (bears : v.Bears base m x) (ran : Ran (memoryAddress name) w address w') :
    Delivers base size id home m x w w' := by
  simp only [memoryAddress, ran_bind, ran_resolve, ran_known, and_assoc, exists_and_left, exists_eq_left] at ran
  obtain ⟨id', named', u, found', ran⟩ := ran
  cases named.symm.trans named'
  cases found.symm.trans found'
  simp only [scalar, has] at ran
  have place := sound.stands found isNamed scalar has
  split at ran
  · next r there dirty =>
    simp only [ran_bind] at ran
    obtain ⟨_, mid, wrote, _, marked, noted, addressed⟩ := ran
    obtain ⟨-, rfl⟩ := ran_addressOf.1 addressed
    have there : v.storage = .register r := by
      cases storage : v.storage <;> rw [storage] at there <;> cases there
      rfl
    obtain ⟨same, code, m', emitted, done, based', cell⟩ := writeBack_stores found has
      (bears.register there fun stale => by cases stale.2.2.2.symm.trans dirty)
      (sound.homes.granted found has) based room wrote
    have known : mid.allocator.var? id = some { v with isDirty := false } := by
      rw [same]
      exact var?_setVar_self found _
    obtain ⟨u, known', rfl⟩ := ran_update.1 noted
    cases known.symm.trans known'
    have shared : Variable.Shared home { v with isDirty := false, mustReload := true } :=
      ⟨⟨isNamed, scalar, has, rfl⟩, .inr ⟨⟨r, there⟩, rfl⟩⟩
    refine ⟨?_, ⟨?_, ?_⟩, ⟨_, var?_setVar_self known _, shared⟩, code, m', emitted, done, based'.congr rfl, cell⟩
    · rw [allocator_on, same]
      exact (Onward.setVar _ _ _).trans (.setVar _ _ _)
    · rw [allocator_on, same]
      exact room.globals
    · rw [allocator_on, same]
      exact room.frame
  · next quiet =>
    simp only [ran_bind] at ran
    obtain ⟨_, marked, noted, addressed⟩ := ran
    obtain ⟨-, rfl⟩ := ran_addressOf.1 addressed
    have settled : v.storage = .memory home ∨ (∃ r, v.storage = .register r) ∧ v.isDirty = false :=
      place.imp_right fun inside => ⟨inside, eq_false_of_ne_true fun dirty => by
        obtain ⟨r, there⟩ := inside
        exact quiet r (by rw [there]; rfl) dirty⟩
    obtain ⟨u, found', rfl⟩ := ran_update.1 noted
    cases found.symm.trans found'
    refine ⟨.setVar _ _ _, ⟨room.globals, room.frame⟩, ⟨_, var?_setVar_self found _, ⟨isNamed, scalar, has, rfl⟩,
      settled⟩, [], m, (List.append_nil _).symm, rfl, based.congr rfl, ?_⟩
    obtain stands | ⟨⟨r, there⟩, clean⟩ := settled
    · exact bears.memory scalar stands
    · exact bears.home scalar there clean (.inl isNamed) has

end

/-! ### The course of a program -/

/-- A named scalar between two operations, and the machine. -/
structure Exposable (base : Int) (size : Nat) (id : VarId) (home : Home) (name : String) (v : Variable) (a : Allocator)
    (m : Machine) : Prop where
  reached : Reached a
  idle : a.calls = []
  level : 0 ≤ a.pushed
  room : Room base size a
  based : Based base size a m
  named : a.find? name = some id
  found : a.var? id = some v
  isNamed : v.isTemp = false
  scalar : v.array = none
  has : v.home = some home

/-- States of the allocator and the machine in the course of a program that writes a variable in two ways, in the
register that the allocator hands out for it and through pointers, with what was written last. The variable is shared
from the moment on when that is noted: while its register is not newer than its home, or right before it is noted that
it was written, or when its address is formed. Any operations of the allocator follow each other, with all of their
code, but those that begin or end the body of a function or turn the variable into something else. A write to the
register comes with the request for the register and the note that it was written. -/
inductive Sharing (base : Int) (size : Nat) (id : VarId) (home : Home) : Allocator → Machine → Word → Prop where
  | exposed {a : Allocator} {m : Machine} {x : Word} {name : String} {v : Variable} {w' : Work}
      (start : Exposable base size id home name v a m) (clean : ∀ r, v.storage = .register r → v.isDirty = false)
      (bears : v.Bears base m x) (ran : Ran (setMustReload name) ⟨a, #[]⟩ () w') :
      Sharing base size id home w'.allocator m x
  | exposedWritten {a : Allocator} {m m' : Machine} {x : Word} {name : String} {v : Variable} {w₁ w' : Work}
      (start : Exposable base size id home name v a m) (bears : Variable.Bears base m x { v with isDirty := true })
      (ran : Ran (setMustReload name) ⟨a, #[]⟩ () w₁) (marked : Ran (markWritten name) w₁ () w')
      (done : m.performs w'.code.toList = .ok m') : Sharing base size id home w'.allocator m' x
  | addressed {a : Allocator} {m m' : Machine} {x : Word} {name : String} {v : Variable} {address : Address} {w' : Work}
      (start : Exposable base size id home name v a m) (bears : v.Bears base m x)
      (ran : Ran (memoryAddress name) ⟨a, #[]⟩ address w') (done : m.performs w'.code.toList = .ok m') :
      Sharing base size id home w'.allocator m' x
  | operation {a : Allocator} {m m' : Machine} {x : Word} {w' : Work} (op : Operation)
      (before : Sharing base size id home a m x) (permitted : op.Permitted a) (stays : op.StaysInBody)
      (unwritten : ¬ op.Rewrites a id) (ran : Ran op.act ⟨a, #[]⟩ () w') (known : (w'.allocator.var? id).isSome)
      (room : Spacious base size w'.allocator) (level : 0 ≤ w'.allocator.pushed)
      (done : m.performs w'.code.toList = .ok m') : Sharing base size id home w'.allocator m' x
  | write {a : Allocator} {m m₁ m₂ m₃ : Machine} {x : Word} {name : String} {r : Reg} {w₁ w₂ : Work}
      (before : Sharing base size id home a m x) (idle : a.calls = []) (named : a.find? name = some id)
      (prepared : Ran (prepareWrite name) ⟨a, #[]⟩ r w₁) (room : Room base size w₁.allocator)
      (performed : m.performs w₁.code.toList = .ok m₁) (written : Writes r m₁ m₂)
      (marked : Ran (markWritten name) ⟨w₁.allocator, #[]⟩ () w₂) (done : m₂.performs w₂.code.toList = .ok m₃) :
      Sharing base size id home w₂.allocator m₃ (m₂.reg r)
  /-- A pointer writes the variable. -/
  | store {a : Allocator} {m : Machine} {x : Word} {n : Nat} (y : Word) (before : Sharing base size id home a m x)
      (at_ : home.address base = n) : Sharing base size id home a (m.store n y) y
  /-- Other code runs, which may write any other register and any other word. Words that it leaves pushed are noted. -/
  | code {a : Allocator} {m m' : Machine} {x : Word} (words : Int) (before : Sharing base size id home a m x)
      (zero : m'.reg Reg.zero = m.reg Reg.zero)
      (stack : (m'.reg Reg.stackPointer).toInt = (m.reg Reg.stackPointer).toInt - words)
      (memory : m'.memory.size = m.memory.size) (cell : m'.cellOf? base home = m.cellOf? base home)
      (level : 0 ≤ a.pushed + words) : Sharing base size id home { a with pushed := a.pushed + words } m' x

/-- Every event leaves the value that was written last at home. -/
theorem Sharing.atHome {base : Int} {size : Nat} {id : VarId} {home : Home} {a : Allocator} {m : Machine} {x : Word}
    (sharing : Sharing base size id home a m x) (fits : FitsSigned 32 base) : AtHome base size id home a m x := by
  induction sharing with
  | @exposed a m x name v w' start clean bears ran =>
    obtain ⟨u, found, rfl⟩ := ran_setMustReload ran start.named
    cases start.found.symm.trans found
    have place := start.reached.inOrder.sound.stands found start.isNamed start.scalar start.has
    have shared : Variable.Shared home { v with mustReload := true } :=
      ⟨⟨start.isNamed, start.scalar, start.has, rfl⟩, place.imp_right fun ⟨r, there⟩ => ⟨⟨r, there⟩, clean r there⟩⟩
    refine ⟨.step (w := ⟨a, #[]⟩) (.setMustReload name) start.reached start.idle ran, start.level,
      ⟨start.room.globals, start.room.frame⟩, start.based.congr rfl, ⟨_, var?_setVar_self found _, shared⟩, ?_⟩
    obtain stands | ⟨r, there⟩ := place
    · exact bears.memory start.scalar stands
    · exact bears.home start.scalar there (clean r there) (.inl start.isNamed) start.has
  | @exposedWritten a m m' x name v w₁ w' start bears ran marked done =>
    obtain ⟨u, found, same⟩ := ran_setMustReload ran start.named
    cases start.found.symm.trans found
    have sound := start.reached.inOrder.sound
    have place := sound.stands start.found start.isNamed start.scalar start.has
    have flagged : Reached w₁.allocator := .step (w := ⟨a, #[]⟩) (.setMustReload name) start.reached start.idle ran
    subst same
    have delivers := markWritten_delivers (w := on (fun a => a.setVar id { v with mustReload := true }) ⟨a, #[]⟩)
      (var?_setVar_self found _) ⟨start.isNamed, start.scalar, start.has, rfl⟩ place start.named
      (sound.homes.granted found start.has) (start.based.congr rfl) ⟨start.room.globals, start.room.frame⟩
      ⟨bears.address, fun there _ => bears.register there fun stale => (by cases stale.2.2.2), bears.memory,
        fun _ _ clean => (by cases clean)⟩ marked
    obtain ⟨k, performed, rest⟩ := delivers.atHome rfl (.step (.markWritten name) flagged start.idle marked) start.level
    cases performed.symm.trans done
    exact rest
  | @addressed a m m' x name v address w' start bears ran done =>
    have delivers := memoryAddress_delivers (w := ⟨a, #[]⟩) start.reached.inOrder.sound start.found start.isNamed
      start.scalar start.has start.named start.based start.room bears ran
    obtain ⟨k, performed, rest⟩ := delivers.atHome rfl (.step (w := ⟨a, #[]⟩) (.memoryAddress name) start.reached
      start.idle (ran_map.2 ⟨address, ran, rfl⟩)) start.level
    cases performed.symm.trans done
    exact rest
  | operation op before permitted stays unwritten ran known room level done ih =>
    obtain ⟨v, found, shared⟩ := ih.known
    have harmless := operation_harmless op ih.reached fits ih.level ih.based found shared ih.cell permitted stays
      unwritten ran known room
    exact ⟨.step op ih.reached permitted ran, level, room.toRoom, harmless.based _ done level, harmless.known,
      harmless.parts _ _ List.prefix_rfl done⟩
  | write before idle named prepared room performed written marked done ih =>
    obtain ⟨-, k₁, performed', writes⟩ := ih.write idle named prepared room
    cases performed.symm.trans performed'
    obtain ⟨k₃, done', rest⟩ := writes _ _ written marked
    cases done.symm.trans done'
    exact rest
  | @store a m x n y before at_ ih =>
    have cell := ih.cell
    rw [cellOf?, at_, Int.toNat_natCast] at cell
    have inside : n < m.memory.size := (Array.getElem?_eq_some_iff.1 cell).1
    refine ⟨ih.reached, ih.level, ih.room, ih.based.store n y, ih.known, ?_⟩
    rw [cellOf?, at_, Int.toNat_natCast]
    exact cell?_store_self inside
  | @code a m m' x words before zero stack memory cell level ih =>
    have based := ih.based.stack
    have noted : Ran (pushWords words) ⟨a, #[]⟩ () ⟨{ a with pushed := a.pushed + words }, #[]⟩ := ran_change.2 rfl
    refine ⟨.step (.pushWords words) ih.reached trivial noted, level, ⟨ih.room.globals, ih.room.frame⟩,
      ⟨zero.trans ih.based.zero, ?_, memory.trans ih.based.memory⟩, ih.known, cell.trans ih.cell⟩
    dsimp only
    omega

/-- What a program can rely on for a variable that it shares with pointers. Reading it brings what was written last,
and fails only if no register can be had. And nothing that the allocator emits stores anything else over what was
written last, at no instruction of the code for any operation: neither when another variable is written, moved or
dropped, nor when this one is to be written again, until it was. -/
structure Coherent (base : Int) (size : Nat) (id : VarId) (home : Home) (a : Allocator) (m : Machine) (latest : Word) :
    Prop where
  reads : ∀ {name r w'}, a.calls = [] → a.find? name = some id → Ran (getRegister name true) ⟨a, #[]⟩ r w' →
    Room base size w'.allocator → ∃ m', m.performs w'.code.toList = .ok m' ∧ m'.reg r = latest
  readable : ∀ {name}, a.calls = [] → a.find? name = some id → WritesScalars a →
    (∃ v r, a.var? id = some v ∧ v.storage = .register r) ∨ (∃ r ∈ a.free, r ∉ a.held) ∨ (chooseVictim? a).isSome →
      ∃ r w', Ran (getRegister name true) ⟨a, #[]⟩ r w'
  spared : ∀ {op w'}, Operation.Permitted a op → ¬ op.Rewrites a id → Ran op.act ⟨a, #[]⟩ () w' →
    (w'.allocator.var? id).isSome → Spacious base size w'.allocator →
      (a.calls = [] → ∃ m', m.performs w'.code.toList = .ok m') ∧
      ∀ part k, part <+: w'.code.toList → m.performs part = .ok k → k.cellOf? base home = some latest
  written : ∀ {name r w₁}, a.calls = [] → a.find? name = some id → Ran (prepareWrite name) ⟨a, #[]⟩ r w₁ →
    Room base size w₁.allocator →
      (∀ part k, part <+: w₁.code.toList → m.performs part = .ok k → k.cellOf? base home = some latest) ∧
      ∃ m₁, m.performs w₁.code.toList = .ok m₁ ∧ ∀ m₂ w₂, Writes r m₁ m₂ →
        Ran (markWritten name) ⟨w₁.allocator, #[]⟩ () w₂ →
          ∃ m₃, m₂.performs w₂.code.toList = .ok m₃ ∧ m₃.cellOf? base home = some (m₂.reg r)

/-- A variable that pointers reach stays coherent with memory, however writes of either kind, evictions, relocations,
paths of control that meet, and calls follow each other. -/
theorem shared_variable_coherent {base : Int} {size : Nat} {id : VarId} {home : Home} {a : Allocator} {m : Machine}
    {latest : Word} (sharing : Sharing base size id home a m latest) (fits : FitsSigned 32 base) :
    Coherent base size id home a m latest := by
  have rest := sharing.atHome fits
  obtain ⟨v, found, shared⟩ := rest.known
  have sound := rest.reached.inOrder.sound
  refine ⟨fun idle named ran room => ?_, fun idle named scalars available => ?_,
    fun permitted unwritten ran known room => ?_, fun idle named prepared room => ?_⟩
  · have bearing := Bearing.of_one rest.based found (shared.bears_iff.2 rest.cell)
    obtain ⟨code, m', emitted, done, -, secures, -⟩ := read_performs (w := ⟨a, #[]⟩) sound rest.reached.tidy room
      bearing named (Function.update_self ..) ran
    rw [show code = _ from emitted.symm] at done
    exact ⟨m', done, secures.holds⟩
  · refine read_succeeds (w := ⟨a, #[]⟩) true sound named found shared.scalar
      ((sound.fits found).unsaved shared.isNamed) (fun isTemp => by cases shared.isNamed.symm.trans isTemp) ?_
    obtain ⟨u, r, found', there⟩ | free := available
    · cases found.symm.trans found'
      exact .inl (by rw [there]; rfl)
    · exact .inr (take_runs sound scalars free)
  · exact operation_spares _ rest.reached fits rest.level rest.room rest.based found shared rest.cell permitted unwritten
      ran known room
  · obtain ⟨parts, m₁, performed, writes⟩ := rest.write idle named prepared room
    refine ⟨parts, m₁, performed, fun m₂ w₂ written marked => ?_⟩
    obtain ⟨m₃, done, after⟩ := writes m₂ w₂ written marked
    exact ⟨m₃, done, after.cell⟩

/-- The work for a new variable. -/
def plainWork : Work := ⟨(after (.addVariable "x" none) ⟨initial, #[]⟩).allocator, #[]⟩

/-- The work once it was noted that a pointer may change the variable, and that it was written. -/
def pointedWork : Work := after (.markWritten "x") (after (.setMustReload "x") plainWork)

/-- A machine with a number in the register of the variable. -/
def pointedMachine : Machine := (fresh 4).withWords Reg.pool [5]

theorem shared_variable_coherent_pointed : ∃ m, pointedMachine.performs pointedWork.code.toList = .ok m ∧
    m.cell? 0 = some 5 ∧ ∃ r w' m', Ran (getRegister "x" true) ⟨pointedWork.allocator, #[]⟩ r w' ∧
      (m.store 0 9).performs w'.code.toList = .ok m' ∧ m'.reg r = 9 := by
  have reached : Reached plainWork.allocator :=
    .step (w := ⟨initial, #[]⟩) (.addVariable "x" none) .initial ⟨rfl, nofun⟩ rfl
  have start : Exposable 0 4 0 (.global 0) "x"
      { Variable.plain "x" false 0 (some (.global 0)) (.register ⟨8⟩) with isDirty := true } plainWork.allocator
      pointedMachine :=
    ⟨reached, rfl, by decide, ⟨by decide, fun frame => nomatch frame⟩, ⟨rfl, rfl, rfl⟩, rfl, rfl, rfl, rfl, rfl⟩
  have written : Sharing 0 4 0 (.global 0) pointedWork.allocator (pointedMachine.store 0 5) 5 :=
    .exposedWritten start (Variable.bears_of_dirty (m := pointedMachine) (r := ⟨8⟩) rfl rfl rfl) rfl rfl rfl
  have stored : Sharing 0 4 0 (.global 0) pointedWork.allocator ((pointedMachine.store 0 5).store 0 9) 9 :=
    .store 9 written rfl
  have coherent := shared_variable_coherent stored (by decide)
  have named : pointedWork.allocator.find? "x" = some 0 := rfl
  have scalars : WritesScalars pointedWork.allocator := fun id v found _ _ => by
    match id with
    | 0 =>
      cases found
      rfl
    | n + 1 => cases found
  obtain ⟨r, w', ran⟩ := coherent.readable rfl named scalars (.inl ⟨_, ⟨8⟩, rfl, rfl⟩)
  have runs : Ran (Alloc.getRegister "x" true) ⟨pointedWork.allocator, #[]⟩ ⟨8⟩
      (after (.getRegister "x" true) ⟨pointedWork.allocator, #[]⟩) := rfl
  obtain ⟨rfl, rfl⟩ := ran.unique runs
  obtain ⟨m', done, reads⟩ := coherent.reads rfl named ran ⟨by decide, fun frame => nomatch frame⟩
  exact ⟨_, rfl, rfl, _, _, m', ran, done, reads⟩

end SmallC
