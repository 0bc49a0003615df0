import SmallC.Proofs.Allocation.Calls
import SmallC.Proofs.Allocation.Emitting

/-!
Where the stack pointer and the return address are while the allocator emits code. Modest instructions leave
control at the point where it is. Preparing for a call moves the stack pointer and puts the return address
aside, and what comes behind the call undoes both. The code at the end of a function body only writes global
words.
-/
namespace SmallC

namespace Point

/-- The point with the stack pointer so many words further down. -/
def lowered (words : Nat) : Point → Point
  | outside => outside
  | inside depth link => inside (depth + words) link

/-- The point behind the preparation for a call, with a save area of so many words. -/
def suspended (words : Nat) : Point → Point
  | outside => outside
  | inside depth _ => inside (depth + words) (.kept (depth + words))

end Point

namespace Allocator

/-- The points where code stands that a state of the allocator emits: at the top level, or below the frame,
which has room for the slots that were handed out. -/
inductive Stance (a : Allocator) : Point → Prop where
  | outside (top : a.frame = none) : Stance a .outside
  | inside {size depth : Nat} (body : a.frame = some size) (room : size ≤ depth) :
      Stance a (.inside depth .held)

variable {a a' : Allocator} {points : String → Point} {globals : Nat} {pt : Point} {i : MachineInstr}

theorem Roomier.stance (roomier : Roomier a a') (stance : a'.Stance pt) : a.Stance pt := by
  have zone := roomier.zone
  cases stance with
  | outside top =>
    rw [top] at zone
    exact .outside (Option.not_isSome_iff_eq_none.1 (by simp [← zone]))
  | inside body room =>
    rw [body] at zone
    obtain ⟨size, had⟩ := Option.isSome_iff_exists.1 zone.symm
    exact .inside had ((roomier.frame _ _ had body).trans room)

theorem Stance.modest (stance : a.Stance pt) (flat : a.pushed = 0) (low : a.globals ≤ globals)
    (modest : MachineInstr.Modest a i) : Flow points globals pt i (some pt) := by
  rcases modest with calm | ⟨r, h, address, granted, formed, rfl⟩
  · exact .calm calm
  · cases stance with
    | outside top => exact .outside rfl fun _ same => by cases same
    | inside body room =>
      cases h with
      | global x =>
        cases formed
        exact .write (Nat.lt_of_lt_of_le granted low)
      | frame slot =>
        have inFunction : a.inFunction = true := by rw [inFunction, body]; rfl
        simp only [Alloc.address?, inFunction, ↓reduceIte, flat, Int.zero_add, Option.some.injEq] at formed
        subst formed
        obtain ⟨size, found, inside⟩ := granted
        cases body.symm.trans found
        exact .store (Nat.lt_of_lt_of_le inside room) fun _ held => by cases held

end Allocator

namespace Alloc

open Allocator

variable {α : Type} {w w' : Work} {r : Reg} {points : String → Point} {globals : Nat} {pt : Point}

/-- Code as entries. -/
def entriesOf (code : Array MachineInstr) : List Entry := code.toList.map .plain

theorem entriesOf_append (code code' : Array MachineInstr) :
    entriesOf (code ++ code') = entriesOf code ++ entriesOf code' := by
  simp [entriesOf]

/-- What an operation comes to that emits modest instructions, along the points of control. -/
theorem Tended.passes (tended : Tended w w') (flat : w.allocator.pushed = 0) :
    ∃ code, w'.code = w.code ++ code ∧ ∀ points globals pt, w'.allocator.Stance pt →
      w'.allocator.globals ≤ globals → Passes points globals pt (entriesOf code) pt := by
  obtain ⟨code, emitted, modest⟩ := tended.code
  refine ⟨code, emitted, fun points globals pt stance low => .code fun i member => ?_⟩
  exact stance.modest (tended.wider.pushed.trans flat) low (modest i (Array.mem_toList_iff.1 member))

/-! ### Calls -/

/-- Words of the save area are written from one slot on. -/
theorem code_saveOnStack {temps : List (VarId × Reg)} {slot : Nat} {saved : List (VarId × Reg × Nat)}
    (ran : Ran (saveOnStack slot temps) w saved w') : ∃ code, w'.code = w.code ++ code ∧
      ∀ i ∈ code, ∃ (r : Reg) (x : Nat), slot ≤ x ∧ x < slot + temps.length ∧
        i = .sw r Reg.stackPointer (x : Int) := by
  obtain ⟨-, -, code⟩ := saveOnStack_eq ran
  refine ⟨(Machine.storeCode Reg.stackPointer slot (temps.map Prod.snd)).toArray, Array.ext' (by simp [code]),
    fun i member => ?_⟩
  simpa using Machine.mem_storeCode (List.mem_toArray.1 member)

/-- At the top level, everything that is emitted writes a word of memory. -/
theorem code_saveInGlobal {temps : List (VarId × Reg)} {saved : List (VarId × Reg × Nat)}
    (ran : Ran (temps.mapM saveInGlobal) w saved w') : ∃ code, w'.code = w.code ++ code ∧
      (∀ i ∈ code, ∃ (r : Reg) (x : Nat), i = .sw r Reg.zero (x : Int)) ∧
      (saved.map fun s => (s.1, s.2.1)) = temps ∧
      ∃ globals, w.allocator.globals ≤ globals ∧ w'.allocator = { w.allocator with globals } := by
  obtain ⟨rfl, same, code⟩ := saveInGlobal_eq ran
  refine ⟨(Machine.storeCode Reg.zero w.allocator.globals (temps.map Prod.snd)).toArray, Array.ext' (by simp [code]),
    fun i member => ?_, slotted_temps _ temps, _, Nat.le_add_right _ _, same⟩
  obtain ⟨r, x, -, -, here⟩ := Machine.mem_storeCode (List.mem_toArray.1 member)
  exact ⟨r, x, here⟩

/-- What putting registers aside for a call comes to. -/
structure Suspends (w w' : Work) (save : CallSave) : Prop where
  tame : Tame w'.allocator
  roomier : Roomier w.allocator w'.allocator
  calls : ∃ others, w'.allocator.calls = save :: others
  pushed : w'.allocator.pushed = w.allocator.pushed + save.words
  words : save.words = 0 ↔ w'.allocator.frame = none
  code : ∃ code, w'.code = w.code ++ code ∧ ∀ points globals pt, w'.allocator.Stance pt →
    w'.allocator.globals ≤ globals → Passes points globals pt (entriesOf code) (pt.suspended save.words)

/-- The code that saves temporaries, along the points of control. -/
theorem stored_passes {left stored : Work} {temps : List (VarId × Reg)}
    {saved : List (VarId × Reg × Nat)} {words : Nat}
    (saving : (left.allocator.inFunction = true ∧ words = temps.length + 1 ∧
          Ran (saveOnStack 1 temps) (push (.sw Reg.returnAddress Reg.stackPointer 0)
            (on (fun a => { a with pushed := a.pushed + (words : Int) })
              (push (.addi Reg.stackPointer Reg.stackPointer (-(words : Int))) left))) saved stored) ∨
        (left.allocator.inFunction = false ∧ words = 0 ∧ Ran (temps.mapM saveInGlobal) left saved stored)) :
    (∃ globals, left.allocator.globals ≤ globals ∧
        stored.allocator = { left.allocator with globals, pushed := left.allocator.pushed + words }) ∧
      (saved.map fun s => (s.1, s.2.1)) = temps ∧ (words = 0 ↔ left.allocator.frame = none) ∧
      ∃ code, stored.code = left.code ++ code ∧ ∀ points globals pt, left.allocator.Stance pt →
        Passes points globals pt (entriesOf code) (pt.suspended words) := by
  rcases saving with ⟨inside, rfl, saving⟩ | ⟨outside, rfl, saving⟩
  · obtain ⟨same, temps'⟩ := ran_saveOnStack saving
    obtain ⟨code, emitted, slots⟩ := code_saveOnStack saving
    have within : left.allocator.frame ≠ none := fun top => by simp [inFunction, top] at inside
    refine ⟨⟨_, Nat.le_refl _, same⟩, temps', ⟨fun none => absurd none (Nat.succ_ne_zero _),
      fun top => absurd top within⟩, #[.addi Reg.stackPointer Reg.stackPointer (-((temps.length + 1 : Nat) : Int)),
        .sw Reg.returnAddress Reg.stackPointer 0] ++ code, ?_, fun points globals pt stance => ?_⟩
    · rw [emitted, code_push, code_on, code_push, Array.append_assoc.symm]
      rfl
    · cases stance with
      | outside top => exact absurd top within
      | @inside _ d _ _ =>
        have lowered : Passes points globals (.inside d .held)
            [.plain (.addi Reg.stackPointer Reg.stackPointer (-((temps.length + 1 : Nat) : Int)))]
            (.inside (d + (temps.length + 1)) .held) :=
          .single (.move (by push_cast; omega) fun _ held => by cases held)
        have kept : Passes points globals (.inside (d + (temps.length + 1)) .held)
            [.plain (.sw Reg.returnAddress Reg.stackPointer 0)] (Point.suspended (temps.length + 1) (.inside d .held)) :=
          .single (.save (by omega))
        have saves : Passes points globals (Point.suspended (temps.length + 1) (.inside d .held))
            (entriesOf code) (Point.suspended (temps.length + 1) (.inside d .held)) := by
          refine .code fun i member => ?_
          obtain ⟨r, x, above, below, rfl⟩ := slots i (Array.mem_toList_iff.1 member)
          refine .store (by omega) fun k is => ?_
          cases is
          omega
        rw [entriesOf_append]
        exact (lowered.append kept).append saves
  · obtain ⟨code, emitted, slots, temps', globals, above, same⟩ := code_saveInGlobal saving
    have top : left.allocator.frame = none := by
      rw [inFunction] at outside
      exact Option.not_isSome_iff_eq_none.1 (by simp [outside])
    refine ⟨⟨globals, above, by rw [same]; simp⟩, temps', ⟨fun _ => top, fun _ => rfl⟩, code, emitted,
      fun points globals pt stance => ?_⟩
    cases stance with
    | inside body _ => cases top.symm.trans body
    | outside _ =>
      refine .code fun i member => ?_
      obtain ⟨r, x, rfl⟩ := slots i (Array.mem_toList_iff.1 member)
      exact .outside rfl fun _ same => by cases same

theorem saveForCall_suspends {x : Unit} (tame : Tame w.allocator) (flat : w.allocator.pushed = 0)
    (ran : Ran saveForCall w x w') : ∃ save, Suspends w w' save := by
  obtain ⟨xs, left, emptied, saved, words, stored, parked, saving, parking, rfl⟩ := ran_saveForCall ran
  obtain ⟨common, emptied⟩ := Tends.mapM (fun _ _ => tends_leaveForCall) w xs left tame emptied
  obtain ⟨before, emitted, passes⟩ := emptied.passes flat
  obtain ⟨⟨globals, above, same⟩, temps, none, code, emitted', passes'⟩ := stored_passes saving
  have roomier : Roomier left.allocator stored.allocator := by
    rw [same]
    exact ⟨rfl, fun f f' had has => by cases had.symm.trans has; exact Nat.le_refl _, above⟩
  have tame' : Tame stored.allocator :=
    emptied.tame.of_same (by rw [same]) roomier (by rw [same]) (by rw [same]) (by rw [same])
  obtain ⟨tame'', wider, quiet⟩ := parking.forM (P := fun mid => Tame mid.allocator ∧
      Wider stored.allocator mid.allocator ∧ mid.code = stored.code) ⟨tame', .refl _, rfl⟩
    fun s _ mid mid' kept ran => by
      obtain ⟨-, tended⟩ := tends_park mid () mid' kept.1 ran
      obtain ⟨v, -, rfl⟩ := ran_park ran
      exact ⟨tended.tame, kept.2.1.trans tended.wider, kept.2.2⟩
  have moved : Roomier left.allocator parked.allocator := roomier.trans wider.toRoomier
  have noted : Roomier parked.allocator (on (fun a => { a with calls := ⟨saved, words⟩ :: a.calls }) parked).allocator :=
    .of_same rfl rfl
  refine ⟨⟨saved, words⟩, ⟨tame''.register, tame''.home, tame''.scalar, tame''.free, fun save member s inside => ?_,
    tame''.outside⟩, emptied.wider.toRoomier.trans (moved.trans noted), ⟨_, rfl⟩, ?_, ?_, before ++ code, ?_,
    fun points globals pt stance low => ?_⟩
  · rcases List.mem_cons.1 member with rfl | member
    · have inside' : (s.1, s.2.1) ∈ xs.filterMap fun x => x := by
        rw [← temps]
        exact List.mem_map.2 ⟨s, inside, rfl⟩
      obtain ⟨t, member, is⟩ := List.mem_filterMap.1 inside'
      exact common t member _ is
    · exact tame''.parked save member s inside
  · change parked.allocator.pushed = _
    rw [wider.pushed, same, emptied.wider.pushed]
  · have zone : parked.allocator.frame = Option.none ↔ left.allocator.frame = Option.none := by
      rw [← Option.not_isSome_iff_eq_none, moved.zone, Option.not_isSome_iff_eq_none]
    exact none.trans zone.symm
  · change parked.code = _
    rw [quiet, emitted', emitted, Array.append_assoc]
  · have stance' := (moved.trans noted).stance stance
    rw [entriesOf_append]
    exact (passes points globals pt stance' (moved.globals.trans low)).append (passes' points globals pt stance')

/-- Temporaries that come back are loaded into registers that are free for any use. -/
theorem unparks_calm {base : Reg} {saved : List (VarId × Reg × Nat)} {x : Unit} (tame : Tame w.allocator)
    (common : ∀ s ∈ saved, s.2.1.Common) (ran : Ran (saved.forM (unpark base)) w x w') :
    Tame w'.allocator ∧ Wider w.allocator w'.allocator ∧
      ∃ code, w'.code = w.code ++ code ∧ ∀ i ∈ code, MachineInstr.Calm i := by
  refine ran.forM (P := fun mid => Tame mid.allocator ∧ Wider w.allocator mid.allocator ∧
    ∃ code, mid.code = w.code ++ code ∧ ∀ i ∈ code, MachineInstr.Calm i)
    ⟨tame, .refl _, #[], by simp, by simp⟩ fun s member mid mid' kept ran => ?_
  obtain ⟨-, tended⟩ := tends_unpark (common s member) mid () mid' kept.1 ran
  obtain ⟨v, -, rfl⟩ := ran_unpark ran
  obtain ⟨code, emitted, calm⟩ := kept.2.2
  refine ⟨tended.tame, kept.2.1.trans tended.wider, code.push (.lw s.2.1 base s.2.2), ?_, fun i member' => ?_⟩
  · rw [code_on, code_push, emitted, Array.append_push]
  · rcases Array.mem_push.1 member' with member' | rfl
    · exact calm i member'
    · exact ⟨s.2.1, rfl, common s member⟩

/-- What bringing registers back behind a call comes to. -/
theorem restoreAfterCall_resumes {save : CallSave} {others : List CallSave} {x : Unit} (tame : Tame w.allocator)
    (pending : w.allocator.calls = save :: others) (words : save.words = 0 ↔ w.allocator.frame = none)
    (ran : Ran restoreAfterCall w x w') : Tame w'.allocator ∧ Roomier w.allocator w'.allocator ∧
      w'.allocator.pushed = w.allocator.pushed - save.words ∧ ∃ code, w'.code = w.code ++ code ∧
        ∀ points globals pt, w.allocator.Stance pt →
          Passes points globals (pt.suspended save.words) (entriesOf code) pt := by
  obtain ⟨save', calls, back, pending', loaded, last⟩ := ran_restoreAfterCall ran
  cases pending.symm.trans pending'
  have start : Tame { w.allocator with calls := others } :=
    ⟨tame.register, tame.home, tame.scalar, tame.free,
      fun save' member => tame.parked save' (pending ▸ List.mem_cons_of_mem save member), tame.outside⟩
  obtain ⟨tame', wider', code, emitted, calm⟩ := unparks_calm start (fun s member =>
    tame.parked save (pending ▸ List.mem_cons_self) s member) loaded
  have dropped : Wider w.allocator { w.allocator with calls := others } := .of_same rfl rfl rfl
  have wider : Wider w.allocator back.allocator := dropped.trans wider'
  have loads : ∀ points globals pt, Passes points globals pt (entriesOf code) pt := fun points globals pt =>
    .code fun i member => .calm (calm i (Array.mem_toList_iff.1 member))
  rcases last with ⟨some, rfl⟩ | ⟨none, rfl⟩
  · refine ⟨tame'.of_same rfl (.of_same rfl rfl) rfl rfl rfl, wider.toRoomier.trans (.of_same rfl rfl), ?_,
      code ++ #[.lw Reg.returnAddress Reg.stackPointer 0,
        .addi Reg.stackPointer Reg.stackPointer (save.words : Int)], ?_, fun points globals pt stance => ?_⟩
    · change back.allocator.pushed - _ = _
      rw [wider.pushed]
    · rw [code_on, code_push, code_push, emitted, ← Array.append_push, ← Array.append_push]
      rfl
    · cases stance with
      | outside top => exact absurd (words.2 top) some
      | @inside _ d _ _ =>
        have back' : Passes points globals (Point.suspended save.words (.inside d .held))
            [.plain (.lw Reg.returnAddress Reg.stackPointer 0)] (.inside (d + save.words) .held) :=
          .single .restore
        have raised : Passes points globals (.inside (d + save.words) .held)
            [.plain (.addi Reg.stackPointer Reg.stackPointer (save.words : Int))] (.inside d .held) :=
          .single (.move (by push_cast; omega) fun _ held => by cases held)
        rw [entriesOf_append]
        exact (loads points globals _).append (back'.append raised)
  · refine ⟨tame', wider.toRoomier, by rw [wider.pushed, none]; simp, code, emitted,
      fun points globals pt stance => ?_⟩
    cases stance with
    | outside top => exact loads points globals .outside
    | inside body _ => cases (words.1 none).symm.trans body

/-! ### Free registers -/

/-- Where no temporary is alive, nothing is held at a point where paths meet that was not before. -/
theorem sync_held {x : Unit} (none : w.allocator.temps = []) (ran : Ran sync w x w') :
    w'.allocator.held = w.allocator.held := by
  obtain ⟨home, ids, pinned, sent, listed, first, second⟩ := ran_sync ran
  obtain ⟨held, temps⟩ := sent.forM (P := fun mid => mid.allocator.held = w.allocator.held ∧
      mid.allocator.temps = w.allocator.temps) ⟨rfl, rfl⟩ fun r _ mid mid' kept ran => by
    obtain ⟨-, rfl⟩ | ⟨id, v, -, -, ⟨-, rfl⟩ | ⟨-, stored, wrote, parted⟩⟩ := ran_sendHome ran
    · exact kept
    · exact kept
    · have kept' : stored.allocator.held = w.allocator.held ∧ stored.allocator.temps = w.allocator.temps := by
        obtain ⟨-, wrote⟩ | ⟨-, rfl⟩ := wrote
        · obtain ⟨v', home, address, -, -, -, rfl⟩ := ran_writeBack.1 wrote
          exact kept
        · exact kept
      obtain ⟨v', -, ⟨-, rfl⟩ | ⟨s, -, rfl⟩⟩ := ran_unbind.1 parted
      · exact kept'
      · exact kept'
  obtain ⟨rfl, -⟩ := ran_look.1 listed
  rw [temps, none] at first second
  simp only [List.map_nil, List.mergeSort_nil] at first second
  cases ran_forM_nil.1 first
  cases ran_forM_nil.1 second
  exact held

/-- So many registers can be taken without anything giving way. -/
def Roomy (a : Allocator) (n : Nat) : Prop :=
  a.free.Nodup ∧ n ≤ (a.free.filter fun r => r ∉ a.held).length

theorem take_free (free : ∃ r ∈ w.allocator.free, r ∉ w.allocator.held) (ran : Ran take w r w') :
    r ∈ w.allocator.free ∧ r ∉ w.allocator.held ∧ w' = on (fun a => a.withdrawn r) w := by
  unfold take at ran
  simp only [ran_bind, ran_look, and_assoc, exists_and_left, exists_eq_left] at ran
  cases first : w.allocator.free.find? (· ∉ w.allocator.held) with
  | none =>
    obtain ⟨s, member, loose⟩ := free
    exact absurd (List.find?_eq_none.1 first s member) (by simpa using loose)
  | some s =>
    simp only [first, ran_bind, ran_withdraw, ran_pure, exists_eq_left, exists_const] at ran
    obtain ⟨rfl, rfl⟩ := ran
    exact ⟨List.mem_of_find?_eq_some first, by simpa using List.find?_some first, rfl⟩

/-- A variable is introduced without a word about it in the code. -/
theorem addVariable_roomy {name : String} {n : Nat} (room : Roomy w.allocator (n + 1))
    (ran : Ran (addVariable name none) w r w') : Roomy w'.allocator n ∧ w'.code = w.code := by
  obtain ⟨once, room⟩ := room
  obtain ⟨-, mid, ⟨-, took⟩ | ⟨given, -⟩, rfl⟩ := ran_addVariable ran
  · obtain ⟨s, member⟩ := List.exists_mem_of_length_pos (Nat.lt_of_lt_of_le (Nat.succ_pos n) room)
    obtain ⟨inside, loose, rfl⟩ := take_free ⟨s, (List.mem_filter.1 member).1, by
      simpa using (List.mem_filter.1 member).2⟩ took
    have free : (withVariable name r (w.allocator.withdrawn r)).free = w.allocator.free.filter (· ≠ r) := by
      rw [withVariable, modifyCurrent, modifyLevel_eq]
      rfl
    have held : (withVariable name r (w.allocator.withdrawn r)).held = r :: w.allocator.held := by
      rw [withVariable, modifyCurrent, modifyLevel_eq]
      exact if_neg loose
    refine ⟨⟨?_, ?_⟩, rfl⟩
    · rw [allocator_on, allocator_on, free]
      exact once.filter _
    · rw [allocator_on, allocator_on, free, held]
      have left : ((w.allocator.free.filter (· ≠ r)).filter fun s => s ∉ r :: w.allocator.held) =
          (w.allocator.free.filter fun s => s ∉ w.allocator.held).erase r := by
        rw [(once.filter _).erase_eq_filter, List.filter_filter, List.filter_filter]
        refine List.filter_congr fun s _ => ?_
        by_cases same : s = r <;> simp [same]
      rw [left, List.length_erase_of_mem (List.mem_filter.2 ⟨inside, by simpa using loose⟩)]
      omega
  · cases given

/-! ### Functions -/

/-- A function body starts with all of the pool free. -/
theorem enterFunction_tame {x : Unit} (owners : Owners w.allocator) (tame : Tame w.allocator)
    (flat : w.allocator.pushed = 0) (ran : Ran enterFunction w x w') :
    Tame w'.allocator ∧ w'.code = w.code ∧ w'.allocator.frame = some 0 ∧
      w'.allocator.globals = w.allocator.globals ∧ w'.allocator.pushed = 0 ∧
      w'.allocator.held = w.allocator.held ∧ w'.allocator.free = Reg.pool := by
  obtain ⟨top, parted, unbound, rfl⟩ := ran_enterFunction owners ran
  have start : Tame { w.allocator with outside := some w.allocator.outer } := by
    refine ⟨tame.register, tame.home, tame.scalar, tame.free, tame.parked, fun o is => ?_⟩
    cases is
    refine ⟨fun b member => ?_, tame.free, flat⟩
    obtain ⟨r, -, is⟩ := List.mem_filterMap.1 member
    obtain ⟨id, owned, is⟩ := Option.bind_eq_some_iff.1 is
    obtain ⟨v, found, there, -⟩ := binding?_of_owner owners owned
    obtain ⟨v', -, rfl⟩ := Option.map_eq_some_iff.1 is
    exact tame.register found there
  obtain ⟨tame', quiet, frame, globals, held⟩ := unbound.forM (P := fun mid => Tame mid.allocator ∧
      mid.code = w.code ∧ mid.allocator.frame = none ∧ mid.allocator.globals = w.allocator.globals ∧
      mid.allocator.held = w.allocator.held) ⟨start, rfl, top, rfl, rfl⟩ fun b _ mid mid' kept ran => by
    obtain ⟨-, tended⟩ := tends_unbind mid () mid' kept.1 ran
    refine ⟨tended.tame, ?_⟩
    obtain ⟨v, -, ⟨-, rfl⟩ | ⟨r, -, rfl⟩⟩ := ran_unbind.1 ran
    · exact kept.2
    · exact kept.2
  refine ⟨⟨tame'.register, fun {i v h} found has => ?_, tame'.scalar, fun r member => ?_, tame'.parked,
    tame'.outside⟩, quiet, rfl, globals, rfl, held, rfl⟩
  · have granted := tame'.home found has
    cases h with
    | global x => exact granted
    | frame slot =>
      obtain ⟨size, inside, -⟩ := granted
      cases frame.symm.trans inside
  · exact Reg.common_of_pool (List.mem_filter.1 member).2

/-- An operation that emits nothing, and changes only what an operation that emits modest instructions does. -/
structure Quiets (w w' : Work) : Prop where
  tame : Tame w'.allocator
  wider : Wider w.allocator w'.allocator
  code : w'.code = w.code

theorem Quiets.forM {β : Type} {f : β → Alloc Unit} {xs : List β} {x : Unit} (tame : Tame w.allocator)
    (ran : Ran (xs.forM f) w x w') (tends : ∀ y ∈ xs, Tends (f y) fun _ => True)
    (quiet : ∀ y ∈ xs, ∀ w w', Ran (f y) w () w' → w'.code = w.code) : Quiets w w' := by
  refine ran.forM (P := Quiets w) ⟨tame, .refl _, rfl⟩ fun y member mid mid' kept ran => ?_
  obtain ⟨-, tended⟩ := tends y member mid () mid' kept.tame ran
  exact ⟨tended.tame, kept.wider.trans tended.wider, (quiet y member mid mid' ran).trans kept.code⟩

/-- Variables of the root go home to global words. -/
theorem sendRootHomes_write {x : Unit} (sound : Sound [] w.allocator) (tame : Tame w.allocator)
    (ran : Ran (Reg.all.forM sendRootHome) w x w') : Tame w'.allocator ∧ Wider w.allocator w'.allocator ∧
      ∃ code, w'.code = w.code ++ code ∧
        ∀ i ∈ code, ∃ (r : Reg) (x : Nat), x < w.allocator.globals ∧ i = .sw r Reg.zero (x : Int) := by
  have step := ran.forM (P := fun mid => Sound [] mid.allocator ∧ Tame mid.allocator ∧
      Wider w.allocator mid.allocator ∧ mid.allocator.globals = w.allocator.globals ∧
      ∃ code, mid.code = w.code ++ code ∧
        ∀ i ∈ code, ∃ (r : Reg) (x : Nat), x < w.allocator.globals ∧ i = .sw r Reg.zero (x : Int))
    ⟨sound, tame, .refl _, rfl, #[], by simp, by simp⟩ fun r _ mid mid' kept ran => by
      obtain rfl | ⟨id, s, v, found, isNamed, root, -, -, wrote⟩ := ran_sendRootHome ran
      · exact kept
      · obtain ⟨sound, tame, wider, globals, code, emitted, low⟩ := kept
        have sound' := writeBack_sound sound wrote
        obtain ⟨-, tended⟩ := tends_writeBack mid () mid' tame wrote
        obtain ⟨v', home, address, found', has, formed, rfl⟩ := ran_writeBack.1 wrote
        cases found.symm.trans found'
        obtain ⟨x, rfl⟩ := sound.homes.root found isNamed root has
        have granted : x < mid.allocator.globals := sound.homes.granted found has
        cases formed
        refine ⟨sound', tended.tame, wider.trans tended.wider, globals, code.push (.sw s Reg.zero (x : Int)), ?_,
          fun i member => ?_⟩
        · rw [code_on, code_push, emitted, Array.append_push]
        · rcases Array.mem_push.1 member with member | rfl
          · exact low i member
          · exact ⟨s, x, globals ▸ granted, rfl⟩
  exact ⟨step.2.1, step.2.2.1, step.2.2.2.2⟩

/-- At the end of a function body, only global words are written, and the registers from outside of it come
back. -/
theorem leaveFunction_tame {n : Nat} (sound : Sound [] w.allocator) (unreserved : w.allocator.reserved = [])
    (idle : w.allocator.calls = []) (tame : Tame w.allocator) (ran : Ran leaveFunction w n w') :
    Tame w'.allocator ∧ w'.allocator.frame = none ∧ w'.allocator.pushed = 0 ∧ w'.allocator.held = [] ∧
      w.allocator.globals ≤ w'.allocator.globals ∧ (∀ f, w.allocator.frame = some f → f ≤ n) ∧
      ∃ code, w'.code = w.code ++ code ∧
        ∀ i ∈ code, ∃ (r : Reg) (x : Nat), x < w'.allocator.globals ∧ i = .sw r Reg.zero (x : Int) := by
  have after := (leaveFunction_sound sound unreserved idle ran).1
  obtain ⟨sent, closed, vacated, dropped, k, o, bound, first, second, third, fourth, size, outside, fifth,
    rfl⟩ := ran_leaveFunction ran
  obtain ⟨tame₁, wider₁, code, emitted, low⟩ := sendRootHomes_write sound tame first
  have closes := Quiets.forM tame₁ second (fun _ _ => tends_closeLevel) fun _ _ _ _ => code_closeLevel
  have vacates := Quiets.forM closes.tame third (fun _ _ => tends_vacate) fun _ _ _ _ => code_vacate
  have drops : Quiets vacated dropped := by
    simp only [discardTemps, ran_bind, ran_look, ran_pure, and_assoc, exists_and_left, exists_eq_left] at fourth
    obtain ⟨_, mid, ran, -, rfl⟩ := fourth
    exact .forM vacates.tame ran (fun _ _ => tends_drop) fun _ _ _ _ => code_drop
  have wider := wider₁.trans (closes.wider.trans (vacates.wider.trans drops.wider))
  obtain ⟨bindings, free, flat⟩ := drops.tame.outside o outside
  -- Homes in the frame are granted until the frame is gone, and then only those of the root are left.
  obtain ⟨tame', quiet, top, flat', globals⟩ := fifth.forM (P := fun mid =>
      Tame { mid.allocator with frame := dropped.allocator.frame } ∧ mid.code = dropped.code ∧
      mid.allocator.frame = none ∧ mid.allocator.pushed = 0 ∧ mid.allocator.globals = dropped.allocator.globals)
    ⟨⟨drops.tame.register, drops.tame.home, drops.tame.scalar, free, drops.tame.parked, fun _ is => by cases is⟩,
      rfl, rfl, flat, rfl⟩ fun b member mid mid' kept ran => by
    obtain ⟨v, found, rfl⟩ := ran_rebind ran
    obtain ⟨kept, rest⟩ := kept
    have owned : Tame ({ mid.allocator with frame := dropped.allocator.frame }.setOwner b.2.1 (some b.1)) :=
      kept.of_same rfl (.of_same rfl rfl) rfl rfl rfl
    have back : Tame (setVar _ b.1 { v with storage := .register b.2.1, isDirty := b.2.2 }) := owned.of_setVar
      (fun r there => by
        cases there
        exact bindings b member)
      (fun h has => owned.home found (.inl (has.resolve_right fun there => by cases there)))
      (kept.scalar found :)
    exact ⟨back, rest⟩
  refine ⟨⟨tame'.register, fun {i v h} found has => ?_, tame'.scalar, tame'.free, tame'.parked, tame'.outside⟩,
    top, flat', rfl, ?_, fun f had => ?_, code, ?_, fun i member => ?_⟩
  · rcases has with has | there
    · exact after.homes.granted found has
    · have memory := (after.fits found).memory there
      exact after.homes.granted found ((memory?_of_scalar (tame'.scalar found)).symm.trans memory)
  · change _ ≤ bound.allocator.globals
    rw [globals]
    exact wider.globals
  · obtain ⟨f', has⟩ := Option.isSome_iff_exists.1 ((wider.zone.trans (by rw [had]; rfl) : _ = true))
    rw [size, has]
    exact wider.frame f f' had has
  · rw [code_on, quiet, drops.code, vacates.code, closes.code, emitted]
  · obtain ⟨r, x, inside, rfl⟩ := low i member
    refine ⟨r, x, Nat.lt_of_lt_of_le inside ?_, rfl⟩
    change _ ≤ bound.allocator.globals
    rw [globals]
    exact wider.globals

end Alloc

end SmallC
