import SmallC.Proofs.Allocation.Layout

/-!
Words of memory never overlap. Whoever is given words, a variable or a call at top level that is pending, is the
only one to have them, and the frame that a function body ends with holds all the words of frames that it was
given and all that it reaches, so that the code of a function leaves the words of its caller alone.
-/
namespace SmallC

open Alloc

/-- The declared sizes of arrays once an operation is done. A new array is the variable that is added next. -/
def Operation.sizes (op : Operation) (a : Allocator) (size : VarId → Nat) : VarId → Nat :=
  match op with
  | .setArray _ n => Function.update size a.vars.size n
  | _ => size

/-- Who is given words of memory. -/
inductive Holder where
  | variable (id : VarId)
  /-- A temporary that a pending call has put aside, by its place among the others. -/
  | save (call place : Nat)
  deriving DecidableEq, Repr

namespace Allocator

/-- The states that permitted operations reach, with the sizes that arrays were declared with on the way. -/
inductive Charted : (VarId → Nat) → Allocator → Prop where
  | initial : Charted (fun _ => 0) initial
  | step {size : VarId → Nat} {w w' : Work} (op : Operation) (charted : Charted size w.allocator)
      (permitted : op.Permitted w.allocator) (ran : Ran op.act w () w') :
      Charted (op.sizes w.allocator size) w'.allocator

/-- Whether a word was given to someone: to a variable, or at top level to a pending call. -/
def Holds (size : VarId → Nat) (a : Allocator) : Holder → Home → Prop
  | .variable id, word => ∃ v, a.var? id = some v ∧ v.Claims (size id) word
  | .save call place, word => ∃ save s, a.calls[call]? = some save ∧ save.words = 0 ∧
      save.saved[place]? = some s ∧ word = .global s.2.2

/-- Whether permitted operations lead from a state to the end of the function body, with so many slots in its
frame. -/
inductive Closing (n : Nat) : Allocator → Prop where
  | leave {w w' : Work} (permitted : Operation.leaveFunction.Permitted w.allocator)
      (ran : Ran Alloc.leaveFunction w n w') : Closing n w.allocator
  | step {w w' : Work} (op : Operation) (stays : op ≠ .leaveFunction) (permitted : op.Permitted w.allocator)
      (ran : Ran op.act w () w') (rest : Closing n w'.allocator) : Closing n w.allocator

end Allocator

/-- Whether an instruction reaches nothing on the stack but so many slots above the words that were pushed, and the
save areas of some calls. -/
def MachineInstr.Confined (n : Nat) (pushed : Int) (saves : List CallSave) (i : MachineInstr) : Prop :=
  ∀ offset ∈ i.stackOffset?, pushed ≤ offset ∧ offset < pushed + n ∨
    ∃ save ∈ saves, 0 ≤ offset ∧ offset < (save.words : Int)

namespace Allocator

variable {size : VarId → Nat} {a a' : Allocator} {w w' : Work} {n : Nat}

theorem Charted.reached (charted : Charted size a) : Reached a := by
  induction charted with
  | initial => exact .initial
  | step op _ permitted ran reached => exact .step op reached permitted ran

/-- Sizes were declared on the way to every state that is reached. -/
theorem Reached.charted (reached : Reached a) : ∃ size, Charted size a := by
  induction reached with
  | initial => exact ⟨_, .initial⟩
  | step op _ permitted ran charted =>
    obtain ⟨size, charted⟩ := charted
    exact ⟨_, .step op charted permitted ran⟩

/-- The slots of a save area are apart. At top level they are words that no variable has, else they lie among the
words that were pushed. -/
structure Spared (size : VarId → Nat) (save : CallSave) (a : Allocator) : Prop where
  top : save.words = 0 → ∀ s ∈ save.saved, s.2.2 < a.globals ∧
    ∀ {id v}, a.var? id = some v → ¬ v.Claims (size id) (.global s.2.2)
  stack : save.words ≠ 0 → ∀ s ∈ save.saved, s.2.2 < save.words
  once : (save.saved.map fun s => s.2.2).Nodup

/-- Memory is laid out among variables and pending calls. -/
structure Mapped (size : VarId → Nat) (a : Allocator) : Prop extends Laid size a where
  spared : ∀ save ∈ a.calls, Spared size save a

/-- Whether an instruction that leads from one state to another reaches nothing on the stack but slots of the frame
and the save area of a pending call. -/
def Reaches (a a' : Allocator) (i : MachineInstr) : Prop :=
  ∀ offset ∈ i.stackOffset?, (∃ slot : Nat, offset = a.pushed + slot ∧ a'.Grants (.frame slot)) ∨
    ∃ save ∈ a.calls ++ a'.calls, 0 ≤ offset ∧ offset < (save.words : Int)

end Allocator

namespace Alloc

open Allocator

variable {size : VarId → Nat} {w w' : Work}

/-! ### Calls -/

theorem saveOnStack_slots {temps : List (VarId × Reg)} {slot : Nat} {saved : List (VarId × Reg × Nat)}
    (ran : Ran (saveOnStack slot temps) w saved w') :
    (saved.map fun s => s.2.2) = List.range' slot temps.length ∧
      Emits (fun i => ∀ offset ∈ i.stackOffset?, 0 ≤ offset ∧ offset < ((slot + temps.length : Nat) : Int)) w w' := by
  obtain ⟨rfl, -, code⟩ := saveOnStack_eq ran
  refine ⟨slotted_slots slot temps, (Machine.storeCode Reg.stackPointer slot (temps.map Prod.snd)).toArray,
    Array.ext' (by simp [code]), fun i member offset reaches => ?_⟩
  obtain ⟨r, x, -, below, rfl⟩ := Machine.mem_storeCode (List.mem_toArray.1 member)
  obtain rfl : (x : Int) = offset := by simpa [MachineInstr.stackOffset?] using reaches
  rw [List.length_map] at below
  omega

/-- The save area on the stack is written from its first word, which is for the return address, to its last. -/
theorem saveOnStack_emits {temps : List (VarId × Reg)} {saved : List (VarId × Reg × Nat)} {words : Nat}
    {f : Allocator → Allocator} (length : words = temps.length + 1)
    (ran : Ran (saveOnStack 1 temps) (push (.sw Reg.returnAddress Reg.stackPointer 0)
      (on f (push (.addi Reg.stackPointer Reg.stackPointer (-(words : Int))) w))) saved w') :
    Emits (fun i => ∀ offset ∈ i.stackOffset?, 0 ≤ offset ∧ offset < (words : Int)) w w' := by
  obtain ⟨-, stores⟩ := saveOnStack_slots ran
  have moves : Emits (fun i => ∀ offset ∈ i.stackOffset?, 0 ≤ offset ∧ offset < (words : Int)) w
      (on f (push (.addi Reg.stackPointer Reg.stackPointer (-(words : Int))) w)) :=
    (Emits.push (w := w) fun offset reaches => by simp [MachineInstr.stackOffset?] at reaches).trans (.nothing rfl)
  refine moves.trans (.trans (.push fun offset reaches => ?_) (stores.mono fun i inside offset reaches => ?_))
  · obtain rfl : 0 = offset := by simpa [MachineInstr.stackOffset?] using reaches
    omega
  · have := inside offset reaches
    omega

theorem saveInGlobal_slots {temps : List (VarId × Reg)} {saved : List (VarId × Reg × Nat)}
    (ran : Ran (temps.mapM saveInGlobal) w saved w') :
    (saved.map fun s => s.2.2) = List.range' w.allocator.globals temps.length ∧
      w'.allocator = { w.allocator with globals := w.allocator.globals + temps.length } ∧
      Emits (fun i => i.stackOffset? = none) w w' := by
  obtain ⟨rfl, same, code⟩ := saveInGlobal_eq ran
  refine ⟨slotted_slots _ temps, same, (Machine.storeCode Reg.zero w.allocator.globals (temps.map Prod.snd)).toArray,
    Array.ext' (by simp [code]), fun i member => ?_⟩
  obtain ⟨r, x, -, -, rfl⟩ := Machine.mem_storeCode (List.mem_toArray.1 member)
  rfl

/-- Waiting changes nothing about the words of a temporary. -/
theorem park_claims {saved : List (VarId × Reg × Nat)} {x : Unit} (ran : Ran (saved.forM park) w x w') {id : VarId}
    {u : Variable} {word : Home} (found : w'.allocator.var? id = some u) (claims : u.Claims (size id) word) :
    ∃ v, w.allocator.var? id = some v ∧ v.Claims (size id) word := by
  refine ran.forM (P := fun mid => ∀ {id u}, mid.allocator.var? id = some u → u.Claims (size id) word →
    ∃ v, w.allocator.var? id = some v ∧ v.Claims (size id) word) (fun found claims => ⟨_, found, claims⟩)
    (fun s _ mid mid' kept ran i u found claims => ?_) found claims
  obtain ⟨v, known, rfl⟩ := ran_park ran
  have vars : (mid.allocator.parkedAt s.1 s.2.1 s.2.2 v).var? i =
      if i = s.1 then some { v with storage := .saved s.2.2 } else mid.allocator.var? i := var?_setVar known _ i
  rw [allocator_on, vars] at found
  split at found
  · next here =>
    cases found
    exact kept (u := v) (here ▸ known) claims
  · exact kept found claims

theorem code_parkAll {saved : List (VarId × Reg × Nat)} {x : Unit} (ran : Ran (saved.forM park) w x w') :
    w'.code = w.code := by
  refine ran.forM (P := fun mid => mid.code = w.code) rfl fun s _ mid mid' same ran => ?_
  obtain ⟨v, -, rfl⟩ := ran_park ran
  exact same

/-- Preparing for a call gives its save area words of its own. -/
theorem saveForCall_maps {x : Unit} (laid : Laid size w.allocator) (idle : w.allocator.calls = [])
    (ran : Ran saveForCall w x w') :
    Mapped size w'.allocator ∧ Roomier w.allocator w'.allocator ∧
      Emits (Reaches w.allocator w'.allocator) w w' := by
  obtain ⟨xs, left, emptied, saved, words, stored, parked, saving, parking, rfl⟩ := ran_saveForCall ran
  have leaving := Laying.mapM (fun r => laying_leaveForCall (r := r)) _ _ _ _ laid emptied
  have parks : Laid size stored.allocator → Lays size stored parked := fun laid =>
    Laying.forM (fun _ => laying_park) _ _ _ _ laid parking
  have quiet : Emits (fun _ => False) stored parked := .nothing (code_parkAll parking)
  have last : Wider parked.allocator
      (on (fun a => { a with calls := ⟨saved, words⟩ :: a.calls }) parked).allocator := .of_same rfl rfl rfl
  have pending : ∀ {offset : Int}, 0 ≤ offset ∧ offset < (words : Int) →
      ∃ save ∈ w.allocator.calls ++ ⟨saved, words⟩ :: parked.allocator.calls,
        0 ≤ offset ∧ offset < (save.words : Int) := fun within =>
    ⟨⟨saved, words⟩, List.mem_append_right _ List.mem_cons_self, within⟩
  -- What brings named variables home does so before anything is pushed.
  have home : Roomier left.allocator parked.allocator →
      Emits (Reaches w.allocator (on (fun a => { a with calls := ⟨saved, words⟩ :: a.calls }) parked).allocator)
        w left := fun roomier => leaving.code.mono fun i inside offset reaches => by
    obtain ⟨slot, rfl, granted⟩ := inside offset reaches
    exact .inl ⟨slot, by rw [leaving.wider.pushed], last.toRoomier.grants (roomier.grants granted)⟩
  have calls : parked.allocator.calls = stored.allocator.calls → stored.allocator.calls = left.allocator.calls →
      parked.allocator.calls = [] := fun same same' => same.trans (same'.trans (leaving.calls.trans idle))
  rcases saving with ⟨-, rfl, saving⟩ | ⟨outside, rfl, saving⟩
  · obtain ⟨slots, -⟩ := saveOnStack_slots saving
    obtain ⟨same, -⟩ := ran_saveOnStack saving
    have roomier : Roomier left.allocator stored.allocator := by
      rw [same]
      exact .of_same rfl rfl
    have lays := parks (leaving.laid.of_same (by rw [same]; rfl) roomier)
    have once : (saved.map fun s => s.2.2).Nodup := slots ▸ List.nodup_range'
    refine ⟨⟨lays.laid.of_same rfl last.toRoomier, fun save member => ?_⟩, ?_, ?_⟩
    · rw [allocator_on, calls lays.calls (by rw [same]; rfl), List.mem_singleton] at member
      cases member
      refine ⟨fun none => absurd none (Nat.succ_ne_zero _), fun _ s member => ?_, once⟩
      have within : s.2.2 ∈ List.range' 1 (xs.filterMap fun x => x).length :=
        slots ▸ List.mem_map.2 ⟨s, member, rfl⟩
      obtain ⟨-, upper⟩ := List.mem_range'_1.1 within
      change s.2.2 < (xs.filterMap fun x => x).length + 1
      omega
    · exact leaving.wider.toRoomier.trans (roomier.trans (lays.wider.toRoomier.trans last.toRoomier))
    · refine (home (roomier.trans lays.wider.toRoomier)).trans (Emits.trans ?_ (quiet.mono fun _ => False.elim))
      exact (saveOnStack_emits rfl saving).mono fun i inside offset reaches => .inr (pending (inside offset reaches))
  · obtain ⟨slots, same, stores⟩ := saveInGlobal_slots saving
    have roomier : Roomier left.allocator stored.allocator := by
      rw [same]
      exact ⟨rfl, fun f f' had has => by
        cases had.symm.trans has
        exact Nat.le_refl _, Nat.le_add_right _ _⟩
    have vars : ∀ id, stored.allocator.var? id = left.allocator.var? id := fun id => by rw [same]; rfl
    have lays := parks (leaving.laid.of_same (by rw [same]) roomier)
    refine ⟨⟨lays.laid.of_same rfl last.toRoomier, fun save member => ?_⟩, ?_, ?_⟩
    · rw [allocator_on, calls lays.calls (by rw [same]), List.mem_singleton] at member
      cases member
      refine ⟨fun _ s member => ?_, fun some => absurd rfl some, slots ▸ List.nodup_range'⟩
      have within : s.2.2 ∈ List.range' left.allocator.globals (xs.filterMap fun x => x).length :=
        slots ▸ List.mem_map.2 ⟨s, member, rfl⟩
      obtain ⟨lower, upper⟩ := List.mem_range'_1.1 within
      constructor
      · refine Nat.lt_of_lt_of_le ?_ lays.wider.globals
        rw [same]
        exact upper
      · -- A word that a variable has was handed out before.
        intro id v found claims
        obtain ⟨u, known, claimed⟩ := park_claims parking found claims
        have granted := leaving.laid.granted ((vars id).symm.trans known) (.inl claimed)
        exact absurd granted (Nat.not_lt.2 lower)
    · exact leaving.wider.toRoomier.trans (roomier.trans (lays.wider.toRoomier.trans last.toRoomier))
    · refine (home (roomier.trans lays.wider.toRoomier)).trans (Emits.trans ?_ (quiet.mono fun _ => False.elim))
      refine stores.mono fun i off offset reaches => ?_
      rw [off] at reaches
      cases reaches

theorem unparkAll_lays {base : Reg} {saved : List (VarId × Reg × Nat)} {x : Unit} (laid : Laid size w.allocator)
    (ran : Ran (saved.forM (unpark base)) w x w') :
    Laid size w'.allocator ∧ Wider w.allocator w'.allocator ∧ w'.allocator.calls = w.allocator.calls ∧
      Emits (fun i => ∀ offset ∈ i.stackOffset?, base = Reg.stackPointer ∧ ∃ s ∈ saved, offset = (s.2.2 : Int))
        w w' := by
  refine ran.forM (P := fun mid => Laid size mid.allocator ∧ Wider w.allocator mid.allocator ∧
    mid.allocator.calls = w.allocator.calls ∧ Emits (fun i => ∀ offset ∈ i.stackOffset?,
      base = Reg.stackPointer ∧ ∃ s ∈ saved, offset = (s.2.2 : Int)) w mid)
    ⟨laid, .refl _, rfl, .nothing rfl⟩ fun s member mid mid' before ran => ?_
  obtain ⟨laid, wider, calls, code⟩ := before
  obtain ⟨v, found, rfl⟩ := ran_unpark ran
  refine ⟨laid.bound found s.2.1, wider.trans (.of_same rfl rfl rfl), calls, code.trans ?_⟩
  refine Emits.push (w := mid) fun offset reaches => ?_
  obtain ⟨based, same⟩ : base = Reg.stackPointer ∧ (s.2.2 : Int) = offset := by
    simpa [MachineInstr.stackOffset?] using reaches
  exact ⟨based, s, member, same.symm⟩

/-- A call that is over gives back nothing but what it had put aside. -/
theorem restoreAfterCall_maps {x : Unit} (mapped : Mapped size w.allocator)
    (single : ∀ {save calls}, w.allocator.calls = save :: calls → calls = [])
    (ran : Ran restoreAfterCall w x w') :
    Mapped size w'.allocator ∧ Roomier w.allocator w'.allocator ∧
      Emits (Reaches w.allocator w'.allocator) w w' := by
  obtain ⟨save, calls, back, pending, loaded, last⟩ := ran_restoreAfterCall ran
  obtain rfl := single pending
  have spared := mapped.spared save (by rw [pending]; exact List.mem_cons_self)
  obtain ⟨laid, wider, idle, loads⟩ := unparkAll_lays
    (w := on (fun a => { a with calls := [] }) w) (mapped.toLaid.of_same rfl (.of_same rfl rfl)) loaded
  have emptied : Roomier w.allocator (on (fun a => { a with calls := [] }) w).allocator := .of_same rfl rfl
  have roomier : Roomier w.allocator back.allocator := emptied.trans wider.toRoomier
  have area : ∀ {offset : Int} {a : Allocator}, 0 ≤ offset ∧ offset < (save.words : Int) →
      ∃ save ∈ w.allocator.calls ++ a.calls, 0 ≤ offset ∧ offset < (save.words : Int) := fun within =>
    ⟨save, List.mem_append_left _ (by rw [pending]; exact List.mem_cons_self), within⟩
  have loads' : ∀ a, Emits (Reaches w.allocator a) w back := fun a =>
    (.nothing rfl : Emits _ w (on (fun a => { a with calls := [] }) w)).trans
      (loads.mono fun i reached offset reaches => by
        obtain ⟨base, s, member, rfl⟩ := reached offset reaches
        have words : save.words ≠ 0 := fun none => by
          rw [if_pos none] at base
          cases base
        have inside := spared.stack words s member
        exact .inr (area ⟨by omega, by omega⟩))
  have none : ∀ a : Allocator, a.calls = back.allocator.calls → ∀ save ∈ a.calls, Spared size save a := by
    intro a same save member
    rw [same, idle] at member
    cases member
  rcases last with ⟨words, rfl⟩ | ⟨-, rfl⟩
  · refine ⟨⟨laid.of_same rfl (.of_same rfl rfl), none _ rfl⟩, roomier.trans (.of_same rfl rfl), ?_⟩
    refine ((loads' _).trans (.push fun offset reaches => ?_)).trans
      (Emits.push (w := push (.lw Reg.returnAddress Reg.stackPointer 0) back) fun offset reaches => ?_)
    · obtain rfl : 0 = offset := by simpa [MachineInstr.stackOffset?] using reaches
      exact .inr (area ⟨le_refl _, by omega⟩)
    · simp [MachineInstr.stackOffset?] at reaches
  · exact ⟨⟨laid, none _ rfl⟩, roomier, loads' _⟩

/-! ### Function bodies -/

/-- A function body starts with no frame before it, so all words are global. -/
theorem enterFunction_laid {x : Unit} (owners : Owners w.allocator) (laid : Laid size w.allocator)
    (ran : Ran enterFunction w x w') :
    w.allocator.frame = none ∧ Laid size w'.allocator ∧ w'.allocator.calls = w.allocator.calls := by
  obtain ⟨outside, parted, unbound, rfl⟩ := ran_enterFunction owners ran
  have lays := Laying.forM (fun binding : VarId × Reg × Bool => (laying_unbind : Laying size (unbind binding.1))) _
    (on (fun a => { a with outside := some w.allocator.outer }) w) _ _
    (laid.of_same rfl (.of_same rfl rfl)) unbound
  have none : parted.allocator.frame = none := by
    have zone : parted.allocator.frame.isSome = w.allocator.frame.isSome := lays.wider.zone
    rw [outside] at zone
    exact Option.not_isSome_iff_eq_none.1 (by rw [zone]; exact Bool.false_ne_true)
  refine ⟨outside, lays.laid.of_global (fun found claims => ?_) rfl rfl, lays.calls⟩
  exact global_of_grants none (lays.laid.granted found claims)

/-- Nothing of a function body outlasts it but the words of variables of the root, which are global. The slots of its
frame are at least those that were handed out before, and are all of the stack that its end reaches. -/
theorem leaveFunction_laid {n : Nat} (sound : Sound [] w.allocator) (laid : Laid size w.allocator)
    (ran : Ran leaveFunction w n w') :
    Laid size w'.allocator ∧ w'.allocator.calls = w.allocator.calls ∧
      (∀ slot, w.allocator.Grants (.frame slot) → slot < n) ∧
      Emits (MachineInstr.Confined n w.allocator.pushed []) w w' := by
  obtain ⟨sent, closed, vacated, dropped, k, o, bound, first, second, third, fourth, rfl, -, fifth,
    rfl⟩ := ran_leaveFunction ran
  obtain ⟨emptied, -⟩ := leaveFunction_emptied sound first second third fourth
  have sends := Laying.forM (fun r => laying_sendRootHome (r := r)) _ _ _ _ laid first
  have closes := Laying.forM (fun level => (laying_closeLevel : Laying size (closeLevel level))) _ _ _ _ sends.laid
    second
  have vacates := Laying.forM (fun r => laying_vacate (r := r)) _ _ _ _ closes.laid third
  have drops := laying_discardTemps _ _ _ vacates.laid fourth
  have ends := ((sends.trans closes).trans vacates).trans drops
  have global : ∀ {id v word}, dropped.allocator.var? id = some v →
      v.Claims (size id) word ∨ v.storage = .memory word → ∃ address, word = .global address := by
    intro id v word found claims
    have isNamed := emptied.named found
    have shallow := emptied.departing.names.depth_zero emptied.root found isNamed
    rcases claims with claims | there
    · exact ends.laid.root found isNamed shallow claims
    · exact ends.laid.root found isNamed shallow
        (Variable.claims_memory ((emptied.departing.fits found isNamed).memory there))
  have binds := Laying.forM (fun binding => (laying_rebind : Laying size (rebind binding))) _
    (on (fun a => { a with
      frame := none, outside := none, free := o.free, recency := o.recency, pushed := o.pushed }) dropped) _ _
    (ends.laid.of_global global rfl rfl) fifth
  have slots : ∀ slot, dropped.allocator.Grants (.frame slot) → slot < dropped.allocator.frame.getD 0 := by
    rintro slot ⟨f, has, inside⟩
    rw [has]
    exact inside
  refine ⟨binds.laid.of_same rfl (.of_same rfl rfl), binds.calls.trans ends.calls,
    fun slot granted => slots slot (ends.wider.toRoomier.grants granted), ?_⟩
  have before : Emits (MachineInstr.Confined (dropped.allocator.frame.getD 0) w.allocator.pushed []) w dropped := by
    refine ends.code.mono fun i inside offset reaches => ?_
    obtain ⟨slot, rfl, granted⟩ := inside offset reaches
    have upper := slots slot granted
    rw [ends.wider.pushed]
    exact .inl ⟨by omega, by omega⟩
  -- There is no frame any more when the registers come back.
  have after : Emits (MachineInstr.Confined (dropped.allocator.frame.getD 0) w.allocator.pushed [])
      (on (fun a => { a with
        frame := none, outside := none, free := o.free, recency := o.recency, pushed := o.pushed }) dropped)
      bound := by
    refine binds.code.mono fun i inside offset reaches => ?_
    obtain ⟨slot, -, f, has, -⟩ := inside offset reaches
    have zone := binds.wider.zone
    rw [has] at zone
    cases zone
  exact before.trans (.trans (.nothing rfl) (after.trans (.nothing rfl)))

end Alloc

/-- Whether an operation has nothing to do with calls and function bodies. -/
def Operation.isOrdinary : Operation → Bool
  | .pushWords _ | .popWords _ | .saveForCall | .restoreAfterCall | .enterFunction | .leaveFunction => false
  | _ => true

namespace Allocator

variable {size : VarId → Nat} {a a' : Allocator} {w w' : Work} {n : Nat}

/-- An ordinary operation keeps memory laid out, with the sizes that are declared then. -/
theorem step_lays (op : Operation) (before : InOrder w.allocator) (laid : Laid size w.allocator)
    (ordinary : op.isOrdinary = true) (ran : Ran op.act w () w') :
    Lays (op.sizes w.allocator size) w w' := by
  have level : w.allocator.frame.isSome → 0 < w.allocator.depth := fun inside =>
    List.length_pos_iff.2 (before.sound.body.level inside)
  cases op with
  | addVariable name given =>
    obtain ⟨r, ran, -⟩ := ran_map.1 ran
    exact addVariable_lays before.sound laid ran
  | declareVariable name => exact declareVariable_lays level laid ran
  | addTemp => exact laying_addTemp.map _ _ _ laid ran
  | renameTemp temp name => exact renameTemp_lays level laid ran
  | detachAsTemp name => exact laying_detachAsTemp.map _ _ _ laid ran
  | getRegister name modifies => exact laying_getRegister.map _ _ _ laid ran
  | prepareWrite name => exact laying_prepareWrite.map _ _ _ laid ran
  | markWritten name => exact laying_markWritten _ _ _ laid ran
  | remove name => exact laying_remove _ _ _ laid ran
  | removeIfTemp name => exact laying_removeIfTemp _ _ _ laid ran
  | discardTemps => exact laying_discardTemps.map _ _ _ laid ran
  | reserve r => exact laying_reserve _ _ _ laid ran
  | unreserveAll => exact laying_unreserveAll _ _ _ laid ran
  | setArray name n => exact setArray_lays level laid ran
  | arrayAddress name => exact laying_arrayAddress.map _ _ _ laid ran
  | dims name | kind name | refs name =>
    exact (Laying.bind laying_knownAs fun _ => .pure _).map _ _ _ laid ran
  | memoryAddress name => exact laying_memoryAddress.map _ _ _ laid ran
  | setDims name sizes | setMustReload name | setKind name read | setRefs name stars =>
    exact noteOf_lays laid ran fun _ => ⟨rfl, rfl, rfl, rfl, rfl⟩
  | setAlias name target => exact laying_setAlias _ _ _ laid ran
  | removeAlias name => exact laying_removeAlias _ _ _ laid ran
  | demote name => exact laying_demote _ _ _ laid ran
  | hold r => exact laying_hold _ _ _ laid ran
  | releaseHolds => exact laying_releaseHolds _ _ _ laid ran
  | sync => exact laying_sync _ _ _ laid ran
  | pushLevel hidesOuter => exact laying_pushLevel _ _ _ laid ran
  | popLevel => exact laying_popLevel _ _ _ laid ran
  | enterFunction | leaveFunction | pushWords words | popWords words | saveForCall | restoreAfterCall =>
    cases ordinary

/-- What one operation does to memory: it stays laid out, and unless a function body starts or ends, no memory is
taken back and nothing on the stack is reached but slots of the frame and the save area of a pending call. -/
structure Steps (size : VarId → Nat) (op : Operation) (w w' : Work) : Prop where
  mapped : Mapped (op.sizes w.allocator size) w'.allocator
  roomier : op ≠ .enterFunction → op ≠ .leaveFunction → Roomier w.allocator w'.allocator
  reaches : op ≠ .enterFunction → op ≠ .leaveFunction → Emits (Reaches w.allocator w'.allocator) w w'

theorem step_maps (op : Operation) (before : InOrder w.allocator) (mapped : Mapped size w.allocator)
    (permitted : op.Permitted w.allocator) (ran : Ran op.act w () w') : Steps size op w w' := by
  cases ordinary : op.isOrdinary with
  | true =>
    have lays := step_lays op before mapped.toLaid ordinary ran
    have idle : w.allocator.calls = [] := by
      cases op <;> first | exact permitted | exact permitted.1 | cases ordinary
    refine ⟨⟨lays.laid, fun save member => ?_⟩, fun _ _ => lays.wider.toRoomier, fun _ _ => ?_⟩
    · rw [lays.calls, idle] at member
      cases member
    · refine lays.code.mono fun i inside offset reaches => ?_
      obtain ⟨slot, rfl, granted⟩ := inside offset reaches
      exact .inl ⟨slot, by rw [lays.wider.pushed], granted⟩
  | false =>
    cases op with
    | pushWords words | popWords words =>
      obtain ⟨pushed, rfl⟩ : ∃ pushed, w' = on (fun a => { a with pushed }) w := ⟨_, ran_change.1 ran⟩
      have same : Roomier w.allocator { w.allocator with pushed } := .of_same rfl rfl
      refine ⟨⟨mapped.toLaid.of_same rfl same, fun save member => ?_⟩, fun _ _ => same, fun _ _ => .nothing rfl⟩
      have spared := mapped.spared save member
      exact ⟨spared.top, spared.stack, spared.once⟩
    | saveForCall =>
      obtain ⟨mapped', roomier, reaches⟩ := saveForCall_maps mapped.toLaid permitted ran
      exact ⟨mapped', fun _ _ => roomier, fun _ _ => reaches⟩
    | restoreAfterCall =>
      obtain ⟨mapped', roomier, reaches⟩ := restoreAfterCall_maps mapped (fun {save calls} pending => by
        rcases before.pending with idle | ⟨single, only, -⟩
        · cases idle.symm.trans pending
        · cases only.symm.trans pending
          rfl) ran
      exact ⟨mapped', fun _ _ => roomier, fun _ _ => reaches⟩
    | enterFunction =>
      obtain ⟨-, laid, calls⟩ := enterFunction_laid before.sound.registers.toOwners mapped.toLaid ran
      refine ⟨⟨laid, fun save member => ?_⟩, fun enters => absurd rfl enters, fun enters => absurd rfl enters⟩
      rw [calls, permitted.1] at member
      cases member
    | leaveFunction =>
      obtain ⟨n, ran, -⟩ := ran_map.1 ran
      obtain ⟨laid, calls, -⟩ := leaveFunction_laid before.sound mapped.toLaid ran
      refine ⟨⟨laid, fun save member => ?_⟩, fun _ leaves => absurd rfl leaves, fun _ leaves => absurd rfl leaves⟩
      rw [calls, permitted.1] at member
      cases member
    | _ => cases ordinary

theorem initial_mapped : Mapped size initial := by
  have unknown : ∀ {id v}, initial.var? id ≠ some v := by
    intro id v found
    cases found
  exact ⟨⟨fun found => absurd found unknown, fun found => absurd found unknown, fun found => absurd found unknown⟩,
    nofun⟩

theorem Charted.mapped (charted : Charted size a) : Mapped size a := by
  induction charted with
  | initial => exact initial_mapped
  | step op charted permitted ran mapped => exact (step_maps op charted.reached.inOrder mapped permitted ran).mapped

/-- The frame that a function body ends with has all slots that were handed out before. -/
theorem Closing.bounds (closing : Closing n a) (charted : Charted size a) {slot : Nat}
    (granted : a.Grants (.frame slot)) : slot < n := by
  induction closing generalizing size with
  | leave permitted ran =>
    exact (leaveFunction_laid charted.reached.inOrder.sound charted.mapped.toLaid ran).2.2.1 slot granted
  | @step w w' op stays permitted ran rest ih =>
    refine ih (.step op charted permitted ran) ?_
    have before := charted.reached.inOrder
    by_cases enters : op = .enterFunction
    · -- No body starts within another.
      subst enters
      obtain ⟨f, inside, -⟩ := granted
      have outside := (enterFunction_laid before.sound.registers.toOwners charted.mapped.toLaid ran).1
      cases outside.symm.trans inside
    · exact ((step_maps op before charted.mapped permitted ran).roomier enters stays).grants granted

end Allocator

namespace Alloc

open Allocator

variable {size : VarId → Nat} {w w' : Work} {name : String} {address : Address}

end Alloc

namespace Allocator

variable {size : VarId → Nat} {a : Allocator}

end Allocator

end SmallC
