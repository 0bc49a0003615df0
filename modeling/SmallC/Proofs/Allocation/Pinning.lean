import SmallC.Proofs.Allocation.Saving
import SmallC.Proofs.Allocation.Surroundings
import SmallC.Proofs.Allocation.Synchronizing

/-!
Temporaries that are pinned. A temporary that lives across a point where paths of control meet is pinned to a register,
and from then on no operation parts it from that register for good but one that lets go of it, and one that reserves that
very register: a call puts it aside and brings it back. Reserving its register moves it, pinned or not.
-/
namespace SmallC

open Alloc

namespace Allocator

/-- A temporary is pinned to a register and is in it. -/
def Pinned (a : Allocator) (id : VarId) (r : Reg) : Prop :=
  ∃ v, a.var? id = some v ∧ v.isTemp = true ∧ v.isPinned = true ∧ v.storage = .register r

/-- A temporary that is pinned waits for a call to return, and comes back to a register. -/
def Returns (a : Allocator) (id : VarId) (r : Reg) : Prop :=
  ∃ v save slot, a.var? id = some v ∧ v.isTemp = true ∧ v.isPinned = true ∧ v.storage = .saved slot ∧
    a.calls = [save] ∧ (id, r, slot) ∈ save.saved

variable {a a' : Allocator} {id : VarId} {r : Reg}

theorem Pinned.congr (pinned : a.Pinned id r) (vars : a'.var? id = a.var? id) : a'.Pinned id r := by
  obtain ⟨v, found, rest⟩ := pinned
  exact ⟨v, vars.trans found, rest⟩

theorem Pinned.lt (pinned : a.Pinned id r) : id < a.vars.size := by
  obtain ⟨v, found, -⟩ := pinned
  exact var?_lt found

end Allocator

namespace Alloc

open Allocator

/-- An operation that leaves a temporary pinned to a register, whatever state it runs in. -/
def Pinning (id : VarId) (r : Reg) {α : Type} (act : Alloc α) : Prop :=
  ∀ w x w', Ran act w x w' → w.allocator.Pinned id r → w'.allocator.Pinned id r

variable {id j : VarId} {r s : Reg} {name temp : String} {home : Home}

namespace Pinning

variable {α β : Type} {act other : Alloc α}

theorem pure (x : α) : Pinning id r (Pure.pure x : Alloc α) := by
  intro w y w' ran pinned
  obtain ⟨-, rfl⟩ := ran_pure.1 ran
  exact pinned

theorem throw (e : AllocatorFault) : Pinning id r (MonadExcept.throw e : Alloc α) :=
  fun _ _ _ ran => (ran_throw.1 ran).elim

theorem bind {f : α → Alloc β} (first : Pinning id r act) (rest : ∀ x, Pinning id r (f x)) :
    Pinning id r (act >>= f) := by
  intro w y w' ran pinned
  obtain ⟨x, mid, ran, ran'⟩ := ran_bind.1 ran
  exact rest x mid y w' ran' (first w x mid ran pinned)

theorem map {f : α → β} (pinning : Pinning id r act) : Pinning id r (f <$> act) := by
  rw [← bind_pure_comp]
  exact pinning.bind fun _ => .pure _

theorem ite {c : Prop} [Decidable c] (yes : c → Pinning id r act) (no : ¬ c → Pinning id r other) :
    Pinning id r (if c then act else other) := by
  split
  · next holds => exact yes holds
  · next fails => exact no fails

theorem look (f : Allocator → α) : Pinning id r (Alloc.look f) := by
  intro w x w' ran pinned
  obtain ⟨-, rfl⟩ := ran_look.1 ran
  exact pinned

theorem emit (i : MachineInstr) : Pinning id r (Alloc.emit i) := by
  intro w x w' ran pinned
  rw [ran_emit.1 ran]
  exact pinned

/-- A change that does not concern variables. -/
theorem aside {f : Allocator → Allocator} (vars : ∀ a, (f a).vars = a.vars) : Pinning id r (Alloc.change f) := by
  intro w x w' ran pinned
  rw [ran_change.1 ran]
  refine pinned.congr ?_
  rw [allocator_on, var?, var?, vars]

theorem forM {f : α → Alloc Unit} {xs : List α} (pass : ∀ x ∈ xs, Pinning id r (f x)) : Pinning id r (xs.forM f) :=
  fun _ _ _ ran pinned => Ran.forM ran (P := fun mid => mid.allocator.Pinned id r) pinned
    fun y member mid mid' pinned ran => pass y member mid () mid' ran pinned

/-- What is known about the temporary itself is that it is pinned. -/
theorem known {f : Variable → Alloc β}
    (rest : ∀ v, (j = id → v.isTemp = true ∧ v.isPinned = true ∧ v.storage = .register r) → Pinning id r (f v)) :
    Pinning id r (Alloc.known j >>= f) := by
  intro w y w' did pinned
  obtain ⟨v, mid, looked, ran⟩ := ran_bind.1 did
  obtain ⟨found, rfl⟩ := ran_known.1 looked
  refine rest v ?_ mid y w' ran pinned
  rintro rfl
  obtain ⟨u, found', facts⟩ := pinned
  cases found.symm.trans found'
  exact facts

end Pinning

theorem pinning_resolve : Pinning id r (resolve name) := by
  intro w v w' ran pinned
  obtain ⟨-, rfl⟩ := ran_resolve.1 ran
  exact pinned

theorem pinning_checkUnbound : Pinning id r (checkUnbound name) := by
  intro w x w' ran pinned
  obtain ⟨-, rfl⟩ := ran_checkUnbound.1 ran
  exact pinned

theorem pinning_addressOf : Pinning id r (addressOf home) := by
  intro w x w' ran pinned
  obtain ⟨-, rfl⟩ := ran_addressOf.1 ran
  exact pinned

/-- What is noted about a variable leaves it a temporary, pinned and where it is. -/
theorem pinning_note {f : Variable → Variable} (isTemp : ∀ v, v.isTemp = true → (f v).isTemp = true)
    (isPinned : ∀ v, v.isPinned = true → (f v).isPinned = true) (storage : ∀ v, (f v).storage = v.storage) :
    Pinning id r (update j f) := by
  intro w x w' ran pinned
  obtain ⟨v, found, rfl⟩ := ran_update.1 ran
  obtain ⟨u, known, temp, fixed, there⟩ := pinned
  by_cases same : id = j
  · subst same
    cases found.symm.trans known
    exact ⟨f v, var?_setVar_self found _, isTemp v temp, isPinned v fixed, (storage v).trans there⟩
  · exact ⟨u, (var?_setVar_of_ne same).trans known, temp, fixed, there⟩

/-- Another variable changes. -/
theorem pinning_other {f : Variable → Variable} (other : j ≠ id) : Pinning id r (update j f) := by
  intro w x w' ran pinned
  obtain ⟨v, found, rfl⟩ := ran_update.1 ran
  exact pinned.congr (var?_setVar_of_ne other.symm)

/-- A new variable is another one. -/
theorem pinning_insert {β : Type} {v : Variable} {f : VarId → Alloc β} (rest : ∀ j, j ≠ id → Pinning id r (f j)) :
    Pinning id r (insert v >>= f) := by
  intro w y w' ran pinned
  obtain ⟨j, mid, inserted, ran⟩ := ran_bind.1 ran
  obtain ⟨rfl, rfl⟩ := ran_insert.1 inserted
  have other : w.allocator.vars.size ≠ id := (Nat.ne_of_lt pinned.lt).symm
  refine rest _ other _ y w' ran (pinned.congr ?_)
  rw [allocator_on, var?_addVar, if_neg other.symm]

/-! ### Traffic -/

theorem pinning_hold : Pinning id r (hold s) := .aside fun _ => rfl

theorem pinning_releaseHolds : Pinning id r releaseHolds := .aside fun _ => rfl

theorem pinning_touch : Pinning id r (touch j) := .aside fun _ => rfl

theorem pinning_withdraw : Pinning id r (withdraw s) := .aside fun _ => rfl

theorem pinning_setOwner {tenant : Option VarId} : Pinning id r (setOwner s tenant) := .aside fun _ => rfl

theorem pinning_release : Pinning id r (release s) :=
  .bind pinning_setOwner fun _ => .aside fun a => by split <;> rfl

theorem pinning_bindTo (other : j ≠ id) : Pinning id r (bindTo j s) :=
  .bind pinning_setOwner fun _ => .bind (pinning_other other) fun _ => .bind pinning_touch fun _ => pinning_hold

theorem pinning_unbind (other : j ≠ id) : Pinning id r (unbind j) := by
  refine .known fun v _ => ?_
  split
  · exact .pure _
  · exact .bind (.aside fun _ => rfl) fun _ => .bind pinning_release fun _ => pinning_other other

theorem pinning_allocHome {words : Nat} : Pinning id r (allocHome words) := by
  refine .bind (.look _) fun frame => ?_
  split
  · exact .bind (.aside fun _ => rfl) fun _ => .pure _
  · exact .bind (.look _) fun _ => .bind (.aside fun _ => rfl) fun _ => .pure _

theorem pinning_writeBack : Pinning id r (writeBack j s) := by
  refine .known fun v _ => ?_
  split
  · exact .throw _
  · exact .bind pinning_addressOf fun _ => .bind (.emit _) fun _ =>
      pinning_note (fun _ isTemp => isTemp) (fun _ isPinned => isPinned) fun _ => rfl

theorem pinning_ensureHome : Pinning id r (ensureHome j) :=
  .known fun _ _ => .ite (fun _ => .bind pinning_allocHome fun _ =>
    pinning_note (fun _ isTemp => isTemp) (fun _ isPinned => isPinned) fun _ => rfl) fun _ => .pure _

/-- What is pinned does not give way. -/
theorem pinning_evict : Pinning id r (evict j) := by
  refine .known fun v facts => ?_
  split
  · exact .throw _
  · refine .ite (fun _ => .throw _) fun loose => ?_
    have other : j ≠ id := fun same => loose (facts same).2.1
    have leave : ∀ s, Pinning id r (do
        unbind j
        withdraw s
        return s) := fun s => .bind (pinning_unbind other) fun _ => .bind pinning_withdraw fun _ => .pure _
    refine .ite (fun _ => ?_) fun _ => .ite (fun _ => .throw _) fun _ => .ite (fun _ => ?_) fun _ => leave _
    · exact .bind pinning_ensureHome fun _ => .bind pinning_writeBack fun _ => leave _
    · exact .bind pinning_writeBack fun _ => leave _

theorem pinning_take : Pinning id r take := by
  refine .bind (.look _) fun free => ?_
  split
  · exact .bind pinning_withdraw fun _ => .pure _
  · refine .bind (.look _) fun victim => ?_
    split
    · exact pinning_evict
    · exact .throw _

theorem pinning_load : Pinning id r (load j s) := by
  have word : ∀ home, Pinning id r (loadWord s home) := fun home => .bind pinning_addressOf fun _ => .emit _
  refine .known fun v _ => ?_
  split
  · exact .bind pinning_addressOf fun _ => .emit _
  · exact word _
  · split
    · exact word _
    · exact .throw _
  · exact .throw _

/-! ### Variables -/

theorem pinning_modifyLevel {depth : Allocator → Nat} {f : Level → Level} :
    Pinning id r (change fun a => a.modifyLevel (depth a) f) :=
  .aside fun a => by rw [modifyLevel_eq]

theorem pinning_addVariable {given : Option Reg} : Pinning id r (addVariable name given) := by
  have last : ∀ s, Pinning id r (do
      let home ← allocHome 1
      let depth ← look Allocator.depth
      let j ← insert { Variable.plain name false depth (some home) (.register s) with isDirty := true }
      Alloc.name name j
      bindTo j s
      return s) := fun _ =>
    .bind pinning_allocHome fun _ => .bind (.look _) fun _ => pinning_insert fun _ other =>
      .bind pinning_modifyLevel fun _ => .bind (pinning_bindTo other) fun _ => .pure _
  refine .bind pinning_checkUnbound fun _ => ?_
  cases given with
  | none => exact .bind pinning_take fun s => last s
  | some s =>
    exact .bind (.look _) fun _ => .ite (fun _ => .bind (.throw _) fun _ => .bind pinning_withdraw fun _ => last s)
      fun _ => .bind pinning_withdraw fun _ => last s

theorem pinning_declareVariable : Pinning id r (declareVariable name) :=
  .bind pinning_checkUnbound fun _ => .bind pinning_allocHome fun _ => .bind (.look _) fun _ =>
    pinning_insert fun _ _ => pinning_modifyLevel

theorem pinning_setArray {size : Nat} : Pinning id r (setArray name size) :=
  .bind pinning_checkUnbound fun _ => .bind pinning_allocHome fun _ => .bind (.look _) fun _ =>
    pinning_insert fun _ _ => pinning_modifyLevel

theorem pinning_freshTemp : Pinning id r freshTemp :=
  .bind (.look _) fun _ => .bind (.aside fun _ => rfl) fun _ => .pure _

theorem pinning_addTempName : Pinning id r (addTempName name j) := .aside fun _ => rfl

theorem pinning_removeTempName : Pinning id r (removeTempName name) := .aside fun _ => rfl

theorem pinning_addTemp : Pinning id r addTemp :=
  .bind pinning_take fun _ => .bind pinning_freshTemp fun _ => .bind (.look _) fun _ => pinning_insert fun _ other =>
    .bind pinning_addTempName fun _ => .bind (pinning_bindTo other) fun _ => .pure _

theorem pinning_getRegister {modifies : Bool} : Pinning id r (getRegister name modifies) := by
  refine .bind pinning_resolve fun j => .known fun v facts => ?_
  have use : ∀ s, Pinning id r (do
      touch j
      hold s
      return s) := fun s => .bind pinning_touch fun _ => .bind pinning_hold fun _ => .pure _
  split
  · exact .ite (fun _ => .bind pinning_load fun _ => use _) fun _ => use _
  · next away =>
    have other : j ≠ id := fun same => by
      rw [(facts same).2.2] at away
      cases away
    exact .bind pinning_take fun _ => .bind pinning_load fun _ => .bind (pinning_bindTo other) fun _ =>
      .bind (pinning_other other) fun _ => .pure _

theorem pinning_detachAsTemp : Pinning id r (detachAsTemp name) :=
  .bind pinning_getRegister fun _ => .bind pinning_resolve fun _ => .known fun _ _ =>
    .bind pinning_modifyLevel fun _ => .bind pinning_freshTemp fun _ =>
      .bind (pinning_note (fun _ _ => rfl) (fun _ isPinned => isPinned) fun _ => rfl) fun _ =>
        .bind pinning_addTempName fun _ => .bind pinning_hold fun _ => .pure _

theorem pinning_prepareWrite : Pinning id r (prepareWrite name) := by
  have written : ∀ (j : VarId) (s : Reg), Pinning id r (do
      update j fun v => { v with isDirty := true }
      return s) := fun _ _ =>
    .bind (pinning_note (fun _ isTemp => isTemp) (fun _ isPinned => isPinned) fun _ => rfl) fun _ => .pure _
  refine .bind pinning_resolve fun j => .known fun v facts => .ite (fun _ => .throw _) fun _ => ?_
  split
  · exact .bind pinning_touch fun _ => .bind pinning_hold fun _ => written _ _
  · next away =>
    have other : j ≠ id := fun same => by
      rw [(facts same).2.2] at away
      cases away
    exact .bind pinning_take fun _ => .bind (pinning_bindTo other) fun _ => written _ _

theorem pinning_markWritten : Pinning id r (markWritten name) := by
  refine .bind pinning_resolve fun j => .known fun v _ => .ite (fun _ => .pure _) fun _ =>
    .bind (pinning_note (fun _ isTemp => isTemp) (fun _ isPinned => isPinned) fun _ => rfl) fun _ => ?_
  split
  · exact pinning_writeBack
  · exact .pure _

theorem pinning_drop (other : j ≠ id) : Pinning id r (drop j) := by
  have forget : Pinning id r (change fun a => { a with
      recency := a.recency.remove j, vars := a.vars.setIfInBounds j none }) := by
    intro w x w' ran pinned
    rw [ran_change.1 ran]
    exact pinned.congr (var?_dropVar.trans (if_neg other.symm))
  exact .bind (pinning_unbind other) fun _ => .known fun _ _ => .ite
    (fun _ => .bind pinning_removeTempName fun _ => forget) fun _ => .bind pinning_modifyLevel fun _ => forget

theorem pinning_unreserveAll : Pinning id r unreserveAll :=
  .bind (.look _) fun _ => .bind (.aside fun _ => rfl) fun _ =>
    .forM fun _ _ => .bind (.look _) fun _ => .ite (fun _ => pinning_release) fun _ => .pure _

theorem pinning_memoryAddress : Pinning id r (memoryAddress name) := by
  refine .bind pinning_resolve fun j => .known fun v _ => ?_
  have reached : ∀ home, Pinning id r (do
      update j fun v => { v with mustReload := true }
      addressOf home) := fun home =>
    .bind (pinning_note (fun _ isTemp => isTemp) (fun _ isPinned => isPinned) fun _ => rfl) fun _ => pinning_addressOf
  split
  · exact pinning_addressOf
  · exact .throw _
  · split
    · exact .bind pinning_writeBack fun _ => reached _
    · exact reached _

/-- What is read off what is known about a variable. -/
theorem pinning_knownAs {β : Type} {f : Variable → Alloc β} (rest : ∀ v, Pinning id r (f v)) :
    Pinning id r (knownAs name >>= f) := by
  rw [knownAs, bind_assoc]
  exact .bind pinning_resolve fun _ => .known fun v _ => rest v

theorem pinning_arrayAddress : Pinning id r (arrayAddress name) := by
  refine pinning_knownAs fun v => ?_
  split
  · exact pinning_addressOf
  · exact .throw _

theorem pinning_demote : Pinning id r (demote name) := by
  refine .bind (.look _) fun found => ?_
  split
  · exact .aside fun _ => rfl
  · exact .pure _

/-- Notes about a variable that is looked up. -/
theorem pinning_noteOf {f : Variable → Variable} (isTemp : ∀ v, v.isTemp = true → (f v).isTemp = true)
    (isPinned : ∀ v, v.isPinned = true → (f v).isPinned = true) (storage : ∀ v, (f v).storage = v.storage) :
    Pinning id r (do update (← resolve name) f) :=
  .bind pinning_resolve fun _ => pinning_note isTemp isPinned storage

/-! ### Points where paths meet -/

/-- Only named variables go home. -/
theorem pinning_sendHome : Pinning id r (sendHome s) := by
  refine .bind (.look _) fun owner => ?_
  split
  · exact .pure _
  · refine .known fun v facts => .ite (fun _ => .pure _) fun isNamed => ?_
    have other : _ ≠ id := fun same => isNamed (facts same).1
    exact .ite (fun _ => .bind pinning_writeBack fun _ => pinning_unbind other) fun _ => pinning_unbind other

theorem pinning_pin : Pinning id r (pin j) :=
  pinning_note (fun _ isTemp => isTemp) (fun v isPinned => by rw [isPinned, Bool.true_or]) fun _ => rfl

/-- Only what was spilled is brought back. -/
theorem pinning_bringBack : Pinning id r (bringBack j) := by
  refine .known fun v facts => .ite (fun inMemory => ?_) fun _ => .pure _
  have other : j ≠ id := fun same => by
    rw [(facts same).2.2] at inMemory
    cases inMemory
  exact .bind pinning_take fun _ => .bind pinning_load fun _ => .bind (pinning_bindTo other) fun _ =>
    pinning_other other

theorem pinning_sync : Pinning id r sync :=
  .bind (.forM fun _ _ => pinning_sendHome) fun _ => .bind (.look _) fun _ =>
    .bind (.forM fun _ _ => pinning_pin) fun _ => .forM fun _ _ => pinning_bringBack

theorem pinning_pushLevel {hides : Bool} : Pinning id r (pushLevel hides) := .aside fun _ => rfl

theorem pinning_pushWords {words : Int} : Pinning id r (pushWords words) := .aside fun _ => rfl

theorem pinning_popWords {words : Int} : Pinning id r (popWords words) := .aside fun _ => rfl

/-! ### What needs a state in order -/

variable {w w' : Work}

/-- The variables of a level are named ones. -/
theorem pinned_popLevel {x : Unit} (sound : Sound [] w.allocator) (pinned : w.allocator.Pinned id r)
    (ran : Ran popLevel w x w') : w'.allocator.Pinned id r := by
  obtain ⟨-, closes⟩ := ran_popLevel ran
  have others : ∀ entry ∈ w.allocator.current.names, entry.2 ≠ id := by
    rintro ⟨name, j⟩ member rfl
    obtain ⟨v, found, isTemp, -⟩ := pinned
    obtain ⟨u, found', isNamed, -⟩ := sound.names.namedIs current_level member
    cases found.symm.trans found'
    cases isTemp.symm.trans isNamed
  have closing : Pinning id r (closeLevel w.allocator.current) :=
    .bind (.forM fun entry member => pinning_drop (others entry member)) fun _ => .aside fun _ => rfl
  exact closing _ _ _ closes pinned

/-- Reserving another register moves another variable. -/
theorem pinned_reserve {x : Unit} (sound : Sound [] w.allocator) (pinned : w.allocator.Pinned id r) (other : s ≠ r)
    (ran : Ran (reserve s) w x w') : w'.allocator.Pinned id r := by
  obtain ⟨mid, rfl, ⟨-, rfl⟩ | ⟨j, target, taken, u, owned, took, found, rfl⟩⟩ := ran_reserve ran
  · exact pinned.congr rfl
  · have apart : id ≠ j := by
      rintro rfl
      obtain ⟨v, known, -, -, there⟩ := pinned
      have owned' := sound.registers.owner.2 ⟨v, known, there⟩
      exact other (sound.registers.toOwners.same_register owned owned')
    have pinned' : taken.allocator.Pinned id r := pinning_take _ _ _ took (pinned.congr rfl)
    exact pinned'.congr ((var?_bound (a := taken.allocator.setOwner s none) found id).trans (if_neg apart))

/-- A temporary that becomes a variable is another one. -/
theorem pinned_renameTemp {x : Unit} (pinned : w.allocator.Pinned id r) (other : w.allocator.temps.lookup temp ≠ some id)
    (ran : Ran (renameTemp temp name) w x w') : w'.allocator.Pinned id r := by
  obtain ⟨-, j, v, looked, found, ⟨s, -, rfl⟩ | ⟨there, home, -, -, rfl⟩⟩ := ran_renameTemp ran
  all_goals
    have apart : id ≠ j := by
      rintro rfl
      exact other looked
  · exact pinned.congr ((var?_withRenamed (a := w.allocator.grown 1) found id).trans (if_neg apart))
  · exact pinned.congr ((var?_withRenamed found id).trans (if_neg apart))

/-! ### Calls -/

/-- Before a call the temporary is put aside, to come back to its register. -/
theorem returns_of_save {x : Unit} (sound : Sound [] w.allocator) (idle : w.allocator.calls = [])
    (pinned : w.allocator.Pinned id r) (ran : Ran saveForCall w x w') : w'.allocator.Returns id r := by
  obtain ⟨temps, left, empties, saves⟩ := saves sound ran
  obtain ⟨v, found, isTemp, isPinned, there⟩ := pinned
  have found' := (empties.leaves.same isTemp).2 found
  obtain ⟨-, listed⟩ := empties.listed (Reg.mem_all r) found' there
  obtain ⟨i, at_⟩ := List.mem_iff_getElem?.1 listed
  have slot : (id, r, left.allocator.saveSlot + i) ∈ slotted left.allocator.saveSlot temps := mem_slotted.2 ⟨i, at_, rfl⟩
  obtain ⟨u, known, parked⟩ := saves.parked _ slot
  cases found'.symm.trans known
  refine ⟨_, ⟨slotted left.allocator.saveSlot temps, left.allocator.saveWords temps.length⟩, _, parked, isTemp, isPinned,
    rfl, ?_, slot⟩
  rw [saves.rest, empties.leaves.calls.trans idle]

/-- Behind the call it is in its register. -/
theorem pinned_of_restore {x : Unit} (order : InOrder w.allocator) (returns : w.allocator.Returns id r)
    (ran : Ran restoreAfterCall w x w') : w'.allocator.Pinned id r := by
  obtain ⟨v, save, slot, found, isTemp, isPinned, -, pending, member⟩ := returns
  obtain idle | ⟨save', pending', waits⟩ := order.pending
  · cases pending.symm.trans idle
  · cases pending.symm.trans pending'
    obtain ⟨back, ran', -, returned, -⟩ := restores pending waits.once fun s member =>
      (waits.there s member).imp fun v known => known.1
    obtain ⟨-, rfl⟩ := ran.unique ran'
    exact ⟨_, returned _ member v found, isTemp, isPinned, rfl⟩

/-- A temporary that is in its register does not wait for a call. -/
theorem pinned_restoreAfterCall {x : Unit} (order : InOrder w.allocator) (pinned : w.allocator.Pinned id r)
    (ran : Ran restoreAfterCall w x w') : w'.allocator.Pinned id r := by
  obtain ⟨save, calls, -, pending, -⟩ := ran_restoreAfterCall ran
  obtain idle | ⟨save', pending', waits⟩ := order.pending
  · cases pending.symm.trans idle
  · cases pending.symm.trans pending'
    obtain ⟨back, ran', -, -, others, -⟩ := restores pending waits.once fun s member =>
      (waits.there s member).imp fun v known => known.1
    obtain ⟨-, rfl⟩ := ran.unique ran'
    refine pinned.congr (others id fun listed => ?_)
    obtain ⟨s, member, rfl⟩ := List.mem_map.1 listed
    obtain ⟨v, found, -, -, there⟩ := pinned
    obtain ⟨u, known, waiting⟩ := waits.there s member
    cases found.symm.trans known
    cases there.symm.trans waiting

end Alloc

/-! ### Operations -/

/-- An operation drops a temporary, or makes a variable of it. -/
def Operation.LetsGo (a : Allocator) (id : VarId) : Operation → Prop
  | remove name => a.find? name = some id
  | removeIfTemp name => a.temps.lookup name = some id
  | renameTemp temp _ => a.temps.lookup temp = some id
  | discardTemps | leaveFunction => True
  | _ => False

/-- A temporary that is pinned belongs in a register: it is there, or waits for a call to return and comes back to it. -/
def Allocator.Belongs (a : Allocator) (id : VarId) (r : Reg) : Prop := a.Pinned id r ∨ a.Returns id r

namespace Alloc

open Allocator

variable {id : VarId} {r : Reg} {w w' : Work}

/-- While no call is pending, the temporary stays in its register, or is put aside for a call. -/
theorem pinned_operation (op : Operation) (order : InOrder w.allocator) (permitted : op.Permitted w.allocator)
    (keeps : ¬ op.LetsGo w.allocator id) (spares : op ≠ .reserve r) (pinned : w.allocator.Pinned id r)
    (ran : Ran op.act w () w') : w'.allocator.Belongs id r := by
  have stays : ∀ {act : Alloc Unit}, Ran act w () w' → Pinning id r act → w'.allocator.Belongs id r :=
    fun ran pinning => .inl (pinning w () w' ran pinned)
  have noted : ∀ {name : String} {f : Variable → Variable}, (∀ v, (f v).isTemp = v.isTemp) →
      (∀ v, (f v).isPinned = v.isPinned) → (∀ v, (f v).storage = v.storage) →
      Pinning id r (do update (← resolve name) f) := fun isTemp isPinned storage =>
    pinning_noteOf (fun v is => (isTemp v).trans is) (fun v is => (isPinned v).trans is) storage
  cases op with
  | addVariable name given => exact stays ran pinning_addVariable.map
  | declareVariable name => exact stays ran pinning_declareVariable
  | addTemp => exact stays ran pinning_addTemp.map
  | renameTemp temp name => exact .inl (pinned_renameTemp pinned keeps ran)
  | detachAsTemp name => exact stays ran pinning_detachAsTemp.map
  | getRegister name modifies => exact stays ran pinning_getRegister.map
  | prepareWrite name => exact stays ran pinning_prepareWrite.map
  | markWritten name => exact stays ran pinning_markWritten
  | remove name =>
    obtain ⟨j, mid, resolved, dropped⟩ := ran_bind.1 ran
    obtain ⟨found, rfl⟩ := ran_resolve.1 resolved
    have other : j ≠ id := by
      rintro rfl
      exact keeps found
    exact .inl (pinning_drop other _ _ _ dropped pinned)
  | removeIfTemp name =>
    obtain ⟨found, mid, looked, dropped⟩ := ran_bind.1 ran
    obtain ⟨rfl, rfl⟩ := ran_look.1 looked
    split at dropped
    · next j looked =>
      have other : j ≠ id := by
        rintro rfl
        exact keeps looked
      exact .inl (pinning_drop other _ _ _ dropped pinned)
    · obtain ⟨-, rfl⟩ := ran_pure.1 dropped
      exact .inl pinned
  | discardTemps => exact (keeps trivial).elim
  | reserve s => exact .inl (pinned_reserve order.sound pinned (fun same => spares (same ▸ rfl)) ran)
  | unreserveAll => exact stays ran pinning_unreserveAll
  | setArray name size => exact stays ran pinning_setArray
  | arrayAddress name => exact stays ran pinning_arrayAddress.map
  | setDims name dims => exact stays ran (noted (fun _ => rfl) (fun _ => rfl) fun _ => rfl)
  | dims name => exact stays ran (pinning_knownAs fun _ => .pure _).map
  | memoryAddress name => exact stays ran pinning_memoryAddress.map
  | setMustReload name => exact stays ran (noted (fun _ => rfl) (fun _ => rfl) fun _ => rfl)
  | setKind name kind => exact stays ran (noted (fun _ => rfl) (fun _ => rfl) fun _ => rfl)
  | kind name => exact stays ran (pinning_knownAs fun _ => .pure _).map
  | setRefs name refs => exact stays ran (noted (fun _ => rfl) (fun _ => rfl) fun _ => rfl)
  | refs name => exact stays ran (pinning_knownAs fun _ => .pure _).map
  | setAlias name target => exact stays ran (.bind pinning_resolve fun _ => pinning_modifyLevel)
  | removeAlias name => exact stays ran pinning_modifyLevel
  | demote name => exact stays ran pinning_demote
  | hold s => exact stays ran pinning_hold
  | releaseHolds => exact stays ran pinning_releaseHolds
  | sync => exact stays ran pinning_sync
  | pushLevel hidesOuter => exact stays ran pinning_pushLevel
  | popLevel => exact .inl (pinned_popLevel order.sound pinned ran)
  | enterFunction =>
    -- a function body starts without temporaries
    obtain ⟨v, found, isTemp, -⟩ := pinned
    have named := order.sound.names.temp found isTemp
    rw [permitted.2.2.1] at named
    cases named
  | leaveFunction => exact (keeps trivial).elim
  | pushWords words => exact stays ran pinning_pushWords
  | popWords words => exact stays ran pinning_popWords
  | saveForCall => exact .inr (returns_of_save order.sound permitted pinned ran)
  | restoreAfterCall => exact .inl (pinned_restoreAfterCall order pinned ran)

/-- While a call is pending, the temporary waits until the call is over. -/
theorem returns_operation (op : Operation) (order : InOrder w.allocator) (permitted : op.Permitted w.allocator)
    (returns : w.allocator.Returns id r) (ran : Ran op.act w () w') : w'.allocator.Belongs id r := by
  have busy : w.allocator.calls ≠ [] := by
    obtain ⟨v, save, slot, -, -, -, -, pending, -⟩ := returns
    rw [pending]
    exact List.cons_ne_nil _ _
  cases op with
  | pushWords words =>
    have moved : Ran (pushWords words) w () w' := ran
    rw [ran_change.1 moved]
    exact .inr returns
  | popWords words =>
    have moved : Ran (popWords words) w () w' := ran
    rw [ran_change.1 moved]
    exact .inr returns
  | restoreAfterCall => exact .inl (pinned_of_restore order returns ran)
  | addVariable | popLevel | enterFunction | leaveFunction | detachAsTemp => exact (busy permitted.1).elim
  | _ => exact (busy permitted).elim

/-- Reserving its register moves a temporary, pinned or not. -/
theorem reserve_moves {x : Unit} (sound : Sound [] w.allocator) (pinned : w.allocator.Pinned id r)
    (ran : Ran (reserve r) w x w') : ∃ s, s ≠ r ∧ w'.allocator.Pinned id s := by
  obtain ⟨v, found, isTemp, isPinned, there⟩ := pinned
  have owned := sound.registers.owner.2 ⟨v, found, there⟩
  obtain ⟨mid, rfl, ⟨unowned, -⟩ | ⟨j, s, taken, u, owned', took, known, rfl⟩⟩ := ran_reserve ran
  · cases owned.symm.trans unowned
  · cases owned.symm.trans owned'
    -- the register that is reserved is held meanwhile, so another one is taken
    have held : Sound [] { w.allocator with
        held := if r ∈ w.allocator.held then w.allocator.held else r :: w.allocator.held } :=
      sound.congr (fun _ => Iff.rfl) rfl
    have loose := (takes (w := on _ w) held took).loose
    have pinned' : taken.allocator.Pinned id r :=
      pinning_take _ _ _ took ⟨v, found, isTemp, isPinned, there⟩
    obtain ⟨u', known', isTemp', isPinned', -⟩ := pinned'
    cases known.symm.trans known'
    refine ⟨s, fun same => loose (same ▸ mem_held_hold _ r), { u with storage := .register s }, ?_, isTemp', isPinned', rfl⟩
    exact (var?_bound (a := taken.allocator.setOwner r none) known id).trans (if_pos rfl)

end Alloc

namespace Allocator

variable {a a' : Allocator} {id : VarId} {r : Reg} {w w' : Work} {v : Variable}

/-- Operations that neither let go of a temporary nor reserve a register. -/
def Sparing (id : VarId) (r : Reg) (a : Allocator) (op : Operation) : Prop :=
  op.Permitted a ∧ ¬ op.LetsGo a id ∧ op ≠ .reserve r

theorem Goes.reached (goes : Goes (Sparing id r) a a') (reached : Reached a) : Reached a' := by
  induction goes with
  | refl => exact reached
  | step op _ may ran ih => exact .step op ih may.1 ran

/-- However operations follow one another, a temporary that is pinned belongs in its register. -/
theorem Belongs.goes (reached : Reached a) (belongs : a.Belongs id r) (goes : Goes (Sparing id r) a a') :
    a'.Belongs id r := by
  induction goes with
  | refl => exact belongs
  | step op goes may ran ih =>
    obtain ⟨permitted, keeps, spares⟩ := may
    have order := (goes.reached reached).inOrder
    obtain pinned | returns := ih
    · exact pinned_operation op order permitted keeps spares pinned ran
    · exact returns_operation op order permitted returns ran

/-- Behind a synchronization every temporary that waits for no call is pinned to a register, and whatever operations
follow, as long as they neither let go of it nor reserve that register, it is in that register, or it waits for a call and
is in it again when the call is over. -/
theorem sync_pins (reached : Reached w.allocator) (idle : w.allocator.calls = []) (ran : Ran sync w () w')
    (found : w'.allocator.var? id = some v) (isTemp : v.isTemp = true) :
    ∃ r, v.storage = .register r ∧ ∀ a, Goes (Sparing id r) w'.allocator a →
      a.Pinned id r ∨ a.Returns id r ∧ ∀ u back : Work, u.allocator = a → Ran restoreAfterCall u () back →
        back.allocator.Pinned id r := by
  have reached' : Reached w'.allocator := .step .sync reached idle ran
  have calls : w'.allocator.calls = [] := (sync_sound reached.inOrder.sound ran).2.trans idle
  have synced := synchronizes reached.inOrder.sound ran
  obtain ⟨isPinned, r, there⟩ : v.isPinned = true ∧ ∃ r, v.storage = .register r := by
    cases there : v.storage with
    | register r => exact ⟨(synced.pinned found there).2, r, rfl⟩
    | memory home => cases (congrArg Storage.isMemory there).symm.trans (synced.back found isTemp)
    | saved slot =>
      obtain ⟨save, member, -⟩ := reached'.expected id v slot found there
      rw [calls] at member
      cases member
  refine ⟨r, there, fun a goes => ?_⟩
  obtain pinned | returns := Belongs.goes reached' (.inl ⟨v, found, isTemp, isPinned, there⟩) goes
  · exact .inl pinned
  · refine .inr ⟨returns, fun u back same ran => ?_⟩
    subst same
    exact pinned_of_restore (goes.reached reached').inOrder returns ran

/-- A temporary that a synchronization pinned. -/
def synced : Work := afterAll [.sync] (after .addTemp ⟨initial, #[]⟩)

/-- It is put aside for a call. -/
def away : Work := afterAll [.saveForCall] synced

theorem sync_pins_around_call : ∃ r, synced.allocator.Pinned 0 r ∧ away.allocator.Returns 0 r ∧
    (afterAll [.restoreAfterCall] away).allocator.Pinned 0 r := by
  have ran : Ran Operation.sync.act (after .addTemp ⟨initial, #[]⟩) () synced := ran_afterAll (by decide +kernel)
  have saves : Ran Operation.saveForCall.act synced () away := ran_afterAll (by decide +kernel)
  have restores : Ran Operation.restoreAfterCall.act away () (afterAll [.restoreAfterCall] away) :=
    ran_afterAll (by decide +kernel)
  have temp : (synced.allocator.var? 0).any Variable.isTemp = true := by decide +kernel
  obtain ⟨v, found, isTemp⟩ := (Option.any_eq_true _ _).1 temp
  have reached : Reached (after .addTemp ⟨initial, #[]⟩).allocator :=
    reached_after (w := ⟨initial, #[]⟩) .addTemp .initial rfl rfl
  have idle : synced.allocator.calls = [] := by decide +kernel
  obtain ⟨r, there, stays⟩ := sync_pins reached rfl ran found isTemp
  have begun := stays _ .refl
  have saved : Goes (Sparing 0 r) synced.allocator away.allocator :=
    .step .saveForCall .refl ⟨idle, id, nofun⟩ saves
  have parted : (away.allocator.var? 0).any (fun v => v.storage.register?.isSome) = false := by decide +kernel
  have gone : ¬ away.allocator.Pinned 0 r := by
    rintro ⟨u, known, -, -, place⟩
    rw [known, Option.any_some, place] at parted
    cases parted
  obtain ⟨returns, comes⟩ := (stays _ saved).resolve_left gone
  refine ⟨r, begun.resolve_right fun waits => ?_, returns, comes _ _ rfl restores⟩
  obtain ⟨-, save, slot, -, -, -, -, pending, -⟩ := waits.1
  cases idle.symm.trans pending

end Allocator

end SmallC
