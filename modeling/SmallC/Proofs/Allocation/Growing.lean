import SmallC.Proofs.Allocation.Blocks

/-!
Memory only grows. An operation outside of calls and function bodies never takes back a home that was
handed out or the number of a variable, and does not move the stack. This is a matter of the basic
changes that an operation is made of, so it is proved along the way operations are put together.
-/
namespace SmallC

namespace Allocator

/-- Another state with at least the memory and the variables of this one, and the same stack. -/
structure Grows (a a' : Allocator) : Prop where
  grants : ∀ {home}, a.Grants home → a'.Grants home
  size : a.vars.size ≤ a'.vars.size
  pushed : a'.pushed = a.pushed

namespace Grows

variable {a b c : Allocator}

theorem refl (a : Allocator) : Grows a a := ⟨fun granted => granted, Nat.le_refl _, rfl⟩

theorem trans (first : Grows a b) (second : Grows b c) : Grows a c where
  grants granted := second.grants (first.grants granted)
  size := first.size.trans second.size
  pushed := second.pushed.trans first.pushed

/-- Nothing but names, registers and what is known about variables changes. -/
theorem of_same (globals : b.globals = a.globals) (frame : b.frame = a.frame)
    (size : a.vars.size ≤ b.vars.size) (pushed : b.pushed = a.pushed) : Grows a b where
  grants {home} granted := by
    cases home with
    | global address =>
      unfold Grants at *
      rwa [globals]
    | frame slot =>
      obtain ⟨slots, found, inside⟩ := granted
      exact ⟨slots, frame.trans found, inside⟩
  size := size
  pushed := pushed

end Grows

end Allocator

namespace Alloc

open Allocator

/-- An operation that only grows the memory, whatever state it runs in. -/
def Growing {α : Type} (act : Alloc α) : Prop :=
  ∀ w x w', Ran act w x w' → Grows w.allocator w'.allocator

namespace Growing

variable {α β : Type} {act other : Alloc α}

theorem pure (x : α) : Growing (Pure.pure x : Alloc α) := by
  intro w y w' ran
  obtain ⟨-, rfl⟩ := ran_pure.1 ran
  exact .refl _

theorem throw (e : AllocatorFault) : Growing (MonadExcept.throw e : Alloc α) :=
  fun _ _ _ ran => (ran_throw.1 ran).elim

theorem bind {f : α → Alloc β} (first : Growing act) (rest : ∀ x, Growing (f x)) :
    Growing (act >>= f) := by
  intro w y w' ran
  obtain ⟨x, mid, ran, ran'⟩ := ran_bind.1 ran
  exact (first _ _ _ ran).trans (rest x _ _ _ ran')

theorem ite {c : Prop} [Decidable c] (yes : Growing act) (no : Growing other) :
    Growing (if c then act else other) := by
  split
  · exact yes
  · exact no

theorem look (f : Allocator → α) : Growing (Alloc.look f) := by
  intro w x w' ran
  obtain ⟨-, rfl⟩ := ran_look.1 ran
  exact .refl _

theorem emit (i : MachineInstr) : Growing (Alloc.emit i) := by
  intro w x w' ran
  rw [ran_emit.1 ran]
  exact .refl _

theorem change {f : Allocator → Allocator} (grows : ∀ a, Grows a (f a)) :
    Growing (Alloc.change f) := by
  intro w x w' ran
  rw [ran_change.1 ran]
  exact grows _

theorem forM {f : α → Alloc Unit} (pass : ∀ x, Growing (f x)) (xs : List α) :
    Growing (xs.forM f) := by
  intro w x w' ran
  refine Ran.forM ran (P := fun mid => Grows w.allocator mid.allocator) (.refl _) ?_
  intro y _ mid mid' grown ran
  exact grown.trans (pass y _ _ _ ran)

end Growing

variable {id : VarId} {r : Reg} {name temp : String}

theorem growing_known : Growing (known id) := by
  intro w v w' ran
  obtain ⟨-, rfl⟩ := ran_known.1 ran
  exact .refl _

theorem growing_resolve : Growing (resolve name) := by
  intro w v w' ran
  obtain ⟨-, rfl⟩ := ran_resolve.1 ran
  exact .refl _

theorem growing_update {f : Variable → Variable} : Growing (update id f) := by
  intro w x w' ran
  obtain ⟨v, -, rfl⟩ := ran_update.1 ran
  exact .of_same rfl rfl (Nat.le_of_eq Array.size_setIfInBounds.symm) rfl

theorem growing_checkUnbound : Growing (checkUnbound name) := by
  intro w x w' ran
  obtain ⟨-, rfl⟩ := ran_checkUnbound.1 ran
  exact .refl _

theorem growing_addressOf {home : Home} : Growing (addressOf home) := by
  intro w x w' ran
  obtain ⟨-, rfl⟩ := ran_addressOf.1 ran
  exact .refl _

/-- Changes of registers and holds. -/
theorem growing_same {f : Allocator → Allocator}
    (same : ∀ a, f a = { a with
      owner := (f a).owner, free := (f a).free, recency := (f a).recency, held := (f a).held,
      reserved := (f a).reserved, temps := (f a).temps, nextTemp := (f a).nextTemp }) :
    Growing (change f) := by
  refine .change fun a => ?_
  rw [same a]
  exact .of_same rfl rfl (Nat.le_refl _) rfl

theorem growing_modifyLevel {depth : Allocator → Nat} {f : Level → Level} :
    Growing (change fun a => a.modifyLevel (depth a) f) := by
  refine .change fun a => ?_
  rw [modifyLevel_eq]
  exact .of_same rfl rfl (Nat.le_refl _) rfl

theorem growing_release : Growing (release r) := by
  intro w x w' ran
  rw [ran_release.1 ran]
  exact .of_same rfl rfl (Nat.le_refl _) rfl

theorem growing_bindTo : Growing (bindTo id r) := by
  intro w x w' ran
  obtain ⟨v, -, rfl⟩ := ran_bindTo.1 ran
  exact .of_same rfl rfl (Nat.le_of_eq Array.size_setIfInBounds.symm) rfl

theorem growing_unbind : Growing (unbind id) := by
  intro w x w' ran
  obtain ⟨v, -, ⟨-, rfl⟩ | ⟨r, -, rfl⟩⟩ := ran_unbind.1 ran
  · exact .refl _
  · exact .of_same rfl rfl (Nat.le_of_eq Array.size_setIfInBounds.symm) rfl

theorem growing_allocHome {words : Nat} : Growing (allocHome words) := by
  intro w x w' ran
  obtain ⟨-, rfl⟩ := ran_allocHome.1 ran
  exact ⟨fun granted => grants_grown granted words, Nat.le_refl _, rfl⟩

theorem growing_insert {v : Variable} : Growing (insert v) := by
  intro w x w' ran
  obtain ⟨-, rfl⟩ := ran_insert.1 ran
  refine .of_same rfl rfl ?_ rfl
  rw [allocator_on, addVar, Array.size_push]
  exact Nat.le_succ _

/-! ### Traffic -/

theorem growing_writeBack : Growing (writeBack id r) := by
  refine .bind growing_known fun v => ?_
  split
  · exact .throw _
  · exact .bind growing_addressOf fun _ => .bind (.emit _) fun _ => growing_update

theorem growing_ensureHome : Growing (ensureHome id) :=
  .bind growing_known fun _ => .ite (.bind growing_allocHome fun _ => growing_update) (.pure _)

theorem growing_evict : Growing (evict id) := by
  refine .bind growing_known fun v => ?_
  have leave : ∀ r, Growing (do
      unbind id
      withdraw r
      return r) := fun r =>
    .bind growing_unbind fun _ => .bind (growing_same fun _ => rfl) fun _ => .pure _
  split
  · exact .throw _
  · refine .ite (.throw _) (.ite ?_ (.ite (.throw _) (.ite ?_ (leave _))))
    · exact .bind growing_ensureHome fun _ => .bind growing_writeBack fun _ => leave _
    · exact .bind growing_writeBack fun _ => leave _

theorem growing_take : Growing take := by
  refine .bind (.look _) fun free => ?_
  split
  · exact .bind (growing_same fun _ => rfl) fun _ => .pure _
  · refine .bind (.look _) fun victim => ?_
    split
    · exact growing_evict
    · exact .throw _

theorem growing_load : Growing (load id r) := by
  have word : ∀ home, Growing (loadWord r home) := fun home =>
    .bind growing_addressOf fun _ => .emit _
  refine .bind growing_known fun v => ?_
  split
  · exact .bind growing_addressOf fun _ => .emit _
  · exact word _
  · split
    · exact word _
    · exact .throw _
  · exact .throw _

/-! ### Operations -/

theorem growing_addVariable : Growing (addVariable name none) :=
  .bind growing_checkUnbound fun _ => .bind growing_take fun _ => .bind growing_allocHome fun _ =>
    .bind (.look _) fun _ => .bind growing_insert fun _ => .bind growing_modifyLevel fun _ =>
      .bind growing_bindTo fun _ => .pure _

theorem growing_declareVariable : Growing (declareVariable name) :=
  .bind growing_checkUnbound fun _ => .bind growing_allocHome fun _ => .bind (.look _) fun _ =>
    .bind growing_insert fun _ => growing_modifyLevel

theorem growing_freshTemp : Growing freshTemp :=
  .bind (.look _) fun _ => .bind (growing_same fun _ => rfl) fun _ => .pure _

theorem growing_addTemp : Growing addTemp :=
  .bind growing_take fun _ => .bind growing_freshTemp fun _ => .bind (.look _) fun _ =>
    .bind growing_insert fun _ => .bind (growing_same fun _ => rfl) fun _ =>
      .bind growing_bindTo fun _ => .pure _

theorem growing_renameTemp : Growing (renameTemp temp name) := by
  refine .bind growing_checkUnbound fun _ => .bind (.look _) fun found => ?_
  split
  · exact .throw _
  · refine .bind growing_known fun v => .bind ?_ fun adopted => ?_
    · unfold adoptedHome
      split
      · exact .bind growing_allocHome fun _ => .pure _
      · exact .pure _
      · exact .throw _
    · exact .bind (growing_same fun _ => rfl) fun _ => .bind (.look _) fun _ =>
        .bind growing_update fun _ => .bind growing_modifyLevel fun _ =>
          .ite (growing_same fun _ => rfl) (.pure _)

theorem growing_hold : Growing (hold r) := growing_same fun _ => rfl

theorem growing_releaseHolds : Growing releaseHolds := growing_same fun _ => rfl

theorem growing_touch : Growing (touch id) := growing_same fun _ => rfl

theorem growing_getRegister {modifies : Bool} : Growing (getRegister name modifies) := by
  refine .bind growing_resolve fun id => .bind growing_known fun v => ?_
  have use : ∀ r, Growing (do
      touch id
      hold r
      return r) := fun r => .bind growing_touch fun _ => .bind growing_hold fun _ => .pure _
  split
  · exact .ite (.bind growing_load fun _ => use _) (use _)
  · exact .bind growing_take fun _ => .bind growing_load fun _ => .bind growing_bindTo fun _ =>
      .bind growing_update fun _ => .pure _

theorem growing_detachAsTemp : Growing (detachAsTemp name) := by
  intro w x w' ran
  obtain ⟨r, mid, id, v, read, -, -, -, rfl⟩ := ran_detachAsTemp ran
  refine (growing_getRegister w r mid read).trans ?_
  rw [allocator_on, withDetached_eq]
  exact .of_same rfl rfl (Nat.le_of_eq Array.size_setIfInBounds.symm) rfl

theorem growing_prepareWrite : Growing (prepareWrite name) := by
  intro w r w' ran
  obtain ⟨id, v, -, -, -, ⟨-, rfl⟩ | ⟨-, mid, u, took, -, rfl⟩⟩ := ran_prepareWrite ran
  · exact .of_same rfl rfl (Nat.le_of_eq Array.size_setIfInBounds.symm) rfl
  · refine (growing_take w r mid took).trans (.of_same rfl rfl (Nat.le_of_eq ?_) rfl)
    exact Array.size_setIfInBounds.symm.trans Array.size_setIfInBounds.symm

theorem growing_markWritten : Growing (markWritten name) := by
  refine .bind growing_resolve fun id => .bind growing_known fun v => .ite (.pure _) ?_
  refine .bind growing_update fun _ => ?_
  split
  · exact growing_writeBack
  · exact .pure _

theorem growing_drop : Growing (drop id) := by
  refine .bind growing_unbind fun _ => .bind growing_known fun v => ?_
  have forget : Growing (change fun a => { a with
      recency := a.recency.remove id, vars := a.vars.setIfInBounds id none }) :=
    .change fun a => .of_same rfl rfl (Nat.le_of_eq Array.size_setIfInBounds.symm) rfl
  exact .ite (.bind (growing_same fun _ => rfl) fun _ => forget)
    (.bind growing_modifyLevel fun _ => forget)

theorem growing_removeIfTemp : Growing (removeIfTemp name) := by
  refine .bind (.look _) fun found => ?_
  split
  · exact growing_drop
  · exact .pure _

theorem growing_reserve : Growing (reserve r) := by
  intro w x w' ran
  obtain ⟨mid, rfl, ⟨-, rfl⟩ | ⟨id, target, taken, u, -, took, -, rfl⟩⟩ := ran_reserve ran
  · exact .of_same rfl rfl (Nat.le_refl _) rfl
  · have held : Grows w.allocator { w.allocator with
        held := if r ∈ w.allocator.held then w.allocator.held else r :: w.allocator.held } :=
      .of_same rfl rfl (Nat.le_refl _) rfl
    refine held.trans ((growing_take _ _ _ took).trans ?_)
    exact .of_same rfl rfl (Nat.le_of_eq Array.size_setIfInBounds.symm) rfl

theorem growing_unreserveAll : Growing unreserveAll :=
  .bind (.look _) fun _ => .bind (growing_same fun _ => rfl) fun _ =>
    .forM (fun _ => .bind (.look _) fun _ => .ite growing_release (.pure _)) _

theorem growing_setAlias {target : String} : Growing (setAlias name target) :=
  .bind growing_resolve fun _ => growing_modifyLevel

theorem growing_removeAlias : Growing (removeAlias name) := growing_modifyLevel

theorem growing_remove : Growing (remove name) := .bind growing_resolve fun _ => growing_drop

theorem growing_demote : Growing (demote name) := by
  refine .bind (.look _) fun found => ?_
  split
  · exact growing_same fun _ => rfl
  · exact .pure _

theorem growing_sendHome : Growing (sendHome r) := by
  refine .bind (.look _) fun owner => ?_
  split
  · exact .pure _
  · exact .bind growing_known fun _ => .ite (.pure _)
      (.ite (.bind growing_writeBack fun _ => growing_unbind) growing_unbind)

theorem growing_bringBack : Growing (bringBack id) :=
  .bind growing_known fun _ => .ite (.bind growing_take fun _ => .bind growing_load fun _ =>
    .bind growing_bindTo fun _ => growing_update) (.pure _)

theorem growing_sync : Growing sync :=
  .bind (.forM (fun _ => growing_sendHome) _) fun _ => .bind (.look _) fun _ =>
    .bind (.forM (fun _ => growing_update) _) fun _ => .forM (fun _ => growing_bringBack) _

theorem growing_pushLevel {hides : Bool} : Growing (pushLevel hides) :=
  .change fun _ => .of_same rfl rfl (Nat.le_refl _) rfl

theorem growing_popLevel : Growing popLevel := by
  refine .bind (.look _) fun inner => ?_
  split
  · exact .throw _
  · exact .bind (.forM (fun _ => growing_drop) _) fun _ =>
      .change fun _ => .of_same rfl rfl (Nat.le_refl _) rfl

end Alloc

end SmallC
