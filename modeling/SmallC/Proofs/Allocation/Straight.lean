import SmallC.Proofs.Allocation.Runs

/-!
What the allocator emits refers to no label: it is code that control runs through from the first instruction to
the last. This holds of every operation, in whatever state it runs, and so it is proved along the way operations
are put together.
-/
namespace SmallC.Alloc

variable {α β : Type}

/-- No instruction refers to a label. -/
def RefersNowhere (code : Array MachineInstr) : Prop := ∀ i ∈ code, i.target? = none

/-- An operation whose code refers to no label. -/
def Straight (act : Alloc α) : Prop :=
  ∀ w x w', Ran act w x w' → RefersNowhere w.code → RefersNowhere w'.code

namespace Straight

variable {act other : Alloc α}

theorem pure (x : α) : Straight (Pure.pure x : Alloc α) := by
  intro w y w' ran nowhere
  rwa [(ran_pure.1 ran).2]

theorem throw (e : AllocatorFault) : Straight (MonadExcept.throw e : Alloc α) :=
  fun _ _ _ ran => (ran_throw.1 ran).elim

theorem bind {f : α → Alloc β} (first : Straight act) (rest : ∀ x, Straight (f x)) : Straight (act >>= f) := by
  intro w y w' ran nowhere
  obtain ⟨x, mid, ran, ran'⟩ := ran_bind.1 ran
  exact rest x _ _ _ ran' (first _ _ _ ran nowhere)

theorem ite {c : Prop} [Decidable c] (yes : Straight act) (no : Straight other) :
    Straight (if c then act else other) := by
  split
  · exact yes
  · exact no

theorem look (f : Allocator → α) : Straight (Alloc.look f) := by
  intro w x w' ran nowhere
  rwa [(ran_look.1 ran).2]

theorem change (f : Allocator → Allocator) : Straight (Alloc.change f) := by
  intro w x w' ran nowhere
  rwa [ran_change.1 ran]

theorem emit {i : MachineInstr} (plain : i.target? = none) : Straight (Alloc.emit i) := by
  intro w x w' ran nowhere
  rw [ran_emit.1 ran]
  intro j member
  rcases Array.mem_push.1 member with member | rfl
  · exact nowhere j member
  · exact plain

theorem forM {f : α → Alloc Unit} (pass : ∀ x, Straight (f x)) (xs : List α) : Straight (xs.forM f) :=
  fun _ _ _ ran nowhere => Ran.forM (P := fun mid => RefersNowhere mid.code) ran nowhere
    fun a _ w w' before ran => pass a w () w' ran before

theorem mapM {f : α → Alloc β} (pass : ∀ x, Straight (f x)) (xs : List α) : Straight (xs.mapM f) :=
  fun _ _ _ ran nowhere => Ran.mapM (P := fun mid => RefersNowhere mid.code) ran nowhere
    fun a _ w y w' before ran => pass a w y w' ran before

end Straight

variable {id : VarId} {r : Reg} {name temp : String} {home : Home}

theorem straight_known : Straight (known id) := by
  refine .bind (.look _) fun found => ?_
  split
  · exact .pure _
  · exact .throw _

theorem straight_resolve : Straight (resolve name) := by
  refine .bind (.look _) fun found => ?_
  split
  · exact .pure _
  · exact .throw _

theorem straight_update {f : Variable → Variable} : Straight (update id f) := .bind straight_known fun _ => .change _

theorem straight_knownAs : Straight (knownAs name) := .bind straight_resolve fun _ => straight_known

theorem straight_release : Straight (release r) := .bind (.change _) fun _ => .change _

theorem straight_bindTo : Straight (bindTo id r) :=
  .bind (.change _) fun _ => .bind straight_update fun _ => .bind (.change _) fun _ => .change _

theorem straight_unbind : Straight (unbind id) := by
  refine .bind straight_known fun v => ?_
  split
  · exact .pure _
  · exact .bind (.change _) fun _ => .bind straight_release fun _ => straight_update

theorem straight_allocHome {words : Nat} : Straight (allocHome words) := by
  refine .bind (.look _) fun frame => ?_
  split
  · exact .bind (.change _) fun _ => .pure _
  · exact .bind (.look _) fun _ => .bind (.change _) fun _ => .pure _

theorem straight_addressOf : Straight (addressOf home) := by
  unfold addressOf
  split
  · exact .pure _
  · exact .bind (.look _) fun _ => .ite (.bind (.look _) fun _ => .pure _) (.throw _)

theorem straight_writeBack : Straight (writeBack id r) := by
  refine .bind straight_known fun v => ?_
  split
  · exact .throw _
  · exact .bind straight_addressOf fun _ => .bind (.emit rfl) fun _ => straight_update

theorem straight_ensureHome : Straight (ensureHome id) :=
  .bind straight_known fun _ => .ite (.bind straight_allocHome fun _ => straight_update) (.pure _)

theorem straight_evict : Straight (evict id) := by
  have leave : ∀ r, Straight (do
      unbind id
      withdraw r
      return r) := fun r => .bind straight_unbind fun _ => .bind (.change _) fun _ => .pure _
  refine .bind straight_known fun v => ?_
  split
  · exact .throw _
  · refine .ite (.throw _) (.ite ?_ (.ite (.throw _) (.ite ?_ (leave _))))
    · exact .bind straight_ensureHome fun _ => .bind straight_writeBack fun _ => leave _
    · exact .bind straight_writeBack fun _ => leave _

theorem straight_take : Straight take := by
  refine .bind (.look _) fun free => ?_
  split
  · exact .bind (.change _) fun _ => .pure _
  · refine .bind (.look _) fun victim => ?_
    split
    · exact straight_evict
    · exact .throw _

theorem straight_loadWord : Straight (loadWord r home) := .bind straight_addressOf fun _ => .emit rfl

theorem straight_load : Straight (load id r) := by
  refine .bind straight_known fun v => ?_
  split
  · exact .bind straight_addressOf fun _ => .emit rfl
  · exact straight_loadWord
  · split
    · exact straight_loadWord
    · exact .throw _
  · exact .throw _

/-! ### Variables and temporaries -/

theorem straight_checkUnbound : Straight (checkUnbound name) := .bind (.look _) fun _ => .ite (.throw _) (.pure _)

theorem straight_insert {v : Variable} : Straight (insert v) :=
  .bind (.look _) fun _ => .bind (.change _) fun _ => .pure _

theorem straight_freshTemp : Straight freshTemp := .bind (.look _) fun _ => .bind (.change _) fun _ => .pure _

theorem straight_addVariable {given : Option Reg} : Straight (addVariable name given) := by
  have introduce : ∀ r, Straight (do
      let home ← allocHome 1
      let depth ← Alloc.look Allocator.depth
      let id ← insert { Variable.plain name false depth (some home) (.register r) with isDirty := true }
      Alloc.name name id
      bindTo id r
      return r) := fun r =>
    .bind straight_allocHome fun _ => .bind (.look _) fun _ => .bind straight_insert fun _ => .bind (.change _) fun _ =>
      .bind straight_bindTo fun _ => .pure _
  refine .bind straight_checkUnbound fun _ => ?_
  cases given with
  | some r => exact .bind (.look _) fun _ => .ite (.throw _) (.bind (.change _) fun _ => introduce _)
  | none => exact .bind straight_take fun _ => introduce _

theorem straight_declareVariable : Straight (declareVariable name) :=
  .bind straight_checkUnbound fun _ => .bind straight_allocHome fun _ => .bind (.look _) fun _ =>
    .bind straight_insert fun _ => .change _

theorem straight_addTemp : Straight addTemp :=
  .bind straight_take fun _ => .bind straight_freshTemp fun _ => .bind (.look _) fun _ =>
    .bind straight_insert fun _ => .bind (.change _) fun _ => .bind straight_bindTo fun _ => .pure _

theorem straight_adoptedHome {v : Variable} : Straight (adoptedHome temp v) := by
  unfold adoptedHome
  split
  · exact .bind straight_allocHome fun _ => .pure _
  · exact .pure _
  · exact .throw _

theorem straight_renameTemp : Straight (renameTemp temp name) := by
  refine .bind straight_checkUnbound fun _ => .bind (.look _) fun found => ?_
  split
  · exact .throw _
  · exact .bind straight_known fun _ => .bind straight_adoptedHome fun _ => .bind (.change _) fun _ =>
      .bind (.look _) fun _ => .bind straight_update fun _ => .bind (.change _) fun _ => .ite (.change _) (.pure _)

theorem straight_getRegister {modifies : Bool} : Straight (getRegister name modifies) := by
  have use : ∀ id r, Straight (do
      touch id
      hold r
      return r) := fun _ _ => .bind (.change _) fun _ => .bind (.change _) fun _ => .pure _
  refine .bind straight_resolve fun id => .bind straight_known fun v => ?_
  split
  · exact .ite (.bind straight_load fun _ => use _ _) (use _ _)
  · exact .bind straight_take fun _ => .bind straight_load fun _ => .bind straight_bindTo fun _ =>
      .bind straight_update fun _ => .pure _

theorem straight_detachAsTemp : Straight (detachAsTemp name) :=
  .bind straight_getRegister fun _ => .bind straight_resolve fun _ => .bind straight_known fun _ =>
    .bind (.change _) fun _ => .bind straight_freshTemp fun _ => .bind straight_update fun _ => .bind (.change _) fun _ =>
      .bind (.change _) fun _ => .pure _

theorem straight_prepareWrite : Straight (prepareWrite name) := by
  have last : ∀ (id : VarId) (r : Reg), Straight (do
      update id fun v => { v with isDirty := true }
      return r) := fun _ _ => .bind straight_update fun _ => .pure _
  refine .bind straight_resolve fun id => .bind straight_known fun v => .ite (.throw _) ?_
  split
  · exact .bind (.change _) fun _ => .bind (.change _) fun _ => last _ _
  · exact .bind straight_take fun _ => .bind straight_bindTo fun _ => last _ _

theorem straight_markWritten : Straight (markWritten name) := by
  refine .bind straight_resolve fun id => .bind straight_known fun v => .ite (.pure _) ?_
  refine .bind straight_update fun _ => ?_
  split
  · exact straight_writeBack
  · exact .pure _

theorem straight_drop : Straight (drop id) :=
  .bind straight_unbind fun _ => .bind straight_known fun _ => .ite (.bind (.change _) fun _ => .change _)
    (.bind (.change _) fun _ => .change _)

theorem straight_remove : Straight (remove name) := .bind straight_resolve fun _ => straight_drop

theorem straight_removeIfTemp : Straight (removeIfTemp name) := by
  refine .bind (.look _) fun found => ?_
  split
  · exact straight_drop
  · exact .pure _

theorem straight_discardTemps : Straight discardTemps :=
  .bind (.look _) fun _ => .bind (.forM (fun _ => straight_drop) _) fun _ => .pure _

theorem straight_reserve : Straight (reserve r) := by
  have last : Straight (do
      withdraw r
      if r.isPool then
        Alloc.change fun a => { a with reserved := if r ∈ a.reserved then a.reserved else a.reserved ++ [r] }) :=
    .bind (.change _) fun _ => .ite (.change _) (.pure _)
  refine .bind (.look _) fun owner => ?_
  cases owner with
  | some id =>
    exact .bind (.change _) fun _ => .bind straight_take fun _ => .bind (.emit rfl) fun _ => .bind (.change _) fun _ =>
      .bind straight_bindTo fun _ => last
  | none => exact last

theorem straight_unreserveAll : Straight unreserveAll :=
  .bind (.look _) fun _ => .bind (.change _) fun _ =>
    .forM (fun _ => .bind (.look _) fun _ => .ite straight_release (.pure _)) _

theorem straight_setArray {size : Nat} : Straight (setArray name size) :=
  .bind straight_checkUnbound fun _ => .bind straight_allocHome fun _ => .bind (.look _) fun _ =>
    .bind straight_insert fun _ => .change _

/-- What is noted about a variable. -/
theorem straight_note {f : Variable → Variable} : Straight (do update (← resolve name) f) :=
  .bind straight_resolve fun _ => straight_update

/-- What is read off a variable. -/
theorem straight_reads {f : Variable → α} : Straight (do return f (← knownAs name)) :=
  .bind straight_knownAs fun _ => .pure _

theorem straight_arrayAddress : Straight (arrayAddress name) := by
  refine .bind straight_knownAs fun v => ?_
  split
  · exact straight_addressOf
  · exact .throw _

theorem straight_memoryAddress : Straight (memoryAddress name) := by
  have last : ∀ id home, Straight (do
      update id fun v => { v with mustReload := true }
      addressOf home) := fun _ _ => .bind straight_update fun _ => straight_addressOf
  refine .bind straight_resolve fun id => .bind straight_known fun v => ?_
  split
  · exact straight_addressOf
  · exact .throw _
  · split
    · exact .bind straight_writeBack fun _ => last _ _
    · exact last _ _

theorem straight_setAlias {target : String} : Straight (setAlias name target) :=
  .bind straight_resolve fun _ => .change _

theorem straight_demote : Straight (demote name) := by
  refine .bind (.look _) fun found => ?_
  split
  · exact .change _
  · exact .pure _

/-! ### Blocks, functions and calls -/

theorem straight_sendHome : Straight (sendHome r) := by
  refine .bind (.look _) fun owner => ?_
  split
  · exact .pure _
  · exact .bind straight_known fun _ => .ite (.pure _) (.ite (.bind straight_writeBack fun _ => straight_unbind)
      straight_unbind)

theorem straight_bringBack : Straight (bringBack id) :=
  .bind straight_known fun _ => .ite (.bind straight_take fun _ => .bind straight_load fun _ =>
    .bind straight_bindTo fun _ => straight_update) (.pure _)

theorem straight_sync : Straight sync :=
  .bind (.forM (fun _ => straight_sendHome) _) fun _ => .bind (.look _) fun _ =>
    .bind (.forM (fun _ => straight_update) _) fun _ => .forM (fun _ => straight_bringBack) _

theorem straight_closeLevel {level : Level} : Straight (closeLevel level) :=
  .bind (.forM (fun _ => straight_drop) _) fun _ => .change _

theorem straight_popLevel : Straight popLevel := by
  refine .bind (.look _) fun inner => ?_
  split
  · exact .throw _
  · exact straight_closeLevel

theorem straight_outsideBinding? : Straight (outsideBinding? r) := by
  refine .bind (.look _) fun owner => ?_
  split
  · exact .pure _
  · exact .bind straight_known fun _ => .ite (.throw _) (.pure _)

theorem straight_enterFunction : Straight enterFunction :=
  .bind (.look _) fun _ => .ite (.throw _) (.bind (.mapM (fun _ => straight_outsideBinding?) _) fun _ =>
    .bind (.change _) fun _ => .bind (.forM (fun _ => straight_unbind) _) fun _ => .change _)

theorem straight_sendRootHome : Straight (sendRootHome r) := by
  refine .bind (.look _) fun owner => ?_
  split
  · exact .pure _
  · refine .bind straight_known fun v => .ite ?_ (.pure _)
    split
    · exact straight_writeBack
    · exact .pure _

theorem straight_vacate : Straight (vacate r) := by
  refine .bind (.look _) fun owner => ?_
  split
  · exact .pure _
  · exact straight_unbind

theorem straight_rebind {binding : VarId × Reg × Bool} : Straight (rebind binding) :=
  .bind (.change _) fun _ => straight_update

theorem straight_leaveFunction : Straight leaveFunction := by
  refine .bind (.forM (fun _ => straight_sendRootHome) _) fun _ => .bind (.look _) fun _ =>
    .bind (.forM (fun _ => straight_closeLevel) _) fun _ => .bind (.forM (fun _ => straight_vacate) _) fun _ =>
      .bind straight_discardTemps fun _ => .bind (.look _) fun _ => .bind (.change _) fun _ => .bind (.look _) fun found => ?_
  split
  · exact .throw _
  · exact .bind (.change _) fun _ => .bind (.forM (fun _ => straight_rebind) _) fun _ => .bind (.change _) fun _ => .pure _

theorem straight_leaveForCall : Straight (leaveForCall r) := by
  refine .bind (.look _) fun owner => ?_
  split
  · exact .pure _
  · refine .bind straight_known fun v => ?_
    split
    · exact .pure _
    · have leave : ∀ id, Straight (do
          unbind id
          return (none : Option (VarId × Reg))) := fun _ => .bind straight_unbind fun _ => .pure _
      exact .ite (.pure _) (.ite (.bind straight_writeBack fun _ => leave _) (leave _))

theorem straight_saveOnStack {slot : Nat} {temps : List (VarId × Reg)} : Straight (saveOnStack slot temps) := by
  induction temps generalizing slot with
  | nil => exact .pure _
  | cons temp rest ih => exact .bind (.emit rfl) fun _ => .bind ih fun _ => .pure _

theorem straight_saveInGlobal {temp : VarId × Reg} : Straight (saveInGlobal temp) :=
  .bind (.look _) fun _ => .bind (.change _) fun _ => .bind (.emit rfl) fun _ => .pure _

theorem straight_park {saved : VarId × Reg × Nat} : Straight (park saved) :=
  .bind (.change _) fun _ => .bind (.change _) fun _ => straight_update

theorem straight_saveForCall : Straight saveForCall := by
  have last : ∀ save : CallSave, Straight (do
      save.saved.forM park
      Alloc.change fun a => { a with calls := save :: a.calls }) := fun _ =>
    .bind (.forM (fun _ => straight_park) _) fun _ => .change _
  refine .bind (.mapM (fun _ => straight_leaveForCall) _) fun _ => .bind (.look _) fun _ => .ite ?_ ?_
  · exact .bind (.emit rfl) fun _ => .bind (.change _) fun _ => .bind (.emit rfl) fun _ =>
      .bind straight_saveOnStack fun _ => last _
  · exact .bind (.mapM (fun _ => straight_saveInGlobal) _) fun _ => last _

theorem straight_unpark {base : Reg} {saved : VarId × Reg × Nat} : Straight (unpark base saved) :=
  .bind (.emit rfl) fun _ => straight_bindTo

theorem straight_restoreAfterCall : Straight restoreAfterCall := by
  refine .bind (.look _) fun calls => ?_
  split
  · exact .throw _
  · exact .bind (.change _) fun _ => .bind (.forM (fun _ => straight_unpark) _) fun _ =>
      .ite (.bind (.emit rfl) fun _ => .bind (.emit rfl) fun _ => .change _) (.pure _)

end SmallC.Alloc
