import SmallC.Proofs.Allocation.Surroundings

/-!
Where registers are written back to. A named variable whose register is newer than its memory has a home, and so has one
that comes back to such a register at the end of a function body. An array has none. So nothing but noting that an array
was written breaks this, and as long as it holds, whatever is newer can be written back.
-/
namespace SmallC

open Alloc

/-- What becomes of a variable: where it has a name, it has a home, or it had a name before and has the home that it had,
and its register is not newer than before. -/
def Variable.Settles (v v' : Variable) : Prop :=
  v'.isTemp = false → v'.home.isSome = true ∨
    (v.isTemp = false ∧ v'.home = v.home ∧ (v'.isDirty = true → v.isDirty = true))

namespace Allocator

/-- Named variables that come back to registers which are newer than their homes have homes. -/
def Rebindable (bindings : List (VarId × Reg × Bool)) (a : Allocator) : Prop :=
  ∀ id r v, (id, r, true) ∈ bindings → a.var? id = some v → v.isTemp = false → v.home.isSome = true

/-- Named variables in registers that are newer than their homes have homes. -/
structure Homed (a : Allocator) : Prop where
  dirty : ∀ {id v}, a.var? id = some v → v.isTemp = false → v.isDirty = true → v.home.isSome = true
  outside : ∀ {o}, a.outside = some o → a.Rebindable o.bindings
  introduced : ∀ {o id r}, a.outside = some o → (id, r, true) ∈ o.bindings → id < a.vars.size

variable {a a' : Allocator} {bindings : List (VarId × Reg × Bool)}

theorem Rebindable.mono (rebindable : a.Rebindable bindings)
    (vars : ∀ {id r v'}, (id, r, true) ∈ bindings → a'.var? id = some v' → ∃ v, a.var? id = some v ∧ v.Settles v') :
    a'.Rebindable bindings := by
  intro id r v' member known isNamed
  obtain ⟨v, found, settles⟩ := vars member known
  obtain has | ⟨wasNamed, home, -⟩ := settles isNamed
  · exact has
  · rw [home]
    exact rebindable id r v member found wasNamed

/-- Variables stay homed whatever becomes of them, as long as they settle, and new ones are. -/
theorem Homed.mono (homed : Homed a) (size : a.vars.size ≤ a'.vars.size) (outside : a'.outside = a.outside)
    (vars : ∀ {id v'}, a'.var? id = some v' → (∃ v, a.var? id = some v ∧ v.Settles v') ∨
      a.vars.size ≤ id ∧ (v'.isTemp = false → v'.isDirty = true → v'.home.isSome = true)) : Homed a' where
  dirty known isNamed dirty := by
    obtain ⟨v, found, settles⟩ | ⟨-, has⟩ := vars known
    · obtain has | ⟨wasNamed, home, wasDirty⟩ := settles isNamed
      · exact has
      · rw [home]
        exact homed.dirty found wasNamed (wasDirty dirty)
    · exact has isNamed dirty
  outside gone := (homed.outside (outside.symm.trans gone)).mono fun member known =>
    (vars known).resolve_right fun new =>
      Nat.not_lt.2 new.1 (homed.introduced (outside.symm.trans gone) member)
  introduced gone member := (homed.introduced (outside.symm.trans gone) member).trans_le size

theorem Homed.congr (homed : Homed a) (vars : a'.vars = a.vars) (outside : a'.outside = a.outside) : Homed a' :=
  homed.mono (Nat.le_of_eq (congrArg Array.size vars.symm)) outside fun {id v'} known =>
    .inl ⟨v', by rwa [var?, vars] at known, fun isNamed => .inr ⟨isNamed, rfl, fun dirty => dirty⟩⟩

end Allocator

namespace Alloc

open Allocator

/-- An operation that leaves variables homed, whatever state it runs in. -/
def Homing {α : Type} (act : Alloc α) : Prop :=
  ∀ w x w', Ran act w x w' → Homed w.allocator → Homed w'.allocator

namespace Homing

variable {α β : Type} {act other : Alloc α}

theorem pure (x : α) : Homing (Pure.pure x : Alloc α) := by
  intro w y w' ran homed
  obtain ⟨-, rfl⟩ := ran_pure.1 ran
  exact homed

theorem throw (e : AllocatorFault) : Homing (MonadExcept.throw e : Alloc α) :=
  fun _ _ _ ran => (ran_throw.1 ran).elim

theorem bind {f : α → Alloc β} (first : Homing act) (rest : ∀ x, Homing (f x)) : Homing (act >>= f) := by
  intro w y w' ran homed
  obtain ⟨x, mid, ran, ran'⟩ := ran_bind.1 ran
  exact rest x mid y w' ran' (first w x mid ran homed)

theorem map {f : α → β} (homing : Homing act) : Homing (f <$> act) := by
  rw [← bind_pure_comp]
  exact homing.bind fun _ => .pure _

theorem ite {c : Prop} [Decidable c] (yes : Homing act) (no : Homing other) : Homing (if c then act else other) := by
  split
  · exact yes
  · exact no

theorem look (f : Allocator → α) : Homing (Alloc.look f) := by
  intro w x w' ran homed
  obtain ⟨-, rfl⟩ := ran_look.1 ran
  exact homed

theorem emit (i : MachineInstr) : Homing (Alloc.emit i) := by
  intro w x w' ran homed
  rw [ran_emit.1 ran]
  exact homed

/-- A change that concerns neither variables nor what was put aside for the length of a function body. -/
theorem aside {f : Allocator → Allocator} (vars : ∀ a, (f a).vars = a.vars) (outside : ∀ a, (f a).outside = a.outside) :
    Homing (Alloc.change f) := by
  intro w x w' ran homed
  rw [ran_change.1 ran]
  exact homed.congr (vars _) (outside _)

theorem forM {f : α → Alloc Unit} (pass : ∀ x, Homing (f x)) (xs : List α) : Homing (xs.forM f) :=
  fun _ _ _ ran homed => Ran.forM ran (P := fun mid => Homed mid.allocator) homed fun y _ mid mid' homed ran =>
    pass y mid () mid' ran homed

theorem mapM {f : α → Alloc β} (pass : ∀ x, Homing (f x)) (xs : List α) : Homing (xs.mapM f) :=
  fun _ _ _ ran homed => Ran.mapM ran (P := fun mid => Homed mid.allocator) homed fun y _ mid z mid' homed ran =>
    pass y mid z mid' ran homed

end Homing

variable {id : VarId} {r : Reg} {name temp : String} {home : Home} {v : Variable}

theorem homing_known : Homing (known id) := by
  intro w v w' ran homed
  obtain ⟨-, rfl⟩ := ran_known.1 ran
  exact homed

theorem homing_resolve : Homing (resolve name) := by
  intro w v w' ran homed
  obtain ⟨-, rfl⟩ := ran_resolve.1 ran
  exact homed

theorem homing_checkUnbound : Homing (checkUnbound name) := by
  intro w x w' ran homed
  obtain ⟨-, rfl⟩ := ran_checkUnbound.1 ran
  exact homed

theorem homing_addressOf : Homing (addressOf home) := by
  intro w x w' ran homed
  obtain ⟨-, rfl⟩ := ran_addressOf.1 ran
  exact homed

/-- Something else is known about one variable, which settles. -/
theorem homed_setVar {a : Allocator} {v' : Variable} (homed : Homed a) (found : a.var? id = some v)
    (settles : v.Settles v') : Homed (a.setVar id v') := by
  refine homed.mono (Nat.le_of_eq Array.size_setIfInBounds.symm) rfl fun {other u} known => .inl ?_
  rw [var?_setVar found] at known
  split at known
  · next same =>
    cases known
    exact ⟨v, same ▸ found, settles⟩
  · exact ⟨u, known, fun isNamed => .inr ⟨isNamed, rfl, fun dirty => dirty⟩⟩

theorem homing_update {f : Variable → Variable} (settles : ∀ v : Variable, v.Settles (f v)) : Homing (update id f) := by
  intro w x w' ran homed
  obtain ⟨v, found, rfl⟩ := ran_update.1 ran
  exact homed_setVar homed found (settles v)

/-- What is noted about a variable keeps its name, its home and whether its register is newer. -/
theorem homing_note {f : Variable → Variable} (isTemp : ∀ v, (f v).isTemp = v.isTemp) (home : ∀ v, (f v).home = v.home)
    (isDirty : ∀ v, (f v).isDirty = true → v.isDirty = true) : Homing (update id f) :=
  homing_update fun v isNamed => .inr ⟨(isTemp v).symm.trans isNamed, home v, isDirty v⟩

/-- A register is noted not to be newer than the home. -/
theorem homing_clean {f : Variable → Variable} (isTemp : ∀ v, (f v).isTemp = v.isTemp) (home : ∀ v, (f v).home = v.home)
    (clean : ∀ v, (f v).isDirty = false) : Homing (update id f) :=
  homing_note isTemp home fun v dirty => by
    rw [clean v] at dirty
    cases dirty

theorem homing_insert (has : v.isTemp = false → v.isDirty = true → v.home.isSome = true) : Homing (insert v) := by
  intro w x w' ran homed
  obtain ⟨-, rfl⟩ := ran_insert.1 ran
  have size : w.allocator.vars.size ≤ (w.allocator.addVar v).vars.size := by
    rw [addVar, Array.size_push]
    exact Nat.le_succ _
  refine homed.mono size rfl fun {other u} known => ?_
  rw [allocator_on, var?_addVar] at known
  split at known
  · next same =>
    cases known
    exact .inr ⟨Nat.le_of_eq same.symm, has⟩
  · exact .inl ⟨u, known, fun isNamed => .inr ⟨isNamed, rfl, fun dirty => dirty⟩⟩

theorem homing_forget : Homing (change fun a => { a with
    recency := a.recency.remove id, vars := a.vars.setIfInBounds id none }) := by
  intro w x w' ran homed
  rw [ran_change.1 ran]
  refine homed.mono (Nat.le_of_eq Array.size_setIfInBounds.symm) rfl fun {other u} known => ?_
  change (w.allocator.dropVar id).var? other = some u at known
  rw [var?_dropVar] at known
  split at known
  · cases known
  · exact .inl ⟨u, known, fun isNamed => .inr ⟨isNamed, rfl, fun dirty => dirty⟩⟩

/-! ### Traffic -/

theorem homing_hold : Homing (hold r) := .aside (fun _ => rfl) fun _ => rfl

theorem homing_releaseHolds : Homing releaseHolds := .aside (fun _ => rfl) fun _ => rfl

theorem homing_touch : Homing (touch id) := .aside (fun _ => rfl) fun _ => rfl

theorem homing_withdraw : Homing (withdraw r) := .aside (fun _ => rfl) fun _ => rfl

theorem homing_setOwner {tenant : Option VarId} : Homing (setOwner r tenant) := .aside (fun _ => rfl) fun _ => rfl

theorem homing_release : Homing (release r) :=
  .bind homing_setOwner fun _ => .aside (fun a => by split <;> rfl) fun a => by split <;> rfl

theorem homing_bindTo : Homing (bindTo id r) :=
  .bind homing_setOwner fun _ => .bind (homing_note (fun _ => rfl) (fun _ => rfl) fun _ dirty => dirty) fun _ =>
    .bind homing_touch fun _ => homing_hold

theorem homing_unbind : Homing (unbind id) := by
  refine .bind homing_known fun v => ?_
  split
  · exact .pure _
  · exact .bind (.aside (fun _ => rfl) fun _ => rfl) fun _ => .bind homing_release fun _ =>
      homing_clean (fun _ => rfl) (fun _ => rfl) fun _ => rfl

theorem homing_allocHome {words : Nat} : Homing (allocHome words) := by
  refine .bind (.look _) fun frame => ?_
  split
  · exact .bind (.aside (fun _ => rfl) fun _ => rfl) fun _ => .pure _
  · exact .bind (.look _) fun _ => .bind (.aside (fun _ => rfl) fun _ => rfl) fun _ => .pure _

theorem homing_writeBack : Homing (writeBack id r) := by
  refine .bind homing_known fun v => ?_
  split
  · exact .throw _
  · exact .bind homing_addressOf fun _ => .bind (.emit _) fun _ => homing_clean (fun _ => rfl) (fun _ => rfl) fun _ => rfl

theorem homing_ensureHome : Homing (ensureHome id) :=
  .bind homing_known fun _ => .ite (.bind homing_allocHome fun _ => homing_update fun _ _ => .inl rfl) (.pure _)

theorem homing_evict : Homing (evict id) := by
  refine .bind homing_known fun v => ?_
  have leave : ∀ r, Homing (do
      unbind id
      withdraw r
      return r) := fun r => .bind homing_unbind fun _ => .bind homing_withdraw fun _ => .pure _
  split
  · exact .throw _
  · refine .ite (.throw _) (.ite ?_ (.ite (.throw _) (.ite ?_ (leave _))))
    · exact .bind homing_ensureHome fun _ => .bind homing_writeBack fun _ => leave _
    · exact .bind homing_writeBack fun _ => leave _

theorem homing_take : Homing take := by
  refine .bind (.look _) fun free => ?_
  split
  · exact .bind homing_withdraw fun _ => .pure _
  · refine .bind (.look _) fun victim => ?_
    split
    · exact homing_evict
    · exact .throw _

theorem homing_load : Homing (load id r) := by
  have word : ∀ home, Homing (loadWord r home) := fun home => .bind homing_addressOf fun _ => .emit _
  refine .bind homing_known fun v => ?_
  split
  · exact .bind homing_addressOf fun _ => .emit _
  · exact word _
  · split
    · exact word _
    · exact .throw _
  · exact .throw _

/-! ### Variables -/

theorem homing_modifyLevel {depth : Allocator → Nat} {f : Level → Level} :
    Homing (change fun a => a.modifyLevel (depth a) f) :=
  .aside (fun a => by rw [modifyLevel_eq]) fun a => by rw [modifyLevel_eq]

theorem homing_addVariable {given : Option Reg} : Homing (addVariable name given) := by
  have last : ∀ r, Homing (do
      let home ← allocHome 1
      let depth ← look Allocator.depth
      let id ← insert { Variable.plain name false depth (some home) (.register r) with isDirty := true }
      Alloc.name name id
      bindTo id r
      return r) := fun _ =>
    .bind homing_allocHome fun _ => .bind (.look _) fun _ => .bind (homing_insert fun _ _ => rfl) fun _ =>
      .bind homing_modifyLevel fun _ => .bind homing_bindTo fun _ => .pure _
  refine .bind homing_checkUnbound fun _ => ?_
  cases given with
  | none => exact .bind homing_take fun r => last r
  | some s =>
    exact .bind (.look _) fun _ => .ite (.bind (.throw _) fun _ => .bind homing_withdraw fun _ => last s)
      (.bind homing_withdraw fun _ => last s)

theorem homing_declareVariable : Homing (declareVariable name) :=
  .bind homing_checkUnbound fun _ => .bind homing_allocHome fun _ => .bind (.look _) fun _ =>
    .bind (homing_insert fun _ _ => rfl) fun _ => homing_modifyLevel

theorem homing_setArray {size : Nat} : Homing (setArray name size) :=
  .bind homing_checkUnbound fun _ => .bind homing_allocHome fun _ => .bind (.look _) fun _ =>
    .bind (homing_insert nofun) fun _ => homing_modifyLevel

theorem homing_freshTemp : Homing freshTemp :=
  .bind (.look _) fun _ => .bind (.aside (fun _ => rfl) fun _ => rfl) fun _ => .pure _

theorem homing_addTempName : Homing (addTempName name id) := .aside (fun _ => rfl) fun _ => rfl

theorem homing_removeTempName : Homing (removeTempName name) := .aside (fun _ => rfl) fun _ => rfl

theorem homing_addTemp : Homing addTemp :=
  .bind homing_take fun _ => .bind homing_freshTemp fun _ => .bind (.look _) fun _ => .bind (homing_insert nofun) fun _ =>
    .bind homing_addTempName fun _ => .bind homing_bindTo fun _ => .pure _

/-- A temporary that gets a name gets a home with it. -/
theorem homing_renameTemp : Homing (renameTemp temp name) := by
  refine .bind homing_checkUnbound fun _ => .bind (.look _) fun found => ?_
  split
  · exact .throw _
  · refine .bind homing_known fun v => .bind ?_ fun adopted => ?_
    · unfold adoptedHome
      split
      · exact .bind homing_allocHome fun _ => .pure _
      · exact .pure _
      · exact .throw _
    · exact .bind homing_removeTempName fun _ => .bind (.look _) fun _ =>
        .bind (homing_update fun _ _ => .inl rfl) fun _ => .bind homing_modifyLevel fun _ =>
          .ite homing_touch (.pure _)

theorem homing_getRegister {modifies : Bool} : Homing (getRegister name modifies) := by
  refine .bind homing_resolve fun id => .bind homing_known fun v => ?_
  have use : ∀ r, Homing (do
      touch id
      hold r
      return r) := fun r => .bind homing_touch fun _ => .bind homing_hold fun _ => .pure _
  split
  · exact .ite (.bind homing_load fun _ => use _) (use _)
  · exact .bind homing_take fun _ => .bind homing_load fun _ => .bind homing_bindTo fun _ =>
      .bind (homing_clean (fun _ => rfl) (fun _ => rfl) fun _ => rfl) fun _ => .pure _

/-- A temporary has no name, so it may lose its home. -/
theorem homing_detachAsTemp : Homing (detachAsTemp name) :=
  .bind homing_getRegister fun _ => .bind homing_resolve fun _ => .bind homing_known fun _ =>
    .bind homing_modifyLevel fun _ => .bind homing_freshTemp fun _ =>
      .bind (homing_update fun _ isNamed => by cases isNamed) fun _ => .bind homing_addTempName fun _ =>
        .bind homing_hold fun _ => .pure _

theorem homing_drop : Homing (drop id) :=
  .bind homing_unbind fun _ => .bind homing_known fun _ => .ite (.bind homing_removeTempName fun _ => homing_forget)
    (.bind homing_modifyLevel fun _ => homing_forget)

theorem homing_removeIfTemp : Homing (removeIfTemp name) := by
  refine .bind (.look _) fun found => ?_
  split
  · exact homing_drop
  · exact .pure _

theorem homing_discardTemps : Homing discardTemps :=
  .bind (.look _) fun _ => .bind (.forM (fun _ => homing_drop) _) fun _ => .pure _

theorem homing_reserve : Homing (reserve r) := by
  have rest : Homing (do
      withdraw r
      if r.isPool then
        change fun a => { a with reserved := if r ∈ a.reserved then a.reserved else a.reserved ++ [r] }) :=
    .bind homing_withdraw fun _ => .ite (.aside (fun _ => rfl) fun _ => rfl) (.pure _)
  refine .bind (.look _) fun owned => ?_
  cases owned with
  | none => exact rest
  | some id =>
    exact .bind homing_hold fun _ => .bind homing_take fun _ => .bind (.emit _) fun _ => .bind homing_setOwner fun _ =>
      .bind homing_bindTo fun _ => rest

theorem homing_unreserveAll : Homing unreserveAll :=
  .bind (.look _) fun _ => .bind (.aside (fun _ => rfl) fun _ => rfl) fun _ =>
    .forM (fun _ => .bind (.look _) fun _ => .ite homing_release (.pure _)) _

theorem homing_knownAs : Homing (knownAs name) := .bind homing_resolve fun _ => homing_known

theorem homing_memoryAddress : Homing (memoryAddress name) := by
  refine .bind homing_resolve fun id => .bind homing_known fun v => ?_
  have reached : ∀ home, Homing (do
      update id fun v => { v with mustReload := true }
      addressOf home) := fun home =>
    .bind (homing_note (fun _ => rfl) (fun _ => rfl) fun _ dirty => dirty) fun _ => homing_addressOf
  split
  · exact homing_addressOf
  · exact .throw _
  · split
    · exact .bind homing_writeBack fun _ => reached _
    · exact reached _

theorem homing_arrayAddress : Homing (arrayAddress name) := by
  refine .bind homing_knownAs fun v => ?_
  split
  · exact homing_addressOf
  · exact .throw _

theorem homing_demote : Homing (demote name) := by
  refine .bind (.look _) fun found => ?_
  split
  · exact .aside (fun _ => rfl) fun _ => rfl
  · exact .pure _

/-- Notes about a variable that is looked up. -/
theorem homing_noteOf {f : Variable → Variable} (isTemp : ∀ v, (f v).isTemp = v.isTemp) (home : ∀ v, (f v).home = v.home)
    (isDirty : ∀ v, (f v).isDirty = true → v.isDirty = true) : Homing (do update (← resolve name) f) :=
  .bind homing_resolve fun _ => homing_note isTemp home isDirty

/-! ### Blocks, function bodies and calls -/

theorem homing_sendHome : Homing (sendHome r) := by
  refine .bind (.look _) fun owner => ?_
  split
  · exact .pure _
  · exact .bind homing_known fun _ => .ite (.pure _) (.ite (.bind homing_writeBack fun _ => homing_unbind) homing_unbind)

theorem homing_pin : Homing (pin id) := homing_note (fun _ => rfl) (fun _ => rfl) fun _ dirty => dirty

theorem homing_bringBack : Homing (bringBack id) :=
  .bind homing_known fun _ => .ite (.bind homing_take fun _ => .bind homing_load fun _ => .bind homing_bindTo fun _ =>
    homing_note (fun _ => rfl) (fun _ => rfl) fun _ dirty => dirty) (.pure _)

theorem homing_sync : Homing sync :=
  .bind (.forM (fun _ => homing_sendHome) _) fun _ => .bind (.look _) fun _ =>
    .bind (.forM (fun _ => homing_pin) _) fun _ => .forM (fun _ => homing_bringBack) _

theorem homing_pushLevel {hides : Bool} : Homing (pushLevel hides) := .aside (fun _ => rfl) fun _ => rfl

theorem homing_closeLevel {level : Level} : Homing (closeLevel level) :=
  .bind (.forM (fun _ => homing_drop) _) fun _ => .aside (fun _ => rfl) fun _ => rfl

theorem homing_popLevel : Homing popLevel := by
  refine .bind (.look _) fun inner => ?_
  split
  · exact .throw _
  · exact homing_closeLevel

theorem homing_sendRootHome : Homing (sendRootHome r) := by
  refine .bind (.look _) fun owner => ?_
  split
  · exact .pure _
  · refine .bind homing_known fun v => .ite ?_ (.pure _)
    split
    · exact homing_writeBack
    · exact .pure _

theorem homing_vacate : Homing (vacate r) := by
  refine .bind (.look _) fun owner => ?_
  split
  · exact .pure _
  · exact homing_unbind

/-- Registers that are put aside are newer than homes only where they were. -/
theorem homed_putAside {a : Allocator} (homed : Homed a)
    (isNamed : ∀ {r id v}, a.ownerOf r = some id → a.var? id = some v → v.isTemp = false) :
    Homed { a with outside := some a.putAside } := by
  have tenant : ∀ {id r}, (id, r, true) ∈ a.putAside.bindings → ∃ v, a.var? id = some v ∧ v.home.isSome = true := by
    intro id r member
    obtain ⟨s, -, binding⟩ := List.mem_filterMap.1 member
    simp only [Allocator.tenant?, Option.bind_eq_some_iff, Option.map_eq_some_iff, Prod.mk.injEq] at binding
    obtain ⟨other, owned, v, found, t, -, rfl, -, dirty⟩ := binding
    exact ⟨v, found, homed.dirty found (isNamed owned found) dirty⟩
  refine ⟨homed.dirty, fun {o} gone id r v member found _ => ?_, fun {o id r} gone member => ?_⟩
  · cases gone
    obtain ⟨u, found', has⟩ := tenant member
    cases found.symm.trans found'
    exact has
  · cases gone
    obtain ⟨u, found, -⟩ := tenant member
    exact var?_lt found

theorem homing_enterFunction : Homing enterFunction := by
  intro w x w' ran homed
  obtain ⟨-, isNamed, parted, unbound, rfl⟩ := ran_enterFunction_any ran
  exact (Homing.forM (fun _ => homing_unbind) _ _ _ _ unbound (homed_putAside homed isNamed)).congr rfl rfl

/-- What comes back to its register is newer than its home only where it was before. -/
theorem homed_rebind {a : Allocator} {bindings : List (VarId × Reg × Bool)} {isDirty : Bool} (homed : Homed a)
    (inside : a.outside = none) (rebindable : a.Rebindable bindings) (member : (id, r, isDirty) ∈ bindings)
    (found : a.var? id = some v) : Homed (rebound id r isDirty v a) ∧ (rebound id r isDirty v a).Rebindable bindings := by
  have vars := var?_setVar (a := a.setOwner r (some id)) found { v with storage := .register r, isDirty }
  refine ⟨⟨fun {other u} known isNamed dirty => ?_, fun gone => ?_, fun gone => ?_⟩, fun other s u member known isNamed => ?_⟩
  · rw [rebound, vars] at known
    split at known
    · cases known
      exact rebindable id r v (by rwa [show isDirty = true from dirty] at member) found isNamed
    · exact homed.dirty known isNamed dirty
  · cases inside.symm.trans gone
  · cases inside.symm.trans gone
  · rw [rebound, vars] at known
    split at known
    · next same =>
      cases known
      exact rebindable other s v member (same ▸ found) isNamed
    · exact rebindable other s u member known isNamed

theorem homed_rebindAll {bindings : List (VarId × Reg × Bool)} {w w' : Work} {x : Unit} (homed : Homed w.allocator)
    (inside : w.allocator.outside = none) (rebindable : w.allocator.Rebindable bindings)
    (ran : Ran (bindings.forM rebind) w x w') : Homed w'.allocator := by
  have all : Homed w'.allocator ∧ w'.allocator.outside = none ∧ w'.allocator.Rebindable bindings := by
    refine Ran.forM ran (P := fun mid => Homed mid.allocator ∧ mid.allocator.outside = none ∧
      mid.allocator.Rebindable bindings) ⟨homed, inside, rebindable⟩ ?_
    rintro ⟨id, r, isDirty⟩ member mid mid' ⟨homed, inside, rebindable⟩ ran
    obtain ⟨v, found, rfl⟩ := ran_rebind ran
    obtain ⟨homed', rebindable'⟩ := homed_rebind homed inside rebindable member found
    exact ⟨homed', inside, rebindable'⟩
  exact all.1

theorem homing_leaveFunction : Homing leaveFunction := by
  intro w n w' ran homed
  obtain ⟨sent, closed, vacated, dropped, k, outside, bound, sends, closes, vacates, drops, -, gone, rebinds, rfl⟩ :=
    ran_leaveFunction ran
  have homed₁ := Homing.forM (fun _ => homing_sendRootHome) _ _ _ _ sends homed
  have homed₂ := Homing.forM (fun _ => homing_closeLevel) _ _ _ _ closes homed₁
  have homed₃ := Homing.forM (fun _ => homing_vacate) _ _ _ _ vacates homed₂
  have homed₄ := homing_discardTemps _ _ _ drops homed₃
  have homed₅ : Homed bound.allocator := by
    refine homed_rebindAll ?_ rfl ?_ rebinds
    · exact ⟨homed₄.dirty, fun away => (by cases away), fun away => (by cases away)⟩
    · exact homed₄.outside gone
  exact homed₅.congr rfl rfl

theorem homing_pushWords {words : Int} : Homing (pushWords words) := .aside (fun _ => rfl) fun _ => rfl

theorem homing_popWords {words : Int} : Homing (popWords words) := .aside (fun _ => rfl) fun _ => rfl

theorem homing_leaveForCall : Homing (leaveForCall r) := by
  refine .bind (.look _) fun owner => ?_
  split
  · exact .pure _
  · refine .bind homing_known fun v => ?_
    split
    · exact .pure _
    · exact .ite (.pure _) (.ite (.bind homing_writeBack fun _ => .bind homing_unbind fun _ => .pure _)
        (.bind homing_unbind fun _ => .pure _))

theorem homing_saveOnStack {slot : Nat} (temps : List (VarId × Reg)) : Homing (saveOnStack slot temps) := by
  induction temps generalizing slot with
  | nil => exact .pure _
  | cons temp rest ih => exact .bind (.emit _) fun _ => .bind ih fun _ => .pure _

theorem homing_saveInGlobal {saved : VarId × Reg} : Homing (saveInGlobal saved) :=
  .bind (.look _) fun _ => .bind (.aside (fun _ => rfl) fun _ => rfl) fun _ => .bind (.emit _) fun _ => .pure _

theorem homing_park {saved : VarId × Reg × Nat} : Homing (park saved) :=
  .bind homing_setOwner fun _ => .bind (.aside (fun _ => rfl) fun _ => rfl) fun _ =>
    homing_note (fun _ => rfl) (fun _ => rfl) fun _ dirty => dirty

theorem homing_saveForCall : Homing saveForCall := by
  have parks : ∀ save : CallSave, Homing (do
      save.saved.forM park
      change fun a => { a with calls := save :: a.calls }) := fun _ =>
    .bind (.forM (fun _ => homing_park) _) fun _ => .aside (fun _ => rfl) fun _ => rfl
  refine .bind (.mapM (fun _ => homing_leaveForCall) _) fun temps => .bind (.look _) fun inside => .ite ?_ ?_
  · exact .bind (.emit _) fun _ => .bind homing_pushWords fun _ => .bind (.emit _) fun _ =>
      .bind (homing_saveOnStack _) fun _ => parks _
  · exact .bind (.mapM (fun _ => homing_saveInGlobal) _) fun _ => parks _

theorem homing_restoreAfterCall : Homing restoreAfterCall := by
  refine .bind (.look _) fun calls => ?_
  split
  · exact .throw _
  · exact .bind (.aside (fun _ => rfl) fun _ => rfl) fun _ =>
      .bind (.forM (fun _ => .bind (.emit _) fun _ => homing_bindTo) _) fun _ =>
        .ite (.bind (.emit _) fun _ => .bind (.emit _) fun _ => homing_popWords) (.pure _)

/-! ### Writing -/

theorem homed_prepareWrite {w w' : Work} (sound : Sound [] w.allocator) (homed : Homed w.allocator)
    (ran : Ran (prepareWrite name) w r w') : Homed w'.allocator := by
  obtain ⟨id, v, -, found, scalar, ⟨-, rfl⟩ | ⟨-, mid, u, took, known, rfl⟩⟩ := ran_prepareWrite ran
  · exact homed_setVar (a := w.allocator.used id r) (homed.congr rfl rfl) found fun isNamed =>
      .inl ((sound.fits found).home_of_scalar scalar isNamed)
  · have taken := takes sound took
    obtain ⟨u', known', same⟩ := taken.keeps.same found
    cases known.symm.trans known'
    have homed' := homing_take _ _ _ took homed
    have settles : u.Settles { u with storage := .register r, isDirty := true } := fun isNamed =>
      .inl ((taken.sound.fits known).home_of_scalar (same.array.trans scalar) isNamed)
    exact (homed_setVar homed' known settles).congr (vars_setVar_setVar _ _) rfl

theorem homed_markWritten {w w' : Work} {x : Unit} (sound : Sound [] w.allocator) (homed : Homed w.allocator)
    (scalar : ∀ id v, w.allocator.find? name = some id → w.allocator.var? id = some v → v.array = none)
    (ran : Ran (markWritten name) w x w') : Homed w'.allocator := by
  obtain ⟨id, v, named, found, ⟨-, rfl⟩ | ⟨-, mid, rfl, written⟩⟩ := ran_markWritten ran
  · exact homed
  · have homed' : Homed (w.allocator.setVar id { v with isDirty := true }) := homed_setVar homed found fun isNamed =>
      .inl ((sound.fits found).home_of_scalar (scalar id v named found) isNamed)
    obtain ⟨s, -, -, wrote⟩ | ⟨-, rfl⟩ := written
    · exact homing_writeBack _ _ _ wrote homed'
    · exact homed'

end Alloc

namespace Operation

/-- An operation does not note that an array was written. -/
def SparesArrays (a : Allocator) : Operation → Prop
  | markWritten name => ∀ id v, a.find? name = some id → a.var? id = some v → v.array = none
  | _ => True

end Operation

namespace Alloc

open Allocator

variable {w w' : Work}

/-- Operations leave variables homed unless they note that an array was written. -/
theorem homed_operation (op : Operation) (sound : Sound [] w.allocator) (spares : op.SparesArrays w.allocator)
    (homed : Homed w.allocator) (ran : Ran op.act w () w') : Homed w'.allocator := by
  have leaves : ∀ {act : Alloc Unit}, Ran act w () w' → Homing act → Homed w'.allocator := fun ran homing =>
    homing w () w' ran homed
  cases op with
  | addVariable name given => exact leaves ran homing_addVariable.map
  | declareVariable name => exact leaves ran homing_declareVariable
  | addTemp => exact leaves ran homing_addTemp.map
  | renameTemp temp name => exact leaves ran homing_renameTemp
  | detachAsTemp name => exact leaves ran homing_detachAsTemp.map
  | getRegister name modifies => exact leaves ran homing_getRegister.map
  | prepareWrite name =>
    obtain ⟨r, ran, -⟩ := ran_map.1 ran
    exact homed_prepareWrite sound homed ran
  | markWritten name => exact homed_markWritten sound homed spares ran
  | remove name => exact leaves ran (.bind homing_resolve fun _ => homing_drop)
  | removeIfTemp name => exact leaves ran homing_removeIfTemp
  | discardTemps => exact leaves ran homing_discardTemps.map
  | reserve r => exact leaves ran homing_reserve
  | unreserveAll => exact leaves ran homing_unreserveAll
  | setArray name size => exact leaves ran homing_setArray
  | arrayAddress name => exact leaves ran homing_arrayAddress.map
  | setDims name dims => exact leaves ran (homing_noteOf (fun _ => rfl) (fun _ => rfl) fun _ dirty => dirty)
  | dims name => exact leaves ran (Homing.bind homing_knownAs fun _ => .pure _).map
  | memoryAddress name => exact leaves ran homing_memoryAddress.map
  | setMustReload name => exact leaves ran (homing_noteOf (fun _ => rfl) (fun _ => rfl) fun _ dirty => dirty)
  | setKind name kind => exact leaves ran (homing_noteOf (fun _ => rfl) (fun _ => rfl) fun _ dirty => dirty)
  | kind name => exact leaves ran (Homing.bind homing_knownAs fun _ => .pure _).map
  | setRefs name refs => exact leaves ran (homing_noteOf (fun _ => rfl) (fun _ => rfl) fun _ dirty => dirty)
  | refs name => exact leaves ran (Homing.bind homing_knownAs fun _ => .pure _).map
  | setAlias name target => exact leaves ran (.bind homing_resolve fun _ => homing_modifyLevel)
  | removeAlias name => exact leaves ran homing_modifyLevel
  | demote name => exact leaves ran homing_demote
  | hold r => exact leaves ran homing_hold
  | releaseHolds => exact leaves ran homing_releaseHolds
  | sync => exact leaves ran homing_sync
  | pushLevel hidesOuter => exact leaves ran homing_pushLevel
  | popLevel => exact leaves ran homing_popLevel
  | enterFunction => exact leaves ran homing_enterFunction
  | leaveFunction => exact leaves ran homing_leaveFunction.map
  | pushWords words => exact leaves ran homing_pushWords
  | popWords words => exact leaves ran homing_popWords
  | saveForCall => exact leaves ran homing_saveForCall
  | restoreAfterCall => exact leaves ran homing_restoreAfterCall

end Alloc

namespace Allocator

variable {a : Allocator}

/-- The states that the generator of code reaches without noting that an array was written. -/
abbrev ReachedSparing (a : Allocator) : Prop := Goes (fun a op => op.Permitted a ∧ op.SparesArrays a) initial a

theorem ReachedSparing.reached (sparing : ReachedSparing a) : Reached a := by
  induction sparing with
  | refl => exact .initial
  | step op _ may ran ih => exact .step op ih may.1 ran

/-- However operations follow one another, as long as no array is written, what is newer has a home. -/
theorem ReachedSparing.homed (sparing : ReachedSparing a) : Homed a := by
  induction sparing with
  | refl => exact ⟨fun {id v} found => (by cases found), fun gone => (by cases gone), fun gone => (by cases gone)⟩
  | step op goes may ran ih => exact homed_operation op (ReachedSparing.reached goes).inOrder.sound may.2 ih ran

end Allocator

end SmallC
