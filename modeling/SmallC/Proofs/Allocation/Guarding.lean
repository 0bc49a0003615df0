import SmallC.Proofs.Allocation.Doing
import SmallC.Proofs.Allocation.Standing

/-!
Registers that are held. Whatever an operation does on the way, and whether or not it succeeds, it writes no register
that was held when it began and gives none to a variable. This is a matter of the basic changes that operations are made
of: a register is taken among those that are not held, for a new variable, for one that is loaded and for one that has to
go elsewhere. So it needs nothing to be in order, and it is proved along the way operations are put together. The only
instruction that writes a register which is held loads a variable that a pointer may have changed to where it is.
-/
namespace SmallC

open Alloc

/-- The instruction loads a variable that a pointer may have changed into the register that the variable is in. -/
def Allocator.Reloads (a : Allocator) (r : Reg) (i : MachineInstr) : Prop :=
  ∃ id v, a.var? id = some v ∧ v.storage = .register r ∧ v.mustReload = true ∧ v.LoadedBy a r i

/-- The operations that come between the reading of operands and the release of their registers. -/
def Operation.KeepsHolds : Operation → Prop
  | .addVariable _ given => given = none
  | .addTemp | .detachAsTemp _ | .getRegister _ _ | .prepareWrite _ | .remove _ | .removeIfTemp _ | .sync | .reserve _ =>
    True
  | _ => False

namespace Alloc

variable {α β : Type} {kept : List Reg} {E : Reg → MachineInstr → Prop} {w w' mid : Work} {act other : Alloc α}
  {A : α → Prop} {B : β → Prop}

/-- The work that an operation leaves behind, whether it succeeds or not. -/
def behind (act : Alloc α) (w : Work) : Work :=
  match act.run w with
  | .ok _ w' => w'
  | .error _ w' => w'

/-- Work that guards registers: they are still held, no instruction writes them apart from exceptions, and none of
them has come to a variable. -/
structure Guards (kept : List Reg) (E : Reg → MachineInstr → Prop) (w w' : Work) : Prop where
  held : kept ⊆ w'.allocator.held
  emits : ∃ code, w'.code.toList = w.code.toList ++ code ∧ ∀ i ∈ code, ∀ r ∈ kept, i.written? = some r → E r i
  owner : ∀ r ∈ kept, ∀ id, w'.allocator.ownerOf r = some id → w.allocator.ownerOf r = some id

namespace Guards

theorem refl (held : kept ⊆ w.allocator.held) : Guards kept E w w :=
  ⟨held, ⟨[], (List.append_nil _).symm, nofun⟩, fun _ _ _ owned => owned⟩

theorem trans (first : Guards kept E w mid) (second : Guards kept E mid w') : Guards kept E w w' := by
  obtain ⟨code, emitted, apart⟩ := first.emits
  obtain ⟨more, emitted', apart'⟩ := second.emits
  refine ⟨second.held, ⟨code ++ more, by rw [emitted', emitted, List.append_assoc], ?_⟩, fun r member id owned =>
    first.owner r member id (second.owner r member id owned)⟩
  exact List.forall_mem_append.2 ⟨apart, apart'⟩

end Guards

/-- Where a state holds the registers, an operation guards them, and its answer is as said. -/
def GuardsFrom (kept : List Reg) (E : Reg → MachineInstr → Prop) (w : Work) (act : Alloc α) (A : α → Prop) : Prop :=
  kept ⊆ w.allocator.held → Guards kept E w (behind act w) ∧ ∀ x w', Ran act w x w' → A x

/-- An operation that guards registers in whatever state it runs. -/
def Guarding (kept : List Reg) (E : Reg → MachineInstr → Prop) (act : Alloc α) (A : α → Prop) : Prop :=
  ∀ w, GuardsFrom kept E w act A

/-- Any answer will do. -/
abbrev Any : α → Prop := fun _ => True

namespace GuardsFrom

theorem pure {x : α} (answer : A x) : GuardsFrom kept E w (Pure.pure x) A :=
  fun held => ⟨.refl held, fun _ _ ran => (ran_pure.1 ran).1 ▸ answer⟩

theorem throw (e : AllocatorFault) : GuardsFrom kept E w (MonadExcept.throw e : Alloc α) A :=
  fun held => ⟨.refl held, fun _ _ ran => (ran_throw.1 ran).elim⟩

/-- What an operation does that is one after another. -/
theorem behind_bind (act : Alloc α) (f : α → Alloc β) (w : Work) :
    (∃ x mid, Ran act w x mid ∧ behind act w = mid ∧ behind (act >>= f) w = behind (f x) mid) ∨
      behind (act >>= f) w = behind act w := by
  cases first : act.run w with
  | ok x mid =>
    refine .inl ⟨x, mid, first, ?_, ?_⟩
    · rw [behind, first]
    · change (match EStateM.bind act f w with | .ok _ w' => w' | .error _ w' => w') = _
      rw [EStateM.bind, show act w = .ok x mid from first]
      rfl
  | error e mid =>
    refine .inr ?_
    change (match EStateM.bind act f w with | .ok _ w' => w' | .error _ w' => w') = _
    rw [EStateM.bind, show act w = .error e mid from first, behind, first]

theorem bind {f : α → Alloc β} (first : GuardsFrom kept E w act A)
    (rest : ∀ x mid, Ran act w x mid → A x → GuardsFrom kept E mid (f x) B) : GuardsFrom kept E w (act >>= f) B := by
  intro held
  obtain ⟨guards, answers⟩ := first held
  constructor
  · obtain ⟨x, mid, ran, there, same⟩ | same := behind_bind act f w
    · rw [same]
      rw [there] at guards
      exact guards.trans (rest x mid ran (answers x mid ran) guards.held).1
    · rw [same]
      exact guards
  · intro y w' ran
    obtain ⟨x, mid, ran, ran'⟩ := ran_bind.1 ran
    have there : behind act w = mid := by rw [behind, show act.run w = .ok x mid from ran]
    rw [there] at guards
    exact (rest x mid ran (answers x mid ran) guards.held).2 y w' ran'

/-- What is read off a state is that of the state the rest runs in. -/
theorem look {f : Allocator → α} {g : α → Alloc β} (rest : GuardsFrom kept E w (g (f w.allocator)) B) :
    GuardsFrom kept E w (Alloc.look f >>= g) B :=
  bind (A := Any) (fun held => ⟨.refl held, fun _ _ _ => trivial⟩) fun x mid ran _ => by
    obtain ⟨rfl, rfl⟩ := ran_look.1 ran
    exact rest

theorem emit {i : MachineInstr} (allowed : ∀ r ∈ kept, i.written? = some r → E r i) :
    GuardsFrom kept E w (Alloc.emit i) Any := by
  refine fun held => ⟨⟨held, ⟨[i], Array.toList_push, ?_⟩, fun _ _ _ owned => owned⟩, fun _ _ _ => trivial⟩
  exact List.forall_mem_singleton.2 allowed

theorem known {id : VarId} {g : Variable → Alloc β}
    (rest : ∀ v, w.allocator.var? id = some v → GuardsFrom kept E w (g v) B) :
    GuardsFrom kept E w (Alloc.known id >>= g) B := by
  refine bind (A := Any) ?_ fun v mid ran _ => ?_
  · refine look ?_
    cases w.allocator.var? id with
    | some v => exact .pure trivial
    | none => exact .throw _
  · obtain ⟨found, rfl⟩ := ran_known.1 ran
    exact rest v found

end GuardsFrom

namespace Guarding

theorem pure {x : α} (answer : A x) : Guarding kept E (Pure.pure x) A := fun _ => .pure answer

theorem throw (e : AllocatorFault) : Guarding kept E (MonadExcept.throw e : Alloc α) A := fun _ => .throw e

theorem bind {f : α → Alloc β} (first : Guarding kept E act A) (rest : ∀ x, A x → Guarding kept E (f x) B) :
    Guarding kept E (act >>= f) B :=
  fun w => (first w).bind fun x mid _ answer => rest x answer mid

theorem ite {c : Prop} [Decidable c] (yes : Guarding kept E act A) (no : Guarding kept E other A) :
    Guarding kept E (if c then act else other) A := by
  split
  · exact yes
  · exact no

theorem look (f : Allocator → α) : Guarding kept E (Alloc.look f) Any :=
  fun _ held => ⟨.refl held, fun _ _ _ => trivial⟩

theorem change {f : Allocator → Allocator} (held : ∀ a, kept ⊆ a.held → kept ⊆ (f a).held)
    (owner : ∀ a, ∀ r ∈ kept, ∀ id, (f a).ownerOf r = some id → a.ownerOf r = some id) :
    Guarding kept E (Alloc.change f) Any :=
  fun w holds => ⟨⟨held w.allocator holds, ⟨[], (List.append_nil _).symm, nofun⟩, owner w.allocator⟩, fun _ _ _ => trivial⟩

/-- A change that has nothing to do with registers. -/
theorem aside {f : Allocator → Allocator} (held : ∀ a, (f a).held = a.held) (owner : ∀ a, (f a).owner = a.owner) :
    Guarding kept E (Alloc.change f) Any :=
  .change (fun a holds => by rw [held]; exact holds) fun a r _ id owned => by
    rwa [Allocator.ownerOf, owner] at owned

theorem emit {i : MachineInstr} (apart : ∀ r, i.written? = some r → r ∉ kept) : Guarding kept E (Alloc.emit i) Any :=
  fun _ => .emit fun r within written => absurd within (apart r written)

theorem forM {f : α → Alloc Unit} (pass : ∀ x, Guarding kept E (f x) Any) (xs : List α) :
    Guarding kept E (xs.forM f) Any := by
  induction xs with
  | nil => exact .pure trivial
  | cons x xs ih => exact .bind (pass x) fun _ _ => ih

end Guarding

variable {id : VarId} {r : Reg} {name : String} {home : Home}

theorem guarding_known : Guarding kept E (known id) Any := by
  refine .bind (.look _) fun found _ => ?_
  split
  · exact .pure trivial
  · exact .throw _

theorem guarding_resolve : Guarding kept E (resolve name) Any := by
  refine .bind (.look _) fun found _ => ?_
  split
  · exact .pure trivial
  · exact .throw _

theorem guarding_update {f : Variable → Variable} : Guarding kept E (update id f) Any :=
  .bind guarding_known fun _ _ => .aside (fun _ => rfl) fun _ => rfl

theorem guarding_hold : Guarding kept E (hold r) Any :=
  .change (fun _ held s member => held_hold r s (held member)) fun _ _ _ _ owned => owned

theorem guarding_touch : Guarding kept E (touch id) Any := .aside (fun _ => rfl) fun _ => rfl

theorem guarding_withdraw : Guarding kept E (withdraw r) Any := .aside (fun _ => rfl) fun _ => rfl

/-- A register that is guarded may lose its variable. -/
theorem guarding_setOwner_none : Guarding kept E (setOwner r none) Any :=
  .change (fun _ held => held) fun a s _ id owned => by
    change (Allocator.setOwner a r none).ownerOf s = some id at owned
    rw [Allocator.ownerOf_setOwner] at owned
    split at owned
    · cases owned
    · exact owned

theorem guarding_setOwner (apart : r ∉ kept) : Guarding kept E (setOwner r (some id)) Any :=
  .change (fun _ held => held) fun a s within id' owned => by
    change (Allocator.setOwner a r (some id)).ownerOf s = some id' at owned
    have other : s ≠ r := fun same => apart (same ▸ within)
    rwa [Allocator.ownerOf_setOwner, if_neg other] at owned

theorem guarding_release : Guarding kept E (release r) Any :=
  .bind guarding_setOwner_none fun _ _ => .aside (fun a => by split <;> rfl) fun a => by split <;> rfl

theorem guarding_bindTo (apart : r ∉ kept) : Guarding kept E (bindTo id r) Any :=
  .bind (guarding_setOwner apart) fun _ _ => .bind guarding_update fun _ _ => .bind guarding_touch fun _ _ => guarding_hold

theorem guarding_unbind : Guarding kept E (unbind id) Any := by
  refine .bind guarding_known fun v _ => ?_
  split
  · exact .pure trivial
  · exact .bind (.aside (fun _ => rfl) fun _ => rfl) fun _ _ => .bind guarding_release fun _ _ => guarding_update

theorem guarding_allocHome {words : Nat} : Guarding kept E (allocHome words) Any := by
  refine .bind (.look _) fun frame _ => ?_
  split
  · exact .bind (.aside (fun _ => rfl) fun _ => rfl) fun _ _ => .pure trivial
  · exact .bind (.look _) fun _ _ => .bind (.aside (fun _ => rfl) fun _ => rfl) fun _ _ => .pure trivial

theorem guarding_addressOf : Guarding kept E (addressOf home) Any := by
  unfold addressOf
  split
  · exact .pure trivial
  · exact .bind (.look _) fun _ _ => .ite (.bind (.look _) fun _ _ => .pure trivial)
      (.throw _)

theorem guarding_writeBack : Guarding kept E (writeBack id r) Any := by
  refine .bind guarding_known fun v _ => ?_
  split
  · exact .throw _
  · exact .bind guarding_addressOf fun _ _ => .bind (.emit nofun) fun _ _ => guarding_update

theorem guarding_ensureHome : Guarding kept E (ensureHome id) Any :=
  .bind guarding_known fun _ _ => .ite (.bind guarding_allocHome fun _ _ => guarding_update) (.pure trivial)

/-! ### Taking registers -/

/-- The register of a variable is taken, which is none of those that are guarded. -/
theorem guardsFrom_evict (apart : ∀ v r, w.allocator.var? id = some v → v.storage.register? = some r → r ∉ kept) :
    GuardsFrom kept E w (evict id) (· ∉ kept) := by
  have leave : ∀ r, r ∉ kept → Guarding kept E (do
      unbind id
      withdraw r
      return r) (· ∉ kept) := fun r apart =>
    .bind guarding_unbind fun _ _ => .bind guarding_withdraw fun _ _ => .pure apart
  refine .known fun v found => ?_
  cases there : v.storage.register? with
  | none => exact .throw _
  | some r =>
    have leaves := leave r (apart v r found there)
    refine Guarding.ite (.throw _) (.ite ?_ (.ite (.throw _) (.ite ?_ leaves))) w
    · exact .bind guarding_ensureHome fun _ _ => .bind guarding_writeBack fun _ _ => leaves
    · exact .bind guarding_writeBack fun _ _ => leaves

/-- Whoever is chosen to leave a register is in one that is not held. -/
theorem loose_of_victim {a : Allocator} {eligible : Variable → Bool} (chosen : victim? a eligible = some id) {v : Variable}
    (found : a.var? id = some v) (there : v.storage.register? = some r) : r ∉ a.held := by
  have suits := List.find?_some chosen
  simp only [found, there, Option.any_some, Bool.and_eq_true, decide_eq_true_eq] at suits
  exact suits.2.2

theorem guarding_take : Guarding kept E take (· ∉ kept) := by
  intro w held
  refine GuardsFrom.look ?_ held
  cases free : w.allocator.free.find? (· ∉ w.allocator.held) with
  | some r =>
    have loose : r ∉ w.allocator.held := by simpa using List.find?_some free
    have apart : r ∉ kept := fun within => loose (held within)
    exact Guarding.bind (B := (· ∉ kept)) guarding_withdraw (fun _ _ => .pure apart) w
  | none =>
    refine .look ?_
    cases chosen : chooseVictim? w.allocator with
    | none => exact .throw _
    | some id =>
      refine guardsFrom_evict fun v r found there within => ?_
      simp only [chooseVictim?, Option.orElse_eq_orElse, Option.orElse_eq_or] at chosen
      obtain first | ⟨-, second⟩ := Option.or_eq_some_iff.1 chosen
      · exact loose_of_victim first found there (held within)
      · exact loose_of_victim second found there (held within)

theorem guarding_loadWord (apart : r ∉ kept) : Guarding kept E (loadWord r home) Any :=
  .bind guarding_addressOf fun _ _ => .emit fun s written => by
    cases written
    exact apart

theorem guarding_load (apart : r ∉ kept) : Guarding kept E (load id r) Any := by
  refine .bind guarding_known fun v _ => ?_
  split
  · exact .bind guarding_addressOf fun _ _ => .emit fun s written => by
      cases written
      exact apart
  · exact guarding_loadWord apart
  · split
    · exact guarding_loadWord apart
    · exact .throw _
  · exact .throw _

/-! ### Operations -/

theorem guarding_checkUnbound : Guarding kept E (checkUnbound name) Any :=
  .bind (.look _) fun _ _ => .ite (.throw _) (.pure trivial)

theorem guarding_insert {v : Variable} : Guarding kept E (insert v) Any :=
  .bind (.look _) fun _ _ => .bind (.aside (fun _ => rfl) fun _ => rfl) fun _ _ => .pure trivial

theorem guarding_modifyLevel (depth : Allocator → Nat) (f : Level → Level) :
    Guarding kept E (change fun a => a.modifyLevel (depth a) f) Any :=
  .aside (fun _ => Allocator.held_modifyLevel _ _) fun a => by rw [Allocator.modifyLevel_eq]

theorem guarding_name : Guarding kept E (Alloc.name name id) Any := guarding_modifyLevel Allocator.depth _

theorem guarding_addVariable : Guarding kept E (addVariable name none) Any :=
  .bind guarding_checkUnbound fun _ _ => .bind guarding_take fun _ apart => .bind guarding_allocHome fun _ _ =>
    .bind (.look _) fun _ _ => .bind guarding_insert fun _ _ => .bind guarding_name fun _ _ =>
      .bind (guarding_bindTo apart) fun _ _ => .pure trivial

theorem guarding_freshTemp : Guarding kept E freshTemp Any :=
  .bind (.look _) fun _ _ => .bind (.aside (fun _ => rfl) fun _ => rfl) fun _ _ => .pure trivial

theorem guarding_addTempName : Guarding kept E (addTempName name id) Any := .aside (fun _ => rfl) fun _ => rfl

theorem guarding_removeTempName : Guarding kept E (removeTempName name) Any := .aside (fun _ => rfl) fun _ => rfl

theorem guarding_addTemp : Guarding kept E addTemp Any :=
  .bind guarding_take fun _ apart => .bind guarding_freshTemp fun _ _ => .bind (.look _) fun _ _ =>
    .bind guarding_insert fun _ _ => .bind guarding_addTempName fun _ _ => .bind (guarding_bindTo apart) fun _ _ =>
      .pure trivial

/-- Loading a variable anew where it is. -/
theorem guardsFrom_reload {v : Variable} (found : w.allocator.var? id = some v) (there : v.storage = .register r)
    (reloads : v.mustReload = true) : GuardsFrom kept w.allocator.Reloads w (load id r) Any := by
  have loads : ∀ {i : MachineInstr}, i.written? = some r → v.LoadedBy w.allocator r i →
      GuardsFrom kept w.allocator.Reloads w (emit i) Any := fun {i} writes loaded => .emit fun s _ written => by
    cases writes.symm.trans written
    exact ⟨id, v, found, there, reloads, loaded⟩
  refine .known fun u found' => ?_
  cases found.symm.trans found'
  rw [there]
  cases array : v.array with
  | some home =>
    refine .bind (guarding_addressOf w) fun address mid ran _ => ?_
    obtain ⟨known, rfl⟩ := ran_addressOf.1 ran
    exact loads rfl (.address array known)
  | none =>
    cases has : v.home with
    | some home =>
      refine .bind (guarding_addressOf w) fun address mid ran _ => ?_
      obtain ⟨known, rfl⟩ := ran_addressOf.1 ran
      exact loads rfl (.word array (.inr ⟨⟨r, there⟩, has⟩) known)
    | none => exact .throw _

/-- Reading a variable may load it anew where it is; apart from that it guards registers. -/
theorem guardsFrom_getRegister {modifies : Bool} :
    GuardsFrom kept w.allocator.Reloads w (getRegister name modifies) Any := by
  have use : ∀ id r, Guarding kept w.allocator.Reloads (do
      touch id
      hold r
      return r) Any := fun _ _ => .bind guarding_touch fun _ _ => .bind guarding_hold fun _ _ => .pure trivial
  refine .bind (guarding_resolve w) fun id mid ran _ => ?_
  obtain ⟨-, rfl⟩ := ran_resolve.1 ran
  refine .known fun v found => ?_
  cases there : v.storage with
  | register r =>
    by_cases anew : modifies = true ∧ v.mustReload = true ∧ ¬ v.isDirty = true
    · simp only [Storage.register?, if_pos anew]
      exact .bind (guardsFrom_reload found there anew.2.1) fun _ mid _ _ => use id r mid
    · simp only [Storage.register?, if_neg anew]
      exact use id r _
  | memory | saved =>
    exact Guarding.bind guarding_take (fun r apart => .bind (guarding_load apart) fun _ _ =>
      .bind (guarding_bindTo apart) fun _ _ => .bind guarding_update fun _ _ => .pure trivial) _

theorem guardsFrom_detachAsTemp : GuardsFrom kept w.allocator.Reloads w (detachAsTemp name) Any :=
  .bind guardsFrom_getRegister fun _ mid _ _ => Guarding.bind guarding_resolve (fun _ _ => .bind guarding_known fun v _ =>
    .bind (guarding_modifyLevel (fun _ => v.depth) _) fun _ _ => .bind guarding_freshTemp fun _ _ =>
      .bind guarding_update fun _ _ => .bind guarding_addTempName fun _ _ => .bind guarding_hold fun _ _ => .pure trivial) mid

theorem guarding_prepareWrite : Guarding kept E (prepareWrite name) Any := by
  have last : ∀ (id : VarId) (r : Reg), Guarding kept E (do
      update id fun v => { v with isDirty := true }
      return r) Any := fun _ _ => .bind guarding_update fun _ _ => .pure trivial
  refine .bind guarding_resolve fun id _ => .bind guarding_known fun v _ => .ite (.throw _) ?_
  split
  · exact .bind guarding_touch fun _ _ => .bind guarding_hold fun _ _ => last _ _
  · exact .bind guarding_take fun r apart => .bind (guarding_bindTo apart) fun _ _ => last _ _

theorem guarding_drop : Guarding kept E (drop id) Any := by
  refine .bind guarding_unbind fun _ _ => .bind guarding_known fun v _ => .ite ?_ ?_
  · exact .bind guarding_removeTempName fun _ _ => .aside (fun _ => rfl) fun _ => rfl
  · exact .bind (guarding_modifyLevel (fun _ => v.depth) _) fun _ _ => .aside (fun _ => rfl) fun _ => rfl

theorem guarding_remove : Guarding kept E (remove name) Any := .bind guarding_resolve fun _ _ => guarding_drop

theorem guarding_removeIfTemp : Guarding kept E (removeIfTemp name) Any := by
  refine .bind (.look _) fun found _ => ?_
  split
  · exact guarding_drop
  · exact .pure trivial

theorem guarding_sendHome : Guarding kept E (sendHome r) Any := by
  refine .bind (.look _) fun owned _ => ?_
  split
  · exact .pure trivial
  · exact .bind guarding_known fun _ _ => .ite (.pure trivial) (.ite (.bind guarding_writeBack fun _ _ => guarding_unbind)
      guarding_unbind)

theorem guarding_bringBack : Guarding kept E (bringBack id) Any :=
  .bind guarding_known fun _ _ => .ite (.bind guarding_take fun _ apart => .bind (guarding_load apart) fun _ _ =>
    .bind (guarding_bindTo apart) fun _ _ => guarding_update) (.pure trivial)

theorem guarding_sync : Guarding kept E sync Any :=
  .bind (.forM (fun _ => guarding_sendHome) _) fun _ _ => .bind (.look _) fun _ _ =>
    .bind (.forM (fun _ => guarding_update) _) fun _ _ => .forM (fun _ => guarding_bringBack) _

theorem written_move (target r : Reg) : (MachineInstr.move target r).written? = some target := rfl

/-- What a register holds goes to one that was not held. -/
theorem guarding_reserve : Guarding kept E (reserve r) Any := by
  have rest : Guarding kept E (do
      withdraw r
      if r.isPool then
        change fun a => { a with reserved := if r ∈ a.reserved then a.reserved else a.reserved ++ [r] }) Any :=
    .bind guarding_withdraw fun _ _ => .ite (.aside (fun _ => rfl) fun _ => rfl) (.pure trivial)
  refine .bind (.look _) fun owned _ => ?_
  cases owned with
  | none => exact rest
  | some id =>
    refine .bind guarding_hold fun _ _ => .bind guarding_take fun target apart => .bind (.emit fun s written => ?_)
      fun _ _ => .bind guarding_setOwner_none fun _ _ => .bind (guarding_bindTo apart) fun _ _ => rest
    rw [written_move] at written
    cases written
    exact apart

theorem GuardsFrom.map {f : α → β} (guards : GuardsFrom kept E w act A) : GuardsFrom kept E w (f <$> act) Any := by
  rw [← bind_pure_comp]
  exact .bind guards fun _ _ _ _ => .pure trivial

theorem guardsFrom_operation (op : Operation) (keeps : op.KeepsHolds) :
    GuardsFrom kept w.allocator.Reloads w op.act Any := by
  cases op with
  | addVariable name given =>
    cases keeps
    exact .map (guarding_addVariable w)
  | addTemp => exact .map (guarding_addTemp w)
  | detachAsTemp name => exact .map guardsFrom_detachAsTemp
  | getRegister name modifies => exact .map guardsFrom_getRegister
  | prepareWrite name => exact .map (guarding_prepareWrite w)
  | remove name => exact guarding_remove w
  | removeIfTemp name => exact guarding_removeIfTemp w
  | sync => exact guarding_sync w
  | reserve r => exact guarding_reserve w
  | _ => exact keeps.elim

theorem behind_act (op : Operation) (w : Work) : behind op.act w = Allocator.after op w := by
  unfold behind Allocator.after
  cases op.act.run w <;> rfl

/-- What an operation leaves behind, whether it succeeds or not, has the registers that were held as they were. -/
theorem guards_operation (op : Operation) (keeps : op.KeepsHolds) (w : Work) :
    Guards w.allocator.held w.allocator.Reloads w (Allocator.after op w) := by
  rw [← behind_act]
  exact (guardsFrom_operation op keeps (List.Subset.refl _)).1

end Alloc

end SmallC
