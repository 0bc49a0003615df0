import SmallC.Proofs.Allocation.Functions
import SmallC.Proofs.Program.Activations

/-!
The instructions that the allocator emits. Registers that the calling convention keeps for itself are never
handed out, and a variable is only written to a home that was. So what an operation emits writes registers
free for any use, words of the frame, and global words, and nothing else. Arrays are left out.
-/
namespace SmallC

namespace Allocator

/-- Registers in use are free for any use, homes lie in memory that was handed out, and a function body starts
with no words pushed onto the stack. -/
structure Tame (a : Allocator) : Prop where
  register : ∀ {id v r}, a.var? id = some v → v.storage = .register r → r.Common
  home : ∀ {id v h}, a.var? id = some v → v.home = some h ∨ v.storage = .memory h → a.Grants h
  scalar : ∀ {id v}, a.var? id = some v → v.array = none
  free : ∀ r ∈ a.free, r.Common
  parked : ∀ save ∈ a.calls, ∀ s ∈ save.saved, s.2.1.Common
  outside : ∀ o, a.outside = some o →
    (∀ b ∈ o.bindings, b.2.1.Common) ∧ (∀ r ∈ o.free, r.Common) ∧ o.pushed = 0

/-- Another state of the same function body, or of the top level, with at least the memory. -/
structure Roomier (a a' : Allocator) : Prop where
  zone : a'.frame.isSome = a.frame.isSome
  frame : ∀ f f', a.frame = some f → a'.frame = some f' → f ≤ f'
  globals : a.globals ≤ a'.globals

/-- Nor have any words been pushed onto the stack. -/
structure Wider (a a' : Allocator) : Prop extends Roomier a a' where
  pushed : a'.pushed = a.pushed

/-- Only memory that was handed out counts. -/
theorem Roomier.of_same {a a' : Allocator} (frame : a'.frame = a.frame) (globals : a'.globals = a.globals) :
    Roomier a a' :=
  ⟨by rw [frame], fun f f' had has => by
    rw [frame, had] at has
    cases has
    exact Nat.le_refl _, Nat.le_of_eq globals.symm⟩

theorem Roomier.trans {a b c : Allocator} (first : Roomier a b) (second : Roomier b c) : Roomier a c := by
  refine ⟨second.zone.trans first.zone, fun f f' had has => ?_, first.globals.trans second.globals⟩
  obtain ⟨g, between⟩ := Option.isSome_iff_exists.1 ((first.zone.trans (by rw [had]; rfl) : _ = true))
  exact (first.frame f g had between).trans (second.frame g f' between has)

theorem Roomier.grants {a a' : Allocator} (roomier : Roomier a a') {h : Home} (granted : a.Grants h) :
    a'.Grants h := by
  cases h with
  | global x => exact Nat.lt_of_lt_of_le granted roomier.globals
  | frame slot =>
    obtain ⟨f, had, inside⟩ := granted
    obtain ⟨f', has⟩ := Option.isSome_iff_exists.1 ((roomier.zone.trans (by rw [had]; rfl) : _ = true))
    exact ⟨f', has, Nat.lt_of_lt_of_le inside (roomier.frame f f' had has)⟩

theorem Wider.of_same {a a' : Allocator} (frame : a'.frame = a.frame) (globals : a'.globals = a.globals)
    (pushed : a'.pushed = a.pushed) : Wider a a' := ⟨.of_same frame globals, pushed⟩

theorem Wider.refl (a : Allocator) : Wider a a := .of_same rfl rfl rfl

theorem Wider.trans {a b c : Allocator} (first : Wider a b) (second : Wider b c) : Wider a c :=
  ⟨first.toRoomier.trans second.toRoomier, second.pushed.trans first.pushed⟩

theorem Wider.grown (a : Allocator) (words : Nat) : Wider a (a.grown words) := by
  refine ⟨⟨by simp [Allocator.grown], fun f f' had has => ?_, ?_⟩, rfl⟩
  · simp only [Allocator.grown, had, Option.map_some, Option.some.injEq] at has
    omega
  · simp only [Allocator.grown]
    split <;> omega

end Allocator

/-- What becomes of a variable whose value moves: to a register free for any use, or to its own home. -/
structure Variable.Moves (v v' : Variable) : Prop where
  register : ∀ r, v'.storage = .register r → v.storage = .register r ∨ r.Common
  home : ∀ h, v'.home = some h ∨ v'.storage = .memory h → v.home = some h ∨ v.storage = .memory h
  scalar : v'.array = v.array

/-- An instruction that writes a register free for any use, or a word that was handed out. -/
def MachineInstr.Modest (a : Allocator) (i : MachineInstr) : Prop :=
  MachineInstr.Calm i ∨ ∃ r h address, a.Grants h ∧ Alloc.address? a h = some address ∧
    i = .sw r address.base address.offset

theorem MachineInstr.calm_move {rd rs : Reg} (common : rd.Common) : (MachineInstr.move rd rs).Calm :=
  ⟨rd, rfl, common⟩

theorem Reg.common_of_pool {r : Reg} (inPool : r.isPool) : r.Common := by
  constructor <;> rintro rfl <;> cases inPool

theorem Reg.common_of_argument {r : Reg} (argument : r ∈ Reg.arguments) : r.Common := by
  revert r
  decide

namespace Allocator

variable {a a' : Allocator} {id : VarId} {v v' : Variable}

theorem Wider.address? (wider : Wider a a') (h : Home) : Alloc.address? a' h = Alloc.address? a h := by
  cases h with
  | global x => rfl
  | frame slot =>
    have zone : a'.inFunction = a.inFunction := wider.zone
    simp only [Alloc.address?, zone, wider.pushed]

theorem Wider.modest (wider : Wider a a') {i : MachineInstr} (modest : MachineInstr.Modest a i) :
    MachineInstr.Modest a' i := by
  rcases modest with calm | ⟨r, h, address, granted, formed, rfl⟩
  · exact .inl calm
  · exact .inr ⟨r, h, address, wider.toRoomier.grants granted, (wider.address? h).trans formed, rfl⟩

namespace Tame

/-- Nothing changes that counts. -/
theorem of_same (tame : Tame a) (vars : a'.vars = a.vars) (roomier : Roomier a a') (free : a'.free = a.free)
    (calls : a'.calls = a.calls) (outside : a'.outside = a.outside) : Tame a' := by
  have same : ∀ id, a'.var? id = a.var? id := fun id => by rw [var?, var?, vars]
  exact ⟨fun found => tame.register ((same _).symm.trans found),
    fun found has => roomier.grants (tame.home ((same _).symm.trans found) has),
    fun found => tame.scalar ((same _).symm.trans found), by rw [free]; exact tame.free,
    by rw [calls]; exact tame.parked, by rw [outside]; exact tame.outside⟩

/-- Something else is known about one variable. -/
theorem of_setVar (tame : Tame a) (register : ∀ r, v'.storage = .register r → r.Common)
    (home : ∀ h, v'.home = some h ∨ v'.storage = .memory h → a.Grants h) (scalar : v'.array = none) :
    Tame (a.setVar id v') := by
  have known : ∀ {other u}, (a.setVar id v').var? other = some u → u = v' ∨ a.var? other = some u := by
    intro other u found
    by_cases here : other = id
    · subst here
      have inside : other < a.vars.size := by
        have := var?_lt found
        simpa [setVar] using this
      simp only [var?, setVar, Array.getElem?_setIfInBounds, inside, ↓reduceIte, Option.join_some,
        Option.some.injEq] at found
      exact .inl found.symm
    · exact .inr ((var?_setVar_of_ne here).symm.trans found)
  refine ⟨fun found there => ?_, fun found has => ?_, fun found => ?_, tame.free, tame.parked, tame.outside⟩
  · rcases known found with rfl | found
    · exact register _ there
    · exact tame.register found there
  · rcases known found with rfl | found
    · exact home _ has
    · exact tame.home found has
  · rcases known found with rfl | found
    · exact scalar
    · exact tame.scalar found

theorem setVar (tame : Tame a) (found : a.var? id = some v) (moves : v.Moves v') : Tame (a.setVar id v') :=
  tame.of_setVar
    (fun r there => (moves.register r there).elim (tame.register found) fun common => common)
    (fun h has => tame.home found (moves.home h has)) (moves.scalar.trans (tame.scalar found))

/-- One more variable. -/
theorem addVar (tame : Tame a) (register : ∀ r, v.storage = .register r → r.Common)
    (home : ∀ h, v.home = some h ∨ v.storage = .memory h → a.Grants h) (scalar : v.array = none) :
    Tame (a.addVar v) := by
  refine ⟨fun found there => ?_, fun found has => ?_, fun found => ?_, tame.free, tame.parked, tame.outside⟩
  all_goals rw [var?_addVar] at found
  all_goals split at found
  all_goals first | cases found | skip
  · exact register _ there
  · exact tame.register found there
  · exact home _ has
  · exact tame.home found has
  · exact scalar
  · exact tame.scalar found

theorem modifyLevel (tame : Tame a) (d : Nat) (f : Level → Level) : Tame (a.modifyLevel d f) := by
  rw [modifyLevel_eq]
  exact tame.of_same rfl (.of_same rfl rfl) rfl rfl rfl

theorem grown (tame : Tame a) (words : Nat) : Tame (a.grown words) :=
  tame.of_same rfl (Wider.grown a words).toRoomier rfl rfl rfl

end Tame

end Allocator

namespace Alloc

open Allocator

variable {α β : Type} {w w' : Work} {id : VarId} {r : Reg} {name : String}

/-- What an operation comes to where it emits nothing but modest instructions. -/
structure Tended (w w' : Work) : Prop where
  tame : Tame w'.allocator
  wider : Wider w.allocator w'.allocator
  code : ∃ code, w'.code = w.code ++ code ∧ ∀ i ∈ code, MachineInstr.Modest w'.allocator i

theorem Tended.refl (tame : Tame w.allocator) : Tended w w :=
  ⟨tame, .refl _, #[], by simp, by simp⟩

theorem Tended.trans {mid : Work} (first : Tended w mid) (second : Tended mid w') : Tended w w' := by
  obtain ⟨code, emitted, modest⟩ := first.code
  obtain ⟨code', emitted', modest'⟩ := second.code
  refine ⟨second.tame, first.wider.trans second.wider, code ++ code', ?_, fun i member => ?_⟩
  · rw [emitted', emitted, Array.append_assoc]
  · rcases Array.mem_append.1 member with member | member
    · exact second.wider.modest (modest i member)
    · exact modest' i member

theorem Tended.of_change {f : Allocator → Allocator} (tame : Tame (f w.allocator))
    (wider : Wider w.allocator (f w.allocator)) : Tended w (on f w) :=
  ⟨tame, wider, #[], by simp, by simp⟩

theorem Tended.of_push {i : MachineInstr} (tame : Tame w.allocator) (modest : MachineInstr.Modest w.allocator i) :
    Tended w (push i w) :=
  ⟨tame, .refl _, #[i], by simp, by simpa using modest⟩

/-- An operation that emits nothing but modest instructions; a condition holds of its answer. -/
def Tends (act : Alloc α) (Q : α → Prop) : Prop :=
  ∀ w x w', Tame w.allocator → Ran act w x w' → Q x ∧ Tended w w'

namespace Tends

variable {act other : Alloc α} {Q : α → Prop} {R : β → Prop}

theorem pure {x : α} (holds : Q x) : Tends (Pure.pure x) Q := by
  intro w y w' tame ran
  obtain ⟨rfl, rfl⟩ := ran_pure.1 ran
  exact ⟨holds, .refl tame⟩

theorem throw (e : AllocatorFault) : Tends (MonadExcept.throw e : Alloc α) Q :=
  fun _ _ _ _ ran => (ran_throw.1 ran).elim

theorem bind {f : α → Alloc β} (first : Tends act Q) (rest : ∀ x, Q x → Tends (f x) R) :
    Tends (act >>= f) R := by
  intro w y w' tame ran
  obtain ⟨x, mid, ran, ran'⟩ := ran_bind.1 ran
  obtain ⟨holds, done⟩ := first w x mid tame ran
  obtain ⟨holds', done'⟩ := rest x holds mid y w' done.tame ran'
  exact ⟨holds', done.trans done'⟩

theorem weaken {Q' : α → Prop} (tends : Tends act Q) (holds : ∀ x, Q x → Q' x) : Tends act Q' :=
  fun w x w' tame ran => ⟨holds x (tends w x w' tame ran).1, (tends w x w' tame ran).2⟩

theorem map {f : α → β} (tends : Tends act fun x => R (f x)) : Tends (f <$> act) R := by
  rw [← bind_pure_comp]
  exact tends.bind fun x holds => .pure holds

theorem ite {c : Prop} [Decidable c] (yes : c → Tends act Q) (no : ¬ c → Tends other Q) :
    Tends (if c then act else other) Q := by
  split
  · next holds => exact yes holds
  · next fails => exact no fails

/-- What stops an operation on a condition. -/
theorem refuse {c : Prop} [Decidable c] {e : AllocatorFault} {f : Unit → Alloc β}
    (rest : ¬ c → Tends (f ()) R) :
    Tends (if c then MonadExcept.throw e >>= f else f ()) R :=
  .ite (fun _ => (throw (Q := fun _ => False) e).bind fun _ absurd => absurd.elim) rest

theorem look {f : Allocator → α} (holds : ∀ a, Tame a → Q (f a)) : Tends (Alloc.look f) Q := by
  intro w x w' tame ran
  obtain ⟨rfl, rfl⟩ := ran_look.1 ran
  exact ⟨holds _ tame, .refl tame⟩

theorem change {f : Allocator → Allocator} (tame : ∀ a, Tame a → Tame (f a)) (wider : ∀ a, Wider a (f a)) :
    Tends (Alloc.change f) fun _ => True := by
  intro w x w' before ran
  rw [ran_change.1 ran]
  exact ⟨trivial, .of_change (tame _ before) (wider _)⟩

/-- A change of nothing that counts. -/
theorem aside {f : Allocator → Allocator} (same : ∀ a, (f a).vars = a.vars ∧ (f a).frame = a.frame ∧
      (f a).globals = a.globals ∧ (f a).pushed = a.pushed ∧ (f a).free = a.free ∧ (f a).calls = a.calls ∧
      (f a).outside = a.outside) : Tends (Alloc.change f) fun _ => True := by
  have wider : ∀ a, Wider a (f a) := fun a =>
    .of_same (same a).2.1 (same a).2.2.1 (same a).2.2.2.1
  refine change (fun a tame => ?_) wider
  obtain ⟨vars, -, -, -, free, calls, outside⟩ := same a
  exact tame.of_same vars (wider a).toRoomier free calls outside

theorem emit {i : MachineInstr} (calm : i.Calm) : Tends (Alloc.emit i) fun _ => True := by
  intro w x w' tame ran
  rw [ran_emit.1 ran]
  exact ⟨trivial, .of_push tame (.inl calm)⟩

theorem update {f : Variable → Variable} (moves : ∀ v : Variable, v.array = none → v.Moves (f v)) :
    Tends (Alloc.update id f) fun _ => True := by
  intro w x w' tame ran
  obtain ⟨v, found, rfl⟩ := ran_update.1 ran
  exact ⟨trivial, .of_change (tame.setVar found (moves v (tame.scalar found))) (.of_same rfl rfl rfl)⟩

theorem known : Tends (Alloc.known id) fun v => (∀ r, v.storage = .register r → r.Common) ∧ v.array = none := by
  intro w v w' tame ran
  obtain ⟨found, rfl⟩ := ran_known.1 ran
  exact ⟨⟨fun r there => tame.register found there, tame.scalar found⟩, .refl tame⟩

/-- An operation that only reads. -/
theorem reads (only : ∀ w x w', Ran act w x w' → w' = w) : Tends act fun _ => True := by
  intro w x w' tame ran
  rw [only w x w' ran]
  exact ⟨trivial, .refl tame⟩

theorem forM {f : α → Alloc Unit} {xs : List α} (pass : ∀ x ∈ xs, Tends (f x) fun _ => True) :
    Tends (xs.forM f) fun _ => True := by
  induction xs with
  | nil => exact .pure trivial
  | cons x rest ih =>
    exact (pass x List.mem_cons_self).bind fun _ _ => ih fun y member => pass y (List.mem_cons_of_mem x member)

theorem mapM {f : α → Alloc β} {xs : List α} (pass : ∀ x ∈ xs, Tends (f x) R) :
    Tends (xs.mapM f) fun ys => ∀ y ∈ ys, R y := by
  induction xs with
  | nil =>
    rw [List.mapM_nil]
    exact .pure nofun
  | cons x rest ih =>
    rw [List.mapM_cons]
    refine (pass x List.mem_cons_self).bind fun y holds => ?_
    refine (ih fun z member => pass z (List.mem_cons_of_mem x member)).bind fun ys all => ?_
    exact .pure (List.forall_mem_cons.2 ⟨holds, all⟩)

end Tends

/-! ### Basic changes -/

/-- A note about a variable that has nothing to do with where it is. -/
theorem moves_of_same {v v' : Variable} (storage : v'.storage = v.storage) (home : v'.home = v.home)
    (array : v'.array = v.array) : v.Moves v' :=
  ⟨fun r there => .inl (storage ▸ there), fun h has => by rwa [home, storage] at has, array⟩

theorem tends_resolve : Tends (resolve name) fun _ => True :=
  .reads fun _ _ _ ran => (ran_resolve.1 ran).2

theorem tends_addressOf {home : Home} : Tends (addressOf home) fun _ => True :=
  .reads fun _ _ _ ran => (ran_addressOf.1 ran).2

theorem tends_modifyLevel {depth : Allocator → Nat} {f : Level → Level} :
    Tends (change fun a => a.modifyLevel (depth a) f) fun _ => True :=
  .change (fun _ tame => tame.modifyLevel _ _) fun a => by
    rw [modifyLevel_eq]
    exact .of_same rfl rfl rfl

theorem tends_touch : Tends (touch id) fun _ => True := .aside fun _ => ⟨rfl, rfl, rfl, rfl, rfl, rfl, rfl⟩

theorem tends_hold : Tends (hold r) fun _ => True := .aside fun _ => ⟨rfl, rfl, rfl, rfl, rfl, rfl, rfl⟩

theorem tends_releaseHolds : Tends releaseHolds fun _ => True :=
  .aside fun _ => ⟨rfl, rfl, rfl, rfl, rfl, rfl, rfl⟩

theorem tends_setOwner {owner : Option VarId} : Tends (setOwner r owner) fun _ => True :=
  .aside fun _ => ⟨rfl, rfl, rfl, rfl, rfl, rfl, rfl⟩

theorem tends_withdraw : Tends (withdraw r) fun _ => True := by
  have wider : ∀ a : Allocator, Wider a (a.withdrawn r) := fun a => .of_same rfl rfl rfl
  refine .change (fun a tame => ?_) wider
  have same : Tame { a.withdrawn r with free := a.free } := tame.of_same rfl (.of_same rfl rfl) rfl rfl rfl
  exact ⟨same.register, same.home, same.scalar, fun s member => tame.free s (List.mem_filter.1 member).1,
    same.parked, same.outside⟩

theorem tends_release : Tends (release r) fun _ => True := by
  refine .bind tends_setOwner fun _ _ => .change (fun a tame => ?_) fun a => ?_
  · split
    · next back =>
      refine ⟨tame.register, tame.home, tame.scalar, fun s member => ?_, tame.parked, tame.outside⟩
      rcases List.mem_append.1 member with member | member
      · exact tame.free s member
      · rw [List.mem_singleton.1 member]
        exact Reg.common_of_pool back.1
    · exact tame
  · split
    · exact .of_same rfl rfl rfl
    · exact .refl a

theorem tends_bindTo (common : r.Common) : Tends (bindTo id r) fun _ => True := by
  refine .bind tends_setOwner fun _ _ => .bind (.update fun v _ => ?_) fun _ _ => .bind tends_touch fun _ _ =>
    tends_hold
  exact ⟨fun s there => by cases there; exact .inr common, fun h has => has.elim .inl nofun, rfl⟩

theorem memory?_of_scalar {v : Variable} (scalar : v.array = none) : v.memory? = v.home := by
  rw [Variable.memory?, scalar]
  rfl

theorem moves_parted {v : Variable} (scalar : v.array = none) : v.Moves v.parted := by
  have home := memory?_of_scalar scalar
  refine ⟨fun s there => ?_, fun h has => ?_, rfl⟩
  · simp only [Variable.parted, home] at there
    cases has : v.home with
    | none =>
      rw [has] at there
      exact .inl there
    | some h =>
      rw [has] at there
      cases there
  · simp only [Variable.parted, home] at has
    rcases has with has | there
    · exact .inl has
    · cases has : v.home with
      | none =>
        rw [has] at there
        exact .inr there
      | some h' =>
        rw [has] at there
        cases there
        exact .inl rfl

theorem tends_unbind : Tends (unbind id) fun _ => True := by
  refine .bind .known fun v _ => ?_
  split
  · exact .pure trivial
  · exact .bind (.aside fun _ => ⟨rfl, rfl, rfl, rfl, rfl, rfl, rfl⟩) fun _ _ => .bind tends_release fun _ _ =>
      .update fun v scalar => moves_parted scalar

/-! ### Traffic -/

theorem tends_writeBack : Tends (writeBack id r) fun _ => True := by
  intro w x w' tame ran
  obtain ⟨v, home, address, found, has, formed, rfl⟩ := ran_writeBack.1 ran
  have wrote : Tended w (push (.sw r address.base address.offset) w) :=
    .of_push tame (.inr ⟨r, home, address, tame.home found (.inl has), formed, rfl⟩)
  exact ⟨trivial, wrote.trans (.of_change (wrote.tame.setVar found (moves_of_same rfl rfl rfl))
    (.of_same rfl rfl rfl))⟩

theorem tends_ensureHome : Tends (ensureHome id) fun _ => True := by
  intro w x w' tame ran
  obtain ⟨v, found, ⟨-, rfl⟩ | ⟨homeless, rfl⟩⟩ := ran_ensureHome.1 ran
  · exact ⟨trivial, .refl tame⟩
  · refine ⟨trivial, .of_change ((tame.grown 1).of_setVar (fun r there => tame.register found there)
      (fun h has => ?_) (tame.scalar found :)) (.trans (.grown _ 1) (.of_same rfl rfl rfl))⟩
    rcases has with has | there
    · rw [← Option.some.inj has]
      exact grants_nextHome Nat.one_pos
    · exact grants_grown (tame.home found (.inr there)) 1

theorem tends_evict : Tends (evict id) Reg.Common := by
  refine .bind .known fun v place => ?_
  have leave : ∀ r : Reg, r.Common → Tends (do
      unbind id
      withdraw r
      return r) Reg.Common := fun r common =>
    .bind tends_unbind fun _ _ => .bind tends_withdraw fun _ _ => .pure common
  cases there : v.storage with
  | register r =>
    have common := place.1 r there
    simp only [Storage.register?]
    refine .refuse fun _ => .ite (fun _ => ?_) fun _ => .ite (fun _ => ?_) fun _ => .ite (fun _ => ?_) fun _ => ?_
    · exact .bind tends_ensureHome fun _ _ => .bind tends_writeBack fun _ _ => leave r common
    · exact .bind (.throw (Q := fun _ => False) _) fun _ absurd => absurd.elim
    · exact .bind tends_writeBack fun _ _ => leave r common
    · exact leave r common
  | memory | saved => exact .throw _

theorem tends_take : Tends take Reg.Common := by
  refine .bind (.look (Q := fun x => ∀ r, x = some r → r.Common) fun a tame r found =>
    tame.free r (List.mem_of_find?_eq_some found)) fun free common => ?_
  split
  · next r => exact .bind tends_withdraw fun _ _ => .pure (common r rfl)
  · refine .bind (.look (Q := fun _ => True) fun _ _ => trivial) fun victim _ => ?_
    split
    · exact tends_evict
    · exact .throw _

theorem tends_load (common : r.Common) : Tends (load id r) fun _ => True := by
  have word : ∀ home, Tends (loadWord r home) fun _ => True := fun home =>
    .bind tends_addressOf fun _ _ => .emit ⟨r, rfl, common⟩
  refine .bind .known fun v _ => ?_
  split
  · exact .bind tends_addressOf fun _ _ => .emit ⟨r, rfl, common⟩
  · exact word _
  · split
    · exact word _
    · exact .throw _
  · exact .throw _

/-! ### Operations on variables -/

theorem tame_withVariable {a : Allocator} (tame : Tame a) (common : r.Common) :
    Tame (withVariable name r a) ∧ Wider a (withVariable name r a) := by
  have added : Tame (((a.grown 1).addVar (introducedVar a name r)).modifyCurrent
      (Level.addName name a.vars.size)) := by
    refine Tame.modifyLevel (Tame.addVar (tame.grown 1) (fun s there => ?_) (fun h has => ?_) rfl) _ _
    · cases there
      exact common
    · rcases has with has | there
      · rw [← Option.some.inj has]
        exact grants_nextHome Nat.one_pos
      · cases there
  have wider : Wider a (((a.grown 1).addVar (introducedVar a name r)).modifyCurrent
      (Level.addName name a.vars.size)) := by
    rw [modifyCurrent, modifyLevel_eq]
    exact .trans (.grown a 1) (.of_same rfl rfl rfl)
  have placed : Tame ((((a.grown 1).addVar (introducedVar a name r)).modifyCurrent
      (Level.addName name a.vars.size)).setVar a.vars.size
        { introducedVar a name r with storage := .register r }) := by
    refine added.of_setVar (fun s there => ?_) (fun h has => ?_) rfl
    · cases there
      exact common
    · have granted : (a.grown 1).Grants h := by
        rcases has with has | there
        · rw [← Option.some.inj has]
          exact grants_nextHome Nat.one_pos
        · cases there
      rw [modifyCurrent, modifyLevel_eq]
      cases h <;> exact granted
  refine ⟨placed.of_same rfl (.of_same rfl rfl) rfl rfl rfl, .trans wider (.of_same rfl rfl rfl)⟩

theorem tends_addVariable {given : Option Reg} (common : ∀ r, given = some r → r.Common) :
    Tends (addVariable name given) Reg.Common := by
  intro w r w' tame ran
  obtain ⟨-, mid, from', rfl⟩ := ran_addVariable ran
  obtain ⟨common', first⟩ : r.Common ∧ Tended w mid := by
    rcases from' with ⟨-, took⟩ | ⟨asked, -, rfl⟩
    · exact tends_take w r mid tame took
    · exact ⟨common r asked, (tends_withdraw w () _ tame (ran_withdraw.2 rfl)).2⟩
  obtain ⟨tame', wider⟩ : Tame (withVariable name r mid.allocator) ∧ Wider mid.allocator _ :=
    tame_withVariable first.tame common'
  exact ⟨common', first.trans (.of_change tame' wider)⟩

theorem tends_declareVariable : Tends (declareVariable name) fun _ => True := by
  intro w x w' tame ran
  obtain ⟨-, rfl⟩ := ran_declareVariable ran
  refine ⟨trivial, .of_change ?_ ?_⟩
  · refine Tame.modifyLevel (Tame.addVar (tame.grown 1) (fun s there => ?_) (fun h has => ?_) rfl) _ _
    · cases there
    rcases has with has | there
    · rw [← Option.some.inj has]
      exact grants_nextHome Nat.one_pos
    · rw [← Storage.memory.inj there]
      exact grants_nextHome Nat.one_pos
  · rw [modifyCurrent, modifyLevel_eq]
    exact .trans (.grown _ 1) (.of_same rfl rfl rfl)

theorem tends_freshTemp : Tends freshTemp fun _ => True :=
  .bind (.look (Q := fun _ => True) fun _ _ => trivial) fun _ _ =>
    .bind (.aside fun _ => ⟨rfl, rfl, rfl, rfl, rfl, rfl, rfl⟩) fun _ _ => .pure trivial

theorem tends_insertTemp {temp : String} {depth : Nat} (common : r.Common) :
    Tends (insert (Variable.plain temp true depth none (.register r))) fun _ => True := by
  intro w x w' tame ran
  obtain ⟨-, rfl⟩ := ran_insert.1 ran
  refine ⟨trivial, .of_change (tame.addVar (fun s there => ?_) (fun h has => ?_) rfl) (.of_same rfl rfl rfl)⟩
  · cases there
    exact common
  · rcases has with has | there <;> contradiction

theorem tends_addTemp : Tends addTemp fun _ => True :=
  .bind tends_take fun _ common => .bind tends_freshTemp fun _ _ =>
    .bind (.look (Q := fun _ => True) fun _ _ => trivial) fun _ _ => .bind (tends_insertTemp common) fun _ _ =>
      .bind (.aside fun _ => ⟨rfl, rfl, rfl, rfl, rfl, rfl, rfl⟩) fun _ _ =>
        .bind (tends_bindTo common) fun _ _ => .pure trivial

theorem tends_renameTemp {temp : String} : Tends (renameTemp temp name) fun _ => True := by
  -- A temporary keeps its place and gets a home that was handed out.
  have renamed : ∀ {a : Allocator} (id : VarId) (v : Variable), Tame a →
      (∀ r, v.storage = .register r → r.Common) →
      (∀ h, v.home = some h ∨ v.storage = .memory h → a.Grants h) → v.array = none →
      Tame (withRenamed temp name id v a) ∧ Wider a (withRenamed temp name id v a) := by
    intro a id v tame register home scalar
    have same : Tame { a with temps := Level.without temp a.temps } :=
      tame.of_same rfl (.of_same rfl rfl) rfl rfl rfl
    have granted : ∀ h, v.home = some h ∨ v.storage = .memory h →
        ({ a with temps := Level.without temp a.temps } : Allocator).Grants h := fun h has => by
      have granted := home h has
      cases h <;> exact granted
    have changed : Tame ({ a with temps := Level.without temp a.temps }.setVar id v) :=
      same.of_setVar register granted scalar
    refine ⟨changed.modifyLevel _ _, ?_⟩
    rw [withRenamed_eq]
    exact .of_same rfl rfl rfl
  intro w x w' tame ran
  obtain ⟨-, id, v, -, found, ⟨r, there, rfl⟩ | ⟨there, home, place, has, rfl⟩⟩ := ran_renameTemp ran
  · obtain ⟨tame', wider⟩ := renamed id
      (renamedVar w.allocator name w.allocator.nextHome true v) (tame.grown 1)
      (fun s there' => tame.register found there') (fun h has => by
        rcases has with has | place
        · rw [← Option.some.inj has]
          exact grants_nextHome Nat.one_pos
        · cases there.symm.trans place) (tame.scalar found :)
    refine ⟨trivial, (Tended.of_change tame' (.trans (.grown _ 1) wider)).trans (.of_change ?_ ?_)⟩
    · exact tame'.of_same rfl (.of_same rfl rfl) rfl rfl rfl
    · exact .of_same rfl rfl rfl
  · obtain ⟨tame', wider⟩ := renamed id (renamedVar w.allocator name home false v) tame
      (fun s there' => tame.register found there') (fun h has' => by
        rcases has' with has' | place'
        · rw [← Option.some.inj has']
          exact tame.home found (.inl has)
        · exact tame.home found (.inr place')) (tame.scalar found :)
    exact ⟨trivial, .of_change tame' wider⟩

theorem tends_getRegister {modifies : Bool} : Tends (getRegister name modifies) Reg.Common := by
  refine .bind tends_resolve fun id _ => .bind .known fun v place => ?_
  have use : ∀ r : Reg, r.Common → Tends (do
      touch id
      hold r
      return r) Reg.Common := fun r common =>
    .bind tends_touch fun _ _ => .bind tends_hold fun _ _ => .pure common
  cases there : v.storage with
  | register r =>
    have common := place.1 r there
    simp only [Storage.register?]
    exact .ite (fun _ => .bind (tends_load common) fun _ _ => use r common) fun _ => use r common
  | memory | saved =>
    exact .bind tends_take fun r common => .bind (tends_load common) fun _ _ =>
      .bind (tends_bindTo common) fun _ _ => .bind (.update fun v _ => moves_of_same rfl rfl rfl) fun _ _ =>
        .pure common

theorem tends_detachAsTemp : Tends (detachAsTemp name) fun _ => True :=
  .bind tends_getRegister fun _ _ => .bind tends_resolve fun _ _ => .bind .known fun _ _ =>
    .bind tends_modifyLevel fun _ _ => .bind tends_freshTemp fun _ _ =>
      .bind (.update fun _ _ => ⟨fun _ there => .inl there, fun _ has => .inr (has.resolve_left nofun), rfl⟩)
        fun _ _ => .bind (.aside fun _ => ⟨rfl, rfl, rfl, rfl, rfl, rfl, rfl⟩) fun _ _ =>
          .bind tends_hold fun _ _ => .pure trivial

theorem tends_prepareWrite : Tends (prepareWrite name) Reg.Common := by
  refine .bind tends_resolve fun id _ => .bind .known fun v place => ?_
  have dirty : ∀ r : Reg, r.Common → Tends (do
      update id fun v => { v with isDirty := true }
      return r) Reg.Common := fun r common =>
    .bind (.update fun v _ => moves_of_same rfl rfl rfl) fun _ _ => .pure common
  refine .refuse fun _ => ?_
  cases there : v.storage with
  | register r =>
    have common := place.1 r there
    simp only [Storage.register?]
    exact .bind tends_touch fun _ _ => .bind tends_hold fun _ _ => dirty r common
  | memory | saved =>
    exact .bind tends_take fun r common => .bind (tends_bindTo common) fun _ _ => dirty r common

theorem tends_markWritten : Tends (markWritten name) fun _ => True := by
  refine .bind tends_resolve fun id _ => .bind .known fun v _ => .ite (fun _ => .pure trivial) fun _ => ?_
  refine .bind (.update fun v _ => moves_of_same rfl rfl rfl) fun _ _ => ?_
  split
  · exact tends_writeBack
  · exact .pure trivial

theorem tends_drop : Tends (drop id) fun _ => True := by
  refine .bind tends_unbind fun _ _ => .bind .known fun v _ => ?_
  have forget : Tends (change fun a => { a with
      recency := a.recency.remove id, vars := a.vars.setIfInBounds id none }) fun _ => True := by
    refine .change (fun a tame => ?_) fun a => .of_same rfl rfl rfl
    have left : ∀ {other v}, (a.dropVar id).var? other = some v → a.var? other = some v := by
      intro other v found
      rw [var?_dropVar] at found
      split at found
      · cases found
      · exact found
    exact ⟨fun found => tame.register (left found), fun found has => tame.home (left found) has,
      fun found => tame.scalar (left found), tame.free, tame.parked, tame.outside⟩
  exact .ite (fun _ => .bind (.aside fun _ => ⟨rfl, rfl, rfl, rfl, rfl, rfl, rfl⟩) fun _ _ => forget) fun _ =>
    .bind tends_modifyLevel fun _ _ => forget

theorem tends_remove : Tends (remove name) fun _ => True := .bind tends_resolve fun _ _ => tends_drop

theorem tends_removeIfTemp : Tends (removeIfTemp name) fun _ => True := by
  refine .bind (.look (Q := fun _ => True) fun _ _ => trivial) fun found _ => ?_
  split
  · exact tends_drop
  · exact .pure trivial

theorem tends_discardTemps : Tends discardTemps fun _ => True :=
  .bind (.look (Q := fun _ => True) fun _ _ => trivial) fun _ _ =>
    .bind (.forM fun _ _ => tends_drop) fun _ _ => .pure trivial

theorem tends_reserve : Tends (reserve r) fun _ => True := by
  have rest : Tends (do
      withdraw r
      if r.isPool then
        change fun a => { a with
          reserved := if r ∈ a.reserved then a.reserved else a.reserved ++ [r] }) fun _ => True :=
    .bind tends_withdraw fun _ _ => .ite (fun _ => .aside fun _ => ⟨rfl, rfl, rfl, rfl, rfl, rfl, rfl⟩)
      fun _ => .pure trivial
  refine .bind (.look (Q := fun _ => True) fun _ _ => trivial) fun owner _ => ?_
  cases owner with
  | none => exact rest
  | some id =>
    exact .bind tends_hold fun _ _ => .bind tends_take fun _ common =>
      .bind (.emit (MachineInstr.calm_move common)) fun _ _ => .bind tends_setOwner fun _ _ =>
        .bind (tends_bindTo common) fun _ _ => rest

theorem tends_unreserveAll : Tends unreserveAll fun _ => True :=
  .bind (.look (Q := fun _ => True) fun _ _ => trivial) fun _ _ =>
    .bind (.aside fun _ => ⟨rfl, rfl, rfl, rfl, rfl, rfl, rfl⟩) fun _ _ => .forM fun _ _ =>
      .bind (.look (Q := fun _ => True) fun _ _ => trivial) fun _ _ =>
        .ite (fun _ => tends_release) fun _ => .pure trivial

theorem tends_setKind {kind : NumberKind} : Tends (setKind name kind) fun _ => True :=
  .bind tends_resolve fun _ _ => .update fun _ _ => moves_of_same rfl rfl rfl

theorem tends_setRefs {refs : Nat} : Tends (setRefs name refs) fun _ => True :=
  .bind tends_resolve fun _ _ => .update fun _ _ => moves_of_same rfl rfl rfl

theorem tends_setMustReload : Tends (setMustReload name) fun _ => True :=
  .bind tends_resolve fun _ _ => .update fun _ _ => moves_of_same rfl rfl rfl

theorem tends_kind : Tends (kind name) fun _ => True :=
  .bind (.bind tends_resolve fun _ _ => .known) fun _ _ => .pure trivial

theorem tends_refs : Tends (refs name) fun _ => True :=
  .bind (.bind tends_resolve fun _ _ => .known) fun _ _ => .pure trivial

theorem tends_setAlias {target : String} : Tends (setAlias name target) fun _ => True :=
  .bind tends_resolve fun _ _ => tends_modifyLevel

theorem tends_removeAlias : Tends (removeAlias name) fun _ => True := tends_modifyLevel

theorem tends_demote : Tends (demote name) fun _ => True := by
  refine .bind (.look (Q := fun _ => True) fun _ _ => trivial) fun found _ => ?_
  split
  · exact .aside fun _ => ⟨rfl, rfl, rfl, rfl, rfl, rfl, rfl⟩
  · exact .pure trivial

/-! ### Where paths meet -/

theorem tends_sendHome : Tends (sendHome r) fun _ => True := by
  refine .bind (.look (Q := fun _ => True) fun _ _ => trivial) fun owner _ => ?_
  split
  · exact .pure trivial
  · exact .bind .known fun _ _ => .ite (fun _ => .pure trivial) fun _ => .ite
      (fun _ => .bind tends_writeBack fun _ _ => tends_unbind) fun _ => tends_unbind

theorem tends_pin : Tends (pin id) fun _ => True := .update fun _ _ => moves_of_same rfl rfl rfl

theorem tends_bringBack : Tends (bringBack id) fun _ => True :=
  .bind .known fun _ _ => .ite (fun _ => .bind tends_take fun _ common => .bind (tends_load common) fun _ _ =>
    .bind (tends_bindTo common) fun _ _ => .update fun _ _ => moves_of_same rfl rfl rfl) fun _ => .pure trivial

theorem tends_sync : Tends sync fun _ => True :=
  .bind (.forM fun _ _ => tends_sendHome) fun _ _ =>
    .bind (.look (Q := fun _ => True) fun _ _ => trivial) fun _ _ =>
      .bind (.forM fun _ _ => tends_pin) fun _ _ => .forM fun _ _ => tends_bringBack

theorem tends_pushLevel {hides : Bool} : Tends (pushLevel hides) fun _ => True :=
  .aside fun _ => ⟨rfl, rfl, rfl, rfl, rfl, rfl, rfl⟩

theorem tends_closeLevel {level : Level} : Tends (closeLevel level) fun _ => True :=
  .bind (.forM fun _ _ => tends_drop) fun _ _ => .aside fun _ => ⟨rfl, rfl, rfl, rfl, rfl, rfl, rfl⟩

theorem tends_popLevel : Tends popLevel fun _ => True := by
  refine .bind (.look (Q := fun _ => True) fun _ _ => trivial) fun levels _ => ?_
  split
  · exact .throw _
  · exact tends_closeLevel

theorem tends_vacate : Tends (vacate r) fun _ => True := by
  refine .bind (.look (Q := fun _ => True) fun _ _ => trivial) fun owner _ => ?_
  split
  · exact .pure trivial
  · exact tends_unbind

/-! ### Calls -/

theorem tends_leaveForCall : Tends (leaveForCall r) fun x => ∀ t, x = some t → t.2.Common := by
  refine .bind (.look (Q := fun _ => True) fun _ _ => trivial) fun owner _ => ?_
  cases owner with
  | none => exact .pure fun _ none => by cases none
  | some id =>
    refine .bind .known fun v place => ?_
    have gone : Tends (do
        unbind id
        return none) fun x : Option (VarId × Reg) => ∀ t, x = some t → t.2.Common :=
      .bind tends_unbind fun _ _ => .pure fun _ none => by cases none
    cases there : v.storage with
    | register r =>
      simp only [Storage.register?]
      refine .ite (fun _ => .pure fun t is => ?_) fun _ => .ite (fun _ => .bind tends_writeBack fun _ _ => gone)
        fun _ => gone
      cases is
      exact place.1 r there
    | memory | saved => exact .pure fun _ none => by cases none

theorem tends_park {saved : VarId × Reg × Nat} : Tends (park saved) fun _ => True :=
  .bind tends_setOwner fun _ _ => .bind (.aside fun _ => ⟨rfl, rfl, rfl, rfl, rfl, rfl, rfl⟩) fun _ _ =>
    .update fun _ _ => ⟨fun _ there => (by cases there),
      fun _ has => .inl (has.resolve_right fun there => by cases there), rfl⟩

theorem tends_unpark {base : Reg} {saved : VarId × Reg × Nat} (common : saved.2.1.Common) :
    Tends (unpark base saved) fun _ => True :=
  .bind (.emit ⟨saved.2.1, rfl, common⟩) fun _ _ => tends_bindTo common

end Alloc

end SmallC
