import SmallC.Allocation.Consistency
import SmallC.Proofs.Allocation.Calls

/-!
The operations of the allocator, as the generator of code may use them, and what holds in every state that
they reach: registers and variables know of each other, and no register of the pool is ever lost or
handed out twice.
-/
namespace SmallC

open Alloc

/-- An operation of the allocator with its arguments. -/
inductive Operation where
  | addVariable (name : String) (given : Option Reg)
  | declareVariable (name : String)
  | addTemp
  | renameTemp (temp name : String)
  | detachAsTemp (name : String)
  | getRegister (name : String) (modifies : Bool)
  | prepareWrite (name : String)
  | markWritten (name : String)
  | remove (name : String)
  | removeIfTemp (name : String)
  | discardTemps
  | reserve (r : Reg)
  | unreserveAll
  | setArray (name : String) (size : Nat)
  | arrayAddress (name : String)
  | setDims (name : String) (dims : List Nat)
  | dims (name : String)
  | memoryAddress (name : String)
  | setMustReload (name : String)
  | setKind (name : String) (kind : NumberKind)
  | kind (name : String)
  | setRefs (name : String) (refs : Nat)
  | refs (name : String)
  | setAlias (name target : String)
  | removeAlias (name : String)
  | demote (name : String)
  | hold (r : Reg)
  | releaseHolds
  | sync
  | pushLevel (hidesOuter : Bool)
  | popLevel
  | enterFunction
  | leaveFunction
  | pushWords (words : Int)
  | popWords (words : Int)
  | saveForCall
  | restoreAfterCall

namespace Operation

/-- What an operation does, apart from its answer. -/
def act : Operation → Alloc Unit
  | addVariable name given => (fun _ => ()) <$> Alloc.addVariable name given
  | declareVariable name => Alloc.declareVariable name
  | addTemp => (fun _ => ()) <$> Alloc.addTemp
  | renameTemp temp name => Alloc.renameTemp temp name
  | detachAsTemp name => (fun _ => ()) <$> Alloc.detachAsTemp name
  | getRegister name modifies => (fun _ => ()) <$> Alloc.getRegister name modifies
  | prepareWrite name => (fun _ => ()) <$> Alloc.prepareWrite name
  | markWritten name => Alloc.markWritten name
  | remove name => Alloc.remove name
  | removeIfTemp name => Alloc.removeIfTemp name
  | discardTemps => (fun _ => ()) <$> Alloc.discardTemps
  | reserve r => Alloc.reserve r
  | unreserveAll => Alloc.unreserveAll
  | setArray name size => Alloc.setArray name size
  | arrayAddress name => (fun _ => ()) <$> Alloc.arrayAddress name
  | setDims name sizes => Alloc.setDims name sizes
  | dims name => (fun _ => ()) <$> Alloc.dims name
  | memoryAddress name => (fun _ => ()) <$> Alloc.memoryAddress name
  | setMustReload name => Alloc.setMustReload name
  | setKind name read => Alloc.setKind name read
  | kind name => (fun _ => ()) <$> Alloc.kind name
  | setRefs name stars => Alloc.setRefs name stars
  | refs name => (fun _ => ()) <$> Alloc.refs name
  | setAlias name target => Alloc.setAlias name target
  | removeAlias name => Alloc.removeAlias name
  | demote name => Alloc.demote name
  | hold r => Alloc.hold r
  | releaseHolds => Alloc.releaseHolds
  | sync => Alloc.sync
  | pushLevel hidesOuter => Alloc.pushLevel hidesOuter
  | popLevel => Alloc.popLevel
  | enterFunction => Alloc.enterFunction
  | leaveFunction => (fun _ => ()) <$> Alloc.leaveFunction
  | pushWords words => Alloc.pushWords words
  | popWords words => Alloc.popWords words
  | saveForCall => Alloc.saveForCall
  | restoreAfterCall => Alloc.restoreAfterCall

/-- When the generator of code may use an operation. While a call is pending, only the stack may move
until the call is over. Levels are closed as they were opened, and function bodies start at the root.
A register that is asked for carries an argument. -/
def Permitted (a : Allocator) : Operation → Prop
  | pushWords _ | popWords _ | restoreAfterCall => True
  | addVariable _ given => a.calls = [] ∧ ∀ r, given = some r → r ∈ Reg.arguments
  | popLevel => a.calls = [] ∧ (a.inFunction → 2 ≤ a.depth)
  | enterFunction => a.calls = [] ∧ a.inner = [] ∧ a.temps = [] ∧ a.reserved = []
  | leaveFunction => a.calls = [] ∧ a.reserved = []
  | detachAsTemp name => a.calls = [] ∧ ∀ id v, a.find? name = some id → a.var? id = some v →
      v.isTemp = false ∧ v.name = name
  | _ => a.calls = []

end Operation

namespace Allocator

/-- The states that permitted operations reach, none of which fails. -/
inductive Reached : Allocator → Prop where
  | initial : Reached initial
  | step {w w' : Work} (op : Operation) (reached : Reached w.allocator)
      (permitted : op.Permitted w.allocator) (ran : Ran op.act w () w') : Reached w'.allocator

/-- What holds between two operations. -/
structure InOrder (a : Allocator) : Prop where
  sound : Sound [] a
  pending : a.calls = [] ∨ ∃ save, a.calls = [save] ∧ Waits save a

variable {a : Allocator} {w w' : Work}

theorem InOrder.of_idle (sound : Sound [] w'.allocator) (idle : w.allocator.calls = [])
    (calls : w'.allocator.calls = w.allocator.calls) : InOrder w'.allocator :=
  ⟨sound, .inl (calls.trans idle)⟩

theorem initial_inOrder : InOrder initial := by
  have unknown : ∀ {id v}, initial.var? id ≠ some v := by
    intro id v found
    cases found
  have unowned : ∀ r, initial.ownerOf r = none := fun r => Vector.getElem_replicate r.index_lt
  have level : ∀ {d : Nat} {l : Level}, initial.levels[d]? = some l → l.names = [] := by
    intro d l found
    rw [List.mem_singleton.1 (List.mem_of_getElem? found)]
    rfl
  refine ⟨⟨⟨?registers, ?names, ?homes, fun found => absurd found unknown⟩, ?body⟩, .inl rfl⟩
  case registers =>
    have places : ∀ r, initial.places r = if r.isPool then 1 else 0 := by
      intro r
      rw [Allocator.places, holds_of_no_owner (unowned r)]
      exact Reg.count_filter_all Reg.isPool r
    refine ⟨⟨fun {r id} => ?_, fun {id} => ?_⟩, fun r => ?_, fun {r} inPool => ?_,
      fun {r} member => (List.mem_filter.1 member).2, fun {r} member => ?_⟩
    · constructor
      · intro owned
        cases (unowned r).symm.trans owned
      · rintro ⟨v, found, -⟩
        exact absurd found unknown
    · rw [show initial.recency = Recency.empty from rfl, Recency.toList_empty]
      constructor
      · intro member
        cases member
      · rintro ⟨r, owned⟩
        cases (unowned r).symm.trans owned
    · rw [places]
      split
      · exact Nat.le_refl 1
      · exact Nat.zero_le 1
    · have one := (places r).trans (if_pos inPool)
      omega
    · cases member
  case names =>
    refine ⟨fun found => absurd found unknown, fun {n i} member => ?_, List.nodup_nil,
      fun {n i} member => ?_, fun found => absurd found unknown, fun {d l n i} found member => ?_,
      fun {d l} found => ?_⟩
    · cases member
    · cases member
    · rw [level found] at member
      cases member
    · rw [level found]
      exact List.nodup_nil
  case homes =>
    exact ⟨fun found => absurd found unknown, fun found => absurd found unknown,
      fun found => absurd found unknown⟩
  case body =>
    refine ⟨rfl, fun inside => ?_, fun {o} found => ?_⟩
    · cases inside
    · cases found

/-- A note about a variable that a name stands for keeps things in order. -/
theorem note_inOrder {f : Variable → Variable} {name : String} (sound : Sound [] w.allocator)
    (idle : w.allocator.calls = []) (ran : Ran (do update (← resolve name) f) w () w')
    (note : ∀ v, (f v).storage = v.storage ∧ (f v).name = v.name ∧ (f v).isTemp = v.isTemp ∧
      (f v).depth = v.depth ∧ (f v).home = v.home ∧ (f v).array = v.array ∧
      (f v).isPinned = v.isPinned) : InOrder w'.allocator := by
  refine .of_idle (noteOf_sound sound note ran) idle ?_
  simp only [ran_bind, ran_resolve, ran_update, and_assoc, exists_and_left, exists_eq_left] at ran
  obtain ⟨id, -, v, -, rfl⟩ := ran
  rfl

/-- Reading what is known about a variable changes nothing. -/
theorem knownAs_reads {α : Type} {f : Variable → Alloc α} {name : String} {x : α}
    (reads : ∀ v, Ran (f v) w x w' → w' = w) (ran : Ran (knownAs name >>= f) w x w') : w' = w := by
  obtain ⟨v, mid, known, rest⟩ := ran_bind.1 ran
  obtain ⟨id, mid', resolved, found⟩ := ran_bind.1 known
  obtain ⟨-, rfl⟩ := ran_resolve.1 resolved
  obtain ⟨-, rfl⟩ := ran_known.1 found
  exact reads v rest

/-- Every permitted operation that succeeds keeps things in order. -/
theorem step_inOrder (op : Operation) (before : InOrder w.allocator)
    (permitted : op.Permitted w.allocator) (ran : Ran op.act w () w') : InOrder w'.allocator := by
  have sound := before.sound
  cases op with
  | addVariable name given =>
    obtain ⟨r, ran, -⟩ := ran_map.1 ran
    obtain ⟨idle, argument⟩ := permitted
    refine .of_idle (addVariable_sound sound idle (fun s given => ?_) ran) idle
      (addVariable_calls sound ran)
    have outside : ∀ s ∈ Reg.arguments, s.isPool = false := by decide
    exact outside s (argument s given)
  | declareVariable name =>
    exact .of_idle (declareVariable_sound sound ran) permitted (declareVariable_calls ran)
  | addTemp =>
    obtain ⟨temp, ran, -⟩ := ran_map.1 ran
    exact .of_idle (addTemp_sound sound ran) permitted (addTemp_calls sound ran)
  | renameTemp temp name =>
    exact .of_idle (renameTemp_sound sound ran) permitted (renameTemp_calls ran)
  | detachAsTemp name =>
    obtain ⟨temp, ran, -⟩ := ran_map.1 ran
    obtain ⟨idle, own⟩ := permitted
    exact .of_idle (detachAsTemp_sound sound (fun resolved found => own _ _ resolved found) ran) idle
      (detachAsTemp_calls sound ran)
  | getRegister name modifies =>
    obtain ⟨r, ran, -⟩ := ran_map.1 ran
    exact .of_idle (getRegister_sound sound ran) permitted (getRegister_reads sound ran).1.calls
  | prepareWrite name =>
    obtain ⟨r, ran, -⟩ := ran_map.1 ran
    exact .of_idle (prepareWrite_sound sound ran) permitted (prepareWrite_calls sound ran)
  | markWritten name =>
    exact .of_idle (markWritten_sound sound ran) permitted (markWritten_calls ran)
  | remove name =>
    obtain ⟨id, mid, resolved, dropped⟩ := ran_bind.1 ran
    obtain ⟨-, rfl⟩ := ran_resolve.1 resolved
    exact .of_idle (drop_sound sound dropped) permitted (drop_calls dropped)
  | removeIfTemp name =>
    obtain ⟨sound', calls⟩ := removeIfTemp_sound sound ran
    exact .of_idle sound' permitted calls
  | discardTemps =>
    obtain ⟨n, ran, -⟩ := ran_map.1 ran
    obtain ⟨sound', calls⟩ := discardTemps_sound sound ran
    exact .of_idle sound' permitted calls
  | reserve r =>
    obtain ⟨sound', calls⟩ := reserve_sound sound permitted ran
    exact .of_idle sound' permitted calls
  | unreserveAll =>
    obtain ⟨sound', calls⟩ := unreserveAll_sound sound ran
    exact .of_idle sound' permitted calls
  | setArray name size =>
    exact .of_idle (setArray_sound sound ran) permitted (setArray_calls ran)
  | arrayAddress name =>
    obtain ⟨address, ran, -⟩ := ran_map.1 ran
    have same := knownAs_reads (fun v ran => by
      split at ran
      · exact (ran_addressOf.1 ran).2
      · exact (ran_throw.1 ran).elim) ran
    rw [same]
    exact before
  | setDims name sizes =>
    exact note_inOrder sound permitted ran fun v => ⟨rfl, rfl, rfl, rfl, rfl, rfl, rfl⟩
  | dims name | kind name | refs name =>
    obtain ⟨answer, ran, -⟩ := ran_map.1 ran
    rw [knownAs_reads (fun v ran => (ran_pure.1 ran).2) ran]
    exact before
  | memoryAddress name =>
    obtain ⟨address, ran, -⟩ := ran_map.1 ran
    obtain ⟨sound', calls⟩ := memoryAddress_sound sound ran
    exact .of_idle sound' permitted calls
  | setMustReload name | setKind name read | setRefs name stars =>
    exact note_inOrder sound permitted ran fun v => ⟨rfl, rfl, rfl, rfl, rfl, rfl, rfl⟩
  | setAlias name target =>
    obtain ⟨sound', calls⟩ := setAlias_sound sound ran
    exact .of_idle sound' permitted calls
  | removeAlias name =>
    obtain ⟨sound', calls⟩ := removeAlias_sound sound ran
    exact .of_idle sound' permitted calls
  | demote name =>
    obtain ⟨sound', calls⟩ := demote_sound sound ran
    exact .of_idle sound' permitted calls
  | hold r =>
    rw [ran_hold.1 ran]
    exact ⟨sound.congr (fun _ => Iff.rfl) rfl, .inl permitted⟩
  | releaseHolds =>
    have ran : Ran Alloc.releaseHolds w () w' := ran
    rw [ran_change.1 ran]
    exact ⟨sound.congr (fun _ => Iff.rfl) rfl, .inl permitted⟩
  | sync =>
    obtain ⟨sound', calls⟩ := sync_sound sound ran
    exact .of_idle sound' permitted calls
  | pushLevel hidesOuter =>
    obtain ⟨sound', calls⟩ := pushLevel_sound sound ran
    exact .of_idle sound' permitted calls
  | popLevel =>
    obtain ⟨sound', calls⟩ := popLevel_sound sound permitted.2 ran
    exact .of_idle sound' permitted.1 calls
  | enterFunction =>
    obtain ⟨idle, root, noTemps, unreserved⟩ := permitted
    obtain ⟨sound', calls⟩ := enterFunction_sound sound root noTemps unreserved idle ran
    exact ⟨sound', .inl calls⟩
  | leaveFunction =>
    obtain ⟨n, ran, -⟩ := ran_map.1 ran
    obtain ⟨sound', calls⟩ := leaveFunction_sound sound permitted.2 permitted.1 ran
    exact ⟨sound', .inl calls⟩
  | pushWords words | popWords words =>
    obtain ⟨pushed, rfl⟩ : ∃ pushed, w' = on (fun a => { a with pushed }) w := ⟨_, ran_change.1 ran⟩
    refine ⟨sound.congr (fun _ => Iff.rfl) rfl, before.pending.imp (fun idle => idle) ?_⟩
    rintro ⟨save, pending, waits⟩
    exact ⟨save, pending, waits.once, waits.there⟩
  | saveForCall =>
    obtain ⟨sound', pending⟩ := saveForCall_sound sound permitted ran
    exact ⟨sound', .inr pending⟩
  | restoreAfterCall =>
    rcases before.pending with idle | ⟨save, pending, waits⟩
    · obtain ⟨save, calls, back, pending, -⟩ := ran_restoreAfterCall ran
      cases idle.symm.trans pending
    · obtain ⟨sound', calls⟩ := restoreAfterCall_sound sound pending waits ran
      exact ⟨sound', .inl calls⟩

theorem Reached.inOrder (reached : Reached a) : InOrder a := by
  induction reached with
  | initial => exact initial_inOrder
  | step op _ permitted ran before => exact step_inOrder op before permitted ran

/-! ### What is in order -/

theorem forM_ok {ε α : Type} {f : α → Except ε Unit} {xs : List α} (all : ∀ x ∈ xs, f x = .ok ()) :
    xs.forM f = .ok () := by
  induction xs with
  | nil => rfl
  | cons x xs ih =>
    change (f x >>= fun _ => xs.forM f) = _
    rw [all x List.mem_cons_self]
    exact ih fun y member => all y (List.mem_cons_of_mem x member)

/-- What is known about a variable, by its place among the others. -/
theorem var?_of_mem_zipIdx {v : Variable} {id : VarId}
    (member : (some v, id) ∈ a.vars.toList.zipIdx) : a.var? id = some v := by
  have found := (List.mem_zipIdx_iff_getElem?.1 member)
  rw [var?, ← Array.getElem?_toList, found]
  rfl

theorem Settled.checkConsistency {hand : List Reg} (settled : Settled hand a) :
    a.checkConsistency = .ok () := by
  have owners : Reg.all.forM a.checkOwner = .ok () := forM_ok fun r _ => by
    unfold checkOwner
    cases owned : a.ownerOf r with
    | none => rfl
    | some id =>
      obtain ⟨v, found, there⟩ := settled.registers.owner.1 owned
      simp [found, there]
  have registers : a.vars.toList.zipIdx.forM a.checkRegister = .ok () := forM_ok fun entry member => by
    obtain ⟨known, id⟩ := entry
    cases known with
    | none => rfl
    | some v =>
      rcases v.storage.in_register with ⟨r, there⟩ | away
      · have owned := settled.registers.owner.2 ⟨v, var?_of_mem_zipIdx member, there⟩
        simp [checkRegister, there, Storage.register?, owned]
      · simp [checkRegister, away]
  have free : a.free.forM a.checkFree = .ok () := forM_ok fun r member => by
    cases owned : a.ownerOf r with
    | none => simp [checkFree, owned]
    | some id => exact absurd member (settled.registers.not_free owned)
  have pins : a.vars.toList.forM checkPin = .ok () := forM_ok fun entry member => by
    cases entry with
    | none => rfl
    | some v =>
      obtain ⟨id, inside, found⟩ := List.mem_iff_getElem.1 member
      have known : a.var? id = some v := by
        rw [var?, ← Array.getElem?_toList, List.getElem?_eq_getElem inside, found]
        rfl
      have pinned := (settled.fits known).pinned
      unfold checkPin
      simp only
      rw [if_neg]
      rintro ⟨isPinned, inMemory⟩
      cases there : v.storage with
      | memory home => exact pinned isPinned home there
      | register | saved =>
        rw [there] at inMemory
        cases inMemory
  unfold Allocator.checkConsistency
  rw [owners, registers, free]
  exact pins

/-- In every state that is reached, registers and the variables in them know of each other and no two
variables share a register; every register of the pool is in exactly one place; the order of use is that
of the variables in registers; no pinned temporary is spilled; and so the check of consistency
finds nothing. -/
theorem registers_accounted_for (reached : Reached a) :
    (∀ r id, a.ownerOf r = some id ↔ ∃ v, a.var? id = some v ∧ v.storage = .register r) ∧
    (∀ id other v v' r, a.var? id = some v → v.storage = .register r →
      a.var? other = some v' → v'.storage = .register r → id = other) ∧
    (∀ r, r.isPool → a.free.count r + (if (a.ownerOf r).isSome then 1 else 0) +
      a.reserved.count r + a.parked.count r = 1) ∧
    (a.recency.toList.Nodup ∧ ∀ id, id ∈ a.recency.toList ↔
      ∃ v r, a.var? id = some v ∧ v.storage = .register r) ∧
    (∀ id v, a.var? id = some v → v.isPinned = true → v.storage.isMemory = false) ∧
    a.checkConsistency = .ok () := by
  have sound := reached.inOrder.sound
  refine ⟨fun r id => sound.registers.owner, fun id other v v' r found there found' there' =>
    sound.registers.toOwners.unique found there found' there', fun r inPool => ?_,
    ⟨Recency.nodup_toList _, fun id => ?_⟩, fun id v found pinned => ?_,
    sound.toSettled.checkConsistency⟩
  · have once := sound.registers.once r
    have pool := sound.registers.pool inPool
    rw [List.count_nil, Nat.add_zero] at once pool
    exact Nat.le_antisymm once pool
  · rw [sound.registers.recent]
    constructor
    · rintro ⟨r, owned⟩
      obtain ⟨v, found, there⟩ := sound.registers.owner.1 owned
      exact ⟨v, r, found, there⟩
    · rintro ⟨v, r, found, there⟩
      exact ⟨r, sound.registers.owner.2 ⟨v, found, there⟩⟩
  · cases there : v.storage with
    | memory home => exact absurd there ((sound.fits found).pinned pinned home)
    | register | saved => rfl

/-- The work that an operation leaves behind. -/
def after (op : Operation) (w : Work) : Work :=
  match op.act.run w with
  | .ok _ w' => w'
  | .error _ w' => w'

/-- What a permitted operation leaves behind is reached if it does not fail. -/
theorem reached_after {w : Work} (op : Operation) (reached : Reached w.allocator) (permitted : op.Permitted w.allocator)
    (ran : Ran op.act w () (after op w)) : Reached (after op w).allocator := .step op reached permitted ran

/-- A temporary waits for a call to return. -/
def waiting : Work := after .saveForCall (after .addTemp ⟨initial, #[]⟩)

theorem registers_accounted_for_waiting :
    waiting.allocator.parked = [⟨8⟩] ∧ waiting.allocator.checkConsistency = .ok () := by
  have first : Reached (after .addTemp ⟨initial, #[]⟩).allocator :=
    .step (w := ⟨initial, #[]⟩) .addTemp .initial rfl rfl
  have second : Reached waiting.allocator :=
    .step (w := after .addTemp ⟨initial, #[]⟩) .saveForCall first rfl rfl
  exact ⟨rfl, (registers_accounted_for second).2.2.2.2.2⟩

end Allocator

end SmallC
