import SmallC.Proofs.Allocation.Values

/-!
Straight-line code. A course alternates operations of the allocator with instructions that write what they
hand out, and all of it is executed in order. At every point, whatever was written last can be read, even
if it was spilled, reloaded, relocated, renamed or detached in between.
-/
namespace SmallC

open Alloc Allocator Machine

/-- Where something new is to be written: a new variable, a new temporary, or what a name stands for. -/
inductive Destination where
  | named (name : String)
  | temporary (modifies : Bool)
  | again (name : String)

/-- The name of what is to be written, and the register for it. -/
def Destination.prepare : Destination → Alloc (String × Reg)
  | named name => do return (name, ← addVariable name none)
  | temporary modifies => do
    let temp ← addTemp
    return (temp, ← Alloc.getRegister temp modifies)
  | again name => do return (name, ← prepareWrite name)

/-- Whether an operation belongs to straight-line code and writes no variable. -/
def Operation.Straight : Operation → Prop
  | declareVariable _ | renameTemp .. | detachAsTemp _ | getRegister .. | remove _ | removeIfTemp _
  | reserve _ | unreserveAll | setAlias .. | removeAlias _ | demote _ | hold _ | releaseHolds | sync
  | pushLevel _ | popLevel => True
  | _ => False

/-- The work that straight-line code has left behind, with the value that each variable was given last.
It starts with no variable in a register, at the top level or in the body of a function, and no operation
fails. What is written goes to the register that was handed out for it. Apart from that, an instruction
may write any register that holds no variable, a reserved one above all, but not the stack pointer. -/
inductive Course (m₀ : Machine) : Work → (VarId → Option Word) → Prop where
  | start {a : Allocator} (reached : Reached a) (idle : a.calls = []) (noTemps : a.temps = [])
      (unbound : ∀ r, a.ownerOf r = none) (zero : m₀.reg Reg.zero = 0) :
      Course m₀ ⟨a, #[]⟩ fun _ => none
  | step {w w' : Work} {last : VarId → Option Word} (op : Operation) (course : Course m₀ w last)
      (straight : op.Straight) (permitted : op.Permitted w.allocator) (ran : Ran op.act w () w') :
      Course m₀ w' last
  | write {w w₁ w₂ : Work} {last : VarId → Option Word} {name : String} {r : Reg} {id : VarId}
      {i : MachineInstr} {m : Machine} (destination : Destination) (course : Course m₀ w last)
      (prepared : Ran destination.prepare w (name, r) w₁) (owned : w₁.allocator.ownerOf r = some id)
      (writes : i.written? = some r)
      (done : ∀ mid, m₀.performs w₁.code.toList = .ok mid → mid.effect i = .ok m)
      (marked : Ran (markWritten name) (Alloc.push i w₁) () w₂) :
      Course m₀ w₂ (Function.update last id (some (m.reg r)))
  | overwrite {w : Work} {last : VarId → Option Word} {r : Reg} {i : MachineInstr} {m : Machine}
      (course : Course m₀ w last) (unowned : w.allocator.ownerOf r = none)
      (aside : r ≠ Reg.stackPointer) (writes : i.written? = some r)
      (done : ∀ mid, m₀.performs w.code.toList = .ok mid → mid.effect i = .ok m) :
      Course m₀ (Alloc.push i w) last

namespace Alloc

variable {m₀ m m' : Machine} {base : Int} {size : Nat} {last : VarId → Option Word} {w w' : Work}
  {name : String} {r : Reg} {id : VarId}

theorem growing_straight {op : Operation} (straight : op.Straight) : Growing op.act := by
  have answer : ∀ {α : Type} {act : Alloc α}, Growing act → Growing ((fun _ => ()) <$> act) := by
    intro α act growing w x w' ran
    obtain ⟨y, ran, -⟩ := ran_map.1 ran
    exact growing _ _ _ ran
  cases op with
  | declareVariable name => exact growing_declareVariable
  | renameTemp temp name => exact growing_renameTemp
  | detachAsTemp name => exact answer growing_detachAsTemp
  | getRegister name modifies => exact answer growing_getRegister
  | remove name => exact growing_remove
  | removeIfTemp name => exact growing_removeIfTemp
  | reserve r => exact growing_reserve
  | unreserveAll => exact growing_unreserveAll
  | setAlias name target => exact growing_setAlias
  | removeAlias name => exact growing_removeAlias
  | demote name => exact growing_demote
  | hold r => exact growing_hold
  | releaseHolds => exact growing_releaseHolds
  | sync => exact growing_sync
  | pushLevel hides => exact growing_pushLevel
  | popLevel => exact growing_popLevel
  | _ => exact straight.elim

/-- Every operation of straight-line code keeps what the machine holds. -/
theorem straight_carried (op : Operation) (carried : Carried m₀ base size last [] w m)
    (room : Room base size w'.allocator) (straight : op.Straight)
    (permitted : op.Permitted w.allocator) (ran : Ran op.act w () w') :
    ∃ m', Carried m₀ base size last [] w' m' := by
  have sound := carried.sound
  cases op with
  | declareVariable name => exact ⟨m, declareVariable_carried carried ran⟩
  | renameTemp temp name => exact ⟨m, renameTemp_carried carried ran⟩
  | detachAsTemp name =>
    obtain ⟨temp, ran, -⟩ := ran_map.1 ran
    exact detachAsTemp_carried carried room (fun resolved found => permitted.2 _ _ resolved found) ran
  | getRegister name modifies =>
    obtain ⟨r, ran, -⟩ := ran_map.1 ran
    exact getRegister_carried carried room ran
  | remove name => exact ⟨m, remove_carried carried ran⟩
  | removeIfTemp name => exact ⟨m, removeIfTemp_carried carried ran⟩
  | reserve r => exact reserve_carried carried permitted room ran
  | unreserveAll => exact ⟨m, unreserveAll_carried carried ran⟩
  | setAlias name target => exact ⟨m, setAlias_carried carried ran⟩
  | removeAlias name => exact ⟨m, removeAlias_carried carried ran⟩
  | demote name => exact ⟨m, demote_carried carried ran⟩
  | hold r =>
    rw [ran_hold.1 ran]
    exact ⟨m, carried.change (sound.congr (fun _ => Iff.rfl) rfl)
      (.of_same rfl rfl (Nat.le_refl _) rfl) rfl⟩
  | releaseHolds =>
    have ran : Ran releaseHolds w () w' := ran
    rw [ran_change.1 ran]
    exact ⟨m, carried.change (sound.congr (fun _ => Iff.rfl) rfl)
      (.of_same rfl rfl (Nat.le_refl _) rfl) rfl⟩
  | sync => exact sync_carried carried room ran
  | pushLevel hides => exact ⟨m, pushLevel_carried carried ran⟩
  | popLevel => exact ⟨m, popLevel_carried carried permitted.2 ran⟩
  | _ => exact straight.elim

theorem growing_prepare (destination : Destination) : Growing destination.prepare := by
  cases destination with
  | named name => exact .bind growing_addVariable fun _ => .pure _
  | temporary modifies =>
    exact .bind growing_addTemp fun _ => .bind growing_getRegister fun _ => .pure _
  | again name => exact .bind growing_prepareWrite fun _ => .pure _

/-- A register that was handed out for something new belongs to a variable whose value up to now does
not count. -/
theorem prepare_carried (destination : Destination) (carried : Carried m₀ base size last [] w m)
    (prepared : Ran destination.prepare w (name, r) w') (owned : w'.allocator.ownerOf r = some id)
    (room : Room base size w'.allocator) :
    ∃ m', Carried m₀ base size (Function.update last id none) [] w' m' ∧
      Poised id r w'.allocator := by
  have same : ∀ {m₁ : Machine} {last₁ : VarId → Option Word} {other : VarId},
      Carried m₀ base size last₁ [] w' m₁ → Poised other r w'.allocator → other = id := by
    intro m₁ last₁ other carried poised
    obtain ⟨v, found, there, -⟩ := poised
    exact Option.some.inj ((carried.sound.registers.owner.2 ⟨v, found, there⟩).symm.trans owned)
  have forget : ∀ {m₁ : Machine}, Carried m₀ base size last [] w' m₁ →
      Carried m₀ base size (Function.update last id none) [] w' m₁ := fun carried =>
    ⟨carried.sound, carried.agrees.forget id, carried.performed⟩
  cases destination with
  | named name =>
    obtain ⟨s, mid, ran, answer⟩ := ran_bind.1 prepared
    obtain ⟨same', rfl⟩ := ran_pure.1 answer
    cases same'
    obtain ⟨m', carried', other, poised⟩ := addVariable_carried carried room ran
    cases same carried' poised
    exact ⟨m', forget carried', poised⟩
  | temporary modifies =>
    obtain ⟨temp, mid, ran, rest⟩ := ran_bind.1 prepared
    obtain ⟨s, last, read, answer⟩ := ran_bind.1 rest
    obtain ⟨same', rfl⟩ := ran_pure.1 answer
    cases same'
    have room' := room.of_grows (growing_getRegister _ _ _ read)
    obtain ⟨m₁, carried₁, other, v, named, found, isTemp⟩ := addTemp_carried carried room' ran
    obtain ⟨m₂, carried₂⟩ := getRegister_carried carried₁ room read
    obtain ⟨keeps, -, other', v', named', found', there⟩ := getRegister_reads carried₁.sound read
    rw [keeps.find?] at named'
    cases named.symm.trans named'
    obtain ⟨v'', found'', same'⟩ := keeps.same found
    cases found'.symm.trans found''
    have poised : Poised other r w'.allocator := by
      refine ⟨v', found', there, fun isNamed => ?_⟩
      cases (same'.isTemp.trans isTemp).symm.trans isNamed
    cases same carried₂ poised
    exact ⟨m₂, forget carried₂, poised⟩
  | again name =>
    obtain ⟨s, mid, ran, answer⟩ := ran_bind.1 prepared
    obtain ⟨same', rfl⟩ := ran_pure.1 answer
    cases same'
    obtain ⟨m', other, carried', poised⟩ := prepareWrite_carried carried room ran
    cases same carried' poised
    exact ⟨m', carried', poised⟩

theorem start_carried {a : Allocator} (reached : Reached a)
    (noTemps : a.temps = []) (unbound : ∀ r, a.ownerOf r = none) (zero : m₀.reg Reg.zero = 0) :
    Carried m₀ ((m₀.reg Reg.stackPointer).toInt + a.pushed) m₀.memory.size (fun _ => none) []
      ⟨a, #[]⟩ m₀ := by
  have sound := reached.inOrder.sound
  have isNamed : ∀ {id v}, a.var? id = some v → v.isTemp = false := by
    intro id v found
    cases isTemp : v.isTemp with
    | false => rfl
    | true =>
      have standing := sound.names.temp found isTemp
      rw [noTemps] at standing
      cases standing
  refine ⟨sound, ⟨zero, rfl, rfl, fun _ => rfl, fun {id v} found => ⟨fun {r} there => ?_,
    (sound.fits found).unsaved (isNamed found), fun isTemp => ?_⟩, fun _ _ written => ?_⟩, rfl⟩
  · cases (unbound r).symm.trans (sound.registers.owner.2 ⟨v, found, there⟩)
  · cases (isNamed found).symm.trans isTemp
  · cases written

theorem run_look_bind {α β : Type} (f : Allocator → α) (g : α → Alloc β) (w : Work) :
    (look f >>= g).run w = (g (f w.allocator)).run w := rfl

/-- A register that is free is taken, the one that was freed first. -/
theorem take_of_free (first : w.allocator.free.find? (· ∉ w.allocator.held) = some r) :
    Ran take w r (on (fun a => a.withdrawn r) w) := by
  refine ran_bind.2 ⟨_, w, ran_look.2 ⟨rfl, rfl⟩, ?_⟩
  rw [first]
  exact ran_bind.2 ⟨(), _, ran_withdraw.2 rfl, ran_pure.2 ⟨rfl, rfl⟩⟩

/-- If none is, a variable has to leave its register. -/
theorem take_of_full (full : w.allocator.free.find? (· ∉ w.allocator.held) = none) :
    take.run w = (match chooseVictim? w.allocator with
      | some id => evict id
      | none => throw AllocatorFault.outOfRegisters : Alloc Reg).run w := by
  rw [take, run_look_bind]
  simp only [full]
  exact run_look_bind chooseVictim? _ w

/-- A register is taken whenever one is free that is not held. -/
theorem take_succeeds (free : ∃ r ∈ w.allocator.free, r ∉ w.allocator.held) :
    ∃ r, Ran take w r (on (fun a => a.withdrawn r) w) := by
  obtain ⟨s, member, loose⟩ := free
  cases first : w.allocator.free.find? (· ∉ w.allocator.held) with
  | none =>
    have held := List.find?_eq_none.1 first s member
    simp only [loose, not_false_eq_true, decide_true, not_true_eq_false] at held
  | some r => exact ⟨r, take_of_free first⟩

/-- The word of a scalar is loaded whenever the scalar has a home that was handed out. -/
theorem load_succeeds {v : Variable} {home : Home} (found : w.allocator.var? id = some v)
    (scalar : v.array = none) (has : v.home = some home) (granted : w.allocator.Grants home)
    (there : v.storage = .memory home ∨ ∃ s, v.storage = .register s) (r : Reg) :
    ∃ w', Ran (load id r) w () w' := by
  obtain ⟨address, known⟩ := address_of_grants granted
  have word : Ran (loadWord r home) w () (push (.lw r address.base address.offset) w) :=
    ran_bind.2 ⟨address, w, ran_addressOf.2 ⟨known, rfl⟩, ran_emit.2 rfl⟩
  refine ⟨push (.lw r address.base address.offset) w,
    ran_bind.2 ⟨v, w, ran_known.2 ⟨found, rfl⟩, ?_⟩⟩
  rcases there with there | ⟨s, there⟩
  · simp only [scalar, there]
    exact word
  · simp only [scalar, there, has]
    exact word

/-- A scalar can be read if it is in a register already or if a register can be taken for it. -/
theorem read_succeeds {v : Variable} (modifies : Bool) (sound : Sound [] w.allocator)
    (resolved : w.allocator.find? name = some id) (found : w.allocator.var? id = some v) (scalar : v.array = none)
    (unsaved : ∀ slot, v.storage ≠ .saved slot) (settled : v.isTemp = true → v.mustReload = false)
    (available : v.storage.register?.isSome ∨ ∃ r mid, Ran take w r mid) :
    ∃ r w', Ran (getRegister name modifies) w r w' := by
  have use : ∀ (s : Reg) (mid : Work), Ran (do
      touch id
      hold s
      return s) mid s (on (fun a => a.used id s) mid) := fun s mid =>
    ran_bind.2 ⟨(), _, ran_touch.2 rfl, ran_bind.2 ⟨(), _, ran_hold.2 rfl, ran_pure.2 ⟨rfl, rfl⟩⟩⟩
  have start : ∀ {α : Type} {f : VarId → Variable → Alloc α} {x : α} {w' : Work},
      Ran (f id v) w x w' → Ran (do
        let id ← resolve name
        let v ← known id
        f id v) w x w' := fun ran =>
    ran_bind.2 ⟨id, w, ran_resolve.2 ⟨resolved, rfl⟩, ran_bind.2 ⟨v, w, ran_known.2 ⟨found, rfl⟩, ran⟩⟩
  cases there : v.storage with
  | register s =>
    by_cases reloads : modifies ∧ v.mustReload ∧ ¬ v.isDirty
    · have isNamed : v.isTemp = false := by
        cases isTemp : v.isTemp with
        | false => rfl
        | true => cases reloads.2.1.symm.trans (settled isTemp)
      obtain ⟨home, memory⟩ := Option.isSome_iff_exists.1 ((sound.fits found).home isNamed)
      rw [Variable.memory?, scalar] at memory
      obtain ⟨mid, loaded⟩ := load_succeeds found scalar memory (sound.homes.granted found memory)
        (.inr ⟨s, there⟩) s
      refine ⟨s, on (fun a => a.used id s) mid, start ?_⟩
      simp only [there, Storage.register?, if_pos reloads]
      exact ran_bind.2 ⟨(), mid, loaded, use s mid⟩
    · refine ⟨s, on (fun a => a.used id s) w, start ?_⟩
      simp only [there, Storage.register?, if_neg reloads]
      exact use s w
  | saved slot => exact absurd there (unsaved slot)
  | memory home =>
    obtain ⟨r, mid, took⟩ := available.resolve_left (by rw [there]; exact Bool.false_ne_true)
    have memory := (sound.fits found).memory there
    rw [Variable.memory?, scalar] at memory
    have taken := takes sound took
    have found' : mid.allocator.var? id = some v :=
      taken.only found fun was => by cases there.symm.trans was
    obtain ⟨loaded, load⟩ := load_succeeds found' scalar memory
      (taken.keeps.grants (sound.homes.granted found memory)) (.inl there) r
    have known : loaded.allocator.var? id = some v := by
      rw [allocator_load load]
      exact found'
    have bound : (loaded.allocator.bound id r v).var? id = some { v with storage := .register r } := by
      rw [var?_bound known, if_pos rfl]
    obtain ⟨w', rest⟩ : ∃ w', Ran (do
        bindTo id r
        update id fun v => { v with isDirty := false }
        return r) loaded r w' :=
      ⟨_, ran_bind.2 ⟨(), _, ran_bindTo.2 ⟨v, known, rfl⟩,
        ran_bind.2 ⟨(), _, ran_update.2 ⟨_, bound, rfl⟩, ran_pure.2 ⟨rfl, rfl⟩⟩⟩⟩
    refine ⟨r, w', start ?_⟩
    simp only [there, Storage.register?]
    exact ran_bind.2 ⟨r, mid, took, ran_bind.2 ⟨(), loaded, load, rest⟩⟩

/-- A scalar can be read if it is in a register already or if a register is free for it. -/
theorem getRegister_succeeds {v : Variable} (modifies : Bool)
    (carried : Carried m₀ base size last [] w m) (resolved : w.allocator.find? name = some id)
    (found : w.allocator.var? id = some v) (scalar : v.array = none)
    (available : v.storage.register?.isSome ∨ ∃ r ∈ w.allocator.free, r ∉ w.allocator.held) :
    ∃ r w', Ran (getRegister name modifies) w r w' := by
  have ordinary := carried.agrees.ordinary found
  exact read_succeeds modifies carried.sound resolved found scalar ordinary.unsaved ordinary.settled
    (available.imp_right fun free => (take_succeeds free).imp fun _ took => ⟨_, took⟩)

end Alloc

namespace Course

variable {m₀ m : Machine} {base : Int} {size : Nat} {last : VarId → Option Word} {w : Work}

/-- All code of a course executes, and the machine agrees with the allocator at its end. -/
theorem carried (course : Course m₀ w last)
    (stack : (m₀.reg Reg.stackPointer).toInt + w.allocator.pushed = base)
    (memory : m₀.memory.size = size) (room : Room base size w.allocator) :
    ∃ m, Carried m₀ base size last [] w m := by
  induction course with
  | start reached _ noTemps unbound zero =>
    subst stack memory
    exact ⟨m₀, start_carried reached noTemps unbound zero⟩
  | step op _ straight permitted ran ih =>
    have grows := growing_straight straight _ _ _ ran
    rw [grows.pushed] at stack
    obtain ⟨m, carried⟩ := ih stack (room.of_grows grows)
    exact straight_carried op carried room straight permitted ran
  | write destination _ prepared owned writes done marked ih =>
    have marks := growing_markWritten _ _ _ marked
    have grows := growing_prepare destination _ _ _ prepared
    have room₁ := room.of_grows marks
    rw [(grows.trans marks).pushed] at stack
    obtain ⟨m, carried⟩ := ih stack (room₁.of_grows grows)
    obtain ⟨m₁, carried₁, poised⟩ := prepare_carried destination carried prepared owned room₁
    have written := carried₁.written poised writes (done m₁ carried₁.performed)
    rw [Function.update_idem] at written
    exact markWritten_carried written room marked
  | overwrite _ unowned aside writes done ih =>
    obtain ⟨m, carried⟩ := ih stack room
    have executed := done m carried.performed
    have agrees := carried.agrees.write carried.sound.registers.toOwners aside
      (effect_writes writes executed) fun owned => by cases unowned.symm.trans owned
    exact ⟨_, carried.sound, agrees, performs_push carried.performed executed⟩

/-- A program begins a course. -/
theorem program (zero : m₀.reg Reg.zero = 0) : Course m₀ ⟨initial, #[]⟩ fun _ => none :=
  .start .initial rfl rfl (fun r => Vector.getElem_replicate r.index_lt) zero

/-- The body of a function begins a course. -/
theorem body {w' : Work} (reached : Reached w.allocator)
    (permitted : Operation.enterFunction.Permitted w.allocator) (ran : Ran enterFunction w () w')
    (zero : m₀.reg Reg.zero = 0) : Course m₀ ⟨w'.allocator, #[]⟩ fun _ => none := by
  have entered : Reached w'.allocator := .step .enterFunction reached permitted ran
  have sound := reached.inOrder.sound
  have sound' := entered.inOrder.sound
  obtain ⟨idle, root, noTemps, unreserved⟩ := permitted
  have calls := (enterFunction_sound sound root noTemps unreserved idle ran).2
  obtain ⟨-, parted, unbound, rfl⟩ := ran_enterFunction sound.registers.toOwners ran
  have temps : parted.allocator.temps = w.allocator.temps := by
    refine Ran.forM unbound (P := fun mid => mid.allocator.temps = w.allocator.temps) rfl ?_
    intro binding _ mid mid' same ran
    obtain ⟨v, -, ⟨-, rfl⟩ | ⟨r, -, rfl⟩⟩ := ran_unbind.1 ran
    · exact same
    · exact same
  refine .start entered calls (temps.trans noTemps) (fun r => ?_) zero
  cases owned : Allocator.ownerOf _ r with
  | none => rfl
  | some id =>
    have recent := sound'.registers.recent.2 ⟨r, owned⟩
    rw [allocator_on, Recency.toList_empty] at recent
    cases recent

end Course

/-- Spilling, reloading and relocating never lose a value. All code of a course executes, if there is room
for what was handed out. At its end, whatever name stands for a scalar that was written, reading it
succeeds if the scalar is in a register or a register is free for it; and whenever reading it succeeds,
the code emitted for that executes, given room, and leaves the value written last in the register. -/
theorem course_keeps_values {m₀ : Machine} {w : Work} {last : VarId → Option Word}
    (course : Course m₀ w last)
    (room : Room ((m₀.reg Reg.stackPointer).toInt + w.allocator.pushed) m₀.memory.size w.allocator) :
    ∃ m, m₀.performs w.code.toList = .ok m ∧ ∀ name id v x modifies,
      w.allocator.find? name = some id → w.allocator.var? id = some v → v.array = none →
        last id = some x →
      ((v.storage.register?.isSome ∨ ∃ r ∈ w.allocator.free, r ∉ w.allocator.held) →
        ∃ r w', Ran (getRegister name modifies) w r w') ∧
      ∀ r w', Ran (getRegister name modifies) w r w' →
        Room ((m₀.reg Reg.stackPointer).toInt + w'.allocator.pushed) m₀.memory.size w'.allocator →
        ∃ m', m₀.performs w'.code.toList = .ok m' ∧ m'.reg r = x := by
  obtain ⟨m, carried⟩ := course.carried rfl rfl room
  refine ⟨m, carried.performed, fun name id v x modifies named found scalar written => ⟨?_, ?_⟩⟩
  · exact getRegister_succeeds modifies carried named found scalar
  · intro r w' ran room'
    have pushed := (growing_getRegister _ _ _ ran).pushed
    rw [pushed] at room'
    obtain ⟨m', carried'⟩ := getRegister_carried carried room' ran
    obtain ⟨keeps, -, other, v', named', found', there⟩ := getRegister_reads carried.sound ran
    rw [keeps.find?] at named'
    cases named.symm.trans named'
    obtain ⟨v'', found'', same⟩ := keeps.same found
    cases found'.symm.trans found''
    have holds := carried'.agrees.holds found' (same.array.trans scalar) written
    exact ⟨m', carried'.performed, holds.register there⟩

/-- The work once a new variable has a register. -/
def introducedWork : Work := after (.addVariable "x" none) ⟨initial, #[]⟩

/-- The work once the variable was given a value in its register, which was then reserved. -/
def relocatedWork (r : Reg) : Work :=
  after (.reserve r) (after (.markWritten "x") (push (.addi r Reg.zero 5) introducedWork))

theorem relocated_course : Course (fresh 1) (push (.addi ⟨8⟩ Reg.zero 7) (relocatedWork ⟨8⟩))
    (Function.update (fun _ => none) 0 (some 5)) := by
  have prepared : Ran (Destination.named "x").prepare ⟨initial, #[]⟩ ("x", ⟨8⟩) introducedWork := rfl
  have executed : ∀ mid, (fresh 1).performs introducedWork.code.toList = .ok mid →
      mid.effect (.addi ⟨8⟩ Reg.zero 5) = .ok ((fresh 1).setReg ⟨8⟩ 5) := by
    intro mid ran
    cases ran
    rfl
  have written := Course.write (.named "x") (.program rfl) prepared rfl rfl executed rfl
  have reserved := Course.step (.reserve ⟨8⟩) written trivial rfl rfl
  refine .overwrite (r := ⟨8⟩) (m := (((fresh 1).setReg ⟨8⟩ 5).setReg ⟨9⟩ 5).setReg ⟨8⟩ 7) reserved
    rfl (by decide) rfl ?_
  intro mid ran
  have same : mid = ((fresh 1).setReg ⟨8⟩ 5).setReg ⟨9⟩ 5 := by
    cases ran
    rfl
  rw [same]
  rfl

theorem course_keeps_values_relocated : ∃ w' m',
    Ran (getRegister "x" false) (push (.addi ⟨8⟩ Reg.zero 7) (relocatedWork ⟨8⟩)) ⟨9⟩ w' ∧
      (fresh 1).performs w'.code.toList = .ok m' ∧ m'.reg ⟨9⟩ = 5 := by
  have room : ∀ w : Work, w.allocator.frame = none → w.allocator.globals = 1 →
      Room (((fresh 1).reg Reg.stackPointer).toInt + w.allocator.pushed) (fresh 1).memory.size
        w.allocator := by
    intro w frame globals
    refine ⟨Nat.le_of_eq globals, fun {slots slot} inside => ?_⟩
    cases frame.symm.trans inside
  obtain ⟨m, -, values⟩ := course_keeps_values relocated_course (room _ rfl rfl)
  have ran : Ran (getRegister "x" false) (push (.addi ⟨8⟩ Reg.zero 7) (relocatedWork ⟨8⟩)) ⟨9⟩
      (after (.getRegister "x" false) (push (.addi ⟨8⟩ Reg.zero 7) (relocatedWork ⟨8⟩))) := rfl
  obtain ⟨m', performed, read⟩ := (values "x" 0 _ 5 false rfl rfl rfl rfl).2 _ _ ran (room _ rfl rfl)
  exact ⟨_, m', ran, performed, read⟩

end SmallC
