import SmallC.Proofs.Allocation.Values
import SmallC.Proofs.Program.ReturnAddress

/-!
What stays of some variables while the allocator works on others. Code that computes a value brings temporaries
of its own along and drops them. Of the variables that others rely on it leaves everything but where the value
is, and a temporary that is pinned to a register stays even there. Nor does it write a register that is held.

All variables are numbers here: no arrays, no pointers, and none that a pointer may change.
-/
namespace SmallC

/-- A number in a word of its own. -/
structure Variable.Numeric (v : Variable) : Prop where
  pooled : ∀ {r}, v.storage = .register r → r.isPool = true
  unsaved : ∀ slot, v.storage ≠ .saved slot
  scalar : v.array = none
  plain : v.refs = 0
  untouched : v.mustReload = false

/-- Another version of a variable that differs in where the value is, unless that was settled. -/
structure Variable.Stays (v v' : Variable) : Prop extends v.Same v' where
  pinned : v.isPinned = true → ∀ r, v.storage = .register r →
    v'.isPinned = true ∧ v'.storage = .register r

theorem Variable.Stays.refl (v : Variable) : v.Stays v :=
  ⟨.refl v, fun pinned _ there => ⟨pinned, there⟩⟩

theorem Variable.Stays.trans {u v w : Variable} (first : u.Stays v) (second : v.Stays w) : u.Stays w where
  toSame := first.toSame.trans second.toSame
  pinned pinned r there := by
    obtain ⟨pinned', there'⟩ := first.pinned pinned r there
    exact second.pinned pinned' r there'

/-- A variable that is not pinned may go anywhere. -/
theorem Variable.Stays.of_loose {v v' : Variable} (same : v.Same v') (loose : v.isPinned = false) : v.Stays v' :=
  ⟨same, fun pinned => by cases loose.symm.trans pinned⟩

namespace Allocator

/-- All variables are numbers. -/
def Numeric (a : Allocator) : Prop := ∀ {id v}, a.var? id = some v → v.Numeric

/-- Some variables stand as they did, wherever their values are. -/
structure Stands (K : VarId → Prop) (a a' : Allocator) : Prop where
  grows : Grows a a'
  inside : ∀ {id}, K id → id < a.vars.size
  stays : ∀ {id v}, K id → a.var? id = some v → ∃ v', a'.var? id = some v' ∧ v.Stays v'
  gone : ∀ {id}, K id → a.var? id = none → a'.var? id = none

namespace Stands

variable {K L : VarId → Prop} {a b c : Allocator} {id : VarId} {v : Variable}

theorem refl (inside : ∀ {id}, K id → id < a.vars.size) : Stands K a a :=
  ⟨.refl a, inside, fun _ found => ⟨_, found, .refl _⟩, fun _ none => none⟩

theorem trans (first : Stands K a b) (second : Stands K b c) : Stands K a c where
  grows := first.grows.trans second.grows
  inside := first.inside
  stays counts found := by
    obtain ⟨v', found', stays⟩ := first.stays counts found
    obtain ⟨v'', found'', stays'⟩ := second.stays counts found'
    exact ⟨v'', found'', stays.trans stays'⟩
  gone counts none := second.gone counts (first.gone counts none)

theorem mono (stands : Stands K a b) (within : ∀ {id}, L id → K id) : Stands L a b :=
  ⟨stands.grows, fun counts => stands.inside (within counts), fun counts => stands.stays (within counts),
    fun counts => stands.gone (within counts)⟩

/-- What is known about a variable now was known before. -/
theorem old (stands : Stands K a b) (counts : K id) (found : b.var? id = some v) :
    ∃ u, a.var? id = some u ∧ u.Stays v := by
  cases before : a.var? id with
  | none => cases (stands.gone counts before).symm.trans found
  | some u =>
    obtain ⟨v', found', stays⟩ := stands.stays counts before
    cases found'.symm.trans found
    exact ⟨u, rfl, stays⟩

/-- They still have numbers that were handed out. -/
theorem still (stands : Stands K a b) (counts : K id) : id < b.vars.size :=
  Nat.lt_of_lt_of_le (stands.inside counts) stands.grows.size

/-- Something else is known about one variable, which does not count or stands as it did. -/
theorem of_only {v' : Variable} (grows : Grows a b) (inside : ∀ {id}, K id → id < a.vars.size)
    (found : a.var? id = some v) (stays : K id → v.Stays v')
    (vars : ∀ other, b.var? other = if other = id then some v' else a.var? other) : Stands K a b where
  grows := grows
  inside := inside
  stays {i u} counts known := by
    rw [vars]
    by_cases here : i = id
    · subst here
      cases found.symm.trans known
      exact ⟨v', if_pos rfl, stays counts⟩
    · exact ⟨u, (if_neg here).trans known, .refl u⟩
  gone {i} _ none := by
    rw [vars, if_neg, none]
    rintro rfl
    cases found.symm.trans none

/-- Nothing else is known about variables. -/
theorem of_vars (grows : Grows a b) (inside : ∀ {id}, K id → id < a.vars.size)
    (vars : ∀ other, b.var? other = a.var? other) : Stands K a b :=
  ⟨grows, inside, fun _ found => ⟨_, (vars _).trans found, .refl _⟩, fun _ none => (vars _).trans none⟩

/-- One variable more is known, or one that does not count is known no more. -/
theorem of_other (grows : Grows a b) (inside : ∀ {id}, K id → id < a.vars.size) (other : ¬ K id)
    (vars : ∀ i, i ≠ id → b.var? i = a.var? i) : Stands K a b where
  grows := grows
  inside := inside
  stays {i u} counts known := ⟨u, (vars i fun same => other (same ▸ counts)).trans known, .refl u⟩
  gone {i} counts none := (vars i fun same => other (same ▸ counts)).trans none

end Stands

end Allocator

/-- An instruction that goes on to the next one and writes no register of a list. -/
def MachineInstr.Spares (kept : List Reg) (i : MachineInstr) : Prop :=
  (∃ r, i.written? = some r ∧ r ∉ kept) ∨ ∃ r base offset, i = .sw r base offset

/-- An instruction that neither calls nor has to do with the return address. -/
def MachineInstr.Local (i : MachineInstr) : Prop := i.SparesReturnAddress ∧ i.isCall = false

theorem Reg.ne_returnAddress {r : Reg} (inPool : r.isPool = true) : Reg.returnAddress ≠ r := by
  rintro rfl
  cases inPool

/-- The base register of the address of a home is not that of the return address. -/
theorem Alloc.base_ne_returnAddress {a : Allocator} {home : Home} {address : Address}
    (known : Alloc.address? a home = some address) : Reg.returnAddress ≠ address.base := by
  cases home with
  | global x =>
    cases known
    change Reg.returnAddress ≠ Reg.zero
    decide
  | frame slot =>
    rw [Alloc.address?] at known
    split at known
    · cases known
      change Reg.returnAddress ≠ Reg.stackPointer
      decide
    · cases known

namespace Alloc

open Allocator Machine

variable {K L : VarId → Prop} {kept : List Reg} {w w' mid : Work} {id : VarId} {r : Reg} {v : Variable} {hand : List Reg}
  {name temp : String} {x : Unit}

/-- A state that has handed out the numbers of some variables, whose variables are all numbers in the sense of
arithmetic, and that holds some registers. -/
structure Calm (K : VarId → Prop) (kept : List Reg) (a : Allocator) : Prop where
  inside : ∀ {id}, K id → id < a.vars.size
  numeric : a.Numeric
  held : ∀ r ∈ kept, r ∈ a.held

/-- What an operation comes to that leaves some variables where they stand, names as they are, and registers
that are held alone. -/
structure Steady (K : VarId → Prop) (kept : List Reg) (w w' : Work) : Prop where
  stands : Stands K w.allocator w'.allocator
  numeric : w'.allocator.Numeric
  root : w'.allocator.root = w.allocator.root
  inner : w'.allocator.inner = w.allocator.inner
  held : ∀ r ∈ kept, r ∈ w'.allocator.held
  code : ∃ code, w'.code = w.code ++ code ∧ ∀ i ∈ code, MachineInstr.Spares kept i ∧ MachineInstr.Local i

namespace Steady

theorem refl (calm : Calm K kept w.allocator) : Steady K kept w w :=
  ⟨.refl calm.inside, calm.numeric, rfl, rfl, calm.held, #[], by simp, by simp⟩

theorem trans (first : Steady K kept w mid) (second : Steady K kept mid w') : Steady K kept w w' := by
  obtain ⟨code, emitted, spares⟩ := first.code
  obtain ⟨code', emitted', spares'⟩ := second.code
  refine ⟨first.stands.trans second.stands, second.numeric, second.root.trans first.root,
    second.inner.trans first.inner, second.held, code ++ code', ?_, fun i member => ?_⟩
  · rw [emitted', emitted, Array.append_assoc]
  · rcases Array.mem_append.1 member with member | member
    · exact spares i member
    · exact spares' i member

/-- From nothing on, all that is emitted goes on to the next instruction. -/
theorem spares {a : Allocator} (steady : Steady K kept ⟨a, #[]⟩ w') : ∀ i ∈ w'.code, MachineInstr.Spares kept i := by
  obtain ⟨code, emitted, spares⟩ := steady.code
  rw [emitted, Array.empty_append]
  exact fun i member => (spares i member).1

theorem calm (steady : Steady K kept w w') : Calm K kept w'.allocator :=
  ⟨steady.stands.still, steady.numeric, steady.held⟩

/-- An instruction is emitted. -/
theorem push {i : MachineInstr} (calm : Calm K kept w.allocator) (spares : MachineInstr.Spares kept i)
    (own : i.Local) : Steady K kept w (push i w) :=
  ⟨.refl calm.inside, calm.numeric, rfl, rfl, calm.held, #[i], by simp, by simpa using ⟨spares, own⟩⟩

/-- The state changes, but nothing that is known about variables. -/
theorem of_vars {f : Allocator → Allocator} (calm : Calm K kept w.allocator)
    (grows : Grows w.allocator (f w.allocator))
    (vars : ∀ other, (f w.allocator).var? other = w.allocator.var? other)
    (root : (f w.allocator).root = w.allocator.root) (inner : (f w.allocator).inner = w.allocator.inner)
    (held : ∀ r ∈ w.allocator.held, r ∈ (f w.allocator).held) : Steady K kept w (on f w) :=
  ⟨.of_vars grows calm.inside vars, fun found => calm.numeric ((vars _).symm.trans found), root, inner,
    fun r member => held r (calm.held r member), #[], by simp, by simp⟩

/-- Something else is known about one variable. -/
theorem of_only {f : Allocator → Allocator} (calm : Calm K kept w.allocator)
    (found : w.allocator.var? id = some v) (v' : Variable) (stays : K id → v.Stays v')
    (numeric : v'.Numeric)
    (grows : Grows w.allocator (f w.allocator))
    (vars : ∀ other, (f w.allocator).var? other = if other = id then some v' else w.allocator.var? other)
    (root : (f w.allocator).root = w.allocator.root) (inner : (f w.allocator).inner = w.allocator.inner)
    (held : ∀ r ∈ w.allocator.held, r ∈ (f w.allocator).held) : Steady K kept w (on f w) := by
  refine ⟨.of_only grows calm.inside found stays vars, fun {i u} known => ?_, root, inner,
    fun r member => held r (calm.held r member), #[], by simp, by simp⟩
  rw [allocator_on, vars] at known
  split at known
  · cases known
    exact numeric
  · exact calm.numeric known

/-- Something else is known about a variable, and nothing else changes. -/
theorem setVar {v' : Variable} (calm : Calm K kept w.allocator) (found : w.allocator.var? id = some v)
    (stays : K id → v.Stays v') (numeric : v'.Numeric) :
    Steady K kept w (on (fun a => a.setVar id v') w) :=
  of_only calm found v' stays numeric (.of_same rfl rfl (Nat.le_of_eq Array.size_setIfInBounds.symm) rfl)
    (fun other => var?_setVar found v' other) rfl rfl fun _ member => member

end Steady

theorem Calm.mono {fewer : List Reg} {a : Allocator} (calm : Calm K kept a) (less : ∀ {id}, L id → K id)
    (within : fewer ⊆ kept) : Calm L fewer a :=
  ⟨fun counts => calm.inside (less counts), calm.numeric, fun r member => calm.held r (within member)⟩

/-! ### Traffic -/

theorem local_sw {base : Reg} {offset : Int} (inPool : r.isPool = true) (apart : Reg.returnAddress ≠ base) :
    MachineInstr.Local (.sw r base offset) := by
  constructor
  · simp [MachineInstr.SparesReturnAddress, Instr.operands, Reg.ne_returnAddress inPool, apart]
  · rfl

theorem local_lw {base : Reg} {offset : Int} (inPool : r.isPool = true) (apart : Reg.returnAddress ≠ base) :
    MachineInstr.Local (.lw r base offset) := by
  constructor
  · simp [MachineInstr.SparesReturnAddress, Instr.operands, Reg.ne_returnAddress inPool, apart]
  · rfl

theorem local_addi {base : Reg} {n : Int} (result : Reg.returnAddress ≠ r) (apart : Reg.returnAddress ≠ base) :
    MachineInstr.Local (.addi r base n) := by
  constructor
  · simp [MachineInstr.SparesReturnAddress, Instr.operands, result, apart]
  · rfl

theorem writeBack_steady (calm : Calm K kept w.allocator) (inPool : r.isPool = true)
    (ran : Ran (writeBack id r) w x w') : Steady K kept w w' := by
  obtain ⟨v, home, address, found, -, known, rfl⟩ := ran_writeBack.1 ran
  have stored : Steady K kept w (push (.sw r address.base address.offset) w) :=
    .push calm (.inr ⟨_, _, _, rfl⟩) (local_sw inPool (base_ne_returnAddress known))
  have numeric := calm.numeric found
  exact stored.trans (.setVar stored.calm found
    (fun _ => ⟨⟨rfl, rfl, rfl, rfl, rfl, rfl, rfl, rfl, fun has => has⟩, fun pinned _ there => ⟨pinned, there⟩⟩)
    ⟨numeric.pooled, numeric.unsaved, numeric.scalar, numeric.plain, numeric.untouched⟩)

theorem ensureHome_steady (calm : Calm K kept w.allocator) (ran : Ran (ensureHome id) w x w') :
    Steady K kept w w' := by
  have grows := growing_ensureHome _ _ _ ran
  obtain ⟨v, found, ⟨-, rfl⟩ | ⟨homeless, rfl⟩⟩ := ran_ensureHome.1 ran
  · exact .refl calm
  · have numeric := calm.numeric found
    refine .of_only calm found { v with home := some w.allocator.nextHome }
      (fun _ => ⟨⟨rfl, rfl, rfl, rfl, rfl, rfl, rfl, rfl, fun has => ?_⟩, fun pinned _ there => ⟨pinned, there⟩⟩)
      ⟨numeric.pooled, numeric.unsaved, numeric.scalar, numeric.plain, numeric.untouched⟩ grows
      (fun other => var?_setVar (a := w.allocator.grown 1) found _ other) rfl rfl fun _ member => member
    cases homeless.symm.trans has

/-- A variable that is not pinned is parted from its register. -/
theorem unbind_steady (calm : Calm K kept w.allocator) (found : w.allocator.var? id = some v)
    (loose : v.isPinned = false) (ran : Ran (unbind id) w x w') : Steady K kept w w' := by
  have grows := growing_unbind _ _ _ ran
  obtain ⟨u, found', ⟨-, rfl⟩ | ⟨s, there, rfl⟩⟩ := ran_unbind.1 ran
  · exact .refl calm
  · cases found.symm.trans found'
    have numeric := calm.numeric found
    refine .of_only calm found v.parted
      (fun _ => .of_loose ⟨rfl, rfl, rfl, rfl, rfl, rfl, rfl, rfl, fun has => has⟩ loose)
      ⟨fun there' => ?_, fun slot there' => ?_, numeric.scalar, numeric.plain, numeric.untouched⟩ grows
      (fun other => var?_unbound found other) rfl rfl fun _ member => member
    · cases memory : v.memory? with
      | none =>
        simp only [Variable.parted, memory] at there'
        exact numeric.pooled there'
      | some home =>
        simp only [Variable.parted, memory] at there'
        cases there'
    · cases memory : v.memory? with
      | none =>
        simp only [Variable.parted, memory] at there'
        exact numeric.unsaved slot there'
      | some home =>
        simp only [Variable.parted, memory] at there'
        cases there'

/-- What the variable that gives way does before its register is taken from it. -/
theorem leave_steady (calm : Calm K kept w.allocator) (inPool : r.isPool = true)
    (went : (v.isTemp = true ∧ ∃ housed, Ran (ensureHome id) w () housed ∧
        Ran (writeBack id r) housed () mid) ∨
      (v.isTemp = false ∧ v.isDirty = true ∧ Ran (writeBack id r) w () mid) ∨
      (v.isTemp = false ∧ v.isDirty = false ∧ mid = w)) : Steady K kept w mid := by
  rcases went with ⟨-, housed, first, second⟩ | ⟨-, -, wrote⟩ | ⟨-, -, rfl⟩
  · have housed := ensureHome_steady calm first
    exact housed.trans (writeBack_steady housed.calm inPool second)
  · exact writeBack_steady calm inPool wrote
  · exact .refl calm

theorem withdrawn_steady (calm : Calm K kept w.allocator) (r : Reg) :
    Steady K kept w (on (fun a => a.withdrawn r) w) :=
  .of_vars calm (.of_same rfl rfl (Nat.le_refl _) rfl) (fun _ => rfl) rfl rfl fun _ member => member

theorem take_steady (sound : Sound hand w.allocator) (calm : Calm K kept w.allocator) (ran : Ran take w r w') :
    Steady K kept w w' := by
  rcases ran_take ran with ⟨-, -, rfl⟩ | ⟨id, evicted, -, -⟩
  · exact withdrawn_steady calm r
  · obtain ⟨v, mid, last, found, there, loose, went, unbound, rfl⟩ := ran_evict evicted
    obtain ⟨u, home, known, -, loose', -⟩ := (leaving (sound.fits found).home found there loose went).place
    have left := leave_steady calm ((calm.numeric found).pooled there) went
    have parted := left.trans (unbind_steady left.calm known loose' unbound)
    exact parted.trans (withdrawn_steady parted.calm r)

/-- A register that was taken is none of those that are held. -/
theorem taken_not_held (sound : Sound hand w.allocator) (calm : Calm K kept w.allocator)
    (took : Ran take w r w') : r ∉ kept := fun member => (takes sound took).loose (calm.held r member)

theorem load_steady (calm : Calm K kept w.allocator) (loose : r ∉ kept) (inPool : r.isPool = true)
    (ran : Ran (load id r) w x w') : Steady K kept w w' := by
  obtain ⟨v, home, address, -, known, ⟨-, rfl⟩ | ⟨-, -, rfl⟩⟩ := ran_load ran
  · exact .push calm (.inl ⟨r, rfl, loose⟩) (local_addi (Reg.ne_returnAddress inPool) (base_ne_returnAddress known))
  · exact .push calm (.inl ⟨r, rfl, loose⟩) (local_lw inPool (base_ne_returnAddress known))

theorem held_hold {a : Allocator} (r : Reg) :
    ∀ s ∈ a.held, s ∈ (if r ∈ a.held then a.held else r :: a.held) := fun s member => by
  split
  · exact member
  · exact List.mem_cons_of_mem _ member

theorem used_steady (calm : Calm K kept w.allocator) (id : VarId) (r : Reg) :
    Steady K kept w (on (fun a => a.used id r) w) :=
  .of_vars calm (.of_same rfl rfl (Nat.le_refl _) rfl) (fun _ => rfl) rfl rfl (held_hold r)

/-- A variable that is in no register comes to one. -/
theorem bound_steady (calm : Calm K kept w.allocator) (found : w.allocator.var? id = some v)
    (away : v.storage.register? = none) (inPool : r.isPool = true) {v' : Variable} (same : v.Same v')
    (storage : v'.storage = .register r) : Steady K kept w (on (fun a => (a.bound id r v).setVar id v') w) := by
  have bound : (w.allocator.bound id r v).var? id = some { v with storage := .register r } := by
    rw [var?_bound found, if_pos rfl]
  refine .of_only calm found v' (fun _ => ⟨same, fun _ s there => ?_⟩)
    ⟨fun there => ?_, fun slot there => ?_, same.array.trans (calm.numeric found).scalar,
      same.refs.trans (calm.numeric found).plain, same.mustReload.trans (calm.numeric found).untouched⟩
    (.of_same rfl rfl (Nat.le_of_eq
      (Array.size_setIfInBounds.symm.trans Array.size_setIfInBounds.symm)) rfl) (fun other => ?_) rfl rfl
    (held_hold r)
  · rw [there] at away
    cases away
  · cases storage.symm.trans there
    exact inPool
  · cases storage.symm.trans there
  · rw [var?_setVar bound, var?_bound found]
    split <;> rfl

/-- A variable that is in no register is loaded into one that is taken for it. -/
theorem fetch_steady {loaded : Work} {u v' : Variable} (sound : Sound hand w.allocator)
    (calm : Calm K kept w.allocator) (found : w.allocator.var? id = some v)
    (away : v.storage.register? = none) (took : Ran take w r mid) (load : Ran (load id r) mid () loaded)
    (known : loaded.allocator.var? id = some u) (same : v.Same v') (storage : v'.storage = .register r) :
    Steady K kept w (on (fun a => (a.bound id r u).setVar id v') loaded) := by
  obtain ⟨-, rfl⟩ := known_loaded sound found away took load known
  have taken := take_steady sound calm took
  have read := taken.trans (load_steady taken.calm (taken_not_held sound calm took) (takes sound took).inPool load)
  exact read.trans (bound_steady read.calm known away (takes sound took).inPool same storage)

/-! ### Operations -/

theorem getRegister_steady {modifies : Bool} (sound : Sound hand w.allocator)
    (calm : Calm K kept w.allocator) (ran : Ran (getRegister name modifies) w r w') :
    Steady K kept w w' := by
  obtain ⟨id, v, -, found, ⟨there, mid, loaded, rfl⟩ |
    ⟨away, mid, loaded, u, took, load, known, rfl⟩⟩ := ran_getRegister ran
  · rcases loaded with ⟨reloads, -, -⟩ | ⟨rfl, -⟩
    · cases (calm.numeric found).untouched.symm.trans reloads
    · exact used_steady calm id r
  · obtain ⟨-, rfl⟩ := known_loaded sound found away took load known
    exact fetch_steady sound calm found away took load known ⟨rfl, rfl, rfl, rfl, rfl, rfl, rfl, rfl, fun has => has⟩
      rfl

/-- A temporary has a number of its own, above all numbers before. -/
theorem addTemp_steady (sound : Sound hand w.allocator) (calm : Calm K kept w.allocator)
    (ran : Ran addTemp w temp w') : Steady K kept w w' := by
  obtain ⟨r, mid, took, rfl, rfl⟩ := ran_addTemp ran
  have taken := take_steady sound calm took
  have vars := var?_withTemp (r := r) mid.allocator
  refine taken.trans ⟨.of_other (grows_withTemp _) taken.stands.still (fun counts => Nat.lt_irrefl _ (taken.stands.still counts))
    fun other apart => (vars other).trans (if_neg apart), fun {i u} found => ?_, rfl, rfl,
    fun s member => held_hold r s (taken.held s member), #[], by simp, by simp⟩
  rw [allocator_on, vars] at found
  split at found
  · cases found
    refine ⟨fun there => ?_, fun slot there => ?_, rfl, rfl, rfl⟩
    · cases there
      exact (takes sound took).inPool
    · cases there
  · exact taken.numeric found

theorem prepareWrite_steady (sound : Sound hand w.allocator) (calm : Calm K kept w.allocator)
    (ran : Ran (prepareWrite name) w r w') : Steady K kept w w' := by
  obtain ⟨id, v, -, found, -, ⟨there, rfl⟩ | ⟨away, mid, u, took, known, rfl⟩⟩ := ran_prepareWrite ran
  · have used := used_steady calm id r
    have numeric := calm.numeric found
    exact used.trans (.setVar (w := on (fun a => a.used id r) w) used.calm found
      (fun _ => ⟨⟨rfl, rfl, rfl, rfl, rfl, rfl, rfl, rfl, fun has => has⟩, fun pinned _ there => ⟨pinned, there⟩⟩)
      ⟨numeric.pooled, numeric.unsaved, numeric.scalar, numeric.plain, numeric.untouched⟩)
  · have taken := take_steady sound calm took
    have known' := (takes sound took).only found fun there => by
      rw [there] at away
      cases away
    cases known.symm.trans known'
    exact taken.trans (bound_steady taken.calm known away (takes sound took).inPool
      ⟨rfl, rfl, rfl, rfl, rfl, rfl, rfl, rfl, fun has => has⟩ rfl)

theorem markWritten_steady (calm : Calm K kept w.allocator) (ran : Ran (markWritten name) w x w') :
    Steady K kept w w' := by
  obtain ⟨id, v, -, found, ⟨-, rfl⟩ | ⟨-, mid, rfl, ⟨r, reloads, -, -⟩ | ⟨-, rfl⟩⟩⟩ := ran_markWritten ran
  · exact .refl calm
  · cases (calm.numeric found).untouched.symm.trans reloads
  · have numeric := calm.numeric found
    exact .setVar calm found
      (fun _ => ⟨⟨rfl, rfl, rfl, rfl, rfl, rfl, rfl, rfl, fun has => has⟩, fun pinned _ there => ⟨pinned, there⟩⟩)
      ⟨numeric.pooled, numeric.unsaved, numeric.scalar, numeric.plain, numeric.untouched⟩

/-- A note about how a variable that does not count is read. -/
theorem note_steady {f : Variable → Variable} (calm : Calm K kept w.allocator)
    (other : ∀ id, w.allocator.find? name = some id → ¬ K id)
    (note : ∀ v : Variable, (f v).storage = v.storage ∧ (f v).array = v.array ∧
      (f v).mustReload = v.mustReload ∧ (v.refs = 0 → (f v).refs = 0))
    (ran : Ran (do update (← resolve name) f) w x w') : Steady K kept w w' := by
  simp only [ran_bind, ran_resolve, ran_update, and_assoc, exists_and_left, exists_eq_left] at ran
  obtain ⟨id, resolved, v, found, rfl⟩ := ran
  have numeric := calm.numeric found
  obtain ⟨storage, array, mustReload, refs⟩ := note v
  exact .setVar calm found (fun counts => absurd counts (other id resolved))
    ⟨fun there => numeric.pooled (storage.symm.trans there), fun slot there =>
      numeric.unsaved slot (storage.symm.trans there), array.trans numeric.scalar, refs numeric.plain,
      mustReload.trans numeric.untouched⟩

/-- A note about how a variable is read is of no concern to its value. -/
theorem note_carried {m₀ m : Machine} {base : Int} {size : Nat} {last : VarId → Option Word} {f : Variable → Variable}
    (carried : Carried m₀ base size last hand w m)
    (note : ∀ v : Variable, (f v).storage = v.storage ∧ (f v).name = v.name ∧ (f v).isTemp = v.isTemp ∧
      (f v).depth = v.depth ∧ (f v).home = v.home ∧ (f v).array = v.array ∧ (f v).isPinned = v.isPinned ∧
      (f v).isDirty = v.isDirty ∧ (f v).mustReload = v.mustReload)
    (ran : Ran (do update (← resolve name) f) w x w') : Carried m₀ base size last hand w' m := by
  have sound := noteOf_sound carried.sound (fun v => by
    obtain ⟨storage, name, temp, depth, home, array, pinned, -⟩ := note v
    exact ⟨storage, name, temp, depth, home, array, pinned⟩) ran
  simp only [ran_bind, ran_resolve, ran_update, and_assoc, exists_and_left, exists_eq_left] at ran
  obtain ⟨id, -, v, found, rfl⟩ := ran
  obtain ⟨storage, -, temp, -, home, array, -, dirty, reload⟩ := note v
  have grows : Grows w.allocator (w.allocator.setVar id (f v)) :=
    .of_same rfl rfl (Nat.le_of_eq Array.size_setIfInBounds.symm) rfl
  refine ⟨sound, carried.agrees.only id grows (fun other apart => var?_setVar_of_ne apart) fun u known => ?_,
    carried.performed⟩
  cases (var?_setVar_self found (f v)).symm.trans known
  have ordinary := carried.agrees.ordinary found
  refine ⟨⟨fun there => ordinary.pooled (storage.symm.trans there), fun slot there =>
    ordinary.unsaved slot (storage.symm.trans there), fun isTemp =>
    reload.trans (ordinary.settled (temp.symm.trans isTemp))⟩, fun x scalar written => ?_⟩
  have holds := carried.agrees.holds found (array.symm.trans scalar) written
  exact ⟨fun there => holds.register (storage.symm.trans there), fun there =>
    holds.memory (storage.symm.trans there), fun isNamed there clean has =>
    holds.home (temp.symm.trans isNamed) (storage.symm.trans there) (dirty.symm.trans clean) (home.symm.trans has)⟩

theorem demote_steady (calm : Calm K kept w.allocator) (ran : Ran (demote name) w x w') :
    Steady K kept w w' := by
  simp only [demote, ran_bind, ran_look, and_assoc, exists_and_left, exists_eq_left] at ran
  split at ran
  · rw [ran_change.1 ran]
    exact .of_vars calm (.of_same rfl rfl (Nat.le_refl _) rfl) (fun _ => rfl) rfl rfl fun _ member => member
  · rw [(ran_pure.1 ran).2]
    exact .refl calm

theorem releaseHolds_steady (calm : Calm K kept w.allocator) (ran : Ran releaseHolds w x w') :
    Steady K [] w w' := by
  rw [ran_change.1 ran]
  exact ⟨.of_vars (.of_same rfl rfl (Nat.le_refl _) rfl) calm.inside fun _ => rfl, calm.numeric, rfl, rfl,
    nofun, #[], by simp, by simp⟩

/-- A variable is dropped that does not count. -/
theorem drop_stands (inside : ∀ {id}, K id → id < w.allocator.vars.size) (loose : ¬ K id)
    (ran : Ran (drop id) w x w') : Stands K w.allocator w'.allocator :=
  .of_other (growing_drop _ _ _ ran) inside loose fun other apart => (var?_drop ran other).trans (if_neg apart)

theorem drop_numeric (numeric : w.allocator.Numeric) (ran : Ran (drop id) w x w') :
    w'.allocator.Numeric := fun {i u} found => by
  rw [var?_drop ran] at found
  split at found
  · cases found
  · exact numeric found

/-- A temporary is dropped that does not count, if the name is that of one. -/
theorem removeIfTemp_steady (calm : Calm K kept w.allocator)
    (loose : ∀ id, w.allocator.temps.lookup name = some id → ¬ K id)
    (temps : ∀ {id v}, w.allocator.temps.lookup name = some id → w.allocator.var? id = some v →
      v.isTemp = true)
    (ran : Ran (removeIfTemp name) w x w') : Steady K kept w w' := by
  simp only [removeIfTemp, ran_bind, ran_look, and_assoc, exists_and_left, exists_eq_left] at ran
  split at ran
  · next id looked =>
    have shape : w'.allocator.root = w.allocator.root ∧ w'.allocator.inner = w.allocator.inner ∧
        w'.allocator.held = w.allocator.held := by
      obtain ⟨v, found, ⟨-, rfl⟩ | ⟨r, -, rfl⟩⟩ := ran_drop ran
      · rw [allocator_on, forgotten, if_pos (temps looked found)]
        exact ⟨rfl, rfl, rfl⟩
      · have isTemp := temps looked found
        change v.parted.isTemp = true at isTemp
        rw [allocator_on, forgotten, if_pos isTemp]
        exact ⟨rfl, rfl, rfl⟩
    refine ⟨drop_stands calm.inside (loose id looked) ran, drop_numeric calm.numeric ran, shape.1, shape.2.1,
      fun r member => ?_, #[], by simp [code_drop ran], by simp⟩
    rw [shape.2.2]
    exact calm.held r member
  · rw [(ran_pure.1 ran).2]
    exact .refl calm

end Alloc

end SmallC
