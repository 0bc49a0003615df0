import SmallC.Proofs.Allocation.Emitting
import SmallC.Proofs.Allocation.Protocol

/-!
Where memory goes. A word of memory belongs to one variable at most: its home, or a word of its array. Memory is
handed out from the end of what was handed out before, so a new word belongs to no one yet, and a word that a
variable has was handed out. Operations keep this, and what they emit reaches into the frame only where words of
it were handed out.
-/
namespace SmallC

/-- The word so many words further on. -/
def Home.shift (words : Nat) : Home → Home
  | .global address => .global (address + words)
  | .frame slot => .frame (slot + words)

@[simp]
theorem Home.shift_zero (home : Home) : home.shift 0 = home := by cases home <;> rfl

/-- Whether a word belongs to a variable: it is the home, or one of the words of the array, which are as many as were
declared and at least one. -/
def Variable.Claims (v : Variable) (size : Nat) (word : Home) : Prop :=
  v.home = some word ∨ ∃ start, v.array = some start ∧ ∃ k < max size 1, word = start.shift k

/-- The offset from the stack pointer of the word that an instruction reaches, or of the address that it forms. -/
def MachineInstr.stackOffset? : MachineInstr → Option Int
  | .sw _ base offset => if base = Reg.stackPointer then some offset else none
  | .lw _ base offset => if base = Reg.stackPointer then some offset else none
  | .addi rd rs imm => if rs = Reg.stackPointer ∧ rd ≠ Reg.stackPointer then some imm else none
  | _ => none

/-- What becomes of a variable that gets no new words, and is not moved to the root. -/
structure Variable.Narrows (v v' : Variable) : Prop where
  home : ∀ {h}, v'.home = some h → v.home = some h
  array : v'.array = v.array
  memory : ∀ {h}, v'.storage = .memory h → v.memory? = some h ∨ v.storage = .memory h
  root : v'.isTemp = false → v'.depth = 0 → v.isTemp = false ∧ v.depth = 0

namespace Variable

variable {v v' : Variable} {word : Home} {size : Nat}

theorem claims_memory (memory : v.memory? = some word) : v.Claims size word := by
  rw [memory?, Option.orElse_eq_orElse, Option.orElse_eq_or] at memory
  rcases Option.or_eq_some_iff.1 memory with array | ⟨-, home⟩
  · exact .inr ⟨word, array, 0, Nat.lt_of_lt_of_le Nat.one_pos (Nat.le_max_right _ _), (Home.shift_zero _).symm⟩
  · exact .inl home

theorem Narrows.claims (narrows : v.Narrows v') (claims : v'.Claims size word) : v.Claims size word := by
  rcases claims with home | ⟨start, array, k, inside, rfl⟩
  · exact .inl (narrows.home home)
  · exact .inr ⟨start, narrows.array ▸ array, k, inside, rfl⟩

/-- A note about a variable that has nothing to do with its words. -/
theorem narrows_of_same (home : v'.home = v.home) (array : v'.array = v.array) (storage : v'.storage = v.storage)
    (temp : v'.isTemp = v.isTemp) (depth : v'.depth = v.depth) : v.Narrows v' :=
  ⟨fun has => home ▸ has, array, fun there => .inr (storage ▸ there), fun isNamed shallow =>
    ⟨temp ▸ isNamed, depth ▸ shallow⟩⟩

/-- A variable that comes to a register. -/
theorem narrows_register (home : v'.home = v.home) (array : v'.array = v.array) {r : Reg}
    (storage : v'.storage = .register r) (temp : v'.isTemp = v.isTemp) (depth : v'.depth = v.depth) :
    v.Narrows v' :=
  ⟨fun has => home ▸ has, array, fun there => (by cases storage.symm.trans there),
    fun isNamed shallow => ⟨temp ▸ isNamed, depth ▸ shallow⟩⟩

theorem narrows_parted : v.Narrows v.parted := by
  refine ⟨fun has => has, rfl, fun {h} there => ?_, fun isNamed shallow => ⟨isNamed, shallow⟩⟩
  unfold parted at there
  cases memory : v.memory? with
  | some home =>
    simp only [memory] at there
    exact .inl (congrArg some (Storage.memory.inj there))
  | none =>
    simp only [memory] at there
    exact .inr there

end Variable

namespace Allocator

variable {a a' : Allocator} {word home : Home} {size size' : VarId → Nat} {id : VarId} {v v' : Variable}

theorem grants_shift_nextHome {words k : Nat} (inside : k < words) :
    (a.grown words).Grants (a.nextHome.shift k) := by
  unfold nextHome
  cases found : a.frame with
  | none =>
    simp only [Home.shift, grown, Grants, found]
    exact Nat.add_lt_add_left inside _
  | some slot => exact ⟨slot + words, by simp [grown, found], Nat.add_lt_add_left inside _⟩

theorem not_grants_shift_nextHome (k : Nat) : ¬ a.Grants (a.nextHome.shift k) := by
  unfold nextHome
  cases found : a.frame with
  | none => exact Nat.not_lt.2 (Nat.le_add_right _ _)
  | some slot =>
    rintro ⟨size, found', inside⟩
    cases found.symm.trans found'
    exact absurd inside (Nat.not_lt.2 (Nat.le_add_right _ _))

/-- Where there is no frame, all memory that was handed out is global. -/
theorem global_of_grants (outside : a.frame = none) (granted : a.Grants word) :
    ∃ address, word = .global address := by
  cases word with
  | global address => exact ⟨address, rfl⟩
  | frame slot =>
    obtain ⟨size, found, -⟩ := granted
    cases outside.symm.trans found

/-- At the root there is no frame to hand out words of. -/
theorem no_frame_at_root (level : a.frame.isSome → 0 < a.depth) (depth : v.depth = a.depth) (shallow : v.depth = 0) :
    a.frame = none := by
  cases frame : a.frame with
  | none => rfl
  | some slot =>
    have deep := level (by rw [frame]; rfl)
    omega

/-- Words of variables were handed out and belong to one variable each. Those of the variables of the root outlast
every function body. -/
structure Laid (size : VarId → Nat) (a : Allocator) : Prop where
  granted : ∀ {id v word}, a.var? id = some v → v.Claims (size id) word ∨ v.storage = .memory word →
    a.Grants word
  apart : ∀ {id other v v' word}, a.var? id = some v → a.var? other = some v' →
    v.Claims (size id) word → v'.Claims (size other) word → id = other
  root : ∀ {id v word}, a.var? id = some v → v.isTemp = false → v.depth = 0 → v.Claims (size id) word →
    ∃ address, word = .global address

namespace Laid

/-- One variable may get words that were not handed out before. -/
theorem change (laid : Laid size a) (id : VarId) (sizes : ∀ other, other ≠ id → size' other = size other)
    (grants : ∀ {word}, a.Grants word → a'.Grants word)
    (others : ∀ other, other ≠ id → a'.var? other = a.var? other)
    (own : ∀ {u word}, a'.var? id = some u → u.Claims (size' id) word →
      (∃ v, a.var? id = some v ∧ v.Claims (size id) word) ∨ ¬ a.Grants word)
    (granted : ∀ {u word}, a'.var? id = some u → u.Claims (size' id) word ∨ u.storage = .memory word →
      a'.Grants word)
    (root : ∀ {u word}, a'.var? id = some u → u.isTemp = false → u.depth = 0 → u.Claims (size' id) word →
      ∃ address, word = .global address) : Laid size' a' where
  granted {i u word} found claims := by
    by_cases here : i = id
    · subst here
      exact granted found claims
    · rw [others i here] at found
      rw [sizes i here] at claims
      exact grants (laid.granted found claims)
  apart {i j u u' word} found found' claims claims' := by
    have clash : ∀ {k : VarId} {x y : Variable}, k ≠ id → a'.var? k = some x → x.Claims (size' k) word →
        a'.var? id = some y → y.Claims (size' id) word → False := by
      intro k x y elsewhere found claims found' claims'
      rw [others k elsewhere] at found
      rw [sizes k elsewhere] at claims
      rcases own found' claims' with ⟨v, known, claimed⟩ | fresh
      · exact elsewhere (laid.apart found known claims claimed)
      · exact fresh (laid.granted found (.inl claims))
    by_cases here : i = id
    · by_cases here' : j = id
      · rw [here, here']
      · subst here
        exact (clash here' found' claims' found claims).elim
    · by_cases here' : j = id
      · subst here'
        exact (clash here found claims found' claims').elim
      · rw [others i here] at found
        rw [others j here'] at found'
        rw [sizes i here] at claims
        rw [sizes j here'] at claims'
        exact laid.apart found found' claims claims'
  root {i u word} found isNamed shallow claims := by
    by_cases here : i = id
    · subst here
      exact root found isNamed shallow claims
    · rw [others i here] at found
      rw [sizes i here] at claims
      exact laid.root found isNamed shallow claims

/-- Variables get no new words, and memory is not taken back. -/
theorem narrow (laid : Laid size a) (grants : ∀ {word}, a.Grants word → a'.Grants word)
    (narrows : ∀ {id u}, a'.var? id = some u → ∃ v, a.var? id = some v ∧ v.Narrows u) : Laid size a' where
  granted {i u word} found claims := by
    obtain ⟨v, known, narrows⟩ := narrows found
    refine grants ?_
    rcases claims with claims | there
    · exact laid.granted known (.inl (narrows.claims claims))
    · rcases narrows.memory there with memory | there
      · exact laid.granted known (.inl (Variable.claims_memory memory))
      · exact laid.granted known (.inr there)
  apart found found' claims claims' := by
    obtain ⟨v, known, narrows'⟩ := narrows found
    obtain ⟨v', known', narrows''⟩ := narrows found'
    exact laid.apart known known' (narrows'.claims claims) (narrows''.claims claims')
  root found isNamed shallow claims := by
    obtain ⟨v, known, narrows⟩ := narrows found
    obtain ⟨isNamed, shallow⟩ := narrows.root isNamed shallow
    exact laid.root known isNamed shallow (narrows.claims claims)

/-- Nothing changes that counts. -/
theorem of_same (laid : Laid size a) (vars : a'.vars = a.vars) (roomier : Roomier a a') : Laid size a' :=
  laid.narrow roomier.grants fun {id u} found =>
    ⟨u, by rwa [var?, vars] at found, Variable.narrows_of_same rfl rfl rfl rfl rfl⟩

theorem setVar (laid : Laid size a) (found : a.var? id = some v) (v' : Variable) (narrows : v.Narrows v') :
    Laid size (a.setVar id v') := by
  refine laid.narrow (fun granted => granted) fun {i u} found' => ?_
  rw [var?_setVar found] at found'
  split at found'
  · next here =>
    cases found'
    exact ⟨v, here ▸ found, narrows⟩
  · exact ⟨u, found', Variable.narrows_of_same rfl rfl rfl rfl rfl⟩

/-- One more variable, with words that are handed out for it. -/
theorem addVar (laid : Laid size a) (words : Nat) (sizes : ∀ other, other ≠ a.vars.size → size' other = size other)
    (claims : ∀ {word}, v.Claims (size' a.vars.size) word ∨ v.storage = .memory word →
      ∃ k < words, word = a.nextHome.shift k)
    (root : v.isTemp = false → v.depth = 0 → a.frame = none) : Laid size' ((a.grown words).addVar v) := by
  have found : ∀ {u}, ((a.grown words).addVar v).var? a.vars.size = some u → u = v := by
    intro u found
    rw [var?_addVar] at found
    exact (Option.some.inj ((if_pos rfl).symm.trans found)).symm
  have fresh : ∀ {u word}, ((a.grown words).addVar v).var? a.vars.size = some u →
      u.Claims (size' a.vars.size) word ∨ u.storage = .memory word →
      ¬ a.Grants word ∧ ((a.grown words).addVar v).Grants word := by
    intro u word known claimed
    cases found known
    obtain ⟨k, inside, rfl⟩ := claims claimed
    refine ⟨not_grants_shift_nextHome k, ?_⟩
    exact (.of_same rfl rfl rfl : Wider (a.grown words) ((a.grown words).addVar v)).toRoomier.grants
      (grants_shift_nextHome inside)
  refine laid.change a.vars.size sizes (fun granted => ?_) (fun other elsewhere => ?_)
    (fun known claimed => .inr (fresh known (.inl claimed)).1) (fun known claimed => (fresh known claimed).2)
    (fun known isNamed shallow claimed => ?_)
  · exact (.of_same rfl rfl rfl : Wider (a.grown words) ((a.grown words).addVar v)).toRoomier.grants
      (grants_grown granted words)
  · rw [var?_addVar]
    exact if_neg elsewhere
  · cases found known
    refine global_of_grants ?_ (fresh known (.inl claimed)).2
    simp [Allocator.addVar, grown, root isNamed shallow]

theorem bound (laid : Laid size a) (found : a.var? id = some v) (r : Reg) : Laid size (a.bound id r v) :=
  (laid.setVar found { v with storage := .register r }
    (Variable.narrows_register rfl rfl rfl rfl rfl)).of_same rfl (.of_same rfl rfl)

theorem modifyLevel (laid : Laid size a) (depth : Nat) (f : Level → Level) : Laid size (a.modifyLevel depth f) := by
  rw [modifyLevel_eq]
  exact laid.of_same rfl (.of_same rfl rfl)

/-- Where all words of variables are global, the frame does not matter. -/
theorem of_global (laid : Laid size a) (global : ∀ {id v word}, a.var? id = some v →
      v.Claims (size id) word ∨ v.storage = .memory word → ∃ address, word = .global address)
    (vars : a'.vars = a.vars) (globals : a'.globals = a.globals) : Laid size a' where
  granted {i u word} found claims := by
    rw [var?, vars] at found
    obtain ⟨address, rfl⟩ := global found claims
    have granted := laid.granted found claims
    unfold Grants at granted ⊢
    rwa [globals]
  apart found found' := by
    rw [var?, vars] at found found'
    exact laid.apart found found'
  root found := by
    rw [var?, vars] at found
    exact laid.root found

/-- A variable gets the word that is handed out next, or stays with those that it has. -/
theorem assign (laid : Laid size a) (found : a.var? id = some v) (v' : Variable) (words : Nat)
    (claims : ∀ {word}, v'.Claims (size id) word → v.Claims (size id) word ∨ 0 < words ∧ word = a.nextHome)
    (memory : ∀ {h}, v'.storage = .memory h → v.memory? = some h ∨ v.storage = .memory h)
    (root : v'.isTemp = false → v'.depth = 0 → a.frame = none) :
    Laid size ((a.grown words).setVar id v') := by
  have known : ∀ {u}, ((a.grown words).setVar id v').var? id = some u → u = v' := by
    intro u known
    rw [var?_setVar (a := a.grown words) found, if_pos rfl] at known
    exact (Option.some.inj known).symm
  have granted : ∀ {word}, v'.Claims (size id) word ∨ v'.storage = .memory word → (a.grown words).Grants word := by
    rintro word (claimed | there)
    · rcases claims claimed with claimed | ⟨positive, rfl⟩
      · exact grants_grown (laid.granted found (.inl claimed)) words
      · exact grants_nextHome positive
    · rcases memory there with memory | there
      · exact grants_grown (laid.granted found (.inl (Variable.claims_memory memory))) words
      · exact grants_grown (laid.granted found (.inr there)) words
  have same : ∀ {word}, (a.grown words).Grants word → ((a.grown words).setVar id v').Grants word :=
    (.of_same rfl rfl rfl : Wider (a.grown words) ((a.grown words).setVar id v')).toRoomier.grants
  refine laid.change id (fun _ _ => rfl) (fun granted => same (grants_grown granted words))
    (fun other elsewhere => var?_setVar_of_ne (a := a.grown words) elsewhere) (fun {u word} found' claimed => ?_)
    (fun {u word} found' claimed => ?_) (fun {u word} found' isNamed shallow claimed => ?_)
  · cases known found'
    rcases claims claimed with claimed | ⟨-, rfl⟩
    · exact .inl ⟨v, found, claimed⟩
    · exact .inr not_grants_nextHome
  · cases known found'
    exact same (granted claimed)
  · cases known found'
    refine global_of_grants ?_ (granted (.inl claimed))
    simp [grown, root isNamed shallow]

end Laid

/-- Whether an instruction reaches only words of the frame that were handed out, if it reaches into it at all. -/
def InFrame (a : Allocator) (i : MachineInstr) : Prop :=
  ∀ offset ∈ i.stackOffset?, ∃ slot : Nat, offset = a.pushed + slot ∧ a.Grants (.frame slot)

theorem InFrame.wider {i : MachineInstr} (inside : a.InFrame i) (wider : Wider a a') : a'.InFrame i := by
  intro offset reaches
  obtain ⟨slot, rfl, granted⟩ := inside offset reaches
  exact ⟨slot, by rw [wider.pushed], wider.toRoomier.grants granted⟩

/-- What is at the address of a home is in the frame, if the home is. -/
theorem inFrame_address {address : Address} {offset : Int} (granted : a.Grants home)
    (formed : Alloc.address? a home = some address) (base : address.base = Reg.stackPointer)
    (same : address.offset = offset) : ∃ slot : Nat, offset = a.pushed + slot ∧ a.Grants (.frame slot) := by
  cases home with
  | global x =>
    cases formed
    cases base
  | frame slot =>
    simp only [Alloc.address?] at formed
    split at formed
    · cases formed
      exact ⟨slot, same.symm, granted⟩
    · cases formed

end Allocator

namespace Alloc

open Allocator

variable {α β : Type} {w w' : Work} {id : VarId} {r : Reg} {name : String} {size : VarId → Nat}

/-- Nothing but such instructions is added to the code. -/
def Emits (P : MachineInstr → Prop) (w w' : Work) : Prop :=
  ∃ code : Array MachineInstr, w'.code = w.code ++ code ∧ ∀ i ∈ code, P i

namespace Emits

variable {P Q : MachineInstr → Prop} {mid : Work}

theorem nothing (same : w'.code = w.code) : Emits P w w' := ⟨#[], by simp [same], by simp⟩

theorem push {i : MachineInstr} (holds : P i) : Emits P w (push i w) := ⟨#[i], by simp, by simpa using holds⟩

theorem mono (emits : Emits P w w') (weaker : ∀ i, P i → Q i) : Emits Q w w' := by
  obtain ⟨code, emitted, all⟩ := emits
  exact ⟨code, emitted, fun i member => weaker i (all i member)⟩

theorem trans (first : Emits P w mid) (second : Emits P mid w') : Emits P w w' := by
  obtain ⟨code, emitted, all⟩ := first
  obtain ⟨code', emitted', all'⟩ := second
  refine ⟨code ++ code', ?_, fun i member => (Array.mem_append.1 member).elim (all i) (all' i)⟩
  rw [emitted', emitted, Array.append_assoc]

end Emits

/-- What an operation comes to where it keeps memory laid out and reaches nothing else on the stack. -/
structure Lays (size : VarId → Nat) (w w' : Work) : Prop where
  laid : Laid size w'.allocator
  wider : Wider w.allocator w'.allocator
  calls : w'.allocator.calls = w.allocator.calls
  code : Emits w'.allocator.InFrame w w'

theorem Lays.refl (laid : Laid size w.allocator) : Lays size w w := ⟨laid, .refl _, rfl, .nothing rfl⟩

theorem Lays.trans {mid : Work} (first : Lays size w mid) (second : Lays size mid w') : Lays size w w' where
  laid := second.laid
  wider := first.wider.trans second.wider
  calls := second.calls.trans first.calls
  code := (first.code.mono fun _ inside => inside.wider second.wider).trans second.code

theorem Lays.of_change {f : Allocator → Allocator} (laid : Laid size (f w.allocator))
    (wider : Wider w.allocator (f w.allocator)) (calls : (f w.allocator).calls = w.allocator.calls) :
    Lays size w (on f w) :=
  ⟨laid, wider, calls, .nothing rfl⟩

theorem Lays.of_push {i : MachineInstr} (laid : Laid size w.allocator) (inside : w.allocator.InFrame i) :
    Lays size w (push i w) :=
  ⟨laid, .refl _, rfl, .push inside⟩

/-- An operation that keeps memory laid out, whatever state it runs in. -/
def Laying (size : VarId → Nat) (act : Alloc α) : Prop :=
  ∀ w x w', Laid size w.allocator → Ran act w x w' → Lays size w w'

namespace Laying

variable {act other : Alloc α}

theorem pure (x : α) : Laying size (Pure.pure x : Alloc α) := by
  intro w y w' laid ran
  obtain ⟨-, rfl⟩ := ran_pure.1 ran
  exact .refl laid

theorem throw (e : AllocatorFault) : Laying size (MonadExcept.throw e : Alloc α) :=
  fun _ _ _ _ ran => (ran_throw.1 ran).elim

theorem bind {f : α → Alloc β} (first : Laying size act) (rest : ∀ x, Laying size (f x)) :
    Laying size (act >>= f) := by
  intro w y w' laid ran
  obtain ⟨x, mid, ran, ran'⟩ := ran_bind.1 ran
  have begun := first w x mid laid ran
  exact begun.trans (rest x mid y w' begun.laid ran')

theorem map {f : α → β} (laying : Laying size act) : Laying size (f <$> act) := by
  intro w y w' laid ran
  obtain ⟨x, ran, -⟩ := ran_map.1 ran
  exact laying w x w' laid ran

theorem ite {c : Prop} [Decidable c] (yes : Laying size act) (no : Laying size other) :
    Laying size (if c then act else other) := by
  split
  · exact yes
  · exact no

/-- What stops an operation on a condition. -/
theorem refuse {c : Prop} [Decidable c] {e : AllocatorFault} {f : Unit → Alloc β} (rest : Laying size (f ())) :
    Laying size (if c then MonadExcept.throw e >>= f else f ()) :=
  .ite (fun _ _ _ _ ran =>
    have ⟨_, _, thrown, _⟩ := ran_bind.1 ran
    (ran_throw.1 thrown).elim) rest

theorem look (f : Allocator → α) : Laying size (Alloc.look f) := by
  intro w x w' laid ran
  obtain ⟨-, rfl⟩ := ran_look.1 ran
  exact .refl laid

/-- An operation that only reads. -/
theorem reads (only : ∀ w x w', Ran act w x w' → w' = w) : Laying size act := by
  intro w x w' laid ran
  rw [only w x w' ran]
  exact .refl laid

/-- A change of nothing that counts. -/
theorem aside {f : Allocator → Allocator} (same : ∀ a, (f a).vars = a.vars ∧ (f a).frame = a.frame ∧
      (f a).globals = a.globals ∧ (f a).pushed = a.pushed ∧ (f a).calls = a.calls) :
    Laying size (Alloc.change f) := by
  intro w x w' laid ran
  obtain ⟨vars, frame, globals, pushed, calls⟩ := same w.allocator
  have wider : Wider w.allocator (f w.allocator) := .of_same frame globals pushed
  rw [ran_change.1 ran]
  exact .of_change (laid.of_same vars wider.toRoomier) wider calls

theorem emit {i : MachineInstr} (off : i.stackOffset? = none) : Laying size (Alloc.emit i) := by
  intro w x w' laid ran
  rw [ran_emit.1 ran]
  refine .of_push laid fun offset reaches => ?_
  rw [off] at reaches
  cases reaches

theorem update {f : Variable → Variable} (narrows : ∀ v : Variable, v.Narrows (f v)) :
    Laying size (Alloc.update id f) := by
  intro w x w' laid ran
  obtain ⟨v, found, rfl⟩ := ran_update.1 ran
  exact .of_change (laid.setVar found _ (narrows v)) (.of_same rfl rfl rfl) rfl

theorem forM {f : α → Alloc Unit} (pass : ∀ x, Laying size (f x)) (xs : List α) : Laying size (xs.forM f) := by
  intro w x w' laid ran
  refine Ran.forM ran (P := fun mid => Lays size w mid) (.refl laid) fun y _ mid mid' lays ran => ?_
  exact lays.trans (pass y _ _ _ lays.laid ran)

theorem mapM {f : α → Alloc β} (pass : ∀ x, Laying size (f x)) (xs : List α) : Laying size (xs.mapM f) := by
  intro w ys w' laid ran
  refine Ran.mapM ran (P := fun mid => Lays size w mid) (.refl laid) fun y _ mid x mid' lays ran => ?_
  exact lays.trans (pass y _ _ _ lays.laid ran)

end Laying

/-! ### Basic changes -/

theorem laying_known : Laying size (known id) := .reads fun _ _ _ ran => (ran_known.1 ran).2

theorem laying_resolve : Laying size (resolve name) := .reads fun _ _ _ ran => (ran_resolve.1 ran).2

theorem laying_addressOf {home : Home} : Laying size (addressOf home) :=
  .reads fun _ _ _ ran => (ran_addressOf.1 ran).2

/-- A note about a variable that has nothing to do with its words. -/
theorem laying_note {f : Variable → Variable} (same : ∀ v, (f v).home = v.home ∧ (f v).array = v.array ∧
      (f v).storage = v.storage ∧ (f v).isTemp = v.isTemp ∧ (f v).depth = v.depth) :
    Laying size (update id f) :=
  .update fun v =>
    have ⟨home, array, storage, temp, depth⟩ := same v
    Variable.narrows_of_same home array storage temp depth

theorem noteOf_lays {f : Variable → Variable} {x : Unit} (laid : Laid size w.allocator)
    (ran : Ran (do update (← resolve name) f) w x w') (same : ∀ v, (f v).home = v.home ∧ (f v).array = v.array ∧
      (f v).storage = v.storage ∧ (f v).isTemp = v.isTemp ∧ (f v).depth = v.depth) : Lays size w w' :=
  Laying.bind laying_resolve (fun _ => laying_note same) _ _ _ laid ran

theorem laying_modifyLevel {depth : Allocator → Nat} {f : Level → Level} :
    Laying size (change fun a => a.modifyLevel (depth a) f) := by
  refine .aside fun a => ?_
  rw [modifyLevel_eq]
  exact ⟨rfl, rfl, rfl, rfl, rfl⟩

/-- Registers, holds, names of temporaries and the order of use have nothing to do with memory. -/
theorem laying_same {f : Allocator → Allocator} (same : ∀ a, f a = { a with
      owner := (f a).owner, free := (f a).free, recency := (f a).recency, held := (f a).held
      reserved := (f a).reserved, temps := (f a).temps, nextTemp := (f a).nextTemp, inner := (f a).inner }) :
    Laying size (change f) := by
  refine .aside fun a => ?_
  rw [same a]
  exact ⟨rfl, rfl, rfl, rfl, rfl⟩

theorem laying_touch : Laying size (touch id) := laying_same fun _ => rfl

theorem laying_hold : Laying size (hold r) := laying_same fun _ => rfl

theorem laying_releaseHolds : Laying size releaseHolds := laying_same fun _ => rfl

theorem laying_withdraw : Laying size (withdraw r) := laying_same fun _ => rfl

theorem laying_setOwner {owner : Option VarId} : Laying size (setOwner r owner) := laying_same fun _ => rfl

theorem laying_release : Laying size (release r) := by
  refine .bind laying_setOwner fun _ => laying_same fun a => ?_
  split <;> rfl

theorem laying_bindTo : Laying size (bindTo id r) :=
  .bind laying_setOwner fun _ => .bind (.update fun _ => Variable.narrows_register rfl rfl rfl rfl rfl) fun _ =>
    .bind laying_touch fun _ => laying_hold

theorem laying_unbind : Laying size (unbind id) := by
  refine .bind laying_known fun v => ?_
  split
  · exact .pure _
  · exact .bind (laying_same fun _ => rfl) fun _ => .bind laying_release fun _ =>
      .update fun _ => Variable.narrows_parted

/-! ### Traffic -/

theorem laying_writeBack : Laying size (writeBack id r) := by
  intro w x w' laid ran
  obtain ⟨v, home, address, found, has, formed, rfl⟩ := ran_writeBack.1 ran
  have wrote : Lays size w (push (.sw r address.base address.offset) w) := by
    refine .of_push laid fun offset reaches => ?_
    obtain ⟨base, same⟩ : address.base = Reg.stackPointer ∧ address.offset = offset := by
      simpa [MachineInstr.stackOffset?] using reaches
    exact inFrame_address (laid.granted found (.inl (.inl has))) formed base same
  exact wrote.trans (.of_change
    (wrote.laid.setVar found _ (Variable.narrows_of_same rfl rfl rfl rfl rfl)) (.of_same rfl rfl rfl) rfl)

/-- Only a temporary is given a home when it has to leave its register. -/
theorem ensureHome_lays {v : Variable} (laid : Laid size w.allocator) (found : w.allocator.var? id = some v)
    (isTemp : v.isTemp = true) (ran : Ran (ensureHome id) w () w') : Lays size w w' := by
  obtain ⟨v', found', ⟨-, rfl⟩ | ⟨homeless, rfl⟩⟩ := ran_ensureHome.1 ran
  · exact .refl laid
  · cases found.symm.trans found'
    refine .of_change (laid.assign found _ 1 (fun {word} claimed => ?_) (fun there => .inr there) fun isNamed => ?_)
      (.trans (.grown _ 1) (.of_same rfl rfl rfl)) rfl
    · rcases claimed with home | array
      · exact .inr ⟨Nat.one_pos, (Option.some.inj home).symm⟩
      · exact .inl (.inr array)
    · cases isTemp.symm.trans isNamed

theorem laying_evict : Laying size (evict id) := by
  intro w r w' laid ran
  obtain ⟨v, mid, last, found, -, -, home, parted, rfl⟩ := ran_evict ran
  have went : Lays size w mid := by
    rcases home with ⟨isTemp, housed, given, wrote⟩ | ⟨-, -, wrote⟩ | ⟨-, -, rfl⟩
    · have housed := ensureHome_lays laid found isTemp given
      exact housed.trans (laying_writeBack _ _ _ housed.laid wrote)
    · exact laying_writeBack _ _ _ laid wrote
    · exact .refl laid
  have left := went.trans (laying_unbind _ _ _ went.laid parted)
  exact left.trans (laying_withdraw _ () _ left.laid (ran_withdraw.2 rfl))

theorem laying_take : Laying size take := by
  refine .bind (.look _) fun free => ?_
  split
  · exact .bind laying_withdraw fun _ => .pure _
  · refine .bind (.look _) fun victim => ?_
    split
    · exact laying_evict
    · exact .throw _

theorem laying_load : Laying size (load id r) := by
  intro w x w' laid ran
  obtain ⟨v, home, address, found, formed, way⟩ := ran_load ran
  have reached : ∀ {i : MachineInstr}, w.allocator.Grants home →
      (∀ offset ∈ i.stackOffset?, address.base = Reg.stackPointer ∧ address.offset = offset) →
      Lays size w (push i w) := fun granted reaches => .of_push laid fun offset member =>
    inFrame_address granted formed (reaches offset member).1 (reaches offset member).2
  rcases way with ⟨array, rfl⟩ | ⟨-, there | ⟨-, has⟩, rfl⟩
  · refine reached (laid.granted found (.inl (Variable.claims_memory ?_))) fun offset member => ?_
    · rw [Variable.memory?, array]
      rfl
    · obtain ⟨⟨base, -⟩, same⟩ : (address.base = Reg.stackPointer ∧ r ≠ Reg.stackPointer) ∧
          address.offset = offset := by simpa [MachineInstr.stackOffset?] using member
      exact ⟨base, same⟩
  · refine reached (laid.granted found (.inr there)) fun offset member => ?_
    simpa [MachineInstr.stackOffset?] using member
  · refine reached (laid.granted found (.inl (.inl has))) fun offset member => ?_
    simpa [MachineInstr.stackOffset?] using member

/-! ### Operations on variables -/

/-- A named variable is introduced in a register. -/
theorem lays_withVariable {a : Allocator} (name : String) (r : Reg) (laid : Laid size a)
    (level : a.frame.isSome → 0 < a.depth) :
    Laid size (withVariable name r a) ∧ Wider a (withVariable name r a) ∧
      (withVariable name r a).calls = a.calls := by
  have added : Laid size ((a.grown 1).addVar (introducedVar a name r)) := by
    refine laid.addVar 1 (fun _ _ => rfl) (fun {word} claimed => ⟨0, Nat.one_pos, ?_⟩)
      fun _ => no_frame_at_root level rfl
    rw [Home.shift_zero]
    rcases claimed with (home | ⟨start, array, -⟩) | there
    · exact (Option.some.inj home).symm
    · cases array
    · cases there
  have placed := (added.modifyLevel ((a.grown 1).addVar (introducedVar a name r)).depth
    (Level.addName name a.vars.size)).bound (var?_introduced a _ 1 _) r
  refine ⟨placed, ?_, ?_⟩
  · rw [withVariable, modifyCurrent, modifyLevel_eq]
    exact .trans (.grown a 1) (.of_same rfl rfl rfl)
  · rw [withVariable, modifyCurrent, modifyLevel_eq]
    rfl

theorem addVariable_lays {hand : List Reg} {given : Option Reg} (sound : Sound hand w.allocator)
    (laid : Laid size w.allocator) (ran : Ran (addVariable name given) w r w') : Lays size w w' := by
  obtain ⟨-, mid, came, rfl⟩ := ran_addVariable ran
  obtain ⟨first, depth⟩ : Lays size w mid ∧ mid.allocator.depth = w.allocator.depth := by
    rcases came with ⟨-, took⟩ | ⟨-, -, rfl⟩
    · refine ⟨laying_take _ _ _ laid took, ?_⟩
      rw [depth, depth, (takes sound took).keeps.inner]
    · exact ⟨laying_withdraw _ () _ laid (ran_withdraw.2 rfl), rfl⟩
  have level : mid.allocator.frame.isSome → 0 < mid.allocator.depth := by
    rw [first.wider.zone, depth]
    exact fun inside => List.length_pos_iff.2 (sound.body.level inside)
  obtain ⟨laid', wider, calls⟩ := lays_withVariable name r first.laid level
  exact first.trans (.of_change laid' wider calls)

/-- A new variable of the innermost level has the words that are handed out for it. -/
theorem lays_declared {a : Allocator} {v : Variable} {size' : VarId → Nat} (words : Nat) (laid : Laid size a)
    (level : a.frame.isSome → 0 < a.depth) (sizes : ∀ other, other ≠ a.vars.size → size' other = size other)
    (depth : v.depth = a.depth)
    (claims : ∀ {word}, v.Claims (size' a.vars.size) word ∨ v.storage = .memory word →
      ∃ k < words, word = a.nextHome.shift k) (f : Level → Level) :
    Laid size' (((a.grown words).addVar v).modifyCurrent f) ∧
      Wider a (((a.grown words).addVar v).modifyCurrent f) ∧
      (((a.grown words).addVar v).modifyCurrent f).calls = a.calls := by
  refine ⟨(laid.addVar words sizes claims fun _ => no_frame_at_root level depth).modifyLevel _ f, ?_, ?_⟩
  · rw [modifyCurrent, modifyLevel_eq]
    exact .trans (.grown a words) (.of_same rfl rfl rfl)
  · rw [modifyCurrent, modifyLevel_eq]
    rfl

theorem declareVariable_lays {x : Unit} (level : w.allocator.frame.isSome → 0 < w.allocator.depth)
    (laid : Laid size w.allocator) (ran : Ran (declareVariable name) w x w') : Lays size w w' := by
  obtain ⟨-, rfl⟩ := ran_declareVariable ran
  obtain ⟨laid', wider, calls⟩ := lays_declared
    (v := Variable.plain name false w.allocator.depth (some w.allocator.nextHome) (.memory w.allocator.nextHome))
    1 laid level (fun _ _ => rfl) rfl (fun {word} claimed => ⟨0, Nat.one_pos, by
      rw [Home.shift_zero]
      rcases claimed with (home | ⟨start, array, -⟩) | there
      · exact (Option.some.inj home).symm
      · cases array
      · exact (Storage.memory.inj there).symm⟩) (Level.addName name w.allocator.vars.size)
  exact .of_change laid' wider calls

/-- An array gets as many words as are declared, and at least one. -/
theorem setArray_lays {n : Nat} {x : Unit} (level : w.allocator.frame.isSome → 0 < w.allocator.depth)
    (laid : Laid size w.allocator) (ran : Ran (setArray name n) w x w') :
    Lays (Function.update size w.allocator.vars.size n) w w' := by
  obtain ⟨-, rfl⟩ := ran_setArray ran
  obtain ⟨laid', wider, calls⟩ := lays_declared
    (v := { Variable.plain name false w.allocator.depth none (.memory w.allocator.nextHome) with
      array := some w.allocator.nextHome, refs := 1 })
    (max n 1) laid level
    (fun other elsewhere => Function.update_of_ne elsewhere n size) rfl (fun {word} claimed => by
      rcases claimed with (home | ⟨start, array, k, inside, rfl⟩) | there
      · cases home
      · cases array
        rw [Function.update_self] at inside
        exact ⟨k, inside, rfl⟩
      · refine ⟨0, Nat.lt_of_lt_of_le Nat.one_pos (Nat.le_max_right n 1), ?_⟩
        rw [Home.shift_zero]
        exact (Storage.memory.inj there).symm) (Level.addName name w.allocator.vars.size)
  exact .of_change laid' wider calls

theorem laying_freshTemp : Laying size freshTemp :=
  .bind (.look _) fun _ => .bind (laying_same fun _ => rfl) fun _ => .pure _

/-- A new temporary has no words. -/
theorem laying_insertTemp {temp : String} {depth : Nat} :
    Laying size (insert (Variable.plain temp true depth none (.register r))) := by
  intro w x w' laid ran
  obtain ⟨-, rfl⟩ := ran_insert.1 ran
  have added := laid.addVar (v := Variable.plain temp true depth none (.register r)) 0 (fun _ _ => rfl)
    (fun {word} claimed => by
      rcases claimed with (home | ⟨start, array, -⟩) | there
      · cases home
      · cases array
      · cases there) nofun
  rw [grown_zero] at added
  exact .of_change added (.of_same rfl rfl rfl) rfl

theorem laying_addTemp : Laying size addTemp :=
  .bind laying_take fun _ => .bind laying_freshTemp fun _ => .bind (.look _) fun _ =>
    .bind laying_insertTemp fun _ => .bind (laying_same fun _ => rfl) fun _ => .bind laying_bindTo fun _ => .pure _

/-- The words of a temporary stay its own when it becomes a variable, which may get a home besides. -/
theorem withRenamed_lays {v : Variable} (temp name : String) (v' : Variable) (words : Nat)
    (laid : Laid size w.allocator)
    (found : w.allocator.var? id = some v) (home : ∀ {word}, v'.home = some word →
      v.home = some word ∨ 0 < words ∧ word = w.allocator.nextHome)
    (array : v'.array = v.array) (storage : v'.storage = v.storage)
    (root : v'.depth = 0 → w.allocator.frame = none) :
    Lays size w (on (fun a => withRenamed temp name id v' (a.grown words)) w) := by
  have assigned := laid.assign found v' words (fun {word} claimed => by
    rcases claimed with has | ⟨start, began, rest⟩
    · exact (home has).imp_left .inl
    · exact .inl (.inr ⟨start, array ▸ began, rest⟩)) (fun there => .inr (storage ▸ there)) fun _ => root
  refine .of_change ?_ ?_ ?_ <;> rw [withRenamed_eq]
  · exact assigned.of_same rfl (.of_same rfl rfl)
  · exact .trans (.grown _ words) (.of_same rfl rfl rfl)
  · rfl

theorem renameTemp_lays {temp : String} {x : Unit} (level : w.allocator.frame.isSome → 0 < w.allocator.depth)
    (laid : Laid size w.allocator) (ran : Ran (renameTemp temp name) w x w') : Lays size w w' := by
  obtain ⟨-, id, v, -, found, ⟨r, -, rfl⟩ | ⟨place, home, -, has, rfl⟩⟩ := ran_renameTemp ran
  · have renamed := withRenamed_lays temp name
      (renamedVar w.allocator name w.allocator.nextHome true v) 1 laid found
      (fun has => .inr ⟨Nat.one_pos, (Option.some.inj has).symm⟩) rfl rfl (no_frame_at_root level rfl)
    exact renamed.trans (laying_touch _ () _ renamed.laid (ran_touch.2 rfl))
  · have renamed := withRenamed_lays temp name (renamedVar w.allocator name home false v)
      0 laid found (fun has' => .inl (has.trans has')) rfl rfl (no_frame_at_root level rfl)
    simp only [grown_zero] at renamed
    exact renamed

/-! ### Reading, writing and dropping -/

theorem laying_getRegister {modifies : Bool} : Laying size (getRegister name modifies) := by
  refine .bind laying_resolve fun id => .bind laying_known fun v => ?_
  have use : ∀ r, Laying size (do
      touch id
      hold r
      return r) := fun r => .bind laying_touch fun _ => .bind laying_hold fun _ => .pure _
  split
  · exact .ite (.bind laying_load fun _ => use _) (use _)
  · exact .bind laying_take fun _ => .bind laying_load fun _ => .bind laying_bindTo fun _ =>
      .bind (laying_note fun _ => ⟨rfl, rfl, rfl, rfl, rfl⟩) fun _ => .pure _

theorem laying_detachAsTemp : Laying size (detachAsTemp name) :=
  .bind laying_getRegister fun _ => .bind laying_resolve fun _ => .bind laying_known fun _ =>
    .bind laying_modifyLevel fun _ => .bind laying_freshTemp fun _ =>
      .bind (.update fun _ => ⟨nofun, rfl, fun there => .inr there, nofun⟩) fun _ =>
        .bind (laying_same fun _ => rfl) fun _ => .bind laying_hold fun _ => .pure _

theorem laying_prepareWrite : Laying size (prepareWrite name) := by
  refine .bind laying_resolve fun id => .bind laying_known fun v => .refuse ?_
  have dirty : ∀ r : Reg, Laying size (do
      update id fun v => { v with isDirty := true }
      return r) := fun r => .bind (laying_note fun _ => ⟨rfl, rfl, rfl, rfl, rfl⟩) fun _ => .pure _
  cases v.storage with
  | register r => exact .bind laying_touch fun _ => .bind laying_hold fun _ => dirty r
  | memory | saved => exact .bind laying_take fun r => .bind laying_bindTo fun _ => dirty r

theorem laying_markWritten : Laying size (markWritten name) := by
  refine .bind laying_resolve fun id => .bind laying_known fun v => .ite (.pure _) ?_
  refine .bind (laying_note fun _ => ⟨rfl, rfl, rfl, rfl, rfl⟩) fun _ => ?_
  split
  · exact laying_writeBack
  · exact .pure _

/-- The words of a dropped variable belong to no one. -/
theorem laying_forget : Laying size (change fun a => { a with
    recency := a.recency.remove id, vars := a.vars.setIfInBounds id none }) := by
  intro w x w' laid ran
  rw [ran_change.1 ran]
  refine .of_change (laid.narrow (fun granted => ?_) fun {i u} found => ?_) (.of_same rfl rfl rfl) rfl
  · exact (Roomier.of_same (a := w.allocator) rfl rfl).grants granted
  · have found' : (w.allocator.dropVar id).var? i = some u := found
    rw [var?_dropVar] at found'
    split at found'
    · cases found'
    · exact ⟨u, found', Variable.narrows_of_same rfl rfl rfl rfl rfl⟩

theorem laying_drop : Laying size (drop id) :=
  .bind laying_unbind fun _ => .bind laying_known fun _ =>
    .ite (.bind (laying_same fun _ => rfl) fun _ => laying_forget) (.bind laying_modifyLevel fun _ => laying_forget)

theorem laying_remove : Laying size (remove name) := .bind laying_resolve fun _ => laying_drop

theorem laying_removeIfTemp : Laying size (removeIfTemp name) := by
  refine .bind (.look _) fun found => ?_
  split
  · exact laying_drop
  · exact .pure _

theorem laying_discardTemps : Laying size discardTemps :=
  .bind (.look _) fun _ => .bind (.forM (fun _ => laying_drop) _) fun _ => .pure _

theorem laying_reserve : Laying size (reserve r) := by
  have rest : Laying size (do
      withdraw r
      if r.isPool then
        change fun a => { a with
          reserved := if r ∈ a.reserved then a.reserved else a.reserved ++ [r] }) :=
    .bind laying_withdraw fun _ => .ite (laying_same fun _ => rfl) (.pure _)
  refine .bind (.look _) fun owner => ?_
  cases owner with
  | none => exact rest
  | some id =>
    exact .bind laying_hold fun _ => .bind laying_take fun target => .bind (.emit (i := .move target r) rfl) fun _ =>
      .bind laying_setOwner fun _ => .bind laying_bindTo fun _ => rest

theorem laying_unreserveAll : Laying size unreserveAll :=
  .bind (.look _) fun _ => .bind (laying_same fun _ => rfl) fun _ =>
    .forM (fun _ => .bind (.look _) fun _ => .ite laying_release (.pure _)) _

theorem laying_knownAs : Laying size (knownAs name) := .bind laying_resolve fun _ => laying_known

theorem laying_arrayAddress : Laying size (arrayAddress name) := by
  refine .bind laying_knownAs fun v => ?_
  split
  · exact laying_addressOf
  · exact .throw _

theorem laying_memoryAddress : Laying size (memoryAddress name) := by
  refine .bind laying_resolve fun id => .bind laying_known fun v => ?_
  have note : ∀ home : Home, Laying size (do
      update id fun v => { v with mustReload := true }
      addressOf home) := fun home =>
    .bind (laying_note fun _ => ⟨rfl, rfl, rfl, rfl, rfl⟩) fun _ => laying_addressOf
  split
  · exact laying_addressOf
  · exact .throw _
  · split
    · exact .bind laying_writeBack fun _ => note _
    · exact note _

theorem laying_setAlias {target : String} : Laying size (setAlias name target) :=
  .bind laying_resolve fun _ => laying_modifyLevel

theorem laying_removeAlias : Laying size (removeAlias name) := laying_modifyLevel

theorem laying_demote : Laying size (demote name) := by
  refine .bind (.look _) fun found => ?_
  split
  · exact laying_same fun _ => rfl
  · exact .pure _

/-! ### Where paths meet, and levels -/

theorem laying_sendHome : Laying size (sendHome r) := by
  refine .bind (.look _) fun owner => ?_
  split
  · exact .pure _
  · exact .bind laying_known fun _ => .ite (.pure _)
      (.ite (.bind laying_writeBack fun _ => laying_unbind) laying_unbind)

theorem laying_pin : Laying size (pin id) := laying_note fun _ => ⟨rfl, rfl, rfl, rfl, rfl⟩

theorem laying_bringBack : Laying size (bringBack id) :=
  .bind laying_known fun _ => .ite (.bind laying_take fun _ => .bind laying_load fun _ =>
    .bind laying_bindTo fun _ => laying_note fun _ => ⟨rfl, rfl, rfl, rfl, rfl⟩) (.pure _)

theorem laying_sync : Laying size sync :=
  .bind (.forM (fun _ => laying_sendHome) _) fun _ => .bind (.look _) fun _ =>
    .bind (.forM (fun _ => laying_pin) _) fun _ => .forM (fun _ => laying_bringBack) _

theorem laying_pushLevel {hides : Bool} : Laying size (pushLevel hides) := laying_same fun _ => rfl

theorem laying_closeLevel {level : Level} : Laying size (closeLevel level) :=
  .bind (.forM (fun _ => laying_drop) _) fun _ => laying_same fun _ => rfl

theorem laying_popLevel : Laying size popLevel := by
  refine .bind (.look _) fun inner => ?_
  split
  · exact .throw _
  · exact laying_closeLevel

/-! ### Function bodies -/

theorem laying_sendRootHome : Laying size (sendRootHome r) := by
  refine .bind (.look _) fun owner => ?_
  split
  · exact .pure _
  · refine .bind laying_known fun v => .ite ?_ (.pure _)
    split
    · exact laying_writeBack
    · exact .pure _

theorem laying_vacate : Laying size (vacate r) := by
  refine .bind (.look _) fun owner => ?_
  split
  · exact .pure _
  · exact laying_unbind

theorem laying_rebind {binding : VarId × Reg × Bool} : Laying size (rebind binding) :=
  .bind laying_setOwner fun _ => .update fun _ => Variable.narrows_register rfl rfl rfl rfl rfl

/-! ### Calls -/

theorem laying_leaveForCall : Laying size (leaveForCall r) := by
  refine .bind (.look _) fun owner => ?_
  split
  · exact .pure _
  · refine .bind laying_known fun v => ?_
    split
    · exact .pure _
    · exact .ite (.pure _) (.ite (.bind laying_writeBack fun _ => .bind laying_unbind fun _ => .pure _)
        (.bind laying_unbind fun _ => .pure _))

/-- A temporary that waits for a call keeps its words. -/
theorem laying_park {saved : VarId × Reg × Nat} : Laying size (park saved) :=
  .bind laying_setOwner fun _ => .bind (laying_same fun _ => rfl) fun _ =>
    .update fun _ => ⟨fun has => has, rfl, nofun, fun isNamed shallow => ⟨isNamed, shallow⟩⟩

end Alloc

end SmallC
