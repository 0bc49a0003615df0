import SmallC.Proofs.Allocation.Caller
import SmallC.Proofs.Allocation.Reading
import SmallC.Proofs.Generation.Balancing
import SmallC.Proofs.Generation.Calls
import SmallC.Proofs.Generation.Enlarging

/-!
Placing the arguments of a call. The first ones are moved to the registers that they travel in, which their
occupants leave before; the others are read into registers of their own and are written to the stack behind what
the caller puts aside. At the jump every argument is where the function expects it, with the value that it had
before any of them was moved.
-/
namespace SmallC

open Alloc Allocator Machine

namespace Gen

/-- Moves the arguments of a call to where the function expects them. The answer says which registers were pushed. -/
def placeArguments (values : List String) : Gen (List Reg) := do
  passInRegisters (values.zip Reg.arguments)
  let onStack := values.drop Reg.argumentCount
  let stacked ← onStack.mapM fetch
  onStack.forM free
  alloc Alloc.saveForCall
  moveStack (-(stacked.length : Int))
  emitAll (pushCode 0 stacked)
  alloc (Alloc.pushWords stacked.length)
  return stacked

/-- What follows the jump of a call. -/
def resumeCaller (ret : TypeSpec) (words : Nat) : Gen (Option String) := do
  moveStack words
  alloc (Alloc.popWords words)
  alloc Alloc.restoreAfterCall
  alloc Alloc.unreserveAll
  releaseHolds
  if ret.isVoid then return none
  let temp ← takeResult ret
  releaseHolds
  return some temp

/-- Between the evaluation of its arguments and the jump, a call does nothing but place them. -/
theorem callCompiled_eq (name : String) (f : Function) (args : List Code) : callCompiled name f args = (do
    let values ← arguments (args.zip f.params)
    let stacked ← placeArguments values
    emit (MachineInstr.callTo name)
    resumeCaller f.ret stacked.length) := by
  simp only [callCompiled, placeArguments, resumeCaller, callWith, bind_assoc, pure_bind]

variable {c : Context} {p mid p' : Progress} {base : Int} {size : Nat} {last : VarId → Option Word} {m m' : Machine}

/-- Generation that appends plain code. -/
def AppendsPlain (p : Progress) (code : List MachineInstr) (p' : Progress) : Prop :=
  p'.draft.entries.toList = p.draft.entries.toList ++ code.map .plain

theorem AppendsPlain.nil (p : Progress) : AppendsPlain p [] p := (List.append_nil _).symm

theorem AppendsPlain.trans {code more : List MachineInstr} (first : AppendsPlain p code mid) (second : AppendsPlain mid more p') :
    AppendsPlain p (code ++ more) p' := by
  rw [AppendsPlain, second, first, List.map_append, List.append_assoc]

theorem appends_pushAll (p : Progress) (a : Allocator) (code : Array MachineInstr) :
    AppendsPlain p code.toList { p with allocator := a, draft := p.draft.pushAll code } :=
  toList_pushAll _ _

theorem exec_fetch {name : String} {r : Reg} (ran : (fetch name).exec c p = .ok (r, p')) :
    ∃ w, Ran (getRegister name true) ⟨p.allocator, #[]⟩ r w ∧
      p' = { p with allocator := w.allocator, draft := p.draft.pushAll w.code } := exec_alloc ran

theorem exec_free {name : String} {u : Unit} (ran : (free name).exec c p = .ok (u, p')) :
    ∃ w, Ran (removeIfTemp name) ⟨p.allocator, #[]⟩ () w ∧
      p' = { p with allocator := w.allocator, draft := p.draft.pushAll w.code } := exec_alloc ran

/-- One argument that travels in a register: the register is reserved, the argument is read and moved there, and is
given up if it is a temporary. -/
theorem exec_passInRegisters_cons {name : String} {target : Reg} {rest : List (String × Reg)} {u : Unit}
    (ran : (passInRegisters ((name, target) :: rest)).exec c p = .ok (u, p')) :
    ∃ w₁ rs w₂ w₃ next, Ran (reserve target) ⟨p.allocator, #[]⟩ () w₁ ∧
      Ran (getRegister name true) ⟨w₁.allocator, #[]⟩ rs w₂ ∧ Ran (removeIfTemp name) ⟨w₂.allocator, #[]⟩ () w₃ ∧
      next.allocator = w₃.allocator ∧ AppendsPlain p (w₁.code.toList ++ (w₂.code.toList ++
        ((if rs ≠ target then [MachineInstr.move target rs] else []) ++ w₃.code.toList))) next ∧
      (passInRegisters rest).exec c next = .ok (u, p') := by
  obtain ⟨_, _, reserved, ran⟩ := exec_bind_ok ran
  obtain ⟨w₁, reserves, rfl⟩ := exec_alloc reserved
  obtain ⟨rs, _, fetched, ran⟩ := exec_bind_ok ran
  obtain ⟨w₂, reads, rfl⟩ := exec_fetch fetched
  have first := appends_pushAll p w₁.allocator w₁.code
  have second := first.trans (appends_pushAll _ w₂.allocator w₂.code)
  split at ran
  · next away =>
    obtain ⟨_, _, moved, ran⟩ := exec_bind_ok ran
    cases exec_emit moved
    obtain ⟨_, _, freed, ran⟩ := exec_bind_ok ran
    obtain ⟨w₃, frees, rfl⟩ := exec_free freed
    refine ⟨w₁, rs, w₂, w₃, _, reserves, reads, frees, rfl, ?_, ran⟩
    rw [if_pos away, ← List.append_assoc, ← List.append_assoc]
    exact (second.trans (appends_pushAll _ w₂.allocator #[MachineInstr.move target rs])).trans
      (appends_pushAll _ w₃.allocator w₃.code)
  · next stays =>
    obtain ⟨_, _, freed, ran⟩ := exec_bind_ok ran
    obtain ⟨w₃, frees, rfl⟩ := exec_free freed
    refine ⟨w₁, rs, w₂, w₃, _, reserves, reads, frees, rfl, ?_, ran⟩
    rw [if_neg stays, List.nil_append, ← List.append_assoc]
    exact second.trans (appends_pushAll _ w₃.allocator w₃.code)

/-! ### Room -/

theorem grows_passInRegisters {pairs : List (String × Reg)} {u : Unit}
    (ran : (passInRegisters pairs).exec c p = .ok (u, p')) : Grows p.allocator p'.allocator := by
  induction pairs generalizing p with
  | nil =>
    cases ran
    exact .refl _
  | cons pair rest ih =>
    obtain ⟨w₁, rs, w₂, w₃, next, reserves, reads, frees, same, -, ran⟩ := exec_passInRegisters_cons ran
    have first : Grows p.allocator w₁.allocator := growing_reserve _ _ _ reserves
    have second : Grows w₁.allocator w₂.allocator := growing_getRegister ⟨w₁.allocator, #[]⟩ _ _ reads
    have third : Grows w₂.allocator w₃.allocator := growing_removeIfTemp ⟨w₂.allocator, #[]⟩ _ _ frees
    have fourth := ih ran
    rw [same] at fourth
    exact first.trans (second.trans (third.trans fourth))

theorem grows_fetchAll {names : List String} {rs : List Reg} (ran : (names.mapM fetch).exec c p = .ok (rs, p')) :
    Grows p.allocator p'.allocator := Enlarges.mapM enlarges_fetch names _ _ _ ran

theorem grows_freeAll {names : List String} {u : Unit} (ran : (names.forM free).exec c p = .ok (u, p')) :
    Grows p.allocator p'.allocator := Enlarges.forM enlarges_free names _ _ _ ran

/-! ### Arguments in registers -/

/-- Temporaries are named at most once. -/
def Once (a : Allocator) (names : List String) : Prop := ∀ name, a.isTemp name = true → names.count name ≤ 1

/-- One argument comes to its register, and nothing that was put into another register for an argument is lost. -/
theorem pass_one {name : String} {target rs : Reg} {x : Word} {w₁ w₂ w₃ : Work} {a : Allocator}
    (rest : AtRest base size last a m) (room : Room base size w₃.allocator) (argument : target ∈ Reg.arguments)
    (means : a.Means last name x) (reserves : Ran (reserve target) ⟨a, #[]⟩ () w₁)
    (reads : Ran (getRegister name true) ⟨w₁.allocator, #[]⟩ rs w₂)
    (frees : Ran (removeIfTemp name) ⟨w₂.allocator, #[]⟩ () w₃) :
    ∃ m', m.performs (w₁.code.toList ++ (w₂.code.toList ++
        ((if rs ≠ target then [MachineInstr.move target rs] else []) ++ w₃.code.toList))) = .ok m' ∧
      AtRest base size last w₃.allocator m' ∧ Secures last w₃.allocator m' target x ∧
      (∀ {r y}, r ∈ Reg.arguments → r ≠ target → Secures last a m r y → Secures last w₃.allocator m' r y) ∧
      (∀ other, other ≠ name ∨ a.isTemp name = false → w₃.allocator.find? other = a.find? other) ∧
      ∀ other, w₃.allocator.isTemp other = true → a.isTemp other = true := by
  have room₂ : Room base size w₂.allocator := room.of_grows (growing_removeIfTemp ⟨w₂.allocator, #[]⟩ _ _ frees)
  have room₁ : Room base size w₁.allocator := room₂.of_grows (growing_getRegister ⟨w₁.allocator, #[]⟩ _ _ reads)
  obtain ⟨code₁, m₁, emitted₁, done₁, rest₁, keeping₁, vacant₁, names₁, temps₁⟩ :=
    AtRest.reserve (w := ⟨a, #[]⟩) rest room₁ reserves
  obtain ⟨id, named, valued⟩ := means
  obtain ⟨code₂, m₂, emitted₂, done₂, rest₂, keeping₂, reads₂, -, carries, keeps₂⟩ :=
    AtRest.read (w := ⟨w₁.allocator, #[]⟩) rest₁ room₂ ⟨id, (names₁ name).trans named, valued⟩ reads
  have closed : ∀ {b : Allocator} {r : Reg}, r ∈ Reg.arguments → ¬ b.Open r := not_open_of_argument
  have special : ∀ r ∈ Reg.arguments, r ≠ Reg.status ∧ r ≠ Reg.stackPointer ∧ r ≠ Reg.zero := by decide
  have vacant₂ : w₂.allocator.Vacant target := keeping₂.vacant (closed argument) vacant₁
  have moved : ∃ m₃, m₂.performs (if rs ≠ target then [MachineInstr.move target rs] else []) = .ok m₃ ∧
      AtRest base size last w₂.allocator m₃ ∧ Secures last w₂.allocator m₃ target x ∧
      ∀ {r y}, r ∈ Reg.arguments → r ≠ target → Secures last w₂.allocator m₂ r y →
        Secures last w₂.allocator m₃ r y := by
    split
    · have done := effect_move (r := target) (q := rs) rest₂.bearing.zero
      have writes := effect_writes (i := MachineInstr.move target rs) rfl done
      refine ⟨_, performs_one.trans done, rest₂.write vacant₂ (special target argument).2.1 writes,
        ⟨(reg_setReg_self _ _ _ (special target argument).2.2).trans reads₂.holds, fun found there =>
          (vacant₂ found there).elim⟩, fun member different secures => ⟨?_, secures.own⟩⟩
      exact (writes.others different (special _ member).1).trans secures.holds
    · next same =>
      rw [not_not.1 same] at reads₂
      exact ⟨m₂, rfl, rest₂, reads₂, fun _ _ secures => secures⟩
  obtain ⟨m₃, done₃, rest₃, reads₃, others₃⟩ := moved
  obtain ⟨code₄, m₄, emitted₄, done₄, rest₄, keeps₄⟩ := AtRest.free (w := ⟨w₂.allocator, #[]⟩) rest₃ room frees
  have names₂ : ∀ other, w₂.allocator.find? other = a.find? other := fun other =>
    (keeps₂.find? other).trans (names₁ other)
  have temps₂ : ∀ other, w₂.allocator.isTemp other = a.isTemp other := fun other => by
    rw [Allocator.isTemp, Allocator.isTemp, keeps₂.temps, temps₁]
  refine ⟨m₄, ?_, rest₄, keeps₄ (special target argument).1 reads₃, fun {r y} member different secures => ?_,
    fun other spared => ?_, fun other isTemp => ?_⟩
  · rw [show w₁.code.toList = code₁ from emitted₁, show w₂.code.toList = code₂ from emitted₂,
      show w₃.code.toList = code₄ from emitted₄, performs_append done₁, performs_append done₂, performs_append done₃,
      done₄]
  · have noStatus := (special r member).1
    exact keeps₄ noStatus (others₃ member different (keeping₂.secures (closed member) noStatus
      (keeping₁.secures (closed member) noStatus secures)))
  · obtain ⟨-, rfl⟩ | ⟨isTemp, others⟩ := removeIfTemp_names (w := ⟨w₂.allocator, #[]⟩) rest₂.sound frees
    · exact names₂ other
    · obtain different | stays := spared
      · exact (others other different).1.trans (names₂ other)
      · cases ((temps₂ name).trans stays).symm.trans isTemp
  · obtain ⟨-, rfl⟩ | ⟨isTemp', others⟩ := removeIfTemp_names (w := ⟨w₂.allocator, #[]⟩) rest₂.sound frees
    · exact (temps₂ other).symm.trans isTemp
    · by_cases same : other = name
      · rw [same, ← temps₂]
        exact isTemp'
      · exact (temps₂ other).symm.trans ((others other same).2.symm.trans isTemp)

/-- The arguments that travel in registers come to them with the values that they had before any of them did. -/
theorem passInRegisters_places {pairs : List (String × Reg)} {names : List String} {value : String → Word} {u : Unit}
    (ran : (passInRegisters pairs).exec c p = .ok (u, p')) (rest : AtRest base size last p.allocator m)
    (room : Room base size p'.allocator) (argument : ∀ pair ∈ pairs, pair.2 ∈ Reg.arguments)
    (apart : (pairs.map Prod.snd).Nodup)
    (means : ∀ name ∈ pairs.map Prod.fst ++ names, p.allocator.Means last name (value name))
    (once : Once p.allocator (pairs.map Prod.fst ++ names)) :
    ∃ code m', AppendsPlain p code p' ∧ m.performs code = .ok m' ∧ AtRest base size last p'.allocator m' ∧
      (∀ name ∈ names, p'.allocator.Means last name (value name)) ∧
      (∀ pair ∈ pairs, Secures last p'.allocator m' pair.2 (value pair.1)) ∧
      ∀ {r x}, r ∈ Reg.arguments → r ∉ pairs.map Prod.snd → Secures last p.allocator m r x →
        Secures last p'.allocator m' r x := by
  induction pairs generalizing p m with
  | nil =>
    cases ran
    exact ⟨[], m, .nil _, rfl, rest, means, nofun, fun _ _ secures => secures⟩
  | cons pair pairs ih =>
    obtain ⟨name, target⟩ := pair
    obtain ⟨w₁, rs, w₂, w₃, next, reserves, reads, frees, same, appends, ran⟩ := exec_passInRegisters_cons ran
    have room₃ : Room base size w₃.allocator := same ▸ room.of_grows (grows_passInRegisters ran)
    have here := argument (name, target) List.mem_cons_self
    obtain ⟨m₁, done, rest₁, secures, others, spares, temps⟩ := pass_one rest room₃ here
      (means name List.mem_cons_self) reserves reads frees
    rw [← same] at rest₁ secures others spares temps
    rw [List.map_cons, List.nodup_cons] at apart
    -- a temporary that was given up is not named again
    have spared : ∀ other ∈ pairs.map Prod.fst ++ names, other ≠ name ∨ p.allocator.isTemp name = false := by
      intro other member
      cases isTemp : p.allocator.isTemp name with
      | false => exact .inr rfl
      | true =>
        refine .inl fun again => ?_
        have count := once name isTemp
        rw [List.map_cons, List.cons_append, List.count_cons_self] at count
        have present := List.count_pos_iff.2 (again ▸ member)
        omega
    obtain ⟨code, m', appends', done', rest', means', places, keeps⟩ := ih ran rest₁
      (fun pair member => argument pair (.tail _ member)) apart.2
      (fun other member => by
        obtain ⟨id, named, valued⟩ := means other (.tail _ member)
        exact ⟨id, (spares other (spared other member)).trans named, valued⟩)
      (fun other isTemp => Nat.le_trans (List.count_le_count_cons ..) (once other (temps other isTemp)))
    refine ⟨_, m', appends.trans appends', (performs_append done).trans done', rest', means', fun pair member => ?_,
      fun {r x} member absent holds => ?_⟩
    · obtain rfl | later := List.mem_cons.1 member
      · exact keeps here apart.1 secures
      · exact places pair later
    · rw [List.map_cons, List.mem_cons, not_or] at absent
      exact keeps member absent.2 (others member absent.1 holds)

/-! ### Arguments on the stack -/

/-- The arguments that travel on the stack are read into registers, each of which holds its value to the end. -/
theorem fetchAll_reads {names : List String} {value : String → Word} {rs : List Reg}
    (ran : (names.mapM fetch).exec c p = .ok (rs, p')) (rest : AtRest base size last p.allocator m)
    (room : Room base size p'.allocator) (means : ∀ name ∈ names, p.allocator.Means last name (value name)) :
    ∃ code m', AppendsPlain p code p' ∧ m.performs code = .ok m' ∧ AtRest base size last p'.allocator m' ∧
      Keeping last p.allocator p'.allocator m m' ∧
      ∀ {j : Nat} {name}, names[j]? = some name →
        ∃ r, rs[j]? = some r ∧ r.Carries ∧ Secures last p'.allocator m' r (value name) := by
  induction names generalizing p rs m with
  | nil =>
    cases ran
    exact ⟨[], m, .nil _, rfl, rest, .refl _ _ _, fun absent => nomatch absent⟩
  | cons name names ih =>
    rw [List.mapM_cons] at ran
    obtain ⟨r, _, fetched, ran⟩ := exec_bind_ok ran
    obtain ⟨w, reads, rfl⟩ := exec_fetch fetched
    obtain ⟨rs', _, ran, last⟩ := exec_bind_ok ran
    cases last
    obtain ⟨code, m₁, emitted, done, rest₁, keeping, secures, shut, carries, keeps⟩ :=
      AtRest.read (w := ⟨p.allocator, #[]⟩) rest (room.of_grows (grows_fetchAll ran)) (means name List.mem_cons_self) reads
    obtain ⟨code', m', appends, done', rest', keeping', all⟩ := ih ran rest₁ fun other member => by
      obtain ⟨id, named, valued⟩ := means other (.tail _ member)
      exact ⟨id, (keeps.find? other).trans named, valued⟩
    have first := appends_pushAll p w.allocator w.code
    rw [show w.code.toList = code from emitted] at first
    refine ⟨code ++ code', m', first.trans appends, (performs_append done).trans done', rest', keeping.trans keeping',
      fun {j other} found => ?_⟩
    cases j with
    | zero =>
      cases found
      exact ⟨r, rfl, carries, keeping'.secures shut carries.ne.2.2.1 secures⟩
    | succ j => exact all found

/-- Giving up temporaries leaves registers alone. -/
theorem freeAll_keeps {names : List String} {u : Unit} (ran : (names.forM free).exec c p = .ok (u, p'))
    (rest : AtRest base size last p.allocator m) (room : Room base size p'.allocator) :
    ∃ code m', AppendsPlain p code p' ∧ m.performs code = .ok m' ∧ AtRest base size last p'.allocator m' ∧
      ∀ {r x}, r ≠ Reg.status → Secures last p.allocator m r x → Secures last p'.allocator m' r x := by
  induction names generalizing p m with
  | nil =>
    cases ran
    exact ⟨[], m, .nil _, rfl, rest, fun _ secures => secures⟩
  | cons name names ih =>
    obtain ⟨_, _, freed, ran⟩ := exec_bind_ok ran
    obtain ⟨w, frees, rfl⟩ := exec_free freed
    obtain ⟨code, m₁, emitted, done, rest₁, keeps⟩ := AtRest.free (w := ⟨p.allocator, #[]⟩) rest
      (room.of_grows (grows_freeAll ran)) frees
    obtain ⟨code', m', appends, done', rest', keeps'⟩ := ih ran rest₁
    have first := appends_pushAll p w.allocator w.code
    rw [show w.code.toList = code from emitted] at first
    exact ⟨code ++ code', m', first.trans appends, (performs_append done).trans done', rest',
      fun noStatus secures => keeps' noStatus (keeps noStatus secures)⟩

theorem pushCode_eq (slot : Nat) (rs : List Reg) : pushCode slot rs = storeCode Reg.stackPointer slot rs := by
  induction rs generalizing slot with
  | nil => rfl
  | cons r rest ih => rw [pushCode, storeCode, ih]

/-- Registers are pushed: the stack pointer goes down, and their words are where it points at. -/
theorem performs_pushCode {n : Nat} (rs : List Reg) (stack : (m.reg Reg.stackPointer).toInt = n + rs.length)
    (inside : n + rs.length ≤ m.memory.size) :
    ∃ m', m.performs (stackMove (-(rs.length : Int)) ++ pushCode 0 rs) = .ok m' ∧
      (m'.reg Reg.stackPointer).toInt = n ∧ (∀ {r}, r ≠ Reg.stackPointer → m'.reg r = m.reg r) ∧
      ∀ {j r}, rs[j]? = some r → r ≠ Reg.stackPointer → m'.cell? (n + j) = some (m.reg r) := by
  obtain ⟨m₁, moved, stack₁, regs₁, memory₁⟩ : ∃ m₁, m.performs (stackMove (-(rs.length : Int))) = .ok m₁ ∧
      (m₁.reg Reg.stackPointer).toInt = n ∧ (∀ {r}, r ≠ Reg.stackPointer → m₁.reg r = m.reg r) ∧
      m₁.memory = m.memory := by
    unfold stackMove
    split
    · have fits : FitsSigned 32 ((m.reg Reg.stackPointer).toInt + -(rs.length : Int)) :=
        .between (a := 0) (by decide) (fits_toInt (m.reg Reg.stackPointer)) (by omega) (by omega)
      obtain ⟨m₁, done, lowered, rest⟩ := performs_moveStack fits
      exact ⟨m₁, done, by omega, rest⟩
    · exact ⟨m, rfl, by omega, fun _ => rfl, rfl⟩
  obtain ⟨m₂, done, stores⟩ := performs_storeCode (m := m₁) (n := n) Reg.stackPointer 0 rs (by omega)
    (by rw [memory₁]; exact inside)
  rw [pushCode_eq]
  refine ⟨m₂, (performs_append moved).trans done, by rw [stores.regs, stack₁], fun other => ?_, fun found other => ?_⟩
  · rw [stores.regs, regs₁ other]
  · rw [stores.words found, regs₁ other]

/-! ### All arguments -/

theorem zip_snd_begins {α β : Type} (xs : List α) (ys : List β) : (xs.zip ys).map Prod.snd <+: ys := by
  induction xs generalizing ys with
  | nil => exact List.nil_prefix
  | cons x xs ih =>
    cases ys with
    | nil => exact List.nil_prefix
    | cons y ys => exact List.cons_prefix_cons.2 ⟨rfl, ih ys⟩

/-- What placing arguments comes to. -/
theorem exec_placeArguments {values : List String} {stacked : List Reg}
    (ran : (placeArguments values).exec c p = .ok (stacked, p')) :
    ∃ p₁ p₂ p₃ w, (passInRegisters (values.zip Reg.arguments)).exec c p = .ok ((), p₁) ∧
      ((values.drop Reg.argumentCount).mapM fetch).exec c p₁ = .ok (stacked, p₂) ∧
      ((values.drop Reg.argumentCount).forM free).exec c p₂ = .ok ((), p₃) ∧
      Ran saveForCall ⟨p₃.allocator, #[]⟩ () w ∧
      AppendsPlain p₃ (w.code.toList ++ (stackMove (-(stacked.length : Int)) ++ pushCode 0 stacked)) p' ∧
      p'.allocator = { w.allocator with pushed := w.allocator.pushed + (stacked.length : Int) } := by
  obtain ⟨_, p₁, passed, ran⟩ := exec_bind_ok ran
  obtain ⟨rs, p₂, fetched, ran⟩ := exec_bind_ok ran
  obtain ⟨_, p₃, freed, ran⟩ := exec_bind_ok ran
  obtain ⟨_, _, saved, ran⟩ := exec_bind_ok ran
  obtain ⟨w, saves, rfl⟩ := exec_alloc saved
  obtain ⟨_, _, lowered, ran⟩ := exec_bind_ok ran
  cases exec_moveStack lowered
  obtain ⟨_, _, pushed, ran⟩ := exec_bind_ok ran
  cases exec_emitAll pushed
  obtain ⟨_, _, noted, last⟩ := exec_bind_ok ran
  obtain ⟨_, pushes, rfl⟩ := exec_alloc noted
  cases ran_change.1 pushes
  cases last
  refine ⟨p₁, p₂, p₃, w, passed, fetched, freed, saves, ?_, rfl⟩
  have code : ((((p₃.draft.pushAll w.code).pushAll (stackMove (-(stacked.length : Int))).toArray).pushAll
      (pushCode 0 stacked).toArray).pushAll #[]) =
      p₃.draft.pushAll (w.code ++ ((stackMove (-(stacked.length : Int))).toArray ++ (pushCode 0 stacked).toArray)) := by
    simp only [pushAll_pushAll]
    simp [Array.append_assoc]
  have all := appends_pushAll p₃ w.allocator
    (w.code ++ ((stackMove (-(stacked.length : Int))).toArray ++ (pushCode 0 stacked).toArray))
  rw [← code] at all
  simpa [AppendsPlain] using all

end Gen

open Gen

/-- Placing the arguments of a call is a parallel move. Wherever they are, each other's registers included, behind the
code for it the first ones are in the registers that they travel in and the others in the words that the stack pointer
points at, with the values that they had before any of them was moved. -/
theorem arguments_placed {c : Context} {p p' : Progress} {values : List String} {stacked : List Reg} {m : Machine}
    {last : VarId → Option Word} {value : String → Word} (reached : Reached p.allocator)
    (idle : p.allocator.calls = []) (level : 0 ≤ p.allocator.pushed)
    (bearing : Bearing ((m.reg Reg.stackPointer).toInt + p.allocator.pushed) m.memory.size last p.allocator m)
    (means : ∀ name ∈ values, p.allocator.Means last name (value name)) (once : Once p.allocator values)
    (placed : (placeArguments values).exec c p = .ok (stacked, p'))
    (room : Room ((m.reg Reg.stackPointer).toInt + p.allocator.pushed) m.memory.size p'.allocator)
    (below : (p'.allocator.globals : Int) + p'.allocator.pushed ≤ (m.reg Reg.stackPointer).toInt + p.allocator.pushed)
    (within : (m.reg Reg.stackPointer).toInt + p.allocator.pushed ≤ m.memory.size) :
    ∃ code m', AppendsPlain p code p' ∧ m.performs code = .ok m' ∧
      (∀ (i : Nat) name r, values[i]? = some name → Reg.arguments[i]? = some r → m'.reg r = value name) ∧
      ∃ n : Nat, (m'.reg Reg.stackPointer).toInt = n ∧ ∀ (j : Nat) name, values[Reg.argumentCount + j]? = some name →
        m'.cell? (n + j) = some (value name) := by
  have rest : AtRest _ _ last p.allocator m := ⟨reached.inOrder.sound, idle, reached.tidy, bearing⟩
  generalize (m.reg Reg.stackPointer).toInt + p.allocator.pushed = base at rest room below within
  obtain ⟨p₁, p₂, p₃, w, passed, fetched, freed, saves, appends₄, same⟩ := exec_placeArguments placed
  rw [same] at room below
  have grows := (grows_passInRegisters passed).trans ((grows_fetchAll fetched).trans (grows_freeAll freed))
  have spacious : Spacious base m.memory.size w.allocator :=
    ⟨⟨room.globals, room.frame⟩, fun _ => ⟨by dsimp only at below; omega, within⟩⟩
  have room₃ : Room base m.memory.size p₃.allocator := room_before_saving saves spacious.toRoom
  have room₂ := room₃.of_grows (grows_freeAll freed)
  -- the first arguments come to their registers
  have split : (values.zip Reg.arguments).map Prod.fst ++ values.drop Reg.argumentCount = values := by
    rw [map_fst_zip]
    exact List.take_append_drop 4 values
  have argument : ∀ pair ∈ values.zip Reg.arguments, pair.2 ∈ Reg.arguments :=
    fun _ member => (List.of_mem_zip member).2
  rw [← split] at means once
  obtain ⟨code₁, m₁, appends₁, done₁, rest₁, means₁, places, -⟩ := passInRegisters_places passed rest
    (room₂.of_grows (grows_fetchAll fetched)) argument ((zip_snd_begins _ _).sublist.nodup (by decide)) means once
  -- the others are read, and given up with the values still in the registers
  obtain ⟨code₂, m₂, appends₂, done₂, rest₂, keeping, reads⟩ := fetchAll_reads fetched rest₁ room₂ means₁
  obtain ⟨code₃, m₃, appends₃, done₃, rest₃, keeps⟩ := freeAll_keeps freed rest₂ room₃
  -- putting temporaries aside leaves registers alone
  obtain ⟨temps, left, m₀, m₄, saved⟩ := savedBy rest₃.sound rest₃.tidy rest₃.bearing.toBased
    (by rw [grows.pushed]; exact level) saves spacious
  have regs : ∀ {r}, r ≠ Reg.stackPointer → m₄.reg r = m₃.reg r := fun other =>
    (saved.aside.regs other).trans (saved.regs _)
  have size₄ : m₄.memory.size = m.memory.size := saved.aside.size.trans saved.based.memory
  have stack₄ := saved.aside.stack
  have based := saved.based.stack
  have pushed := saved.pushed
  have level' : left.allocator.pushed = p.allocator.pushed := saved.empties.does.onward.pushed.trans grows.pushed
  dsimp only at below
  obtain ⟨m₅, done₅, stack₅, regs₅, words⟩ := performs_pushCode (m := m₄)
    (n := (base - w.allocator.pushed - stacked.length).toNat) stacked (by omega) (by omega)
  refine ⟨_, m₅, appends₁.trans (appends₂.trans (appends₃.trans appends₄)),
    (performs_append done₁).trans ((performs_append done₂).trans ((performs_append done₃).trans
      ((performs_append saved.done).trans done₅))), fun i name r found at_ => ?_, _, stack₅, fun j name found => ?_⟩
  · have member : (name, r) ∈ values.zip Reg.arguments :=
      List.mem_of_getElem? (List.getElem?_zip_eq_some.2 ⟨found, at_⟩)
    have here := argument _ member
    have special : ∀ r ∈ Reg.arguments, r ≠ Reg.status ∧ r ≠ Reg.stackPointer := by decide
    obtain ⟨noStatus, noStack⟩ := special r here
    have holds := keeps noStatus (keeping.secures (not_open_of_argument here) noStatus (places _ member))
    rw [regs₅ noStack, regs noStack, holds.holds]
  · obtain ⟨r, at_, carries, secures⟩ := reads (j := j) (by rw [List.getElem?_drop]; exact found)
    obtain ⟨-, noStack, noStatus, -⟩ := carries.ne
    rw [words at_ noStack, regs noStack, (keeps noStatus secures).holds]

/-- The beginning of a function of two parameters, which came in registers. -/
def crossedProgress : Progress :=
  { Progress.initial with allocator := (after (.addVariable "y" Reg.arguments[1]?) (after (.addVariable "x" Reg.arguments[0]?)
      (after .enterFunction ⟨initial, #[]⟩))).allocator }

/-- The machine as the function begins. -/
def crossedMachine : Machine := ((fresh 10).setReg Reg.stackPointer 8).withWords Reg.arguments [5, 7]

/-- The values of the parameters. -/
def crossedValue (name : String) : Word := if name = "x" then 5 else 7

/-- What is known when the parameters were placed for a call that crosses them. -/
def crossedPlaced : List Reg × Progress :=
  match (placeArguments ["y", "x", "x", "y", "x"]).exec ⟨[], [], #[], false⟩ crossedProgress with
  | .ok placed => placed
  | .error _ => ([], crossedProgress)

theorem arguments_placed_crossed : ∃ stacked p' code m',
    (placeArguments ["y", "x", "x", "y", "x"]).exec ⟨[], [], #[], false⟩ crossedProgress = .ok (stacked, p') ∧
      AppendsPlain crossedProgress code p' ∧ crossedMachine.performs code = .ok m' ∧ m'.reg ⟨4⟩ = 7 ∧ m'.reg ⟨5⟩ = 5 ∧
      ∃ n : Nat, (m'.reg Reg.stackPointer).toInt = n ∧ m'.cell? n = some 5 := by
  have entered : Reached (after .enterFunction ⟨initial, #[]⟩).allocator :=
    .step (w := ⟨initial, #[]⟩) .enterFunction .initial ⟨rfl, rfl, rfl, rfl⟩ rfl
  have first : Reached (after (.addVariable "x" (some ⟨4⟩)) (after .enterFunction ⟨initial, #[]⟩)).allocator :=
    .step (w := after .enterFunction ⟨initial, #[]⟩) (.addVariable "x" (some ⟨4⟩)) entered
      ⟨rfl, fun r given => by cases given; decide⟩ rfl
  have reached : Reached crossedProgress.allocator :=
    .step (w := after (.addVariable "x" (some ⟨4⟩)) (after .enterFunction ⟨initial, #[]⟩))
      (.addVariable "y" (some ⟨5⟩)) first ⟨rfl, fun r given => by cases given; decide⟩ rfl
  have bearing : Bearing ((crossedMachine.reg Reg.stackPointer).toInt + crossedProgress.allocator.pushed)
      crossedMachine.memory.size (fun id => #[(5 : Word), 7][id]?) crossedProgress.allocator crossedMachine :=
    { zero := rfl, stack := rfl, memory := rfl
      fresh := fun beyond => Array.getElem?_eq_none beyond
      bears := fun {id v x} found known => by
        match id with
        | 0 =>
          cases found
          cases known
          exact Variable.bears_of_dirty (m := crossedMachine) (r := ⟨4⟩) rfl rfl rfl
        | 1 =>
          cases found
          cases known
          exact Variable.bears_of_dirty (m := crossedMachine) (r := ⟨5⟩) rfl rfl rfl
        | n + 2 => cases found }
  have means : ∀ name ∈ ["y", "x", "x", "y", "x"], crossedProgress.allocator.Means
      (fun id => #[(5 : Word), 7][id]?) name (crossedValue name) := by
    have x : crossedProgress.allocator.Means (fun id => #[(5 : Word), 7][id]?) "x" 5 := ⟨0, rfl, rfl⟩
    have y : crossedProgress.allocator.Means (fun id => #[(5 : Word), 7][id]?) "y" 7 := ⟨1, rfl, rfl⟩
    intro name member
    simp only [List.mem_cons, List.not_mem_nil, or_false] at member
    obtain rfl | rfl | rfl | rfl | rfl := member
    exacts [y, x, x, y, x]
  have ran : (placeArguments ["y", "x", "x", "y", "x"]).exec ⟨[], [], #[], false⟩ crossedProgress =
      .ok (crossedPlaced.1, crossedPlaced.2) := by cbv
  have once : Once crossedProgress.allocator ["y", "x", "x", "y", "x"] := fun name isTemp => by
    rw [show crossedProgress.allocator.isTemp name = false from rfl] at isTemp
    cases isTemp
  have used : (crossedPlaced.2.allocator.globals, crossedPlaced.2.allocator.frame, crossedPlaced.2.allocator.pushed) =
      (0, some 2, 2) := by cbv
  simp only [Prod.mk.injEq] at used
  obtain ⟨globals, frame, pushed⟩ := used
  have room : Room 8 10 crossedPlaced.2.allocator := by
    refine ⟨by rw [globals]; decide, fun {slots slot} some below => ?_⟩
    cases frame.symm.trans some
    rw [globals]
    clear * - below
    omega
  have below : (crossedPlaced.2.allocator.globals : Int) + crossedPlaced.2.allocator.pushed ≤ 8 := by
    rw [globals, pushed]
    decide
  obtain ⟨code, m', appends, done, places, n, lowered, words⟩ := arguments_placed reached rfl
    (by decide) bearing means once ran room below (by decide)
  exact ⟨_, _, code, m', ran, appends, done, places 0 "y" ⟨4⟩ rfl rfl, places 1 "x" ⟨5⟩ rfl rfl, n, lowered,
    words 0 "x" rfl⟩

end SmallC
