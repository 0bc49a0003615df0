import SmallC.Generation.Condition
import SmallC.Proofs.Allocation.Guarding
import SmallC.Proofs.Allocation.Synchronizing
import SmallC.Proofs.Generation.Elements

/-!
How values are computed from others. Operands are read into registers, those that are temporaries are given up, and a
register is taken for the result, all before the registers of the operands are released. A register of an operand may be
free by then, but it is held, so the result gets another one, and nothing that is emitted on the way changes what the
operands are. A remainder and an exclusive or need that: they write the result before they read an operand for the last
time.
-/
namespace SmallC

open Alloc Allocator Machine

namespace Gen

variable {c : Context} {p p' mid : Progress} {base : Int} {size : Nat} {last : VarId → Option Word} {m m' : Machine}
  {name other temp : String} {names operands freed : List String} {hints : List Expr} {kind : NumberKind} {refs : Nat}
  {r rd : Reg} {rs : List Reg} {code more : List MachineInstr} {f : List Reg → Reg → List MachineInstr}

/-- A value is computed from others into a new temporary: the operands are read into registers, some temporaries are given
up, variables are noted that are not needed again, and a register is taken for the result. -/
def lowered (operands freed : List String) (hints : List Expr) (kind : NumberKind) (refs : Nat)
    (f : List Reg → Reg → List MachineInstr) : Gen String := do
  let rs ← operands.mapM fetch
  freed.forM free
  hints.forM hint
  let (temp, rd) ← newTemp kind refs
  emitAll (f rs rd)
  releaseHolds
  return temp

/-! ### Expressions

The computations of the generator that read operands, give them up and take a register for the result. -/

/-- Code that computes a result from one operand. -/
def fromOne (f : Reg → Reg → List MachineInstr) : List Reg → Reg → List MachineInstr
  | [a], rd => f rd a
  | _, _ => []

/-- Code that computes a result from two operands. -/
def fromTwo (f : Reg → Reg → Reg → List MachineInstr) : List Reg → Reg → List MachineInstr
  | [a, b], rd => f rd a b
  | _, _ => []

theorem lowered_one (f : Reg → Reg → List MachineInstr) : lowered [name] freed hints kind refs (fromOne f) = (do
    let a ← fetch name
    freed.forM free
    hints.forM hint
    let (temp, rd) ← newTemp kind refs
    emitAll (f rd a)
    releaseHolds
    return temp) := by
  simp only [lowered, fromOne, List.mapM_cons, List.mapM_nil, bind_assoc, pure_bind]

theorem lowered_two (f : Reg → Reg → Reg → List MachineInstr) :
    lowered [name, other] freed hints kind refs (fromTwo f) = (do
    let a ← fetch name
    let b ← fetch other
    freed.forM free
    hints.forM hint
    let (temp, rd) ← newTemp kind refs
    emitAll (f rd a b)
    releaseHolds
    return temp) := by
  simp only [lowered, fromTwo, List.mapM_cons, List.mapM_nil, bind_assoc, pure_bind]

theorem shifted_eq (direction : ShiftDirection) (name : String) (amount : Nat) (kind : NumberKind) (refs : Nat) :
    shifted direction name amount kind refs =
      lowered [name] [name] [] kind refs (fromOne fun rd a => [direction.instr rd a amount]) := by
  simp only [shifted, lowered_one, List.forM_eq_forM, List.forM_cons, List.forM_nil, bind_assoc, pure_bind, emit_eq]

theorem addImmediate_eq (name : String) (n : Int) : addImmediate name n = (do
    let refs ← alloc (Alloc.refs name)
    let kind ← alloc (Alloc.kind name)
    lowered [name] [name] [] kind refs (fromOne fun rd a => [.addi rd a n])) := by
  simp only [addImmediate, lowered_one, List.forM_eq_forM, List.forM_cons, List.forM_nil, bind_assoc, pure_bind, emit_eq]

theorem negate_eq (operand : Code) : negate operand = (do
    let v ← operand.value
    let kind ← alloc (Alloc.kind v)
    lowered [v] [v] [] kind 0 (fromOne fun rd a => [.alu .sub rd Reg.zero a])) := by
  simp only [negate, lowered_one, List.forM_eq_forM, List.forM_cons, List.forM_nil, bind_assoc, pure_bind, emit_eq]

theorem loadElement_eq (name : String) (offset : Int) : loadElement (.named name offset) = (do
    let kind ← alloc (Alloc.kind name)
    let refs ← alloc (Alloc.refs name)
    lowered [name] [name] [] kind (refs - 1) (fromOne fun rd a => [.lw rd a offset])) := by
  simp only [loadElement, lowered_one, List.forM_eq_forM, List.forM_cons, List.forM_nil, bind_assoc, pure_bind, emit_eq]

theorem combine_eq (op : ArithmeticOp) (l r : String) : combine op l r = (do
    let kind ← resultKind l r
    let refs := max (← alloc (Alloc.refs l)) (← alloc (Alloc.refs r))
    let (l, r, scaleUp) ← reconcile op l r
    lowered [l, r] [l, r] [] kind refs (fromTwo fun rd a b =>
      op.code rd a b ++ (scaleUp.map fun amount => .shift .sll rd rd amount).toList)) := by
  unfold combine
  refine bind_congr fun kind => bind_congr fun n => bind_congr fun n' => bind_congr fun scaled => ?_
  obtain ⟨l', r', scaleUp⟩ := scaled
  cases scaleUp with
  | none =>
    simp only [lowered_two, List.forM_eq_forM, List.forM_cons, List.forM_nil, bind_assoc, pure_bind, Option.map_none,
      Option.toList_none, List.append_nil]
  | some amount =>
    simp only [lowered_two, List.forM_eq_forM, List.forM_cons, List.forM_nil, bind_assoc, pure_bind, emit_eq,
      emitAll_append, Option.map_some, Option.toList_some]

theorem computedAddress_eq (line : Nat) (name : String) (indices : List (Code × Nat)) :
    computedAddress line name indices = (do
      match ← linearIndex none indices with
      | none => fail line (.noIndex name)
      | some linear => do
        let temp ← lowered [name, linear] [linear] [] .int 1 (fromTwo fun rd a b => [.alu .add rd a b])
        return .named temp 0) := by
  unfold computedAddress
  refine bind_congr fun linear => ?_
  cases linear <;>
  simp only [lowered_two, List.forM_eq_forM, List.forM_cons, List.forM_nil, bind_assoc, pure_bind, emit_eq]

/-- The order of two values is computed, and not branched for. -/
theorem relationValue_ordered {relation : Relation} (left right : Code) (orders : relation ≠ .eq ∧ relation ≠ .ne) :
    relationValue relation left right = (do
      let (a, b) ← relationOperands left right
      let (temp, rd) ← newTemp .int 0
      emitAll ((relation.valueCode? rd a b).getD [])
      releaseHolds
      return temp) := by
  cases relation with
  | eq => exact absurd rfl orders.1
  | ne => exact absurd rfl orders.2
  | lt | gt | le | ge => rfl

theorem relationValue_zero_eq {relation : Relation} {left right : Code} {line : Nat}
    (orders : relation ≠ .eq ∧ relation ≠ .ne) (zero : right.expr = .int line 0) :
    relationValue relation left right = (do
      let l ← left.value
      lowered [l] [l] [left.expr] .int 0 (fromOne fun rd a => (relation.valueCode? rd a Reg.zero).getD [])) := by
  rw [relationValue_ordered left right orders, relationOperands, bind_assoc]
  refine bind_congr fun l => ?_
  rw [zero]
  simp only [lowered_one, List.forM_eq_forM, List.forM_cons, List.forM_nil, bind_assoc, pure_bind]

theorem relationValue_eq {relation : Relation} {left right : Code} (orders : relation ≠ .eq ∧ relation ≠ .ne)
    (nonzero : ∀ line, right.expr ≠ .int line 0) : relationValue relation left right = (do
      let l ← left.value
      let r ← right.value
      let (l, r) ← commonKind l r
      lowered [l, r] [l, r] [left.expr, right.expr] .int 0
        (fromTwo fun rd a b => (relation.valueCode? rd a b).getD [])) := by
  rw [relationValue_ordered left right orders, relationOperands, bind_assoc]
  refine bind_congr fun l => ?_
  generalize right.expr = e at nonzero ⊢
  split
  · next line => exact absurd rfl (nonzero line)
  · simp only [lowered_two, List.forM_eq_forM, List.forM_cons, List.forM_nil, bind_assoc, pure_bind]

/-! ### Stages -/

/-- A part of a lowering. What is appended executes from any machine that bears the values of variables, and registers
that were held before are held, and hold what they held. -/
structure Stage (p : Progress) (code : List MachineInstr) (p' : Progress) : Prop where
  appends : AppendsPlain p code p'
  grows : Grows p.allocator p'.allocator
  sound : Sound [] p'.allocator
  held : ∀ r ∈ p.allocator.held, r ∈ p'.allocator.held
  tidy : Tidy p.allocator → Tidy p'.allocator
  performs : ∀ {base size last m}, AtRest base size last p.allocator m → Room base size p'.allocator →
    ∃ m', m.performs code = .ok m' ∧ AtRest base size last p'.allocator m' ∧ Keeping last p.allocator p'.allocator m m'

namespace Stage

theorem refl (sound : Sound [] p.allocator) : Stage p [] p :=
  ⟨.nil p, .refl _, sound, fun _ member => member, id, fun rest _ => ⟨_, rfl, rest, .refl _ _ _⟩⟩

theorem trans (first : Stage p code mid) (second : Stage mid more p') : Stage p (code ++ more) p' where
  appends := first.appends.trans second.appends
  grows := first.grows.trans second.grows
  sound := second.sound
  held r member := second.held r (first.held r member)
  tidy := second.tidy ∘ first.tidy
  performs rest room := by
    obtain ⟨m₁, done, rest₁, keeping⟩ := first.performs rest (room.of_grows second.grows)
    obtain ⟨m₂, done', rest₂, keeping'⟩ := second.performs rest₁ room
    exact ⟨m₂, (performs_append done).trans done', rest₂, keeping.trans keeping'⟩

/-- Work of the allocator that comes to deeds is such a part. -/
theorem of_does {w : Work} (sound : Sound [] w.allocator)
    (does : Does (fun _ => False) p.allocator.Open ⟨p.allocator, #[]⟩ w)
    (held : ∀ r ∈ p.allocator.held, r ∈ w.allocator.held) :
    Stage p w.code.toList { p with allocator := w.allocator, draft := p.draft.pushAll w.code } := by
  obtain ⟨code, emitted, deeds⟩ := does
  cases (List.nil_append code).symm.trans emitted.symm
  have tidy : Tidy p.allocator → Tidy w.allocator := fun tidy => deeds.tidy tidy fun _ => Open.carries
  refine ⟨appends_pushAll _ _ _, deeds.onward.toGrows, sound, held, tidy, fun rest room => ?_⟩
  obtain ⟨⟨m', done, bearing, secures⟩, -⟩ :=
    deeds.performs rest.tidy room (fun _ => Open.carries) False.elim rest.bearing
  exact ⟨m', done, ⟨sound, deeds.onward.calls.trans rest.idle, tidy rest.tidy, bearing⟩,
    .of_held fun member => held _ member, deeds.vacant rest.tidy fun _ => Open.carries, secures⟩

end Stage

/-- The variable that a name stands for is in a register. -/
def LiesIn (name : String) (r : Reg) (a : Allocator) : Prop :=
  ∃ id v, a.find? name = some id ∧ a.var? id = some v ∧ v.storage = .register r

/-- What lies in a register lies in one that variables may be in. -/
theorem LiesIn.carries {a : Allocator} (lies : LiesIn name r a) (tidy : Tidy a) : r.Carries := by
  obtain ⟨id, v, -, found, there⟩ := lies
  exact tidy.carried found there

/-- An operand is read into a register, which is held and has its value. -/
theorem fetch_stage (sound : Sound [] p.allocator) (ran : (fetch name).exec c p = .ok (r, p')) :
    ∃ code, Stage p code p' ∧ r ∈ p'.allocator.held ∧ LiesIn name r p'.allocator ∧
      (∀ other, p'.allocator.find? other = p.allocator.find? other) ∧
      ∀ {base size last m m' x}, AtRest base size last p.allocator m → Room base size p'.allocator →
        p.allocator.Means last name x → m.performs code = .ok m' → Occupied last p'.allocator m' r x := by
  obtain ⟨w, reads, rfl⟩ := exec_fetch ran
  obtain ⟨keeps, held, lies⟩ := getRegister_reads (w := ⟨p.allocator, #[]⟩) sound reads
  refine ⟨w.code.toList, .of_does (getRegister_sound (w := ⟨p.allocator, #[]⟩) sound reads)
    (does_getRegister (w := ⟨p.allocator, #[]⟩) sound (fun _ opens => opens) reads) fun _ member => keeps.held member,
    held, lies, keeps.find?, fun rest room means done => ?_⟩
  obtain ⟨code, m₁, emitted, done', -, -, secures, shut, carries, -⟩ :=
    AtRest.read (w := ⟨p.allocator, #[]⟩) rest room means reads
  cases (List.nil_append code).symm.trans emitted.symm
  cases done.symm.trans done'
  exact ⟨secures, shut, carries⟩

/-- Operands are read one after the other; the registers of those before are held meanwhile. -/
theorem fetches_stage (sound : Sound [] p.allocator) (ran : (names.mapM fetch).exec c p = .ok (rs, p')) :
    ∃ code, Stage p code p' ∧ rs.length = names.length ∧ (∀ r ∈ rs, r ∈ p'.allocator.held) ∧
      (Tidy p.allocator → ∀ r ∈ rs, r.Carries) ∧
      ∀ {base size last m m' xs}, AtRest base size last p.allocator m → Room base size p'.allocator →
        List.Forall₂ (p.allocator.Means last) names xs → m.performs code = .ok m' →
          List.Forall₂ (Occupied last p'.allocator m') rs xs := by
  induction names generalizing p rs with
  | nil =>
    cases ran
    refine ⟨[], .refl sound, rfl, nofun, fun _ => nofun, fun _ _ means _ => ?_⟩
    cases means
    exact .nil
  | cons name names ih =>
    rw [List.mapM_cons] at ran
    obtain ⟨r, p₁, fetched, ran⟩ := exec_bind_ok ran
    obtain ⟨rs', p₂, others, ran⟩ := exec_bind_ok ran
    cases ran
    obtain ⟨code, first, held, lies, names', reads⟩ := fetch_stage sound fetched
    obtain ⟨more, rest, length, helds, carries, readAll⟩ := ih first.sound others
    refine ⟨code ++ more, first.trans rest, congrArg (· + 1) length,
      List.forall_mem_cons.2 ⟨rest.held r held, helds⟩, fun tidy => List.forall_mem_cons.2
        ⟨lies.carries (first.tidy tidy), carries (first.tidy tidy)⟩, fun atRest room means done => ?_⟩
    cases means with
    | cons meant meansAll =>
      have room₁ := room.of_grows rest.grows
      obtain ⟨m₁, done₁, atRest₁, -⟩ := first.performs atRest room₁
      obtain ⟨m₂, done₂, -, keeping⟩ := rest.performs atRest₁ room
      cases done.symm.trans ((performs_append done₁).trans done₂)
      refine .cons ((reads atRest room₁ meant done₁).keeping keeping) (readAll atRest₁ room (meansAll.imp ?_) done₂)
      rintro other x ⟨id, found, valued⟩
      exact ⟨id, (names' other).trans found, valued⟩

theorem free_stage {u : Unit} (sound : Sound [] p.allocator) (ran : (free name).exec c p = .ok (u, p')) :
    ∃ code, Stage p code p' := by
  obtain ⟨w, frees, rfl⟩ := exec_free ran
  obtain ⟨-, held⟩ := removeIfTemp_recalls (K := fun _ => False) (w := ⟨p.allocator, #[]⟩) sound (fun _ _ => id) frees
  exact ⟨_, .of_does (removeIfTemp_sound (w := ⟨p.allocator, #[]⟩) sound frees).1 (does_removeIfTemp frees)
    fun r member => held.symm ▸ member⟩

theorem demote_held {w w' : Work} {u : Unit} (ran : Ran (demote name) w u w') : w'.allocator.held = w.allocator.held := by
  simp only [demote, ran_bind, ran_look, and_assoc, exists_and_left, exists_eq_left] at ran
  split at ran
  · rw [ran_change.1 ran]
    rfl
  · rw [(ran_pure.1 ran).2]

theorem hint_stage {e : Expr} {u : Unit} (sound : Sound [] p.allocator) (ran : (hint e).exec c p = .ok (u, p')) :
    ∃ code, Stage p code p' := by
  have silent : ∀ {p' : Progress}, (pure () : Gen Unit).exec c p = .ok (u, p') → ∃ code, Stage p code p' := fun ran => by
    cases ran
    exact ⟨[], .refl sound⟩
  cases e with
  | var line name occurrence =>
    obtain ⟨read, p₁, got, ran⟩ := exec_bind_ok ran
    cases got
    split at ran
    · obtain ⟨w, demoted, rfl⟩ := exec_alloc ran
      exact ⟨_, .of_does (demote_sound (w := ⟨p.allocator, #[]⟩) sound demoted).1 (does_demote demoted)
        fun r member => demote_held demoted ▸ member⟩
    · exact silent ran
  | int | fixed | binary | assign | unary | call | index => exact silent ran

theorem forM_stage {α : Type} {g : α → Gen PUnit} {xs : List α} {u : PUnit} (sound : Sound [] p.allocator)
    (each : ∀ x p u p', Sound [] p.allocator → (g x).exec c p = .ok (u, p') → ∃ code, Stage p code p')
    (ran : (xs.forM g).exec c p = .ok (u, p')) : ∃ code, Stage p code p' := by
  induction xs generalizing p with
  | nil =>
    cases ran
    exact ⟨[], .refl sound⟩
  | cons x xs ih =>
    rw [List.forM_eq_forM, List.forM_cons] at ran
    obtain ⟨_, p₁, first, ran⟩ := exec_bind_ok ran
    obtain ⟨code, stage⟩ := each x _ _ _ sound first
    obtain ⟨more, stages⟩ := ih stage.sound ran
    exact ⟨code ++ more, stage.trans stages⟩

/-- The register for a result is none that is held. -/
theorem newTemp_stage (sound : Sound [] p.allocator) (ran : (newTemp kind refs).exec c p = .ok ((temp, rd), p')) :
    (∃ code, Stage p code p') ∧ rd ∉ p.allocator.held ∧ LiesIn temp rd p'.allocator := by
  obtain ⟨mid, took, rfl, sound', rfl⟩ := exec_newTemp sound ran
  have taken := takes (w := ⟨p.allocator, #[]⟩) sound took
  refine ⟨⟨_, .of_does (w := ⟨withNewTemp kind refs rd mid.allocator, mid.code⟩) sound' (newTemp_does sound took)
    fun r member => held_hold rd _ (held_hold rd _ (taken.keeps.held member))⟩, taken.loose, mid.allocator.vars.size, _, ?_,
    (var?_withNewTemp kind refs rd mid.allocator _).trans (if_pos rfl), rfl⟩
  rw [Allocator.find?, (Level.lookup_eq_some sound'.names.tempOnce).2 (List.mem_append_right _ (List.mem_singleton_self _))]
  rfl

/-! ### Lowerings -/

/-- How a lowering goes: what is appended is code that brings the operands to registers and makes room for the result,
and behind it the code that computes the result from there, in a register that is none of the operands'. Behind the first
part the operands are what they were, whatever they are. -/
theorem lowered_parts (sound : Sound [] p.allocator)
    (ran : (lowered operands freed hints kind refs f).exec c p = .ok (temp, p')) :
    ∃ rs rd before, rs.length = operands.length ∧ rd ∉ rs ∧ LiesIn temp rd p'.allocator ∧ Sound [] p'.allocator ∧
      (Tidy p.allocator → Tidy p'.allocator ∧ ∀ r ∈ rd :: rs, r.Carries) ∧ AppendsPlain p (before ++ f rs rd) p' ∧
      ∀ {base size last m xs}, AtRest base size last p.allocator m → Room base size p'.allocator →
        List.Forall₂ (p.allocator.Means last) operands xs →
          ∃ m', m.performs before = .ok m' ∧ List.Forall₂ (fun r x => m'.reg r = x) rs xs := by
  obtain ⟨rs, p₁, fetched, ran⟩ := exec_bind_ok ran
  obtain ⟨⟨⟩, p₂, freed, ran⟩ := exec_bind_ok ran
  obtain ⟨⟨⟩, p₃, hinted, ran⟩ := exec_bind_ok ran
  have grows := enlarges_compute kind refs (f rs) _ _ _ ran
  obtain ⟨⟨temp', rd⟩, p₄, made, ran⟩ := exec_bind_ok ran
  obtain ⟨⟨⟩, p₅, emitted, ran⟩ := exec_bind_ok ran
  obtain ⟨⟨⟩, p₆, released, ran⟩ := exec_bind_ok ran
  cases ran
  obtain ⟨code₁, reads, length, held, carries, values⟩ := fetches_stage sound fetched
  obtain ⟨code₂, frees⟩ := forM_stage reads.sound (fun _ _ _ _ sound ran => free_stage sound ran) freed
  obtain ⟨code₃, notes⟩ := forM_stage frees.sound (fun _ _ _ _ sound ran => hint_stage sound ran) hinted
  obtain ⟨⟨code₄, takes⟩, loose, lies⟩ := newTemp_stage notes.sound made
  have behind := frees.trans (notes.trans takes)
  cases exec_emitAll emitted
  have out := exec_releaseHolds released
  refine ⟨rs, rd, code₁ ++ (code₂ ++ (code₃ ++ code₄)), length, fun member => ?_, ?_, ?_, fun tidy => ?_, ?_, ?_⟩
  · exact loose ((frees.trans notes).held rd (held rd member))
  · rw [out]
    exact lies
  · rw [out]
    exact behind.sound.congr (fun _ => Iff.rfl) rfl
  · have tidied := behind.tidy (reads.tidy tidy)
    refine ⟨?_, List.forall_mem_cons.2 ⟨lies.carries tidied, carries tidy⟩⟩
    rw [out]
    exact ⟨tidied.granted, tidied.apart, tidied.memory, tidied.alone, tidied.carried⟩
  · have appends := (reads.trans behind).appends.trans (appends_pushAll p₄ p₄.allocator (f rs rd).toArray)
    have all := appends.trans (releaseHolds_appends released)
    rwa [List.append_nil] at all
  · intro base size last m xs rest room means
    have room₄ : Room base size p₄.allocator := by
      refine room.of_grows ?_
      rw [out]
      exact .of_same rfl rfl (Nat.le_refl _) rfl
    have room₁ := room₄.of_grows behind.grows
    obtain ⟨m₁, done₁, rest₁, -⟩ := reads.performs rest room₁
    obtain ⟨m₂, done₂, -, keeping⟩ := behind.performs rest₁ room₄
    exact ⟨m₂, (performs_append done₁).trans done₂, (values rest room₁ means done₁).imp fun r x occupied =>
      (occupied.keeping keeping).secures.holds⟩

theorem lowered_stages (sound : Sound [] p.allocator)
    (ran : (lowered operands freed hints kind refs f).exec c p = .ok (temp, p')) :
    ∃ rs rd before, rs.length = operands.length ∧ rd ∉ rs ∧ LiesIn temp rd p'.allocator ∧
      AppendsPlain p (before ++ f rs rd) p' ∧
      ∀ {base size last m xs}, AtRest base size last p.allocator m → Room base size p'.allocator →
        List.Forall₂ (p.allocator.Means last) operands xs →
          ∃ m', m.performs before = .ok m' ∧ List.Forall₂ (fun r x => m'.reg r = x) rs xs := by
  obtain ⟨rs, rd, before, length, apart, lies, -, -, appends, values⟩ := lowered_parts sound ran
  exact ⟨rs, rd, before, length, apart, lies, appends, values⟩

/-- Registers that are held are safe. Whatever is done between the reading of operands and the release of their registers,
in whatever state, writes no register that was held, except for loading a variable that a pointer may have changed to where
it is, and gives none to a variable. Hence wherever a value is computed from others, the result gets a register that is
none of the operands', and the operands are what they were when the code that computes it begins; `shifted_eq`,
`addImmediate_eq`, `negate_eq`, `combine_eq`, `relationValue_zero_eq`, `relationValue_eq`, `computedAddress_eq` and
`loadElement_eq` say what the generator computes so. -/
theorem held_registers_safe (reached : Reached p.allocator) :
    (∀ (op : Operation) (code : Array MachineInstr), op.KeepsHolds →
      Guards p.allocator.held p.allocator.Reloads ⟨p.allocator, code⟩ (after op ⟨p.allocator, code⟩)) ∧
    ∀ {operands freed hints kind refs f temp p'}, p.allocator.calls = [] →
      (lowered operands freed hints kind refs f).exec c p = .ok (temp, p') →
      ∃ rs rd before, rs.length = operands.length ∧ rd ∉ rs ∧ LiesIn temp rd p'.allocator ∧
        AppendsPlain p (before ++ f rs rd) p' ∧
        ∀ {m last xs}, Bearing ((m.reg Reg.stackPointer).toInt + p.allocator.pushed) m.memory.size last p.allocator m →
          Room ((m.reg Reg.stackPointer).toInt + p.allocator.pushed) m.memory.size p'.allocator →
          List.Forall₂ (p.allocator.Means last) operands xs →
            ∃ m', m.performs before = .ok m' ∧ List.Forall₂ (fun r x => m'.reg r = x) rs xs := by
  have sound := reached.inOrder.sound
  refine ⟨fun op code keeps => guards_operation op keeps ⟨p.allocator, code⟩, fun idle ran => ?_⟩
  obtain ⟨rs, rd, before, length, apart, lies, appends, values⟩ := lowered_stages sound ran
  exact ⟨rs, rd, before, length, apart, lies, appends, fun bearing room means =>
    values ⟨sound, idle, reached.tidy, bearing⟩ room means⟩

/-- Three registers of the pool are in circulation: two temporaries and a variable that is newer than its home are in
them, and the register of the first temporary is held. -/
def crowdedOperands : List Operation := (Reg.pool.drop 3).map .reserve ++
  [.addTemp, .addTemp, .releaseHolds, .addVariable "x" none, .releaseHolds, .getRegister (tempName 0) false]

def crowdedProgress : Progress :=
  { Progress.initial with allocator := (afterAll crowdedOperands ⟨initial, #[]⟩).allocator }

theorem crowdedProgress_reached : Reached crowdedProgress.allocator := by
  refine Reached.afterAll (fun op member => ?_) (by decide +kernel)
  simp only [crowdedOperands, List.mem_append, List.mem_map, List.mem_cons, List.not_mem_nil, or_false] at member
  rcases member with ⟨r, -, rfl⟩ | rfl | rfl | rfl | rfl | rfl | rfl
  all_goals first
    | exact ⟨trivial, fun _ idle => idle⟩
    | exact ⟨trivial, fun _ idle => ⟨idle, fun _ given => by cases given⟩⟩

/-- The machine there: the temporaries are 17 and 5. -/
def crowdedMachine : Machine := (fresh 4).withWords Reg.pool [17, 5, 9]

def crowdedLast (id : VarId) : Option Word := #[(17 : Word), 5, 9][id]?

/-- The remainder of the temporaries. The registers that they are in are free when one is taken for the result, which
drives out the variable all the same. -/
def crowdedRemainder : Gen String :=
  lowered [tempName 0, tempName 1] [tempName 0, tempName 1] [] .int 0 (fromTwo ArithmeticOp.mod.code)

theorem held_registers_safe_crowded :
    Guards [⟨8⟩] crowdedProgress.allocator.Reloads ⟨crowdedProgress.allocator, #[]⟩
      (after .addTemp ⟨crowdedProgress.allocator, #[]⟩) ∧
    ∃ temp p' rs rd before m', crowdedRemainder.exec ⟨[], [], #[], false⟩ crowdedProgress = .ok (temp, p') ∧
      rd ∉ rs ∧ LiesIn temp rd p'.allocator ∧
      AppendsPlain crowdedProgress (before ++ fromTwo ArithmeticOp.mod.code rs rd) p' ∧
      crowdedMachine.performs before = .ok m' ∧ List.Forall₂ (fun r x => m'.reg r = x) rs [17, 5] := by
  have size : crowdedProgress.allocator.vars.size = 3 := by decide +kernel
  have bearing : Bearing ((crowdedMachine.reg Reg.stackPointer).toInt + crowdedProgress.allocator.pushed)
      crowdedMachine.memory.size crowdedLast crowdedProgress.allocator crowdedMachine := by
    refine { zero := rfl, stack := rfl, memory := rfl, fresh := fun {id} beyond => ?_, bears := fun {id v x} found known => ?_ }
    · rw [size] at beyond
      exact Array.getElem?_eq_none beyond
    · match id with
      | 0 =>
        cases (show crowdedProgress.allocator.var? 0 = some (Variable.plain (tempName 0) true 0 none (.register ⟨8⟩)) by
          decide +kernel).symm.trans found
        cases known
        exact Variable.bears_of_temp (m := crowdedMachine) (r := ⟨8⟩) rfl rfl rfl rfl
      | 1 =>
        cases (show crowdedProgress.allocator.var? 1 = some (Variable.plain (tempName 1) true 0 none (.register ⟨9⟩)) by
          decide +kernel).symm.trans found
        cases known
        exact Variable.bears_of_temp (m := crowdedMachine) (r := ⟨9⟩) rfl rfl rfl rfl
      | 2 =>
        cases (show crowdedProgress.allocator.var? 2 = some { Variable.plain "x" false 0 (some (.global 0))
          (.register ⟨10⟩) with isDirty := true } by decide +kernel).symm.trans found
        cases known
        exact Variable.bears_of_dirty (m := crowdedMachine) (r := ⟨10⟩) rfl rfl rfl
      | n + 3 =>
        exact absurd (var?_lt found) (size ▸ Nat.not_lt.2 (Nat.le_add_left 3 n))
  have safe := held_registers_safe (c := ⟨[], [], #[], false⟩) crowdedProgress_reached
  have held : crowdedProgress.allocator.held = [⟨8⟩] := by decide +kernel
  obtain ⟨temp, p', ran, used⟩ := exec_of_any crowdedRemainder ⟨[], [], #[], false⟩ crowdedProgress
    (fun p' => p'.allocator.globals == 1 && p'.allocator.frame.isNone) (by decide +kernel)
  simp only [Bool.and_eq_true, beq_iff_eq, Option.isNone_iff_eq_none] at used
  obtain ⟨globals, frame⟩ := used
  obtain ⟨rs, rd, before, -, apart, lies, appends, values⟩ := safe.2 (by decide +kernel) ran
  have means : List.Forall₂ (crowdedProgress.allocator.Means crowdedLast) [tempName 0, tempName 1] [17, 5] :=
    .cons ⟨0, by decide +kernel, rfl⟩ (.cons ⟨1, by decide +kernel, rfl⟩ .nil)
  obtain ⟨m', done, intact⟩ := values bearing
    ⟨by rw [globals]; decide, fun {slots slot} some _ => by cases frame.symm.trans some⟩ means
  exact ⟨held ▸ safe.1 .addTemp #[] trivial, temp, p', rs, rd, before, m', ran, apart, lies, appends, done, intact⟩

end Gen

end SmallC
