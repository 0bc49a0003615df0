import SmallC.Proofs.Generation.Balancing
import SmallC.Proofs.Generation.Sources

/-!
Statements, functions and whole sources along the points of control. The body of a function stands at one
point, below the frame that is made at its entry, and a function is entered and left with the stack pointer
where it was. So is every function of a source, and all other code stands at the top level.
-/
namespace SmallC

namespace Gen

open Allocator

variable {c : Context} {calls : CallCode} {exits : Exits} {code : Code} {known : List String}

/-! ### Statements -/

/-- Leaves control where it was, if the labels that it can leave for are known. -/
def BalancedIn (c : Context) (exits : Exits) (act : Gen Unit) : Prop :=
  ∀ known, (∀ l ∈ exits.labels, l ∈ known) → Balanced c known act

theorem endStatement_balanced (line : Nat) : Balanced c known (endStatement exits line) := by
  have checked {f : Except AllocatorFault Unit → Gen Unit} (decides : ∀ found, Balanced c known (f found)) :
      Balanced c known (do if (← read).verifies then look Allocator.checkConsistency >>= f) :=
    .read (.ite (fun _ => (Lays.look _).bind fun found _ => decides found) fun _ => .pure trivial)
  refine releaseHolds_balanced.bind fun _ _ => .ite (fun _ => (Lays.look _).bind fun _ _ => .ite (fun _ => ?_)
    fun _ => ?_) fun _ => ?_
  · refine .read (.ite (fun _ => (Lays.throw (Q := fun _ => False) _).bind fun _ absurd => absurd.elim) fun _ => ?_)
    refine (Lays.alloc Alloc.tends_discardTemps).bind fun _ _ => checked fun found => ?_
    cases found with
    | ok _ => exact .pure trivial
    | error fault => exact .throw _
  all_goals
    refine checked fun found => ?_
    cases found with
    | ok _ => exact .pure trivial
    | error fault => exact .throw _

theorem evaluate_balanced (balanced : code.Balanced c) : Balanced c known (evaluate code) := by
  have last : Balanced c known (do hint code.expr; releaseHolds) :=
    (hint_balanced _).bind fun _ _ => releaseHolds_balanced
  refine (balanced.result known).bind fun v _ => ?_
  cases v with
  | some v => exact (free_balanced v).bind fun _ _ => last
  | none => exact last

theorem block_balanced {body : Gen Unit} (balanced : Balanced c known body) : Balanced c known (block body) :=
  (Lays.alloc Alloc.tends_pushLevel).bind fun _ _ => balanced.bind fun _ _ => .alloc Alloc.tends_popLevel

theorem addVariable_lays (name : String) : Lays c known (alloc (Alloc.addVariable name none)) Reg.Common :=
  .alloc (Alloc.tends_addVariable fun _ none => by cases none)

theorem defineAs_balanced (name : String) (ty : TypeSpec) (balanced : code.Balanced c) :
    Balanced c known (defineAs name ty code) := by
  have last : ∀ v, Balanced c known (do
      if ← look fun a => a.isTemp v then alloc (Alloc.renameTemp v name)
      else
        let rs ← fetch v
        let rd ← alloc (Alloc.addVariable name none)
        emit (MachineInstr.move rd rs)
      hint code.expr) := fun v => (Lays.look _).bind fun _ _ => .ite
    (fun _ => (Lays.alloc Alloc.tends_renameTemp).bind fun _ _ => hint_balanced _)
    fun _ => (fetch_balanced v).bind fun _ _ => (addVariable_lays name).bind fun _ common =>
      (move_balanced common).bind fun _ _ => hint_balanced _
  exact (value_balanced balanced).bind fun v _ => .ite (fun _ => last v) fun _ =>
    (convert_balanced v _).bind fun v _ => last v

theorem initialise_balanced (name : String) (ty : TypeSpec) (balanced : code.Balanced c) :
    Balanced c known (initialise name ty code) := by
  unfold initialise
  split
  · exact (addVariable_lays name).bind fun _ common => loadLiteral_balanced common _
  · exact defineAs_balanced name ty balanced

theorem noteType_balanced (name : String) (ty : TypeSpec) (hasValue : Bool) :
    Balanced c known (noteType name ty hasValue) :=
  (setKind_balanced name _).bind fun _ _ => (setRefs_balanced name _).bind fun _ _ => .read (.ite
    (fun _ => (Lays.alloc Alloc.tends_setMustReload).bind fun _ _ => .ite (fun _ => markWritten_balanced name)
      fun _ => .pure trivial) fun _ => .pure trivial)

theorem define_balanced (name : String) (ty : TypeSpec) {value : Option Code}
    (balanced : ∀ code, value = some code → code.Balanced c) : Balanced c known (define name ty value) := by
  have last : Balanced c known (do noteType name ty value.isSome; releaseHolds) :=
    (noteType_balanced name ty _).bind fun _ _ => releaseHolds_balanced
  cases value with
  | none => exact (Lays.alloc Alloc.tends_declareVariable).bind fun _ _ => last
  | some code => exact (initialise_balanced name ty (balanced code rfl)).bind fun _ _ => last

theorem testAll_balanced {tests : List (Code × String)}
    (balanced : ∀ test ∈ tests, test.1.Balanced c ∧ test.2 ∈ known) : Balanced c known (testAll tests) := by
  induction tests with
  | nil => exact .pure trivial
  | cons test rest ih =>
    obtain ⟨first, inside⟩ := balanced _ List.mem_cons_self
    exact (first.branch known test.2 inside).bind fun _ _ => ih fun test member =>
      balanced test (List.mem_cons_of_mem _ member)

theorem branchBodies_balanced {done : String} {bodies : List (Gen Unit × String)} (end' : done ∈ known)
    (balanced : ∀ body ∈ bodies, Balanced c known body.1 ∧ body.2 ∈ known) :
    Balanced c known (branchBodies done bodies) := by
  induction bodies with
  | nil => exact .pure trivial
  | cons body rest ih =>
    obtain ⟨first, inside⟩ := balanced _ List.mem_cons_self
    have later := ih fun body member => balanced body (List.mem_cons_of_mem _ member)
    cases rest with
    | nil => exact (Lays.placeLabel inside).bind fun _ _ => block_balanced first
    | cons second others =>
      exact (Lays.placeLabel inside).bind fun _ _ => (block_balanced first).bind fun _ _ =>
        (Lays.jump end').bind fun _ _ => later

theorem conditional_balanced {branches : List (Code × Gen Unit)} {otherwise : Option (Gen Unit)}
    (balanced : ∀ branch ∈ branches, branch.1.Balanced c ∧ BalancedIn c exits branch.2)
    (otherwise' : ∀ body, otherwise = some body → BalancedIn c exits body) :
    BalancedIn c exits (conditional branches otherwise) := by
  intro known around
  refine .freshLabel fun done => .freshLabels fun labels => ?_
  have around' : ∀ l ∈ exits.labels, l ∈ labels ++ done :: known := fun l member => by
    simp [around l member]
  have end' : done ∈ labels ++ done :: known := by simp
  have last : Balanced c (labels ++ done :: known) (do
      jump done
      branchBodies done ((branches.map Prod.snd).zip labels).reverse
      placeLabel done) := by
    refine (Lays.jump end').bind fun _ _ => (branchBodies_balanced end' fun body member => ?_).bind
      fun _ _ => .placeLabel end'
    obtain ⟨first, second⟩ := List.of_mem_zip (List.mem_reverse.1 member)
    obtain ⟨branch, inside, own⟩ := List.mem_map.1 first
    rw [← own]
    exact ⟨(balanced branch inside).2 _ around', List.mem_append_left _ second⟩
  refine (testAll_balanced fun test member => ?_).bind fun _ _ => ?_
  · obtain ⟨first, second⟩ := List.of_mem_zip member
    obtain ⟨branch, inside, own⟩ := List.mem_map.1 first
    rw [← own]
    exact ⟨(balanced branch inside).1, List.mem_append_left _ second⟩
  · cases otherwise with
    | some body => exact (block_balanced (otherwise' body rfl _ around')).bind fun _ _ => last
    | none => exact last

/-- In a loop, control can also leave for its end and its next round. -/
theorem labels_inLoop {brk cont : String} (around : ∀ l ∈ exits.labels, l ∈ known) (brk' : brk ∈ known)
    (cont' : cont ∈ known) : ∀ l ∈ (exits.inLoop brk cont).labels, l ∈ known := by
  intro l member
  simp only [Exits.labels, Exits.inLoop, Option.toList_some, List.mem_append, List.mem_singleton] at member
  rcases member with (member | rfl) | rfl
  · exact around l (by simp only [Exits.labels, List.mem_append]; exact .inl (.inl member))
  · exact brk'
  · exact cont'

theorem whileLoop_balanced {body : Exits → Gen Unit} (balanced : code.Balanced c)
    (within : ∀ brk cont, BalancedIn c (exits.inLoop brk cont) (body (exits.inLoop brk cont))) :
    BalancedIn c exits (whileLoop exits code body) := by
  intro known around
  refine .freshLabel fun again => .freshLabel fun test => .freshLabel fun done => ?_
  have around' : ∀ l ∈ exits.labels, l ∈ done :: test :: again :: known := fun l member => by
    simp [around l member]
  have again' : again ∈ done :: test :: again :: known := by simp
  have test' : test ∈ done :: test :: again :: known := by simp
  have done' : done ∈ done :: test :: again :: known := by simp
  exact (Lays.jump test').bind fun _ _ => (Lays.placeLabel again').bind fun _ _ =>
    (block_balanced (within done test _ (labels_inLoop around' done' test'))).bind fun _ _ =>
      (Lays.placeLabel test').bind fun _ _ => (balanced.branch _ again again').bind fun _ _ => .placeLabel done'

theorem forLoop_balanced {init : Gen Unit} {cond step : Option Code} {body : Exits → Gen Unit}
    (first : BalancedIn c exits init) (tested : ∀ code, cond = some code → code.Balanced c)
    (stepped : ∀ code, step = some code → code.Balanced c)
    (within : ∀ brk cont, BalancedIn c (exits.inLoop brk cont) (body (exits.inLoop brk cont))) :
    BalancedIn c exits (forLoop exits init cond step body) := by
  intro known around
  refine .freshLabel fun again => .freshLabel fun next => .freshLabel fun test => .freshLabel fun done => ?_
  have around' : ∀ l ∈ exits.labels, l ∈ done :: test :: next :: again :: known := fun l member => by
    simp [around l member]
  have again' : again ∈ done :: test :: next :: again :: known := by simp
  have next' : next ∈ done :: test :: next :: again :: known := by simp
  have test' : test ∈ done :: test :: next :: again :: known := by simp
  have done' : done ∈ done :: test :: next :: again :: known := by simp
  have opened : ∀ {rest : Gen Unit}, Balanced c (done :: test :: next :: again :: known) rest →
      Balanced c (done :: test :: next :: again :: known) (do
        init
        jump test
        placeLabel again
        block (body (exits.inLoop done next))
        placeLabel next
        rest) := fun rest =>
    (first _ around').bind fun _ _ => (Lays.jump test').bind fun _ _ => (Lays.placeLabel again').bind fun _ _ =>
      (block_balanced (within done next _ (labels_inLoop around' done' next'))).bind fun _ _ =>
        (Lays.placeLabel next').bind fun _ _ => rest
  have closed : ∀ {decision : Gen Unit}, Balanced c (done :: test :: next :: again :: known) decision →
      Balanced c (done :: test :: next :: again :: known) (do
        placeLabel test
        decision
        placeLabel done) := fun decision =>
    (Lays.placeLabel test').bind fun _ _ => decision.bind fun _ _ => .placeLabel done'
  refine block_balanced ?_
  cases step with
  | some step =>
    have stepped : Balanced c (done :: test :: next :: again :: known) (evaluate step) :=
      evaluate_balanced (stepped step rfl)
    cases cond with
    | some cond => exact opened (stepped.bind fun _ _ => closed ((tested cond rfl).branch _ again again'))
    | none => exact opened (stepped.bind fun _ _ => closed (.jump again'))
  | none =>
    cases cond with
    | some cond => exact opened (closed ((tested cond rfl).branch _ again again'))
    | none => exact opened (closed (.jump again'))

theorem leave_balanced (line : Nat) {value : Option Code} (balanced : ∀ code, value = some code → code.Balanced c) :
    BalancedIn c exits (leave exits line value) := by
  intro known around
  unfold leave
  cases target : exits.ret with
  | none => exact .fail _ _
  | some target' =>
    have end' : target'.label ∈ known := around _ (by simp [Exits.labels, target])
    refine .ite (fun _ => ?_) fun _ => ?_
    · cases value with
      | some code =>
        exact (assignCode_balanced _ (balanced code rfl)).bind fun _ _ => (hint_balanced _).bind fun _ _ =>
          (modify_balanced (f := fun p => { p with returned := true }) (fun _ => rfl) fun _ => rfl).bind
            fun _ _ => .jump end'
      | none => exact .jump end'
    · cases value with
      | some code =>
        exact (value_balanced (balanced code rfl)).bind fun _ _ => (convert_balanced _ _).bind fun v _ =>
          (fetch_balanced v).bind fun _ _ => (move_balanced (by decide)).bind fun _ _ =>
            (free_balanced v).bind fun _ _ => releaseHolds_balanced.bind fun _ _ => .jump end'
      | none => exact .jump end'

theorem leaveFor_balanced {label : Option String} (line : Nat) (fault : SemanticFault)
    (inside : ∀ l, label = some l → l ∈ known) : Balanced c known (leaveFor label line fault) := by
  cases label with
  | some l => exact .jump (inside l rfl)
  | none => exact .fail _ _

theorem optional_balanced (calls' : calls.Balanced c) {value : Option Expr}
    (scalar : Stmt.isScalar? value = true) : ∀ code, value.map (Gen.code calls) = some code → code.Balanced c := by
  intro code is
  obtain ⟨e, rfl, rfl⟩ := Option.map_eq_some_iff.1 is
  exact code_balanced calls' e scalar

mutual

/-- A scalar statement that is no function leaves control where it was. -/
theorem statement_balanced (calls' : calls.Balanced c) (exits : Exits) :
    ∀ s : Stmt, s.Proper → s.isScalar = true → BalancedIn c exits (statement calls exits s)
  | .expr e, _, scalar => by
    rw [Stmt.isScalar] at scalar
    rw [statement]
    exact fun _ _ => evaluate_balanced (code_balanced calls' e scalar)
  | .define line name ty value, _, scalar => by
    rw [Stmt.isScalar] at scalar
    rw [statement]
    exact fun _ _ => define_balanced name ty (optional_balanced calls' scalar)
  | .array line name ty dims init, _, scalar => by
    rw [Stmt.isScalar] at scalar
    cases scalar
  | .function line name ret params body isInline, proper, _ => by
    rw [Stmt.Proper] at proper
    rw [proper]
    simp only [statement]
    exact fun _ _ => .pure trivial
  | .conditional line branches (some otherwise), proper, scalar => by
    rw [Stmt.Proper] at proper
    rw [Stmt.isScalar, Bool.and_eq_true] at scalar
    rw [statement]
    exact conditional_balanced (branchCodes_balanced calls' exits branches proper.1 scalar.1) fun body is => by
      cases is
      exact statements_balanced calls' exits otherwise proper.2 scalar.2
  | .conditional line branches none, proper, scalar => by
    rw [Stmt.Proper] at proper
    rw [Stmt.isScalar] at scalar
    rw [statement]
    exact conditional_balanced (branchCodes_balanced calls' exits branches proper scalar) fun _ is => by cases is
  | .whileLoop line cond body, proper, scalar => by
    rw [Stmt.Proper] at proper
    rw [Stmt.isScalar, Bool.and_eq_true] at scalar
    rw [statement]
    exact whileLoop_balanced (code_balanced calls' cond scalar.1) fun brk cont =>
      statements_balanced calls' (exits.inLoop brk cont) body proper.2 scalar.2
  | .forLoop line (some init) cond step body, proper, scalar => by
    rw [Stmt.Proper] at proper
    simp only [Stmt.isScalar, Bool.and_eq_true] at scalar
    rw [statement]
    exact forLoop_balanced (fun known around => (statement_balanced calls' exits init proper.1 scalar.1.1.1 known
      around).bind fun _ _ => releaseHolds_balanced) (optional_balanced calls' scalar.1.1.2)
      (optional_balanced calls' scalar.1.2) fun brk cont =>
        statements_balanced calls' (exits.inLoop brk cont) body proper.2.2.2 scalar.2
  | .forLoop line none cond step body, proper, scalar => by
    rw [Stmt.Proper] at proper
    simp only [Stmt.isScalar, Bool.and_eq_true] at scalar
    rw [statement]
    exact forLoop_balanced (fun _ _ => .pure trivial) (optional_balanced calls' scalar.1.1)
      (optional_balanced calls' scalar.1.2) fun brk cont =>
        statements_balanced calls' (exits.inLoop brk cont) body proper.2.2 scalar.2
  | .returns line value, _, scalar => by
    rw [Stmt.isScalar] at scalar
    rw [statement]
    exact leave_balanced line (optional_balanced calls' scalar)
  | .breaks line, _, _ => by
    rw [statement]
    exact fun _ around => leaveFor_balanced line _ fun l is => around l (by simp [Exits.labels, is])
  | .continues line, _, _ => by
    rw [statement]
    exact fun _ around => leaveFor_balanced line _ fun l is => around l (by simp [Exits.labels, is])
  | .asm line text, _, scalar => by
    rw [Stmt.isScalar] at scalar
    cases scalar
  | .group line body, proper, scalar => by
    rw [Stmt.Proper] at proper
    rw [Stmt.isScalar] at scalar
    rw [statement]
    exact fun known around => block_balanced (statements_balanced calls' exits body proper scalar known around)

theorem statements_balanced (calls' : calls.Balanced c) (exits : Exits) :
    ∀ body : List Stmt, Stmt.AllProper body → Stmt.areScalar body = true →
      BalancedIn c exits (statements calls exits body)
  | [], _, _ => by
    rw [statements]
    exact fun _ _ => .pure trivial
  | s :: rest, proper, scalar => by
    rw [Stmt.AllProper] at proper
    rw [Stmt.areScalar, Bool.and_eq_true] at scalar
    rw [statements]
    exact fun known around => (statement_balanced calls' exits s proper.1 scalar.1 known around).bind fun _ _ =>
      (endStatement_balanced s.line).bind fun _ _ =>
        statements_balanced calls' exits rest proper.2 scalar.2 known around

theorem branchCodes_balanced (calls' : calls.Balanced c) (exits : Exits) :
    ∀ branches : List Branch, Stmt.BranchesProper branches → Stmt.areScalarBranches branches = true →
      ∀ branch ∈ branchCodes calls exits branches, branch.1.Balanced c ∧ BalancedIn c exits branch.2
  | [], _, _ => by
    rw [branchCodes]
    exact fun _ member => by cases member
  | .mk cond body :: rest, proper, scalar => by
    rw [Stmt.BranchesProper] at proper
    simp only [Stmt.areScalarBranches, Bool.and_eq_true] at scalar
    rw [branchCodes]
    exact List.forall_mem_cons.2 ⟨⟨code_balanced calls' cond scalar.1.1,
      statements_balanced calls' exits body proper.2.1 scalar.1.2⟩,
      branchCodes_balanced calls' exits rest proper.2.2 scalar.2⟩

end

/-! ### Calls -/

/-- Calls leave control where it was, however many functions may still be expanded. -/
theorem calls_balanced (proper : c.Proper) (scalar : ∀ f ∈ c.functions, f.2.isScalar = true)
    (active : List String) (levels : Nat) : (Gen.calls active levels).Balanced c := by
  induction levels generalizing active with
  | zero =>
    rw [Gen.calls]
    exact call_balanced fun _ _ _ _ _ _ _ _ _ => .fail _ _
  | succ levels ih =>
    rw [Gen.calls]
    refine call_balanced fun known line name f body args declared has balanced => .refuse fun _ => ?_
    have scalar' : Stmt.areScalar body = true := by
      have whole := scalar _ declared
      rw [Function.isScalar, has] at whole
      exact whole
    exact expand_balanced balanced fun known done inside =>
      statements_balanced (ih (name :: active)) _ body ((proper name f declared).body body has) scalar' known
        fun l member => by
          simp only [Exits.labels, Exits.ofFunction, Option.map_some, Option.toList_some, Option.toList_none,
            List.append_nil, List.mem_singleton] at member
          rwa [member]

/-! ### Functions -/

/-- Parameters are loaded from above the stack pointer, as long as there are registers for them. -/
theorem loadParams_laid {slot : Nat} {params : List Param} {p p' : Progress} {x : Unit}
    (tame : Tame p.allocator) (room : Alloc.Roomy p.allocator params.length)
    (ran : (loadParams slot params).exec c p = .ok (x, p')) :
    Tame p'.allocator ∧ Wider p.allocator p'.allocator ∧ p'.draft.labels = p.draft.labels ∧
      ∃ es, p'.draft.entries.toList = p.draft.entries.toList ++ es ∧
        ∀ points globals pt, Passes points globals pt es pt := by
  induction params generalizing slot p with
  | nil =>
    cases ran
    exact ⟨tame, .refl _, rfl, [], by simp, fun _ _ _ => .nil⟩
  | cons param rest ih =>
    obtain ⟨rd, _, added, ran⟩ := exec_bind_ok ran
    obtain ⟨w, adds, rfl⟩ := exec_alloc added
    obtain ⟨_, _, emitted, ran⟩ := exec_bind_ok ran
    cases exec_emit emitted
    obtain ⟨room', quiet⟩ := Alloc.addVariable_roomy (w := ⟨p.allocator, #[]⟩) room adds
    obtain ⟨common, tended⟩ := Alloc.tends_addVariable (fun _ none => by cases none) ⟨p.allocator, #[]⟩ rd w tame adds
    obtain ⟨tame', wider, labels, es, appended, passes⟩ := ih tended.tame room' ran
    refine ⟨tame', tended.wider.trans wider, labels, .plain (.lw rd Reg.stackPointer slot) :: es, ?_,
      fun points globals pt => ?_⟩
    · rw [appended, toList_pushAll, toList_pushAll, quiet]
      simp [Alloc.entriesOf]
    · exact (Passes.single (.calm ⟨rd, rfl, common⟩)).append (passes points globals pt)

/-- What follows the frame in the entry of a function. -/
theorem introduced_lays (params : List Param) (place : Nat) : Lays c known (do
      (params.zip Reg.arguments).forM fun (param, r) => alloc do
        let _ ← Alloc.addVariable param.name (some r)
      params.forM fun param => noteType param.name param.ty true
      releaseHolds
      return place) fun entry => entry = place := by
  have given : ∀ pair ∈ params.zip Reg.arguments, Balanced c known (alloc do
      let _ ← Alloc.addVariable pair.1.name (some pair.2)) := fun pair member =>
    .alloc (.bind (Alloc.tends_addVariable fun r is => by
      cases is
      exact Reg.common_of_argument (List.of_mem_zip member).2) fun _ _ => .pure trivial)
  exact (Lays.forM given).bind fun _ _ => (Lays.forM fun _ _ => noteType_balanced _ _ _).bind fun _ _ =>
    releaseHolds_balanced.bind fun _ _ => .pure rfl

/-- The instruction that makes or drops a frame. -/
def frameMove (words : Int) : MachineInstr :=
  if words = 0 then MachineInstr.noop else .addi Reg.stackPointer Reg.stackPointer words

/-- The end of a function: the frame is dropped, variables of the root go home, and control returns. -/
def closing (behind : String) (entry exit : Nat) : Gen Unit := do
  emit MachineInstr.noop
  let frame ← alloc Alloc.leaveFunction
  if frame > 0 then
    draft fun d => d.patch entry (.addi Reg.stackPointer Reg.stackPointer (-(frame : Int)))
    draft fun d => d.patch exit (.addi Reg.stackPointer Reg.stackPointer frame)
  emit (.jr Reg.returnAddress)
  draft fun d => d.placeLabel behind

theorem toList_patch {d : Draft} {before after : List Entry} {e : Entry} (i : MachineInstr)
    (split : d.entries.toList = before ++ e :: after) :
    (d.patch before.length i).entries.toList = before ++ { e with instr := i } :: after := by
  rw [Draft.patch, Array.toList_modify, split, List.modify_eq_take_drop]
  simp

/-- The frame is made and dropped where its place was kept. -/
theorem closing_laid {behind : String} {p p' : Progress} {before inside : List Entry} {x : Unit}
    (split : p.draft.entries.toList = before ++ .plain MachineInstr.noop :: inside)
    (ran : (closing behind before.length (before.length + 1 + inside.length)).exec c p = .ok (x, p')) :
    ∃ frame w, Alloc.Ran Alloc.leaveFunction ⟨p.allocator, #[]⟩ frame w ∧ p'.allocator = w.allocator ∧
      p'.draft.labels = p.draft.labels ∧ p'.draft.entries.toList =
        before ++ .plain (frameMove (-(frame : Int))) :: inside ++ .plain (frameMove frame) ::
          Alloc.entriesOf w.code ++ [.plain (.jr Reg.returnAddress), .labeled behind MachineInstr.noop] := by
  obtain ⟨_, _, emitted, ran⟩ := exec_bind_ok ran
  cases exec_emit emitted
  obtain ⟨frame, _, left, ran⟩ := exec_bind_ok ran
  obtain ⟨w, leaves, rfl⟩ := exec_alloc left
  refine ⟨frame, w, leaves, ?_⟩
  have last : ∀ {d : Draft} {q : Progress}, (do
      emit (.jr Reg.returnAddress)
      draft fun d => d.placeLabel behind : Gen Unit).exec c { p with allocator := w.allocator, draft := d } =
        .ok (x, q) → q.allocator = w.allocator ∧ q.draft.labels = d.labels ∧ q.draft.entries.toList =
          d.entries.toList ++ [.plain (.jr Reg.returnAddress), .labeled behind MachineInstr.noop] := by
    intro d q ran
    cases ran
    exact ⟨rfl, rfl, by simp [Draft.placeLabel, Draft.push, Draft.append]⟩
  have whole : ((p.draft.pushAll #[MachineInstr.noop]).pushAll w.code).entries.toList =
      before ++ .plain MachineInstr.noop :: (inside ++ .plain MachineInstr.noop :: Alloc.entriesOf w.code) := by
    rw [toList_pushAll, toList_pushAll, split]
    simp [Alloc.entriesOf]
  split at ran
  · next some =>
    obtain ⟨_, _, first, ran⟩ := exec_bind_ok ran
    cases first
    obtain ⟨_, _, second, ran⟩ := exec_bind_ok ran
    cases second
    obtain ⟨allocator, labels, entries⟩ := last ran
    refine ⟨allocator, labels, entries.trans ?_⟩
    have positive : (frame : Int) ≠ 0 := by omega
    have negative : -(frame : Int) ≠ 0 := by omega
    have made := toList_patch (.addi Reg.stackPointer Reg.stackPointer (-(frame : Int))) whole
    rw [List.append_cons before, ← List.append_assoc] at made
    have dropped := toList_patch (.addi Reg.stackPointer Reg.stackPointer (frame : Int)) made
    have place : (before ++ [Entry.plain (frameMove (-(frame : Int)))] ++ inside).length =
        before.length + 1 + inside.length := by
      simp only [List.length_append, List.length_singleton]
    simp only [frameMove, negative, positive, ↓reduceIte] at place ⊢
    simp only [Entry.plain] at place dropped ⊢
    rw [place] at dropped
    rw [dropped]
    simp
  · next none =>
    obtain ⟨allocator, labels, entries⟩ := last ran
    refine ⟨allocator, labels, entries.trans ?_⟩
    have zero : (frame : Int) = 0 := by omega
    rw [whole, zero]
    simp [frameMove]

/-- Control jumps over a function, and through it from its entry to its return. -/
theorem function_passes {points : String → Point} {globals frame : Nat} {name behind : String}
    {synced loaded inside left : List Entry} (name' : points name = .inside 0 .held)
    (behind' : points behind = .outside) (sync : Passes points globals .outside synced .outside)
    (load : Passes points globals (.inside 0 .held) loaded (.inside 0 .held))
    (body : Passes points globals (.inside frame .held) inside (.inside frame .held))
    (leave : Passes points globals (.inside 0 .held) left (.inside 0 .held)) :
    Passes points globals .outside (synced ++ [.plain (MachineInstr.jumpTo behind)]
      ++ [.labeled name MachineInstr.noop] ++ loaded ++ [.plain (frameMove (-(frame : Int)))] ++ inside
      ++ [.plain (frameMove frame)] ++ left ++ [.plain (.jr Reg.returnAddress)]
      ++ [.labeled behind MachineInstr.noop]) .outside := by
  have jumps : Passes points globals .outside [.plain (MachineInstr.jumpTo behind)] (.inside 0 .held) :=
    .halt (.jump behind')
  have moves : ∀ {d d' : Nat} {n : Int}, (d' : Int) = d - n → Passes points globals (.inside d .held)
      [.plain (frameMove n)] (.inside d' .held) := by
    intro d d' n moved
    unfold frameMove
    split
    · next none =>
      have same : d' = d := by omega
      rw [same]
      exact .single (.calm ⟨Reg.zero, rfl, by decide⟩)
    · exact .single (.move moved fun _ is => by cases is)
  have back : Passes points globals (.inside 0 .held) [.plain (.jr Reg.returnAddress)] .outside := .halt .back
  exact ((((((((sync.append jumps).append (.label name')).append load).append (moves (by omega))).append body).append
    (moves (by omega))).append leave).append back).append (.label behind')

/-- What a part of the top level appends: control gets through it, and each of its labels has a point. -/
structure RootLaid (c : Context) (p p' : Progress) : Prop where
  labels : p.draft.labels ≤ p'.draft.labels
  globals : p.allocator.globals ≤ p'.allocator.globals
  code : ∃ (es : List Entry) (own : Nat → Point), p'.draft.entries.toList = p.draft.entries.toList ++ es ∧
    ∀ points globals, p'.allocator.globals ≤ globals →
      (∀ n, p.draft.labels ≤ n → n < p'.draft.labels → points (Draft.labelName n) = own n) →
      c.Entered points → Passes points globals .outside es .outside

/-- The labels of a function are that behind it, that of its return, and those of its body. -/
theorem RootLaid.of_function {p p' : Progress} {name : String} (frame : Nat)
    (synced loaded inside left : List Entry) (declared : ∃ f, (name, f) ∈ c.functions)
    (labels : p.draft.labels + 2 ≤ p'.draft.labels) (globals : p.allocator.globals ≤ p'.allocator.globals)
    (entries : p'.draft.entries.toList = p.draft.entries.toList ++ (synced
      ++ [.plain (MachineInstr.jumpTo (Draft.labelName p.draft.labels))] ++ [.labeled name MachineInstr.noop]
      ++ loaded ++ [.plain (frameMove (-(frame : Int)))] ++ inside ++ [.plain (frameMove frame)] ++ left
      ++ [.plain (.jr Reg.returnAddress)] ++ [.labeled (Draft.labelName p.draft.labels) MachineInstr.noop]))
    (sync : ∀ points globals, p'.allocator.globals ≤ globals → Passes points globals .outside synced .outside)
    (load : ∀ points globals, Passes points globals (.inside 0 .held) loaded (.inside 0 .held))
    (body : ∀ points globals, p'.allocator.globals ≤ globals →
      (∀ n, p.draft.labels + 1 ≤ n → n < p'.draft.labels → points (Draft.labelName n) = .inside frame .held) →
      c.Entered points → Passes points globals (.inside frame .held) inside (.inside frame .held))
    (leave : ∀ points globals, p'.allocator.globals ≤ globals →
      Passes points globals (.inside 0 .held) left (.inside 0 .held)) : RootLaid c p p' := by
  refine ⟨Nat.le_of_succ_le (Nat.le_of_succ_le labels), globals, _,
    fun n => if n = p.draft.labels then .outside else .inside frame .held, entries,
    fun points globals room own entered => ?_⟩
  have behind : points (Draft.labelName p.draft.labels) = .outside :=
    (own _ (Nat.le_refl _) (by omega)).trans (if_pos rfl)
  have within : ∀ n, p.draft.labels + 1 ≤ n → n < p'.draft.labels →
      points (Draft.labelName n) = .inside frame .held := fun n above below =>
    (own n (by omega) below).trans (if_neg (by omega))
  obtain ⟨f, member⟩ := declared
  exact function_passes (entered _ member) behind (sync points globals room) (load points globals)
    (body points globals room within entered) (leave points globals room)

/-- The state between two statements of the top level. -/
structure Rested (s : Shape) (a : Allocator) : Prop where
  shaped : At s a
  tame : Tame a
  flat : a.pushed = 0
  unheld : a.held = []

theorem Rested.top {s : Shape} {a : Allocator} (atRoot : s.AtRoot) (shaped : At s a) : a.frame = none := by
  have outside := (congrArg Shape.inside shaped.shape).trans atRoot.outside
  exact Option.not_isSome_iff_eq_none.1 (by simp only [Allocator.shape] at outside; simp [outside])

theorem Rested.temps {s : Shape} {a : Allocator} (atRoot : s.AtRoot) (shaped : At s a) : a.temps = [] := by
  have alive := (congrArg Shape.alive shaped.shape).trans atRoot.empty
  exact List.map_eq_nil_iff.1 ((Multiset.coe_eq_zero _).1 alive)

/-- The state in which the parameters of a function are introduced. -/
structure Entered (s : Shape) (globals : Nat) (a : Allocator) : Prop where
  shaped : At s.inFunction a
  tame : Tame a
  flat : a.pushed = 0
  unheld : a.held = []
  free : a.free = Reg.pool
  globals : globals ≤ a.globals

theorem Meets.reaches {α : Type} {P : Allocator → Prop} {act : Gen α} {Q : α → Allocator → Prop} {x : α}
    {p p' : Progress} (meets : Meets c P act Q) (unchecked : c.checked false = c)
    (ran : act.exec c p = .ok (x, p')) (before : P p.allocator) : Q x p'.allocator :=
  meets.ends p x p' before (by rw [unchecked]; exact ran)

/-- What a function starts with, up to its parameters. -/
def opening (behind name : String) : Gen Unit := do
  jump behind
  draft fun d => d.placeLabel name
  alloc Alloc.enterFunction

/-- Up to the entry of a function, control is at the top level. -/
theorem opening_laid {s : Shape} {behind name : String} {p p' : Progress} {x : Unit} (atRoot : s.AtRoot)
    (rested : Rested s p.allocator) (ran : (opening behind name).exec c p = .ok (x, p')) :
    Entered s p.allocator.globals p'.allocator ∧ p'.draft.labels = p.draft.labels ∧
      ∃ synced, p'.draft.entries.toList = p.draft.entries.toList ++ (synced
          ++ [.plain (MachineInstr.jumpTo behind)] ++ [.labeled name MachineInstr.noop]) ∧
        ∀ points globals, p'.allocator.globals ≤ globals →
          Passes points globals .outside synced .outside := by
  obtain ⟨_, _, jumped, ran⟩ := exec_bind_ok ran
  obtain ⟨_, _, synced, emitted⟩ := exec_bind_ok jumped
  obtain ⟨w₀, syncs, rfl⟩ := exec_alloc synced
  cases exec_emit emitted
  obtain ⟨_, _, placed, entered⟩ := exec_bind_ok ran
  cases placed
  obtain ⟨w₁, enters, rfl⟩ := exec_alloc entered
  have shaped := Alloc.sync_stays ⟨p.allocator, #[]⟩ () w₀ rested.shaped syncs
  obtain ⟨-, tended⟩ := Alloc.tends_sync ⟨p.allocator, #[]⟩ () w₀ rested.tame syncs
  obtain ⟨sync, emitted, passes⟩ := tended.passes rested.flat
  have held := (Alloc.sync_held (w := ⟨p.allocator, #[]⟩) (Rested.temps atRoot rested.shaped) syncs).trans
    rested.unheld
  obtain ⟨tame', quiet, -, globals', flat', held', free'⟩ := Alloc.enterFunction_tame
    (w := ⟨w₀.allocator, #[]⟩) shaped.sound.registers.toOwners tended.tame
    (tended.wider.pushed.trans rested.flat) enters
  have shaped' := enterFunction_opens atRoot ⟨w₀.allocator, #[]⟩ () w₁ shaped enters
  refine ⟨⟨shaped', tame', flat', held'.trans held, free', ?_⟩, rfl, Alloc.entriesOf w₀.code, ?_,
    fun points globals room => ?_⟩
  · exact tended.wider.globals.trans (Nat.le_of_eq globals'.symm)
  · rw [toList_pushAll, quiet]
    simp [Draft.placeLabel, Draft.append, Draft.pushAll, Alloc.entriesOf]
  · rw [emitted, Array.empty_append]
    refine passes points globals .outside (.outside (Rested.top atRoot shaped)) ?_
    exact Nat.le_trans (Nat.le_of_eq globals'.symm) room

/-- Parameters on the stack are loaded before the frame is made, and all else behind it. -/
theorem enter_laid (known : List String) {params : List Param} {p p' : Progress} {entry : Nat} (tame : Tame p.allocator)
    (flat : p.allocator.pushed = 0) (room : Alloc.Roomy p.allocator (params.drop Reg.argumentCount).length)
    (ran : (enter params).exec c p = .ok (entry, p')) :
    ∃ (mid : Progress) (loaded : List Entry), mid.draft.entries.toList = p.draft.entries.toList ++ loaded ∧
      (∀ points globals pt, Passes points globals pt loaded pt) ∧ mid.draft.labels = p.draft.labels ∧
      Wider p.allocator mid.allocator ∧ entry = mid.draft.entries.toList.length ∧
      Laid c known { mid with draft := mid.draft.pushAll #[MachineInstr.noop] } p' := by
  obtain ⟨_, mid, loaded, ran⟩ := exec_bind_ok ran
  obtain ⟨tame', wider, labels, es, appended, passes⟩ := loadParams_laid tame room loaded
  obtain ⟨_, _, got, ran⟩ := exec_bind_ok ran
  cases got
  obtain ⟨_, _, kept, ran⟩ := exec_bind_ok ran
  cases exec_emit kept
  obtain ⟨place, laid⟩ : _ ∧ Laid c known _ _ := introduced_lays params mid.draft.size
    { mid with draft := mid.draft.pushAll #[MachineInstr.noop] } entry p' tame' (wider.pushed.trans flat) ran
  exact ⟨mid, es, appended, passes, labels, wider, place.trans Array.length_toList.symm, laid⟩

theorem function_eq (name : String) (ret : TypeSpec) (params : List Param) (body : Exits → Gen Unit) :
    function name ret params body = (do
      let behind ← freshLabel
      let done ← freshLabel
      opening behind name
      let entry ← enter params
      body (Exits.ofFunction done ret false)
      placeLabel done
      let p ← get
      closing behind entry p.draft.size) := by
  simp only [function, opening, closing, bind_assoc]

/-- A function lets control at the top level pass, and leaves it with the registers that it found. -/
theorem function_laid {s : Shape} {name : String} {ret : TypeSpec} {params : List Param}
    {body : Exits → Gen Unit} {p p' : Progress} {x : Unit} (unchecked : c.checked false = c) (atRoot : s.AtRoot)
    (rested : Rested s p.allocator) (declared : ∃ f, (name, f) ∈ c.functions)
    (few : params.length ≤ Reg.argumentCount + Reg.pool.length)
    (settles : ∀ label, Settles c (Exits.ofFunction label ret false) (body (Exits.ofFunction label ret false)))
    (within : ∀ known done, done ∈ known → Balanced c known (body (Exits.ofFunction done ret false)))
    (ran : (function name ret params body).exec c p = .ok (x, p')) :
    RootLaid c p p' ∧ Rested s p'.allocator := by
  rw [function_eq] at ran
  obtain ⟨_, _, fresh, ran⟩ := exec_bind_ok ran
  cases fresh
  obtain ⟨_, _, fresh', ran⟩ := exec_bind_ok ran
  cases fresh'
  obtain ⟨_, p₁, opened, ran⟩ := exec_bind_ok ran
  obtain ⟨entered, labels₁, synced, appended₁, sync⟩ := opening_laid
    (p := { p with draft := { p.draft with labels := p.draft.labels + 2 } }) atRoot rested opened
  obtain ⟨entry, p₂, introduced, ran⟩ := exec_bind_ok ran
  have shaped₂ := (enter_stays params).reaches unchecked introduced entered.shaped
  have room : Alloc.Roomy p₁.allocator (params.drop Reg.argumentCount).length := by
    rw [Alloc.Roomy, entered.free, entered.unheld]
    refine ⟨by decide, ?_⟩
    simp only [List.not_mem_nil, not_false_eq_true, decide_true, List.filter_true, List.length_drop]
    omega
  obtain ⟨mid, loaded, appended₂, load, labels₂, wider, place, laid₂⟩ := enter_laid
    [Draft.labelName (p.draft.labels + 1)] entered.tame entered.flat room introduced
  have flat₂ := laid₂.wider.pushed.trans (wider.pushed.trans entered.flat)
  obtain ⟨_, p₃, generated, ran⟩ := exec_bind_ok ran
  have shaped₃ := (settles _ _ atRoot.inFunction fun _ => atRoot.empty).reaches unchecked generated shaped₂
  obtain ⟨-, laid₃⟩ := within _ _ List.mem_cons_self p₂ _ p₃ laid₂.tame flat₂ generated
  have flat₃ := laid₃.wider.pushed.trans flat₂
  obtain ⟨_, p₄, labelled, ran⟩ := exec_bind_ok ran
  have shaped₄ := (placeLabel_stays _).reaches unchecked labelled shaped₃
  obtain ⟨-, laid₄⟩ := Lays.placeLabel List.mem_cons_self p₃ _ p₄ laid₃.tame flat₃ labelled
  obtain ⟨_, _, got, ran⟩ := exec_bind_ok ran
  cases got
  have laid := (laid₂.trans laid₃).trans laid₄
  obtain ⟨inside, appended, passes⟩ := laid.code
  have split : p₄.draft.entries.toList = mid.draft.entries.toList ++ .plain MachineInstr.noop :: inside := by
    rw [appended, toList_pushAll]
    simp [Alloc.entriesOf]
  have exit : p₄.draft.size = mid.draft.entries.toList.length + 1 + inside.length := by
    rw [Draft.size, ← Array.length_toList, split, List.length_append, List.length_cons]
    omega
  rw [exit, place] at ran
  -- The frame is dropped, and control returns.
  obtain ⟨frame, w, leaves, allocator, labels, entries⟩ := closing_laid split ran
  have shaped := leaveFunction_closes atRoot ⟨p₄.allocator, #[]⟩ frame w shaped₄ leaves
  obtain ⟨tame, -, flat, unheld, globals, frames, left, emitted, low⟩ := Alloc.leaveFunction_tame
    (w := ⟨p₄.allocator, #[]⟩) shaped₄.sound ((congrArg Shape.reserved shaped₄.shape).trans atRoot.unreserved)
    shaped₄.idle laid.tame leaves
  have labels₃ : mid.draft.labels ≤ p₄.draft.labels := laid.labels
  have labels₁' : p₁.draft.labels = p.draft.labels + 2 := labels₁
  have globals₂ : p₁.allocator.globals ≤ p₄.allocator.globals := wider.globals.trans laid.wider.globals
  have globals₃ : p₄.allocator.globals ≤ p'.allocator.globals := by rwa [allocator]
  have inFunction : p₄.allocator.Stance (.inside frame .held) := by
    have inside := (congrArg Shape.inside shaped₄.shape)
    obtain ⟨size, has⟩ := Option.isSome_iff_exists.1 inside
    exact .inside has (frames size has)
  refine ⟨.of_function frame synced loaded inside (Alloc.entriesOf w.code) declared (by omega) (entered.globals.trans (globals₂.trans globals₃)) ?_
    (fun points globals' room' => sync points globals' (globals₂.trans (globals₃.trans room')))
    (fun points globals' => load points globals' _) (fun points globals' room' own entered' => ?_)
    fun points globals' room' => ?_, ?_⟩
  · rw [entries, appended₂, appended₁]
    simp
  · refine passes points globals' _ inFunction (globals₃.trans room') (fun n above below => own n ?_ ?_)
      (fun l member => ?_) entered'
    · have : mid.draft.labels ≤ n := above
      omega
    · omega
    · rw [List.mem_singleton.1 member]
      exact own _ (Nat.le_refl _) (by omega)
  · refine .code fun i member => ?_
    rw [emitted, Array.empty_append] at member
    obtain ⟨r, y, inside, rfl⟩ := low i (Array.mem_toList_iff.1 member)
    exact .write (Nat.lt_of_lt_of_le inside (allocator ▸ room'))
  · rw [allocator]
    exact ⟨shaped, tame, flat, unheld⟩

/-! ### The top level -/

theorem RootLaid.refl (p : Progress) : RootLaid c p p :=
  ⟨Nat.le_refl _, Nat.le_refl _, [], fun _ => .outside, by simp, fun _ _ _ _ _ => .nil⟩

theorem RootLaid.trans {p mid p' : Progress} (first : RootLaid c p mid) (second : RootLaid c mid p') :
    RootLaid c p p' := by
  obtain ⟨es, own, appended, passes⟩ := first.code
  obtain ⟨es', own', appended', passes'⟩ := second.code
  refine ⟨first.labels.trans second.labels, first.globals.trans second.globals, es ++ es',
    fun n => if n < mid.draft.labels then own n else own' n, ?_, fun points globals room owns entered => ?_⟩
  · rw [appended', appended, List.append_assoc]
  · refine (passes points globals (second.globals.trans room) (fun n above below => ?_) entered).append
      (passes' points globals room (fun n above below => ?_) entered)
    · exact (owns n above (Nat.lt_of_lt_of_le below second.labels)).trans (if_pos below)
    · exact (owns n (first.labels.trans above) below).trans (if_neg (Nat.not_lt.2 above))

/-- Code that stands at one point stands at the top level, where that is its point. -/
theorem Laid.root {p p' : Progress} (laid : Laid c [] p p') (top : p'.allocator.frame = none) :
    RootLaid c p p' := by
  obtain ⟨es, appended, passes⟩ := laid.code
  exact ⟨laid.labels, laid.wider.globals, es, fun _ => .outside, appended, fun points globals room own =>
    passes points globals _ (.outside top) room own fun _ member => by cases member⟩

/-- At the end of a statement of the top level, nothing is held any more. -/
theorem endStatement_rests {s : Shape} {line : Nat} {p p' : Progress} {x : Unit}
    (unchecked : c.checked false = c) (atRoot : s.AtRoot) (shaped : At s p.allocator) (tame : Tame p.allocator)
    (flat : p.allocator.pushed = 0) (ran : (endStatement Exits.none line).exec c p = .ok (x, p')) :
    RootLaid c p p' ∧ Rested s p'.allocator := by
  have settles : Settles c Exits.none (endStatement Exits.none line) := endStatement_settles line
  have shaped' := (settles s atRoot.ready fun _ => atRoot.empty).reaches unchecked ran shaped
  obtain ⟨-, laid⟩ : _ ∧ Laid c [] p p' := endStatement_balanced line p x p' tame flat ran
  refine ⟨laid.root (Rested.top atRoot shaped'), shaped', laid.tame, laid.wider.pushed.trans flat, ?_⟩
  obtain ⟨_, mid, released, ran⟩ := exec_bind_ok ran
  have none := At.liveTemps (releaseHolds_stays.reaches unchecked released shaped) atRoot.empty
  have quiet : c.verifies = false := (congrArg Context.verifies unchecked).symm
  obtain ⟨w, did, rfl⟩ := exec_alloc released
  have held : w.allocator.held = [] := by
    rw [Alloc.ran_change.1 did]
    rfl
  dsimp only at ran
  rw [if_pos (by decide)] at ran
  obtain ⟨_, _, got, ran⟩ := exec_bind_ok ran
  cases got
  rw [none, if_neg (by decide)] at ran
  obtain ⟨_, _, got, ran⟩ := exec_bind_ok ran
  cases got
  rw [quiet, if_neg (by decide)] at ran
  cases ran
  exact held

/-- What is known of the functions that a statement of the top level declares: they are among those of the
source, and there are registers for their parameters. -/
def Lists (c : Context) (st : Stmt) : Prop :=
  ∀ entry, st.function? = some entry → (∃ f, (entry.1, f) ∈ c.functions) ∧
    entry.2.params.length ≤ Reg.argumentCount + Reg.pool.length

theorem rootStatement_laid {s : Shape} {st : Stmt} {p p' : Progress} {x : Unit} (unchecked : c.checked false = c)
    (tidy : calls.Tidy c) (balanced : calls.Balanced c) (atRoot : s.AtRoot) (proper : st.RootProper)
    (scalar : st.isScalar = true) (lists : Lists c st) (rested : Rested s p.allocator)
    (ran : (statement calls Exits.none st).exec c p = .ok (x, p')) :
    RootLaid c p p' ∧ Tame p'.allocator ∧ p'.allocator.pushed = 0 := by
  have shaped := (rootStatement_stays tidy atRoot st proper).reaches unchecked ran rested.shaped
  have straight : st.Proper → RootLaid c p p' ∧ Tame p'.allocator ∧ p'.allocator.pushed = 0 := fun proper => by
    obtain ⟨-, laid⟩ := statement_balanced balanced Exits.none st proper scalar [] (fun _ member => member)
      p x p' rested.tame rested.flat ran
    exact ⟨laid.root (Rested.top atRoot shaped), laid.tame, laid.wider.pushed.trans rested.flat⟩
  cases st with
  | function line name ret params body isInline =>
    have quiet : (statement calls Exits.none (.function line name ret params body isInline)).exec c p =
        .ok (x, p) → RootLaid c p p' ∧ Tame p'.allocator ∧ p'.allocator.pushed = 0 := fun still => by
      cases still.symm.trans ran
      exact ⟨.refl p, rested.tame, rested.flat⟩
    cases body with
    | none => exact quiet (by simp only [statement]; rfl)
    | some body =>
      cases isInline with
      | true => exact quiet (by simp only [statement]; rfl)
      | false =>
        obtain ⟨declared, few⟩ := lists _ rfl
        rw [statement] at ran
        rw [Stmt.isScalar] at scalar
        obtain ⟨laid, after⟩ := function_laid unchecked atRoot rested declared few
          (fun label => statements_settle tidy (Exits.ofFunction label ret false) body (proper.body body rfl))
          (fun known done inside => statements_balanced balanced (Exits.ofFunction done ret false) body
            (proper.body body rfl) scalar known fun l member => by
              simp only [Exits.labels, Exits.ofFunction, Option.map_some, Option.toList_some, Option.toList_none,
                List.append_nil, List.mem_singleton] at member
              rwa [member]) ran
        exact ⟨laid, after.tame, after.flat⟩
  | expr | define | array | conditional | whileLoop | forLoop | returns | breaks | continues | asm | group =>
    exact straight proper

/-- By induction on the statements: each lets control at the top level pass. -/
theorem rootStatements_laid {s : Shape} {unit : List Stmt} {p p' : Progress} {x : Unit}
    (unchecked : c.checked false = c) (tidy : calls.Tidy c) (balanced : calls.Balanced c) (atRoot : s.AtRoot)
    (proper : ∀ st ∈ unit, st.RootProper) (scalar : Stmt.areScalar unit = true) (lists : ∀ st ∈ unit, Lists c st)
    (rested : Rested s p.allocator) (ran : (statements calls Exits.none unit).exec c p = .ok (x, p')) :
    RootLaid c p p' := by
  induction unit generalizing p with
  | nil =>
    rw [statements] at ran
    cases ran
    exact .refl _
  | cons st rest ih =>
    rw [statements] at ran
    rw [Stmt.areScalar, Bool.and_eq_true] at scalar
    obtain ⟨_, _, first, ran⟩ := exec_bind_ok ran
    obtain ⟨_, _, ended, ran⟩ := exec_bind_ok ran
    obtain ⟨laid, tame, flat⟩ := rootStatement_laid unchecked tidy balanced atRoot (proper st List.mem_cons_self)
      scalar.1 (lists st List.mem_cons_self) rested first
    have shaped := (rootStatement_stays tidy atRoot st (proper st List.mem_cons_self)).reaches unchecked first
      rested.shaped
    obtain ⟨laid', rested'⟩ := endStatement_rests unchecked atRoot shaped tame flat ended
    exact (laid.trans laid').trans (ih (fun st member => proper st (List.mem_cons_of_mem _ member)) scalar.2
      (fun st member => lists st (List.mem_cons_of_mem _ member)) rested' ran)

/-- The number loaded into a register at the top level. -/
theorem loadLiteral_root {rd : Reg} {value : Int} {p p' : Progress} {x : Unit}
    (ran : (loadLiteral rd value).exec c p = .ok (x, p')) : RootLaid c p p' ∧ p'.allocator = p.allocator := by
  rw [exec_emitAll ran]
  refine ⟨⟨Nat.le_refl _, Nat.le_refl _, (literalCode rd value).map .plain, fun _ => .outside,
    toList_pushAll _ _, fun points globals _ _ _ => .code fun i member => ?_⟩, rfl⟩
  have straight : i.written? = some rd := literalCode_writes member
  exact .outside (by cases i <;> first | rfl | cases straight) fun r same => by
    subst same
    cases straight

end Gen

end SmallC
