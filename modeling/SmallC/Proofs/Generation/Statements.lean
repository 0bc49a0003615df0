import SmallC.Generation.Statement
import SmallC.Proofs.Generation.Expressions

/-!
Statements. By induction on the statement, its code leaves the shape of the state alone. So the check at
its end finds nothing: no temporary is alive that was not before the expansion around it, and the registers
are accounted for.
-/
namespace SmallC

namespace Gen

open Allocator

variable {c : Context} {s : Shape} {code : Code} {exits : Exits}

/-! ### The end of a statement -/

/-- Leaves the shape as it was, and outside of expansions no temporary was alive. -/
def Settles (c : Context) (exits : Exits) (act : Gen Unit) : Prop :=
  ∀ s : Shape, s.Ready → (exits.inExpansion = false → s.alive = 0) → Meets c (At s) act fun _ => At s

theorem Stays.settles {act : Gen Unit} (stays : Stays c act) : Settles c exits act :=
  fun s ready _ => stays s ready

theorem At.liveTemps {a : Allocator} (before : At s a) (empty : s.alive = 0) : a.liveTemps = [] := by
  have alive := congrArg Shape.alive before.shape
  rw [empty] at alive
  rw [Allocator.liveTemps, (Multiset.coe_eq_zero _).1 alive, Allocator.sorted, List.mergeSort_nil]

theorem endStatement_settles (line : Nat) : Settles c exits (endStatement exits line) := by
  intro s ready empty
  have checked : ∀ {f : Except AllocatorFault Unit → Gen Unit}, f (.ok ()) = pure () → ∀ c p,
      At s p.allocator → (look Allocator.checkConsistency >>= f).exec c p = .ok ((), p) := by
    intro f passes c p before
    change (f p.allocator.checkConsistency).exec c p = _
    rw [before.sound.toSettled.checkConsistency, passes]
    rfl
  have temps : Meets c (At s) (look Allocator.liveTemps) fun temps a =>
      At s a ∧ (exits.inExpansion = false → temps = []) :=
    (Meets.look _).weaken (fun _ before => before) fun temps a after =>
      ⟨after.1, fun outside => after.2.trans (At.liveTemps after.1 (empty outside))⟩
  refine releaseHolds_stays.bind fun _ => .ite (fun outside => ?_) fun _ => .verified (checked rfl)
  refine temps.bind fun temps => .given fun nothing => ?_
  rw [nothing (Bool.eq_false_of_not_eq_true outside)]
  exact .verified (checked rfl)

/-! ### Levels and definitions -/

/-- What is compiled in a level of its own leaves the levels around it alone. -/
theorem block_settles {body : Gen Unit} (settles : Settles c exits body) : Settles c exits (block body) := by
  intro s ready empty
  refine (Meets.alloc (Alloc.pushLevel_opened false)).bind fun _ => ?_
  have inside : Meets c (Alloc.Opened s) body fun _ => Alloc.Opened s :=
    .of_exists fun further => .given fun plain => (settles _ (ready.opened plain) empty).weaken
      (fun _ before => before) fun _ _ after => ⟨further, after, plain⟩
  exact inside.bind fun _ => .alloc (Alloc.popLevel_closed ready)

theorem evaluate_stays (tidy : code.Tidy c) : Stays c (evaluate code) := by
  intro s ready
  have last : Meets c (At s) (do hint code.expr; releaseHolds) fun _ => At s :=
    (hint_stays _).bind fun _ => releaseHolds_stays
  refine (tidy.result s ready).bind fun v => ?_
  cases v with
  | some v => exact (free_gives v).bind fun _ => last
  | none => exact last

/-- A temporary becomes the variable, and any other value is copied. -/
theorem defineAs_stays (name : String) (ty : TypeSpec) (tidy : code.Tidy c) :
    Stays c (defineAs name ty code) := by
  intro s ready
  have last : ∀ v, Meets c (At (s.holding v)) (do
      if ← look fun a => a.isTemp v then alloc (Alloc.renameTemp v name)
      else
        let rs ← fetch v
        let rd ← alloc (Alloc.addVariable name none)
        emit (MachineInstr.move rd rs)
      hint code.expr) fun _ => At s := by
    intro v
    refine (isTemp_held v).bind fun isTemp => .given fun own => ?_
    refine .ite (fun yes => ?_) fun no => ?_
    · exact (Meets.alloc (Alloc.renameTemp_gives (own.symm.trans yes) name)).bind fun _ => hint_stays _
    · rw [Shape.holding_named (own.symm.trans (Bool.eq_false_of_not_eq_true no))]
      exact (fetch_stays v).bind fun _ =>
        (Meets.alloc (Alloc.addVariable_new_stays name)).bind fun _ =>
          (emit_stays _).bind fun _ => hint_stays _
  exact (value_yields tidy s ready).bind fun v => .ite (fun _ => last v) fun _ =>
    (convert_trades _ s).bind last

theorem initialise_stays (name : String) (ty : TypeSpec) (tidy : code.Tidy c) :
    Stays c (initialise name ty code) := by
  intro s ready
  unfold initialise
  split
  · exact (Meets.alloc (Alloc.addVariable_new_stays name)).bind fun _ =>
      loadLiteral_stays _ _
  · exact defineAs_stays name ty tidy s ready

theorem noteType_stays (name : String) (ty : TypeSpec) (hasValue : Bool) :
    Meets c (At s) (noteType name ty hasValue) fun _ => At s := by
  refine (Meets.alloc (Alloc.setKind_stays name _)).bind fun _ =>
    (Meets.alloc (Alloc.setRefs_stays name _)).bind fun _ => ?_
  have reloaded : Meets c (At s) (if name ∈ c.addressTaken then do
      alloc (Alloc.setMustReload name)
      if hasValue then alloc (Alloc.markWritten name)
    else pure () : Gen Unit) fun _ => At s :=
    .ite (fun _ => (Meets.alloc (Alloc.setMustReload_stays name)).bind fun _ =>
      .ite (fun _ => .alloc (Alloc.markWritten_stays name)) fun _ => .pure fun _ before => before)
      fun _ => .pure fun _ before => before
  exact .read (fun _ => rfl) reloaded

theorem define_stays (name : String) (ty : TypeSpec) {value : Option Code}
    (tidy : ∀ code, value = some code → code.Tidy c) : Stays c (define name ty value) := by
  intro s ready
  have last : Meets c (At s) (do noteType name ty value.isSome; releaseHolds) fun _ => At s :=
    (noteType_stays name ty _).bind fun _ => releaseHolds_stays
  cases value with
  | none => exact (Meets.alloc (Alloc.declareVariable_stays name)).bind fun _ => last
  | some code => exact (initialise_stays name ty (tidy code rfl) s ready).bind fun _ => last

theorem storeElements_stays (name : String) (kind : NumberKind) {init : List Code}
    (tidy : ∀ code ∈ init, code.Tidy c) (ready : s.Ready) (index : Nat) :
    Meets c (At s) (storeElements name kind index init) fun _ => At s := by
  induction init generalizing index with
  | nil => exact .pure fun _ before => before
  | cons element rest ih =>
    refine (value_yields (tidy _ List.mem_cons_self) s ready).bind fun v => ?_
    refine (convert_trades kind s).bind fun v => (Meets.alloc (Alloc.arrayAddress_stays name)).bind fun _ => ?_
    refine (fetch_stays v).bind fun _ => (storeWord_stays _ _ _).bind fun _ => ?_
    exact (free_gives v).bind fun _ => releaseHolds_stays.bind fun _ =>
      ih (fun code member => tidy code (List.mem_cons_of_mem _ member)) (index + 1)

theorem defineArray_stays (name : String) (ty : TypeSpec) (dims : List Nat) {init : List Code}
    (tidy : ∀ code ∈ init, code.Tidy c) : Stays c (defineArray name ty dims init) := by
  intro s ready
  have last : Meets c (At s) (do
      alloc (Alloc.setArray name (wordCount dims))
      alloc (Alloc.setDims name dims)
      alloc (Alloc.setKind name ty.kind)
      alloc (Alloc.setRefs name (ty.refs + 1))
      storeElements name ty.arithmeticKind 0 init) fun _ => At s :=
    (Meets.alloc (Alloc.setArray_stays name _)).bind fun _ =>
      (Meets.alloc (Alloc.setDims_stays name _)).bind fun _ =>
      (Meets.alloc (Alloc.setKind_stays name _)).bind fun _ =>
      (Meets.alloc (Alloc.setRefs_stays name _)).bind fun _ => storeElements_stays name _ tidy ready 0
  unfold defineArray
  dsimp only
  exact .ite (fun _ => (Meets.throw (Q := fun _ => At s) _).bind fun _ => last) fun _ => last

/-! ### Control -/

theorem testAll_stays {tests : List (Code × String)} (tidy : ∀ test ∈ tests, test.1.Tidy c) :
    Stays c (testAll tests) := by
  intro s ready
  induction tests with
  | nil => exact .pure fun _ before => before
  | cons test rest ih =>
    exact ((tidy _ List.mem_cons_self).branch test.2 s ready).bind fun _ =>
      ih fun test member => tidy test (List.mem_cons_of_mem _ member)

theorem branchBodies_settle {bodies : List (Gen Unit × String)}
    (settle : ∀ body ∈ bodies, Settles c exits body.1) (done : String) :
    Settles c exits (branchBodies done bodies) := by
  intro s ready empty
  induction bodies with
  | nil => exact .pure fun _ before => before
  | cons body rest ih =>
    have first := block_settles (settle _ List.mem_cons_self) s ready empty
    have later := ih fun body member => settle body (List.mem_cons_of_mem _ member)
    cases rest with
    | nil => exact (placeLabel_stays _).bind fun _ => first
    | cons second others =>
      exact (placeLabel_stays _).bind fun _ => first.bind fun _ => (jump_stays done).bind fun _ => later

theorem conditional_settles {branches : List (Code × Gen Unit)} {otherwise : Option (Gen Unit)}
    (tidy : ∀ branch ∈ branches, branch.1.Tidy c ∧ Settles c exits branch.2)
    (settles : ∀ body, otherwise = some body → Settles c exits body) :
    Settles c exits (conditional branches otherwise) := by
  intro s ready empty
  refine freshLabel_stays.bind fun done => (freshLabels_stays branches).bind fun labels => ?_
  have last : Meets c (At s) (do
      jump done
      branchBodies done ((branches.map Prod.snd).zip labels).reverse
      placeLabel done) fun _ => At s := by
    refine (jump_stays done).bind fun _ => (branchBodies_settle (fun body member => ?_) done s ready empty).bind
      fun _ => placeLabel_stays done
    obtain ⟨branch, inside, own⟩ := List.mem_map.1 (List.of_mem_zip (List.mem_reverse.1 member)).1
    rw [← own]
    exact (tidy branch inside).2
  refine (testAll_stays (fun test member => ?_) s ready).bind fun _ => ?_
  · obtain ⟨branch, inside, own⟩ := List.mem_map.1 (List.of_mem_zip member).1
    rw [← own]
    exact (tidy branch inside).1
  · cases otherwise with
    | some body => exact (block_settles (settles body rfl) s ready empty).bind fun _ => last
    | none => exact last

theorem whileLoop_settles {body : Exits → Gen Unit} (tidy : code.Tidy c)
    (settles : ∀ brk cont, Settles c exits (body (exits.inLoop brk cont))) :
    Settles c exits (whileLoop exits code body) := fun s ready empty =>
  freshLabel_stays.bind fun again => freshLabel_stays.bind fun test => freshLabel_stays.bind fun done =>
    (jump_stays test).bind fun _ => (placeLabel_stays again).bind fun _ =>
    (block_settles (settles done test) s ready empty).bind fun _ => (placeLabel_stays test).bind fun _ =>
    (tidy.branch again s ready).bind fun _ => placeLabel_stays done

/-- What stands in the level of a loop that has one of its own. -/
theorem loop_settles {init inside : Gen Unit} {cond step : Option Code} (first : Settles c exits init)
    (tested : ∀ code, cond = some code → code.Tidy c) (stepped : ∀ code, step = some code → code.Tidy c)
    (settles : Settles c exits inside) (again next test done : String) : Settles c exits (do
      init
      jump test
      placeLabel again
      inside
      placeLabel next
      match step with
      | some step => evaluate step
      | none => pure ()
      placeLabel test
      match cond with
      | some cond => cond.branch again
      | none => jump again
      placeLabel done) := by
  intro s ready empty
  have opened : ∀ {rest : Gen Unit}, Meets c (At s) rest (fun _ => At s) → Meets c (At s) (do
      init
      jump test
      placeLabel again
      inside
      placeLabel next
      rest) fun _ => At s := fun rest =>
    (first s ready empty).bind fun _ => (jump_stays test).bind fun _ => (placeLabel_stays again).bind fun _ =>
      (settles s ready empty).bind fun _ => (placeLabel_stays next).bind fun _ => rest
  have closed : ∀ {decision : Gen Unit}, Meets c (At s) decision (fun _ => At s) → Meets c (At s) (do
      placeLabel test
      decision
      placeLabel done) fun _ => At s := fun decision =>
    (placeLabel_stays test).bind fun _ => decision.bind fun _ => placeLabel_stays done
  cases step with
  | some step =>
    have stepped := evaluate_stays (stepped step rfl) s ready
    cases cond with
    | some cond => exact opened (stepped.bind fun _ => closed ((tested cond rfl).branch again s ready))
    | none => exact opened (stepped.bind fun _ => closed (jump_stays again))
  | none =>
    cases cond with
    | some cond => exact opened (closed ((tested cond rfl).branch again s ready))
    | none => exact opened (closed (jump_stays again))

theorem forLoop_settles {init : Gen Unit} {cond step : Option Code} {body : Exits → Gen Unit}
    (first : Settles c exits init) (tested : ∀ code, cond = some code → code.Tidy c)
    (stepped : ∀ code, step = some code → code.Tidy c)
    (settles : ∀ brk cont, Settles c exits (body (exits.inLoop brk cont))) :
    Settles c exits (forLoop exits init cond step body) := fun s ready empty =>
  freshLabel_stays.bind fun again => freshLabel_stays.bind fun next => freshLabel_stays.bind fun test =>
    freshLabel_stays.bind fun done =>
      block_settles (loop_settles first tested stepped (block_settles (settles done next)) again next test done) s ready
        empty

theorem returnFromExpansion_stays (target : ReturnTarget) {value : Option Code}
    (tidy : ∀ code, value = some code → code.Tidy c) : Stays c (returnFromExpansion target value) := by
  intro s ready
  cases value with
  | some code =>
    exact (assignCode_stays isTempName_resultName (tidy code rfl) s ready).bind fun _ =>
      (hint_stays _).bind fun _ =>
        (modify_stays (f := fun p => { p with returned := true }) fun _ => rfl).bind fun _ =>
          jump_stays target.label
  | none => exact jump_stays target.label

theorem returnFromFunction_stays (target : ReturnTarget) {value : Option Code}
    (tidy : ∀ code, value = some code → code.Tidy c) : Stays c (returnFromFunction target value) := by
  intro s ready
  cases value with
  | some code =>
    exact (value_yields (tidy code rfl) s ready).bind fun _ => (convert_trades _ s).bind fun v =>
      (fetch_stays v).bind fun _ => (emit_stays _).bind fun _ => (free_gives v).bind fun _ =>
      releaseHolds_stays.bind fun _ => jump_stays target.label
  | none => exact jump_stays target.label

theorem leave_stays (line : Nat) {value : Option Code} (tidy : ∀ code, value = some code → code.Tidy c) :
    Stays c (leave exits line value) := by
  intro s ready
  unfold leave
  cases exits.ret with
  | none => exact .fail _ _
  | some target =>
    exact .ite (fun _ => returnFromExpansion_stays target tidy s ready)
      fun _ => returnFromFunction_stays target tidy s ready

theorem leaveFor_stays (label : Option String) (line : Nat) (fault : SemanticFault) :
    Stays c (leaveFor label line fault) := by
  intro s _
  cases label with
  | some label => exact jump_stays label
  | none => exact .fail _ _

/-! ### Assembly blocks -/

/-- The state inside of an assembly block, which has some registers reserved. -/
def Reserving (s : Shape) (a : Allocator) : Prop := ∃ regs, At { s with reserved := regs } a

theorem At.reserving {a : Allocator} (before : At s a) : Reserving s a := ⟨s.reserved, before⟩

/-- What leaves every shape alone leaves the registers reserved that are. -/
theorem reserving_stays {α : Type} {act : Gen α} (stays : ∀ s, Meets c (At s) act fun _ => At s) :
    Meets c (Reserving s) act fun _ => Reserving s :=
  .of_exists fun regs => (stays _).weaken (fun _ before => before) fun _ _ after => ⟨regs, after⟩

theorem reserve_reserving (r : Reg) :
    Alloc.Leads (Reserving s) (do Alloc.reserve r; Alloc.hold r) fun _ => Reserving s := by
  have reserves : Alloc.Leads (Reserving s) (Alloc.reserve r) fun _ => Reserving s := by
    rintro w _ w' ⟨regs, before⟩ ran
    obtain ⟨sound, calls⟩ := Alloc.reserve_sound before.sound before.idle ran
    have shape := (Alloc.shape_reserve before.sound ran).1
    rw [before.shape] at shape
    exact ⟨_, sound, calls.trans before.idle, shape⟩
  refine reserves.bind fun _ => ?_
  rintro w x w' ⟨regs, before⟩ ran
  exact ⟨regs, Alloc.hold_stays r w x w' before ran⟩

theorem bindOperands_stays (line : Nat) (bound : List (String × Reg)) (names : List String) :
    Meets c (At s) (bindOperands line bound names) fun _ => At s := by
  induction names generalizing bound with
  | nil => exact .pure fun _ before => before
  | cons name rest ih =>
    exact .ite (fun _ => ih bound) fun _ => (look_stays _).bind fun _ => .refuse fun _ =>
      (fetch_stays name).bind fun r => ih _

/-- Naming the registers of an instruction anew does what naming each of them does. -/
theorem rename_stays {P : Allocator → Prop} {reg : Operand → Gen Reg}
    (stays : ∀ o, Meets c P (reg o) fun _ => P) (target : String → Target) (i : Instr Operand String) :
    Meets c P (i.rename reg target) fun _ => P := by
  cases i with
  | alu op rd rs rt =>
    exact (stays rd).bind fun _ => (stays rs).bind fun _ => (stays rt).bind fun _ => .pure fun _ after => after
  | shift _ rd rs _ | addi rd rs _ | sw rd rs _ | lw rd rs _ | branch _ rd rs _ =>
    exact (stays rd).bind fun _ => (stays rs).bind fun _ => .pure fun _ after => after
  | jr rd | testlog rd => exact (stays rd).bind fun _ => .pure fun _ after => after
  | jump | setx => exact .pure fun _ after => after

theorem emitLine_stays {P : Allocator → Prop} (bound : List (String × Reg)) (rename : String → String)
    (l : AsmLine) : Meets c P (emitLine bound rename l) fun _ => P := by
  have register : ∀ o, Meets c P (operandRegister bound o) fun _ => P := fun o => by
    unfold operandRegister
    split
    · exact .pure fun _ before => before
    · split
      · exact .pure fun _ before => before
      · exact .throw _
  have lowered : Meets c P (l.lower (operandRegister bound) rename) fun _ => P := by
    unfold AsmLine.lower
    split
    · exact rename_stays register _ _
    · exact .pure fun _ before => before
  exact lowered.bind fun _ => draft_stays _

theorem noteWritten_stays (l : AsmLine) : Meets c (At s) (noteWritten l) fun _ => At s := by
  unfold noteWritten
  split
  · exact .alloc (Alloc.markWritten_stays _)
  · exact .pure fun _ before => before

theorem nextBlock_stays {P : Allocator → Prop} : Meets c P nextBlock fun _ => P :=
  .quiet (g := fun p => (p.asmBlocks, { p with asmBlocks := p.asmBlocks + 1 }))
    (fun _ _ => rfl) (fun _ => rfl) fun _ _ before => before

/-- The registers that an assembly block takes out of circulation come back at its end. -/
theorem asmBlock_stays (line : Nat) (text : String) : Stays c (asmBlock line text) := by
  intro s ready
  unfold asmBlock
  split
  · exact .throw _
  · next lines _ =>
    refine nextBlock_stays.bind fun block => ?_
    have last : ∀ own, Meets c (At s) (do
        (namedRegisters lines).forM fun r => alloc do
          Alloc.reserve r
          Alloc.hold r
        let bound ← bindOperands line [] (lines.flatMap AsmLine.names)
        lines.forM (emitLine bound (blockLabel own block))
        lines.forM noteWritten
        releaseHolds
        alloc Alloc.unreserveAll) fun _ => At s := by
      intro own
      refine Meets.weaken (P := Reserving s) (Q := fun _ => At s) ?_ (fun _ before => At.reserving before)
        fun _ _ after => after
      refine (Meets.forM (I := fun _ => Reserving s) _ fun r _ _ => .alloc (reserve_reserving r)).bind
        fun _ => ?_
      refine (reserving_stays fun s => bindOperands_stays line [] _).bind fun bound => ?_
      refine (Meets.forM (I := fun _ => Reserving s) _ fun l _ _ => emitLine_stays bound _ l).bind fun _ => ?_
      refine (Meets.forM (I := fun _ => Reserving s) _ fun l _ _ =>
        reserving_stays fun s => noteWritten_stays l).bind fun _ => ?_
      refine (reserving_stays fun s => releaseHolds_stays).bind fun _ => .of_exists fun regs => ?_
      have frees := Alloc.unreserveAll_frees s regs
      rw [← ready.unreserved] at frees
      exact .alloc frees
    have started : ∀ own, Meets c (At s) (do
        if hasControlFlow lines then sync
        (namedRegisters lines).forM fun r => alloc do
          Alloc.reserve r
          Alloc.hold r
        let bound ← bindOperands line [] (lines.flatMap AsmLine.names)
        lines.forM (emitLine bound (blockLabel own block))
        lines.forM noteWritten
        releaseHolds
        alloc Alloc.unreserveAll) fun _ => At s := fun own => .either sync_stays (last own)
    exact .read (fun _ => rfl) (started ((definedLabels lines).filter fun label =>
      (c.functions.lookup label).isNone))

end Gen

end SmallC
