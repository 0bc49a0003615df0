import SmallC.Proofs.Generation.Frames
import SmallC.Proofs.Generation.Labelling

/-!
The labels of statements and of whole sources without inline assembly. A statement binds the labels that it hands
out, on whatever paths control leaves it, and a function its own name besides. So a source binds the names of its
compiled functions and every label that was handed out, each once, and refers to nothing else but functions that
it calls.
-/
namespace SmallC

namespace Stmt

mutual

/-- Whether no assembly is inlined in a statement. -/
def isAsmFree : Stmt → Bool
  | expr _ => true
  | define .. => true
  | array .. => true
  | function _ _ _ _ (some body) _ => areAsmFree body
  | function _ _ _ _ none _ => true
  | conditional _ branches (some otherwise) => areAsmFreeBranches branches && areAsmFree otherwise
  | conditional _ branches none => areAsmFreeBranches branches
  | whileLoop _ _ body => areAsmFree body
  | forLoop _ (some init) _ _ body => init.isAsmFree && areAsmFree body
  | forLoop _ none _ _ body => areAsmFree body
  | returns .. => true
  | breaks _ => true
  | continues _ => true
  | asm .. => false
  | group _ body => areAsmFree body

/-- Whether no assembly is inlined in several statements. -/
def areAsmFree : List Stmt → Bool
  | [] => true
  | s :: rest => s.isAsmFree && areAsmFree rest

/-- Whether no assembly is inlined in several branches. -/
def areAsmFreeBranches : List Branch → Bool
  | [] => true
  | .mk _ body :: rest => areAsmFree body && areAsmFreeBranches rest

end

/-- The name of a function that is compiled where it stands. -/
def compiledName? : Stmt → Option String
  | function _ name _ _ (some _) false => some name
  | _ => none

end Stmt

/-- Whether no assembly is inlined in a function. -/
def Function.isAsmFree (f : Function) : Bool := f.body.all Stmt.areAsmFree

namespace Gen

open Alloc

variable {c : Context} {calls : CallCode} {exits : Exits} {code : Code} {known : List String}

/-! ### Statements -/

/-- Owes no label, if the labels that it can leave for are known. -/
def ClosesIn (c : Context) (exits : Exits) (act : Gen Unit) : Prop :=
  ∀ known, (∀ l ∈ exits.labels, l ∈ known) → Closes c known act

theorem endStatement_closes (line : Nat) : Closes c known (endStatement exits line) := by
  have checked {f : Except AllocatorFault Unit → Gen Unit} (decides : ∀ found, Closes c known (f found)) :
      Closes c known (do if (← read).verifies then look Allocator.checkConsistency >>= f) :=
    .read (.ite ((Binds.look _).bind fun found => decides found) (.pure _))
  refine releaseHolds_closes.bind fun _ => .ite ((Binds.look _).bind fun _ => .ite ?_ ?_) ?_
  · refine .read (.ite (.throw _) ?_)
    refine (Binds.alloc straight_discardTemps).bind fun _ => checked fun found => ?_
    cases found with
    | ok _ => exact .pure _
    | error fault => exact .throw _
  all_goals
    refine checked fun found => ?_
    cases found with
    | ok _ => exact .pure _
    | error fault => exact .throw _

theorem evaluate_closes (closes : code.Closes c) : Closes c known (evaluate code) := by
  have last : Closes c known (do hint code.expr; releaseHolds) := (hint_closes _).bind fun _ => releaseHolds_closes
  refine (closes.result known).bind fun v => ?_
  cases v with
  | some v => exact (free_closes v).bind fun _ => last
  | none => exact last

theorem block_binds {owed : Multiset String} {body : Gen Unit} (binds : Binds c known owed body) :
    Binds c known owed (block body) :=
  (Binds.alloc (.change _)).bind fun _ => binds.thenClose fun _ => .alloc straight_popLevel

theorem defineAs_closes (name : String) (ty : TypeSpec) (closes : code.Closes c) :
    Closes c known (defineAs name ty code) := by
  have last : ∀ v, Closes c known (do
      if ← look fun a => a.isTemp v then alloc (Alloc.renameTemp v name)
      else
        let rs ← fetch v
        let rd ← alloc (Alloc.addVariable name none)
        emit (MachineInstr.move rd rs)
      hint code.expr) := fun v => (Binds.look _).bind fun _ =>
    .ite ((Binds.alloc straight_renameTemp).bind fun _ => hint_closes _) <| (fetch_closes v).bind fun _ =>
      (Binds.alloc straight_addVariable).bind fun _ => (Binds.emit rfl).bind fun _ => hint_closes _
  exact (value_closes closes).bind fun v => .ite (last v) ((convert_closes v _).bind fun v => last v)

theorem initialise_closes (name : String) (ty : TypeSpec) (closes : code.Closes c) :
    Closes c known (initialise name ty code) := by
  unfold initialise
  split
  · exact (Binds.alloc straight_addVariable).bind fun _ => loadLiteral_closes _ _
  · exact defineAs_closes name ty closes

theorem noteType_closes (name : String) (ty : TypeSpec) (hasValue : Bool) :
    Closes c known (noteType name ty hasValue) :=
  (setKind_closes name _).bind fun _ => (setRefs_closes name _).bind fun _ => .read <|
    .ite ((Binds.alloc straight_note).bind fun _ => .ite (markWritten_closes name) (.pure _)) (.pure _)

theorem define_closes (name : String) (ty : TypeSpec) {value : Option Code}
    (closes : ∀ code, value = some code → code.Closes c) : Closes c known (define name ty value) := by
  have last : Closes c known (do noteType name ty value.isSome; releaseHolds) :=
    (noteType_closes name ty _).bind fun _ => releaseHolds_closes
  cases value with
  | none => exact (Binds.alloc straight_declareVariable).bind fun _ => last
  | some code => exact (initialise_closes name ty (closes code rfl)).bind fun _ => last

theorem storeElements_closes (name : String) (kind : NumberKind) (index : Nat) {init : List Code}
    (closes : ∀ code ∈ init, code.Closes c) : Closes c known (storeElements name kind index init) := by
  induction init generalizing index with
  | nil => exact .pure _
  | cons code rest ih =>
    exact (value_closes (closes _ List.mem_cons_self)).bind fun _ => (convert_closes _ _).bind fun v =>
      (Binds.alloc straight_arrayAddress).bind fun _ => (fetch_closes v).bind fun _ =>
        (storeWord_closes _ _ _).bind fun _ => (free_closes v).bind fun _ => releaseHolds_closes.bind fun _ =>
          ih _ fun code member => closes code (List.mem_cons_of_mem _ member)

theorem defineArray_closes (name : String) (ty : TypeSpec) (dims : List Nat) {init : List Code}
    (closes : ∀ code ∈ init, code.Closes c) : Closes c known (defineArray name ty dims init) := by
  have last : Closes c known (do
      alloc (Alloc.setArray name (wordCount dims))
      alloc (Alloc.setDims name dims)
      alloc (Alloc.setKind name ty.kind)
      alloc (Alloc.setRefs name (ty.refs + 1))
      storeElements name ty.arithmeticKind 0 init) :=
    (Binds.alloc straight_setArray).bind fun _ => (Binds.alloc straight_note).bind fun _ =>
      (setKind_closes name _).bind fun _ => (setRefs_closes name _).bind fun _ => storeElements_closes name _ 0 closes
  unfold defineArray
  dsimp only
  split
  · exact .throw _
  · exact last

theorem testAll_closes {tests : List (Code × String)}
    (closes : ∀ test ∈ tests, test.1.Closes c ∧ test.2 ∈ known) : Closes c known (testAll tests) := by
  induction tests with
  | nil => exact .pure _
  | cons test rest ih =>
    obtain ⟨first, inside⟩ := closes _ List.mem_cons_self
    exact (first.branch known test.2 inside).bind fun _ => ih fun test member =>
      closes test (List.mem_cons_of_mem _ member)

/-- Every body stands behind its label. -/
theorem branchBodies_binds {done : String} {bodies : List (Gen Unit × String)} (end' : done ∈ known)
    (closes : ∀ body ∈ bodies, Closes c known body.1) :
    Binds c known (bodies.map Prod.snd : List String) (branchBodies done bodies) := by
  induction bodies with
  | nil => exact .pure _
  | cons body rest ih =>
    have first := closes _ List.mem_cons_self
    have later := ih fun body member => closes body (List.mem_cons_of_mem _ member)
    cases rest with
    | nil => exact (Binds.placeLabel body.2).append fun _ => block_binds first
    | cons second others =>
      exact (Binds.placeLabel body.2).append fun _ => (block_binds first).bind fun _ => (Binds.jump end').bind fun _ =>
        later

theorem conditional_closes {branches : List (Code × Gen Unit)} {otherwise : Option (Gen Unit)}
    (closes : ∀ branch ∈ branches, branch.1.Closes c ∧ ClosesIn c exits branch.2)
    (otherwise' : ∀ body, otherwise = some body → ClosesIn c exits body) :
    ClosesIn c exits (conditional branches otherwise) := by
  intro known around
  refine .freshLabel fun done => .freshLabels fun labels length => ?_
  have around' : ∀ l ∈ exits.labels, l ∈ labels ++ done :: known := fun l member => by
    simp [around l member]
  have end' : done ∈ labels ++ done :: known := by simp
  have last : Binds c (labels ++ done :: known) (labels + done ::ₘ 0) (do
      jump done
      branchBodies done ((branches.map Prod.snd).zip labels).reverse
      placeLabel done) := by
    have bodies : Binds c (labels ++ done :: known)
        ((((branches.map Prod.snd).zip labels).reverse.map Prod.snd : List String) : Multiset String)
        (branchBodies done ((branches.map Prod.snd).zip labels).reverse) :=
      branchBodies_binds end' fun body member => by
        obtain ⟨branch, inside, own⟩ := List.mem_map.1 (List.of_mem_zip (List.mem_reverse.1 member)).1
        rw [← own]
        exact (closes branch inside).2 _ around'
    rw [List.map_reverse, List.map_snd_zip (by rw [length, List.length_map]), Multiset.coe_reverse] at bodies
    exact (Binds.jump end').bind fun _ => bodies.append fun _ => .placeLabel done
  refine (testAll_closes fun test member => ?_).bind fun _ => ?_
  · obtain ⟨first, second⟩ := List.of_mem_zip member
    obtain ⟨branch, inside, own⟩ := List.mem_map.1 first
    rw [← own]
    exact ⟨(closes branch inside).1, List.mem_append_left _ second⟩
  · cases otherwise with
    | some body => exact (block_binds (otherwise' body rfl _ around')).bind fun _ => last
    | none => exact last

theorem whileLoop_closes {body : Exits → Gen Unit} (closes : code.Closes c)
    (within : ∀ brk cont, ClosesIn c (exits.inLoop brk cont) (body (exits.inLoop brk cont))) :
    ClosesIn c exits (whileLoop exits code body) := by
  intro known around
  refine .freshLabel fun again => .freshLabel fun test => .freshLabel fun done => ?_
  have around' : ∀ l ∈ exits.labels, l ∈ done :: test :: again :: known := fun l member => by
    simp [around l member]
  have again' : again ∈ done :: test :: again :: known := by simp
  have test' : test ∈ done :: test :: again :: known := by simp
  have done' : done ∈ done :: test :: again :: known := by simp
  have order : done ::ₘ test ::ₘ again ::ₘ 0 = again ::ₘ test ::ₘ done ::ₘ (0 : Multiset String) := by
    simp only [← Multiset.singleton_add]
    abel
  rw [order]
  exact (Binds.jump test').bind fun _ => .placing <|
    (block_binds (within done test _ (labels_inLoop around' done' test'))).bind fun _ => .placing <|
      (closes.branch _ again again').bind fun _ => .placeLabel done

theorem forLoop_closes {init : Gen Unit} {cond step : Option Code} {body : Exits → Gen Unit}
    (first : ClosesIn c exits init) (tested : ∀ code, cond = some code → code.Closes c)
    (stepped : ∀ code, step = some code → code.Closes c)
    (within : ∀ brk cont, ClosesIn c (exits.inLoop brk cont) (body (exits.inLoop brk cont))) :
    ClosesIn c exits (forLoop exits init cond step body) := by
  intro known around
  refine .freshLabel fun again => .freshLabel fun next => .freshLabel fun test => .freshLabel fun done => ?_
  have around' : ∀ l ∈ exits.labels, l ∈ done :: test :: next :: again :: known := fun l member => by
    simp [around l member]
  have again' : again ∈ done :: test :: next :: again :: known := by simp
  have next' : next ∈ done :: test :: next :: again :: known := by simp
  have test' : test ∈ done :: test :: next :: again :: known := by simp
  have done' : done ∈ done :: test :: next :: again :: known := by simp
  have order : done ::ₘ test ::ₘ next ::ₘ again ::ₘ 0 =
      again ::ₘ next ::ₘ test ::ₘ done ::ₘ (0 : Multiset String) := by
    simp only [← Multiset.singleton_add]
    abel
  rw [order]
  have closed : ∀ {decision : Gen Unit}, Closes c (done :: test :: next :: again :: known) decision →
      Binds c (done :: test :: next :: again :: known) (test ::ₘ done ::ₘ 0) (do
        placeLabel test
        decision
        placeLabel done) := fun decision => .placing <| decision.bind fun _ => .placeLabel done
  refine block_binds <| (first _ around').bind fun _ => (Binds.jump test').bind fun _ => .placing <|
    (block_binds (within done next _ (labels_inLoop around' done' next'))).bind fun _ => .placing ?_
  cases step with
  | some step =>
    have stepped : Closes c (done :: test :: next :: again :: known) (evaluate step) :=
      evaluate_closes (stepped step rfl)
    cases cond with
    | some cond => exact stepped.bind fun _ => closed ((tested cond rfl).branch _ again again')
    | none => exact stepped.bind fun _ => closed (.jump again')
  | none =>
    cases cond with
    | some cond => exact closed ((tested cond rfl).branch _ again again')
    | none => exact closed (.jump again')

theorem leave_closes (line : Nat) {value : Option Code} (closes : ∀ code, value = some code → code.Closes c) :
    ClosesIn c exits (leave exits line value) := by
  intro known around
  unfold leave
  cases target : exits.ret with
  | none => exact .fail _ _
  | some target' =>
    have end' : target'.label ∈ known := around _ (by simp [Exits.labels, target])
    refine .ite ?_ ?_
    · cases value with
      | some code =>
        exact (assignCode_closes _ (closes code rfl)).bind fun _ => (hint_closes _).bind fun _ =>
          (modify_closes (f := fun p => { p with returned := true }) fun _ => rfl).bind fun _ => .jump end'
      | none => exact .jump end'
    · cases value with
      | some code =>
        exact (value_closes (closes code rfl)).bind fun _ => (convert_closes _ _).bind fun v =>
          (fetch_closes v).bind fun _ => (Binds.emit rfl).bind fun _ => (free_closes v).bind fun _ =>
            releaseHolds_closes.bind fun _ => .jump end'
      | none => exact .jump end'

theorem leaveFor_closes {label : Option String} (line : Nat) (fault : SemanticFault)
    (inside : ∀ l, label = some l → l ∈ known) : Closes c known (leaveFor label line fault) := by
  cases label with
  | some l => exact .jump (inside l rfl)
  | none => exact .fail _ _

theorem optional_closes (calls' : calls.Closes c) {value : Option Expr} :
    ∀ code, value.map (Gen.code calls) = some code → code.Closes c := by
  intro code is
  obtain ⟨e, rfl, rfl⟩ := Option.map_eq_some_iff.1 is
  exact code_closes calls' e

mutual

/-- A statement that is no function binds the labels that it hands out. -/
theorem statement_closes (calls' : calls.Closes c) (exits : Exits) :
    ∀ s : Stmt, s.Proper → s.isAsmFree = true → ClosesIn c exits (statement calls exits s)
  | .expr e, _, _ => by
    rw [statement]
    exact fun _ _ => evaluate_closes (code_closes calls' e)
  | .define line name ty value, _, _ => by
    rw [statement]
    exact fun _ _ => define_closes name ty (optional_closes calls')
  | .array line name ty dims init, _, _ => by
    rw [statement]
    exact fun _ _ => defineArray_closes name ty dims (codes_closes calls' init)
  | .function line name ret params body isInline, proper, _ => by
    rw [Stmt.Proper] at proper
    rw [proper]
    simp only [statement]
    exact fun _ _ => .pure _
  | .conditional line branches (some otherwise), proper, free => by
    rw [Stmt.Proper] at proper
    rw [Stmt.isAsmFree, Bool.and_eq_true] at free
    rw [statement]
    exact conditional_closes (branchCodes_close calls' exits branches proper.1 free.1) fun body is => by
      cases is
      exact statements_close calls' exits otherwise proper.2 free.2
  | .conditional line branches none, proper, free => by
    rw [Stmt.Proper] at proper
    rw [Stmt.isAsmFree] at free
    rw [statement]
    exact conditional_closes (branchCodes_close calls' exits branches proper free) fun _ is => by cases is
  | .whileLoop line cond body, proper, free => by
    rw [Stmt.Proper] at proper
    rw [Stmt.isAsmFree] at free
    rw [statement]
    exact whileLoop_closes (code_closes calls' cond) fun brk cont =>
      statements_close calls' (exits.inLoop brk cont) body proper.2 free
  | .forLoop line (some init) cond step body, proper, free => by
    rw [Stmt.Proper] at proper
    rw [Stmt.isAsmFree, Bool.and_eq_true] at free
    rw [statement]
    exact forLoop_closes (fun known around => (statement_closes calls' exits init proper.1 free.1 known around).bind
      fun _ => releaseHolds_closes) (optional_closes calls') (optional_closes calls') fun brk cont =>
        statements_close calls' (exits.inLoop brk cont) body proper.2.2.2 free.2
  | .forLoop line none cond step body, proper, free => by
    rw [Stmt.Proper] at proper
    rw [Stmt.isAsmFree] at free
    rw [statement]
    exact forLoop_closes (fun _ _ => .pure _) (optional_closes calls') (optional_closes calls') fun brk cont =>
      statements_close calls' (exits.inLoop brk cont) body proper.2.2 free
  | .returns line value, _, _ => by
    rw [statement]
    exact leave_closes line (optional_closes calls')
  | .breaks line, _, _ => by
    rw [statement]
    exact fun _ around => leaveFor_closes line _ fun l is => around l (by simp [Exits.labels, is])
  | .continues line, _, _ => by
    rw [statement]
    exact fun _ around => leaveFor_closes line _ fun l is => around l (by simp [Exits.labels, is])
  | .asm line text, _, free => by
    rw [Stmt.isAsmFree] at free
    cases free
  | .group line body, proper, free => by
    rw [Stmt.Proper] at proper
    rw [Stmt.isAsmFree] at free
    rw [statement]
    exact fun known around => block_binds (statements_close calls' exits body proper free known around)

theorem statements_close (calls' : calls.Closes c) (exits : Exits) :
    ∀ body : List Stmt, Stmt.AllProper body → Stmt.areAsmFree body = true →
      ClosesIn c exits (statements calls exits body)
  | [], _, _ => by
    rw [statements]
    exact fun _ _ => .pure _
  | s :: rest, proper, free => by
    rw [Stmt.AllProper] at proper
    rw [Stmt.areAsmFree, Bool.and_eq_true] at free
    rw [statements]
    exact fun known around => (statement_closes calls' exits s proper.1 free.1 known around).bind fun _ =>
      (endStatement_closes s.line).bind fun _ => statements_close calls' exits rest proper.2 free.2 known around

theorem branchCodes_close (calls' : calls.Closes c) (exits : Exits) :
    ∀ branches : List Branch, Stmt.BranchesProper branches → Stmt.areAsmFreeBranches branches = true →
      ∀ branch ∈ branchCodes calls exits branches, branch.1.Closes c ∧ ClosesIn c exits branch.2
  | [], _, _ => by
    rw [branchCodes]
    exact fun _ member => by cases member
  | .mk cond body :: rest, proper, free => by
    rw [Stmt.BranchesProper] at proper
    rw [Stmt.areAsmFreeBranches, Bool.and_eq_true] at free
    rw [branchCodes]
    exact List.forall_mem_cons.2 ⟨⟨code_closes calls' cond, statements_close calls' exits body proper.2.1 free.1⟩,
      branchCodes_close calls' exits rest proper.2.2 free.2⟩

end

/-- The label behind the body is all that a function body can leave for. -/
theorem labels_ofFunction {done : String} {ret : TypeSpec} {isExpansion : Bool} (inside : done ∈ known) :
    ∀ l ∈ (Exits.ofFunction done ret isExpansion).labels, l ∈ known := by
  intro l member
  simp only [Exits.labels, Exits.ofFunction, Option.map_some, Option.toList_some, Option.toList_none,
    List.append_nil, List.mem_singleton] at member
  rwa [member]

/-- Calls owe no label, however many functions may still be expanded. -/
theorem calls_close (proper : c.Proper) (free : ∀ f ∈ c.functions, f.2.isAsmFree = true) (active : List String)
    (levels : Nat) : (Gen.calls active levels).Closes c := by
  induction levels generalizing active with
  | zero =>
    rw [Gen.calls]
    exact call_closes fun _ _ _ _ _ _ _ _ _ => .fail _ _
  | succ levels ih =>
    rw [Gen.calls]
    refine call_closes fun known line name f body args declared has closes => .ite (.fail _ _) ?_
    have member : (name, f) ∈ c.functions := by
      obtain ⟨before, after, split, -⟩ := List.lookup_eq_some_iff.1 declared
      rw [split]
      exact List.mem_append_right before List.mem_cons_self
    have free' : Stmt.areAsmFree body = true := by
      have whole := free _ member
      rw [Function.isAsmFree, has] at whole
      exact whole
    exact expand_closes closes fun known done inside => statements_close (ih (name :: active)) _ body
      ((proper name f member).body body has) free' known (labels_ofFunction inside)

/-! ### Functions and sources -/

theorem loadParams_closes (slot : Nat) (params : List Param) : Closes c known (loadParams slot params) := by
  induction params generalizing slot with
  | nil => exact .pure _
  | cons param rest ih => exact (Binds.alloc straight_addVariable).bind fun _ => (Binds.emit rfl).bind fun _ => ih _

theorem enter_closes (params : List Param) : Closes c known (enter params) :=
  (loadParams_closes 0 _).bind fun _ => .get fun _ => (Binds.emit rfl).bind fun _ =>
    (Binds.forM fun _ _ => .alloc (.bind straight_addVariable fun _ => .pure _)).bind fun _ =>
      (Binds.forM fun _ _ => noteType_closes _ _ _).bind fun _ => releaseHolds_closes.bind fun _ => .pure _

/-- A function binds its own name. -/
theorem function_binds (name : String) (ret : TypeSpec) (params : List Param) {body : Exits → Gen Unit}
    (within : ∀ known done, done ∈ known → Closes c known (body (Exits.ofFunction done ret false))) :
    Binds c known (name ::ₘ 0) (function name ret params body) := by
  refine .freshLabel fun behind => .freshLabel fun done => ?_
  have order : done ::ₘ behind ::ₘ name ::ₘ 0 = {name} + done ::ₘ behind ::ₘ (0 : Multiset String) := by
    simp only [← Multiset.singleton_add]
    abel
  rw [order]
  refine (Binds.jump (by simp)).bind fun _ => (Binds.bindLabel name).append fun _ => ?_
  refine (Binds.alloc straight_enterFunction).bind fun _ => (enter_closes params).bind fun entry => ?_
  refine (within _ done (by simp)).bind fun _ => .placing <| .get fun p => (Binds.emit rfl).bind fun _ => ?_
  have last : Binds c (done :: behind :: known) (behind ::ₘ 0) (do
      emit (.jr Reg.returnAddress)
      draft fun d => d.placeLabel behind) := (Binds.emit rfl).bind fun _ => .bindLabel behind
  exact (Binds.alloc straight_leaveFunction).bind fun frame =>
    .ite ((Binds.patch rfl).bind fun _ => (Binds.patch rfl).bind fun _ => last) last

/-- A statement of the top level owes its own name if it is a compiled function, and nothing else. -/
theorem rootStatement_binds (calls' : calls.Closes c) (st : Stmt) (proper : st.RootProper) (free : st.isAsmFree = true) :
    Binds c [] (st.compiledName?.toList : List String) (statement calls Exits.none st) := by
  have closes : st.Proper → Closes c [] (statement calls Exits.none st) := fun proper =>
    statement_closes calls' Exits.none st proper free [] fun _ member => member
  match st, proper, free, closes with
  | .function line name ret params (some body) false, proper, free, _ =>
    rw [statement]
    exact function_binds name ret params fun known done inside =>
      statements_close calls' _ body (proper.body body rfl) free known (labels_ofFunction inside)
  | .function line name ret params (some body) true, _, _, _
  | .function line name ret params none _, _, _, _ =>
    simp only [statement]
    exact .pure _
  | .expr .., proper, _, closes | .define .., proper, _, closes | .array .., proper, _, closes
  | .conditional .., proper, _, closes | .whileLoop .., proper, _, closes | .forLoop .., proper, _, closes
  | .returns .., proper, _, closes | .breaks .., proper, _, closes | .continues .., proper, _, closes
  | .asm .., proper, _, closes | .group .., proper, _, closes => exact closes proper

theorem rootStatements_bind (calls' : calls.Closes c) {unit : List Stmt} (proper : ∀ st ∈ unit, st.RootProper)
    (free : Stmt.areAsmFree unit = true) :
    Binds c [] (unit.filterMap Stmt.compiledName? : List String) (statements calls Exits.none unit) := by
  induction unit with
  | nil =>
    rw [statements]
    exact .pure _
  | cons st rest ih =>
    rw [Stmt.areAsmFree, Bool.and_eq_true] at free
    rw [statements]
    have owed : ((st :: rest).filterMap Stmt.compiledName? : List String) =
        st.compiledName?.toList ++ rest.filterMap Stmt.compiledName? := by
      rw [List.filterMap_cons]
      cases st.compiledName? <;> rfl
    rw [owed, ← Multiset.coe_add]
    exact (rootStatement_binds calls' st (proper st List.mem_cons_self) free.1).append fun _ =>
      (endStatement_closes st.line).bind fun _ => ih (fun st member => proper st (List.mem_cons_of_mem _ member)) free.2

/-- A source binds the names of its compiled functions and the labels that are handed out. -/
theorem source_binds (functions : c.Proper) (asmFree : ∀ f ∈ c.functions, f.2.isAsmFree = true) {unit : List Stmt}
    (proper : ∀ st ∈ unit, st.RootProper) (free : Stmt.areAsmFree unit = true) (stackTop : Int) :
    Binds c [] (unit.filterMap Stmt.compiledName? : List String) (source stackTop unit) :=
  (loadLiteral_closes _ _).bind fun _ => .read (rootStatements_bind (calls_close functions asmFree [] _) proper free)

end Gen

end SmallC
