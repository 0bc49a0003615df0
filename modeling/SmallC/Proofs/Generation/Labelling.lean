import SmallC.Proofs.Generation.Binding
import SmallC.Proofs.Generation.Balancing

/-!
The labels of expressions. By induction on the expression, its code binds every label that is handed out for it
and refers to no other, apart from the label that a condition branches to and the functions that it calls.
-/
namespace SmallC

namespace Gen

open Alloc

variable {c : Context} {known : List String} {l r v : String}

/-! ### Values -/

theorem newTemp_closes (kind : NumberKind) (refs : Nat) : Closes c known (newTemp kind refs) :=
  .alloc <| .bind straight_addTemp fun _ => .bind straight_getRegister fun _ => .bind straight_note fun _ =>
    .bind straight_note fun _ => .pure _

theorem fetch_closes (v : String) : Closes c known (fetch v) := .alloc straight_getRegister

theorem free_closes (v : String) : Closes c known (free v) := .alloc straight_removeIfTemp

theorem releaseHolds_closes : Closes c known releaseHolds := .alloc (.change _)

theorem kind_closes (v : String) : Closes c known (alloc (Alloc.kind v)) := .alloc straight_reads

theorem refs_closes (v : String) : Closes c known (alloc (Alloc.refs v)) := .alloc straight_reads

theorem setKind_closes (v : String) (kind : NumberKind) : Closes c known (alloc (Alloc.setKind v kind)) :=
  .alloc straight_note

theorem setRefs_closes (v : String) (refs : Nat) : Closes c known (alloc (Alloc.setRefs v refs)) :=
  .alloc straight_note

theorem arithmeticKind_closes (v : String) : Closes c known (arithmeticKind v) :=
  (refs_closes v).bind fun _ => .ite (.pure _) (kind_closes v)

theorem elementKind_closes (v : String) : Closes c known (elementKind v) :=
  (refs_closes v).bind fun _ => .ite (.pure _) (kind_closes v)

theorem hint_closes (e : Expr) : Closes c known (hint e) := by
  cases e with
  | var line name occurrence => exact .read (.ite (.alloc straight_demote) (.pure _))
  | int | fixed | binary | assign | unary | call | index => exact .pure _

theorem target?_of_written {i : MachineInstr} {rd : Reg} (written : i.written? = some rd) : i.target? = none := by
  cases i <;> first | rfl | cases written

theorem loadLiteral_closes (rd : Reg) (value : Int) : Closes c known (loadLiteral rd value) :=
  .emitAll fun _ member => target?_of_written (literalCode_writes member)

theorem literal_closes (value : Int) (kind : NumberKind) : Closes c known (literal value kind) :=
  (newTemp_closes kind 0).bind fun _ => (loadLiteral_closes _ value).bind fun _ => releaseHolds_closes.bind fun _ =>
    .pure _

theorem shifted_closes (direction : ShiftDirection) (v : String) (amount : Nat) (kind : NumberKind) (refs : Nat) :
    Closes c known (shifted direction v amount kind refs) :=
  (fetch_closes v).bind fun rs => (free_closes v).bind fun _ => (newTemp_closes kind refs).bind fun temp =>
    (Binds.emit (by cases direction <;> rfl)).bind fun _ => releaseHolds_closes.bind fun _ => .pure _

theorem convert_closes (v : String) (kind : NumberKind) : Closes c known (convert v kind) := by
  refine (refs_closes v).bind fun _ => (kind_closes v).bind fun _ => .ite (.pure _) ?_
  cases kind with
  | fixed => exact shifted_closes .left v _ _ _
  | int => exact shifted_closes .right v _ _ _

theorem rescale_closes (v : String) : Closes c known (rescale v) := shifted_closes .right v _ _ _

theorem reconcile_closes (op : ArithmeticOp) (l r : String) : Closes c known (reconcile op l r) := by
  refine (arithmeticKind_closes l).bind fun _ => (arithmeticKind_closes r).bind fun _ => ?_
  split
  · exact .pure _
  · exact (rescale_closes l).bind fun _ => (rescale_closes r).bind fun _ => .pure _
  · exact .pure _
  · exact .pure _
  · exact (convert_closes l _).bind fun _ => (rescale_closes r).bind fun _ => .pure _
  · exact (convert_closes l _).bind fun _ => (convert_closes r _).bind fun _ => .pure _

theorem resultKind_closes (l r : String) : Closes c known (resultKind l r) :=
  (refs_closes l).bind fun _ => .ite (kind_closes l) <| (refs_closes r).bind fun _ => .ite (kind_closes r) <|
    (arithmeticKind_closes l).bind fun _ => (arithmeticKind_closes r).bind fun _ => .ite (.pure _) (.pure _)

theorem arithmetic_plain (op : ArithmeticOp) (rd a b : Reg) : ∀ i ∈ op.code rd a b, Instr.target? i = none := by
  cases op <;> simp [ArithmeticOp.code, Instr.target?]

theorem combine_closes (op : ArithmeticOp) (l r : String) : Closes c known (combine op l r) := by
  refine (resultKind_closes l r).bind fun kind => (refs_closes l).bind fun _ => (refs_closes r).bind fun _ =>
    (reconcile_closes op l r).bind fun out => ?_
  refine (fetch_closes _).bind fun a => (fetch_closes _).bind fun b => (free_closes _).bind fun _ =>
    (free_closes _).bind fun _ => (newTemp_closes kind _).bind fun temp => ?_
  have last : Closes c known (do releaseHolds; return temp.1) := releaseHolds_closes.bind fun _ => .pure _
  refine (Binds.emitAll (arithmetic_plain op temp.2 a b)).bind fun _ => ?_
  split
  · exact (Binds.emit rfl).bind fun _ => last
  · exact last

theorem addImmediate_closes (v : String) (n : Int) : Closes c known (addImmediate v n) :=
  (refs_closes v).bind fun _ => (kind_closes v).bind fun _ => (fetch_closes v).bind fun _ =>
    (free_closes v).bind fun _ => (newTemp_closes _ _).bind fun _ => (Binds.emit rfl).bind fun _ =>
      releaseHolds_closes.bind fun _ => .pure _

/-! ### The code of expressions -/

end Gen

/-- Code that owes no label. -/
structure Code.Closes (c : Context) (code : Code) : Prop where
  result : ∀ known, Gen.Closes c known code.result
  branch : ∀ known l, l ∈ known → Gen.Closes c known (code.branch l)

/-- Calls owe no label, if the code of the arguments does not. -/
def CallCode.Closes (c : Context) (calls : CallCode) : Prop :=
  ∀ known line name args, (∀ arg ∈ args, arg.Closes c) → Gen.Closes c known (calls line name args)

namespace Gen

open Alloc

variable {c : Context} {known : List String} {l : String} {code left right : Code}

theorem value_closes (closes : code.Closes c) : Closes c known code.value :=
  (closes.result known).bind fun v => by
    cases v with
    | some name => exact .pure _
    | none => exact .fail _ _

theorem arithmetic_closes (op : ArithmeticOp) (left' : left.Closes c) (right' : right.Closes c) :
    Closes c known (arithmetic op left right) := by
  refine (value_closes left').bind fun l => (arithmeticKind_closes l).bind fun kind => ?_
  split
  · exact (addImmediate_closes _ _).bind fun _ => (hint_closes _).bind fun _ => .pure _
  · exact (value_closes right').bind fun r => (combine_closes op l r).bind fun _ => (hint_closes _).bind fun _ =>
      (hint_closes _).bind fun _ => .pure _

theorem shiftAmount_closes (whole right : Expr) : Closes c known (shiftAmount whole right) := by
  unfold shiftAmount
  split
  · exact .ite (.pure _) (.fail _ _)
  · exact .fail _ _

theorem shift_closes (whole : Expr) (direction : ShiftDirection) (left' : left.Closes c) (right : Expr) :
    Closes c known (shift whole direction left right) :=
  (shiftAmount_closes whole right).bind fun _ => (value_closes left').bind fun l => (kind_closes l).bind fun _ =>
    (refs_closes l).bind fun _ => (shifted_closes _ _ _ _ _).bind fun _ => (hint_closes _).bind fun _ => .pure _

theorem negate_closes (operand : code.Closes c) : Closes c known (negate code) :=
  (value_closes operand).bind fun v => (kind_closes v).bind fun _ => (fetch_closes v).bind fun _ =>
    (free_closes v).bind fun _ => (newTemp_closes _ _).bind fun _ => (Binds.emit rfl).bind fun _ =>
      releaseHolds_closes.bind fun _ => .pure _

/-! ### Memory -/

theorem operandName_closes (whole operand : Expr) : Closes c known (operandName whole operand) := by
  unfold operandName
  split
  · exact .fail _ _
  · exact (Binds.look _).bind fun _ => .ite (.pure _) (.fail _ _)

theorem requirePointer_closes (line : Nat) (name : String) : Closes c known (requirePointer line name) :=
  (refs_closes name).bind fun _ => .ite (.fail _ _) (.pure _)

theorem linearIndex_closes {indices : List (Code × Nat)} (closes : ∀ index ∈ indices, index.1.Closes c)
    (before : Option String) : Closes c known (linearIndex before indices) := by
  induction indices generalizing before with
  | nil => exact .pure _
  | cons index rest ih =>
    obtain ⟨first, stride⟩ := index
    have later : ∀ sum, Closes c known (linearIndex sum rest) := ih fun index member =>
      closes index (List.mem_cons_of_mem _ member)
    refine (value_closes (closes _ List.mem_cons_self)).bind fun _ => (convert_closes _ _).bind fun v => ?_
    cases before with
    | none => exact .ite (later _) ((literal_closes _ _).bind fun _ => (combine_closes _ _ _).bind fun _ => later _)
    | some sum =>
      have added : ∀ term, Closes c known (do linearIndex (some (← combine .add sum term)) rest) := fun _ =>
        (combine_closes _ _ _).bind fun _ => later _
      exact .ite (added v) ((literal_closes _ _).bind fun _ => (combine_closes _ _ _).bind fun _ => added _)

theorem computedAddress_closes (line : Nat) (name : String) {indices : List (Code × Nat)}
    (closes : ∀ index ∈ indices, index.1.Closes c) : Closes c known (computedAddress line name indices) := by
  refine (linearIndex_closes closes none).bind fun linear => ?_
  split
  · exact .fail _ _
  · exact (fetch_closes _).bind fun _ => (fetch_closes _).bind fun _ => (free_closes _).bind fun _ =>
      (newTemp_closes _ _).bind fun _ => (Binds.emit rfl).bind fun _ => releaseHolds_closes.bind fun _ => .pure _

theorem foldedAddress?_closes (name : String) (offset : Int) : Closes c known (foldedAddress? name offset) :=
  (Binds.look _).bind fun _ => .ite ((Binds.alloc straight_arrayAddress).bind fun _ => .pure _) (.pure _)

theorem elementAddress_closes (line : Nat) (name : String) {indices : List Code}
    (closes : ∀ index ∈ indices, index.Closes c) : Closes c known (elementAddress line name indices) := by
  have computed : ∀ strides, Closes c known (computedAddress line name (indices.zip strides)) := fun _ =>
    computedAddress_closes line name fun index member => closes _ (List.of_mem_zip member).1
  refine (Binds.look _).bind fun _ => .ite (.fail _ _) ?_
  refine (Binds.look _).bind fun _ => (refs_closes name).bind fun _ => .ite (.fail _ _) ?_
  refine (Binds.alloc straight_reads).bind fun dims => ?_
  dsimp only
  split
  · refine (foldedAddress?_closes _ _).bind fun folded? => ?_
    cases folded? with
    | some address => exact .pure _
    | none => exact computed _
  · exact computed _

theorem loadElement_closes (address : ElementAddress) : Closes c known (loadElement address) := by
  cases address with
  | fixed a =>
    exact (newTemp_closes _ _).bind fun _ => (Binds.emit rfl).bind fun _ => releaseHolds_closes.bind fun _ => .pure _
  | named name offset =>
    exact (kind_closes name).bind fun _ => (refs_closes name).bind fun _ => (fetch_closes name).bind fun _ =>
      (free_closes name).bind fun _ => (newTemp_closes _ _).bind fun _ => (Binds.emit rfl).bind fun _ =>
        releaseHolds_closes.bind fun _ => .pure _

theorem storeElement_closes (address : ElementAddress) (v : String) : Closes c known (storeElement address v) := by
  refine (fetch_closes v).bind fun _ => ?_
  cases address with
  | fixed a => exact (Binds.emit rfl).bind fun _ => releaseHolds_closes
  | named name offset =>
    exact (fetch_closes name).bind fun _ => (free_closes name).bind fun _ => (Binds.emit rfl).bind fun _ =>
      releaseHolds_closes

theorem readElement_closes (line : Nat) (name : String) {indices : List Code}
    (closes : ∀ index ∈ indices, index.Closes c) : Closes c known (readElement line name indices) :=
  (elementAddress_closes line name closes).bind fun _ => (kind_closes name).bind fun _ => (refs_closes name).bind fun _ =>
    (loadElement_closes _).bind fun temp => (setKind_closes temp _).bind fun _ => (setRefs_closes temp _).bind fun _ =>
      .pure _

theorem dereference_closes (whole operand : Expr) : Closes c known (dereference whole operand) :=
  (operandName_closes whole operand).bind fun _ => (requirePointer_closes _ _).bind fun _ => loadElement_closes _

theorem addressOf_closes (whole operand : Expr) : Closes c known (addressOf whole operand) :=
  (operandName_closes whole operand).bind fun name => (refs_closes name).bind fun _ => (kind_closes name).bind fun _ =>
    (Binds.alloc straight_memoryAddress).bind fun _ => (Binds.look _).bind fun _ => (newTemp_closes _ _).bind fun _ =>
      (Binds.emit rfl).bind fun _ => releaseHolds_closes.bind fun _ => .pure _

theorem storeWord_closes (value base : Reg) (offset : Int) : Closes c known (storeWord value base offset) := by
  refine .ite (.emit rfl) ((newTemp_closes _ _).bind fun temp => (loadLiteral_closes _ _).bind fun _ => ?_)
  exact .either (.emit rfl) ((Binds.emit rfl).bind fun _ => free_closes _)

/-! ### Conditions -/

theorem conditionRegister_closes (closes : code.Closes c) : Closes c known (conditionRegister code) :=
  (value_closes closes).bind fun v => (fetch_closes v).bind fun _ => (free_closes v).bind fun _ =>
    (hint_closes _).bind fun _ => Binds.sync.bind fun _ => .pure _

theorem commonKind_closes (l r : String) : Closes c known (commonKind l r) :=
  (arithmeticKind_closes l).bind fun _ => (arithmeticKind_closes r).bind fun _ =>
    .ite ((convert_closes l _).bind fun _ => (convert_closes r _).bind fun _ => .pure _) (.pure _)

theorem relationOperands_closes (left' : left.Closes c) (right' : right.Closes c) :
    Closes c known (relationOperands left right) := by
  refine (value_closes left').bind fun l => ?_
  split
  · exact (fetch_closes l).bind fun _ => (free_closes l).bind fun _ => (hint_closes _).bind fun _ => .pure _
  · exact (value_closes right').bind fun r => (commonKind_closes l r).bind fun out => (fetch_closes out.1).bind fun _ =>
      (fetch_closes out.2).bind fun _ => (free_closes out.1).bind fun _ => (free_closes out.2).bind fun _ =>
        (hint_closes _).bind fun _ => (hint_closes _).bind fun _ => .pure _

/-- The test of a relation is a branch. -/
theorem test_closes (r : Relation) (a b : Reg) (inside : l ∈ known) : Closes c known (emit (r.test a b l).1) := by
  cases r <;> exact .branch inside

theorem branchRelation_closes (r : Relation) (left' : left.Closes c) (right' : right.Closes c) (inside : l ∈ known) :
    Closes c known (branchRelation r left right l) := by
  refine (relationOperands_closes left' right').bind fun operands => Binds.sync.bind fun _ => ?_
  have taken := test_closes (c := c) r operands.1 operands.2 inside
  split
  · next branch is =>
    rw [is] at taken
    exact taken.bind fun _ => releaseHolds_closes
  · exact .freshLabel fun around => (test_closes r _ _ List.mem_cons_self).bind fun _ =>
      (Binds.emitJump (List.mem_cons_of_mem _ inside)).bind fun _ => releaseHolds_closes.bind fun _ => .placeLabel around

theorem branchBoth_closes (left' : left.Closes c) (right' : right.Closes c) (inside : l ∈ known) :
    Closes c known (branchBoth left right l) := by
  refine .freshLabel fun second => .freshLabel fun skip => ?_
  rw [Multiset.cons_swap]
  exact (left'.branch _ second (by simp)).bind fun _ => (Binds.jump (l := skip) (by simp)).bind fun _ =>
    .placing <| (right'.branch _ l (by simp [inside])).bind fun _ => .placeLabel skip

theorem branchEither_closes (left' : left.Closes c) (right' : right.Closes c) (inside : l ∈ known) :
    Closes c known (branchEither left right l) :=
  (left'.branch known l inside).bind fun _ => right'.branch known l inside

theorem branchNot_closes (closes : code.Closes c) (inside : l ∈ known) : Closes c known (branchNot code l) :=
  (conditionRegister_closes closes).bind fun _ => .freshLabel fun around =>
    (Binds.branch List.mem_cons_self).bind fun _ => (Binds.emitJump (List.mem_cons_of_mem _ inside)).bind fun _ =>
      releaseHolds_closes.bind fun _ => .placeLabel around

theorem branchValue_closes (closes : code.Closes c) (inside : l ∈ known) : Closes c known (branchValue code l) :=
  (conditionRegister_closes closes).bind fun _ => (Binds.branch inside).bind fun _ => releaseHolds_closes

theorem decided_closes {branch : String → Gen Unit} (closes : ∀ known l, l ∈ known → Closes c known (branch l)) :
    Closes c known (decided branch) := by
  refine (newTemp_closes _ _).bind fun temp => .freshLabel fun yes => .freshLabel fun done => ?_
  rw [Multiset.cons_swap]
  exact (closes _ yes (by simp)).bind fun _ => (fetch_closes temp.1).bind fun _ => (Binds.emit rfl).bind fun _ =>
    (Binds.jump (l := done) (by simp)).bind fun _ => .placing <| (fetch_closes temp.1).bind fun _ =>
      (Binds.emit rfl).bind fun _ => .placing <| releaseHolds_closes.bind fun _ => .pure _

theorem valueCode_plain (r : Relation) (rd a b : Reg) :
    ∀ i ∈ (r.valueCode? rd a b).getD [], Instr.target? i = none := by
  cases r <;> simp [Relation.valueCode?, Instr.target?]

theorem relationValue_closes (r : Relation) (left' : left.Closes c) (right' : right.Closes c) :
    Closes c known (relationValue r left right) := by
  cases r with
  | eq | ne => exact decided_closes fun _ _ inside => branchRelation_closes _ left' right' inside
  | lt | gt | le | ge =>
    exact (relationOperands_closes left' right').bind fun _ => (newTemp_closes _ _).bind fun temp =>
      (Binds.emitAll (valueCode_plain _ _ _ _)).bind fun _ => releaseHolds_closes.bind fun _ => .pure _

/-! ### Assignments -/

theorem markWritten_closes (v : String) : Closes c known (alloc (Alloc.markWritten v)) := .alloc straight_markWritten

theorem assignName_closes (name v : String) : Closes c known (assignName name v) :=
  (arithmeticKind_closes name).bind fun kind => (convert_closes v kind).bind fun v => .ite (.pure _) <|
    (fetch_closes v).bind fun _ => (Binds.alloc straight_prepareWrite).bind fun _ => .either (.emit rfl)
      ((free_closes v).bind fun _ => (markWritten_closes name).bind fun _ => releaseHolds_closes)

theorem assignCode_closes (name : String) (closes : code.Closes c) : Closes c known (assignCode name code) := by
  refine (arithmeticKind_closes name).bind fun kind => ?_
  dsimp only
  split
  · exact (Binds.alloc straight_prepareWrite).bind fun rd => (loadLiteral_closes _ _).bind fun _ =>
      (markWritten_closes name).bind fun _ => releaseHolds_closes
  · exact (value_closes closes).bind fun v => assignName_closes name v

theorem assignVariable_closes (whole : Expr) (op : Option WordOp) (name : String) (target : left.Closes c)
    (value : right.Closes c) : Closes c known (assignVariable whole op name left right) := by
  refine (Binds.look _).bind fun _ => .ite (.fail _ _) <| (Binds.look _).bind fun _ => .ite (.fail _ _) ?_
  have last : Closes c known (do hint right.expr; return name) := (hint_closes _).bind fun _ => .pure _
  cases op with
  | none => exact (assignCode_closes name value).bind fun _ => last
  | some op =>
    cases op with
    | shift direction => exact (shift_closes whole direction target right.expr).bind fun v =>
        (assignName_closes name v).bind fun _ => last
    | arithmetic op => exact (value_closes value).bind fun v => (combine_closes op name v).bind fun v =>
        (assignName_closes name v).bind fun _ => last

theorem assignPointed_closes (whole operand : Expr) (value : right.Closes c) :
    Closes c known (assignPointed whole operand right) :=
  (operandName_closes whole operand).bind fun pointer => (requirePointer_closes _ _).bind fun _ =>
    (value_closes value).bind fun _ => (elementKind_closes pointer).bind fun _ => (convert_closes _ _).bind fun v =>
      (storeElement_closes _ v).bind fun _ => .pure _

theorem assignElement_closes (line : Nat) (name : String) {indices : List Code}
    (closes : ∀ index ∈ indices, index.Closes c) (value : right.Closes c) :
    Closes c known (assignElement line name indices right) :=
  (value_closes value).bind fun _ => (elementKind_closes name).bind fun _ => (convert_closes _ _).bind fun v =>
    (elementAddress_closes line name closes).bind fun _ => (storeElement_closes _ v).bind fun _ => .pure _

/-! ### Calls -/

theorem pushCode_plain (slot : Nat) (regs : List Reg) : ∀ i ∈ pushCode slot regs, Instr.target? i = none := by
  intro i member
  obtain ⟨r, x, -, rfl⟩ := pushCode_slots slot regs i member
  rfl

theorem moveStack_closes (words : Int) : Closes c known (moveStack words) := .ite (.emit rfl) (.pure _)

theorem callWith_closes {name : String} (transfers : c.Transfers name) (stacked : List Reg) :
    Closes c known (callWith name stacked) :=
  (Binds.alloc straight_saveForCall).bind fun _ => (moveStack_closes _).bind fun _ =>
    (Binds.emitAll (pushCode_plain 0 stacked)).bind fun _ => (Binds.alloc (.change _)).bind fun _ =>
      (Binds.emitCall transfers).bind fun _ => (moveStack_closes _).bind fun _ => (Binds.alloc (.change _)).bind fun _ =>
        (Binds.alloc straight_restoreAfterCall).bind fun _ => (Binds.alloc straight_unreserveAll).bind fun _ =>
          releaseHolds_closes

theorem argument_closes (closes : code.Closes c) (ty : TypeSpec) : Closes c known (argument code ty) := by
  have last : ∀ v : String, Closes c known (do hint code.expr; return v) := fun v =>
    (hint_closes _).bind fun _ => .pure _
  exact (value_closes closes).bind fun v => .ite (last v) ((convert_closes v _).bind fun v => last v)

theorem arguments_closes {pairs : List (Code × Param)} (closes : ∀ p ∈ pairs, p.1.Closes c) :
    Closes c known (arguments pairs) := by
  induction pairs with
  | nil => exact .pure _
  | cons pair rest ih =>
    exact (argument_closes (closes _ List.mem_cons_self) pair.2.ty).bind fun _ =>
      (ih fun p member => closes p (List.mem_cons_of_mem _ member)).bind fun _ => .pure _

theorem passInRegisters_closes (pairs : List (String × Reg)) : Closes c known (passInRegisters pairs) := by
  induction pairs with
  | nil => exact .pure _
  | cons pair rest ih =>
    exact (Binds.alloc straight_reserve).bind fun _ => (fetch_closes _).bind fun _ =>
      .either (.emit rfl) ((free_closes _).bind fun _ => ih)

theorem fetchAll_closes (names : List String) : Closes c known (names.mapM fetch) := by
  induction names with
  | nil =>
    rw [List.mapM_nil]
    exact .pure _
  | cons v rest ih =>
    rw [List.mapM_cons]
    exact (fetch_closes v).bind fun _ => ih.bind fun _ => .pure _

theorem takeResult_closes (ret : TypeSpec) : Closes c known (takeResult ret) :=
  (newTemp_closes _ _).bind fun _ => (Binds.emit rfl).bind fun _ => .pure _

theorem callCompiled_closes {name : String} (transfers : c.Transfers name) (f : Function) {args : List Code}
    (closes : ∀ arg ∈ args, arg.Closes c) : Closes c known (callCompiled name f args) := by
  refine (arguments_closes fun p member => closes p.1 (List.of_mem_zip member).1).bind fun values => ?_
  refine (passInRegisters_closes _).bind fun _ => (fetchAll_closes _).bind fun stacked => ?_
  refine (Binds.forM fun v _ => free_closes v).bind fun _ => (callWith_closes transfers stacked).bind fun _ => ?_
  exact .ite (.pure _) ((takeResult_closes f.ret).bind fun _ => releaseHolds_closes.bind fun _ => .pure _)

/-! ### Expansions -/

theorem expansionArgument_closes (closes : code.Closes c) (param : Param) :
    Closes c known (expansionArgument code param) := by
  have last : ∀ temp : String, Closes c known (do
      alloc (Alloc.setKind temp param.ty.kind)
      alloc (Alloc.setRefs temp param.ty.refs)
      releaseHolds
      return temp) := fun temp => (setKind_closes temp _).bind fun _ => (setRefs_closes temp _).bind fun _ =>
    releaseHolds_closes.bind fun _ => .pure _
  exact (argument_closes closes param.ty).bind fun v => (Binds.look _).bind fun _ => .ite (last v) <|
    (fetch_closes v).bind fun _ => (newTemp_closes _ _).bind fun temp => (Binds.emit rfl).bind fun _ => last temp.1

theorem expansionArguments_closes {pairs : List (Code × Param)} (closes : ∀ p ∈ pairs, p.1.Closes c) :
    Closes c known (expansionArguments pairs) := by
  induction pairs with
  | nil => exact .pure _
  | cons pair rest ih =>
    exact (expansionArgument_closes (closes _ List.mem_cons_self) pair.2).bind fun _ =>
      (ih fun p member => closes p (List.mem_cons_of_mem _ member)).bind fun _ => .pure _

theorem declareResult_closes (ret : TypeSpec) : Closes c known (declareResult ret) :=
  .ite ((Binds.alloc straight_declareVariable).bind fun _ => (setKind_closes _ _).bind fun _ => setRefs_closes _ _)
    (.pure _)

theorem modify_closes {f : Progress → Progress} (draft : ∀ p, (f p).draft = p.draft) :
    Closes c known (modify f : Gen Unit) :=
  .quiet (g := fun p => ((), f p)) (fun _ => rfl) draft

theorem expansionBody_closes {body : Gen Unit} (closes : Closes c known body) :
    Closes c known (expansionBody body) := by
  have noted : ∀ returned : Bool, Closes c known (modify fun p => { p with returned } : Gen Unit) := fun _ =>
    modify_closes fun _ => rfl
  exact .get fun _ => (noted false).bind fun _ => closes.bind fun _ => .get fun _ => (noted _).bind fun _ => .pure _

theorem expansionResult_closes (ret : TypeSpec) (returned : Bool) : Closes c known (expansionResult ret returned) :=
  .ite (.pure _) (.ite ((Binds.alloc straight_detachAsTemp).bind fun _ => .pure _)
    ((Binds.alloc straight_remove).bind fun _ => (takeResult_closes ret).bind fun _ => .pure _))

theorem expand_closes {f : Function} {args : List Code} {body : Exits → Gen Unit}
    (closes : ∀ arg ∈ args, arg.Closes c)
    (within : ∀ known done, done ∈ known → Closes c known (body (Exits.ofFunction done f.ret true))) :
    Closes c known (expand f args body) := by
  refine (expansionArguments_closes fun p member => closes p.1 (List.of_mem_zip member).1).bind fun temps => ?_
  refine (Binds.alloc (.change _)).bind fun _ => (Binds.forM fun _ _ => .alloc straight_setAlias).bind fun _ => ?_
  refine (declareResult_closes f.ret).bind fun _ => .freshLabel fun done => ?_
  refine (expansionBody_closes (within _ done List.mem_cons_self)).bind fun returned => .placing ?_
  refine (expansionResult_closes f.ret returned).bind fun _ => (Binds.forM fun _ _ => .alloc (.change _)).bind fun _ => ?_
  exact (Binds.alloc straight_popLevel).bind fun _ => (Binds.forM fun v _ => free_closes v).bind fun _ =>
    releaseHolds_closes.bind fun _ => .pure _

/-- A call is either transferred or expanded. -/
theorem call_closes {expansion : Nat → String → Function → List Stmt → List Code → Gen (Option String)}
    (expands : ∀ known line name f body args, c.functions.lookup name = some f → f.body = some body →
      (∀ arg ∈ args, arg.Closes c) → Closes c known (expansion line name f body args)) :
    (call expansion).Closes c := by
  intro known line name args closes
  refine .function? ?_
  cases declared : c.functions.lookup name with
  | none => exact (Binds.look _).bind fun _ => .ite (.fail _ _) (.fail _ _)
  | some f =>
    refine .ite (.fail _ _) ?_
    have compiled : (f.isInline = true → f.body = none) → Closes c known (callCompiled name f args) := fun transfers =>
      callCompiled_closes ⟨f, declared, transfers⟩ f closes
    cases inlined : f.isInline with
    | false => exact compiled fun is => by cases inlined.symm.trans is
    | true =>
      cases has : f.body with
      | none => exact compiled fun _ => has
      | some body => exact expands known line name f body args declared has closes

end Gen

/-! ### Expressions -/

namespace Code

open Gen

variable {c : Context} {e : Expr}

theorem closes_ofResult {result : Gen (Option String)} (closes : ∀ known, Gen.Closes c known result) :
    (Code.ofResult e result).Closes c :=
  have value : (⟨e, result, fun _ => return⟩ : Code).Closes c := ⟨closes, fun _ _ _ => .pure _⟩
  ⟨closes, fun _ _ inside => branchValue_closes value inside⟩

theorem closes_ofValue {value : Gen String} (closes : ∀ known, Gen.Closes c known value) :
    (Code.ofValue e value).Closes c :=
  closes_ofResult fun known => .map (closes known)

theorem closes_ofBranch {branch : String → Gen Unit} (closes : ∀ known l, l ∈ known → Gen.Closes c known (branch l)) :
    (Code.ofBranch e branch).Closes c :=
  ⟨fun _ => .map (decided_closes closes), closes⟩

end Code

/-- What an assignment writes to owes no label. -/
def Assignee.Closes (c : Context) : Assignee → Prop
  | .variable _ code => code.Closes c
  | .pointed _ => True
  | .element _ indices => ∀ index ∈ indices, index.Closes c
  | .other => True

namespace Gen

variable {c : Context} {calls : CallCode}

theorem readVariable_closes {known : List String} (line : Nat) (name : String) :
    Closes c known (readVariable line name) := by
  refine (Binds.look _).bind fun _ => .ite (.pure _) (.function? ?_)
  cases c.functions.lookup name with
  | some f => exact .fail _ _
  | none => exact .fail _ _

theorem assign_closes {known : List String} {value : Code} (whole target : Expr) (value' : value.Closes c) :
    ∀ (op : Option WordOp) (assignee : Assignee), assignee.Closes c →
      Closes c known (assign whole target op assignee value)
  | op, .variable name _, closes => assignVariable_closes whole op name closes value'
  | none, .pointed operand, _ => assignPointed_closes whole operand value'
  | none, .element name _, closes => assignElement_closes whole.line name closes value'
  | some _, .pointed _, _ => .fail _ _
  | some _, .element .., _ => .fail _ _
  | none, .other, _ => .fail _ _
  | some _, .other, _ => .fail _ _

mutual

/-- The code of an expression binds the labels that are handed out for it. -/
theorem code_closes (calls' : calls.Closes c) : ∀ e : Expr, (code calls e).Closes c
  | .int line value => by
    rw [code]
    exact Code.closes_ofValue fun _ => literal_closes value .int
  | .fixed line value => by
    rw [code]
    exact Code.closes_ofValue fun _ => literal_closes value .fixed
  | .var line name n => by
    rw [code]
    exact Code.closes_ofValue fun _ => readVariable_closes line name
  | .binary line op left right => by
    have left' := code_closes calls' left
    have right' := code_closes calls' right
    cases op with
    | word op =>
      cases op with
      | arithmetic op =>
        rw [code]
        exact Code.closes_ofValue fun _ => arithmetic_closes op left' right'
      | shift direction =>
        rw [code]
        exact Code.closes_ofValue fun _ => shift_closes _ direction left' right
    | relation r =>
      rw [code]
      exact ⟨fun _ => .map (relationValue_closes r left' right'),
        fun _ _ inside => branchRelation_closes r left' right' inside⟩
    | logical op =>
      cases op with
      | and =>
        rw [code]
        exact Code.closes_ofBranch fun _ _ inside => branchBoth_closes left' right' inside
      | or =>
        rw [code]
        exact Code.closes_ofBranch fun _ _ inside => branchEither_closes left' right' inside
  | .assign line op target value => by
    rw [code]
    exact Code.closes_ofValue fun _ => assign_closes _ target (code_closes calls' value) op _
      (assignee_closes calls' target)
  | .unary line op operand => by
    have operand' := code_closes calls' operand
    cases op with
    | neg =>
      rw [code]
      exact Code.closes_ofValue fun _ => negate_closes operand'
    | not =>
      rw [code]
      exact Code.closes_ofBranch fun _ _ inside => branchNot_closes operand' inside
    | ref =>
      rw [code]
      exact Code.closes_ofValue fun _ => addressOf_closes _ operand
    | deref =>
      rw [code]
      exact Code.closes_ofValue fun _ => dereference_closes _ operand
  | .call line name args => by
    rw [code]
    exact Code.closes_ofResult fun known => calls' known line name _ (codes_closes calls' args)
  | .index line name n indices => by
    rw [code]
    exact Code.closes_ofValue fun _ => readElement_closes line name (codes_closes calls' indices)

theorem codes_closes (calls' : calls.Closes c) : ∀ es : List Expr, ∀ code ∈ codes calls es, code.Closes c
  | [] => by
    rw [codes]
    exact fun _ member => by cases member
  | e :: rest => by
    rw [codes]
    exact List.forall_mem_cons.2 ⟨code_closes calls' e, codes_closes calls' rest⟩

theorem assignee_closes (calls' : calls.Closes c) : ∀ target : Expr, (assignee calls target).Closes c
  | .var line name n => by
    rw [assignee]
    exact Code.closes_ofValue fun _ => readVariable_closes line name
  | .unary line op operand => by
    cases op with
    | deref | neg | ref | not =>
      rw [assignee]
      · trivial
      all_goals nofun
  | .index line name n indices => by
    rw [assignee]
    exact codes_closes calls' indices
  | .int .. | .fixed .. | .binary .. | .assign .. | .call .. => by
    rw [assignee]
    · trivial
    all_goals nofun

end

end Gen

end SmallC
