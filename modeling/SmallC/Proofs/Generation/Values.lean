import SmallC.Proofs.Generation.Holding

/-!
Values. The code of an expression leaves exactly the temporaries that were alive before it and its own
result, if that is one; the code of a condition leaves those that were alive before it.
-/
namespace SmallC

open Allocator

namespace Shape

/-- The shape of a state in which an expression or a statement can be compiled: no register is reserved,
no further name hides the variable that takes the result of an expansion, and the body of a function is a
level of its own. -/
structure Ready (s : Shape) : Prop where
  unreserved : s.reserved = []
  plain : ∀ further ∈ s.aliases, further.lookup resultName = none
  deep : s.inside = true → 2 ≤ s.aliases.length

theorem Ready.holding {s : Shape} (ready : s.Ready) (v : String) : (s.holding v).Ready :=
  ⟨ready.unreserved, ready.plain, ready.deep⟩

theorem Ready.holdingAll {s : Shape} (ready : s.Ready) (names : List String) :
    (s.holdingAll names).Ready := by
  induction names with
  | nil => exact ready
  | cons n rest ih => exact ih.holding n

end Shape

namespace Gen

variable {α β : Type} {c : Context} {s : Shape} {u v : String}

/-- Leaves the shape as it was. -/
def Stays (c : Context) (act : Gen α) : Prop :=
  ∀ s : Shape, s.Ready → Meets c (At s) act fun _ => At s

/-- Leaves the answer, if it is a temporary, and otherwise the shape as it was. -/
def Yields (c : Context) (act : Gen String) : Prop :=
  ∀ s : Shape, s.Ready → Meets c (At s) act fun v => At (s.holding v)

/-- Gives up one value and leaves the answer instead. -/
def Trades (c : Context) (u : String) (act : Gen String) : Prop :=
  ∀ s : Shape, Meets c (At (s.holding u)) act fun v => At (s.holding v)

/-- What trades one value for another does so next to a third. -/
theorem Trades.under {act : Gen String} (trades : Trades c u act) (r : String) :
    Meets c (At ((s.holding u).holding r)) act fun v => At ((s.holding v).holding r) := by
  rw [Shape.holding_comm]
  exact (trades _).weaken (fun _ before => before) fun v a after => by
    rwa [Shape.holding_comm] at after

theorem free_under (u r : String) :
    Meets c (At ((s.holding u).holding r)) (free u) fun _ => At (s.holding r) := by
  rw [Shape.holding_comm]
  exact free_gives u

/-- A new temporary is held from here on. -/
theorem newTemp_bind {kind : NumberKind} {refs : Nat} {f : String × Reg → Gen β}
    {R : β → Allocator → Prop}
    (rest : ∀ temp rd, isTempName temp = true → Meets c (At (s.holding temp)) (f (temp, rd)) R) :
    Meets c (At s) (newTemp kind refs >>= f) R :=
  (newTemp_holds kind refs).bind fun taken => .given fun isTemp => rest taken.1 taken.2 isTemp

/-- The temporary that was computed is the answer. -/
theorem computed (v : String) :
    Meets c (At (s.holding v)) (do releaseHolds; return v) fun v => At (s.holding v) :=
  releaseHolds_stays.bind fun _ => .pure fun _ after => after

theorem literal_yields (value : Int) (kind : NumberKind) :
    Meets c (At s) (literal value kind) fun v => At (s.holding v) :=
  newTemp_bind fun temp rd _ => (loadLiteral_stays rd value).bind fun _ => computed temp

theorem shifted_trades (direction : ShiftDirection) (amount : Nat) (kind : NumberKind) (refs : Nat) :
    Trades c u (shifted direction u amount kind refs) := fun _ =>
  (fetch_stays u).bind fun _ => (free_gives u).bind fun _ => newTemp_bind fun temp _ _ =>
    (emit_stays _).bind fun _ => computed temp

theorem convert_trades (kind : NumberKind) : Trades c u (convert u kind) := by
  intro s
  refine (Meets.alloc (Alloc.refs_stays u)).bind fun refs => ?_
  refine (Meets.alloc (Alloc.kind_stays u)).bind fun own => ?_
  refine .ite (fun _ => .pure fun _ before => before) fun _ => ?_
  cases kind with
  | fixed => exact shifted_trades _ _ _ _ s
  | int => exact shifted_trades _ _ _ _ s

theorem arithmeticKind_stays (name : String) :
    Meets c (At s) (arithmeticKind name) fun _ => At s :=
  (Meets.alloc (Alloc.refs_stays name)).bind fun _ =>
    .ite (fun _ => .pure fun _ before => before) fun _ => .alloc (Alloc.kind_stays name)

theorem elementKind_stays (name : String) : Meets c (At s) (elementKind name) fun _ => At s :=
  (Meets.alloc (Alloc.refs_stays name)).bind fun _ =>
    .ite (fun _ => .pure fun _ before => before) fun _ => .alloc (Alloc.kind_stays name)

theorem resultKind_stays (l r : String) : Meets c (At s) (resultKind l r) fun _ => At s :=
  (Meets.alloc (Alloc.refs_stays l)).bind fun _ => .ite (fun _ => .alloc (Alloc.kind_stays l)) fun _ =>
    (Meets.alloc (Alloc.refs_stays r)).bind fun _ => .ite (fun _ => .alloc (Alloc.kind_stays r)) fun _ =>
      (arithmeticKind_stays l).bind fun _ => (arithmeticKind_stays r).bind fun _ =>
        .ite (fun _ => .pure fun _ before => before) fun _ => .pure fun _ before => before

/-- Both operands are traded for others or kept as they are. -/
theorem reconcile_trades (op : ArithmeticOp) (l r : String) :
    Meets c (At ((s.holding l).holding r)) (reconcile op l r) fun out =>
      At ((s.holding out.1).holding out.2.1) := by
  have both : ∀ {f g : Gen String} {scale : Option Nat}, Trades c l f → Trades c r g →
      Meets c (At ((s.holding l).holding r)) (return (← f, ← g, scale)) fun out =>
        At ((s.holding out.1).holding out.2.1) := fun first second =>
    (first.under r).bind fun _ => (second _).bind fun _ => .pure fun _ after => after
  refine (arithmeticKind_stays l).bind fun left => (arithmeticKind_stays r).bind fun right => ?_
  split
  · exact .pure fun _ before => before
  · exact both (shifted_trades _ _ _ _) (shifted_trades _ _ _ _)
  · exact .pure fun _ before => before
  · exact .pure fun _ before => before
  · exact both (convert_trades _) (shifted_trades _ _ _ _)
  · exact both (convert_trades _) (convert_trades _)

theorem combine_yields (op : ArithmeticOp) (l r : String) :
    Meets c (At ((s.holding l).holding r)) (combine op l r) fun v => At (s.holding v) := by
  refine (resultKind_stays l r).bind fun kind => ?_
  refine (Meets.alloc (Alloc.refs_stays l)).bind fun _ => ?_
  refine (Meets.alloc (Alloc.refs_stays r)).bind fun _ => ?_
  refine (reconcile_trades op l r).bind fun out => ?_
  obtain ⟨l, r, scale⟩ := out
  refine (fetch_stays l).bind fun a => (fetch_stays r).bind fun b => ?_
  refine (free_under l r).bind fun _ => (free_gives r).bind fun _ => ?_
  refine newTemp_bind fun temp rd _ => (emitAll_stays _).bind fun _ => ?_
  cases scale with
  | some amount => exact (emit_stays _).bind fun _ => computed temp
  | none => exact computed temp

theorem addImmediate_trades (n : Int) : Trades c u (addImmediate u n) := fun _ =>
  (Meets.alloc (Alloc.refs_stays u)).bind fun _ => (Meets.alloc (Alloc.kind_stays u)).bind fun _ =>
    (fetch_stays u).bind fun _ => (free_gives u).bind fun _ => newTemp_bind fun temp _ _ =>
    (emit_stays _).bind fun _ => computed temp

/-! ### The code of expressions -/

/-- Leaves the answer, if there is one and it is a temporary, and otherwise the shape as it was. -/
def YieldsMaybe (c : Context) (act : Gen (Option String)) : Prop :=
  ∀ s : Shape, s.Ready → Meets c (At s) act fun v => At (s.holdingAll v.toList)

end Gen

/-- Code that leaves nothing behind but its result, and nothing where it branches. -/
structure Code.Tidy (c : Context) (code : Code) : Prop where
  result : Gen.YieldsMaybe c code.result
  branch : ∀ label, Gen.Stays c (code.branch label)

/-- If the expression is a variable, its name is one that a source can give. -/
def Expr.Named (operand : Expr) : Prop := ∀ name, operand.varName? = some name → isTempName name = false

/-- What an assignment writes to has a name that a source can give, and its code is tidy. -/
def Assignee.Tidy (c : Context) : Assignee → Prop
  | .variable name code => isTempName name = false ∧ code.Tidy c
  | .pointed operand => operand.Named
  | .element name indices => isTempName name = false ∧ ∀ index ∈ indices, index.Tidy c
  | .other => True

namespace Gen

variable {c : Context} {s : Shape} {u v : String} {code left right : Code}

theorem value_yields (tidy : code.Tidy c) : Yields c code.value := fun s ready =>
  (tidy.result s ready).bind fun v => by
    cases v with
    | some name => exact .pure fun _ after => after
    | none => exact .fail _ _

theorem arithmetic_yields (op : ArithmeticOp) (left' : left.Tidy c) (right' : right.Tidy c) :
    Yields c (arithmetic op left right) := by
  intro s ready
  refine (value_yields left' s ready).bind fun l => (arithmeticKind_stays l).bind fun kind => ?_
  split
  · exact (addImmediate_trades _ s).bind fun _ => (hint_stays _).bind fun _ => .pure fun _ after => after
  · exact (value_yields right' _ (ready.holding l)).bind fun r => (combine_yields op l r).bind fun _ =>
      (hint_stays _).bind fun _ => (hint_stays _).bind fun _ => .pure fun _ after => after

theorem shiftAmount_stays (whole right : Expr) : Meets c (At s) (shiftAmount whole right) fun _ => At s := by
  unfold shiftAmount
  split
  · exact .ite (fun _ => .pure fun _ before => before) fun _ => .fail _ _
  · exact .fail _ _

theorem shift_yields (whole : Expr) (direction : ShiftDirection) (left' : left.Tidy c) (right : Expr) :
    Yields c (shift whole direction left right) := fun s ready =>
  (shiftAmount_stays whole right).bind fun _ => (value_yields left' s ready).bind fun l =>
    (Meets.alloc (Alloc.kind_stays l)).bind fun _ => (Meets.alloc (Alloc.refs_stays l)).bind fun _ =>
      (shifted_trades _ _ _ _ s).bind fun _ => (hint_stays _).bind fun _ => .pure fun _ after => after

theorem negate_yields (operand : code.Tidy c) : Yields c (negate code) := fun s ready =>
  (value_yields operand s ready).bind fun v => (Meets.alloc (Alloc.kind_stays v)).bind fun _ =>
    (fetch_stays v).bind fun _ => (free_gives v).bind fun _ => newTemp_bind fun temp _ _ =>
    (emit_stays _).bind fun _ => computed temp

/-! ### Memory -/

/-- The temporary that an address is in, if it is in one. -/
def held : ElementAddress → List String
  | .fixed _ => []
  | .named name _ => [name]

theorem operandName_stays (whole operand : Expr) :
    Meets c (At s) (operandName whole operand) fun name a => At s a ∧ operand.varName? = some name := by
  unfold operandName
  split
  · exact .fail _ _
  · next name is =>
    exact (look_stays _).bind fun _ => .ite (fun _ => .pure fun _ before => ⟨before, is⟩)
      fun _ => .fail _ _

theorem requirePointer_stays (line : Nat) (name : String) :
    Meets c (At s) (requirePointer line name) fun _ => At s :=
  (Meets.alloc (Alloc.refs_stays name)).bind fun _ =>
    .ite (fun _ => .fail _ _) fun _ => .pure fun _ before => before

theorem linearIndex_yields (before : Option String) {indices : List (Code × Nat)}
    (tidy : ∀ index ∈ indices, index.1.Tidy c) (ready : s.Ready) :
    Meets c (At (s.holdingAll before.toList)) (linearIndex before indices) fun v =>
      At (s.holdingAll v.toList) := by
  induction indices generalizing before with
  | nil => exact .pure fun _ after => after
  | cons index rest ih =>
    obtain ⟨index, stride⟩ := index
    have later : ∀ term : String, Meets c (At (s.holding term)) (linearIndex (some term) rest) _ :=
      fun term => ih (some term) fun i member => tidy i (List.mem_cons_of_mem _ member)
    refine (value_yields (tidy _ List.mem_cons_self) _ (ready.holdingAll _)).bind fun v => ?_
    refine (convert_trades _ _).bind fun v => ?_
    cases before with
    | none =>
      exact .ite (fun _ => later v) fun _ => (literal_yields _ _).bind fun _ =>
        (combine_yields _ _ _).bind later
    | some sum =>
      have added : ∀ term : String, Meets c (At ((s.holding sum).holding term)) (do
          linearIndex (some (← combine .add sum term)) rest) _ :=
        fun term => (combine_yields .add sum term).bind later
      exact .ite (fun _ => added v) fun _ => (literal_yields _ _).bind fun _ =>
        (combine_yields _ _ _).bind added

theorem computedAddress_yields (line : Nat) (name : String) {indices : List (Code × Nat)}
    (tidy : ∀ index ∈ indices, index.1.Tidy c) (ready : s.Ready) :
    Meets c (At s) (computedAddress line name indices) fun address =>
      At (s.holdingAll (held address)) := by
  refine (linearIndex_yields none tidy ready).bind fun linear => ?_
  cases linear with
  | none => exact .fail _ _
  | some linear =>
    exact (fetch_stays name).bind fun _ => (fetch_stays linear).bind fun _ =>
      (free_gives linear).bind fun _ => newTemp_bind fun temp _ _ => (emit_stays _).bind fun _ =>
        releaseHolds_stays.bind fun _ => .pure fun _ after => after

/-- An address that is folded is in a variable that the source names, if it is in one. -/
theorem foldedAddress?_yields {name : String} (named : isTempName name = false) (offset : Int) :
    Meets c (At s) (foldedAddress? name offset) fun folded =>
      At (s.holdingAll ((folded.map held).getD [])) := by
  refine (look_stays _).bind fun _ => .ite (fun _ => ?_) fun _ => .pure fun a before => ?_
  · refine (Meets.alloc (Alloc.arrayAddress_stays name)).bind fun start => .pure fun a before => ?_
    split <;> exact before
  · exact (congrArg (At · a) (Shape.holding_named named)).mpr before

theorem elementAddress_yields (line : Nat) {name : String} (named : isTempName name = false)
    {indices : List Code} (tidy : ∀ index ∈ indices, index.Tidy c) (ready : s.Ready) :
    Meets c (At s) (elementAddress line name indices) fun address =>
      At (s.holdingAll (held address)) := by
  refine (look_stays _).bind fun _ => .refuse fun _ => ?_
  refine (look_stays _).bind fun _ => (Meets.alloc (Alloc.refs_stays name)).bind fun _ => .refuse fun _ => ?_
  refine (Meets.alloc (Alloc.dims_stays name)).bind fun dims => ?_
  have computed := computedAddress_yields (c := c) line name
    (fun i (member : i ∈ indices.zip (indexStrides dims indices.length)) => tidy _ (List.of_mem_zip member).1) ready
  dsimp only
  split
  · refine (foldedAddress?_yields named _).bind fun folded => ?_
    cases folded with
    | some address => exact .pure fun _ after => after
    | none => exact computed
  · exact computed

theorem loadElement_yields (address : ElementAddress) :
    Meets c (At (s.holdingAll (held address))) (loadElement address) fun v => At (s.holding v) := by
  cases address with
  | fixed a =>
    exact newTemp_bind fun temp _ _ => (emit_stays _).bind fun _ => computed temp
  | named name offset =>
    exact (Meets.alloc (Alloc.kind_stays name)).bind fun _ =>
      (Meets.alloc (Alloc.refs_stays name)).bind fun _ => (fetch_stays name).bind fun _ =>
        (free_gives name).bind fun _ => newTemp_bind fun temp _ _ => (emit_stays _).bind fun _ =>
          computed temp

theorem storeElement_gives (address : ElementAddress) (value : String) :
    Meets c (At ((s.holding value).holdingAll (held address))) (storeElement address value) fun _ =>
      At (s.holding value) := by
  refine (fetch_stays value).bind fun _ => ?_
  cases address with
  | fixed a => exact (emit_stays _).bind fun _ => releaseHolds_stays
  | named name offset =>
    exact (fetch_stays name).bind fun _ => (free_gives name).bind fun _ => (emit_stays _).bind fun _ =>
      releaseHolds_stays

theorem readElement_yields (line : Nat) {name : String} (named : isTempName name = false)
    {indices : List Code} (tidy : ∀ index ∈ indices, index.Tidy c) :
    Yields c (readElement line name indices) := fun _ ready =>
  (elementAddress_yields line named tidy ready).bind fun address =>
    (Meets.alloc (Alloc.kind_stays name)).bind fun _ => (Meets.alloc (Alloc.refs_stays name)).bind fun _ =>
      (loadElement_yields address).bind fun temp => (Meets.alloc (Alloc.setKind_stays temp _)).bind fun _ =>
        (Meets.alloc (Alloc.setRefs_stays temp _)).bind fun _ => .pure fun _ after => after

theorem dereference_yields (whole : Expr) {operand : Expr} (named : operand.Named) :
    Yields c (dereference whole operand) := fun s ready =>
  (operandName_stays whole operand).bind fun name => .given fun is =>
    (requirePointer_stays _ _).bind fun _ => by
      have load := loadElement_yields (c := c) (s := s) (.named name 0)
      rwa [show s.holdingAll (held (.named name 0)) = s from Shape.holding_named (named name is)] at load

theorem addressOf_yields (whole operand : Expr) : Yields c (addressOf whole operand) := fun _ _ =>
  (operandName_stays whole operand).bind fun name => .given fun _ =>
    (Meets.alloc (Alloc.refs_stays name)).bind fun _ => (Meets.alloc (Alloc.kind_stays name)).bind fun _ =>
      (Meets.alloc (Alloc.memoryAddress_stays name)).bind fun _ => (look_stays _).bind fun _ =>
        newTemp_bind fun temp _ _ => (emit_stays _).bind fun _ => computed temp

theorem storeWord_stays (value base : Reg) (offset : Int) :
    Meets c (At s) (storeWord value base offset) fun _ => At s := by
  refine .ite (fun _ => emit_stays _) fun _ => newTemp_bind fun temp address _ => ?_
  refine (loadLiteral_stays _ _).bind fun _ => .ite (fun _ => ?_) fun _ => ?_
  · exact (emit_stays _).bind fun _ => (emit_stays _).bind fun _ => free_gives temp
  · exact (emit_stays _).bind fun _ => free_gives temp

/-! ### Assignments -/

theorem assignName_gives {name : String} (named : isTempName name = false) (v : String) :
    Meets c (At (s.holding v)) (assignName name v) fun _ => At s := by
  refine (arithmeticKind_stays name).bind fun kind => (convert_trades kind s).bind fun v => ?_
  refine .ite (fun same => ?_) fun _ => ?_
  · rw [same, Shape.holding_named named]
    exact .pure fun _ before => before
  · exact (fetch_stays v).bind fun _ => (Meets.alloc (Alloc.prepareWrite_stays name)).bind fun _ =>
      .either (emit_stays _) ((free_gives v).bind fun _ =>
        (Meets.alloc (Alloc.markWritten_stays name)).bind fun _ => releaseHolds_stays)

theorem assignCode_stays {name : String} (named : isTempName name = false) (tidy : code.Tidy c) :
    Stays c (assignCode name code) := by
  intro s ready
  refine (arithmeticKind_stays name).bind fun kind => ?_
  dsimp only
  split
  · exact (Meets.alloc (Alloc.prepareWrite_stays name)).bind fun rd => (loadLiteral_stays rd _).bind fun _ =>
      (Meets.alloc (Alloc.markWritten_stays name)).bind fun _ => releaseHolds_stays
  · exact (value_yields tidy s ready).bind fun v => assignName_gives named v

theorem assignVariable_yields (whole : Expr) (op : Option WordOp) {name : String}
    (named : isTempName name = false) (target : left.Tidy c) (value : right.Tidy c) :
    Yields c (assignVariable whole op name left right) := by
  intro s ready
  refine (look_stays _).bind fun _ => .refuse fun _ => (look_stays _).bind fun _ => .refuse fun _ => ?_
  have last : Meets c (At s) (do hint right.expr; return name) fun v => At (s.holding v) :=
    (hint_stays _).bind fun _ => .pure fun a after => (congrArg (At · a) (Shape.holding_named named)).mpr after
  match op with
  | none => exact (assignCode_stays named value s ready).bind fun _ => last
  | some (.shift direction) =>
    exact (shift_yields whole direction target right.expr s ready).bind fun v =>
      (assignName_gives named v).bind fun _ => last
  | some (.arithmetic op) =>
    refine (value_yields value s ready).bind fun v => ?_
    have combined := combine_yields (c := c) (s := s) op name v
    rw [Shape.holding_named named] at combined
    exact combined.bind fun v => (assignName_gives named v).bind fun _ => last

theorem assignPointed_yields (whole operand : Expr) (named : operand.Named) (value : code.Tidy c) :
    Yields c (assignPointed whole operand code) := by
  intro s ready
  refine (operandName_stays whole operand).bind fun pointer => .given fun is => ?_
  refine (requirePointer_stays _ _).bind fun _ => (value_yields value s ready).bind fun v => ?_
  refine (elementKind_stays pointer).bind fun kind => (convert_trades kind s).bind fun v => ?_
  have store := storeElement_gives (c := c) (s := s) (.named pointer 0) v
  rw [show (s.holding v).holdingAll (held (.named pointer 0)) = s.holding v from
    Shape.holding_named (named pointer is)] at store
  exact store.bind fun _ => .pure fun _ after => after

theorem assignElement_yields (line : Nat) {name : String} (named : isTempName name = false)
    {indices : List Code} (tidy : ∀ index ∈ indices, index.Tidy c) (value : code.Tidy c) :
    Yields c (assignElement line name indices code) := fun s ready =>
  (value_yields value s ready).bind fun _ => (elementKind_stays name).bind fun kind =>
    (convert_trades kind s).bind fun v =>
      (elementAddress_yields line named tidy (ready.holding v)).bind fun address =>
        (storeElement_gives address v).bind fun _ => .pure fun _ after => after

theorem assign_yields (whole target : Expr) (op : Option WordOp) {assignee : Assignee}
    (tidy : assignee.Tidy c) (value : code.Tidy c) : Yields c (assign whole target op assignee code) := by
  match assignee, op with
  | .variable name target, op => exact assignVariable_yields whole op tidy.1 tidy.2 value
  | .pointed operand, none => exact assignPointed_yields whole operand tidy value
  | .element name indices, none => exact assignElement_yields _ tidy.1 tidy.2 value
  | .pointed _, some _ | .element .., some _ | .other, _ => exact fun _ _ => .fail _ _

end Gen

end SmallC
