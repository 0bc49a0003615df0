import SmallC.Proofs.Generation.Laying
import SmallC.Proofs.Generation.Scalars

/-!
Expressions along the points of control. By induction on the expression, its code leaves control at the point
where it was; only a call moves the stack pointer, and it moves it back. Pointers and arrays are left out.
-/
namespace SmallC

/-- The labels that control can leave a statement for. -/
def Exits.labels (exits : Exits) : List String :=
  (exits.ret.map ReturnTarget.label).toList ++ exits.brk.toList ++ exits.cont.toList

namespace Gen

open Allocator

variable {c : Context} {known : List String} {l r v : String}

/-! ### Values -/

theorem newTemp_lays (kind : NumberKind) (refs : Nat) : Lays c known (newTemp kind refs) fun x => x.2.Common :=
  .alloc <| .bind Alloc.tends_addTemp fun _ _ => .bind Alloc.tends_getRegister fun _ common =>
    .bind Alloc.tends_setKind fun _ _ => .bind Alloc.tends_setRefs fun _ _ => .pure common

theorem fetch_lays (v : String) : Lays c known (fetch v) Reg.Common := .alloc Alloc.tends_getRegister

theorem fetch_balanced (v : String) : Balanced c known (fetch v) := (fetch_lays v).weaken fun _ _ => trivial

theorem free_balanced (v : String) : Balanced c known (free v) := .alloc Alloc.tends_removeIfTemp

theorem releaseHolds_balanced : Balanced c known releaseHolds := .alloc Alloc.tends_releaseHolds

theorem kind_balanced (v : String) : Balanced c known (alloc (Alloc.kind v)) := .alloc Alloc.tends_kind

theorem refs_balanced (v : String) : Balanced c known (alloc (Alloc.refs v)) := .alloc Alloc.tends_refs

theorem arithmeticKind_balanced (v : String) : Balanced c known (arithmeticKind v) :=
  (refs_balanced v).bind fun _ _ => .ite (fun _ => .pure trivial) fun _ => kind_balanced v

theorem hint_balanced (e : Expr) : Balanced c known (hint e) := by
  have silent : Balanced c known (pure () : Gen Unit) := .pure trivial
  cases e with
  | var line name occurrence => exact .read (.ite (fun _ => .alloc Alloc.tends_demote) fun _ => silent)
  | int | fixed | binary | assign | unary | call | index => exact silent

theorem literalCode_writes {rd : Reg} {value : Int} {i : MachineInstr} (member : i ∈ literalCode rd value) :
    i.written? = some rd := by
  unfold literalCode at member
  split at member
  · rw [List.mem_singleton.1 member]
    rfl
  · rcases List.mem_append.1 member with member | member
    · rcases List.mem_cons.1 member with rfl | member
      · rfl
      · rw [List.mem_singleton.1 member]
        rfl
    · split at member
      · cases member
      · rw [List.mem_singleton.1 member]
        rfl

theorem literalCode_calm {rd : Reg} (common : rd.Common) (value : Int) :
    ∀ i ∈ literalCode rd value, MachineInstr.Calm i := fun _ member => ⟨rd, literalCode_writes member, common⟩

theorem loadLiteral_balanced {rd : Reg} (common : rd.Common) (value : Int) :
    Balanced c known (loadLiteral rd value) := .emitAll (literalCode_calm common value)

theorem move_balanced {rd rs : Reg} (common : rd.Common) : Balanced c known (emit (MachineInstr.move rd rs)) :=
  .emit (MachineInstr.calm_move common)

theorem arithmetic_calm (op : ArithmeticOp) {rd : Reg} (common : rd.Common) (a b : Reg) :
    ∀ i ∈ op.code rd a b, MachineInstr.Calm i := by
  have writes : ∀ {i : MachineInstr}, i.written? = some rd → i.Calm := fun written => ⟨rd, written, common⟩
  have scratch : Reg.scratch.Common := by decide
  cases op with
  | add | sub | mul | div | bitAnd | bitOr =>
    intro i member
    rw [List.mem_singleton.1 member]
    exact writes rfl
  | xor => exact List.forall_mem_cons.2 ⟨⟨_, rfl, scratch⟩, List.forall_mem_cons.2 ⟨writes rfl,
      List.forall_mem_singleton.2 (writes rfl)⟩⟩
  | mod => exact List.forall_mem_cons.2 ⟨writes rfl, List.forall_mem_cons.2 ⟨writes rfl,
      List.forall_mem_singleton.2 (writes rfl)⟩⟩

theorem literal_balanced (value : Int) (kind : NumberKind) : Balanced c known (literal value kind) :=
  (newTemp_lays kind 0).bind fun _ common => (loadLiteral_balanced common value).bind fun _ _ =>
    releaseHolds_balanced.bind fun _ _ => .pure trivial

theorem shifted_balanced (direction : ShiftDirection) (v : String) (amount : Nat) (kind : NumberKind)
    (refs : Nat) : Balanced c known (shifted direction v amount kind refs) :=
  (fetch_balanced v).bind fun rs _ => (free_balanced v).bind fun _ _ => (newTemp_lays kind refs).bind
    fun temp common => (Lays.emit ⟨temp.2, by cases direction <;> rfl, common⟩).bind fun _ _ =>
      releaseHolds_balanced.bind fun _ _ => .pure trivial

theorem convert_balanced (v : String) (kind : NumberKind) : Balanced c known (convert v kind) := by
  refine (refs_balanced v).bind fun _ _ => (kind_balanced v).bind fun _ _ => .ite (fun _ => .pure trivial) fun _ => ?_
  cases kind with
  | fixed => exact shifted_balanced .left v _ _ _
  | int => exact shifted_balanced .right v _ _ _

theorem rescale_balanced (v : String) : Balanced c known (rescale v) := shifted_balanced .right v _ _ _

theorem reconcile_balanced (op : ArithmeticOp) (l r : String) : Balanced c known (reconcile op l r) := by
  refine (arithmeticKind_balanced l).bind fun _ _ => (arithmeticKind_balanced r).bind fun _ _ => ?_
  split
  · exact .pure trivial
  · exact (rescale_balanced l).bind fun _ _ => (rescale_balanced r).bind fun _ _ => .pure trivial
  · exact .pure trivial
  · exact .pure trivial
  · exact (convert_balanced l _).bind fun _ _ => (rescale_balanced r).bind fun _ _ => .pure trivial
  · exact (convert_balanced l _).bind fun _ _ => (convert_balanced r _).bind fun _ _ => .pure trivial

theorem resultKind_balanced (l r : String) : Balanced c known (resultKind l r) :=
  (refs_balanced l).bind fun _ _ => .ite (fun _ => kind_balanced l) fun _ => (refs_balanced r).bind fun _ _ =>
    .ite (fun _ => kind_balanced r) fun _ => (arithmeticKind_balanced l).bind fun _ _ =>
      (arithmeticKind_balanced r).bind fun _ _ => .ite (fun _ => .pure trivial) fun _ => .pure trivial

theorem combine_balanced (op : ArithmeticOp) (l r : String) : Balanced c known (combine op l r) := by
  refine (resultKind_balanced l r).bind fun kind _ => (refs_balanced l).bind fun _ _ =>
    (refs_balanced r).bind fun _ _ => (reconcile_balanced op l r).bind fun out _ => ?_
  refine (fetch_balanced _).bind fun a _ => (fetch_balanced _).bind fun b _ => (free_balanced _).bind fun _ _ =>
    (free_balanced _).bind fun _ _ => (newTemp_lays kind _).bind fun temp common => ?_
  have last : Balanced c known (do releaseHolds; return temp.1) :=
    releaseHolds_balanced.bind fun _ _ => .pure trivial
  refine (Lays.emitAll (arithmetic_calm op common a b)).bind fun _ _ => ?_
  split
  · exact (Lays.emit ⟨temp.2, rfl, common⟩).bind fun _ _ => last
  · exact last

theorem addImmediate_balanced (v : String) (n : Int) : Balanced c known (addImmediate v n) :=
  (refs_balanced v).bind fun _ _ => (kind_balanced v).bind fun _ _ => (fetch_balanced v).bind fun _ _ =>
    (free_balanced v).bind fun _ _ => (newTemp_lays _ _).bind fun temp common =>
      (Lays.emit ⟨temp.2, rfl, common⟩).bind fun _ _ => releaseHolds_balanced.bind fun _ _ => .pure trivial

/-! ### The code of expressions -/

end Gen

/-- Code that leaves control where it was. -/
structure Code.Balanced (c : Context) (code : Code) : Prop where
  result : ∀ known, Gen.Balanced c known code.result
  branch : ∀ known l, l ∈ known → Gen.Balanced c known (code.branch l)

/-- Calls leave control where it was, if the code of the arguments does. -/
def CallCode.Balanced (c : Context) (calls : CallCode) : Prop :=
  ∀ known line name args, (∀ arg ∈ args, arg.Balanced c) → Gen.Balanced c known (calls line name args)

namespace Gen

variable {c : Context} {known : List String} {l : String} {code left right : Code}

theorem value_balanced (balanced : code.Balanced c) : Balanced c known code.value :=
  (balanced.result known).bind fun v _ => by
    cases v with
    | some name => exact .pure trivial
    | none => exact .fail _ _

theorem arithmetic_balanced (op : ArithmeticOp) (left' : left.Balanced c) (right' : right.Balanced c) :
    Balanced c known (arithmetic op left right) := by
  refine (value_balanced left').bind fun l _ => (arithmeticKind_balanced l).bind fun kind _ => ?_
  split
  · exact (addImmediate_balanced _ _).bind fun _ _ => (hint_balanced _).bind fun _ _ => .pure trivial
  · exact (value_balanced right').bind fun r _ => (combine_balanced op l r).bind fun _ _ =>
      (hint_balanced _).bind fun _ _ => (hint_balanced _).bind fun _ _ => .pure trivial

theorem shiftAmount_balanced (whole right : Expr) : Balanced c known (shiftAmount whole right) := by
  unfold shiftAmount
  split
  · exact .ite (fun _ => .pure trivial) fun _ => .fail _ _
  · exact .fail _ _

theorem shift_balanced (whole : Expr) (direction : ShiftDirection) (left' : left.Balanced c) (right : Expr) :
    Balanced c known (shift whole direction left right) :=
  (shiftAmount_balanced whole right).bind fun _ _ => (value_balanced left').bind fun l _ =>
    (kind_balanced l).bind fun _ _ => (refs_balanced l).bind fun _ _ =>
      (shifted_balanced _ _ _ _ _).bind fun _ _ => (hint_balanced _).bind fun _ _ => .pure trivial

theorem negate_balanced (operand : code.Balanced c) : Balanced c known (negate code) :=
  (value_balanced operand).bind fun v _ => (kind_balanced v).bind fun _ _ => (fetch_balanced v).bind fun _ _ =>
    (free_balanced v).bind fun _ _ => (newTemp_lays _ _).bind fun temp common =>
      (Lays.emit ⟨temp.2, rfl, common⟩).bind fun _ _ => releaseHolds_balanced.bind fun _ _ => .pure trivial

/-! ### Conditions -/

theorem conditionRegister_balanced (balanced : code.Balanced c) : Balanced c known (conditionRegister code) :=
  (value_balanced balanced).bind fun v _ => (fetch_balanced v).bind fun _ _ => (free_balanced v).bind fun _ _ =>
    (hint_balanced _).bind fun _ _ => Lays.sync.bind fun _ _ => .pure trivial

theorem commonKind_balanced (l r : String) : Balanced c known (commonKind l r) :=
  (arithmeticKind_balanced l).bind fun _ _ => (arithmeticKind_balanced r).bind fun _ _ =>
    .ite (fun _ => (convert_balanced l _).bind fun _ _ => (convert_balanced r _).bind fun _ _ => .pure trivial)
      fun _ => .pure trivial

theorem relationOperands_balanced (left' : left.Balanced c) (right' : right.Balanced c) :
    Balanced c known (relationOperands left right) := by
  refine (value_balanced left').bind fun l _ => ?_
  split
  · exact (fetch_balanced l).bind fun _ _ => (free_balanced l).bind fun _ _ => (hint_balanced _).bind fun _ _ =>
      .pure trivial
  · exact (value_balanced right').bind fun r _ => (commonKind_balanced l r).bind fun out _ =>
      (fetch_balanced out.1).bind fun _ _ => (fetch_balanced out.2).bind fun _ _ =>
        (free_balanced out.1).bind fun _ _ => (free_balanced out.2).bind fun _ _ =>
          (hint_balanced _).bind fun _ _ => (hint_balanced _).bind fun _ _ => .pure trivial

/-- The test of a relation is a branch. -/
theorem test_balanced (r : Relation) (a b : Reg) (inside : l ∈ known) :
    Balanced c known (emit (r.test a b l).1) := by
  cases r <;> exact .branch inside

theorem branchRelation_balanced (r : Relation) (left' : left.Balanced c) (right' : right.Balanced c)
    (inside : l ∈ known) : Balanced c known (branchRelation r left right l) := by
  refine (relationOperands_balanced left' right').bind fun operands _ => Lays.sync.bind fun _ _ => ?_
  have taken := test_balanced (c := c) r operands.1 operands.2 inside
  split
  · next branch is =>
    rw [is] at taken
    exact taken.bind fun _ _ => releaseHolds_balanced
  · exact .freshLabel fun around => (test_balanced r _ _ List.mem_cons_self).bind fun _ _ =>
      (Lays.emitJump (List.mem_cons_of_mem _ inside)).bind fun _ _ => releaseHolds_balanced.bind fun _ _ =>
        .placeLabel List.mem_cons_self

theorem branchBoth_balanced (left' : left.Balanced c) (right' : right.Balanced c) (inside : l ∈ known) :
    Balanced c known (branchBoth left right l) :=
  .freshLabel fun second => .freshLabel fun skip =>
    (left'.branch _ second (by simp)).bind fun _ _ => (Lays.jump (l := skip) (by simp)).bind fun _ _ =>
      (Lays.placeLabel (l := second) (by simp)).bind fun _ _ => (right'.branch _ l (by simp [inside])).bind fun _ _ =>
        .placeLabel (by simp)

theorem branchEither_balanced (left' : left.Balanced c) (right' : right.Balanced c) (inside : l ∈ known) :
    Balanced c known (branchEither left right l) :=
  (left'.branch known l inside).bind fun _ _ => right'.branch known l inside

theorem branchNot_balanced (balanced : code.Balanced c) (inside : l ∈ known) :
    Balanced c known (branchNot code l) :=
  (conditionRegister_balanced balanced).bind fun _ _ => .freshLabel fun _ =>
    (Lays.branch List.mem_cons_self).bind fun _ _ => (Lays.emitJump (List.mem_cons_of_mem _ inside)).bind fun _ _ =>
      releaseHolds_balanced.bind fun _ _ => .placeLabel List.mem_cons_self

theorem branchValue_balanced (balanced : code.Balanced c) (inside : l ∈ known) :
    Balanced c known (branchValue code l) :=
  (conditionRegister_balanced balanced).bind fun _ _ => (Lays.branch inside).bind fun _ _ => releaseHolds_balanced

theorem decided_balanced {branch : String → Gen Unit}
    (balanced : ∀ known l, l ∈ known → Balanced c known (branch l)) : Balanced c known (decided branch) :=
  (newTemp_lays _ _).bind fun temp _ => .freshLabel fun yes => .freshLabel fun done =>
    (balanced _ yes (by simp)).bind fun _ _ => (fetch_lays temp.1).bind fun rd common =>
      (Lays.emit ⟨rd, rfl, common⟩).bind fun _ _ => (Lays.jump (l := done) (by simp)).bind fun _ _ =>
        (Lays.placeLabel (l := yes) (by simp)).bind fun _ _ => (fetch_lays temp.1).bind fun rd common =>
          (Lays.emit ⟨rd, rfl, common⟩).bind fun _ _ => (Lays.placeLabel (l := done) (by simp)).bind fun _ _ =>
            releaseHolds_balanced.bind fun _ _ => .pure trivial

/-- The code of a relation as a value only writes the register that the value is for. -/
theorem valueCode_calm (r : Relation) {rd : Reg} (common : rd.Common) (a b : Reg) :
    ∀ i ∈ (r.valueCode? rd a b).getD [], MachineInstr.Calm i := by
  have writes : ∀ {i : MachineInstr}, i.written? = some rd → i.Calm := fun written => ⟨rd, written, common⟩
  cases r with
  | eq | ne => exact fun _ member => by cases member
  | lt | gt => exact List.forall_mem_singleton.2 (writes rfl)
  | le | ge => exact List.forall_mem_cons.2 ⟨writes rfl, List.forall_mem_cons.2 ⟨writes rfl,
      List.forall_mem_singleton.2 (writes rfl)⟩⟩

theorem relationValue_balanced (r : Relation) (left' : left.Balanced c) (right' : right.Balanced c) :
    Balanced c known (relationValue r left right) := by
  cases r with
  | eq | ne => exact decided_balanced fun _ _ inside => branchRelation_balanced _ left' right' inside
  | lt | gt | le | ge =>
    exact (relationOperands_balanced left' right').bind fun _ _ => (newTemp_lays _ _).bind fun temp common =>
      (Lays.emitAll (valueCode_calm _ common _ _)).bind fun _ _ => releaseHolds_balanced.bind fun _ _ =>
        .pure trivial

/-! ### Assignments -/

theorem markWritten_balanced (v : String) : Balanced c known (alloc (Alloc.markWritten v)) :=
  .alloc Alloc.tends_markWritten

theorem assignName_balanced (name v : String) : Balanced c known (assignName name v) := by
  refine (arithmeticKind_balanced name).bind fun kind _ => (convert_balanced v kind).bind fun v _ => ?_
  refine .ite (fun _ => .pure trivial) fun _ => (fetch_balanced v).bind fun rs _ => ?_
  exact Lays.bind (.alloc Alloc.tends_prepareWrite) fun rd common => .either (move_balanced common)
    ((free_balanced v).bind fun _ _ => (markWritten_balanced name).bind fun _ _ => releaseHolds_balanced)

theorem assignCode_balanced (name : String) (balanced : code.Balanced c) :
    Balanced c known (assignCode name code) := by
  refine (arithmeticKind_balanced name).bind fun kind _ => ?_
  dsimp only
  split
  · exact Lays.bind (.alloc Alloc.tends_prepareWrite) fun rd common =>
      (loadLiteral_balanced common _).bind fun _ _ => (markWritten_balanced name).bind fun _ _ =>
        releaseHolds_balanced
  · exact (value_balanced balanced).bind fun v _ => assignName_balanced name v

theorem assignVariable_balanced (whole : Expr) (op : Option WordOp) (name : String) (target : left.Balanced c)
    (value : right.Balanced c) : Balanced c known (assignVariable whole op name left right) := by
  refine (Lays.look _).bind fun _ _ => .refuse fun _ => (Lays.look _).bind fun _ _ => .refuse fun _ => ?_
  have last : Balanced c known (do hint right.expr; return name) :=
    (hint_balanced _).bind fun _ _ => .pure trivial
  cases op with
  | none => exact (assignCode_balanced name value).bind fun _ _ => last
  | some op =>
    cases op with
    | shift direction => exact (shift_balanced whole direction target right.expr).bind fun v _ =>
        (assignName_balanced name v).bind fun _ _ => last
    | arithmetic op => exact (value_balanced value).bind fun v _ => (combine_balanced op name v).bind fun v _ =>
        (assignName_balanced name v).bind fun _ _ => last

/-! ### Calls -/

/-- The code that moves the stack pointer. -/
def stackMove (words : Int) : List MachineInstr :=
  if words ≠ 0 then [.addi Reg.stackPointer Reg.stackPointer words] else []

/-- The code between the two halves of a call that deal with registers. -/
def transferCode (name : String) (stacked : List Reg) : List MachineInstr :=
  stackMove (-(stacked.length : Int)) ++ pushCode 0 stacked ++ [MachineInstr.callTo name]
    ++ stackMove stacked.length

theorem pushCode_slots (slot : Nat) (regs : List Reg) : ∀ i ∈ pushCode slot regs,
    ∃ (r : Reg) (x : Nat), x < slot + regs.length ∧ i = .sw r Reg.stackPointer (x : Int) := by
  induction regs generalizing slot with
  | nil => exact fun _ member => by cases member
  | cons r rest ih =>
    refine List.forall_mem_cons.2 ⟨⟨r, slot, by simp, rfl⟩, fun i member => ?_⟩
    obtain ⟨s, x, below, rfl⟩ := ih (slot + 1) i member
    exact ⟨s, x, by simp only [List.length_cons]; omega, rfl⟩

/-- The arguments are pushed below the return address, and popped again. -/
theorem transfer_passes {points : String → Point} {globals : Nat} {name : String}
    (entry : points name = .inside 0 .held) (stacked : List Reg) (words : Nat) (pt : Point) :
    Passes points globals (pt.suspended words) ((transferCode name stacked).map .plain) (pt.suspended words) := by
  simp only [transferCode, List.map_append]
  cases pt with
  | outside =>
    have moves : ∀ n, Passes points globals .outside ((stackMove n).map .plain) .outside := fun n =>
      .code fun i member => by
        unfold stackMove at member
        split at member
        · rw [List.mem_singleton.1 member]
          exact .outside rfl fun _ same => by cases same
        · cases member
    have pushes : Passes points globals .outside ((pushCode 0 stacked).map .plain) .outside :=
      .code fun i member => by
        obtain ⟨r, x, -, rfl⟩ := pushCode_slots 0 stacked i member
        exact .outside rfl fun _ same => by cases same
    exact (((moves _).append pushes).append (.single (.callOutside entry))).append (moves _)
  | inside d link =>
    -- The arguments lie below the word that keeps the return address.
    have lowers : Passes points globals (.inside (d + words) (.kept (d + words)))
        ((stackMove (-(stacked.length : Int))).map .plain)
        (.inside (d + words + stacked.length) (.kept (d + words))) := by
      unfold stackMove
      split
      · exact .single (.move (by push_cast; omega) fun k is => by cases is; omega)
      · next none =>
        have empty : stacked.length = 0 := by omega
        rw [empty]
        exact .nil
    have pushes : Passes points globals (.inside (d + words + stacked.length) (.kept (d + words)))
        ((pushCode 0 stacked).map .plain) (.inside (d + words + stacked.length) (.kept (d + words))) :=
      .code fun i member => by
        obtain ⟨r, x, below, rfl⟩ := pushCode_slots 0 stacked i member
        exact .store (by omega) fun k is => by cases is; omega
    have raises : Passes points globals (.inside (d + words + stacked.length) (.kept (d + words)))
        ((stackMove stacked.length).map .plain) (.inside (d + words) (.kept (d + words))) := by
      unfold stackMove
      split
      · exact .single (.move (by push_cast; omega) fun k is => by cases is; omega)
      · next none =>
        have empty : stacked.length = 0 := by omega
        rw [empty]
        exact .nil
    exact ((lowers.append pushes).append (.single (.callInside entry (by omega)))).append raises

theorem pushAll_pushAll (d : Draft) (code code' : Array MachineInstr) :
    (d.pushAll code).pushAll code' = d.pushAll (code ++ code') := by
  simp [Draft.pushAll, Array.append_assoc]

theorem exec_emit {p p' : Progress} {i : MachineInstr} {x : Unit} (ran : (emit i).exec c p = .ok (x, p')) :
    p' = { p with draft := p.draft.pushAll #[i] } := by
  cases ran
  have pushed : p.draft.push i = p.draft.pushAll #[i] := by
    simp [Draft.push, Draft.append, Draft.pushAll]
  rw [← pushed]

theorem exec_emitAll {p p' : Progress} {code : List MachineInstr} {x : Unit}
    (ran : (emitAll code).exec c p = .ok (x, p')) :
    p' = { p with draft := p.draft.pushAll code.toArray } := by
  cases ran
  rfl

theorem exec_moveStack {p p' : Progress} {words : Int} {x : Unit}
    (ran : (moveStack words).exec c p = .ok (x, p')) :
    p' = { p with draft := p.draft.pushAll (stackMove words).toArray } := by
  unfold moveStack at ran
  unfold stackMove
  split at ran
  · next some =>
    rw [if_pos some]
    exact exec_emit ran
  · next none =>
    rw [if_neg none]
    cases ran
    simp [Draft.pushAll]

/-- A call puts registers aside, transfers control with the arguments, and brings the registers back. -/
theorem exec_callWith {p p' : Progress} {name : String} {stacked : List Reg} {x : Unit}
    (ran : (callWith name stacked).exec c p = .ok (x, p')) :
    ∃ w w', Alloc.Ran Alloc.saveForCall ⟨p.allocator, #[]⟩ () w ∧
      Alloc.Ran Alloc.restoreAfterCall ⟨w.allocator, #[]⟩ () w' ∧
      (do alloc Alloc.unreserveAll; releaseHolds : Gen Unit).exec c { p with
        allocator := w'.allocator
        draft := p.draft.pushAll (w.code ++ (transferCode name stacked).toArray ++ w'.code) } = .ok (x, p') := by
  obtain ⟨_, _, saved, ran⟩ := exec_bind_ok ran
  obtain ⟨w, saves, rfl⟩ := exec_alloc saved
  obtain ⟨_, _, lowered, ran⟩ := exec_bind_ok ran
  cases exec_moveStack lowered
  obtain ⟨_, _, pushed, ran⟩ := exec_bind_ok ran
  cases exec_emitAll pushed
  obtain ⟨_, _, noted, ran⟩ := exec_bind_ok ran
  obtain ⟨_, pushes, rfl⟩ := exec_alloc noted
  cases Alloc.ran_change.1 pushes
  obtain ⟨_, _, called, ran⟩ := exec_bind_ok ran
  cases exec_emit called
  obtain ⟨_, _, raised, ran⟩ := exec_bind_ok ran
  cases exec_moveStack raised
  obtain ⟨_, _, noted', ran⟩ := exec_bind_ok ran
  obtain ⟨_, pops, rfl⟩ := exec_alloc noted'
  cases Alloc.ran_change.1 pops
  obtain ⟨_, _, restored, ran⟩ := exec_bind_ok ran
  obtain ⟨w', restores, rfl⟩ := exec_alloc restored
  have same : { w.allocator with
      pushed := w.allocator.pushed + (stacked.length : Int) - (stacked.length : Int) } = w.allocator := by
    rw [Int.add_sub_cancel]
  have restores' : Alloc.Ran Alloc.restoreAfterCall ⟨w.allocator, #[]⟩ () w' := by
    rw [← same]
    exact restores
  refine ⟨w, w', saves, restores', ?_⟩
  have code : (((((((p.draft.pushAll w.code).pushAll (stackMove (-(stacked.length : Int))).toArray).pushAll
      (pushCode 0 stacked).toArray).pushAll #[]).pushAll #[MachineInstr.callTo name]).pushAll
      (stackMove stacked.length).toArray).pushAll #[]).pushAll w'.code =
      p.draft.pushAll (w.code ++ (transferCode name stacked).toArray ++ w'.code) := by
    simp only [pushAll_pushAll, transferCode]
    simp [Array.append_assoc]
  rw [← code]
  exact ran

theorem callWith_balanced {name : String} (declared : ∃ f, (name, f) ∈ c.functions) (stacked : List Reg) :
    Balanced c known (callWith name stacked) := by
  intro p x p' tame flat ran
  obtain ⟨w, w', saves, restores, ran⟩ := exec_callWith ran
  obtain ⟨save, suspends⟩ := Alloc.saveForCall_suspends (w := ⟨p.allocator, #[]⟩) tame flat saves
  obtain ⟨others, pending⟩ := suspends.calls
  obtain ⟨tame', roomier, pushed, after, emitted', resumes⟩ := Alloc.restoreAfterCall_resumes
    (w := ⟨w.allocator, #[]⟩) suspends.tame pending suspends.words restores
  obtain ⟨before, emitted, passes⟩ := suspends.code
  rw [Array.empty_append] at emitted emitted'
  have level : w'.allocator.pushed = p.allocator.pushed := by
    have before := suspends.pushed
    dsimp only at before pushed
    omega
  have laid : Laid c known p { p with
      allocator := w'.allocator
      draft := p.draft.pushAll (w.code ++ (transferCode name stacked).toArray ++ w'.code) } := by
    refine ⟨tame', ⟨suspends.roomier.trans roomier, level⟩, Nat.le_refl _, _, toList_pushAll _ _,
      fun points globals pt stance low _ _ entered => ?_⟩
    obtain ⟨f, member⟩ := declared
    have transfers : Passes points globals _ _ _ := transfer_passes (entered _ member) stacked save.words pt
    rw [emitted, emitted', Alloc.entriesOf_append, Alloc.entriesOf_append]
    exact ((passes points globals pt (roomier.stance stance) (roomier.globals.trans low)).append transfers).append
      (resumes points globals pt (roomier.stance stance))
  have rest : Balanced c known (do alloc Alloc.unreserveAll; releaseHolds) :=
    (Lays.alloc Alloc.tends_unreserveAll).bind fun _ _ => releaseHolds_balanced
  exact ⟨trivial, laid.trans (rest _ x p' tame' (level.trans flat) ran).2⟩

theorem argument_balanced (balanced : code.Balanced c) (ty : TypeSpec) : Balanced c known (argument code ty) := by
  have last : ∀ v : String, Balanced c known (do hint code.expr; return v) := fun v =>
    (hint_balanced _).bind fun _ _ => .pure trivial
  exact (value_balanced balanced).bind fun v _ => .ite (fun _ => last v) fun _ =>
    (convert_balanced v _).bind fun v _ => last v

theorem arguments_balanced {pairs : List (Code × Param)} (balanced : ∀ p ∈ pairs, p.1.Balanced c) :
    Balanced c known (arguments pairs) := by
  induction pairs with
  | nil => exact .pure trivial
  | cons pair rest ih =>
    exact (argument_balanced (balanced _ List.mem_cons_self) pair.2.ty).bind fun _ _ =>
      (ih fun p member => balanced p (List.mem_cons_of_mem _ member)).bind fun _ _ => .pure trivial

theorem passInRegisters_balanced {pairs : List (String × Reg)} (arguments : ∀ p ∈ pairs, p.2 ∈ Reg.arguments) :
    Balanced c known (passInRegisters pairs) := by
  induction pairs with
  | nil => exact .pure trivial
  | cons pair rest ih =>
    have common := Reg.common_of_argument (arguments _ List.mem_cons_self)
    exact (Lays.alloc Alloc.tends_reserve).bind fun _ _ => (fetch_balanced _).bind fun _ _ =>
      .either (move_balanced common) ((free_balanced _).bind fun _ _ =>
        ih fun p member => arguments p (List.mem_cons_of_mem _ member))

theorem fetchAll_balanced (names : List String) : Balanced c known (names.mapM fetch) := by
  induction names with
  | nil =>
    rw [List.mapM_nil]
    exact .pure trivial
  | cons v rest ih =>
    rw [List.mapM_cons]
    exact (fetch_balanced v).bind fun _ _ => ih.bind fun _ _ => .pure trivial

theorem takeResult_balanced (ret : TypeSpec) : Balanced c known (takeResult ret) :=
  (newTemp_lays _ _).bind fun _ common => (move_balanced common).bind fun _ _ => .pure trivial

theorem callCompiled_balanced {name : String} {f : Function} {args : List Code}
    (declared : (name, f) ∈ c.functions) (balanced : ∀ arg ∈ args, arg.Balanced c) :
    Balanced c known (callCompiled name f args) := by
  refine (arguments_balanced fun p member => balanced p.1 (List.of_mem_zip member).1).bind fun values _ => ?_
  refine (passInRegisters_balanced fun p member => (List.of_mem_zip member).2).bind fun _ _ => ?_
  refine (fetchAll_balanced _).bind fun stacked _ => (Lays.forM fun v _ => free_balanced v).bind fun _ _ => ?_
  refine (callWith_balanced ⟨f, declared⟩ stacked).bind fun _ _ => .ite (fun _ => .pure trivial) fun _ => ?_
  exact (takeResult_balanced f.ret).bind fun _ _ => releaseHolds_balanced.bind fun _ _ => .pure trivial

/-! ### Expansions -/

theorem setKind_balanced (v : String) (kind : NumberKind) : Balanced c known (alloc (Alloc.setKind v kind)) :=
  .alloc Alloc.tends_setKind

theorem setRefs_balanced (v : String) (refs : Nat) : Balanced c known (alloc (Alloc.setRefs v refs)) :=
  .alloc Alloc.tends_setRefs

theorem expansionArgument_balanced (balanced : code.Balanced c) (param : Param) :
    Balanced c known (expansionArgument code param) := by
  have last : ∀ temp : String, Balanced c known (do
      alloc (Alloc.setKind temp param.ty.kind)
      alloc (Alloc.setRefs temp param.ty.refs)
      releaseHolds
      return temp) := fun temp => (setKind_balanced temp _).bind fun _ _ =>
    (setRefs_balanced temp _).bind fun _ _ => releaseHolds_balanced.bind fun _ _ => .pure trivial
  exact (argument_balanced balanced param.ty).bind fun v _ => (Lays.look _).bind fun _ _ =>
    .ite (fun _ => last v) fun _ => (fetch_balanced v).bind fun _ _ => (newTemp_lays _ _).bind fun temp common =>
      (move_balanced common).bind fun _ _ => last temp.1

theorem expansionArguments_balanced {pairs : List (Code × Param)} (balanced : ∀ p ∈ pairs, p.1.Balanced c) :
    Balanced c known (expansionArguments pairs) := by
  induction pairs with
  | nil => exact .pure trivial
  | cons pair rest ih =>
    exact (expansionArgument_balanced (balanced _ List.mem_cons_self) pair.2).bind fun _ _ =>
      (ih fun p member => balanced p (List.mem_cons_of_mem _ member)).bind fun _ _ => .pure trivial

theorem declareResult_balanced (ret : TypeSpec) : Balanced c known (declareResult ret) :=
  .ite (fun _ => (Lays.alloc Alloc.tends_declareVariable).bind fun _ _ => (setKind_balanced _ _).bind fun _ _ =>
    setRefs_balanced _ _) fun _ => .pure trivial

theorem modify_balanced {f : Progress → Progress} (allocator : ∀ p, (f p).allocator = p.allocator)
    (draft : ∀ p, (f p).draft = p.draft) : Balanced c known (modify f : Gen Unit) :=
  .quiet (g := fun p => ((), f p)) (fun _ => rfl) (fun p => ⟨allocator p, draft p⟩) fun _ => trivial

theorem expansionBody_balanced {body : Gen Unit} (balanced : Balanced c known body) :
    Balanced c known (expansionBody body) := by
  have noted : ∀ returned : Bool, Balanced c known (modify fun p => { p with returned } : Gen Unit) := fun _ =>
    modify_balanced (fun _ => rfl) fun _ => rfl
  have last : ∀ outer returned : Bool, Balanced c known (do modify fun p => { p with returned := outer }; return returned) :=
    fun outer _ => (noted outer).bind fun _ _ => .pure trivial
  exact .get fun before => (noted false).bind fun _ _ => balanced.bind fun _ _ => .get fun p =>
    last before.returned p.returned

theorem expansionResult_balanced (ret : TypeSpec) (returned : Bool) :
    Balanced c known (expansionResult ret returned) :=
  .ite (fun _ => .pure trivial) fun _ => .ite
    (fun _ => (Lays.alloc Alloc.tends_detachAsTemp).bind fun _ _ => .pure trivial)
    fun _ => (Lays.alloc Alloc.tends_remove).bind fun _ _ => (takeResult_balanced ret).bind fun _ _ => .pure trivial

theorem expand_balanced {f : Function} {args : List Code} {body : Exits → Gen Unit}
    (balanced : ∀ arg ∈ args, arg.Balanced c)
    (within : ∀ known done, done ∈ known → Balanced c known (body (Exits.ofFunction done f.ret true))) :
    Balanced c known (expand f args body) := by
  refine (expansionArguments_balanced fun p member => balanced p.1 (List.of_mem_zip member).1).bind fun temps _ => ?_
  refine (Lays.alloc Alloc.tends_pushLevel).bind fun _ _ => ?_
  refine (Lays.forM fun _ _ => .alloc Alloc.tends_setAlias).bind fun _ _ => (declareResult_balanced f.ret).bind
    fun _ _ => .freshLabel fun done => ?_
  refine (expansionBody_balanced (within _ done List.mem_cons_self)).bind fun returned _ => ?_
  refine (Lays.placeLabel List.mem_cons_self).bind fun _ _ => (expansionResult_balanced f.ret returned).bind
    fun _ _ => (Lays.forM fun _ _ => .alloc Alloc.tends_removeAlias).bind fun _ _ => ?_
  exact (Lays.alloc Alloc.tends_popLevel).bind fun _ _ => (Lays.forM fun v _ => free_balanced v).bind fun _ _ =>
    releaseHolds_balanced.bind fun _ _ => .pure trivial

theorem function?_lays (name : String) :
    Lays c known (function? name) fun f => ∀ g, f = some g → (name, g) ∈ c.functions := by
  refine .read (.pure fun g found => ?_)
  obtain ⟨before, after, split, -⟩ := List.lookup_eq_some_iff.1 found
  rw [split]
  exact List.mem_append_right before List.mem_cons_self

/-- A call is either transferred or expanded. -/
theorem call_balanced {expansion : Nat → String → Function → List Stmt → List Code → Gen (Option String)}
    (expands : ∀ known line name f body args, (name, f) ∈ c.functions → f.body = some body →
      (∀ arg ∈ args, arg.Balanced c) → Balanced c known (expansion line name f body args)) :
    (call expansion).Balanced c := by
  intro known line name args balanced
  refine (function?_lays name).bind fun f declared => ?_
  cases f with
  | none => exact (Lays.look _).bind fun _ _ => .ite (fun _ => .fail _ _) fun _ => .fail _ _
  | some f =>
    refine .refuse fun _ => ?_
    have compiled : Balanced c known (callCompiled name f args) := callCompiled_balanced (declared f rfl) balanced
    cases inlined : f.isInline with
    | false => exact compiled
    | true =>
      cases has : f.body with
      | none => exact compiled
      | some body => exact expands known line name f body args (declared f rfl) has balanced

end Gen

/-! ### Expressions -/

namespace Code

open Gen

variable {c : Context} {e : Expr}

theorem balanced_ofResult {result : Gen (Option String)} (balanced : ∀ known, Gen.Balanced c known result) :
    (Code.ofResult e result).Balanced c :=
  have value : (⟨e, result, fun _ => return⟩ : Code).Balanced c := ⟨balanced, fun _ _ _ => .pure trivial⟩
  ⟨balanced, fun _ _ inside => branchValue_balanced value inside⟩

theorem balanced_ofValue {value : Gen String} (balanced : ∀ known, Gen.Balanced c known value) :
    (Code.ofValue e value).Balanced c :=
  balanced_ofResult fun known => .map (balanced known)

theorem balanced_ofBranch {branch : String → Gen Unit}
    (balanced : ∀ known l, l ∈ known → Gen.Balanced c known (branch l)) : (Code.ofBranch e branch).Balanced c :=
  ⟨fun _ => .map (decided_balanced balanced), balanced⟩

end Code

namespace Gen

variable {c : Context} {calls : CallCode}

theorem readVariable_balanced {known : List String} (line : Nat) (name : String) :
    Balanced c known (readVariable line name) := by
  refine (Lays.look _).bind fun _ _ => .ite (fun _ => .pure trivial) fun _ => (function?_lays name).bind fun f _ => ?_
  cases f with
  | some f => exact .fail _ _
  | none => exact .fail _ _

theorem variable_balanced (line : Nat) (name : String) (n : Nat) : (code calls (.var line name n)).Balanced c := by
  rw [code]
  exact Code.balanced_ofValue fun _ => readVariable_balanced line name

/-- In a scalar program, an assignment is one to a variable. -/
theorem assign_balanced {known : List String} {value : Code} {target : Expr} (whole : Expr) (op : Option WordOp)
    (scalar : target.isScalar = true) (value' : value.Balanced c) :
    Balanced c known (assign whole target op (assignee calls target) value) := by
  cases target with
  | var line name n =>
    rw [assignee_var]
    exact assignVariable_balanced whole op name (variable_balanced line name n) value'
  | unary line op' operand =>
    cases op' with
    | deref => simp [Expr.isScalar] at scalar
    | neg | ref | not =>
      simp only [assignee]
      exact .fail _ _
  | index => simp [Expr.isScalar] at scalar
  | int | fixed | binary | assign | call =>
    simp only [assignee]
    exact .fail _ _

mutual

/-- The code of a scalar expression leaves control where it was. -/
theorem code_balanced (calls' : calls.Balanced c) : ∀ e : Expr, e.isScalar = true → (code calls e).Balanced c
  | .int line value, _ => by
    rw [code]
    exact Code.balanced_ofValue fun _ => literal_balanced value .int
  | .fixed line value, _ => by
    rw [code]
    exact Code.balanced_ofValue fun _ => literal_balanced value .fixed
  | .var line name n, _ => variable_balanced line name n
  | .binary line op left right, scalar => by
    rw [Expr.isScalar, Bool.and_eq_true] at scalar
    have left' := code_balanced calls' left scalar.1
    have right' := code_balanced calls' right scalar.2
    cases op with
    | word op =>
      cases op with
      | arithmetic op =>
        rw [code]
        exact Code.balanced_ofValue fun _ => arithmetic_balanced op left' right'
      | shift direction =>
        rw [code]
        exact Code.balanced_ofValue fun _ => shift_balanced _ direction left' right
    | relation r =>
      rw [code]
      exact ⟨fun _ => .map (relationValue_balanced r left' right'),
        fun _ _ inside => branchRelation_balanced r left' right' inside⟩
    | logical op =>
      cases op with
      | and =>
        rw [code]
        exact Code.balanced_ofBranch fun _ _ inside => branchBoth_balanced left' right' inside
      | or =>
        rw [code]
        exact Code.balanced_ofBranch fun _ _ inside => branchEither_balanced left' right' inside
  | .assign line op target value, scalar => by
    rw [Expr.isScalar, Bool.and_eq_true] at scalar
    rw [code]
    exact Code.balanced_ofValue fun _ => assign_balanced _ op scalar.1 (code_balanced calls' value scalar.2)
  | .unary line op operand, scalar => by
    rw [Expr.isScalar, Bool.and_eq_true] at scalar
    have operand' := code_balanced calls' operand scalar.2
    cases op with
    | neg =>
      rw [code]
      exact Code.balanced_ofValue fun _ => negate_balanced operand'
    | not =>
      rw [code]
      exact Code.balanced_ofBranch fun _ _ inside => branchNot_balanced operand' inside
    | ref | deref => simp at scalar
  | .call line name args, scalar => by
    rw [Expr.isScalar] at scalar
    rw [code]
    exact Code.balanced_ofResult fun known => calls' known line name _ (codes_balanced calls' args scalar)
  | .index line name n indices, scalar => by
    rw [Expr.isScalar] at scalar
    cases scalar

theorem codes_balanced (calls' : calls.Balanced c) :
    ∀ es : List Expr, Expr.areScalar es = true → ∀ code ∈ codes calls es, code.Balanced c
  | [], _ => by
    rw [codes]
    exact fun _ member => by cases member
  | e :: rest, scalar => by
    rw [Expr.areScalar, Bool.and_eq_true] at scalar
    rw [codes]
    exact List.forall_mem_cons.2 ⟨code_balanced calls' e scalar.1, codes_balanced calls' rest scalar.2⟩

end

end Gen

end SmallC
