import SmallC.Proofs.Generation.Conditions

/-!
Calls. The values of the arguments are held from their own computation up to where the function takes them
over, and of the call itself only the result is left. An expansion opens a level of names and closes it
again, so that what its body declares and the names of the parameters are gone with it.
-/
namespace SmallC

theorem Level.lookup_without {names : List (String × VarId)} {name : String}
    (absent : names.lookup name = none) (other : String) :
    (Level.without other names).lookup name = none :=
  Level.lookup_eq_none.2 fun entry member => Level.lookup_eq_none.1 absent entry (Level.mem_without.1 member).1

theorem Shape.Ready.opened {s : Shape} (ready : s.Ready) {further : List (String × VarId)}
    (plain : further.lookup resultName = none) :
    ({ s with aliases := s.aliases ++ [further] } : Shape).Ready := by
  refine ⟨ready.unreserved, fun other member => ?_, fun inside => ?_⟩
  · rcases List.mem_append.1 member with member | member
    · exact ready.plain other member
    · rwa [List.mem_singleton.1 member]
  · have deep := ready.deep inside
    simp only [List.length_append]
    omega

namespace Alloc

open Allocator

variable {s : Shape}

/-! ### Pending calls and open expansions -/

/-- The state around a call: it is in order, and it has a given shape. -/
def Around (s : Shape) (a : Allocator) : Prop := InOrder a ∧ a.shape = s

theorem saveForCall_leaves : Leads (At s) saveForCall fun _ => Around s := by
  intro w _ w' before ran
  refine ⟨step_inOrder .saveForCall ⟨before.sound, .inl before.idle⟩ before.idle ran, ?_⟩
  exact (shape_saveForCall before.sound ran).trans before.shape

theorem pushWords_around (words : Int) : Leads (Around s) (pushWords words) fun _ => Around s := by
  intro w _ w' before ran
  refine ⟨step_inOrder (.pushWords words) before.1 trivial ran, ?_⟩
  rw [ran_change.1 ran]
  exact before.2

theorem popWords_around (words : Int) : Leads (Around s) (popWords words) fun _ => Around s := by
  intro w _ w' before ran
  refine ⟨step_inOrder (.popWords words) before.1 trivial ran, ?_⟩
  rw [ran_change.1 ran]
  exact before.2

theorem restoreAfterCall_returns : Leads (Around s) restoreAfterCall fun _ => At s := by
  intro w _ w' before ran
  obtain ⟨⟨sound, idle | ⟨save, pending, waits⟩⟩, shape⟩ := before
  · obtain ⟨save, calls, back, pending, -⟩ := ran_restoreAfterCall ran
    cases idle.symm.trans pending
  · obtain ⟨sound', idle⟩ := restoreAfterCall_sound sound pending waits ran
    exact ⟨sound', idle, (shape_restoreAfterCall ran).trans shape⟩

theorem unreserveAll_frees (s : Shape) (regs : List Reg) :
    Leads (At { s with reserved := regs }) unreserveAll fun _ => At { s with reserved := [] } := by
  intro w _ w' before ran
  obtain ⟨sound, calls⟩ := unreserveAll_sound before.sound ran
  exact ⟨sound, calls.trans before.idle, by rw [shape_unreserveAll ran, before.shape]⟩

/-- The state inside of one more level. None of its further names is that of the variable that takes the
result of an expansion. -/
def Opened (s : Shape) (a : Allocator) : Prop :=
  ∃ further : List (String × VarId), At { s with aliases := s.aliases ++ [further] } a ∧
    further.lookup resultName = none

/-- A further name in the innermost level. -/
theorem Opened.renamed {w w' : Work} {further : List (String × VarId)}
    {f : List (String × VarId) → List (String × VarId)}
    (before : At { s with aliases := s.aliases ++ [further] } w.allocator)
    (sound : Sound [] w'.allocator) (calls : w'.allocator.calls = w.allocator.calls)
    (shape : w'.allocator.shape = { w.allocator.shape with
      aliases := w.allocator.shape.aliases.modify w.allocator.depth f })
    (plain : (f further).lookup resultName = none) : Opened s w'.allocator := by
  refine ⟨f further, ⟨sound, calls.trans before.idle, ?_⟩, plain⟩
  have depth : w.allocator.depth = s.aliases.length := by
    have length := congrArg (fun s : Shape => s.aliases.length) before.shape
    simp only [Allocator.shape, List.length_map, length_levels, List.length_append,
      List.length_singleton] at length
    omega
  rw [shape, before.shape, depth]
  rw [List.modify_eq_take_drop]
  simp

theorem pushLevel_opened (hides : Bool) : Leads (At s) (pushLevel hides) fun _ => Opened s :=
  fun w x w' before ran => ⟨[], pushLevel_opens hides w x w' before ran, rfl⟩

theorem popLevel_closed (ready : s.Ready) : Leads (Opened s) popLevel fun _ => At s := by
  rintro w x w' ⟨further, before, -⟩ ran
  exact popLevel_closes ready.deep w x w' before ran

theorem setAlias_opened {name : String} (other : name ≠ resultName) (target : String) :
    Leads (Opened s) (setAlias name target) fun _ => Opened s := by
  rintro w _ w' ⟨further, before, plain⟩ ran
  obtain ⟨sound, calls⟩ := setAlias_sound before.sound ran
  obtain ⟨id, shape⟩ := shape_setAlias ran
  refine Opened.renamed before sound calls shape ?_
  rw [List.lookup_cons, beq_false_of_ne other.symm]
  exact Level.lookup_without plain _

theorem removeAlias_opened (name : String) :
    Leads (Opened s) (removeAlias name) fun _ => Opened s := by
  rintro w _ w' ⟨further, before, plain⟩ ran
  obtain ⟨sound, calls⟩ := removeAlias_sound before.sound ran
  exact Opened.renamed before sound calls (shape_removeAlias ran) (Level.lookup_without plain _)

/-! ### The variable that takes the result of an expansion -/

theorem At.result_named {a : Allocator} (ready : s.Ready) (before : At s a) {id : VarId} {v : Variable}
    (resolved : a.find? resultName = some id) (found : a.var? id = some v) :
    v.isTemp = false ∧ v.name = resultName := by
  refine named_of_find? before.sound.names (by rw [before.shape]; exact ready.plain) ?_ resolved found
  rw [Level.lookup_eq_none]
  intro entry member own
  have alive : resultName ∈ a.shape.alive := Multiset.mem_coe.2 (List.mem_map.2 ⟨entry, member, own⟩)
  cases isTempName_resultName.symm.trans (isTempName_of_alive before.sound alive)

theorem detachResult_holds (ready : s.Ready) :
    Leads (At s) (detachAsTemp resultName) fun t => At (s.holding t) := by
  intro w t w' before ran
  obtain ⟨shape, n, rfl⟩ := shape_detachAsTemp before.sound ran
  refine ⟨detachAsTemp_sound before.sound (At.result_named ready before) ran,
    (detachAsTemp_calls before.sound ran).trans before.idle, ?_⟩
  rw [shape, before.shape, Shape.holding_temp (isTempName_tempName n)]

theorem removeResult_stays (ready : s.Ready) : Leads (At s) (remove resultName) fun _ => At s := by
  intro w _ w' before ran
  obtain ⟨id, mid, resolved, dropped⟩ := ran_bind.1 ran
  obtain ⟨resolved, rfl⟩ := ran_resolve.1 resolved
  obtain ⟨v, found, -⟩ := ran_drop dropped
  have shape := shape_drop before.sound found dropped
  rw [(At.result_named ready before resolved found).1, if_neg Bool.false_ne_true] at shape
  exact before.of_sound (drop_sound before.sound dropped) (drop_calls dropped) shape

end Alloc

namespace Gen

open Allocator

variable {c : Context} {s : Shape} {args : List Code}

/-! ### Arguments -/

theorem argument_yields {arg : Code} (tidy : arg.Tidy c) (ty : TypeSpec) :
    Yields c (argument arg ty) := by
  intro s ready
  refine (value_yields tidy s ready).bind fun v => ?_
  have last : ∀ v, Meets c (At (s.holding v)) (do hint arg.expr; return v) fun v => At (s.holding v) :=
    fun v => (hint_stays _).bind fun _ => .pure fun _ after => after
  exact .ite (fun _ => last v) fun _ => (convert_trades _ s).bind last

/-- What yields one value at a time yields all of them. -/
theorem arguments_yield {pairs : List (Code × Param)} (tidy : ∀ p ∈ pairs, p.1.Tidy c)
    (ready : s.Ready) : Meets c (At s) (arguments pairs) fun vs => At (s.holdingAll vs) := by
  induction pairs generalizing s with
  | nil => exact .pure fun _ after => after
  | cons pair rest ih =>
    refine (argument_yields (tidy _ List.mem_cons_self) pair.2.ty s ready).bind fun v => ?_
    refine (ih (fun p member => tidy p (List.mem_cons_of_mem _ member)) (ready.holding v)).bind fun vs => ?_
    rw [Shape.holdingAll_holding]
    exact .pure fun _ after => after

/-- A new temporary that stands for a parameter has the value of the argument, or is it. -/
theorem expansionArgument_yields {arg : Code} (tidy : arg.Tidy c) (param : Param) :
    Yields c (expansionArgument arg param) := by
  intro s ready
  refine (argument_yields tidy param.ty s ready).bind fun v => ?_
  have last : ∀ temp, Meets c (At (s.holding temp)) (do
      alloc (Alloc.setKind temp param.ty.kind)
      alloc (Alloc.setRefs temp param.ty.refs)
      releaseHolds
      return temp) fun v => At (s.holding v) := fun temp =>
    (Meets.alloc (Alloc.setKind_stays temp _)).bind fun _ =>
      (Meets.alloc (Alloc.setRefs_stays temp _)).bind fun _ => computed temp
  refine (isTemp_held v).bind fun isTemp => .given fun own => .ite (fun _ => last v) fun no => ?_
  have named : isTempName v = false := by rw [← own]; exact Bool.eq_false_of_not_eq_true no
  rw [Shape.holding_named named]
  exact (fetch_stays v).bind fun _ => newTemp_bind fun temp _ _ => (emit_stays _).bind fun _ => last temp

theorem expansionArguments_yield {pairs : List (Code × Param)} (tidy : ∀ p ∈ pairs, p.1.Tidy c)
    (ready : s.Ready) : Meets c (At s) (expansionArguments pairs) fun vs => At (s.holdingAll vs) := by
  induction pairs generalizing s with
  | nil => exact .pure fun _ after => after
  | cons pair rest ih =>
    refine (expansionArgument_yields (tidy _ List.mem_cons_self) pair.2 s ready).bind fun v => ?_
    refine (ih (fun p member => tidy p (List.mem_cons_of_mem _ member)) (ready.holding v)).bind fun vs => ?_
    rw [Shape.holdingAll_holding]
    exact .pure fun _ after => after

/-! ### Compiled functions -/

theorem map_fst_zip {α β : Type} (xs : List α) (ys : List β) :
    (xs.zip ys).map Prod.fst = xs.take ys.length := by
  induction xs generalizing ys with
  | nil => simp
  | cons x rest ih => cases ys <;> simp [ih]

/-- What travels in registers is given up. -/
theorem passInRegisters_gives {pairs : List (String × Reg)} (argument : ∀ p ∈ pairs, p.2 ∈ Reg.arguments) :
    Meets c (At (s.holdingAll (pairs.map Prod.fst))) (passInRegisters pairs) fun _ => At s := by
  induction pairs with
  | nil => exact .pure fun _ after => after
  | cons pair rest ih =>
    have later := ih fun p member => argument p (List.mem_cons_of_mem _ member)
    refine (Meets.alloc (Alloc.reserve_stays (argument _ List.mem_cons_self))).bind fun _ => ?_
    exact (fetch_stays pair.1).bind fun _ => .either (emit_stays _) ((free_gives pair.1).bind fun _ => later)

theorem fetchAll_stays (names : List String) : Meets c (At s) (names.mapM fetch) fun _ => At s := by
  induction names with
  | nil => exact .pure fun _ after => after
  | cons name rest ih =>
    rw [List.mapM_cons]
    exact (fetch_stays name).bind fun _ => ih.bind fun _ => .pure fun _ after => after

theorem freeAll_gives (names : List String) :
    Meets c (At (s.holdingAll names)) (names.forM free) fun _ => At s :=
  Meets.forM (I := fun names => At (s.holdingAll names)) names fun name _ _ => free_gives name

theorem moveStack_stays {P : Allocator → Prop} (words : Int) :
    Meets c P (moveStack words) fun _ => P :=
  .ite (fun _ => emit_stays _) fun _ => .pure fun _ before => before

theorem callWith_stays (name : String) (stacked : List Reg) : Stays c (callWith name stacked) := by
  intro s ready
  have frees := Alloc.unreserveAll_frees s s.reserved
  rw [← ready.unreserved] at frees
  exact (Meets.alloc Alloc.saveForCall_leaves).bind fun _ => (moveStack_stays _).bind fun _ =>
    (emitAll_stays _).bind fun _ => (Meets.alloc (Alloc.pushWords_around _)).bind fun _ =>
    (emit_stays _).bind fun _ => (moveStack_stays _).bind fun _ =>
    (Meets.alloc (Alloc.popWords_around _)).bind fun _ =>
    (Meets.alloc Alloc.restoreAfterCall_returns).bind fun _ => (Meets.alloc frees).bind fun _ =>
    releaseHolds_stays

theorem takeResult_yields (ret : TypeSpec) :
    Meets c (At s) (takeResult ret) fun v => At (s.holding v) :=
  newTemp_bind fun _ _ _ => (emit_stays _).bind fun _ => .pure fun _ after => after

theorem callCompiled_yields (name : String) (f : Function) (tidy : ∀ arg ∈ args, arg.Tidy c) :
    YieldsMaybe c (callCompiled name f args) := by
  intro s ready
  refine (arguments_yield (fun p member => tidy _ (List.of_mem_zip member).1) ready).bind fun values => ?_
  have split : values = (values.zip Reg.arguments).map Prod.fst ++ values.drop Reg.argumentCount := by
    rw [map_fst_zip]
    exact (List.take_append_drop _ _).symm
  have taken : At (s.holdingAll values) = At (((s.holdingAll (values.drop Reg.argumentCount))).holdingAll
      ((values.zip Reg.arguments).map Prod.fst)) := by
    rw [← Shape.holdingAll_append, ← split]
  rw [taken]
  refine (passInRegisters_gives fun p member => (List.of_mem_zip member).2).bind fun _ => ?_
  refine (fetchAll_stays _).bind fun stacked => (freeAll_gives _).bind fun _ => ?_
  refine (callWith_stays name stacked s ready).bind fun _ => .ite (fun _ => .pure fun _ after => after) fun _ => ?_
  exact (takeResult_yields f.ret).bind fun temp => releaseHolds_stays.bind fun _ => .pure fun _ after => after

/-! ### Expansions -/

theorem declareResult_stays (ret : TypeSpec) : Meets c (At s) (declareResult ret) fun _ => At s :=
  .ite (fun _ => (Meets.alloc (Alloc.declareVariable_stays _)).bind fun _ =>
    (Meets.alloc (Alloc.setKind_stays _ _)).bind fun _ => .alloc (Alloc.setRefs_stays _ _))
    fun _ => .pure fun _ before => before

/-- Inside of one more level, what leaves the shape alone leaves the level open. -/
theorem Stays.opened {α : Type} {act : Gen α} (stays : Stays c act) (ready : s.Ready) :
    Meets c (Alloc.Opened s) act fun _ => Alloc.Opened s :=
  .of_exists fun further => .given fun plain =>
    (stays _ (ready.opened plain)).weaken (fun _ before => before) fun _ _ after => ⟨further, after, plain⟩

theorem expansionBody_stays {body : Gen Unit} (stays : Stays c body) :
    Stays c (expansionBody body) := fun s ready => by
  have noted : ∀ returned, Meets c (At s) (modify fun p => { p with returned } : Gen Unit) fun _ => At s :=
    fun _ => modify_stays fun _ => rfl
  exact .get fun p => (noted false).bind fun _ => (stays s ready).bind fun _ => .get fun q =>
    (noted p.returned).bind fun _ => .pure (x := q.returned) fun _ before => before

theorem expansionResult_yields (ret : TypeSpec) (returned : Bool) :
    YieldsMaybe c (expansionResult ret returned) := fun _ ready =>
  .ite (fun _ => .pure fun _ before => before) fun _ => .ite
    (fun _ => (Meets.alloc (Alloc.detachResult_holds ready)).bind fun _ => .pure fun _ after => after)
    fun _ => (Meets.alloc (Alloc.removeResult_stays ready)).bind fun _ =>
      (takeResult_yields ret).bind fun _ => .pure fun _ after => after

/-- The result is held outside of the level that it was computed in. -/
theorem YieldsMaybe.opened {act : Gen (Option String)} (yields : YieldsMaybe c act) (ready : s.Ready) :
    Meets c (Alloc.Opened s) act fun v => Alloc.Opened (s.holdingAll v.toList) :=
  .of_exists fun further => .given fun plain =>
    (yields _ (ready.opened plain)).weaken (fun _ before => before) fun v a after => by
      refine ⟨further, ?_, plain⟩
      rwa [Shape.aliases_holdingAll, ← Shape.holdingAll_aliases]

/-- The temporaries that the parameters stand for are held until the level of the expansion is closed. -/
theorem expand_yields {f : Function} {body : Exits → Gen Unit}
    (params : ∀ param ∈ f.params, param.name ≠ resultName)
    (stays : ∀ label, Stays c (body (Exits.ofFunction label f.ret true)))
    (tidy : ∀ arg ∈ args, arg.Tidy c) : YieldsMaybe c (expand f args body) := by
  intro s ready
  refine (expansionArguments_yield (fun p member => tidy _ (List.of_mem_zip member).1) ready).bind fun temps => ?_
  have held := ready.holdingAll temps
  refine (Meets.alloc (Alloc.pushLevel_opened true)).bind fun _ => ?_
  refine (Meets.forM (I := fun _ => Alloc.Opened (s.holdingAll temps)) _ fun pair _ member => .alloc
    (Alloc.setAlias_opened (params _ (List.of_mem_zip member).1) pair.2)).bind fun _ => ?_
  refine (Stays.opened (fun _ _ => declareResult_stays f.ret) held).bind fun _ => ?_
  refine freshLabel_stays.bind fun done => ?_
  refine ((expansionBody_stays (stays done)).opened held).bind fun returned => ?_
  refine (Stays.opened (fun _ _ => placeLabel_stays done) held).bind fun _ => ?_
  refine ((expansionResult_yields f.ret returned).opened held).bind fun result => ?_
  refine (Meets.forM (I := fun _ => Alloc.Opened ((s.holdingAll temps).holdingAll result.toList)) _
    fun param _ _ => .alloc (Alloc.removeAlias_opened param.name)).bind fun _ => ?_
  refine (Meets.alloc (Alloc.popLevel_closed (held.holdingAll result.toList))).bind fun _ => ?_
  rw [Shape.holdingAll_comm]
  exact (freeAll_gives temps).bind fun _ => releaseHolds_stays.bind fun _ => .pure fun _ after => after

end Gen

/-! ### Every call -/

/-- Calls that leave nothing behind but their results. -/
def CallCode.Tidy (c : Context) (calls : CallCode) : Prop :=
  ∀ line name args, (∀ arg ∈ args, Code.Tidy c arg) → Gen.YieldsMaybe c (calls line name args)

theorem Gen.call_tidy {c : Context}
    {expansion : Nat → String → Function → List Stmt → List Code → Gen (Option String)}
    (yields : ∀ line name f body args, c.functions.lookup name = some f → f.body = some body →
      (∀ arg ∈ args, Code.Tidy c arg) → YieldsMaybe c (expansion line name f body args)) :
    CallCode.Tidy c (call expansion) := by
  intro line name args tidy s ready
  refine (function?_stays name).bind fun f => .given fun found => ?_
  cases f with
  | none => exact (look_stays _).bind fun _ => .ite (fun _ => .fail _ _) fun _ => .fail _ _
  | some f =>
    refine .refuse fun _ => ?_
    split
    · next body _ has => exact yields line name f body args found.symm has tidy s ready
    · exact callCompiled_yields name f tidy s ready

end SmallC
