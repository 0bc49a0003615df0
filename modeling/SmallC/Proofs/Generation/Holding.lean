import SmallC.Proofs.Generation.Names
import SmallC.Proofs.Generation.Triples

/-!
What the generator holds on to between operations. The value of an expression has a name, and whoever
computes it holds a temporary if that is what the name is of; a name that a source can give to a variable
never is. Each basic step of the generator is a triple over the shape of the state.
-/
namespace SmallC

/-- The temporaries that one holds by holding a value: the value itself, if it is one. -/
def own (name : String) : Multiset String := if isTempName name then {name} else 0

namespace Shape

/-- The shape of a state in which a value is held in addition. -/
def holding (s : Shape) (name : String) : Shape := { s with alive := own name + s.alive }

/-- The shape of a state in which several values are held in addition. -/
def holdingAll (s : Shape) (names : List String) : Shape := names.foldr (fun n s => s.holding n) s

variable {s : Shape} {u v : String}

theorem holding_temp (isTemp : isTempName v = true) : s.holding v = s.plus v := by
  simp [holding, plus, own, isTemp]

theorem holding_named (named : isTempName v = false) : s.holding v = s := by
  simp [holding, own, named]

theorem holding_comm (s : Shape) (u v : String) :
    (s.holding u).holding v = (s.holding v).holding u := by
  simp only [holding, add_left_comm]

theorem holdingAll_holding (s : Shape) (names : List String) (v : String) :
    (s.holding v).holdingAll names = (s.holdingAll names).holding v := by
  induction names with
  | nil => rfl
  | cons n rest ih =>
    change ((s.holding v).holdingAll rest).holding n = ((s.holdingAll rest).holding n).holding v
    rw [ih, holding_comm]

theorem holdingAll_append (s : Shape) (names more : List String) :
    s.holdingAll (names ++ more) = (s.holdingAll more).holdingAll names := List.foldr_append ..

theorem holdingAll_comm (s : Shape) (names more : List String) :
    (s.holdingAll names).holdingAll more = (s.holdingAll more).holdingAll names := by
  induction more with
  | nil => rfl
  | cons n rest ih =>
    change ((s.holdingAll names).holdingAll rest).holding n = ((s.holdingAll rest).holding n).holdingAll names
    rw [ih, holdingAll_holding]

/-- What is held has nothing to do with the names of the levels. -/
theorem holdingAll_aliases (s : Shape) (names : List String) (aliases : List (List (String × VarId))) :
    ({ s with aliases } : Shape).holdingAll names = { s.holdingAll names with aliases } := by
  induction names with
  | nil => rfl
  | cons n rest ih =>
    change (({ s with aliases } : Shape).holdingAll rest).holding n = _
    rw [ih]
    rfl

theorem aliases_holdingAll (s : Shape) (names : List String) :
    (s.holdingAll names).aliases = s.aliases := by
  induction names with
  | nil => rfl
  | cons n rest ih => exact ih

theorem plus_inj {t : Shape} (same : s.plus u = t.plus u) : s = t := by
  obtain ⟨alive, aliases, inside, reserved⟩ := s
  obtain ⟨alive', aliases', inside', reserved'⟩ := t
  simp only [plus, Shape.mk.injEq, Multiset.cons_inj_right] at same
  simp only [same]

end Shape

namespace Allocator

/-- The state between two operations: it is in order, no call is pending, and it has a given shape. -/
structure At (s : Shape) (a : Allocator) : Prop where
  sound : Sound [] a
  idle : a.calls = []
  shape : a.shape = s

variable {s t : Shape} {a a' : Allocator}

theorem At.of_sound (before : At s a) (sound : Sound [] a') (calls : a'.calls = a.calls)
    (shape : a'.shape = a.shape) : At s a' := ⟨sound, calls.trans before.idle, shape.trans before.shape⟩

/-- A step of the protocol from one state between operations to another. -/
theorem At.step {w w' : Work} {op : Operation} (before : At s w.allocator)
    (permitted : op.Permitted w.allocator) (ran : Alloc.Ran op.act w () w')
    (calls : w'.allocator.calls = w.allocator.calls) (shape : w'.allocator.shape = t) :
    At t w'.allocator :=
  ⟨(step_inOrder op ⟨before.sound, .inl before.idle⟩ permitted ran).sound, calls.trans before.idle,
    shape⟩

/-- Temporaries have names of their own form. -/
theorem isTempName_of_alive (sound : Sound [] a) {name : String} (alive : name ∈ a.shape.alive) :
    isTempName name = true := by
  obtain ⟨⟨name, id⟩, member, rfl⟩ := List.mem_map.1 (Multiset.mem_coe.1 alive)
  obtain ⟨n, -, own⟩ := sound.names.tempNumber member
  rw [own]
  exact isTempName_tempName n

end Allocator

namespace Alloc

open Allocator

variable {α : Type} {s : Shape}

/-! ### Operations that leave the shape alone -/

/-- An operation that leaves the state as it is but for what the shape says nothing about. -/
theorem stays {act : Alloc α}
    (does : ∀ {w x w'}, Sound [] w.allocator → w.allocator.calls = [] → Ran act w x w' →
      Sound [] w'.allocator ∧ w'.allocator.calls = w.allocator.calls ∧
        w'.allocator.shape = w.allocator.shape) :
    Leads (At s) act fun _ => At s := by
  intro w x w' before ran
  obtain ⟨sound, calls, shape⟩ := does before.sound before.idle ran
  exact ⟨sound, calls.trans before.idle, shape.trans before.shape⟩

/-- An operation that only reads. -/
theorem stays_of_reads {act : Alloc α} (reads : ∀ {w x w'}, Ran act w x w' → w' = w) :
    Leads (At s) act fun _ => At s :=
  stays fun sound _ ran => by
    rw [reads ran]
    exact ⟨sound, rfl, rfl⟩

theorem getRegister_stays (name : String) (modifies : Bool) :
    Leads (At s) (getRegister name modifies) fun _ => At s :=
  stays fun sound _ ran =>
    ⟨getRegister_sound sound ran, (getRegister_reads sound ran).1.calls, shape_getRegister sound ran⟩

theorem releaseHolds_stays : Leads (At s) releaseHolds fun _ => At s :=
  stays fun sound _ ran => by
    rw [ran_change.1 ran]
    exact ⟨sound.congr (fun _ => Iff.rfl) rfl, rfl, rfl⟩

theorem hold_stays (r : Reg) : Leads (At s) (hold r) fun _ => At s :=
  stays fun sound _ ran => by
    rw [ran_hold.1 ran]
    exact ⟨sound.congr (fun _ => Iff.rfl) rfl, rfl, rfl⟩

theorem sync_stays : Leads (At s) sync fun _ => At s :=
  stays fun sound _ ran => ⟨(sync_sound sound ran).1, (sync_sound sound ran).2, shape_sync sound ran⟩

theorem demote_stays (name : String) : Leads (At s) (demote name) fun _ => At s :=
  stays fun sound _ ran => ⟨(demote_sound sound ran).1, (demote_sound sound ran).2, shape_demote ran⟩

theorem knownAs_stays (f : Variable → α) (name : String) :
    Leads (At s) (return f (← knownAs name)) fun _ => At s :=
  stays_of_reads fun ran => knownAs_reads (fun _ ran => (ran_pure.1 ran).2) ran

theorem kind_stays (name : String) : Leads (At s) (kind name) fun _ => At s :=
  knownAs_stays Variable.kind name

theorem refs_stays (name : String) : Leads (At s) (refs name) fun _ => At s :=
  knownAs_stays Variable.refs name

theorem dims_stays (name : String) : Leads (At s) (dims name) fun _ => At s :=
  knownAs_stays Variable.dims name

theorem arrayAddress_stays (name : String) : Leads (At s) (arrayAddress name) fun _ => At s :=
  stays_of_reads fun ran => knownAs_reads (fun v ran => by
    split at ran
    · exact (ran_addressOf.1 ran).2
    · exact (ran_throw.1 ran).elim) ran

theorem memoryAddress_stays (name : String) : Leads (At s) (memoryAddress name) fun _ => At s :=
  stays fun sound _ ran =>
    ⟨(memoryAddress_sound sound ran).1, (memoryAddress_sound sound ran).2, shape_memoryAddress ran⟩

/-- A note about a variable that is of no concern to where it is. -/
theorem note_stays {f : Variable → Variable} (name : String)
    (note : ∀ v, (f v).storage = v.storage ∧ (f v).name = v.name ∧ (f v).isTemp = v.isTemp ∧
      (f v).depth = v.depth ∧ (f v).home = v.home ∧ (f v).array = v.array ∧
      (f v).isPinned = v.isPinned) :
    Leads (At s) (do update (← resolve name) f) fun _ => At s :=
  stays fun sound _ ran => by
    refine ⟨noteOf_sound sound note ran, ?_, shape_note ran⟩
    simp only [ran_bind, ran_resolve, ran_update, and_assoc, exists_and_left, exists_eq_left] at ran
    obtain ⟨id, -, v, -, rfl⟩ := ran
    rfl

theorem setKind_stays (name : String) (kind : NumberKind) :
    Leads (At s) (setKind name kind) fun _ => At s :=
  note_stays name fun _ => ⟨rfl, rfl, rfl, rfl, rfl, rfl, rfl⟩

theorem setRefs_stays (name : String) (refs : Nat) :
    Leads (At s) (setRefs name refs) fun _ => At s :=
  note_stays name fun _ => ⟨rfl, rfl, rfl, rfl, rfl, rfl, rfl⟩

theorem setDims_stays (name : String) (dims : List Nat) :
    Leads (At s) (setDims name dims) fun _ => At s :=
  note_stays name fun _ => ⟨rfl, rfl, rfl, rfl, rfl, rfl, rfl⟩

theorem setMustReload_stays (name : String) : Leads (At s) (setMustReload name) fun _ => At s :=
  note_stays name fun _ => ⟨rfl, rfl, rfl, rfl, rfl, rfl, rfl⟩

theorem prepareWrite_stays (name : String) : Leads (At s) (prepareWrite name) fun _ => At s :=
  stays fun sound _ ran =>
    ⟨prepareWrite_sound sound ran, prepareWrite_calls sound ran, shape_prepareWrite sound ran⟩

theorem markWritten_stays (name : String) : Leads (At s) (markWritten name) fun _ => At s :=
  stays fun sound _ ran =>
    ⟨markWritten_sound sound ran, markWritten_calls ran, shape_markWritten ran⟩

theorem addVariable_stays (name : String) {given : Option Reg}
    (argument : ∀ r, given = some r → r ∈ Reg.arguments) :
    Leads (At s) (addVariable name given) fun _ => At s :=
  stays fun sound idle ran => by
    have outside : ∀ r ∈ Reg.arguments, r.isPool = false := by decide
    exact ⟨addVariable_sound sound idle (fun r asked => outside r (argument r asked)) ran,
      addVariable_calls sound ran, shape_addVariable sound ran⟩

theorem addVariable_new_stays (name : String) :
    Leads (At s) (addVariable name none) fun _ => At s :=
  addVariable_stays name fun _ given => nomatch given

theorem declareVariable_stays (name : String) :
    Leads (At s) (declareVariable name) fun _ => At s :=
  stays fun sound _ ran =>
    ⟨declareVariable_sound sound ran, declareVariable_calls ran, shape_declareVariable ran⟩

theorem setArray_stays (name : String) (size : Nat) :
    Leads (At s) (setArray name size) fun _ => At s :=
  stays fun sound _ ran => ⟨setArray_sound sound ran, setArray_calls ran, shape_setArray ran⟩

/-- A register that carries an argument is out of circulation anyway. -/
theorem reserve_stays {r : Reg} (argument : r ∈ Reg.arguments) :
    Leads (At s) (reserve r) fun _ => At s :=
  stays fun sound idle ran => by
    have outside : ∀ r ∈ Reg.arguments, r.isPool = false := by decide
    obtain ⟨sound', calls⟩ := reserve_sound sound idle ran
    obtain ⟨shape, reserved⟩ := shape_reserve sound ran
    refine ⟨sound', calls, shape.trans ?_⟩
    rw [reserved (outside r argument)]
    rfl

/-! ### Operations that take and give up temporaries -/

theorem addTemp_holds :
    Leads (At s) addTemp fun t a => At (s.holding t) a ∧ isTempName t = true := by
  intro w t w' before ran
  obtain ⟨shape, n, rfl⟩ := shape_addTemp before.sound ran
  refine ⟨⟨addTemp_sound before.sound ran, (addTemp_calls before.sound ran).trans before.idle, ?_⟩,
    isTempName_tempName n⟩
  rw [shape, before.shape, Shape.holding_temp (isTempName_tempName n)]

theorem removeIfTemp_gives (name : String) :
    Leads (At (s.holding name)) (removeIfTemp name) fun _ => At s := by
  intro w _ w' before ran
  obtain ⟨sound, calls⟩ := removeIfTemp_sound before.sound ran
  refine ⟨sound, calls.trans before.idle, ?_⟩
  have removed := shape_removeIfTemp before.sound ran
  rw [before.shape] at removed
  cases isTemp : isTempName name with
  | true =>
    have alive : name ∈ (s.plus name).alive := Multiset.mem_cons_self name _
    rw [Shape.holding_temp isTemp, if_pos alive] at removed
    exact (Shape.plus_inj removed).symm
  | false =>
    have shape := before.shape
    rw [Shape.holding_named isTemp] at shape removed
    rwa [if_neg] at removed
    intro alive
    rw [← shape] at alive
    cases isTemp.symm.trans (isTempName_of_alive before.sound alive)

/-- A temporary that becomes a named variable is held no more. -/
theorem renameTemp_gives {temp : String} (isTemp : isTempName temp = true) (name : String) :
    Leads (At (s.holding temp)) (renameTemp temp name) fun _ => At s := by
  intro w _ w' before ran
  refine ⟨renameTemp_sound before.sound ran, (renameTemp_calls ran).trans before.idle, ?_⟩
  have renamed := shape_renameTemp before.sound ran
  rw [before.shape, Shape.holding_temp isTemp] at renamed
  exact (Shape.plus_inj renamed).symm

/-! ### Levels -/

theorem pushLevel_opens (hides : Bool) :
    Leads (At s) (pushLevel hides) fun _ => At { s with aliases := s.aliases ++ [[]] } := by
  intro w _ w' before ran
  obtain ⟨sound, calls⟩ := pushLevel_sound before.sound ran
  exact ⟨sound, calls.trans before.idle, by rw [shape_pushLevel ran, before.shape]⟩

/-- The level of a function body is closed with the body. -/
theorem popLevel_closes {further : List (String × VarId)} (deep : s.inside = true → 2 ≤ s.aliases.length) :
    Leads (At { s with aliases := s.aliases ++ [further] }) popLevel fun _ => At s := by
  intro w _ w' before ran
  have deep' : w.allocator.frame.isSome → 2 ≤ w.allocator.depth := fun inside => by
    have length := congrArg (fun s : Shape => s.aliases.length) before.shape
    simp only [shape, List.length_map, length_levels, List.length_append, List.length_singleton]
      at length
    have frame : w.allocator.frame.isSome = s.inside := congrArg Shape.inside before.shape
    have := deep (frame.symm.trans inside)
    omega
  obtain ⟨sound, calls⟩ := popLevel_sound before.sound deep' ran
  refine ⟨sound, calls.trans before.idle, ?_⟩
  rw [shape_popLevel before.sound ran, before.shape]
  simp

end Alloc

namespace Gen

open Allocator

variable {α : Type} {c : Context} {s : Shape} {P : Allocator → Prop}

theorem look_stays (f : Allocator → α) : Meets c P (look f) fun _ => P :=
  (Meets.look f).weaken (fun _ before => before) fun _ _ after => after.1

/-- Of a value that one holds, its name tells whether it is a temporary. -/
theorem isTemp_held (v : String) :
    Meets c (At (s.holding v)) (look fun a => a.isTemp v) fun isTemp a =>
      At (s.holding v) a ∧ isTemp = isTempName v := by
  refine (Meets.look _).weaken (fun _ before => before) fun isTemp a after => ⟨after.1, ?_⟩
  obtain ⟨before, rfl⟩ := after
  have alive : a.isTemp v = true ↔ v ∈ a.shape.alive := by
    rw [isTemp, ← Option.ne_none_iff_isSome, Ne, Level.lookup_eq_none, shape, Multiset.mem_coe,
      List.mem_map]
    push Not
    rfl
  rw [Bool.eq_iff_iff, alive]
  refine ⟨isTempName_of_alive before.sound, fun isTemp => ?_⟩
  rw [before.shape, Shape.holding_temp isTemp]
  exact Multiset.mem_cons_self v _

/-- A change of the progress that leaves the allocator alone. -/
theorem modify_stays {f : Progress → Progress} (still : ∀ p, (f p).allocator = p.allocator) :
    Meets c P (modify f) fun _ => P :=
  .quiet (g := fun p => ((), f p)) (fun _ _ => rfl) still fun _ _ before => before

theorem draft_stays (f : Draft → Draft) : Meets c P (draft f) fun _ => P :=
  modify_stays fun _ => rfl

theorem emit_stays (i : MachineInstr) : Meets c P (emit i) fun _ => P := draft_stays _

theorem emitAll_stays (code : List MachineInstr) : Meets c P (emitAll code) fun _ => P :=
  draft_stays _

theorem loadLiteral_stays (rd : Reg) (value : Int) : Meets c P (loadLiteral rd value) fun _ => P :=
  emitAll_stays _

theorem freshLabel_stays : Meets c P freshLabel fun _ => P :=
  .quiet (g := fun p => (p.draft.freshLabel.1, { p with draft := p.draft.freshLabel.2 }))
    (fun _ _ => rfl) (fun _ => rfl) fun _ _ before => before

theorem freshLabels_stays (xs : List α) : Meets c P (freshLabels xs) fun _ => P := by
  induction xs with
  | nil => exact .pure fun _ before => before
  | cons x rest ih =>
    exact freshLabel_stays.bind fun _ => ih.bind fun _ => .pure fun _ before => before

theorem fetch_stays (name : String) : Meets c (At s) (fetch name) fun _ => At s :=
  .alloc (Alloc.getRegister_stays name true)

theorem releaseHolds_stays : Meets c (At s) releaseHolds fun _ => At s :=
  .alloc Alloc.releaseHolds_stays

theorem sync_stays : Meets c (At s) sync fun _ => At s := .alloc Alloc.sync_stays

theorem placeLabel_stays (label : String) : Meets c (At s) (placeLabel label) fun _ => At s :=
  sync_stays.bind fun _ => draft_stays _

theorem jump_stays (label : String) : Meets c (At s) (jump label) fun _ => At s :=
  sync_stays.bind fun _ => emit_stays _

theorem hint_stays (e : Expr) : Meets c (At s) (hint e) fun _ => At s := by
  have skip : Meets c (At s) (pure () : Gen Unit) fun _ => At s := .pure fun _ before => before
  cases e with
  | var line name occurrence =>
    have demoted : Meets c (At s) (if c.liveness.getD occurrence .lastUse = .lastUse then
        alloc (Alloc.demote name) else pure () : Gen Unit) fun _ => At s :=
      .ite (fun _ => .alloc (Alloc.demote_stays name)) fun _ => skip
    exact .read (fun _ => rfl) demoted
  | _ => exact skip

theorem function?_stays (name : String) :
    Meets c P (function? name) fun f a => P a ∧ f = c.functions.lookup name :=
  .read (fun _ => rfl) (.pure fun _ before => ⟨before, rfl⟩)

theorem newTemp_holds (kind : NumberKind) (refs : Nat) :
    Meets c (At s) (newTemp kind refs) fun t a => At (s.holding t.1) a ∧ isTempName t.1 = true := by
  refine .alloc (Alloc.addTemp_holds.bind fun t => ?_)
  have noted : Alloc.Leads (At (s.holding t)) (do
      let r ← Alloc.getRegister t false
      Alloc.setKind t kind
      Alloc.setRefs t refs
      return (t, r)) fun taken a => At (s.holding t) a ∧ taken.1 = t :=
    (Alloc.getRegister_stays t false).bind fun r => (Alloc.setKind_stays t kind).bind fun _ =>
      (Alloc.setRefs_stays t refs).bind fun _ => .pure fun _ after => ⟨after, rfl⟩
  intro w taken w' before ran
  obtain ⟨after, rfl⟩ := noted _ _ _ before.1 ran
  exact ⟨after, before.2⟩

theorem free_gives (name : String) : Meets c (At (s.holding name)) (free name) fun _ => At s :=
  .alloc (Alloc.removeIfTemp_gives name)

end Gen

end SmallC
