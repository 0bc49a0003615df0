import SmallC.Proofs.Allocation.Straight
import SmallC.Proofs.Generation.Laying
import SmallC.Proofs.Generation.Names
import SmallC.Proofs.Program.Labels

/-!
What generation does to the labels of a draft. Code owes labels that were handed out around it and that it has to
bind; beyond those it binds every label that is handed out while it is generated, and nothing else. What it refers
to is known around it, or was handed out meanwhile, or is a function that it calls.
-/
namespace SmallC

/-- Whether calls of a function are transferred to it: it is known, and not expanded where it is called. -/
def Context.Transfers (c : Context) (name : String) : Prop :=
  ∃ f, c.functions.lookup name = some f ∧ (f.isInline = true → f.body = none)

namespace Draft

/-- The labels that are handed out as their number goes from one to another. -/
def freshLabels (first last : Nat) : Multiset String := (List.range' first (last - first)).map labelName

variable {a b c : Nat}

theorem freshLabels_self : freshLabels a a = 0 := by simp [freshLabels]

theorem freshLabels_add (ab : a ≤ b) (bc : b ≤ c) : freshLabels a b + freshLabels b c = freshLabels a c := by
  have split : List.range' a (b - a) ++ List.range' b (c - b) = List.range' a (c - a) := by
    have whole := List.range'_append_1 (s := a) (m := b - a) (n := c - b)
    rwa [show a + (b - a) = b by omega, show b - a + (c - b) = c - a by omega] at whole
  rw [freshLabels, freshLabels, freshLabels, Multiset.coe_add, ← List.map_append, split]

theorem freshLabels_cons (ab : a < b) : labelName a ::ₘ freshLabels (a + 1) b = freshLabels a b := by
  rw [freshLabels, freshLabels, show b - a = b - (a + 1) + 1 by omega, List.range'_succ]
  rfl

theorem mem_freshLabels {l : String} : l ∈ freshLabels a b ↔ ∃ n, a ≤ n ∧ n < b ∧ l = labelName n := by
  simp only [freshLabels, Multiset.mem_coe, List.mem_map, List.mem_range'_1]
  constructor
  · rintro ⟨n, ⟨above, below⟩, rfl⟩
    exact ⟨n, above, by omega, rfl⟩
  · rintro ⟨n, above, below, rfl⟩
    exact ⟨n, ⟨above, by omega⟩, rfl⟩

theorem nodup_freshLabels : (freshLabels a b).Nodup :=
  Multiset.coe_nodup.2 (List.Nodup.map (fun _ _ => labelName_inj) List.nodup_range')

end Draft

namespace Gen

variable {α β : Type} {c : Context} {known : List String} {owed owed' : Multiset String} {p p' : Progress}

/-- What generation comes to that binds the labels it owes, labels around it known. -/
structure Bound (c : Context) (known : List String) (owed : Multiset String) (p p' : Progress) : Prop where
  labels : p.draft.labels ≤ p'.draft.labels
  binds : (labelsOf p'.draft.entries.toList : Multiset String) =
    labelsOf p.draft.entries.toList + owed + Draft.freshLabels p.draft.labels p'.draft.labels
  refers : ∀ e ∈ p'.draft.entries.toList, (∃ e₀ ∈ p.draft.entries.toList, e₀.instr = e.instr) ∨
    ∀ t, e.target? = some t → t.label ∈ known ∨ t.label ∈ Draft.freshLabels p.draft.labels p'.draft.labels ∨
      MachineInstr.Calls c.Transfers e.instr

theorem Bound.refl : Bound c known 0 p p := by
  refine ⟨Nat.le_refl _, ?_, fun e member => .inl ⟨e, member, rfl⟩⟩
  rw [Draft.freshLabels_self, add_zero, add_zero]

theorem Bound.trans {mid : Progress} (first : Bound c known owed p mid) (second : Bound c known owed' mid p') :
    Bound c known (owed + owed') p p' := by
  have parts := Draft.freshLabels_add first.labels second.labels
  refine ⟨first.labels.trans second.labels, ?_, fun e member => ?_⟩
  · rw [second.binds, first.binds, ← parts]
    abel
  · have grows : ∀ l, l ∈ Draft.freshLabels p.draft.labels mid.draft.labels ∨
        l ∈ Draft.freshLabels mid.draft.labels p'.draft.labels →
        l ∈ Draft.freshLabels p.draft.labels p'.draft.labels := fun l there => by
      rw [← parts]
      exact Multiset.mem_add.2 there
    rcases second.refers e member with ⟨e₀, member₀, same⟩ | refers
    · rcases first.refers e₀ member₀ with ⟨e₁, member₁, same'⟩ | refers
      · exact .inl ⟨e₁, member₁, same'.trans same⟩
      · refine .inr fun t target => ?_
        rw [Entry.target?, ← same] at target
        rw [← same]
        exact (refers t target).imp_right (Or.imp_left fun fresh => grows _ (.inl fresh))
    · exact .inr fun t target => (refers t target).imp_right (Or.imp_left fun fresh => grows _ (.inr fresh))

/-- Generation that binds the labels it owes, whatever it starts from. -/
def Binds (c : Context) (known : List String) (owed : Multiset String) (act : Gen α) : Prop :=
  ∀ p x p', act.exec c p = .ok (x, p') → Bound c known owed p p'

/-- Generation that owes no label. -/
abbrev Closes (c : Context) (known : List String) (act : Gen α) : Prop := Binds c known 0 act

/-- Appending entries that bind some labels and refer to known ones or call functions. -/
theorem Bound.of_append {es : List Entry} {d : Draft}
    (appended : d.entries.toList = p.draft.entries.toList ++ es) (labels : d.labels = p.draft.labels)
    (allocator : Allocator)
    (refers : ∀ e ∈ es, ∀ t, e.target? = some t → t.label ∈ known ∨ MachineInstr.Calls c.Transfers e.instr) :
    Bound c known (labelsOf es) p { p with allocator, draft := d } := by
  refine ⟨Nat.le_of_eq labels.symm, ?_, fun e member => ?_⟩
  · dsimp only
    rw [appended, labelsOf_append, labels, Draft.freshLabels_self, add_zero, Multiset.coe_add]
  · dsimp only at member
    rw [appended] at member
    rcases List.mem_append.1 member with old | new
    · exact .inl ⟨e, old, rfl⟩
    · exact .inr fun t target => (refers e new t target).imp_right .inr

/-- Exchanging an instruction keeps the label of its entry. -/
theorem labelsOf_modify (es : List Entry) (place : Nat) (i : MachineInstr) :
    labelsOf (es.modify place fun e => { e with instr := i }) = labelsOf es := by
  induction es generalizing place with
  | nil => rw [List.modify_nil]
  | cons e rest ih =>
    cases place with
    | zero => rfl
    | succ place => rw [List.modify_succ_cons, labelsOf_cons, ih, labelsOf_cons]

theorem mem_modify {es : List Entry} {place : Nat} {i : MachineInstr} {e : Entry}
    (member : e ∈ es.modify place fun e => { e with instr := i }) : e ∈ es ∨ e.instr = i := by
  induction es generalizing place with
  | nil =>
    rw [List.modify_nil] at member
    exact .inl member
  | cons first rest ih =>
    cases place with
    | zero =>
      rcases List.mem_cons.1 member with rfl | later
      · exact .inr rfl
      · exact .inl (List.mem_cons_of_mem _ later)
    | succ place =>
      rw [List.modify_succ_cons] at member
      rcases List.mem_cons.1 member with rfl | later
      · exact .inl List.mem_cons_self
      · exact (ih later).imp_left (List.mem_cons_of_mem _)

namespace Binds

variable {act other : Gen α} {l : String} {i : MachineInstr}

theorem mono {more : List String} (binds : Binds c known owed act) (within : ∀ l ∈ known, l ∈ more) :
    Binds c more owed act := fun p x p' ran =>
  have bound := binds p x p' ran
  ⟨bound.labels, bound.binds, fun e member => (bound.refers e member).imp_right fun refers t target =>
    (refers t target).imp_left (within t.label)⟩

theorem pure (x : α) : Closes c known (Pure.pure x : Gen α) := fun p y p' ran => by
  cases ran
  exact .refl

theorem throw (e : CompileError) : Binds c known owed (MonadExcept.throw e : Gen α) := fun _ _ _ ran => by cases ran

theorem fail (line : Nat) (fault : SemanticFault) : Binds c known owed (Gen.fail line fault : Gen α) := throw _

theorem append {f : α → Gen β} (first : Binds c known owed act) (rest : ∀ x, Binds c known owed' (f x)) :
    Binds c known (owed + owed') (act >>= f) := fun p y p' ran => by
  obtain ⟨x, mid, ran, ran'⟩ := exec_bind_ok ran
  exact (first p x mid ran).trans (rest x mid y p' ran')

/-- What owes nothing, and then the rest. -/
theorem bind {f : α → Gen β} (first : Closes c known act) (rest : ∀ x, Binds c known owed (f x)) :
    Binds c known owed (act >>= f) := by
  rw [← zero_add owed]
  exact first.append rest

theorem map {f : α → β} (binds : Binds c known owed act) : Binds c known owed (f <$> act) := by
  rw [← bind_pure_comp, ← add_zero owed]
  exact binds.append fun x => .pure _

theorem ite {p : Prop} [Decidable p] (yes : Binds c known owed act) (no : Binds c known owed other) :
    Binds c known owed (if p then act else other) := by
  split
  · exact yes
  · exact no

/-- What is done on a condition. -/
theorem either {p : Prop} [Decidable p] {act : Gen Unit} {f : Unit → Gen β} (closes : Closes c known act)
    (rest : Binds c known owed (f ())) : Binds c known owed (if p then act >>= f else f ()) :=
  .ite (closes.bind fun _ => rest) rest

theorem alloc {act : Alloc α} (straight : Alloc.Straight act) : Closes c known (Gen.alloc act) := by
  intro p x p' ran
  obtain ⟨w, did, rfl⟩ := exec_alloc ran
  have nowhere : Alloc.RefersNowhere w.code := straight _ _ _ did (by simp [Alloc.RefersNowhere])
  have unlabelled : labelsOf (Alloc.entriesOf w.code) = [] := by simp [labelsOf, Alloc.entriesOf, Entry.plain]
  have bound : Bound c known _ _ _ := .of_append (toList_pushAll p.draft w.code) rfl w.allocator
    fun e member t target => ?_
  · rwa [unlabelled] at bound
  · obtain ⟨i, inside, rfl⟩ := List.mem_map.1 member
    rw [Entry.target?, Entry.plain, nowhere i (Array.mem_toList_iff.1 inside)] at target
    cases target

/-- Generation that always ends, and leaves the draft alone. -/
theorem quiet {g : Progress → α × Progress} (same : ∀ p, act.exec c p = .ok (g p))
    (still : ∀ p, (g p).2.draft = p.draft) : Closes c known act := by
  intro p x p' ran
  rw [same] at ran
  have reached : p'.draft = p.draft := by rw [← still p, Except.ok.inj ran]
  refine ⟨Nat.le_of_eq (congrArg Draft.labels reached).symm, ?_, fun e member => ?_⟩
  · rw [reached, Draft.freshLabels_self, add_zero, add_zero]
  · rw [reached] at member
    exact .inl ⟨e, member, rfl⟩

theorem look (f : Allocator → α) : Closes c known (Gen.look f) :=
  quiet (g := fun p => (f p.allocator, p)) (fun _ => rfl) fun _ => rfl

theorem read {f : Context → Gen α} (rest : Binds c known owed (f c)) :
    Binds c known owed (MonadReader.read >>= f) := rest

theorem get {f : Progress → Gen α} (rest : ∀ p, Binds c known owed (f p)) :
    Binds c known owed (MonadState.get >>= f) := fun p => rest p p

theorem function? {name : String} {f : Option Function → Gen β}
    (rest : Binds c known owed (f (c.functions.lookup name))) : Binds c known owed (Gen.function? name >>= f) := rest

/-- One more entry, with its label if it has one. -/
theorem appendEntry {e : Entry}
    (refers : ∀ t, e.target? = some t → t.label ∈ known ∨ MachineInstr.Calls c.Transfers e.instr) :
    Binds c known (e.label.toList : List String) (Gen.draft fun d => d.append e) := by
  intro p x p' ran
  cases ran
  have appended : (p.draft.append e).entries.toList = p.draft.entries.toList ++ [e] := by simp [Draft.append]
  have bound := Bound.of_append appended rfl p.allocator (List.forall_mem_singleton.2 refers)
  rwa [labelsOf_cons, labelsOf, List.filterMap_nil, List.append_nil] at bound

theorem emit (plain : i.target? = none) : Closes c known (Gen.emit i) :=
  appendEntry fun t target => by cases plain.symm.trans target

theorem emitAll {code : List MachineInstr} (plain : ∀ i ∈ code, Instr.target? i = none) :
    Closes c known (Gen.emitAll code) := by
  intro p x p' ran
  cases ran
  have unlabelled : labelsOf (code.map Entry.plain) = [] := by simp [labelsOf, Entry.plain]
  have bound : Bound c known _ _ _ := .of_append (toList_pushAll p.draft code.toArray) rfl p.allocator
    fun e member t target => ?_
  · rwa [Alloc.entriesOf, unlabelled] at bound
  · obtain ⟨i, inside, rfl⟩ := List.mem_map.1 member
    rw [Entry.target?, Entry.plain, plain i inside] at target
    cases target

/-- An instruction that refers to a known label. -/
theorem emitTo (inside : ∀ t, i.target? = some t → t.label ∈ known) : Closes c known (Gen.emit i) :=
  appendEntry fun t target => .inl (inside t target)

theorem emitCall {name : String} (transfers : c.Transfers name) :
    Closes c known (Gen.emit (MachineInstr.callTo name)) :=
  appendEntry fun _ _ => .inr ⟨_, rfl, transfers⟩

theorem sync : Closes c known Gen.sync := .alloc Alloc.straight_sync

theorem emitJump (inside : l ∈ known) : Closes c known (Gen.emit (MachineInstr.jumpTo l)) :=
  emitTo fun t target => by cases target; exact inside

theorem branch {op : BranchOp} {rd rs : Reg} (inside : l ∈ known) :
    Closes c known (Gen.emit (MachineInstr.branchTo op rd rs l)) :=
  emitTo fun t target => by cases target; exact inside

theorem jump (inside : l ∈ known) : Closes c known (Gen.jump l) := sync.bind fun _ => emitJump inside

theorem bindLabel (l : String) : Binds c known {l} (Gen.draft fun d => d.placeLabel l) :=
  appendEntry fun t target => by cases target

/-- A label that is owed is bound. -/
theorem placeLabel (l : String) : Binds c known {l} (Gen.placeLabel l) := sync.bind fun _ => bindLabel l

theorem placing {f : Unit → Gen β} (rest : Binds c known owed (f ())) :
    Binds c known (l ::ₘ owed) (Gen.placeLabel l >>= f) := (placeLabel l).append fun _ => rest

/-- What owes some labels, and nothing behind it does. -/
theorem thenClose {f : α → Gen β} (first : Binds c known owed act) (rest : ∀ x, Closes c known (f x)) :
    Binds c known owed (act >>= f) := by
  rw [← add_zero owed]
  exact first.append rest

/-- An instruction is exchanged for one that refers to no label. -/
theorem patch {place : Nat} (plain : i.target? = none) : Closes c known (Gen.draft fun d => d.patch place i) := by
  intro p x p' ran
  cases ran
  refine ⟨Nat.le_refl _, ?_, fun e member => ?_⟩
  · simp only [Draft.patch, Array.toList_modify, labelsOf_modify, Draft.freshLabels_self, add_zero]
  · simp only [Draft.patch, Array.toList_modify] at member
    rcases mem_modify member with old | new
    · exact .inl ⟨e, old, rfl⟩
    · refine .inr fun t target => ?_
      rw [Entry.target?, new, plain] at target
      cases target

/-- A label that is handed out is owed, and known from then on. -/
theorem freshLabel {f : String → Gen β} (rest : ∀ l, Binds c (l :: known) (l ::ₘ owed) (f l)) :
    Binds c known owed (Gen.freshLabel >>= f) := by
  intro p y p' ran
  obtain ⟨l, mid, first, second⟩ := exec_bind_ok ran
  cases first
  have bound := rest _ _ y p' second
  have counted : p.draft.labels < p'.draft.labels := bound.labels
  have fresh := Draft.freshLabels_cons counted
  refine ⟨Nat.le_of_lt counted, ?_, fun e member => (bound.refers e member).imp_right fun refers t target => ?_⟩
  · rw [bound.binds, ← fresh, Multiset.add_cons, Multiset.add_cons, Multiset.cons_add]
  · rcases refers t target with known | fresh' | calls
    · rcases List.mem_cons.1 known with own | known
      · refine .inr (.inl ?_)
        rw [own, ← fresh]
        exact Multiset.mem_cons_self _ _
      · exact .inl known
    · refine .inr (.inl ?_)
      rw [← fresh]
      exact Multiset.mem_cons_of_mem fresh'
    · exact .inr (.inr calls)

theorem freshLabels {xs : List α} {f : List String → Gen β}
    (rest : ∀ ls : List String, ls.length = xs.length → Binds c (ls ++ known) (ls + owed) (f ls)) :
    Binds c known owed (Gen.freshLabels xs >>= f) := by
  induction xs generalizing known owed f with
  | nil =>
    have binds := rest [] rfl
    rwa [List.nil_append, Multiset.coe_nil, zero_add] at binds
  | cons x xs ih =>
    rw [Gen.freshLabels, bind_assoc]
    refine freshLabel fun l => ?_
    rw [bind_assoc]
    refine ih fun ls length => ?_
    rw [pure_bind]
    have within : ∀ other ∈ l :: ls ++ known, other ∈ ls ++ l :: known := fun other member => by
      simp only [List.cons_append, List.mem_cons, List.mem_append] at member ⊢
      tauto
    have binds := (rest (l :: ls) (congrArg Nat.succ length)).mono within
    rwa [Multiset.add_cons, ← Multiset.cons_add]

theorem forM {f : α → Gen Unit} {xs : List α} (pass : ∀ x ∈ xs, Closes c known (f x)) : Closes c known (xs.forM f) := by
  induction xs with
  | nil => exact .pure ()
  | cons x rest ih =>
    exact (pass x List.mem_cons_self).bind fun _ => ih fun y member => pass y (List.mem_cons_of_mem x member)

end Binds

end Gen

end SmallC
