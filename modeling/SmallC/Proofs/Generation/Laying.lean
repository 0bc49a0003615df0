import SmallC.Proofs.Allocation.Balance
import SmallC.Proofs.Generation.Triples

/-!
What generation appends to a draft, along the points of control. All that is not a function of its own stands
at one point: the top level, or the body of a function below its frame. From states between two operations,
generation appends entries along which control gets back to the point where it was, provided that every label
that the entries bind or refer to has that point, and every function the point of its entry.
-/
namespace SmallC

/-- Whether all functions of a source are entered with their return address in its register. -/
def Context.Entered (c : Context) (points : String → Point) : Prop :=
  ∀ f ∈ c.functions, points f.1 = .inside 0 .held

namespace Gen

open Allocator

variable {α β : Type} {c : Context} {known : List String} {p p' : Progress}

/-- What generation comes to where it appends entries for one point of control, labels around it known. -/
structure Laid (c : Context) (known : List String) (p p' : Progress) : Prop where
  tame : Tame p'.allocator
  wider : Wider p.allocator p'.allocator
  labels : p.draft.labels ≤ p'.draft.labels
  code : ∃ es, p'.draft.entries.toList = p.draft.entries.toList ++ es ∧
    ∀ points globals pt, p'.allocator.Stance pt → p'.allocator.globals ≤ globals →
      (∀ n, p.draft.labels ≤ n → n < p'.draft.labels → points (Draft.labelName n) = pt) →
      (∀ l ∈ known, points l = pt) → c.Entered points → Passes points globals pt es pt

theorem Laid.refl (tame : Tame p.allocator) : Laid c known p p :=
  ⟨tame, .refl _, Nat.le_refl _, [], by simp, fun _ _ _ _ _ _ _ _ => .nil⟩

theorem Laid.trans {mid : Progress} (first : Laid c known p mid) (second : Laid c known mid p') :
    Laid c known p p' := by
  obtain ⟨es, appended, passes⟩ := first.code
  obtain ⟨es', appended', passes'⟩ := second.code
  refine ⟨second.tame, first.wider.trans second.wider, first.labels.trans second.labels, es ++ es', ?_,
    fun points globals pt stance low fresh around entered => ?_⟩
  · rw [appended', appended, List.append_assoc]
  · refine (passes points globals pt (second.wider.toRoomier.stance stance) (second.wider.globals.trans low)
      (fun n above below => fresh n above (Nat.lt_of_lt_of_le below second.labels)) around entered).append
      (passes' points globals pt stance low (fun n above => fresh n (first.labels.trans above)) around entered)

theorem Laid.mono {more : List String} (laid : Laid c known p p') (within : ∀ l ∈ known, l ∈ more) :
    Laid c more p p' := by
  obtain ⟨es, appended, passes⟩ := laid.code
  exact ⟨laid.tame, laid.wider, laid.labels, es, appended, fun points globals pt stance low fresh around =>
    passes points globals pt stance low fresh fun l member => around l (within l member)⟩

/-- From states between two operations, generation appends entries for one point of control, and a condition
holds of its answer. -/
def Lays (c : Context) (known : List String) (act : Gen α) (Q : α → Prop) : Prop :=
  ∀ p x p', Tame p.allocator → p.allocator.pushed = 0 → act.exec c p = .ok (x, p') →
    Q x ∧ Laid c known p p'

/-- The same, whatever the answer. -/
abbrev Balanced (c : Context) (known : List String) (act : Gen α) : Prop := Lays c known act fun _ => True

theorem exec_alloc {act : Alloc α} {x : α} (ran : (Gen.alloc act).exec c p = .ok (x, p')) :
    ∃ w, Alloc.Ran act ⟨p.allocator, #[]⟩ x w ∧
      p' = { p with allocator := w.allocator, draft := p.draft.pushAll w.code } := by
  simp only [Gen.alloc, Meets.exec_bind] at ran
  rw [show (MonadState.get : Gen Progress).exec c p = .ok (p, p) from rfl] at ran
  simp only [Except.bind] at ran
  cases did : act.run ⟨p.allocator, #[]⟩ with
  | ok y w =>
    rw [did] at ran
    cases ran
    exact ⟨w, did, rfl⟩
  | error fault w =>
    rw [did] at ran
    cases ran

theorem exec_bind_ok {act : Gen α} {f : α → Gen β} {y : β} (ran : (act >>= f).exec c p = .ok (y, p')) :
    ∃ x mid, act.exec c p = .ok (x, mid) ∧ (f x).exec c mid = .ok (y, p') := by
  rw [Meets.exec_bind] at ran
  cases first : act.exec c p with
  | error e =>
    rw [first] at ran
    cases ran
  | ok done =>
    rw [first] at ran
    exact ⟨done.1, done.2, rfl, ran⟩

theorem toList_pushAll (d : Draft) (code : Array MachineInstr) :
    (d.pushAll code).entries.toList = d.entries.toList ++ Alloc.entriesOf code := by
  simp [Draft.pushAll, Alloc.entriesOf]

namespace Lays

variable {act other : Gen α} {Q Q' : α → Prop} {R : β → Prop} {l : String} {i : MachineInstr}

theorem weaken (lays : Lays c known act Q) (holds : ∀ x, Q x → Q' x) : Lays c known act Q' :=
  fun p x p' tame flat ran => ⟨holds x (lays p x p' tame flat ran).1, (lays p x p' tame flat ran).2⟩

theorem mono {more : List String} (lays : Lays c known act Q) (within : ∀ l ∈ known, l ∈ more) :
    Lays c more act Q :=
  fun p x p' tame flat ran => ⟨(lays p x p' tame flat ran).1, (lays p x p' tame flat ran).2.mono within⟩

theorem pure {x : α} (holds : Q x) : Lays c known (Pure.pure x) Q := by
  intro p y p' tame flat ran
  cases ran
  exact ⟨holds, .refl tame⟩

theorem throw (e : CompileError) : Lays c known (MonadExcept.throw e : Gen α) Q :=
  fun _ _ _ _ _ ran => by cases ran

theorem fail (line : Nat) (fault : SemanticFault) : Lays c known (Gen.fail line fault : Gen α) Q := throw _

theorem bind {f : α → Gen β} (first : Lays c known act Q) (rest : ∀ x, Q x → Lays c known (f x) R) :
    Lays c known (act >>= f) R := by
  intro p y p' tame flat ran
  obtain ⟨x, mid, ran, ran'⟩ := exec_bind_ok ran
  obtain ⟨holds, laid⟩ := first p x mid tame flat ran
  obtain ⟨holds', laid'⟩ := rest x holds mid y p' laid.tame (laid.wider.pushed.trans flat) ran'
  exact ⟨holds', laid.trans laid'⟩

theorem map {f : α → β} (lays : Lays c known act fun x => R (f x)) : Lays c known (f <$> act) R := by
  rw [← bind_pure_comp]
  exact lays.bind fun x holds => .pure holds

theorem ite {p : Prop} [Decidable p] (yes : p → Lays c known act Q) (no : ¬ p → Lays c known other Q) :
    Lays c known (if p then act else other) Q := by
  split
  · next holds => exact yes holds
  · next fails => exact no fails

/-- What stops generation on a condition. -/
theorem refuse {p : Prop} [Decidable p] {line : Nat} {fault : SemanticFault} {f : Unit → Gen β}
    (rest : ¬ p → Lays c known (f ()) R) :
    Lays c known (if p then Gen.fail line fault >>= f else f ()) R :=
  .ite (fun _ => (throw (Q := fun _ => False) _).bind fun _ absurd => absurd.elim) rest

/-- What is done on a condition. -/
theorem either {p : Prop} [Decidable p] {act : Gen Unit} {f : Unit → Gen β} (balanced : Balanced c known act)
    (rest : Lays c known (f ()) R) : Lays c known (if p then act >>= f else f ()) R :=
  .ite (fun _ => balanced.bind fun _ _ => rest) fun _ => rest

theorem alloc {act : Alloc α} (tends : Alloc.Tends act Q) : Lays c known (Gen.alloc act) Q := by
  intro p x p' tame flat ran
  obtain ⟨w, did, rfl⟩ := exec_alloc ran
  obtain ⟨holds, tended⟩ := tends ⟨p.allocator, #[]⟩ x w tame did
  obtain ⟨code, emitted, passes⟩ := tended.passes flat
  rw [Array.empty_append] at emitted
  refine ⟨holds, tended.tame, tended.wider, Nat.le_refl _, Alloc.entriesOf code, ?_,
    fun points globals pt stance low _ _ _ => passes points globals pt stance low⟩
  rw [toList_pushAll, emitted]

/-- Generation that always ends, and leaves the allocator and the draft alone. -/
theorem quiet {g : Progress → α × Progress} (same : ∀ p, act.exec c p = .ok (g p))
    (still : ∀ p, (g p).2.allocator = p.allocator ∧ (g p).2.draft = p.draft) (holds : ∀ p, Q (g p).1) :
    Lays c known act Q := by
  intro p x p' tame flat ran
  rw [same] at ran
  have answered : x = (g p).1 := congrArg Prod.fst (Except.ok.inj ran).symm
  have reached : p' = (g p).2 := congrArg Prod.snd (Except.ok.inj ran).symm
  obtain ⟨allocator, draft⟩ := still p
  rw [answered, reached]
  refine ⟨holds p, by rw [allocator]; exact tame, by rw [allocator]; exact .refl _, by rw [draft], [],
    by rw [draft, List.append_nil], fun _ _ _ _ _ _ _ _ => .nil⟩

theorem look (f : Allocator → α) : Balanced c known (Gen.look f) :=
  quiet (g := fun p => (f p.allocator, p)) (fun _ => rfl) (fun _ => ⟨rfl, rfl⟩) fun _ => trivial

theorem read {f : Context → Gen α} (rest : Lays c known (f c) Q) :
    Lays c known (MonadReader.read >>= f) Q := rest

theorem get {f : Progress → Gen α} (rest : ∀ p, Lays c known (f p) Q) :
    Lays c known (MonadState.get >>= f) Q := fun p => rest p p

/-- One more entry. -/
theorem append {e : Entry} (passes : ∀ points globals pt, (∀ l ∈ known, points l = pt) → c.Entered points →
    Passes points globals pt [e] pt) : Balanced c known (Gen.draft fun d => d.append e) := by
  intro p x p' tame flat ran
  cases ran
  refine ⟨trivial, tame, .refl _, Nat.le_refl _, [e], by simp [Draft.append],
    fun points globals pt _ _ _ around entered => passes points globals pt around entered⟩

theorem emit (calm : i.Calm) : Balanced c known (Gen.emit i) :=
  append fun _ _ _ _ _ => .single (.calm calm)

theorem emitAll {code : List MachineInstr} (calm : ∀ i ∈ code, MachineInstr.Calm i) :
    Balanced c known (Gen.emitAll code) := by
  intro p x p' tame flat ran
  cases ran
  refine ⟨trivial, tame, .refl _, Nat.le_refl _, code.map .plain, toList_pushAll _ _,
    fun points globals pt _ _ _ _ _ => .code fun i member => .calm (calm i member)⟩

theorem branch {op : BranchOp} {rd rs : Reg} (inside : l ∈ known) :
    Balanced c known (Gen.emit (MachineInstr.branchTo op rd rs l)) :=
  append fun _ _ _ around _ => .single (.branch (around l inside))

theorem sync : Balanced c known Gen.sync := .alloc Alloc.tends_sync

theorem emitJump (inside : l ∈ known) : Balanced c known (Gen.emit (MachineInstr.jumpTo l)) :=
  append fun _ _ _ around _ => .halt (.jump (around l inside))

theorem jump (inside : l ∈ known) : Balanced c known (Gen.jump l) := sync.bind fun _ _ => emitJump inside

theorem placeLabel (inside : l ∈ known) : Balanced c known (Gen.placeLabel l) :=
  sync.bind fun _ _ => append fun _ _ _ around _ => .label (around l inside)

/-- A label that nothing is bound to yet gets the point where it will be bound. -/
theorem freshLabel {f : String → Gen β} (rest : ∀ l, Lays c (l :: known) (f l) R) :
    Lays c known (Gen.freshLabel >>= f) R := by
  intro p y p' tame flat ran
  obtain ⟨l, mid, first, second⟩ := exec_bind_ok ran
  cases first
  obtain ⟨holds, laid⟩ := rest (Draft.labelName p.draft.labels)
    { p with draft := { p.draft with labels := p.draft.labels + 1 } } y p' tame flat second
  obtain ⟨es, appended, passes⟩ := laid.code
  have counted : p.draft.labels + 1 ≤ p'.draft.labels := laid.labels
  refine ⟨holds, laid.tame, laid.wider, Nat.le_of_succ_le counted, es, appended,
    fun points globals pt stance low fresh around entered => passes points globals pt stance low
      (fun n above below => fresh n (Nat.le_of_succ_le above) below) (List.forall_mem_cons.2 ⟨?_, around⟩) entered⟩
  exact fresh _ (Nat.le_refl _) counted

theorem freshLabels {xs : List α} {f : List String → Gen β} (rest : ∀ ls, Lays c (ls ++ known) (f ls) R) :
    Lays c known (Gen.freshLabels xs >>= f) R := by
  induction xs generalizing known f with
  | nil => exact rest []
  | cons x xs ih =>
    rw [Gen.freshLabels, bind_assoc]
    refine freshLabel fun l => ?_
    rw [bind_assoc]
    refine ih fun ls => ?_
    rw [pure_bind]
    exact (rest (l :: ls)).mono fun other member => by
      simp only [List.cons_append, List.mem_cons, List.mem_append] at member ⊢
      tauto

theorem forM {f : α → Gen Unit} {xs : List α} (pass : ∀ x ∈ xs, Balanced c known (f x)) :
    Balanced c known (xs.forM f) := by
  induction xs with
  | nil => exact .pure trivial
  | cons x rest ih =>
    exact (pass x List.mem_cons_self).bind fun _ _ => ih fun y member => pass y (List.mem_cons_of_mem x member)

end Lays

end Gen

end SmallC
