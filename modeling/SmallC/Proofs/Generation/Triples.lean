import SmallC.Generation.Source
import SmallC.Proofs.Allocation.Shape

/-!
What generating code does to the allocator, as triples: from states of one kind, generation does the
same whether or not the allocator is checked, and where it ends it ends in states of another kind.

The kinds of states are those of a given shape. An expression adds its own result to the temporaries that
are alive, if the result is one, and a statement leaves the shape as it was.
-/
namespace SmallC

namespace Alloc

variable {α β : Type}

/-- From states of one kind, an operation that succeeds leads to states of another kind. -/
def Leads (P : Allocator → Prop) (act : Alloc α) (Q : α → Allocator → Prop) : Prop :=
  ∀ w x w', P w.allocator → Ran act w x w' → Q x w'.allocator

theorem Leads.bind {P : Allocator → Prop} {act : Alloc α} {Q : α → Allocator → Prop}
    {f : α → Alloc β} {R : β → Allocator → Prop} (first : Leads P act Q)
    (rest : ∀ x, Leads (Q x) (f x) R) : Leads P (act >>= f) R := by
  intro w y w' before ran
  obtain ⟨x, mid, ran, ran'⟩ := ran_bind.1 ran
  exact rest x _ _ _ (first _ _ _ before ran) ran'

theorem Leads.pure {P : Allocator → Prop} {x : α} {Q : α → Allocator → Prop}
    (holds : ∀ a, P a → Q x a) : Leads P (Pure.pure x) Q := by
  intro w y w' before ran
  obtain ⟨rfl, rfl⟩ := ran_pure.1 ran
  exact holds _ before

end Alloc

/-- The same facts about a source, with the check of the allocator switched on or off. -/
def Context.checked (c : Context) (verifies : Bool) : Context := { c with verifies }

namespace Gen

variable {α β : Type} {c : Context}

/-- What generation comes to, given what is known about the source and how far it has come. -/
abbrev exec (act : Gen α) (c : Context) (p : Progress) : Except CompileError (α × Progress) :=
  (act.run c).run p

/-- From states of one kind, generation ends in states of another kind if it ends without an error, and
whether or not the allocator is checked makes no difference. -/
structure Meets (c : Context) (P : Allocator → Prop) (act : Gen α) (Q : α → Allocator → Prop) :
    Prop where
  blind : ∀ p, P p.allocator → act.exec (c.checked true) p = act.exec (c.checked false) p
  ends : ∀ p x p', P p.allocator → act.exec (c.checked false) p = .ok (x, p') → Q x p'.allocator

namespace Meets

variable {P P' : Allocator → Prop} {act other : Gen α} {Q Q' : α → Allocator → Prop}
  {R : β → Allocator → Prop}

theorem weaken (meets : Meets c P act Q) (before : ∀ a, P' a → P a)
    (after : ∀ x a, Q x a → Q' x a) : Meets c P' act Q' where
  blind p holds := meets.blind p (before _ holds)
  ends p x p' holds ran := after x _ (meets.ends p x p' (before _ holds) ran)

/-- A triple is about the runs with the check as well as about those without it. -/
theorem run (meets : Meets c P act Q) {verifies : Bool} {p p' : Progress} {x : α} (before : P p.allocator)
    (ran : act.exec (c.checked verifies) p = .ok (x, p')) : Q x p'.allocator := by
  cases verifies with
  | true => exact meets.ends p x p' before ((meets.blind p before).symm.trans ran)
  | false => exact meets.ends p x p' before ran

theorem pure {x : α} (holds : ∀ a, P a → Q x a) : Meets c P (Pure.pure x) Q where
  blind _ _ := rfl
  ends p y p' before ran := by
    cases ran
    exact holds _ before

theorem throw (e : CompileError) : Meets c P (MonadExcept.throw e : Gen α) Q where
  blind _ _ := rfl
  ends _ _ _ _ ran := by cases ran

theorem fail (line : Nat) (fault : SemanticFault) : Meets c P (Gen.fail line fault : Gen α) Q :=
  throw _

theorem exec_bind (act : Gen α) (f : α → Gen β) (c : Context) (p : Progress) :
    (act >>= f).exec c p = (act.exec c p).bind fun done => (f done.1).exec c done.2 := rfl

theorem bind {f : α → Gen β} (first : Meets c P act Q) (rest : ∀ x, Meets c (Q x) (f x) R) :
    Meets c P (act >>= f) R where
  blind p holds := by
    rw [exec_bind, exec_bind, first.blind p holds]
    cases ran : act.exec (c.checked false) p with
    | error e => rfl
    | ok done => exact (rest done.1).blind done.2 (first.ends p _ _ holds ran)
  ends p y p' holds ran := by
    rw [exec_bind] at ran
    cases first' : act.exec (c.checked false) p with
    | error e =>
      rw [first'] at ran
      cases ran
    | ok done =>
      rw [first'] at ran
      exact (rest done.1).ends done.2 y p' (first.ends p _ _ holds first') ran

theorem map {f : α → β} (meets : Meets c P act fun x a => R (f x) a) :
    Meets c P (f <$> act) R := by
  rw [← bind_pure_comp]
  exact meets.bind fun x => .pure fun _ holds => holds

theorem ite {p : Prop} [Decidable p] (yes : p → Meets c P act Q) (no : ¬ p → Meets c P other Q) :
    Meets c P (if p then act else other) Q := by
  split
  · next holds => exact yes holds
  · next fails => exact no fails

/-- What stops generation on a condition. -/
theorem refuse {p : Prop} [Decidable p] {line : Nat} {fault : SemanticFault} {f : Unit → Gen β}
    (rest : ¬ p → Meets c P (f ()) R) :
    Meets c P (if p then Gen.fail line fault >>= f else f ()) R :=
  .ite (fun _ => (throw (Q := fun _ _ => False) _).bind fun _ =>
    ⟨fun _ absurd => absurd.elim, fun _ _ _ absurd => absurd.elim⟩) rest

/-- What is done on a condition. -/
theorem either {p : Prop} [Decidable p] {act : Gen Unit} {f : Unit → Gen β}
    (stays : Meets c P act fun _ => P) (rest : Meets c P (f ()) R) :
    Meets c P (if p then act >>= f else f ()) R :=
  .ite (fun _ => stays.bind fun _ => rest) fun _ => rest

/-- What is known without a look at the state. -/
theorem given {p : Prop} (meets : p → Meets c P act Q) : Meets c (fun a => P a ∧ p) act Q where
  blind q before := (meets before.2).blind q before.1
  ends q x q' before := (meets before.2).ends q x q' before.1

/-- What is known of some witness only. -/
theorem of_exists {ι : Sort*} {P : ι → Allocator → Prop} (meets : ∀ i, Meets c (P i) act Q) :
    Meets c (fun a => ∃ i, P i a) act Q where
  blind p before := before.elim fun i holds => (meets i).blind p holds
  ends p x p' before ran := before.elim fun i holds => (meets i).ends p x p' holds ran

/-- Generation that always ends, and leaves the allocator alone. -/
theorem quiet {g : Progress → α × Progress} (same : ∀ c p, act.exec c p = .ok (g p))
    (still : ∀ p, (g p).2.allocator = p.allocator) (holds : ∀ x a, P a → Q x a) :
    Meets c P act Q where
  blind p _ := by rw [same, same]
  ends p x p' before ran := by
    rw [same] at ran
    have reached : p' = (g p).2 := congrArg Prod.snd (Except.ok.inj ran).symm
    rw [reached]
    exact holds _ _ (by rw [still]; exact before)

/-- What the allocator does. -/
theorem alloc {act : Alloc α} (leads : Alloc.Leads P act Q) : Meets c P (Gen.alloc act) Q := by
  have done : ∀ {c p x w}, act.run ⟨p.allocator, #[]⟩ = .ok x w → (Gen.alloc act).exec c p =
      .ok (x, { p with allocator := w.allocator, draft := p.draft.pushAll w.code }) := by
    intro c p x w ran
    simp only [Gen.alloc, exec_bind]
    rw [show (MonadState.get : Gen Progress).exec c p = .ok (p, p) from rfl]
    simp only [Except.bind, ran]
    rfl
  have failed : ∀ {c p fault w}, act.run ⟨p.allocator, #[]⟩ = .error fault w →
      (Gen.alloc act).exec c p = .error (.allocator fault) := by
    intro c p fault w ran
    simp only [Gen.alloc, exec_bind]
    rw [show (MonadState.get : Gen Progress).exec c p = .ok (p, p) from rfl]
    simp only [Except.bind, ran]
    rfl
  refine ⟨fun p _ => ?_, fun p x p' before ran => ?_⟩
  · cases ran : act.run ⟨p.allocator, #[]⟩ with
    | ok x w => rw [done ran, done ran]
    | error fault w => rw [failed ran, failed ran]
  · cases ran' : act.run ⟨p.allocator, #[]⟩ with
    | ok y w =>
      rw [done ran'] at ran
      cases ran
      exact leads _ _ _ before ran'
    | error fault w =>
      rw [failed ran'] at ran
      cases ran

theorem look (f : Allocator → α) : Meets c P (Gen.look f) fun x a => P a ∧ x = f a where
  blind _ _ := rfl
  ends p x p' before ran := by
    cases ran
    exact ⟨before, rfl⟩

/-- What is read off the source is the same whether or not the allocator is checked, unless it is just
that. -/
theorem read {f : Context → Gen α} (same : ∀ verifies, f (c.checked verifies) = act)
    (rest : Meets c P act Q) : Meets c P (MonadReader.read >>= f) Q where
  blind p holds := by
    change (f (c.checked true)).exec _ p = (f (c.checked false)).exec _ p
    rw [same, same]
    exact rest.blind p holds
  ends p x p' holds ran := by
    change (f (c.checked false)).exec _ p = _ at ran
    rw [same] at ran
    exact rest.ends p x p' holds ran

/-- What is only done where the allocator is checked, and does nothing then. -/
theorem verified {act : Gen Unit} (idle : ∀ c p, P p.allocator → act.exec c p = .ok ((), p)) :
    Meets c P (do if (← MonadReader.read).verifies then act) fun _ => P where
  blind p before := idle _ p before
  ends p x p' before ran := by
    cases ran
    exact before

/-- What is read off the progress made so far. -/
theorem get {f : Progress → Gen α} (rest : ∀ p, Meets c P (f p) Q) :
    Meets c P (MonadState.get >>= f) Q where
  blind p holds := (rest p).blind p holds
  ends p x p' holds ran := (rest p).ends p x p' holds ran

theorem forM {f : α → Gen Unit} {I : List α → Allocator → Prop} (xs : List α)
    (pass : ∀ x rest, x ∈ xs → Meets c (I (x :: rest)) (f x) fun _ => I rest) :
    Meets c (I xs) (xs.forM f) fun _ => I [] := by
  induction xs with
  | nil => exact .pure fun _ holds => holds
  | cons x rest ih =>
    exact (pass x rest List.mem_cons_self).bind fun _ =>
      ih fun y rest member => pass y rest (List.mem_cons_of_mem x member)

end Meets

end Gen

end SmallC
