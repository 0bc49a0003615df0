import SmallC.Proofs.Generation.Evaluating

/-!
Conditions that are decided. A condition is compiled to a branch or to a value, and either way tells whether it
holds: the branch is taken where it does, and the value is one there and zero elsewhere. The two ways lead to each
other: the value of most conditions is what a branch decides, and the branch of most expressions tests a value.
-/
namespace SmallC

open Allocator Machine

section

variable {S : Site} {K L : VarId → Prop} {kept fewer : List Reg} {p p' p₁ p₂ p₃ p₄ : Progress} {m m' : Machine}
  {last last' : VarId → Option Word} {c : Context} {env : Env} {left right code : Code} {l r v target : String}
  {R R' : (VarId → Option Word) → Bool → Prop} {op : BranchOp} {a b : Reg}

/-- Whether the value of an expression counts as true, given the values of variables. -/
def Expr.Holds (e : Expr) (a : Allocator) (last : VarId → Option Word) (holds : Bool) : Prop :=
  ∃ x, e.Means a last x ∧ x.isTrue = holds

/-- What an expression means does not depend on where values are. -/
theorem Expr.Means.along {e : Expr} {x : Number} (means : e.Means p.allocator last x) (orderly : p.Orderly L fewer)
    (covers : Covers K p.allocator) (along : Along K kept p p') (same : ∀ {id}, K id → last' id = last id) :
    e.Means p'.allocator last' x := by
  obtain ⟨env, shows, evaluated⟩ := means
  exact ⟨env, shows.along orderly covers along same, evaluated⟩

theorem Expr.Holds.along {e : Expr} {holds : Bool} (value : e.Holds p.allocator last holds) (orderly : p.Orderly L fewer)
    (covers : Covers K p.allocator) (along : Along K kept p p') (same : ∀ {id}, K id → last' id = last id) :
    e.Holds p'.allocator last' holds := by
  obtain ⟨x, means, is⟩ := value
  exact ⟨x, means.along orderly covers along same, is⟩

/-- The branch of an expression decides whether it counts as true. -/
structure Branched (S : Site) (c : Context) (code : Code) : Prop where
  decides : ∀ {K : VarId → Prop} {p p' : Progress} {target : String}, p.Orderly K [] → Covers K p.allocator →
    (code.branch target).exec c p = .ok ((), p') → Decides S K p target p' (code.expr.Holds p.allocator)

/-- The code of an expression computes its value, and its branch decides whether that counts as true. -/
structure Faithful (S : Site) (c : Context) (code : Code) : Prop where
  value : Valued S c code
  branch : Branched S c code

/-- Code that leads to where paths meet, with two registers on which a branch decides a condition. -/
structure Tests (S : Site) (K : VarId → Prop) (op : BranchOp) (a b : Reg) (p p' : Progress)
    (R : (VarId → Option Word) → Bool → Prop) : Prop where
  along : Along K [] p p'
  met : Met p'.allocator
  left : Reg.returnAddress ≠ a
  right : Reg.returnAddress ≠ b
  runs : S.Hosts p' → ∀ {last m holds}, Abreast S p last m → R last holds →
    ∃ last' m', Comes S K [] p' last m last' m' ∧ branches op (m'.reg a) (m'.reg b) = holds

/-- Registers that are held, and that for zero, keep what is in them. -/
theorem Comes.reg_still (comes : Comes S K kept p' last m last' m') (zero : m.reg Reg.zero = 0)
    (keeps : a ∈ kept ∨ a = Reg.zero) : m'.reg a = m.reg a := by
  rcases keeps with member | rfl
  · exact comes.still a member
  · rw [comes.abreast.agrees.zero, zero]

namespace Gen

open Alloc

theorem releaseHolds_met (met : Met p.allocator) (ran : releaseHolds.exec c p = .ok ((), p')) : Met p'.allocator := by
  rw [exec_releaseHolds ran]
  exact met.congr fun _ => rfl

/-! ### Branches on registers -/

/-- A branch that is taken where the condition holds. -/
theorem branch_decides (tests : Tests S K op a b p p₁ R) (ran : (do
      Gen.emit (MachineInstr.branchTo op a b target)
      releaseHolds : Gen Unit).exec c p₁ = .ok ((), p')) : Decides S K p target p' R := by
  obtain ⟨⟨⟩, p₂, branched, released⟩ := exec_bind_ok ran
  obtain ⟨along, same, outcomes⟩ := branch_leaves (S := S) tests.along.orderly tests.left tests.right tests.met branched
  have met : Met p₂.allocator := same ▸ tests.met
  have decides : Decides S K p target p₂ R := by
    refine ⟨tests.along.trans along, met, fun hosts last m abreast holds => ?_, fun hosts last m abreast fails => ?_⟩
    · obtain ⟨last₁, m₁, comes, taken⟩ := tests.runs (hosts.before along) abreast holds
      obtain ⟨m', arrives⟩ := (outcomes hosts comes.abreast).1 taken
      exact ⟨m', (arrives.after comes.reaches).congr fun counts => (comes.same counts).symm⟩
    · obtain ⟨last₁, m₁, comes, passed⟩ := tests.runs (hosts.before along) abreast fails
      obtain ⟨m', comes'⟩ := (outcomes hosts comes.abreast).2 passed
      exact ⟨last₁, m', comes.trans comes'⟩
  exact decides.extend (releaseHolds_flows decides.along.orderly released) (releaseHolds_met met released)

/-- A branch around a jump that is taken where the condition does not hold. -/
theorem around_decides (tests : Tests S K op a b p p₁ fun last holds => R last !holds) (ran : (do
      let around ← freshLabel
      Gen.emit (MachineInstr.branchTo op a b around)
      Gen.emit (MachineInstr.jumpTo target)
      releaseHolds
      placeLabel around : Gen Unit).exec c p₁ = .ok ((), p')) : Decides S K p target p' R := by
  obtain ⟨around, p₂, labelled, ran⟩ := exec_bind_ok ran
  obtain ⟨⟨⟩, p₃, branched, ran⟩ := exec_bind_ok ran
  obtain ⟨⟨⟩, p₄, jumped, ran⟩ := exec_bind_ok ran
  obtain ⟨⟨⟩, p₅, released, placed⟩ := exec_bind_ok ran
  obtain ⟨along₀, same, still⟩ := freshLabel_along (S := S) tests.along.orderly labelled
  have met₂ : Met p₂.allocator := same ▸ tests.met
  obtain ⟨along, same', outcomes⟩ := branch_leaves (S := S) along₀.orderly tests.left tests.right met₂ branched
  have met₃ : Met p₃.allocator := same' ▸ met₂
  obtain ⟨along', same'', leaves⟩ := jumpTo_leaves (S := S) along.orderly met₃ jumped
  have ends := releaseHolds_flows (S := S) along'.orderly released
  obtain ⟨places, met', caught⟩ := placeLabel_flows (S := S) ends.along.orderly placed
  have behind : Along K [] p₄ p' := ends.along.trans places.along
  have first : Along K [] p p₃ := (tests.along.trans along₀).trans along
  refine ⟨first.trans (along'.trans behind), met', fun hosts last m abreast value => ?_,
    fun hosts last m abreast value => ?_⟩
  · have hosts₃ := hosts.before (along'.trans behind)
    have fails : R last !false := value
    obtain ⟨last₁, m₁, comes, fails⟩ := tests.runs ((hosts₃.before along).before along₀) abreast fails
    obtain ⟨m₃, comes'⟩ := (outcomes hosts₃ (still comes.abreast)).2 fails
    obtain ⟨m₄, arrives⟩ := leaves (hosts.before behind) comes'.abreast
    exact ⟨m₄, ((arrives.forth along'.orderly behind.stands).after (comes.reaches.trans comes'.reaches)).congr
      fun counts => (comes.same counts).symm⟩
  · have hosts₃ := hosts.before (along'.trans behind)
    have holds : R last !true := value
    obtain ⟨last₁, m₁, comes, holds⟩ := tests.runs ((hosts₃.before along).before along₀) abreast holds
    obtain ⟨m₃, arrives⟩ := (outcomes hosts₃ (still comes.abreast)).1 holds
    obtain ⟨m₄, comes'⟩ := caught hosts ((arrives.forth along.orderly (along'.trans behind).stands).after comes.reaches)
    exact ⟨_, m₄, comes'.abreast, comes'.reaches, fun counts => (comes'.same counts).trans (comes.same counts), nofun⟩

/-! ### Values in registers -/

/-- A value in a register, where paths meet. -/
theorem conditionRegister_tests (valued : Valued S c code) (orderly : p.Orderly K []) (covers : Covers K p.allocator)
    (ran : (conditionRegister code).exec c p = .ok (a, p')) :
    Tests S K .bne a Reg.zero p p' (code.expr.Holds p.allocator) := by
  obtain ⟨v, p₁, computed, ran⟩ := exec_bind_ok ran
  obtain ⟨r, p₂, fetched, ran⟩ := exec_bind_ok ran
  obtain ⟨⟨⟩, p₃, freed, ran⟩ := exec_bind_ok ran
  obtain ⟨⟨⟩, p₄, hinted, ran⟩ := exec_bind_ok ran
  obtain ⟨⟨⟩, p₅, synced, ran⟩ := exec_bind_ok ran
  cases ran
  have produces := valued.produces orderly covers computed
  obtain ⟨along, held, loads⟩ := load_one (S := S) produces.along.orderly produces.loose fetched freed
  have hints := hint_flows (S := S) held hinted
  obtain ⟨syncs, met⟩ := sync_flows (S := S) hints.along.orderly synced
  have behind := hints.trans syncs
  have inPool := held.pooled a List.mem_cons_self
  refine ⟨(produces.along.trans along).trans (behind.along.mono (fun counts => counts) (List.nil_subset _)), met,
    Reg.ne_returnAddress inPool, by decide, fun hosts last m holds abreast => ?_⟩
  rintro ⟨x, means, rfl⟩
  have hosts₃ := hosts.before behind.along
  obtain ⟨last₁, m₁, comes, denotes⟩ := produces.runs (hosts₃.before along) abreast means
  obtain ⟨m₂, comes', word⟩ := loads hosts₃ comes.abreast denotes
  obtain ⟨m₃, comes''⟩ := behind.runs hosts comes'.abreast
  refine ⟨last₁, m₃, (comes.trans comes').trans (comes''.mono (fun counts => counts) (List.nil_subset _)), ?_⟩
  rw [comes''.still a List.mem_cons_self, word, comes''.abreast.agrees.zero]
  rfl

/-- Two operands are brought to one scale. -/
theorem commonKind_produces {l' r' : String} (orderly : p.Orderly K []) (loose : Loose K l p.allocator)
    (loose' : Loose K r p.allocator) (ran : (commonKind l r).exec c p = .ok ((l', r'), p')) :
    Along K [] p p' ∧ Loose K l' p'.allocator ∧ Loose K r' p'.allocator ∧
      (S.Hosts p' → ∀ {last m x y}, Abreast S p last m → Denotes p.allocator last l x →
        Denotes p.allocator last r y → Apart l r p.allocator →
        ∃ last' m', Comes S K [] p' last m last' m' ∧ Denotes p'.allocator last' l' (Number.common x y).1 ∧
          Denotes p'.allocator last' r' (Number.common x y).2) := by
  obtain ⟨kl, p₁, first, ran⟩ := exec_bind_ok ran
  obtain ⟨rfl, il, ul, resolved, found, rfl⟩ := exec_arithmeticKind orderly.calm.numeric first
  obtain ⟨kr, p₁, second, ran⟩ := exec_bind_ok ran
  obtain ⟨rfl, ir, ur, resolved', found', rfl⟩ := exec_arithmeticKind orderly.calm.numeric second
  have kinds : ∀ {last x y}, Denotes p.allocator last l x → Denotes p.allocator last r y →
      x.kind = ul.kind ∧ y.kind = ur.kind := fun left right =>
    ⟨left.kind_eq resolved found, right.kind_eq resolved' found'⟩
  split at ran
  · next mixed =>
    obtain ⟨l', p₁, one, ran⟩ := exec_bind_ok ran
    obtain ⟨r', p₂, two, ran⟩ := exec_bind_ok ran
    cases ran
    obtain ⟨along, loose, loose', runs⟩ := both_produce (S := S) orderly loose loose'
      (fun orderly loose => convert_produces orderly loose one) fun orderly loose => convert_produces orderly loose two
    refine ⟨along, loose, loose', fun hosts last m x y abreast left right apart => ?_⟩
    obtain ⟨kx, ky⟩ := kinds left right
    rw [Number.common, if_pos (by rwa [kx, ky])]
    exact runs hosts abreast left right apart
  · next ints =>
    cases ran
    refine ⟨.refl orderly, loose, loose', fun hosts last m x y abreast left right apart => ?_⟩
    obtain ⟨kx, ky⟩ := kinds left right
    rw [Number.common, if_neg (by rwa [kx, ky])]
    exact ⟨last, m, .refl abreast, left, right⟩

/-- Two operands of a relation in registers, at one scale. -/
structure Compares (S : Site) (K : VarId → Prop) (kept : List Reg) (e f : Expr) (p : Progress) (a b : Reg)
    (p' : Progress) : Prop where
  along : Along K [] p p'
  orderly : p'.Orderly K kept
  first : a ∈ kept
  second : b ∈ kept ∨ b = Reg.zero
  runs : S.Hosts p' → ∀ {last m env x y}, Abreast S p last m → Shows env p.allocator last → e.eval env = some x →
    f.eval env = some y → ∃ last' m', Comes S K [] p' last m last' m' ∧
      m'.reg a = (Number.common x y).1.word ∧ m'.reg b = (Number.common x y).2.word

/-- More code is run through that leaves the registers alone. -/
theorem Compares.extend {e f : Expr} (compares : Compares S K kept e f p a b p₁) (flows : RunsThrough S K kept p₁ p') :
    Compares S K kept e f p a b p' := by
  refine ⟨compares.along.trans (flows.along.mono (fun counts => counts) (List.nil_subset _)), flows.along.orderly,
    compares.first, compares.second, fun hosts last m env x y abreast shows left right => ?_⟩
  obtain ⟨last₁, m₁, comes, first, second⟩ := compares.runs (hosts.before flows.along) abreast shows left right
  obtain ⟨m₂, comes'⟩ := flows.runs hosts comes.abreast
  refine ⟨last₁, m₂, comes.trans (comes'.mono (fun counts => counts) (List.nil_subset _)), ?_, ?_⟩
  · rw [comes'.still a compares.first, first]
  · rw [comes'.reg_still comes.abreast.agrees.zero compares.second, second]

/-- Zero is zero at any scale. -/
theorem common_zero (x : Number) : Number.common x ⟨.int, 0⟩ = (x, ⟨x.kind, 0⟩) := by
  obtain ⟨kind, w⟩ := x
  cases kind <;> rfl

theorem relationOperands_compares (valued : Valued S c left) (valued' : Valued S c right) (orderly : p.Orderly K [])
    (covers : Covers K p.allocator) (ran : (relationOperands left right).exec c p = .ok ((a, b), p')) :
    ∃ kept, Compares S K kept left.expr right.expr p a b p' := by
  obtain ⟨l, p₁, computed, ran⟩ := exec_bind_ok ran
  split at ran
  · next line zero =>
    obtain ⟨r, p₂, fetched, ran⟩ := exec_bind_ok ran
    obtain ⟨⟨⟩, p₃, freed, ran⟩ := exec_bind_ok ran
    obtain ⟨⟨⟩, p₄, hinted, ran⟩ := exec_bind_ok ran
    cases ran
    have produces := valued.produces orderly covers computed
    obtain ⟨along, held, loads⟩ := load_one (S := S) produces.along.orderly produces.loose fetched freed
    have compares : Compares S K [a] left.expr right.expr p a Reg.zero p₃ := by
      refine ⟨produces.along.trans along, held, List.mem_cons_self, .inr rfl,
        fun hosts last m env x y abreast shows first second => ?_⟩
      rw [zero] at second
      cases second
      obtain ⟨last₁, m₁, comes, denotes⟩ := produces.runs (hosts.before along) abreast ⟨env, shows, first⟩
      obtain ⟨m₂, comes', word⟩ := loads hosts comes.abreast denotes
      refine ⟨last₁, m₂, comes.trans comes', ?_, ?_⟩
      · rw [word, show (⟨.int, Word.ofInt 0⟩ : Number) = ⟨.int, 0⟩ from rfl, common_zero]
      · rw [comes'.abreast.agrees.zero, show (⟨.int, Word.ofInt 0⟩ : Number) = ⟨.int, 0⟩ from rfl, common_zero]
    exact ⟨[a], compares.extend (hint_flows held hinted)⟩
  · obtain ⟨r, p₂, computed', ran⟩ := exec_bind_ok ran
    obtain ⟨⟨l', r'⟩, p₃, common, ran⟩ := exec_bind_ok ran
    obtain ⟨a', p₄, fetched, ran⟩ := exec_bind_ok ran
    obtain ⟨b', p₅, fetched', ran⟩ := exec_bind_ok ran
    obtain ⟨⟨⟩, p₆, freed, ran⟩ := exec_bind_ok ran
    obtain ⟨⟨⟩, p₇, freed', ran⟩ := exec_bind_ok ran
    obtain ⟨⟨⟩, p₈, hinted, ran⟩ := exec_bind_ok ran
    obtain ⟨⟨⟩, p₉, hinted', ran⟩ := exec_bind_ok ran
    cases ran
    obtain ⟨along, loose, loose', runs⟩ := operands_produce (S := S) valued valued' orderly covers computed computed'
    obtain ⟨along', loose, loose', runs'⟩ := commonKind_produces (S := S) along.orderly loose loose' common
    obtain ⟨along'', held, loads⟩ := load_two (S := S) along'.orderly loose loose' fetched fetched' freed freed'
    have hints := hint_flows (S := S) held hinted
    have compares : Compares S K [b, a] left.expr right.expr p a b p₇ := by
      refine ⟨(along.trans along').trans along'', held, by simp, .inl (by simp),
        fun hosts last m env x y abreast shows first second => ?_⟩
      obtain ⟨last₁, m₁, comes, denotes, denotes', apart⟩ :=
        runs ((hosts.before along'').before along') abreast shows first second
      obtain ⟨last₂, m₂, comes', denotes, denotes'⟩ := runs' (hosts.before along'') comes.abreast denotes denotes' apart
      obtain ⟨m₃, comes'', word, word'⟩ := loads hosts comes'.abreast denotes denotes'
      exact ⟨last₂, m₃, (comes.trans comes').trans comes'', word, word'⟩
    exact ⟨[b, a], (compares.extend hints).extend (hint_flows hints.along.orderly hinted')⟩

/-! ### Branches -/

theorem branchRelation_decides (r : Relation) (line : Nat) (valued : Valued S c left) (valued' : Valued S c right)
    (orderly : p.Orderly K []) (covers : Covers K p.allocator)
    (ran : (branchRelation r left right target).exec c p = .ok ((), p')) :
    Decides S K p target p' (Expr.Holds (.binary line (.relation r) left.expr right.expr) p.allocator) := by
  obtain ⟨⟨a, b⟩, p₁, operands, ran⟩ := exec_bind_ok ran
  obtain ⟨⟨⟩, p₂, synced, ran⟩ := exec_bind_ok ran
  obtain ⟨kept, before⟩ := relationOperands_compares (S := S) valued valued' orderly covers operands
  obtain ⟨syncs, met⟩ := sync_flows (S := S) before.orderly synced
  have compares := before.extend syncs
  obtain ⟨op, q, s, sense, registers, test, taken⟩ := branches_test r a b
  have apart : Reg.returnAddress ≠ a := Reg.ne_returnAddress (compares.orderly.pooled a compares.first)
  have apart' : Reg.returnAddress ≠ b := by
    rcases compares.second with member | rfl
    · exact Reg.ne_returnAddress (compares.orderly.pooled b member)
    · decide
  have tests : Tests S K op q s p p₂ fun last holds =>
      Expr.Holds (.binary line (.relation r) left.expr right.expr) p.allocator last (holds == sense) := by
    refine ⟨compares.along, met, ?_, ?_, fun hosts last m holds abreast => ?_⟩
    · rcases registers with ⟨rfl, -⟩ | ⟨rfl, -⟩ <;> assumption
    · rcases registers with ⟨-, rfl⟩ | ⟨-, rfl⟩ <;> assumption
    rintro ⟨z, ⟨env, shows, evaluated⟩, is⟩
    obtain ⟨x, first, evaluated⟩ := Option.bind_eq_some_iff.1 evaluated
    obtain ⟨y, second, value⟩ := Option.bind_eq_some_iff.1 evaluated
    cases value
    obtain ⟨last', m', comes, word, word'⟩ := compares.runs hosts abreast shows first second
    refine ⟨last', m', comes, ?_⟩
    rw [taken, word, word']
    change (Number.relates r x y == sense) = holds
    rw [Number.isTrue_ofBool] at is
    rw [is]
    cases holds <;> cases sense <;> rfl
  simp only [test] at ran
  cases sense with
  | true =>
    exact branch_decides (by simpa using tests) ran
  | false =>
    exact around_decides (by simpa using tests) ran

theorem branchValue_decides (valued : Valued S c code) (orderly : p.Orderly K []) (covers : Covers K p.allocator)
    (ran : (branchValue code target).exec c p = .ok ((), p')) :
    Decides S K p target p' (code.expr.Holds p.allocator) := by
  obtain ⟨r, p₁, computed, ran⟩ := exec_bind_ok ran
  exact branch_decides (conditionRegister_tests valued orderly covers computed) ran

theorem branchNot_decides (line : Nat) (valued : Valued S c code) (orderly : p.Orderly K [])
    (covers : Covers K p.allocator) (ran : (branchNot code target).exec c p = .ok ((), p')) :
    Decides S K p target p' (Expr.Holds (.unary line .not code.expr) p.allocator) := by
  obtain ⟨r, p₁, computed, ran⟩ := exec_bind_ok ran
  have tests := conditionRegister_tests (S := S) valued orderly covers computed
  refine around_decides ⟨tests.along, tests.met, tests.left, tests.right, fun hosts last m holds abreast => ?_⟩ ran
  rintro ⟨z, ⟨env, shows, evaluated⟩, is⟩
  obtain ⟨x, operand, value⟩ := Option.bind_eq_some_iff.1 evaluated
  cases value
  rw [Number.isTrue_ofBool] at is
  exact tests.runs hosts abreast ⟨x, ⟨env, shows, operand⟩, Bool.not_inj is⟩

/-- The right operand is looked at only where the left one holds. -/
theorem branchBoth_decides (line : Nat) (branched : Branched S c left) (branched' : Branched S c right)
    (orderly : p.Orderly K []) (covers : Covers K p.allocator)
    (ran : (branchBoth left right target).exec c p = .ok ((), p')) :
    Decides S K p target p' (Expr.Holds (.binary line (.logical .and) left.expr right.expr) p.allocator) := by
  obtain ⟨second, p₁, labelled, ran⟩ := exec_bind_ok ran
  obtain ⟨skip, p₂, labelled', ran⟩ := exec_bind_ok ran
  obtain ⟨⟨⟩, p₃, first, ran⟩ := exec_bind_ok ran
  obtain ⟨⟨⟩, p₄, jumped, ran⟩ := exec_bind_ok ran
  obtain ⟨⟨⟩, p₅, placed, ran⟩ := exec_bind_ok ran
  obtain ⟨⟨⟩, p₆, last', placed'⟩ := exec_bind_ok ran
  obtain ⟨along₁, same₁, still₁⟩ := freshLabel_along (S := S) orderly labelled
  obtain ⟨along₂, same₂, still₂⟩ := freshLabel_along (S := S) along₁.orderly labelled'
  have same : p₂.allocator = p.allocator := same₂.trans same₁
  have covers₂ : Covers K p₂.allocator := same ▸ covers
  have one := branched.decides along₂.orderly covers₂ first
  obtain ⟨along₄, -, leaves⟩ := jump_leaves (S := S) one.along.orderly jumped
  obtain ⟨places, -, caught⟩ := placeLabel_flows (S := S) along₄.orderly placed
  have upto : Along K [] p₂ p₅ := (one.along.trans along₄).trans places.along
  have two := branched'.decides upto.orderly (covers₂.along upto) last'
  obtain ⟨places', met', caught'⟩ := placeLabel_flows (S := S) two.along.orderly placed'
  have behind₅ : Along K [] p₅ p' := two.along.trans places'.along
  have behind₄ : Along K [] p₄ p' := places.along.trans behind₅
  -- from the label of the second test on, whatever decides that
  have goesOn : S.Hosts p' → ∀ {last m}, Abreast S p₂ last m → left.expr.Holds p₂.allocator last true →
      ∃ last₅ m₅, Comes S K [] p₅ last m last₅ m₅ := fun hosts last m abreast holds => by
    obtain ⟨m₃, arrives⟩ := one.taken (hosts.before (along₄.trans behind₄)) abreast holds
    obtain ⟨m₅, comes⟩ := caught (hosts.before behind₅)
      (arrives.forth one.along.orderly (along₄.trans places.along).stands)
    exact ⟨_, m₅, comes⟩
  have meant : ∀ {last holds}, Expr.Holds (.binary line (.logical .and) left.expr right.expr) p.allocator last holds →
      (left.expr.Holds p₂.allocator last true ∧ right.expr.Holds p₂.allocator last holds) ∨
        (left.expr.Holds p₂.allocator last false ∧ holds = false) := by
    rintro last holds ⟨z, ⟨env, shows, evaluated⟩, rfl⟩
    rw [← same] at shows
    obtain ⟨x, value, evaluated⟩ := Option.bind_eq_some_iff.1 evaluated
    split at evaluated
    · next holds =>
      obtain ⟨y, value', is⟩ := Option.bind_eq_some_iff.1 evaluated
      cases is
      exact .inl ⟨⟨x, ⟨env, shows, value⟩, holds⟩, y, ⟨env, shows, value'⟩, (Number.isTrue_ofBool _).symm⟩
    · next fails =>
      cases evaluated
      exact .inr ⟨⟨x, ⟨env, shows, value⟩, Bool.eq_false_iff.2 fails⟩, Number.isTrue_ofBool false⟩
  refine ⟨((along₁.trans along₂).trans upto).trans behind₅, met', fun hosts last m abreast holds => ?_,
    fun hosts last m abreast fails => ?_⟩
  · obtain ⟨holds, holds'⟩ | ⟨-, absurd⟩ := meant holds
    · obtain ⟨last₅, m₅, comes⟩ := goesOn hosts (still₂ (still₁ abreast)) holds
      obtain ⟨m₆, arrives⟩ := two.taken (hosts.before places'.along) comes.abreast
        (holds'.along along₂.orderly covers₂ upto comes.same)
      exact ⟨m₆, ((arrives.forth two.along.orderly places'.along.stands).after comes.reaches).congr
        fun counts => (comes.same counts).symm⟩
    · cases absurd
  · obtain ⟨holds, fails⟩ | ⟨fails, -⟩ := meant fails
    · obtain ⟨last₅, m₅, comes⟩ := goesOn hosts (still₂ (still₁ abreast)) holds
      obtain ⟨last₆, m₆, comes'⟩ := two.passed (hosts.before places'.along) comes.abreast
        (fails.along along₂.orderly covers₂ upto comes.same)
      obtain ⟨m', comes''⟩ := places'.runs hosts comes'.abreast
      exact ⟨last₆, m', (comes.trans comes').trans comes''⟩
    · obtain ⟨last₃, m₃, comes⟩ := one.passed (hosts.before (along₄.trans behind₄)) (still₂ (still₁ abreast)) fails
      obtain ⟨m₄, arrives⟩ := leaves (hosts.before behind₄) comes.abreast
      obtain ⟨m', comes'⟩ := caught' hosts ((arrives.forth along₄.orderly behind₄.stands).after comes.reaches)
      exact ⟨_, m', comes'.abreast, comes'.reaches, fun counts => (comes'.same counts).trans (comes.same counts), nofun⟩

/-- The right operand is looked at only where the left one does not hold. -/
theorem branchEither_decides (line : Nat) (branched : Branched S c left) (branched' : Branched S c right)
    (orderly : p.Orderly K []) (covers : Covers K p.allocator)
    (ran : (branchEither left right target).exec c p = .ok ((), p')) :
    Decides S K p target p' (Expr.Holds (.binary line (.logical .or) left.expr right.expr) p.allocator) := by
  obtain ⟨⟨⟩, p₁, first, second⟩ := exec_bind_ok ran
  have one := branched.decides orderly covers first
  have two := branched'.decides one.along.orderly (covers.along one.along) second
  have meant : ∀ {last holds}, Expr.Holds (.binary line (.logical .or) left.expr right.expr) p.allocator last holds →
      (left.expr.Holds p.allocator last true ∧ holds = true) ∨
        (left.expr.Holds p.allocator last false ∧ right.expr.Holds p.allocator last holds) := by
    rintro last holds ⟨z, ⟨env, shows, evaluated⟩, rfl⟩
    obtain ⟨x, value, evaluated⟩ := Option.bind_eq_some_iff.1 evaluated
    split at evaluated
    · next holds =>
      cases evaluated
      exact .inl ⟨⟨x, ⟨env, shows, value⟩, holds⟩, Number.isTrue_ofBool true⟩
    · next fails =>
      obtain ⟨y, value', is⟩ := Option.bind_eq_some_iff.1 evaluated
      cases is
      exact .inr ⟨⟨x, ⟨env, shows, value⟩, Bool.eq_false_iff.2 fails⟩, y, ⟨env, shows, value'⟩,
        (Number.isTrue_ofBool _).symm⟩
  refine ⟨one.along.trans two.along, two.met, fun hosts last m abreast holds => ?_, fun hosts last m abreast fails => ?_⟩
  · obtain ⟨holds, -⟩ | ⟨fails, holds⟩ := meant holds
    · obtain ⟨m₁, arrives⟩ := one.taken (hosts.before two.along) abreast holds
      exact ⟨m₁, arrives.forth one.along.orderly two.along.stands⟩
    · obtain ⟨last₁, m₁, comes⟩ := one.passed (hosts.before two.along) abreast fails
      obtain ⟨m', arrives⟩ := two.taken hosts comes.abreast (holds.along orderly covers one.along comes.same)
      exact ⟨m', (arrives.after comes.reaches).congr fun counts => (comes.same counts).symm⟩
  · obtain ⟨-, absurd⟩ | ⟨fails, fails'⟩ := meant fails
    · cases absurd
    · obtain ⟨last₁, m₁, comes⟩ := one.passed (hosts.before two.along) abreast fails
      obtain ⟨last₂, m₂, comes'⟩ := two.passed hosts comes.abreast (fails'.along orderly covers one.along comes.same)
      exact ⟨last₂, m₂, comes.trans comes'⟩

/-! ### Truth values -/

/-- A temporary that is relied on gets a number. -/
theorem settle_temp {temp : String} {id : VarId} {n : Int} {r : Reg} (orderly : p.Orderly K [])
    (looked : p.allocator.temps.lookup temp = some id) (fetched : (fetch temp).exec c p = .ok (r, p₁))
    (emitted : (Gen.emit (MachineInstr.loadImmediate r n)).exec c p₁ = .ok ((), p')) :
    Along K [] p p' ∧ (S.Hosts p' → ∀ {last m}, Abreast S p last m → ∃ m',
      Abreast S p' (Function.update last id (some (Word.ofInt n))) m' ∧ Reaches S.entries m m') := by
  rw [emit_eq] at emitted
  obtain ⟨flows, reads, held⟩ := fetch_flows (S := S) orderly fetched
  have inPool := held.pooled r List.mem_cons_self
  obtain ⟨along, -⟩ := emitAll_along flows.along.orderly (List.forall_mem_singleton.2 (local_addi (Reg.ne_returnAddress inPool) (by decide))) emitted
  refine ⟨flows.along.trans along, fun hosts last m abreast => ?_⟩
  obtain ⟨m₁, comes⟩ := flows.runs (hosts.before along) abreast
  obtain ⟨i, v, resolved, found, there⟩ := reads.there
  rw [find?, looked] at resolved
  cases resolved
  have isTemp : v.isTemp = true := by
    obtain ⟨u, found', isTemp, -⟩ := held.sound.names.tempIs
      ((Level.lookup_eq_some held.sound.names.tempOnce).1 (reads.temps ▸ looked))
    cases found.symm.trans found'
    exact isTemp
  obtain ⟨m₂, abreast₂, reaches⟩ := emitAll_leaves held.sound emitted hosts comes.abreast
    ⟨v, found, there, fun isNamed => by cases isTemp.symm.trans isNamed⟩
    (leaves_loadImmediate inPool comes.abreast.agrees.zero n)
  exact ⟨m₂, abreast₂, comes.reaches.trans reaches⟩

/-- What a branch decides, as a value. -/
theorem decided_produces (branched : Branched S c code) (orderly : p.Orderly K []) (covers : Covers K p.allocator)
    (ran : (decided code.branch).exec c p = .ok (v, p')) :
    Produces S K p v p' fun last y => ∃ holds, code.expr.Holds p.allocator last holds ∧ y = .ofBool holds := by
  obtain ⟨⟨temp, rd⟩, p₁, made, ran⟩ := exec_bind_ok ran
  obtain ⟨yes, p₂, labelled, ran⟩ := exec_bind_ok ran
  obtain ⟨done, p₃, labelled', ran⟩ := exec_bind_ok ran
  obtain ⟨⟨⟩, p₄, decided, ran⟩ := exec_bind_ok ran
  obtain ⟨r, p₅, fetched, ran⟩ := exec_bind_ok ran
  obtain ⟨⟨⟩, p₆, emitted, ran⟩ := exec_bind_ok ran
  obtain ⟨⟨⟩, p₇, jumped, ran⟩ := exec_bind_ok ran
  obtain ⟨⟨⟩, p₈, placed, ran⟩ := exec_bind_ok ran
  obtain ⟨r', p₉, fetched', ran⟩ := exec_bind_ok ran
  obtain ⟨⟨⟩, p₁₀, emitted', ran⟩ := exec_bind_ok ran
  obtain ⟨⟨⟩, p₁₁, placed', ran⟩ := exec_bind_ok ran
  obtain ⟨⟨⟩, p₁₂, released, ran⟩ := exec_bind_ok ran
  cases ran
  obtain ⟨makes, taken, -, -⟩ := newTemp_flows (S := S) orderly rfl made
  obtain ⟨id, u, above, looked, found, isTemp, -, kind⟩ := taken.fresh
  -- the temporary is relied on while the condition is decided
  let M : VarId → Prop := fun i => K i ∨ i = id
  have inM : ∀ {i}, K i → M i := .inl
  have own : M id := .inr rfl
  have other : ∀ {i}, K i → i ≠ id := by
    rintro i counts rfl
    exact Nat.not_lt.2 above (orderly.calm.inside counts)
  have orderly₁ : p₁.Orderly M [] := by
    refine ⟨makes.along.orderly.sound, ⟨?_, makes.along.orderly.calm.numeric, nofun⟩, nofun⟩
    rintro i (counts | rfl)
    · exact makes.along.orderly.calm.inside counts
    · exact var?_lt found
  obtain ⟨along₂, same₂, still₂⟩ := freshLabel_along (S := S) orderly₁ labelled
  obtain ⟨along₃, same₃, still₃⟩ := freshLabel_along (S := S) along₂.orderly labelled'
  have upto₃ : Along M [] p₁ p₃ := along₂.trans along₃
  have covers₁ : Covers K p₁.allocator := covers.along makes.along
  have covers₃ : Covers M p₃.allocator := Covers.mono (covers₁.along upto₃) inM
  have decides := branched.decides along₃.orderly covers₃ decided
  have lookedAt : ∀ {q}, Along M [] p₁ q → q.allocator.temps.lookup v = some id := fun along =>
    lookup_along orderly₁.sound.names along.orderly.sound.names along.stands own looked
  have upto₄ := upto₃.trans decides.along
  obtain ⟨along₆, settles⟩ := settle_temp (S := S) upto₄.orderly (lookedAt upto₄) fetched emitted
  obtain ⟨along₇, -, leaves⟩ := jump_leaves (S := S) along₆.orderly jumped
  obtain ⟨places, -, caught⟩ := placeLabel_flows (S := S) along₇.orderly placed
  have upto₈ := ((upto₄.trans along₆).trans along₇).trans places.along
  obtain ⟨along₁₀, settles'⟩ := settle_temp (S := S) upto₈.orderly (lookedAt upto₈) fetched' emitted'
  obtain ⟨places', -, caught'⟩ := placeLabel_flows (S := S) along₁₀.orderly placed'
  have behind₈ : Along M [] p₈ p₁₁ := along₁₀.trans places'.along
  have behind₇ : Along M [] p₇ p₁₁ := places.along.trans behind₈
  have behind₆ : Along M [] p₆ p₁₁ := along₇.trans behind₇
  have behind₄ : Along M [] p₄ p₁₁ := along₆.trans behind₆
  have whole : Along M [] p₁ p₁₁ := upto₈.trans behind₈
  have denotes : ∀ {last : VarId → Option Word} {w : Word}, last id = some w →
      Denotes p₁₁.allocator last v ⟨.int, w⟩ := fun written => by
    obtain ⟨t, found', stays⟩ := whole.stands.stays own found
    refine ⟨id, t, ?_, found', stays.kind.trans kind, written, .inr (lookedAt whole)⟩
    rw [find?, lookedAt whole]
    rfl
  have produces : Produces S K p v p₁₁ fun last y =>
      ∃ holds, code.expr.Holds p.allocator last holds ∧ y = .ofBool holds := by
    refine ⟨makes.along.trans (whole.mono inM (List.Subset.refl _)), fun i looked' counts => ?_,
      fun hosts last m y abreast => ?_⟩
    · exact other counts (Option.some.inj (looked'.symm.trans (lookedAt whole)))
    · rintro ⟨holds, value, rfl⟩
      have hosts₄ := hosts.before behind₄
      obtain ⟨m₁, comes⟩ := makes.runs ((hosts₄.before decides.along).before upto₃) abreast
      have abreast₃ := still₃ (still₂ comes.abreast)
      have value₃ := (value.along orderly covers makes.along comes.same).along orderly₁ covers₁
        (upto₃.mono inM (List.Subset.refl _)) fun _ => rfl
      cases holds with
      | false =>
        obtain ⟨last₄, m₄, comes'⟩ := decides.passed hosts₄ abreast₃ value₃
        obtain ⟨m₆, abreast₆, reaches⟩ := settles (hosts.before behind₆) comes'.abreast
        obtain ⟨m₇, arrives⟩ := leaves (hosts.before behind₇) abreast₆
        obtain ⟨m', comes''⟩ := caught' hosts ((arrives.forth along₇.orderly behind₇.stands).after
          (comes.reaches.trans (comes'.reaches.trans reaches)))
        refine ⟨_, m', ⟨comes''.abreast, comes''.reaches, fun counts => ?_, nofun⟩, denotes ?_⟩
        · rw [valuesOf_of (inM counts), Function.update_of_ne (other counts), comes'.same (inM counts)]
        · rw [valuesOf_of own, Function.update_self]
          rfl
      | true =>
        obtain ⟨m₄, arrives⟩ := decides.taken hosts₄ abreast₃ value₃
        obtain ⟨m₈, comes'⟩ := caught (hosts.before behind₈)
          (arrives.forth decides.along.orderly ((along₆.trans along₇).trans places.along).stands)
        obtain ⟨m₁₀, abreast₁₀, reaches⟩ := settles' (hosts.before places'.along) comes'.abreast
        obtain ⟨m', comes''⟩ := places'.runs hosts abreast₁₀
        refine ⟨_, m', ⟨comes''.abreast, (comes.reaches.trans (comes'.reaches.trans reaches)).trans comes''.reaches,
          fun counts => ?_, nofun⟩, denotes ?_⟩
        · rw [Function.update_of_ne (other counts), comes'.same (inM counts)]
        · rw [Function.update_self]
          rfl
  exact produces.extend (releaseHolds_flows whole.orderly.known released)

theorem local_valueCode {rd : Reg} {r : Relation} {code : List MachineInstr} (inPool : rd.isPool = true)
    (left : Reg.returnAddress ≠ a) (right : Reg.returnAddress ≠ b) (known : r.valueCode? rd a b = some code) :
    ∀ i ∈ code, i.Local := by
  have apart := Reg.ne_returnAddress inPool
  have zero : Reg.returnAddress ≠ Reg.zero := by decide
  have turned : ∀ i ∈ ([.alu .sub rd Reg.zero rd, .addi rd rd 1] : List MachineInstr), i.Local := by
    simpa using ⟨local_alu apart zero apart, local_addi apart apart⟩
  cases r with
  | eq | ne => cases known
  | lt | gt =>
    cases known
    exact List.forall_mem_singleton.2 (local_alu apart left right)
  | le | ge =>
    cases known
    exact List.forall_mem_cons.2 ⟨local_alu apart left right, turned⟩

/-- A relation with code that computes it. -/
theorem order_produces {r : Relation} (line : Nat) (valued : Valued S c left) (valued' : Valued S c right)
    (orderly : p.Orderly K []) (covers : Covers K p.allocator)
    (coded : ∀ rd a b, ∃ code, r.valueCode? rd a b = some code) (ran : (do
      let (a, b) ← relationOperands left right
      let (temp, rd) ← newTemp .int 0
      emitAll ((r.valueCode? rd a b).getD [])
      releaseHolds
      return temp : Gen String).exec c p = .ok (v, p')) :
    Produces S K p v p' (Expr.Means (.binary line (.relation r) left.expr right.expr) p.allocator) := by
  obtain ⟨⟨a, b⟩, p₁, operands, ran⟩ := exec_bind_ok ran
  obtain ⟨kept, compares⟩ := relationOperands_compares (S := S) valued valued' orderly covers operands
  have apart : Reg.returnAddress ≠ a := Reg.ne_returnAddress (compares.orderly.pooled a compares.first)
  have apart' : Reg.returnAddress ≠ b := by
    rcases compares.second with member | rfl
    · exact Reg.ne_returnAddress (compares.orderly.pooled b member)
    · decide
  obtain ⟨along, loose, runs⟩ := compute_temp (S := S) (f := fun rd => (r.valueCode? rd a b).getD [])
    compares.orderly rfl (fun {rd} inPool => by
      obtain ⟨code, known⟩ := coded rd a b
      rw [known]
      exact local_valueCode inPool apart apart' known) ran
  refine ⟨compares.along.trans along, loose, fun hosts last m z abreast => ?_⟩
  rintro ⟨env, shows, evaluated⟩
  obtain ⟨x, left', evaluated⟩ := Option.bind_eq_some_iff.1 evaluated
  obtain ⟨y, right', value⟩ := Option.bind_eq_some_iff.1 evaluated
  cases value
  obtain ⟨last₁, m₁, comes, word, word'⟩ := compares.runs (hosts.before along) abreast shows left' right'
  obtain ⟨last₂, m₂, comes', denotes⟩ := runs hosts comes.abreast (w := Word.ofBool (Number.relates r x y))
    fun {m' rd} inPool _ zero still => by
      obtain ⟨code, known⟩ := coded rd a b
      have leaves := leaves_valueCode inPool known zero
      have second : m'.reg b = m₁.reg b := by
        rcases compares.second with member | rfl
        · exact still b member
        · rw [zero, comes.abreast.agrees.zero]
      rw [still a compares.first, second, word, word'] at leaves
      rw [known]
      exact leaves
  exact ⟨last₂, m₂, comes.trans comes', denotes⟩

/-- What the value of an expression is, that is one or zero as the expression holds or not. -/
theorem decided_means {e : Expr} (truth : ∀ {env x}, e.eval env = some x → x = .ofBool x.isTrue)
    (produces : Produces S K p v p' fun last y => ∃ holds, e.Holds p.allocator last holds ∧ y = .ofBool holds) :
    Produces S K p v p' (e.Means p.allocator) := by
  apply produces.weaken
  rintro last x ⟨env, shows, evaluated⟩
  exact ⟨x.isTrue, ⟨x, ⟨env, shows, evaluated⟩, rfl⟩, truth evaluated⟩

theorem relation_faithful (r : Relation) (line : Nat) (valued : Valued S c left) (valued' : Valued S c right) :
    Faithful S c ⟨.binary line (.relation r) left.expr right.expr, some <$> relationValue r left right,
      branchRelation r left right⟩ := by
  have branched : Branched S c ⟨.binary line (.relation r) left.expr right.expr,
      some <$> relationValue r left right, branchRelation r left right⟩ :=
    ⟨fun orderly covers ran => branchRelation_decides r line valued valued' orderly covers ran⟩
  refine ⟨⟨fun {K p p' v} orderly covers ran => ?_⟩, branched⟩
  rw [value_of_result rfl] at ran
  have truth : ∀ {env : Env} {x}, Expr.eval env (.binary line (.relation r) left.expr right.expr) = some x →
      x = .ofBool x.isTrue := fun evaluated => by
    obtain ⟨y, -, evaluated⟩ := Option.bind_eq_some_iff.1 evaluated
    obtain ⟨z, -, value⟩ := Option.bind_eq_some_iff.1 evaluated
    cases value
    rw [Number.isTrue_ofBool]
  cases r with
  | eq => exact decided_means truth (decided_produces branched orderly covers ran)
  | ne => exact decided_means truth (decided_produces branched orderly covers ran)
  | lt | le | gt | ge => exact order_produces line valued valued' orderly covers (fun _ _ _ => ⟨_, rfl⟩) ran

/-- Code that is branched on decides what it computes. -/
theorem faithful_ofBranch {e : Expr} {branch : String → Gen Unit}
    (truth : ∀ {env : Env} {x}, e.eval env = some x → x = .ofBool x.isTrue)
    (branched : Branched S c (.ofBranch e branch)) : Faithful S c (.ofBranch e branch) := by
  refine ⟨⟨fun orderly covers ran => ?_⟩, branched⟩
  rw [value_of_result rfl] at ran
  exact decided_means truth (decided_produces branched orderly covers ran)

/-- Code that computes a value decides whether that counts as true. -/
theorem faithful_ofValue {e : Expr} {value : Gen String} (valued : Valued S c (.ofValue e value)) :
    Faithful S c (.ofValue e value) := by
  refine ⟨valued, ⟨fun {K p p' target} orderly covers ran => ?_⟩⟩
  have valued' : Valued S c ⟨e, some <$> value, fun _ => return⟩ :=
    ⟨fun orderly covers ran => valued.produces orderly covers ran⟩
  have decides := branchValue_decides valued' orderly covers ran
  exact decides

theorem and_faithful (line : Nat) (left' : Faithful S c left) (right' : Faithful S c right) :
    Faithful S c (.ofBranch (.binary line (.logical .and) left.expr right.expr) (branchBoth left right)) := by
  apply faithful_ofBranch
  · intro env x evaluated
    obtain ⟨y, -, evaluated⟩ := Option.bind_eq_some_iff.1 evaluated
    split at evaluated
    · obtain ⟨z, -, value⟩ := Option.bind_eq_some_iff.1 evaluated
      cases value
      rw [Number.isTrue_ofBool]
    · cases evaluated
      rfl
  · exact ⟨fun orderly covers ran => branchBoth_decides line left'.branch right'.branch orderly covers ran⟩

theorem or_faithful (line : Nat) (left' : Faithful S c left) (right' : Faithful S c right) :
    Faithful S c (.ofBranch (.binary line (.logical .or) left.expr right.expr) (branchEither left right)) := by
  apply faithful_ofBranch
  · intro env x evaluated
    obtain ⟨y, -, evaluated⟩ := Option.bind_eq_some_iff.1 evaluated
    split at evaluated
    · cases evaluated
      rfl
    · obtain ⟨z, -, value⟩ := Option.bind_eq_some_iff.1 evaluated
      cases value
      rw [Number.isTrue_ofBool]
  · exact ⟨fun orderly covers ran => branchEither_decides line left'.branch right'.branch orderly covers ran⟩

theorem not_faithful (line : Nat) (operand : Faithful S c code) :
    Faithful S c (.ofBranch (.unary line .not code.expr) (branchNot code)) := by
  apply faithful_ofBranch
  · intro env x evaluated
    obtain ⟨y, -, value⟩ := Option.bind_eq_some_iff.1 evaluated
    cases value
    rw [Number.isTrue_ofBool]
  · exact ⟨fun orderly covers ran => branchNot_decides line operand.value orderly covers ran⟩

end Gen

end

namespace Gen

/-! ### All of them -/

theorem expr_code (calls : CallCode) (e : Expr) : (code calls e).expr = e := by
  cases e with
  | binary line op left right =>
    rcases op with (op | direction) | r | (_ | _)
    case relation => rw [code]
    all_goals
      rw [code]
      rfl
  | unary line op operand =>
    cases op <;>
    · rw [code]
      rfl
  | _ =>
    rw [code]
    rfl

/-- By induction on the expression, its code computes its value and decides whether that counts as true. -/
theorem code_faithful (S : Site) (c : Context) (calls : CallCode) :
    ∀ e : Expr, e.isPure = true → e.Proper → Faithful S c (code calls e)
  | .int line value, _, _ => by
    rw [code]
    exact faithful_ofValue (literal_valued .int value fun _ => rfl)
  | .fixed line value, _, _ => by
    rw [code]
    exact faithful_ofValue (literal_valued .fixed value fun _ => rfl)
  | .var line name n, _, proper => by
    rw [Expr.Proper] at proper
    rw [code]
    exact faithful_ofValue (variable_valued line n proper.named)
  | .binary line op left right, pure, proper => by
    rw [Expr.isPure, Bool.and_eq_true] at pure
    rw [Expr.Proper] at proper
    have left' := code_faithful S c calls left pure.1 proper.1
    have right' := code_faithful S c calls right pure.2 proper.2
    cases op with
    | word op =>
      cases op with
      | arithmetic op =>
        have valued := arithmetic_valued op line left'.value right'.value
        rw [expr_code, expr_code] at valued
        rw [code]
        exact faithful_ofValue valued
      | shift direction =>
        have valued := shift_valued direction line left'.value right
        rw [expr_code] at valued
        rw [code]
        exact faithful_ofValue valued
    | relation r =>
      have faithful := relation_faithful r line left'.value right'.value
      rw [expr_code, expr_code] at faithful
      rw [code]
      exact faithful
    | logical op =>
      cases op with
      | and =>
        have faithful := and_faithful line left' right'
        rw [expr_code, expr_code] at faithful
        rw [code]
        exact faithful
      | or =>
        have faithful := or_faithful line left' right'
        rw [expr_code, expr_code] at faithful
        rw [code]
        exact faithful
  | .unary line .neg operand, pure, proper => by
    rw [Expr.isPure] at pure
    rw [Expr.Proper] at proper
    have valued := negate_valued line (code_faithful S c calls operand pure proper).value
    rw [expr_code] at valued
    rw [code]
    exact faithful_ofValue valued
  | .unary line .not operand, pure, proper => by
    rw [Expr.isPure] at pure
    rw [Expr.Proper] at proper
    have faithful := not_faithful line (code_faithful S c calls operand pure proper)
    rw [expr_code] at faithful
    rw [code]
    exact faithful
  | .unary _ .ref _, pure, _ | .unary _ .deref _, pure, _ | .assign .., pure, _ | .call .., pure, _
  | .index .., pure, _ => nomatch pure

end Gen

end SmallC
