import SmallC.Generation.Expression
import SmallC.Proofs.Generation.Arriving

/-!
Expressions that are computed. The code of an expression computes its value, whatever values the variables in
scope have, as long as the value is defined. While the second operand of an operation is computed, the result of
the first one is relied on besides all that was before.
-/
namespace SmallC

open Allocator Machine

/-- The variables in scope stand for their numbers. -/
def Shows (env : Env) (a : Allocator) (last : VarId → Option Word) : Prop :=
  ∀ name x, isTempName name = false → env.find? name = some x → Gen.Denotes a last name x

/-- All variables in scope count. -/
def Covers (K : VarId → Prop) (a : Allocator) : Prop :=
  ∀ name id, findFrom a.root name a.inner = some id → K id

/-- The value of an expression, given the values of variables. -/
def Expr.Means (e : Expr) (a : Allocator) (last : VarId → Option Word) (x : Number) : Prop :=
  ∃ env, Shows env a last ∧ e.eval env = some x

variable {S : Site} {K L : VarId → Prop} {kept fewer : List Reg} {p p' p₁ p₂ : Progress} {m m' : Machine}
  {last last' : VarId → Option Word} {c : Context} {env : Env} {left right code : Code} {l r v : String}
  {R R' : (VarId → Option Word) → Number → Prop}

theorem Covers.along (covers : Covers K p.allocator) (along : Along L kept p p') : Covers K p'.allocator := by
  intro name id found
  rw [along.root, along.inner] at found
  exact covers name id found

theorem Covers.mono (covers : Covers K p.allocator) (less : ∀ {id}, K id → L id) : Covers L p.allocator :=
  fun name id found => less (covers name id found)

/-- What is relied on and in scope keeps its number. -/
theorem Shows.along (shows : Shows env p.allocator last) (orderly : p.Orderly L fewer)
    (covers : Covers K p.allocator) (along : Along K kept p p') (same : ∀ {id}, K id → last' id = last id) :
    Shows env p'.allocator last' := by
  intro name x named found
  refine (shows name x named found).along orderly.sound.names along.orderly.sound.names along.stands along.root along.inner
    (fun id resolved => covers name id ?_) same
  rw [find?, Gen.lookup_of_named orderly.sound.names named] at resolved
  exact resolved

namespace Produces

/-- What is computed may be put in other terms. -/
theorem weaken (produces : Produces S K p v p' R) (holds : ∀ {last x}, R' last x → R last x) :
    Produces S K p v p' R' :=
  ⟨produces.along, produces.loose, fun hosts _ _ _ abreast value => produces.runs hosts abreast (holds value)⟩

/-- More code is run through that leaves all that is known alone. -/
theorem extend (produces : Produces S K p v p₁ R) (flows : RunsThrough S p₁.allocator.Known [] p₁ p') :
    Produces S K p v p' R := by
  have along := flows.along.mono (L := K) (fun counts => produces.along.stands.still counts) (List.Subset.refl _)
  refine ⟨produces.along.trans along, produces.loose.along produces.along.orderly along,
    fun hosts last m x abreast value => ?_⟩
  obtain ⟨last₁, m₁, comes, denotes⟩ := produces.runs (hosts.before flows.along) abreast value
  obtain ⟨m₂, comes'⟩ := flows.runs hosts comes.abreast
  refine ⟨last₁, m₂, comes.trans ⟨comes'.abreast, comes'.reaches, fun _ => rfl, comes'.still⟩, ?_⟩
  exact denotes.still produces.along.orderly flows.along fun _ => rfl

/-- A number is computed from one that was computed before. -/
theorem next {T : Number → Number → Prop} (first : Produces S K p l p₁ R)
    (second : Produces S K p₁ v p' fun last y => ∃ x, Gen.Denotes p₁.allocator last l x ∧ T x y) :
    Produces S K p v p' fun last y => ∃ x, R last x ∧ T x y := by
  refine ⟨first.along.trans second.along, second.loose, fun hosts last m y abreast => ?_⟩
  rintro ⟨x, value, gives⟩
  obtain ⟨last₁, m₁, comes, denotes⟩ := first.runs (hosts.before second.along) abreast value
  obtain ⟨last₂, m₂, comes', denotes'⟩ := second.runs hosts comes.abreast ⟨x, denotes, gives⟩
  exact ⟨last₂, m₂, comes.trans comes', denotes'⟩

end Produces

/-- The code of an expression computes its value. -/
structure Valued (S : Site) (c : Context) (code : Code) : Prop where
  produces : ∀ {K : VarId → Prop} {p p' : Progress} {v : String}, p.Orderly K [] → Covers K p.allocator →
    (code.value).exec c p = .ok (v, p') → Produces S K p v p' (code.expr.Means p.allocator)

namespace Gen

open Alloc

/-- Code whose result is a value computes that. -/
theorem value_of_result {act : Gen String} (result : code.result = some <$> act) : code.value = act := by
  rw [Code.value, result, map_eq_pure_bind, bind_assoc]
  simp only [pure_bind, bind_pure]

/-- The names in use at a state between operations, one of them with a result that is relied on. -/
theorem Produces.holding (produces : Produces S K p l p₁ R) (covers : Covers K p.allocator) :
    p₁.Orderly (fun id => K id ∨ p₁.allocator.temps.lookup l = some id) [] ∧
      Covers (fun id => K id ∨ p₁.allocator.temps.lookup l = some id) p₁.allocator := by
  have orderly := produces.along.orderly
  refine ⟨⟨orderly.sound, ⟨fun counts => ?_, orderly.calm.numeric, nofun⟩, nofun⟩,
    Covers.mono (covers.along produces.along) .inl⟩
  rcases counts with counts | looked
  · exact orderly.calm.inside counts
  · obtain ⟨u, found, -⟩ := orderly.sound.names.tempIs
      ((Level.lookup_eq_some orderly.sound.names.tempOnce).1 looked)
    exact var?_lt found

/-- Two operands are computed one after the other. -/
theorem operands_produce (valued : Valued S c left) (valued' : Valued S c right) (orderly : p.Orderly K [])
    (covers : Covers K p.allocator) (ran : left.value.exec c p = .ok (l, p₁))
    (ran' : right.value.exec c p₁ = .ok (r, p₂)) :
    Along K [] p p₂ ∧ Loose K l p₂.allocator ∧ Loose K r p₂.allocator ∧
      (S.Hosts p₂ → ∀ {last m env x y}, Abreast S p last m → Shows env p.allocator last →
        left.expr.eval env = some x → right.expr.eval env = some y →
        ∃ last' m', Comes S K [] p₂ last m last' m' ∧ Denotes p₂.allocator last' l x ∧
          Denotes p₂.allocator last' r y ∧ Apart l r p₂.allocator) := by
  have first := valued.produces orderly covers ran
  obtain ⟨orderly₁, covers₁⟩ := Produces.holding first covers
  have second := valued'.produces orderly₁ covers₁ ran'
  have along : Along K [] p₁ p₂ := second.along.mono .inl (List.Subset.refl _)
  refine ⟨first.along.trans along, first.loose.along first.along.orderly along, fun id looked counts =>
    second.loose id looked (.inl counts), fun hosts last m env x y abreast shows evaluated evaluated' => ?_⟩
  obtain ⟨last₁, m₁, comes, denotes⟩ := first.runs (hosts.before along) abreast ⟨env, shows, evaluated⟩
  have shows₁ := shows.along orderly covers first.along comes.same
  obtain ⟨last₂, m₂, comes', denotes'⟩ := second.runs hosts comes.abreast ⟨env, shows₁, evaluated'⟩
  have names := first.along.orderly.sound.names
  have names' := second.along.orderly.sound.names
  -- a variable is in scope, and the result of the first operand was relied on
  have still : Denotes p₂.allocator last₂ l x := by
    refine denotes.along names names' second.along.stands second.along.root second.along.inner
      (fun id resolved => ?_) comes'.same
    obtain ⟨i, u, resolved', -, -, -, ⟨named, -⟩ | looked⟩ := denotes
    · rw [find?, lookup_of_named names named] at resolved
      exact covers₁ _ _ resolved
    · cases resolved.symm.trans resolved'
      exact .inr looked
  refine ⟨last₂, m₂, comes.trans (comes'.mono .inl (List.Subset.refl _)), still, denotes', fun id looked resolved => ?_⟩
  obtain ⟨u, found, isTemp, -⟩ := names'.tempIs ((Level.lookup_eq_some names'.tempOnce).1 looked)
  obtain ⟨i, t, resolved', found', -, -, ⟨-, isNamed⟩ | looked'⟩ := denotes'
  · cases resolved.symm.trans resolved'
    cases found.symm.trans found'
    cases isTemp.symm.trans isNamed
  · cases resolved.symm.trans resolved'
    refine second.loose _ looked' (.inr ?_)
    obtain ⟨j, s, resolvedL, -, -, -, ⟨named, -⟩ | lookedL⟩ := denotes
    · cases (lookup_of_named names' named).symm.trans looked
    · have relied := lookup_along names names' second.along.stands (.inr lookedL) lookedL
      cases relied.symm.trans looked
      exact lookedL

/-! ### Operations -/

/-- A hint for the allocator leaves a result alone. -/
theorem hint_extends {e : Expr} (produces : Produces S K p v p₁ R) (ran : (hint e).exec c p₁ = .ok ((), p')) :
    Produces S K p v p' R :=
  produces.extend (hint_flows produces.along.orderly.known ran)

theorem literal_valued (kind : NumberKind) (value : Int) {e : Expr}
    (is : ∀ env : Env, e.eval env = Expr.ofLiteral kind value) : Valued S c (.ofValue e (literal value kind)) := by
  refine ⟨fun {K p p' v} orderly covers ran => ?_⟩
  rw [value_of_result rfl] at ran
  apply (literal_produces orderly ran).weaken
  rintro last x ⟨env, -, evaluated⟩
  change e.eval env = some x at evaluated
  rw [is, Expr.ofLiteral, Option.ite_none_right_eq_some, Option.some.injEq] at evaluated
  exact evaluated.2.symm

theorem exec_readVariable {line : Nat} {name : String} (ran : (readVariable line name).exec c p = .ok (v, p')) :
    v = name ∧ p' = p := by
  obtain ⟨defined, p₁, looked, ran⟩ := exec_bind_ok ran
  cases looked
  split at ran
  · cases ran
    exact ⟨rfl, rfl⟩
  · obtain ⟨f, p₁, looked, ran⟩ := exec_bind_ok ran
    split at ran <;> cases ran

theorem variable_valued (line : Nat) {name : String} (n : Nat) (named : isTempName name = false) :
    Valued S c (.ofValue (.var line name n) (readVariable line name)) := by
  refine ⟨fun {K p p' v} orderly covers ran => ?_⟩
  rw [value_of_result rfl] at ran
  obtain ⟨rfl, rfl⟩ := exec_readVariable ran
  refine ⟨.refl orderly, fun id looked => ?_, fun _ last m x abreast => ?_⟩
  · cases (lookup_of_named orderly.sound.names named).symm.trans looked
  · rintro ⟨env, shows, evaluated⟩
    exact ⟨last, m, .refl abreast, shows v x named evaluated⟩

/-- An immediate stands for the right operand that it was made of. -/
theorem immediate_value {op : ArithmeticOp} {e : Expr} {n : Int} {x y z : Number}
    (known : op.immediate? x.kind e = some n) (right : e.eval env = some z) (value : Number.apply op x z = some y) :
    y = ⟨x.kind, x.word + Word.ofInt n⟩ := by
  have scaled : ∀ value : Int, Word.ofInt value <<< FixedPoint.fractionBits = Word.ofInt (value * FixedPoint.one) :=
    Word.shiftLeft_ofInt
  have negated : ∀ value : Int, x.word - Word.ofInt value = x.word + Word.ofInt (-value) := fun value => by
    rw [Word.ofInt, Word.ofInt, BitVec.ofInt_neg, BitVec.sub_eq_add_neg]
  have literal : ∀ {kind value}, Expr.ofLiteral kind value = some z → z = ⟨kind, Word.ofInt value⟩ := fun is => by
    rw [Expr.ofLiteral, Option.ite_none_right_eq_some, Option.some.injEq] at is
    exact is.2.symm
  obtain ⟨kx, w⟩ := x
  have known := (Option.filter_eq_some_iff.1 known).1
  cases op with
  | add =>
    cases e with
    | int line i =>
      cases literal right
      cases kx with
      | int =>
        cases known
        cases value
        rfl
      | fixed =>
        cases known
        cases value
        rw [← scaled]
        rfl
    | fixed line i =>
      cases literal right
      cases kx with
      | int => cases known
      | fixed =>
        cases known
        cases value
        rfl
    | _ => cases known
  | sub =>
    cases e with
    | int line i =>
      cases literal right
      cases kx with
      | int =>
        cases known
        cases value
        rw [← negated]
      | fixed =>
        cases known
        cases value
        rw [← negated, ← scaled]
        rfl
    | fixed line i =>
      cases literal right
      cases kx with
      | int => cases known
      | fixed =>
        cases known
        cases value
        rw [← negated]
        rfl
    | _ => cases known
  | _ => cases known

theorem arithmetic_valued (op : ArithmeticOp) (line : Nat) (valued : Valued S c left) (valued' : Valued S c right) :
    Valued S c (.ofValue (.binary line (.word (.arithmetic op)) left.expr right.expr) (arithmetic op left right)) := by
  refine ⟨fun {K p p' v} orderly covers ran => ?_⟩
  rw [value_of_result rfl] at ran
  obtain ⟨l, p₁, computed, ran⟩ := exec_bind_ok ran
  obtain ⟨kind, p₂, noted, ran⟩ := exec_bind_ok ran
  have first := valued.produces orderly covers computed
  obtain ⟨rfl, id, u, resolved, found, rfl⟩ := exec_arithmeticKind first.along.orderly.calm.numeric noted
  split at ran
  · next n known =>
    obtain ⟨result, p₃, added, ran⟩ := exec_bind_ok ran
    obtain ⟨⟨⟩, p₄, hinted, ran⟩ := exec_bind_ok ran
    cases ran
    have second : Produces S K p₁ v p₃ fun last y => ∃ x, Denotes p₁.allocator last l x ∧
        ∃ env z, right.expr.eval env = some z ∧ Number.apply op x z = some y := by
      apply (addImmediate_produces (S := S) first.along.orderly first.loose added).weaken
      rintro last y ⟨x, denotes, env, z, evaluated, value⟩
      rw [← denotes.kind_eq resolved found] at known
      exact ⟨x, denotes, immediate_value known evaluated value⟩
    refine hint_extends ((first.next second).weaken ?_) hinted
    rintro last y ⟨env, shows, evaluated⟩
    obtain ⟨x, left', evaluated⟩ := Option.bind_eq_some_iff.1 evaluated
    obtain ⟨z, right', value⟩ := Option.bind_eq_some_iff.1 evaluated
    exact ⟨x, ⟨env, shows, left'⟩, env, z, right', value⟩
  · obtain ⟨r, p₂, computed', ran⟩ := exec_bind_ok ran
    obtain ⟨result, p₃, combined, ran⟩ := exec_bind_ok ran
    obtain ⟨⟨⟩, p₄, hinted, ran⟩ := exec_bind_ok ran
    obtain ⟨⟨⟩, p₅, hinted', ran⟩ := exec_bind_ok ran
    cases ran
    obtain ⟨along, loose, loose', runs⟩ := operands_produce (S := S) valued valued' orderly covers computed computed'
    have second := combine_produces (S := S) along.orderly loose loose' combined
    have whole : Produces S K p v p₃ (Expr.Means
        (.binary line (.word (.arithmetic op)) left.expr right.expr) p.allocator) := by
      refine ⟨along.trans second.along, second.loose, fun hosts last m y abreast => ?_⟩
      rintro ⟨env, shows, evaluated⟩
      obtain ⟨x, left', evaluated⟩ := Option.bind_eq_some_iff.1 evaluated
      obtain ⟨z, right', value⟩ := Option.bind_eq_some_iff.1 evaluated
      obtain ⟨last₁, m₁, comes, denotes, denotes', apart⟩ :=
        runs (hosts.before second.along) abreast shows left' right'
      obtain ⟨last₂, m₂, comes', result⟩ := second.runs hosts comes.abreast ⟨x, z, denotes, denotes', apart, value⟩
      exact ⟨last₂, m₂, comes.trans comes', result⟩
    exact hint_extends (hint_extends whole hinted) hinted'

/-- The amount of a shift is the literal on the right. -/
theorem exec_shiftAmount {whole e : Expr} {amount : Nat} (ran : (shiftAmount whole e).exec c p = .ok (amount, p')) :
    p = p' ∧ amount < 32 ∧ e.amount? = some amount := by
  cases e with
  | int line n =>
    rw [shiftAmount] at ran
    split at ran
    · next inside =>
      cases ran
      exact ⟨rfl, by omega, if_pos inside⟩
    · cases ran
  | _ => cases ran

theorem shift_produces {whole e : Expr} {direction : ShiftDirection} (valued : Valued S c left)
    (orderly : p.Orderly K []) (covers : Covers K p.allocator)
    (ran : (shift whole direction left e).exec c p = .ok (v, p')) :
    Produces S K p v p' fun last y => ∃ x, left.expr.Means p.allocator last x ∧
      ∃ amount, e.amount? = some amount ∧ y = ⟨x.kind, direction.onWord x.word amount⟩ := by
  obtain ⟨amount, p₁, amounts, ran⟩ := exec_bind_ok ran
  obtain ⟨rfl, inside, is⟩ := exec_shiftAmount amounts
  obtain ⟨l, p₁, computed, ran⟩ := exec_bind_ok ran
  have first := valued.produces orderly covers computed
  obtain ⟨shifts, p₂, shifted, hinted⟩ : ∃ shifts p₂, (do
      let kind ← Gen.alloc (Alloc.kind l)
      let refs ← Gen.alloc (Alloc.refs l)
      Gen.shifted direction l amount kind refs : Gen String).exec c p₁ = .ok (shifts, p₂) ∧
        (do hint left.expr; return shifts : Gen String).exec c p₂ = .ok (v, p') := by
    apply exec_bind_ok
    simpa only [bind_assoc] using ran
  obtain ⟨⟨⟩, p₃, hinted, ran⟩ := exec_bind_ok hinted
  cases ran
  have second := shiftName_produces (S := S) first.along.orderly first.loose inside shifted
  refine hint_extends ((first.next second).weaken ?_) hinted
  rintro last y ⟨x, means, amount', is', rfl⟩
  cases is.symm.trans is'
  exact ⟨x, means, rfl⟩

theorem shift_valued (direction : ShiftDirection) (line : Nat) (valued : Valued S c left) (e : Expr) :
    let whole := Expr.binary line (.word (.shift direction)) left.expr e
    Valued S c (.ofValue whole (shift whole direction left e)) := by
  intro whole
  refine ⟨fun {K p p' v} orderly covers ran => ?_⟩
  rw [value_of_result rfl] at ran
  apply (shift_produces valued orderly covers ran).weaken
  rintro last y ⟨env, shows, evaluated⟩
  obtain ⟨amount, is, evaluated⟩ := Option.bind_eq_some_iff.1 evaluated
  obtain ⟨x, left', value⟩ := Option.bind_eq_some_iff.1 evaluated
  cases value
  exact ⟨x, ⟨env, shows, left'⟩, amount, is, rfl⟩

theorem negate_valued (line : Nat) (valued : Valued S c code) :
    Valued S c (.ofValue (.unary line .neg code.expr) (negate code)) := by
  refine ⟨fun {K p p' v} orderly covers ran => ?_⟩
  rw [value_of_result rfl] at ran
  obtain ⟨u, p₁, computed, ran⟩ := exec_bind_ok ran
  have first := valued.produces orderly covers computed
  have second := negateName_produces (S := S) first.along.orderly first.loose ran
  apply (first.next second).weaken
  rintro last y ⟨env, shows, evaluated⟩
  obtain ⟨x, operand, value⟩ := Option.bind_eq_some_iff.1 evaluated
  cases value
  exact ⟨x, ⟨env, shows, operand⟩, rfl⟩

end Gen

end SmallC
