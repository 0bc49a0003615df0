import SmallC.Proofs.Allocation.Status
import SmallC.Proofs.Generation.Elements

/-!
Products and quotients of fixed-point numbers. Each factor of a product of two is shifted to the right by half of the
fraction, so that the product of what is left is at the scale of its kind again; with an integer there is nothing to
scale. The code reads its operands, shifts them if it has to, and multiplies or divides once, and nothing else in it can
raise a fault.
-/
namespace SmallC

open Alloc Allocator Machine

/-! ### Numbers at a scale -/

/-- A product of two numbers that were both cut to whole multiples of 256 falls short of the exact one by the parts that
were cut off. -/
theorem abs_cut_product_sub_lt (x y : Int) :
    |(x >>> (8 : Nat)) * (y >>> (8 : Nat)) * 65536 - x * y| < (|x >>> (8 : Nat)| + |y >>> (8 : Nat)| + 1) * 65536 := by
  rw [Int.shiftRight_eq_div_pow, Int.shiftRight_eq_div_pow]
  set a := x / (2 ^ 8 : Nat)
  set b := y / (2 ^ 8 : Nat)
  obtain ⟨α, whole, αlow, αhigh⟩ : ∃ α, x = 256 * a + α ∧ 0 ≤ α ∧ α < 256 := ⟨x % 256, by omega, by omega, by omega⟩
  obtain ⟨β, whole', βlow, βhigh⟩ : ∃ β, y = 256 * b + β ∧ 0 ≤ β ∧ β < 256 := ⟨y % 256, by omega, by omega, by omega⟩
  have lost : a * b * 65536 - x * y = -(256 * (a * β) + 256 * (b * α) + α * β) := by
    rw [whole, whole']
    ring
  have first : |a * β| ≤ |a| * 256 := by
    rw [abs_mul, abs_of_nonneg βlow]
    gcongr
  have second : |b * α| ≤ |b| * 256 := by
    rw [abs_mul, abs_of_nonneg αlow]
    gcongr
  have third : |α * β| < 65536 := by
    rw [abs_mul, abs_of_nonneg αlow, abs_of_nonneg βlow]
    nlinarith
  rw [lost, abs_neg]
  calc |256 * (a * β) + 256 * (b * α) + α * β|
      ≤ |256 * (a * β)| + |256 * (b * α)| + |α * β| := abs_add_three _ _ _
    _ = 256 * |a * β| + 256 * |b * α| + |α * β| := by rw [abs_mul 256, abs_mul 256]; rfl
    _ < (|a| + |b| + 1) * 65536 := by linarith

/-- The product is near the exact one in units of the fraction. -/
theorem abs_product_sub_lt (x y : Int) :
    |(((x >>> (8 : Nat)) * (y >>> (8 : Nat)) : Int) : ℚ) - x * y / 2 ^ 16| <
      ((|x >>> (8 : Nat)| + |y >>> (8 : Nat)| + 1 : Int) : ℚ) := by
  have near := (Int.cast_lt (R := ℚ)).2 (abs_cut_product_sub_lt x y)
  have scale : (0 : ℚ) < 65536 := by norm_num
  have scaled : (((x >>> (8 : Nat)) * (y >>> (8 : Nat)) : Int) : ℚ) - x * y / 2 ^ 16 =
      ((x >>> (8 : Nat)) * (y >>> (8 : Nat)) * 65536 - x * y : Int) / 65536 := by
    push_cast
    ring
  rw [scaled, abs_div, abs_of_pos scale, div_lt_iff₀ scale]
  exact_mod_cast near

/-- What the result of an operation on a fixed-point number has to be, if nothing overflows: a product of two is near to
the exact one, and a product or a quotient with an integer is exact, up to what is cut off towards zero. -/
inductive Accuracy : ArithmeticOp → NumberKind → NumberKind → Int → Int → (Int → Prop) → Prop where
  | product {x y : Int} (fits : FitsSigned 32 ((x >>> (8 : Nat)) * (y >>> (8 : Nat)))) :
      Accuracy .mul .fixed .fixed x y fun z =>
        |(z : ℚ) - x * y / 2 ^ 16| < ((|x >>> (8 : Nat)| + |y >>> (8 : Nat)| + 1 : Int) : ℚ)
  | multiple {x n : Int} (fits : FitsSigned 32 (x * n)) : Accuracy .mul .fixed .int x n fun z => z = x * n
  | multiple' {n x : Int} (fits : FitsSigned 32 (n * x)) : Accuracy .mul .int .fixed n x fun z => z = n * x
  | quotient {x n : Int} (other : n ≠ 0) (fits : FitsSigned 32 (x.tdiv n)) :
      Accuracy .div .fixed .int x n fun z => z = x.tdiv n

namespace Gen

variable {c : Context} {p p' p₁ p₂ : Progress} {base : Int} {size : Nat} {K : VarId → Prop}
  {last last' : VarId → Option Word} {m m' : Machine} {name temp l r z : String} {i j : VarId} {u v : Variable}
  {x y w : Word} {kind : NumberKind} {refs : Nat} {rd : Reg}

/-! ### The status -/

/-- What is appended leaves the status as it is. -/
def SparesStatus (p p' : Progress) : Prop := ∃ code, AppendsPlain p code p' ∧ ∀ i ∈ code, i.SparesStatus

theorem SparesStatus.trans {mid : Progress} (first : SparesStatus p mid) (second : SparesStatus mid p') :
    SparesStatus p p' := by
  obtain ⟨code, appends, spares⟩ := first
  obtain ⟨more, appends', spares'⟩ := second
  exact ⟨code ++ more, appends.trans appends', List.forall_mem_append.2 ⟨spares, spares'⟩⟩

theorem SparesStatus.of_work {a : Allocator} {code : Array MachineInstr} (spares : ∀ i ∈ code, i.SparesStatus) :
    SparesStatus p { p with allocator := a, draft := p.draft.pushAll code } :=
  ⟨code.toList, appends_pushAll p a code, fun i member => spares i (Array.mem_toList_iff.1 member)⟩

theorem sparesStatus_empty (a : Allocator) : Work.SparesStatus ⟨a, #[]⟩ := fun i member =>
  (Array.not_mem_empty i member).elim

theorem fetch_sparesStatus {a : Reg} (rest : AtRest base size last p.allocator m)
    (records : p.allocator.Records last name i u x) (scalar : u.array = none)
    (ran : (fetch name).exec c p = .ok (a, p')) : SparesStatus p p' := by
  obtain ⟨w, reads, rfl⟩ := exec_fetch ran
  exact .of_work (getRegister_sparesStatus (w := ⟨p.allocator, #[]⟩) rest.sound rest.tidy records.named.find?
    records.found scalar (sparesStatus_empty _) reads)

theorem free_sparesStatus {x : Unit} (ran : (free name).exec c p = .ok (x, p')) : SparesStatus p p' := by
  obtain ⟨w, frees, rfl⟩ := exec_free ran
  exact .of_work (removeIfTemp_sparesStatus (sparesStatus_empty _) frees)

theorem newTemp_sparesStatus (sound : Sound [] p.allocator)
    (ran : (newTemp kind refs).exec c p = .ok ((temp, rd), p')) : SparesStatus p p' := by
  obtain ⟨mid, took, -, -, rfl⟩ := exec_newTemp sound ran
  exact .of_work (take_sparesStatus (sparesStatus_empty _) took)

theorem releaseHolds_sparesStatus (ran : releaseHolds.exec c p = .ok ((), p')) : SparesStatus p p' :=
  ⟨[], releaseHolds_appends ran, nofun⟩

/-- Code that computes a result leaves the status as it is if its own instructions do. -/
theorem compute_sparesStatus {f : Reg → List MachineInstr} (sound : Sound [] p.allocator)
    (spares : ∀ {rd}, rd.isPool = true → ∀ i ∈ f rd, i.SparesStatus)
    (ran : (do
      let (temp, rd) ← newTemp kind refs
      emitAll (f rd)
      releaseHolds
      return temp : Gen String).exec c p = .ok (temp, p')) : SparesStatus p p' := by
  obtain ⟨⟨temp', rd⟩, p₁, made, ran⟩ := exec_bind_ok ran
  obtain ⟨⟨⟩, p₂, emitted, ran⟩ := exec_bind_ok ran
  obtain ⟨⟨⟩, p₃, released, ran⟩ := exec_bind_ok ran
  cases ran
  obtain ⟨mid, took, -, -, -⟩ := exec_newTemp sound made
  cases exec_emitAll emitted
  have own : SparesStatus p₁ { p₁ with draft := p₁.draft.pushAll (f rd).toArray } :=
    .of_work (a := p₁.allocator) fun i member => spares (takes sound took).inPool i (List.mem_toArray.1 member)
  exact (newTemp_sparesStatus sound made).trans (own.trans (releaseHolds_sparesStatus released))

/-- A passage leaves the status as it is if all of its code does. -/
theorem Passage.status (passes : Passage base size K p last m p' last' m') (spares : SparesStatus p p') :
    m'.reg Reg.status = m.reg Reg.status := by
  obtain ⟨code, appends, done⟩ := passes.straight
  obtain ⟨code', appends', spares⟩ := spares
  have same : code.map Entry.plain = code'.map Entry.plain := List.append_cancel_left (appends.symm.trans appends')
  cases List.map_injective_iff.2 (fun _ _ alike => congrArg Entry.instr alike) same
  exact performs_sparesStatus spares done

/-- Reading two scalars into registers and taking one for a result leaves the status as it is. -/
theorem prepare_sparesStatus {a b : Reg} (rest : AtRest base size last p.allocator m)
    (room : Room base size p'.allocator) (left : p.allocator.Records last l i u x)
    (right : p.allocator.Records last r j v y) (scalar : u.array = none) (scalar' : v.array = none)
    (ran : (prepare l r kind refs).exec c p = .ok ((a, b, temp, rd), p')) : SparesStatus p p' := by
  obtain ⟨a, p₁, fetched, ran⟩ := exec_bind_ok ran
  obtain ⟨b, p₂, fetched', ran⟩ := exec_bind_ok ran
  obtain ⟨⟨⟩, p₃, freed, ran⟩ := exec_bind_ok ran
  obtain ⟨⟨⟩, p₄, freed', ran⟩ := exec_bind_ok ran
  obtain ⟨⟨temp, rd⟩, p₅, made, ran⟩ := exec_bind_ok ran
  cases ran
  have room₄ := room.of_grows (enlarges_newTemp kind refs _ _ _ made)
  have room₃ := room₄.of_grows (enlarges_free _ _ _ _ freed')
  have room₂ := room₃.of_grows (enlarges_free _ _ _ _ freed)
  have room₁ := room₂.of_grows (enlarges_fetch _ _ _ _ fetched')
  obtain ⟨m₁, passes₁, -⟩ := fetch_passes (K := fun _ => True) rest room₁ left.means fetched
  obtain ⟨v', right', same⟩ := passes₁.records trivial right
  obtain ⟨m₂, passes₂, -⟩ := fetch_passes (K := fun _ => False) passes₁.rest room₂ right'.means fetched'
  obtain ⟨m₃, passes₃, -⟩ := free_passes passes₂.rest room₃ (fun _ _ => id) freed
  obtain ⟨m₄, passes₄, -⟩ := free_passes passes₃.rest room₄ (fun _ _ => id) freed'
  have read := (fetch_sparesStatus rest left scalar fetched).trans
    (fetch_sparesStatus passes₁.rest right' (same.array.trans scalar') fetched')
  have gave := (free_sparesStatus freed).trans (free_sparesStatus freed')
  exact read.trans (gave.trans (newTemp_sparesStatus passes₄.rest.sound made))

/-! ### Factors -/

/-- A scalar is shifted into a new temporary. -/
theorem shifted_passes {direction : ShiftDirection} {amount : Nat} (rest : AtRest base size last p.allocator m)
    (room : Room base size p'.allocator) (inside : ∀ {id}, K id → id < p.allocator.vars.size) (less : amount < 32)
    (records : p.allocator.Records last name i u x) (scalar : u.array = none) (loose : Loose K name p.allocator)
    (ran : (shifted direction name amount kind 0).exec c p = .ok (temp, p')) :
    ∃ rd id v m', Passage base size K p last m p' (Function.update last id (some (direction.onWord x amount))) m' ∧
      Introduced p.allocator p'.allocator kind 0 temp rd id v ∧ SparesStatus p p' := by
  obtain ⟨a, p₁, fetched, ran⟩ := exec_bind_ok ran
  obtain ⟨⟨⟩, p₂, freed, ran⟩ := exec_bind_ok ran
  simp only [emit_eq] at ran
  have room₂ := room.of_grows (enlarges_compute kind 0 (fun rd => [direction.instr rd a amount]) _ _ _ ran)
  have room₁ := room₂.of_grows (enlarges_free _ _ _ _ freed)
  obtain ⟨m₁, passes₁, keeping, reads⟩ := fetch_passes rest room₁ records.means fetched
  obtain ⟨m₂, passes₂, keeping'⟩ := free_passes passes₁.rest room₂ (passes₁.loose loose) freed
  have first := passes₁.trans passes₂
  have here := reads.keeping keeping'
  obtain ⟨rd, id, v, m', passes, introduced⟩ := compute_passes (K := K) (f := fun rd => [direction.instr rd a amount])
    (w := direction.onWord x amount) first.rest room
    (fun counts => Nat.lt_of_lt_of_le (inside counts) first.recalls.size)
    (fun {m rd} inPool _ _ holds => by
      have leaves := leaves_shift (m := m) (a := a) inPool less direction
      rwa [holds here] at leaves) ran
  have shifts := compute_sparesStatus (f := fun rd => [direction.instr rd a amount]) first.rest.sound
    (fun inPool i member => by
      rw [List.mem_singleton.1 member]
      cases direction <;> exact sparesStatus_shift (Reg.ne_of_isPool inPool).2.2 _ a amount) ran
  exact ⟨rd, id, v, m', first.trans passes,
    { introduced with fresh := Nat.le_trans first.recalls.size introduced.fresh },
    (fetch_sparesStatus rest records scalar fetched).trans ((free_sparesStatus freed).trans shifts)⟩

/-- A name stands for a scalar that has a value. -/
def Scalar (last : VarId → Option Word) (a : Allocator) (name : String) (x : Word) : Prop :=
  ∃ id v, a.Records last name id v x ∧ v.array = none

/-- Two scalars are shifted, one after the other. -/
theorem shifted_two {d d' : ShiftDirection} {n n' : Nat} {k k' : NumberKind} {l' r' : String}
    (rest : AtRest base size last p.allocator m) (room : Room base size p₂.allocator)
    (left : Scalar last p.allocator l x) (right : Scalar last p.allocator r y) (apart : Apart l r p.allocator)
    (less : n < 32) (less' : n' < 32) (first : (shifted d l n k 0).exec c p = .ok (l', p₁))
    (second : (shifted d' r n' k' 0).exec c p₁ = .ok (r', p₂)) :
    ∃ last' m', Passage base size (fun _ => False) p last m p₂ last' m' ∧ SparesStatus p p₂ ∧
      Scalar last' p₂.allocator l' (d.onWord x n) ∧ Scalar last' p₂.allocator r' (d'.onWord y n') := by
  obtain ⟨i, u, left, scalar⟩ := left
  obtain ⟨j, v, right, scalar'⟩ := right
  -- the second operand is relied on while the first one is worked on, and then what is left of the first one
  obtain ⟨rd, k, t, m₁, passes, introduced, spares⟩ := shifted_passes (K := fun id => id = j) rest
    (room.of_grows (enlarges_shifted _ r _ _ _ _ _ _ second)) (fun {id} same => same ▸ var?_lt right.found) less left
    scalar (fun id looked same => apart id looked (same ▸ right.named.find?)) first
  obtain ⟨v', right', alike⟩ := passes.records rfl right
  have loose : Loose (fun id => id = k) r p₁.allocator := by
    rintro id looked rfl
    have found : p₁.allocator.find? r = some id := GoesBy.find? (.inl looked)
    cases found.symm.trans right'.named.find?
    exact Nat.not_lt.2 introduced.fresh (var?_lt right.found)
  obtain ⟨rd', k', t', m₂, passes', introduced', spares'⟩ := shifted_passes (K := fun id => id = k) passes.rest room
    (fun {id} same => same ▸ var?_lt introduced.found) less' right' (alike.array.trans scalar') loose second
  obtain ⟨t'', kept, alike'⟩ := passes'.records rfl (introduced.records (Function.update_self ..))
  exact ⟨_, m₂, (passes.mono False.elim).trans (passes'.mono False.elim), spares.trans spares',
    ⟨k, t'', kept, alike'.array.trans introduced.array⟩,
    ⟨k', t', introduced'.records (Function.update_self ..), introduced'.array⟩⟩

/-! ### Results -/

/-- Code that leaves a number in the register of a temporary of its own, and the status as it is. -/
def ResultsIn (p : Progress) (m : Machine) (p' : Progress) (name : String) (kind : NumberKind) (w : Word) : Prop :=
  ∃ code m' id v rd, AppendsPlain p code p' ∧ m.performs code = .ok m' ∧ m'.reg Reg.status = m.reg Reg.status ∧
    p'.allocator.temps.lookup name = some id ∧ p'.allocator.var? id = some v ∧ v.kind = kind ∧ v.refs = 0 ∧
    v.storage = .register rd ∧ m'.reg rd = w

theorem ResultsIn.after {mid : Progress} (passes : Passage base size K p last m mid last' m')
    (spares : SparesStatus p mid) (results : ResultsIn mid m' p' name kind w) : ResultsIn p m p' name kind w := by
  obtain ⟨code, appends, done⟩ := passes.straight
  obtain ⟨more, m'', id, v, rd, appends', done', still, result⟩ := results
  exact ⟨code ++ more, m'', id, v, rd, appends.trans appends', (performs_append done).trans done',
    still.trans (passes.status spares), result⟩

/-- One instruction that computes a number from two scalars without a fault. -/
theorem operation_results {f : Reg → Reg → Reg → MachineInstr} (rest : AtRest base size last p.allocator m)
    (room : Room base size p'.allocator) (left : Scalar last p.allocator l x) (right : Scalar last p.allocator r y)
    (writes : ∀ {rd a b}, (f rd a b).written? = some rd)
    (faultless : ∀ {m : Machine} {rd a b}, m.reg a = x → m.reg b = y → m.effect (f rd a b) = .ok (m.setReg rd w))
    (ran : (do
      let a ← fetch l
      let b ← fetch r
      free l
      free r
      let (temp, rd) ← newTemp kind 0
      emitAll [f rd a b]
      releaseHolds
      return temp : Gen String).exec c p = .ok (z, p')) : ResultsIn p m p' z kind w := by
  obtain ⟨i, u, left, scalar⟩ := left
  obtain ⟨j, v, right, scalar'⟩ := right
  obtain ⟨a, b, rd, id, t, p₁, m₁, m', prepared, room₁, passes, inPool, holds, holds', done, passes', introduced⟩ :=
    binary_stages (K := fun _ => False) (f := fun rd a b => [f rd a b]) rest room False.elim left right
      (fun _ _ => id) (fun _ _ => id)
      (fun inPool _ _ holds holds' => .one writes (faultless holds holds') (reg_setReg_pool inPool)) ran
  obtain ⟨code, appends, done'⟩ := passes'.straight
  rw [performs_one, faultless holds holds'] at done
  cases done
  refine ⟨code, _, id, t, rd, appends, done', ?_, introduced.looked, introduced.found, introduced.kind, introduced.refs,
    introduced.there, reg_setReg_pool inPool⟩
  rw [reg_setReg_of_ne _ _ (Reg.ne_of_isPool inPool).2.2.symm]
  exact passes.status (prepare_sparesStatus rest room₁ left right scalar scalar' prepared)

theorem effect_mul {a b : Reg} (fits : FitsSigned 32 (x.toInt * y.toInt)) (holds : m.reg a = x) (holds' : m.reg b = y) :
    m.effect (.alu .mul rd a b) = .ok (m.setReg rd (Word.ofInt (x.toInt * y.toInt))) := by
  simp only [effect, alu, setChecked, holds, holds']
  rw [if_pos fits]

theorem effect_div {a b : Reg} (other : y ≠ 0) (holds : m.reg a = x) (holds' : m.reg b = y) :
    m.effect (.alu .div rd a b) = .ok (m.setReg rd (x.sdiv y)) := by
  simp only [effect, alu, holds, holds']
  rw [if_neg other]

theorem toInt_sdiv (fits : FitsSigned 32 (x.toInt.tdiv y.toInt)) : (x.sdiv y).toInt = x.toInt.tdiv y.toInt := by
  rw [BitVec.toInt_sdiv, ← BitVec.toInt_ofInt]
  exact toInt_ofInt fits

/-- A name stands for a scalar number of a kind that has a value. -/
def Operand (last : VarId → Option Word) (a : Allocator) (name : String) (kind : NumberKind) (x : Word) : Prop :=
  ∃ id v, a.Records last name id v x ∧ v.kind = kind ∧ v.refs = 0 ∧ v.array = none

theorem Operand.numeral {a : Allocator} (operand : Operand last a name kind x) : a.Numeral last name kind x := by
  obtain ⟨id, v, records, own, plain, -⟩ := operand
  exact ⟨id, v, records, own, plain⟩

theorem Operand.scalar {a : Allocator} (operand : Operand last a name kind x) : Scalar last a name x := by
  obtain ⟨id, v, records, -, -, scalar⟩ := operand
  exact ⟨id, v, records, scalar⟩

/-- The code for an operation on a fixed-point number. -/
theorem combine_accurate {op : ArithmeticOp} {kl kr : NumberKind} {near : Int → Prop}
    (accuracy : Accuracy op kl kr x.toInt y.toInt near) (rest : AtRest base size last p.allocator m)
    (room : Room base size p'.allocator) (left : Operand last p.allocator l kl x)
    (right : Operand last p.allocator r kr y) (apart : Apart l r p.allocator)
    (ran : (combine op l r).exec c p = .ok (z, p')) :
    ∃ w, ResultsIn p m p' z .fixed w ∧ near w.toInt := by
  have ran := left.numeral.combine right.numeral ran
  obtain ⟨⟨l', r', scale⟩, p₁, scaled, ran⟩ := exec_bind_ok ran
  obtain ⟨read, mid, first, scaled⟩ := exec_bind_ok scaled
  obtain ⟨rfl, rfl⟩ := left.numeral.arithmeticKind first
  obtain ⟨read, mid, second, scaled⟩ := exec_bind_ok scaled
  obtain ⟨rfl, rfl⟩ := right.numeral.arithmeticKind second
  cases accuracy with
  | product fits =>
    obtain ⟨l', p₂, first, scaled⟩ := exec_bind_ok scaled
    obtain ⟨r', p₃, second, scaled⟩ := exec_bind_ok scaled
    cases scaled
    simp only [true_or, if_true] at ran
    have room' := room.of_grows (enlarges_binary l' r' .fixed 0 (fun rd a b => [.alu .mul rd a b]) _ _ _ ran)
    obtain ⟨last', m', passes, spares, left', right'⟩ := shifted_two rest room' left.scalar right.scalar apart
      (by decide) (by decide) first second
    change Scalar last' _ l' (x.sshiftRight 8) at left'
    change Scalar last' _ r' (y.sshiftRight 8) at right'
    rw [← BitVec.toInt_sshiftRight, ← BitVec.toInt_sshiftRight] at fits
    refine ⟨_, .after passes spares (operation_results passes.rest room left' right' rfl (effect_mul fits) ran), ?_⟩
    rw [toInt_ofInt fits, BitVec.toInt_sshiftRight, BitVec.toInt_sshiftRight]
    exact abs_product_sub_lt _ _
  | multiple fits =>
    cases scaled
    simp only [true_or, if_true] at ran
    exact ⟨_, operation_results rest room left.scalar right.scalar rfl (effect_mul fits) ran, toInt_ofInt fits⟩
  | multiple' fits =>
    cases scaled
    simp only [or_true, if_true] at ran
    exact ⟨_, operation_results rest room left.scalar right.scalar rfl (effect_mul fits) ran, toInt_ofInt fits⟩
  | quotient other fits =>
    cases scaled
    simp only [true_or, if_true] at ran
    have other' : y ≠ 0 := by
      rintro rfl
      exact other rfl
    exact ⟨_, operation_results rest room left.scalar right.scalar rfl (effect_div other') ran, toInt_sdiv fits⟩

/-- Operations on a fixed-point number are as accurate as its kind allows, unless they overflow: the code for them
executes, it leaves the status as it is and a fixed-point number that is near to the product of two such numbers, or
that is exactly the product or the quotient with an integer. -/
theorem fixed_point_accurate {op : ArithmeticOp} {kl kr : NumberKind} {near : Int → Prop}
    (accuracy : Accuracy op kl kr x.toInt y.toInt near) (reached : Reached p.allocator) (idle : p.allocator.calls = [])
    (bearing : Bearing ((m.reg Reg.stackPointer).toInt + p.allocator.pushed) m.memory.size last p.allocator m)
    (left : Operand last p.allocator l kl x) (right : Operand last p.allocator r kr y) (apart : Apart l r p.allocator)
    (ran : (combine op l r).exec c p = .ok (z, p'))
    (room : Room ((m.reg Reg.stackPointer).toInt + p.allocator.pushed) m.memory.size p'.allocator) :
    ∃ w, ResultsIn p m p' z .fixed w ∧ near w.toInt :=
  combine_accurate accuracy ⟨reached.inOrder.sound, idle, reached.tidy, bearing⟩ room left right apart ran

/-- The body of a function of two fixed-point parameters. -/
def factorsProgress : Progress :=
  { Progress.initial with allocator := (after (.setKind "y" .fixed) (after (.setKind "x" .fixed)
      (after (.addVariable "y" Reg.arguments[1]?) (after (.addVariable "x" Reg.arguments[0]?)
        (after .enterFunction ⟨initial, #[]⟩))))).allocator }

/-- The machine there: the parameters are a little below minus one and a half, and a little above two and a quarter. -/
def factorsMachine : Machine := ((fresh 20).setReg Reg.stackPointer 10).withWords Reg.arguments [-98305, 147457]

/-- The values of the parameters. -/
def factorsLast (id : VarId) : Option Word := #[(-98305 : Word), 147457][id]?

/-- Whether two words of the frame and none for globals were handed out. -/
def factorsUsed (p : Progress) : Bool := p.allocator.globals == 0 && p.allocator.frame == some 2

theorem factorsProgress_reached : Reached factorsProgress.allocator := by
  have entered := reached_after (w := ⟨initial, #[]⟩) .enterFunction .initial ⟨rfl, rfl, rfl, rfl⟩ rfl
  have first := reached_after (.addVariable "x" (some ⟨4⟩)) entered ⟨rfl, fun r given => by cases given; decide⟩ rfl
  have second := reached_after (.addVariable "y" (some ⟨5⟩)) first ⟨rfl, fun r given => by cases given; decide⟩ rfl
  have third := reached_after (.setKind "x" .fixed) second rfl rfl
  exact reached_after (.setKind "y" .fixed) third rfl rfl

theorem factorsMachine_bearing :
    Bearing ((factorsMachine.reg Reg.stackPointer).toInt + factorsProgress.allocator.pushed)
      factorsMachine.memory.size factorsLast factorsProgress.allocator factorsMachine :=
  { zero := rfl, stack := rfl, memory := rfl
    fresh := fun beyond => Array.getElem?_eq_none beyond
    bears := fun {id v x} found known => by
      match id with
      | 0 =>
        cases found
        cases known
        exact Variable.bears_of_dirty (m := factorsMachine) (r := ⟨4⟩) rfl rfl rfl
      | 1 =>
        cases found
        cases known
        exact Variable.bears_of_dirty (m := factorsMachine) (r := ⟨5⟩) rfl rfl rfl
      | n + 2 => cases found }

theorem factors_left : Operand factorsLast factorsProgress.allocator "x" .fixed (-98305) :=
  ⟨0, _, ⟨.inr ⟨by decide, rfl⟩, rfl, rfl⟩, rfl, rfl, rfl⟩

theorem factors_right : Operand factorsLast factorsProgress.allocator "y" .fixed 147457 :=
  ⟨1, _, ⟨.inr ⟨by decide, rfl⟩, rfl, rfl⟩, rfl, rfl, rfl⟩

/-- Where two words of the frame and none for globals were handed out there is room in the machine. -/
theorem factors_room {p : Progress} (used : factorsUsed p = true) : Room 10 20 p.allocator := by
  simp only [factorsUsed, Bool.and_eq_true, beq_iff_eq] at used
  obtain ⟨globals, frame⟩ := used
  refine ⟨by omega, fun {slots slot} some below => ?_⟩
  cases frame.symm.trans some
  rw [globals]
  omega

theorem fixed_point_accurate_factors : ∃ z p' w,
    (combine .mul "x" "y").exec ⟨[], [], #[], false⟩ factorsProgress = .ok (z, p') ∧
    ResultsIn factorsProgress factorsMachine p' z .fixed w ∧ |(w.toInt : ℚ) - -98305 * 147457 / 2 ^ 16| < 962 := by
  have apart : Apart "x" "y" factorsProgress.allocator := fun id looked => by cases looked
  obtain ⟨z, p', ran, used⟩ := exec_of_any (combine .mul "x" "y") ⟨[], [], #[], false⟩ factorsProgress factorsUsed
    (by decide +kernel)
  have fits : FitsSigned 32 (((-98305 : Word).toInt >>> (8 : Nat)) * ((147457 : Word).toInt >>> (8 : Nat))) := by
    decide
  obtain ⟨w, results, near⟩ := fixed_point_accurate (.product fits) factorsProgress_reached rfl factorsMachine_bearing
    factors_left factors_right apart ran (factors_room used)
  refine ⟨z, p', w, ran, results, ?_⟩
  have bound : |(-98305 : Word).toInt >>> (8 : Nat)| + |(147457 : Word).toInt >>> (8 : Nat)| + 1 = 962 := by decide
  rw [bound] at near
  exact_mod_cast near

end Gen

end SmallC
