import SmallC.Proofs.Generation.Scaling

/-!
Quotients by a fixed-point number. The dividend is brought to the scale of its fraction and the divisor to half of it, and
what the division gives is shifted back by the other half. Nothing is left of a divisor from 0 to 255, so the quotient by
one of these is a fault. Any other quotient is one of the operands alone, whatever was in the register that takes it, and
the status stays as it is.
-/
namespace SmallC

open Alloc Allocator Machine

/-! ### Divisors -/

/-- Nothing is left of these divisors at half of the fraction. -/
def Word.Vanishes (y : Word) : Prop := 0 ≤ y.toInt ∧ y.toInt < 256
  deriving Decidable

theorem Word.vanishes_iff {y : Word} : y.Vanishes ↔ y.sshiftRight 8 = 0 := by
  have halved : (y.sshiftRight 8).toInt = y.toInt / 256 := by
    rw [BitVec.toInt_sshiftRight, Int.shiftRight_eq_div_pow]
    rfl
  have zero : y.sshiftRight 8 = 0 ↔ y.toInt / 256 = 0 := by
    rw [← halved, ← BitVec.toInt_inj]
    rfl
  rw [zero, Word.Vanishes]
  omega

namespace Gen

variable {c : Context} {p p' : Progress} {base : Int} {size : Nat} {last : VarId → Option Word} {m m' : Machine}
  {z temp l r : String} {x y : Word} {kind : NumberKind} {refs : Nat} {rd a b : Reg}

/-! ### Operands -/

/-- A value at the scale of its fraction stays where it is, and what it is divided by is scaled down. -/
theorem rescale_right {r' : String} (rest : AtRest base size last p.allocator m) (room : Room base size p'.allocator)
    (left : Scalar last p.allocator l x) (right : Scalar last p.allocator r y) (apart : Apart r l p.allocator)
    (ran : (rescale r).exec c p = .ok (r', p')) :
    ∃ last' m', Passage base size (fun _ => False) p last m p' last' m' ∧ SparesStatus p p' ∧
      Scalar last' p'.allocator l x ∧ Scalar last' p'.allocator r' (y.sshiftRight 8) := by
  obtain ⟨i, u, left, scalar⟩ := left
  obtain ⟨j, v, right, scalar'⟩ := right
  have loose : Loose (fun id => id = i) r p.allocator := fun id looked same =>
    apart id looked (same ▸ left.named.find?)
  obtain ⟨rd, k, t, m', passes, introduced, spares⟩ := shifted_passes (K := fun id => id = i) rest room
    (fun {id} same => same ▸ var?_lt left.found) (by decide) right scalar' loose ran
  obtain ⟨u', left', alike⟩ := passes.records rfl left
  exact ⟨_, m', passes.mono False.elim, spares, ⟨i, u', left', alike.array.trans scalar⟩,
    ⟨k, t, introduced.records (Function.update_self ..), introduced.array⟩⟩

/-- The operands of a quotient by a fixed-point number are brought to their scales one after the other. -/
theorem exec_reconcile_quotient {k : NumberKind} {l' r' : String} {scale : Option Nat}
    (left : Operand last p.allocator l k x) (right : Operand last p.allocator r .fixed y)
    (ran : (reconcile .div l r).exec c p = .ok ((l', r', scale), p')) :
    scale = some halfScale ∧ ∃ p₁, (convert l .fixed).exec c p = .ok (l', p₁) ∧ (rescale r).exec c p₁ = .ok (r', p') := by
  generalize same : ArithmeticOp.div = op at ran
  obtain ⟨kl, mid, first, ran⟩ := exec_bind_ok ran
  obtain ⟨rfl, rfl⟩ := left.numeral.arithmeticKind first
  obtain ⟨kr, mid, second, ran⟩ := exec_bind_ok ran
  obtain ⟨rfl, rfl⟩ := right.numeral.arithmeticKind second
  cases same
  cases kl <;>
  · obtain ⟨l', p₁, converted, ran⟩ := exec_bind_ok ran
    obtain ⟨r', p₂, rescaled, ran⟩ := exec_bind_ok ran
    cases ran
    exact ⟨rfl, p₁, converted, rescaled⟩

/-- An integer is shifted up and a fixed-point number is where it belongs already, and the divisor is scaled down. -/
theorem scale_quotient {k : NumberKind} {l' r' : String} {p₁ : Progress} (rest : AtRest base size last p.allocator m)
    (room : Room base size p'.allocator) (left : Operand last p.allocator l k x)
    (right : Operand last p.allocator r .fixed y) (apart : Apart l r p.allocator) (apart' : Apart r l p.allocator)
    (converted : (convert l .fixed).exec c p = .ok (l', p₁)) (rescaled : (rescale r).exec c p₁ = .ok (r', p')) :
    ∃ last' m', Passage base size (fun _ => False) p last m p' last' m' ∧ SparesStatus p p' ∧
      Scalar last' p'.allocator l' (Number.convert ⟨k, x⟩ .fixed).word ∧
      Scalar last' p'.allocator r' (y.sshiftRight 8) := by
  obtain ⟨stars, mid, first, converted⟩ := exec_bind_ok converted
  obtain ⟨rfl, rfl⟩ := left.numeral.refs first
  obtain ⟨kind, mid, second, converted⟩ := exec_bind_ok converted
  obtain ⟨rfl, rfl⟩ := left.numeral.kind second
  cases kind with
  | fixed =>
    cases converted
    exact rescale_right rest room left.scalar right.scalar apart' rescaled
  | int =>
    have shifts : (shifted .left l FixedPoint.fractionBits .fixed 0).exec c p = .ok (l', p₁) := converted
    have scaled := shifted_two rest room left.scalar right.scalar apart (by decide) (by decide) shifts rescaled
    exact scaled

theorem enlarges_prepare (l r : String) (kind : NumberKind) (refs : Nat) : Enlarges c (prepare l r kind refs) :=
  .bind (enlarges_fetch l) fun _ => .bind (enlarges_fetch r) fun _ => .bind (enlarges_free l) fun _ =>
    .bind (enlarges_free r) fun _ => .bind (enlarges_newTemp kind refs) fun _ => .pure _

/-- Two scalars are read into registers, and one is taken for the result. -/
theorem prepare_passes (rest : AtRest base size last p.allocator m) (room : Room base size p'.allocator)
    (left : Scalar last p.allocator l x) (right : Scalar last p.allocator r y)
    (ran : (prepare l r kind refs).exec c p = .ok ((a, b, temp, rd), p')) :
    ∃ id v m', Passage base size (fun _ => False) p last m p' last m' ∧ SparesStatus p p' ∧
      (p'.allocator.temps.lookup temp = some id ∧ p'.allocator.var? id = some v ∧ v.kind = kind ∧ v.refs = refs ∧
        v.storage = .register rd) ∧ rd.isPool = true ∧ m'.reg a = x ∧ m'.reg b = y := by
  obtain ⟨i, u, left, scalar⟩ := left
  obtain ⟨j, v, right, scalar'⟩ := right
  have spares := prepare_sparesStatus rest room left right scalar scalar' ran
  obtain ⟨a, p₁, fetched, ran⟩ := exec_bind_ok ran
  obtain ⟨b, p₂, fetched', ran⟩ := exec_bind_ok ran
  obtain ⟨⟨⟩, p₃, freed, ran⟩ := exec_bind_ok ran
  obtain ⟨⟨⟩, p₄, freed', ran⟩ := exec_bind_ok ran
  obtain ⟨⟨temp, rd⟩, p₅, made, ran⟩ := exec_bind_ok ran
  cases ran
  obtain ⟨m₄, passes, here, here'⟩ := load_two_passes (K := fun _ => False) rest
    (room.of_grows (enlarges_newTemp kind refs _ _ _ made)) left right (fun _ _ => id) (fun _ _ => id) fetched fetched'
    freed freed'
  obtain ⟨id, t, m', passes', keeping, introduced, opened⟩ := newTemp_passes passes.rest room False.elim made
  exact ⟨id, t, m', passes.trans passes', spares,
    ⟨introduced.looked, introduced.found, introduced.kind, introduced.refs, introduced.there⟩, opened.1,
    (here.keeping keeping).secures.holds, (here'.keeping keeping).secures.holds⟩

/-! ### Quotients -/

/-- The code of a quotient that is scaled back. -/
def quotientCode (rd a b : Reg) : List MachineInstr := [.alu .div rd a b, .shift .sll rd rd halfScale]

/-- A divisor that is left over divides, and the register of the result is written before it is read. -/
theorem performs_quotientCode (inPool : rd.isPool = true) (other : y ≠ 0) (holds : m.reg a = x) (holds' : m.reg b = y) :
    m.performs (quotientCode rd a b) = .ok (m.setReg rd (x.sdiv y <<< halfScale)) := by
  rw [quotientCode, performs_cons (effect_div other holds holds'), performs_one]
  simp only [effect, reg_setReg_pool inPool, setReg_setReg]
  rfl

/-- Where nothing is left of the divisor the code is one of a fault, and what was in the register is shifted. -/
theorem performs_quotientCode_zero (inPool : rd.isPool = true) (holds : m.reg b = 0) :
    m.performs (quotientCode rd a b) = .ok ((m.raise .divideByZero).setReg rd (m.reg rd <<< halfScale)) := by
  have faults : m.effect (.alu .div rd a b) = .ok (m.raise .divideByZero) := by
    simp only [effect, alu, holds, if_true]
  rw [quotientCode, performs_cons faults, performs_one]
  simp only [effect, raise, reg_setReg_of_ne _ _ (Reg.ne_of_isPool inPool).2.2]
  rfl

/-- Code that ends with a fault noted in the status. -/
def Raises (fault : Fault) (p : Progress) (m : Machine) (p' : Progress) : Prop :=
  ∃ code m', AppendsPlain p code p' ∧ m.performs code = .ok m' ∧ m'.reg Reg.status = fault.code

/-- The code for a quotient by a fixed-point number ends with the code of a division behind its operands. -/
theorem quotient_stages {k : NumberKind} (rest : AtRest base size last p.allocator m) (room : Room base size p'.allocator)
    (left : Operand last p.allocator l k x) (right : Operand last p.allocator r .fixed y)
    (apart : Apart l r p.allocator) (apart' : Apart r l p.allocator) (ran : (combine .div l r).exec c p = .ok (z, p')) :
    ∃ code m₁ rd a b id v, AppendsPlain p (code ++ quotientCode rd a b) p' ∧ m.performs code = .ok m₁ ∧
      m₁.reg Reg.status = m.reg Reg.status ∧ rd.isPool = true ∧ m₁.reg a = (Number.convert ⟨k, x⟩ .fixed).word ∧
      m₁.reg b = y.sshiftRight 8 ∧ p'.allocator.temps.lookup z = some id ∧ p'.allocator.var? id = some v ∧
      v.kind = .fixed ∧ v.refs = 0 ∧ v.storage = .register rd := by
  have ran := left.numeral.combine right.numeral ran
  obtain ⟨⟨l', r', scale⟩, p₁, scaled, ran⟩ := exec_bind_ok ran
  obtain ⟨rfl, p₀, converted, rescaled⟩ := exec_reconcile_quotient left right scaled
  have divided : (do
      let (a, b, temp, rd) ← prepare l' r' .fixed 0
      emitAll (quotientCode rd a b)
      releaseHolds
      return temp : Gen String).exec c p₁ = .ok (z, p') := by
    simpa only [prepare, bind_assoc, pure_bind, or_true, if_true, ArithmeticOp.code, quotientCode, emit_eq, emitAll_append,
      List.cons_append, List.nil_append] using ran
  obtain ⟨⟨a, b, temp, rd⟩, p₂, prepares, ran⟩ := exec_bind_ok divided
  obtain ⟨⟨⟩, p₃, divided, ran⟩ := exec_bind_ok ran
  obtain ⟨⟨⟩, p₄, released, ran⟩ := exec_bind_ok ran
  cases ran
  have room₂ : Room base size p₂.allocator :=
    (room.of_grows (enlarges_releaseHolds _ _ _ released)).of_grows (enlarges_emitAll _ _ _ _ divided)
  have room₁ : Room base size p₁.allocator := room₂.of_grows (enlarges_prepare l' r' .fixed 0 _ _ _ prepares)
  obtain ⟨last', m', passes, spares, left', right'⟩ := scale_quotient rest room₁ left right apart apart' converted
    rescaled
  obtain ⟨id, v, m₁, passes', spares', result, inPool, holds, holds'⟩ := prepare_passes passes.rest room₂ left' right'
    prepares
  have first := passes.trans passes'
  obtain ⟨code, appends, done⟩ := first.straight
  cases exec_emitAll divided
  refine ⟨code, m₁, rd, a, b, id, v, ?_, done, first.status (spares.trans spares'), inPool, holds, holds', ?_⟩
  · have last := (appends_pushAll p₂ p₂.allocator (quotientCode rd a b).toArray).trans (releaseHolds_appends released)
    rw [List.append_nil] at last
    exact appends.trans last
  · rw [exec_releaseHolds released]
    exact result

/-- A quotient by a fixed-point number is one of the operands alone and leaves the status as it is, unless nothing is left
of the divisor at half of its fraction: then, and only then, the code notes a division by zero. -/
theorem fixed_point_quotient {k : NumberKind} (reached : Reached p.allocator) (idle : p.allocator.calls = [])
    (bearing : Bearing ((m.reg Reg.stackPointer).toInt + p.allocator.pushed) m.memory.size last p.allocator m)
    (left : Operand last p.allocator l k x) (right : Operand last p.allocator r .fixed y)
    (apart : Apart l r p.allocator) (apart' : Apart r l p.allocator) (ran : (combine .div l r).exec c p = .ok (z, p'))
    (room : Room ((m.reg Reg.stackPointer).toInt + p.allocator.pushed) m.memory.size p'.allocator) :
    (¬ y.Vanishes → ResultsIn p m p' z .fixed
      ((Number.convert ⟨k, x⟩ .fixed).word.sdiv (y.sshiftRight 8) <<< halfScale)) ∧
    (y.Vanishes → Raises .divideByZero p m p') := by
  obtain ⟨code, m₁, rd, a, b, id, v, appends, done, still, inPool, holds, holds', looked, found, own, plain, there⟩ :=
    quotient_stages ⟨reached.inOrder.sound, idle, reached.tidy, bearing⟩ room left right apart apart' ran
  rw [Word.vanishes_iff]
  constructor
  · intro other
    refine ⟨_, _, id, v, rd, appends,
      (performs_append done).trans (performs_quotientCode inPool other holds holds'), ?_, looked, found, own, plain, there,
      reg_setReg_pool inPool⟩
    rw [reg_setReg_of_ne _ _ (Reg.ne_of_isPool inPool).2.2.symm, still]
  · intro nothing
    refine ⟨_, _, appends,
      (performs_append done).trans (performs_quotientCode_zero inPool (holds'.trans nothing)), ?_⟩
    rw [reg_setReg_of_ne _ _ (Reg.ne_of_isPool inPool).2.2.symm]
    exact reg_setReg_self _ _ _ (by decide)

theorem fixed_point_quotient_factors : ∃ z p',
    (combine .div "x" "y").exec ⟨[], [], #[], false⟩ factorsProgress = .ok (z, p') ∧
    ResultsIn factorsProgress factorsMachine p' z .fixed (-43520) := by
  have apart : Apart "x" "y" factorsProgress.allocator := fun id looked => by cases looked
  have apart' : Apart "y" "x" factorsProgress.allocator := fun id looked => by cases looked
  obtain ⟨z, p', ran, used⟩ := exec_of_any (combine .div "x" "y") ⟨[], [], #[], false⟩ factorsProgress factorsUsed
    (by decide +kernel)
  have quotient := (fixed_point_quotient factorsProgress_reached rfl factorsMachine_bearing factors_left factors_right
    apart apart' ran (factors_room used)).1 (by decide)
  exact ⟨z, p', ran, quotient⟩

end Gen

end SmallC
