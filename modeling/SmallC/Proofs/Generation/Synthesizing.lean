import SmallC.Proofs.Generation.Lowering
import SmallC.Proofs.Meaning.Words

/-!
Operations that the machine has no instruction for. The exclusive or and the remainder are made of a few instructions that
compute with integers, none of which leaves the range of words, so that no fault is noted on the way; the one exception is
the least word divided by minus one. An addition or subtraction of a short literal is one instruction, which leaves the
same word as one that finds the literal in a register.
-/
namespace SmallC

namespace Word

variable {a b : Word}

/-- Nothing is carried where the or is added up, so it is the sum as a signed number as well. -/
theorem toInt_or (a b : Word) : (a ||| b).toInt = (a ^^^ b).toInt + (a &&& b).toInt := by
  have sum := BitVec.toNat_add_of_and_eq_zero (xor_and_and a b)
  rw [xor_add_and] at sum
  simp only [BitVec.toInt_eq_msb_cond, BitVec.msb_or, BitVec.msb_xor, BitVec.msb_and, sum]
  cases a.msb <;> cases b.msb <;> simp <;> omega

/-- What the or has more than the and is a word. -/
theorem fits_or_sub_and (a b : Word) : FitsSigned 32 ((a ||| b).toInt - (a &&& b).toInt) := by
  have fits := Machine.fits_toInt (a ^^^ b)
  rwa [toInt_or, Int.add_sub_cancel]

theorem ofInt_or_sub_and (a b : Word) : ofInt ((a ||| b).toInt - (a &&& b).toInt) = a ^^^ b := by
  rw [ofInt_sub, or_sub_and]

/-- The least word is divided by minus one, and the quotient is no word. -/
def Overruns (a b : Word) : Prop := a = BitVec.intMin 32 ∧ b = -1#32

instance (a b : Word) : Decidable (Overruns a b) := inferInstanceAs (Decidable (_ ∧ _))

theorem toInt_sdiv_of_not_overruns (inside : ¬ Overruns a b) : (a.sdiv b).toInt = a.toInt.tdiv b.toInt := by
  refine BitVec.toInt_sdiv_of_ne_or_ne a b ?_
  by_contra neither
  rw [not_or, not_not, not_not] at neither
  exact inside neither

/-- What a division leaves over lies between zero and the dividend. -/
theorem tmod_between (x y : Int) : 0 ≤ x.tmod y ∧ x.tmod y ≤ x ∨ x ≤ x.tmod y ∧ x.tmod y ≤ 0 := by
  have least : ∀ z : Int, 0 ≤ z → 0 ≤ z.tmod y ∧ z.tmod y ≤ z := by
    intro z positive
    have sign := Int.tmod_nonneg y positive
    have size := Int.natAbs_tmod z y
    have less := Nat.mod_le z.natAbs y.natAbs
    omega
  rcases Int.le_total 0 x with positive | negative
  · exact .inl (least x positive)
  · have opposite := least (-x) (by omega)
    rw [Int.neg_tmod] at opposite
    exact .inr (by omega)

/-- So the quotient times the divisor is a word. -/
theorem fits_sdiv_mul (inside : ¬ Overruns a b) : FitsSigned 32 ((a.sdiv b).toInt * b.toInt) := by
  have whole := Int.mul_tdiv_add_tmod a.toInt b.toInt
  have between := tmod_between a.toInt b.toInt
  obtain ⟨low, high⟩ := Machine.fits_toInt a
  rw [toInt_sdiv_of_not_overruns inside, Int.mul_comm]
  change -2147483648 ≤ a.toInt at low
  change a.toInt < 2147483648 at high
  constructor
  · change -2147483648 ≤ b.toInt * a.toInt.tdiv b.toInt
    omega
  · change b.toInt * a.toInt.tdiv b.toInt < 2147483648
    omega

/-- And the remainder is what it leaves of the dividend. -/
theorem sub_sdiv_mul_toInt (inside : ¬ Overruns a b) :
    a.toInt - (ofInt ((a.sdiv b).toInt * b.toInt)).toInt = (a.srem b).toInt := by
  have whole := Int.mul_tdiv_add_tmod a.toInt b.toInt
  rw [Machine.toInt_ofInt (fits_sdiv_mul inside), toInt_sdiv_of_not_overruns inside, BitVec.toInt_srem, Int.mul_comm]
  omega

end Word

namespace Machine

variable {m m' : Machine} {rd a b : Reg} {n : Int} {w : Word} {rs more : List Reg} {fault : Fault}

/-- A machine that differs from another one in some registers at most. -/
structure DiffersIn (rs : List Reg) (m m' : Machine) : Prop where
  others : ∀ q ∉ rs, m'.reg q = m.reg q
  memory : m'.memory = m.memory
  pc : m'.pc = m.pc
  log : m'.log = m.log

theorem differsIn_setReg (r : Reg) (w : Word) : DiffersIn [r] m (m.setReg r w) where
  others _ apart := reg_setReg_of_ne m w (List.ne_of_not_mem_cons apart)
  memory := memory_setReg m r w
  pc := pc_setReg m r w
  log := log_setReg m r w

theorem DiffersIn.trans {mid : Machine} (first : DiffersIn rs m mid) (second : DiffersIn rs mid m') :
    DiffersIn rs m m' where
  others _ apart := (second.others _ apart).trans (first.others _ apart)
  memory := second.memory.trans first.memory
  pc := second.pc.trans first.pc
  log := second.log.trans first.log

theorem DiffersIn.mono (differs : DiffersIn rs m m') (within : rs ⊆ more) : DiffersIn more m m' where
  others q apart := differs.others q fun member => apart (within member)
  memory := differs.memory
  pc := differs.pc
  log := differs.log

/-- Arithmetic whose result is a word notes no fault. -/
theorem setChecked_of_fits (fits : FitsSigned 32 n) : m.setChecked rd n fault = m.setReg rd (Word.ofInt n) := if_pos fits

/-- The code for an exclusive or leaves it, and what the or is in the register for scratch. -/
theorem performs_xor (apart : rd ∉ [a, b, Reg.zero, Reg.scratch, Reg.status]) (left : a ≠ Reg.scratch)
    (right : b ≠ Reg.scratch) : m.performs (ArithmeticOp.xor.code rd a b) =
      .ok ((m.setReg Reg.scratch (m.reg a ||| m.reg b)).setReg rd (m.reg a ^^^ m.reg b)) := by
  simp only [List.mem_cons, List.not_mem_nil, or_false, not_or] at apart
  obtain ⟨-, -, writable, noScratch, -⟩ := apart
  set both := m.setReg Reg.scratch (m.reg a ||| m.reg b)
  have first : m.effect (.alu .or Reg.scratch a b) = .ok both := rfl
  have second : both.effect (.alu .and rd a b) = .ok (both.setReg rd (m.reg a &&& m.reg b)) := by
    simp only [effect, alu]
    rw [reg_setReg_of_ne _ _ left, reg_setReg_of_ne _ _ right]
  have third : (both.setReg rd (m.reg a &&& m.reg b)).effect (.alu .sub rd Reg.scratch rd) =
      .ok (both.setReg rd (m.reg a ^^^ m.reg b)) := by
    simp only [effect, alu]
    rw [reg_setReg_of_ne _ _ (Ne.symm noScratch), reg_setReg_self _ _ _ (by decide), reg_setReg_self _ _ _ writable,
      setChecked_of_fits (Word.fits_or_sub_and _ _), setReg_setReg, Word.ofInt_or_sub_and]
  rw [ArithmeticOp.code, performs_cons first, performs_cons second, performs_one, third]

theorem effect_div (nonzero : m.reg b ≠ 0) :
    m.effect (.alu .div rd a b) = .ok (m.setReg rd ((m.reg a).sdiv (m.reg b))) := congrArg Except.ok (if_neg nonzero)

/-- The code for a remainder leaves it and changes nothing else, unless the quotient is no word. -/
theorem performs_mod (apart : rd ∉ [a, b, Reg.zero, Reg.scratch, Reg.status]) (nonzero : m.reg b ≠ 0)
    (inside : ¬ Word.Overruns (m.reg a) (m.reg b)) :
    m.performs (ArithmeticOp.mod.code rd a b) = .ok (m.setReg rd ((m.reg a).srem (m.reg b))) := by
  simp only [List.mem_cons, List.not_mem_nil, or_false, not_or] at apart
  obtain ⟨left, right, writable, -, -⟩ := apart
  set quotient := (m.reg a).sdiv (m.reg b)
  set product := Word.ofInt (quotient.toInt * (m.reg b).toInt)
  have second : (m.setReg rd quotient).effect (.alu .mul rd rd b) = .ok (m.setReg rd product) := by
    simp only [effect, alu]
    rw [reg_setReg_self _ _ _ writable, reg_setReg_of_ne _ _ (Ne.symm right), setChecked_of_fits (Word.fits_sdiv_mul inside),
      setReg_setReg]
  have third : (m.setReg rd product).effect (.alu .sub rd a rd) = .ok (m.setReg rd ((m.reg a).srem (m.reg b))) := by
    simp only [effect, alu]
    rw [reg_setReg_self _ _ _ writable, reg_setReg_of_ne _ _ (Ne.symm left), Word.sub_sdiv_mul_toInt inside,
      setChecked_of_fits (fits_toInt _), setReg_setReg, ← Word.eq_ofInt_toInt]
  rw [ArithmeticOp.code, performs_cons (effect_div nonzero), performs_cons second, performs_one, third]

/-- The least word divided by minus one leaves nothing over; on the way the product is noted to be no word. -/
theorem performs_mod_overruns (apart : rd ∉ [a, b, Reg.zero, Reg.scratch, Reg.status]) (left : a ≠ Reg.status)
    (overruns : Word.Overruns (m.reg a) (m.reg b)) : m.performs (ArithmeticOp.mod.code rd a b) =
      .ok (((m.setReg rd (m.reg a)).raise .mulOverflow).setReg rd ((m.reg a).srem (m.reg b))) := by
  simp only [List.mem_cons, List.not_mem_nil, or_false, not_or] at apart
  obtain ⟨left', right, writable, -, noStatus⟩ := apart
  obtain ⟨least, minusOne⟩ := overruns
  have first : m.effect (.alu .div rd a b) = .ok (m.setReg rd (m.reg a)) := by
    rw [effect_div (by rw [minusOne]; decide), least, minusOne]
    rfl
  have second : (m.setReg rd (m.reg a)).effect (.alu .mul rd rd b) =
      .ok ((m.setReg rd (m.reg a)).raise .mulOverflow) := by
    simp only [effect, alu, setChecked]
    rw [reg_setReg_self _ _ _ writable, reg_setReg_of_ne _ _ (Ne.symm right), least, minusOne, setReg_setReg]
    rfl
  have third : ((m.setReg rd (m.reg a)).raise .mulOverflow).effect (.alu .sub rd a rd) =
      .ok (((m.setReg rd (m.reg a)).raise .mulOverflow).setReg rd ((m.reg a).srem (m.reg b))) := by
    simp only [effect, alu]
    rw [raise, reg_setReg_of_ne _ _ noStatus, reg_setReg_self _ _ _ writable, reg_setReg_of_ne _ _ left,
      reg_setReg_of_ne _ _ (Ne.symm left'), setChecked_of_fits (by rw [Int.sub_self]; decide), least, minusOne]
    rfl
  rw [ArithmeticOp.code, performs_cons first, performs_cons second, performs_one, third]

end Machine

/-! ### Literals -/

namespace Word

theorem ofInt_neg (n : Int) : ofInt (-n) = -ofInt n := BitVec.ofInt_neg

end Word

theorem ArithmeticOp.immediate?_eq_some {op : ArithmeticOp} {kind : NumberKind} {e : Expr} {n : Int} :
    op.immediate? kind e = some n ↔ FitsSigned 16 n ∧
      (op = .add ∧ e.addend? kind = some n ∨ op = .sub ∧ ∃ c, e.addend? kind = some c ∧ n = -c) := by
  cases op with
  | add => simp [immediate?, Option.filter_eq_some_iff, and_comm]
  | sub =>
    simp only [immediate?, Option.filter_eq_some_iff, Option.map_eq_some_iff, decide_eq_true_eq]
    grind
  | mul | div | mod | bitAnd | bitOr | xor => simp [immediate?]

namespace Machine

variable {m : Machine} {rd a b : Reg} {op : ArithmeticOp} {kind : NumberKind} {e : Expr} {n c : Int}

/-- Where a literal can stand in the instruction, that leaves what the operation does where the literal is in a register. -/
theorem performs_immediate (writable : rd ≠ Reg.zero) (noStatus : rd ≠ Reg.status)
    (short : op.immediate? kind e = some n) (literal : e.addend? kind = some c) (loaded : m.reg b = Word.ofInt c) :
    ∃ m₁ m₂, m.performs [.addi rd a n] = .ok m₁ ∧ m.performs (op.code rd a b) = .ok m₂ ∧ m₁.reg rd = m₂.reg rd := by
  obtain ⟨-, ⟨rfl, same⟩ | ⟨rfl, value, same, rfl⟩⟩ := ArithmeticOp.immediate?_eq_some.1 short
  · cases literal.symm.trans same
    refine ⟨_, _, performs_one, performs_one, ?_⟩
    rw [reg_setChecked_of_ne writable noStatus, alu, reg_setChecked_of_ne writable noStatus, Word.ofInt_addInt,
      Word.ofInt_add, loaded]
  · cases literal.symm.trans same
    refine ⟨_, _, performs_one, performs_one, ?_⟩
    rw [reg_setChecked_of_ne writable noStatus, alu, reg_setChecked_of_ne writable noStatus, Word.ofInt_addInt,
      Word.ofInt_sub, loaded, Word.ofInt_neg, BitVec.sub_eq_add_neg]

end Machine

/-! ### Where operations are emitted -/

/-- Registers that variables may be in are none of the machine's own. -/
theorem Reg.Carries.apart {r : Reg} (carries : r.Carries) : r ∉ [Reg.zero, Reg.scratch, Reg.status] := by
  rcases carries with pool | argument
  · obtain ⟨writable, -, noStatus⟩ := Reg.ne_of_isPool pool
    have noScratch : r ≠ Reg.scratch := by
      rintro rfl
      cases pool
    simp [writable, noScratch, noStatus]
  · have apart : ∀ r ∈ Reg.arguments, r ∉ [Reg.zero, Reg.scratch, Reg.status] := by decide
    exact apart r argument

open Alloc Allocator Machine

namespace Gen

variable {α β : Type} {c : Context} {p p' : Progress} {name l r temp : String} {kind : NumberKind}

/-- Generation that appends plain code and leaves the variables in order. -/
def KeepsOrder (c : Context) (act : Gen α) : Prop :=
  ∀ p x p', Sound [] p.allocator → Tidy p.allocator → act.exec c p = .ok (x, p') →
    (∃ code, AppendsPlain p code p') ∧ Sound [] p'.allocator ∧ Tidy p'.allocator

namespace KeepsOrder

theorem pure (x : α) : KeepsOrder c (Pure.pure x : Gen α) := by
  intro p y p' sound tidy ran
  cases ran
  exact ⟨⟨[], .nil p⟩, sound, tidy⟩

theorem bind {act : Gen α} {f : α → Gen β} (first : KeepsOrder c act) (rest : ∀ x, KeepsOrder c (f x)) :
    KeepsOrder c (act >>= f) := by
  intro p y p' sound tidy ran
  obtain ⟨x, mid, ran, ran'⟩ := exec_bind_ok ran
  obtain ⟨⟨code, appends⟩, sound, tidy⟩ := first _ _ _ sound tidy ran
  obtain ⟨⟨more, appends'⟩, sound', tidy'⟩ := rest x _ _ _ sound tidy ran'
  exact ⟨⟨code ++ more, appends.trans appends'⟩, sound', tidy'⟩

theorem ite {q : Prop} [Decidable q] {act other : Gen α} (yes : KeepsOrder c act) (no : KeepsOrder c other) :
    KeepsOrder c (if q then act else other) := by
  split
  · exact yes
  · exact no

/-- What only reads the allocator. -/
theorem still {act : Gen α} (same : ∀ {p x p'}, act.exec c p = .ok (x, p') → p = p') : KeepsOrder c act := by
  intro p x p' sound tidy ran
  cases same ran
  exact ⟨⟨[], .nil p⟩, sound, tidy⟩

end KeepsOrder

theorem keepsOrder_refs (name : String) : KeepsOrder c (Gen.alloc (Alloc.refs name)) := by
  refine .still fun {p x p'} ran => ?_
  obtain ⟨w, did, rfl⟩ := exec_alloc ran
  simp only [Alloc.refs, knownAs, ran_bind, ran_resolve, ran_known, ran_pure] at did
  obtain ⟨v, _, ⟨id, _, ⟨resolved, rfl⟩, found, rfl⟩, rfl, rfl⟩ := did
  simp [Draft.pushAll]

theorem keepsOrder_kind (name : String) : KeepsOrder c (Gen.alloc (Alloc.kind name)) := .still fun ran => (exec_kind ran).1

theorem keepsOrder_arithmeticKind (name : String) : KeepsOrder c (arithmeticKind name) :=
  .bind (keepsOrder_refs name) fun _ => .ite (.pure _) (keepsOrder_kind name)

theorem keepsOrder_resultKind (l r : String) : KeepsOrder c (resultKind l r) :=
  .bind (keepsOrder_refs l) fun _ => .ite (keepsOrder_kind l) <| .bind (keepsOrder_refs r) fun _ =>
    .ite (keepsOrder_kind r) <| .bind (keepsOrder_arithmeticKind l) fun _ =>
      .bind (keepsOrder_arithmeticKind r) fun _ => .ite (.pure _) (.pure _)

theorem keepsOrder_shifted (direction : ShiftDirection) (name : String) (amount : Nat) (kind : NumberKind) (refs : Nat) :
    KeepsOrder c (shifted direction name amount kind refs) := by
  intro p temp p' sound tidy ran
  rw [shifted_eq] at ran
  obtain ⟨rs, rd, before, -, -, -, sound', tidied, appends, -⟩ := lowered_parts sound ran
  exact ⟨⟨_, appends⟩, sound', (tidied tidy).1⟩

theorem keepsOrder_convert (name : String) (kind : NumberKind) : KeepsOrder c (convert name kind) := by
  refine .bind (keepsOrder_refs name) fun _ => .bind (keepsOrder_kind name) fun _ => .ite (.pure name) ?_
  cases kind <;> exact keepsOrder_shifted _ _ _ _ _

theorem keepsOrder_rescale (name : String) : KeepsOrder c (rescale name) := keepsOrder_shifted _ _ _ _ _

theorem keepsOrder_reconcile (op : ArithmeticOp) (l r : String) : KeepsOrder c (reconcile op l r) := by
  refine .bind (keepsOrder_arithmeticKind l) fun _ => .bind (keepsOrder_arithmeticKind r) fun _ => ?_
  split
  · exact .pure _
  · exact .bind (keepsOrder_rescale l) fun _ => .bind (keepsOrder_rescale r) fun _ => .pure _
  · exact .pure _
  · exact .pure _
  · exact .bind (keepsOrder_convert l _) fun _ => .bind (keepsOrder_rescale r) fun _ => .pure _
  · exact .bind (keepsOrder_convert l _) fun _ => .bind (keepsOrder_convert r _) fun _ => .pure _

/-- Wherever two values are combined, the code of the operation gets three registers: that of the result is neither
operand's, and none of them is one of the machine's own. -/
theorem combine_parts {op : ArithmeticOp} (sound : Sound [] p.allocator) (tidy : Tidy p.allocator)
    (ran : (combine op l r).exec c p = .ok (temp, p')) :
    ∃ rd a b before behind, rd ∉ [a, b] ∧ (∀ r ∈ [rd, a, b], r ∉ [Reg.zero, Reg.scratch, Reg.status]) ∧
      LiesIn temp rd p'.allocator ∧ AppendsPlain p (before ++ (op.code rd a b ++ behind)) p' := by
  rw [combine_eq] at ran
  obtain ⟨kind, p₁, kinds, ran⟩ := exec_bind_ok ran
  obtain ⟨⟨code₁, appends₁⟩, sound, tidy⟩ := keepsOrder_resultKind l r _ _ _ sound tidy kinds
  obtain ⟨refs, p₂, read, ran⟩ := exec_bind_ok ran
  obtain ⟨⟨code₂, appends₂⟩, sound, tidy⟩ := keepsOrder_refs l _ _ _ sound tidy read
  obtain ⟨refs', p₃, read', ran⟩ := exec_bind_ok ran
  obtain ⟨⟨code₃, appends₃⟩, sound, tidy⟩ := keepsOrder_refs r _ _ _ sound tidy read'
  obtain ⟨⟨l', r', scale⟩, p₄, scaled, ran⟩ := exec_bind_ok ran
  obtain ⟨⟨code₄, appends₄⟩, sound, tidy⟩ := keepsOrder_reconcile op l r _ _ _ sound tidy scaled
  obtain ⟨rs, rd, before, length, apart, lies, -, carried, appends, -⟩ := lowered_parts sound ran
  match rs, length with
  | [a, b], _ =>
    refine ⟨rd, a, b, (code₁ ++ (code₂ ++ (code₃ ++ code₄))) ++ before,
      (scale.map fun amount => Instr.shift .sll rd rd amount).toList, apart,
      fun r member => Reg.Carries.apart ((carried tidy).2 r member), lies, ?_⟩
    rw [List.append_assoc]
    exact (appends₁.trans (appends₂.trans (appends₃.trans appends₄))).trans appends

/-- Operations that are made of others compute the right words. Wherever two values are combined, the registers of the
operands and of the result are such that the following holds there. From every machine, the code for an exclusive or
leaves it and writes nothing else but the register for scratch; the code for a remainder leaves that of the division that
truncates, unless the divisor is zero, and writes nothing else, unless the quotient is no word, which the status notes.
An addition or subtraction of a literal that fits leaves the same word as one that finds the literal in a register. -/
theorem synthesized_operations :
    (∀ {c : Context} {p p' : Progress} {op : ArithmeticOp} {l r temp : String}, Reached p.allocator →
      (combine op l r).exec c p = .ok (temp, p') →
      ∃ rd a b before behind, rd ∉ [a, b] ∧ (∀ r ∈ [rd, a, b], r ∉ [Reg.zero, Reg.scratch, Reg.status]) ∧
        LiesIn temp rd p'.allocator ∧ AppendsPlain p (before ++ (op.code rd a b ++ behind)) p') ∧
    ∀ (m : Machine) {rd a b : Reg}, rd ∉ [a, b, Reg.zero, Reg.scratch, Reg.status] →
      (a ≠ Reg.scratch → b ≠ Reg.scratch → ∃ m', m.performs (ArithmeticOp.xor.code rd a b) = .ok m' ∧
        m'.reg rd = m.reg a ^^^ m.reg b ∧ DiffersIn [rd, Reg.scratch] m m') ∧
      (m.reg b ≠ 0 → (Word.Overruns (m.reg a) (m.reg b) → a ≠ Reg.status) →
        ∃ m', m.performs (ArithmeticOp.mod.code rd a b) = .ok m' ∧
          (m'.reg rd).toInt = (m.reg a).toInt.tmod (m.reg b).toInt ∧
          DiffersIn (if Word.Overruns (m.reg a) (m.reg b) then [rd, Reg.status] else [rd]) m m') ∧
      ∀ {op : ArithmeticOp} {kind : NumberKind} {e : Expr} {n value : Int}, op.immediate? kind e = some n →
        e.addend? kind = some value → m.reg b = Word.ofInt value →
        ∃ m₁ m₂, m.performs [.addi rd a n] = .ok m₁ ∧ m.performs (op.code rd a b) = .ok m₂ ∧ m₁.reg rd = m₂.reg rd := by
  refine ⟨fun reached ran => combine_parts reached.inOrder.sound reached.tidy ran, fun m rd a b apart => ?_⟩
  have writable : rd ≠ Reg.zero := fun same => apart (by simp [same])
  have noStatus : rd ≠ Reg.status := fun same => apart (by simp [same])
  refine ⟨fun left right => ?_, fun nonzero left => ?_, fun short literal loaded =>
    performs_immediate writable noStatus short literal loaded⟩
  · refine ⟨_, performs_xor apart left right, reg_setReg_self _ _ _ writable, ?_⟩
    exact ((differsIn_setReg Reg.scratch _).mono (by simp)).trans ((differsIn_setReg rd _).mono (by simp))
  · split
    · next overruns =>
      refine ⟨_, performs_mod_overruns apart (left overruns) overruns, ?_, ?_⟩
      · rw [reg_setReg_self _ _ _ writable, BitVec.toInt_srem]
      · have first : DiffersIn [rd, Reg.status] m (m.setReg rd (m.reg a)) := (differsIn_setReg rd _).mono (by simp)
        have second : DiffersIn [rd, Reg.status] (m.setReg rd (m.reg a)) ((m.setReg rd (m.reg a)).raise .mulOverflow) :=
          (differsIn_setReg Reg.status _).mono (by simp)
        exact (first.trans second).trans ((differsIn_setReg rd _).mono (by simp))
    · next inside =>
      refine ⟨_, performs_mod apart nonzero inside, ?_, differsIn_setReg rd _⟩
      rw [reg_setReg_self _ _ _ writable, BitVec.toInt_srem]

/-- Two words in registers. -/
def twoWords (r s : Reg) (x y : Word) : Machine := ((fresh 0).setReg r x).setReg s y

theorem synthesized_operations_negative :
    (∃ temp p' rd a b before behind, crowdedProgress.allocator.held = [⟨8⟩] ∧
      (combine .mod (tempName 0) (tempName 1)).exec ⟨[], [], #[], false⟩ crowdedProgress = .ok (temp, p') ∧ rd ∉ [a, b] ∧
      AppendsPlain crowdedProgress (before ++ (ArithmeticOp.mod.code rd a b ++ behind)) p') ∧
    (∃ m', (twoWords ⟨8⟩ ⟨9⟩ (-17) 5).performs (ArithmeticOp.xor.code ⟨10⟩ ⟨8⟩ ⟨9⟩) = .ok m' ∧
      (m'.reg ⟨10⟩).toInt = -22 ∧ DiffersIn [⟨10⟩, Reg.scratch] (twoWords ⟨8⟩ ⟨9⟩ (-17) 5) m') ∧
    (∃ m', (twoWords ⟨8⟩ ⟨9⟩ (-17) 5).performs (ArithmeticOp.mod.code ⟨10⟩ ⟨8⟩ ⟨9⟩) = .ok m' ∧
      (m'.reg ⟨10⟩).toInt = -2 ∧ DiffersIn [⟨10⟩] (twoWords ⟨8⟩ ⟨9⟩ (-17) 5) m') ∧
    (∃ m', (twoWords ⟨8⟩ ⟨9⟩ (BitVec.intMin 32) (-1)).performs (ArithmeticOp.mod.code ⟨10⟩ ⟨8⟩ ⟨9⟩) = .ok m' ∧
      (m'.reg ⟨10⟩).toInt = 0 ∧ DiffersIn [⟨10⟩, Reg.status] (twoWords ⟨8⟩ ⟨9⟩ (BitVec.intMin 32) (-1)) m') ∧
    ∃ m₁ m₂, (twoWords ⟨8⟩ ⟨9⟩ (-17) 5).performs [.addi ⟨10⟩ ⟨8⟩ (-5)] = .ok m₁ ∧
      (twoWords ⟨8⟩ ⟨9⟩ (-17) 5).performs (ArithmeticOp.sub.code ⟨10⟩ ⟨8⟩ ⟨9⟩) = .ok m₂ ∧ m₁.reg ⟨10⟩ = m₂.reg ⟨10⟩ := by
  obtain ⟨emitted, computed⟩ := synthesized_operations
  obtain ⟨temp, p', ran, -⟩ := exec_of_any (combine .mod (tempName 0) (tempName 1)) ⟨[], [], #[], false⟩ crowdedProgress
    (fun _ => true) (by decide +kernel)
  obtain ⟨rd, a, b, before, behind, apart, -, -, appends⟩ := emitted crowdedProgress_reached ran
  obtain ⟨xor, mod, immediate⟩ := @computed (twoWords ⟨8⟩ ⟨9⟩ (-17) 5) ⟨10⟩ ⟨8⟩ ⟨9⟩ (by decide)
  obtain ⟨-, least, -⟩ := @computed (twoWords ⟨8⟩ ⟨9⟩ (BitVec.intMin 32) (-1)) ⟨10⟩ ⟨8⟩ ⟨9⟩ (by decide)
  obtain ⟨m₁, done₁, word₁, differs₁⟩ := xor (by decide) (by decide)
  obtain ⟨m₂, done₂, word₂, differs₂⟩ := mod (by decide) (by decide)
  obtain ⟨m₃, done₃, word₃, differs₃⟩ := least (by decide) (by decide)
  rw [if_neg (by decide)] at differs₂
  rw [if_pos (by decide)] at differs₃
  refine ⟨⟨temp, p', rd, a, b, before, behind, by decide +kernel, ran, apart, appends⟩, ⟨m₁, done₁, ?_, differs₁⟩,
    ⟨m₂, done₂, ?_, differs₂⟩, ⟨m₃, done₃, ?_, differs₃⟩,
    @immediate .sub .int (.int 1 5) _ _ (by decide) rfl rfl⟩
  · rw [word₁]
    decide
  · rw [word₂]
    decide
  · rw [word₃]
    decide

end Gen

end SmallC
