import SmallC.Generation.Condition
import SmallC.Proofs.Allocation.Contents
import SmallC.Proofs.Meaning.Reference

/-!
What the code of operations leaves in its register. The machine computes with integers that it brings back into
range, which is arithmetic on words; what it has no instruction for is made of a few that it has.
-/
namespace SmallC

namespace Word

theorem ofInt_add (a b : Word) : ofInt (a.toInt + b.toInt) = a + b := by
  rw [ofInt, BitVec.ofInt_add, BitVec.ofInt_toInt, BitVec.ofInt_toInt]

theorem ofInt_sub (a b : Word) : ofInt (a.toInt - b.toInt) = a - b := by
  rw [ofInt, Int.sub_eq_add_neg, BitVec.ofInt_add, BitVec.ofInt_neg, BitVec.ofInt_toInt, BitVec.ofInt_toInt,
    ← BitVec.sub_eq_add_neg]

theorem ofInt_mul (a b : Word) : ofInt (a.toInt * b.toInt) = a * b := by
  rw [ofInt, BitVec.ofInt_mul, BitVec.ofInt_toInt, BitVec.ofInt_toInt]

theorem ofInt_addInt (a : Word) (n : Int) : ofInt (a.toInt + n) = a + ofInt n := by
  rw [ofInt, BitVec.ofInt_add, BitVec.ofInt_toInt, ofInt]

theorem xor_and_and (a b : Word) : (a ^^^ b) &&& (a &&& b) = 0#32 := by
  ext i
  simp only [BitVec.getElem_and, BitVec.getElem_xor, BitVec.getElem_zero]
  cases a[i] <;> cases b[i] <;> rfl

/-- The or has what the exclusive or and the and have, which is never the same bit. -/
theorem xor_add_and (a b : Word) : (a ^^^ b) + (a &&& b) = a ||| b := by
  rw [BitVec.add_eq_or_of_and_eq_zero _ _ (xor_and_and a b)]
  ext i
  simp only [BitVec.getElem_and, BitVec.getElem_xor, BitVec.getElem_or]
  cases a[i] <;> cases b[i] <;> rfl

/-- The exclusive or is what the or has and the and has not. -/
theorem or_sub_and (a b : Word) : (a ||| b) - (a &&& b) = a ^^^ b := by
  rw [← xor_add_and, BitVec.add_sub_cancel]

/-- Every word is that of the integer it is read as. -/
theorem eq_ofInt_toInt (a : Word) : a = ofInt a.toInt := (BitVec.ofInt_toInt).symm

theorem ofInt_bmod (n : Int) : ofInt (n.bmod (2 ^ 32)) = ofInt n := by
  apply BitVec.eq_of_toInt_eq
  rw [ofInt, ofInt, BitVec.toInt_ofInt, BitVec.toInt_ofInt, Int.bmod_bmod]

/-- The remainder is what the quotient leaves over. -/
theorem sub_sdiv_mul (a b : Word) : a - a.sdiv b * b = a.srem b := by
  have quotient : a.sdiv b = ofInt (a.toInt.tdiv b.toInt) := by
    rw [eq_ofInt_toInt (a.sdiv b), BitVec.toInt_sdiv, ofInt_bmod]
  have product : a.sdiv b * b = ofInt (b.toInt * a.toInt.tdiv b.toInt) := by
    rw [quotient, Int.mul_comm, ofInt, ofInt, BitVec.ofInt_mul, BitVec.ofInt_toInt]
  rw [product, eq_ofInt_toInt (a.srem b), BitVec.toInt_srem, Int.tmod_def, ofInt, ofInt, Int.sub_eq_add_neg,
    BitVec.ofInt_add, BitVec.ofInt_neg, BitVec.ofInt_toInt, ← BitVec.sub_eq_add_neg]

theorem shiftLeft_ofInt (n : Int) : ofInt n <<< 16 = ofInt (n * 65536) := by
  rw [ofInt, ofInt, BitVec.ofInt_mul, BitVec.shiftLeft_eq_mul_twoPow]
  rfl

/-- A number in range is brought to another scale as its word is. -/
theorem sshiftRight_ofInt {n : Int} (fits : FitsSigned 32 n) : (ofInt n).sshiftRight 16 = ofInt (n / 65536) := by
  have low : -(2147483648 : Int) ≤ n := fits.1
  have high : n < 2147483648 := fits.2
  apply BitVec.eq_of_toInt_eq
  rw [BitVec.toInt_sshiftRight, ofInt, ofInt, BitVec.toInt_ofInt, BitVec.toInt_ofInt, Int.shiftRight_eq_div_pow,
    Int.bmod_eq_of_le (by omega) (by omega), Int.bmod_eq_of_le (by omega) (by omega)]
  rfl

end Word

/-! ### What code leaves in a register -/

namespace Machine

variable {m mid m' : Machine} {rd a b : Reg} {n : Int} {v w : Word} {fault : Fault} {i : MachineInstr}
  {rest : List MachineInstr}

/-- Registers that are written hold what was written, even where the status is noted behind it. -/
theorem reg_setChecked_of_ne (writable : rd ≠ Reg.zero) (noStatus : rd ≠ Reg.status) :
    (m.setChecked rd n fault).reg rd = Word.ofInt n := by
  simp only [setChecked]
  split
  · exact reg_setReg_self _ _ _ writable
  · exact (reg_setReg_of_ne _ _ noStatus).trans (reg_setReg_self _ _ _ writable)

theorem reg_setChecked (inPool : rd.isPool = true) : (m.setChecked rd n fault).reg rd = Word.ofInt n :=
  reg_setChecked_of_ne (Reg.ne_of_isPool inPool).1 (Reg.ne_of_isPool inPool).2.2

theorem reg_setReg_pool (inPool : rd.isPool = true) : (m.setReg rd w).reg rd = w :=
  reg_setReg_self _ _ _ (Reg.ne_of_isPool inPool).1

/-- Code that runs through and leaves a word in a register, and writes no other one but that for scratch. -/
structure Leaves (m : Machine) (code : List MachineInstr) (rd : Reg) (w : Word) : Prop where
  done : ∃ m', m.performs code = .ok m' ∧ m'.reg rd = w
  writes : ∀ i ∈ code, i.written? = some rd ∨ i.written? = some Reg.scratch

theorem Leaves.one (writes : i.written? = some rd) (effect : m.effect i = .ok m') (holds : m'.reg rd = w) :
    Leaves m [i] rd w :=
  ⟨⟨m', performs_one.trans effect, holds⟩, by simpa using .inl writes⟩

theorem Leaves.cons (writes : i.written? = some rd ∨ i.written? = some Reg.scratch)
    (effect : m.effect i = .ok mid) (leaves : Leaves mid rest rd w) : Leaves m (i :: rest) rd w := by
  obtain ⟨m', done, holds⟩ := leaves.done
  exact ⟨⟨m', (performs_append (performs_one.trans effect : m.performs [i] = .ok mid)).trans done, holds⟩,
    List.forall_mem_cons.2 ⟨writes, leaves.writes⟩⟩

theorem Leaves.append {code more : List MachineInstr} (first : Leaves m code rd v)
    (second : ∀ {mid : Machine}, mid.reg rd = v → Leaves mid more rd w) : Leaves m (code ++ more) rd w := by
  obtain ⟨mid, done, holds⟩ := first.done
  obtain ⟨m', done', holds'⟩ := (second holds).done
  exact ⟨⟨m', (performs_append done).trans done', holds'⟩,
    List.forall_mem_append.2 ⟨first.writes, (second holds).writes⟩⟩

theorem leaves_addi (inPool : rd.isPool = true) (n : Int) :
    Leaves m [.addi rd a n] rd (m.reg a + Word.ofInt n) :=
  .one rfl rfl ((reg_setChecked inPool).trans (Word.ofInt_addInt _ _))

theorem leaves_loadImmediate (inPool : rd.isPool = true) (zero : m.reg Reg.zero = 0) (n : Int) :
    Leaves m [MachineInstr.loadImmediate rd n] rd (Word.ofInt n) := by
  have leaves := leaves_addi (m := m) (a := Reg.zero) inPool n
  rwa [zero, BitVec.ofNat_eq_ofNat, BitVec.zero_add] at leaves

/-- The code that loads a number does so. -/
theorem leaves_literalCode (inPool : rd.isPool = true) (zero : m.reg Reg.zero = 0) (n : Int) :
    Leaves m (literalCode rd n) rd (Word.ofInt n) := by
  unfold literalCode
  split
  · exact leaves_loadImmediate inPool zero n
  · have split : (n - n.bmod 65536) / 65536 * 65536 + n.bmod 65536 = n := by
      have whole := Int.ediv_mul_cancel (Int.dvd_self_sub_bmod (x := n) (m := 65536))
      omega
    obtain ⟨m₁, first, high⟩ := (leaves_loadImmediate inPool zero ((n - n.bmod 65536) / 65536)).done
    rw [performs_one] at first
    have shifted : (m₁.setReg rd (Word.shiftLeft (m₁.reg rd) 16)).reg rd =
        Word.ofInt ((n - n.bmod 65536) / 65536 * 65536) := by
      rw [reg_setReg_pool inPool, high]
      exact Word.shiftLeft_ofInt _
    refine .cons (.inl rfl) first (.cons (.inl rfl) rfl ?_)
    split
    · next flat =>
      refine ⟨⟨_, rfl, ?_⟩, nofun⟩
      rw [shifted, ← congrArg Word.ofInt split, flat, Int.add_zero]
    · have leaves := leaves_addi (m := m₁.setReg rd (Word.shiftLeft (m₁.reg rd) 16)) (a := rd) inPool
        (n.bmod 65536)
      rw [shifted] at leaves
      have sum : Word.ofInt ((n - n.bmod 65536) / 65536 * 65536) + Word.ofInt (n.bmod 65536) = Word.ofInt n := by
        rw [Word.ofInt, Word.ofInt, ← BitVec.ofInt_add, split, Word.ofInt]
      rwa [sum] at leaves

theorem setReg_setReg (m : Machine) (r : Reg) (v w : Word) : (m.setReg r v).setReg r w = m.setReg r w := by
  unfold setReg
  split
  · rfl
  · simp only [Vector.set_set]

theorem effect_loadImmediate {n : Int} (zero : m.reg Reg.zero = 0) (fits : FitsSigned 32 n) :
    m.effect (MachineInstr.loadImmediate rd n) = .ok (m.setReg rd (Word.ofInt n)) := by
  have sum : (m.reg Reg.zero).toInt + n = n := by
    rw [zero]
    exact Int.zero_add n
  refine (effect_addi (by rwa [sum])).trans ?_
  rw [sum]

/-- A high half is loaded and shifted to its place. -/
theorem performs_highHalf {high : Int} (zero : m.reg Reg.zero = 0) (writable : rd ≠ Reg.zero)
    (fits : FitsSigned 32 high) :
    m.performs [MachineInstr.loadImmediate rd high, .shift .sll rd rd 16] =
      .ok (m.setReg rd (Word.ofInt (high * 65536))) := by
  have shift : Word.shiftLeft (Word.ofInt high) 16 = Word.ofInt (high * 65536) := Word.shiftLeft_ofInt high
  have second : (m.setReg rd (Word.ofInt high)).effect (.shift .sll rd rd 16) =
      .ok (m.setReg rd (Word.ofInt (high * 65536))) := by
    simp only [effect, reg_setReg_self _ _ _ writable, shift, setReg_setReg]
  exact (performs_cons (effect_loadImmediate zero fits)).trans (performs_one.trans second)

/-- A low half is added to a high half. The numbers next below the first one out of range have a high half that is out
of range itself, so it is read as the least number and the sum leaves the range. -/
theorem effect_addLowHalf {v high low : Int} (writable : rd ≠ Reg.zero) (halves : high * 65536 + low = v)
    (atLeast : -32768 ≤ low) (below : low < 32768) (fits : FitsSigned 32 v) :
    (m.setReg rd (Word.ofInt (high * 65536))).effect (.addi rd rd low) =
      .ok (if v < 2147450880 then m.setReg rd (Word.ofInt v)
        else (m.setReg rd (Word.ofInt v)).raise .addiOverflow) := by
  have least : -(2147483648 : Int) ≤ v := fits.1
  have greatest : v < 2147483648 := fits.2
  simp only [effect, setChecked, reg_setReg_self _ _ _ writable, setReg_setReg]
  by_cases near : v < 2147450880
  · have inside : FitsSigned 32 (high * 65536) := by
      constructor
      · change -(2147483648 : Int) ≤ high * 65536
        omega
      · change high * 65536 < (2147483648 : Int)
        omega
    rw [toInt_ofInt inside, halves, if_pos fits, if_pos near]
  · have edge : high = 32768 := by omega
    subst edge
    have lowest : (Word.ofInt (32768 * 65536)).toInt = -2147483648 := by decide
    have wrapped : Word.ofInt (-2147483648 + low) = Word.ofInt v := by
      rw [← Word.ofInt_bmod, ← Word.ofInt_bmod v, ← halves]
      congr 1
      simp only [Int.bmod_def]
      omega
    rw [lowest, wrapped, if_neg near, if_neg]
    intro inside
    have bottom : -(2147483648 : Int) ≤ -2147483648 + low := inside.1
    omega

/-- Loading a number writes it to the register and nothing else, except that the numbers next below the first one
out of range are built from a high half that is out of range itself, which the status notes. -/
theorem performs_literalCode {v : Int} (zero : m.reg Reg.zero = 0) (writable : rd ≠ Reg.zero)
    (fits : FitsSigned 32 v) :
    m.performs (literalCode rd v) = .ok (if v < 2147450880 then m.setReg rd (Word.ofInt v)
      else (m.setReg rd (Word.ofInt v)).raise .addiOverflow) := by
  have least : -(2147483648 : Int) ≤ v := fits.1
  have greatest : v < 2147483648 := fits.2
  unfold literalCode
  split
  · next short =>
    have below : v < 32768 := short.2
    rw [performs_one, effect_loadImmediate zero fits, if_pos (by omega)]
  · have halves : (v - v.bmod 65536) / 65536 * 65536 + v.bmod 65536 = v := by
      have whole := Int.ediv_mul_cancel (Int.dvd_self_sub_bmod (x := v) (m := 65536))
      omega
    have atLeast : -32768 ≤ v.bmod 65536 := Int.le_bmod (x := v) (m := 65536) (by decide)
    have below : v.bmod 65536 < 32768 := Int.bmod_lt (x := v) (m := 65536) (by decide)
    simp only
    generalize v.bmod 65536 = low at *
    generalize (v - low) / 65536 = high at *
    have inside : FitsSigned 32 high := by
      constructor
      · change -(2147483648 : Int) ≤ high
        omega
      · change high < (2147483648 : Int)
        omega
    rw [performs_append (performs_highHalf zero writable inside)]
    split
    · next flat =>
      have same : high * 65536 = v := by omega
      rw [if_pos (by omega), same]
      rfl
    · rw [performs_one]
      exact effect_addLowHalf writable halves atLeast below fits

theorem leaves_shift {amount : Nat} (inPool : rd.isPool = true) (inside : amount < 32) (direction : ShiftDirection) :
    Leaves m [direction.instr rd a amount] rd (direction.onWord (m.reg a) amount) := by
  cases direction with
  | left =>
    refine .one rfl rfl ((reg_setReg_pool inPool).trans ?_)
    rw [Word.shiftLeft, Nat.mod_eq_of_lt inside]
    rfl
  | right =>
    refine .one rfl rfl ((reg_setReg_pool inPool).trans ?_)
    rw [Word.shiftRight, Nat.mod_eq_of_lt inside]
    rfl

theorem leaves_negation (inPool : rd.isPool = true) (zero : m.reg Reg.zero = 0) :
    Leaves m [.alu .sub rd Reg.zero a] rd (-m.reg a) := by
  refine .one rfl rfl ((reg_setChecked inPool).trans ?_)
  rw [Word.ofInt_sub, zero, BitVec.ofNat_eq_ofNat, BitVec.zero_sub]

theorem leaves_move (inPool : rd.isPool = true) (zero : m.reg Reg.zero = 0) :
    Leaves m [MachineInstr.move rd a] rd (m.reg a) :=
  .one rfl (effect_move zero) (reg_setReg_pool inPool)

/-- The code of an operation computes it, if its operands stand elsewhere. -/
theorem leaves_code {op : ArithmeticOp} (inPool : rd.isPool = true) (left : a.isPool = true)
    (right : b.isPool = true) (apart : a ≠ rd) (apart' : b ≠ rd)
    (value : op.onWords (m.reg a) (m.reg b) = some w) : Leaves m (op.code rd a b) rd w := by
  have aside : ∀ {r : Reg}, r.isPool = true → r ≠ Reg.status := fun pool => (Reg.ne_of_isPool pool).2.2
  have scratch : ∀ {r : Reg}, r.isPool = true → r ≠ Reg.scratch := by
    rintro r pool rfl
    cases pool
  cases op with
  | add =>
    cases value
    exact .one rfl rfl ((reg_setChecked inPool).trans (Word.ofInt_add _ _))
  | sub =>
    cases value
    exact .one rfl rfl ((reg_setChecked inPool).trans (Word.ofInt_sub _ _))
  | mul =>
    cases value
    exact .one rfl rfl ((reg_setChecked inPool).trans (Word.ofInt_mul _ _))
  | bitAnd =>
    cases value
    exact .one rfl rfl (reg_setReg_pool inPool)
  | bitOr =>
    cases value
    exact .one rfl rfl (reg_setReg_pool inPool)
  | xor =>
    cases value
    refine .cons (.inr rfl) rfl (.cons (.inl rfl) rfl (.one rfl rfl ((reg_setChecked inPool).trans ?_)))
    simp only [alu]
    rw [reg_setReg_pool inPool, reg_setReg_of_ne _ _ (scratch inPool).symm,
      reg_setReg_self _ _ _ (by decide), reg_setReg_of_ne _ _ (scratch left),
      reg_setReg_of_ne _ _ (scratch right), Word.ofInt_sub, Word.or_sub_and]
  | div =>
    simp only [ArithmeticOp.onWords, Option.ite_none_left_eq_some, Option.some.injEq] at value
    obtain ⟨nonzero, rfl⟩ := value
    refine .one rfl rfl ?_
    simp only [alu, if_neg nonzero]
    exact reg_setReg_pool inPool
  | mod =>
    simp only [ArithmeticOp.onWords, Option.ite_none_left_eq_some, Option.some.injEq] at value
    obtain ⟨nonzero, rfl⟩ := value
    -- the quotient, then the product, and then the difference stand in the register
    have divided : m.alu .div rd (m.reg a) (m.reg b) = m.setReg rd ((m.reg a).sdiv (m.reg b)) := by
      simp only [alu, if_neg nonzero]
    have others : ∀ {r}, r.isPool = true → r ≠ rd → ∀ {n fault},
        ((m.setReg rd ((m.reg a).sdiv (m.reg b))).setChecked rd n fault).reg r = m.reg r :=
      fun pool other => setChecked_cases (P := fun k => k.reg _ = m.reg _)
        (((reg_setReg_of_ne _ _ other)).trans (reg_setReg_of_ne _ _ other))
        ((reg_setReg_of_ne _ _ (aside pool)).trans
          ((reg_setReg_of_ne _ _ other).trans (reg_setReg_of_ne _ _ other)))
    refine .cons (.inl rfl) (congrArg Except.ok divided) (.cons (.inl rfl) rfl
      (.one rfl rfl ((reg_setChecked inPool).trans ?_)))
    simp only [alu]
    rw [others left apart, reg_setChecked inPool, reg_setReg_pool inPool, reg_setReg_of_ne _ _ apart', Word.ofInt_mul, Word.ofInt_sub,
      Word.sub_sdiv_mul]

/-- What turns a truth value over. -/
theorem leaves_turned {holds : Bool} (inPool : rd.isPool = true) (zero : m.reg Reg.zero = 0)
    (value : m.reg rd = Word.ofBool holds) :
    Leaves m [.alu .sub rd Reg.zero rd, .addi rd rd 1] rd (Word.ofBool !holds) := by
  have negated : (m.alu .sub rd (m.reg Reg.zero) (m.reg rd)).reg rd = -m.reg rd := by
    simp only [alu]
    rw [reg_setChecked inPool, Word.ofInt_sub, zero, BitVec.ofNat_eq_ofNat, BitVec.zero_sub]
  refine .cons (.inl rfl) rfl ?_
  have word : -m.reg rd + Word.ofInt 1 = Word.ofBool !holds := by
    rw [value]
    cases holds <;> rfl
  rw [← word, ← negated]
  exact leaves_addi inPool 1

/-- The code of an order relation computes whether it holds. -/
theorem leaves_valueCode {r : Relation} {code : List MachineInstr} (inPool : rd.isPool = true)
    (known : r.valueCode? rd a b = some code) (zero : m.reg Reg.zero = 0) :
    Leaves m code rd (Word.ofBool (r.onWords (m.reg a) (m.reg b))) := by
  have less : ∀ x y : Word, x.slt y = decide (x.toInt < y.toInt) := fun x y => rfl
  have turned : ∀ x y : Word, x.sle y = !decide (y.toInt < x.toInt) := fun x y => by
    rw [BitVec.sle_eq_not_slt, less]
  have still : ∀ w, (m.setReg rd w).reg Reg.zero = 0 := fun w => (reg_zero_setReg m rd w).trans zero
  cases r with
  | eq | ne => cases known
  | lt =>
    cases known
    exact .one rfl rfl (reg_setReg_pool inPool)
  | gt =>
    cases known
    exact .one rfl rfl (reg_setReg_pool inPool)
  | le =>
    cases known
    refine .cons (.inl rfl) rfl ?_
    rw [Relation.onWords, turned]
    exact leaves_turned inPool (still _) (reg_setReg_pool inPool)
  | ge =>
    cases known
    refine .cons (.inl rfl) rfl ?_
    rw [Relation.onWords, turned]
    exact leaves_turned inPool (still _) (reg_setReg_pool inPool)

/-- The branch that decides a relation is taken where the relation holds, or where it does not. -/
theorem branches_test (r : Relation) (a b : Reg) : ∃ op p q sense, (p = a ∧ q = b ∨ p = b ∧ q = a) ∧
    (∀ label, r.test a b label = (MachineInstr.branchTo op p q label, sense)) ∧
    ∀ m : Machine, branches op (m.reg p) (m.reg q) = (r.onWords (m.reg a) (m.reg b) == sense) := by
  cases r with
  | lt => exact ⟨_, a, b, _, .inl ⟨rfl, rfl⟩, fun _ => rfl, fun m => by simp [branches, Relation.onWords, BitVec.slt]⟩
  | gt => exact ⟨_, b, a, _, .inr ⟨rfl, rfl⟩, fun _ => rfl, fun m => by simp [branches, Relation.onWords, BitVec.slt]⟩
  | ne => exact ⟨_, a, b, _, .inl ⟨rfl, rfl⟩, fun _ => rfl, fun m => by simp [branches, Relation.onWords]⟩
  | le =>
    exact ⟨_, b, a, _, .inr ⟨rfl, rfl⟩, fun _ => rfl, fun m => by
      simp [branches, Relation.onWords, BitVec.sle_eq_not_slt, BitVec.slt]⟩
  | ge =>
    exact ⟨_, a, b, _, .inl ⟨rfl, rfl⟩, fun _ => rfl, fun m => by
      simp [branches, Relation.onWords, BitVec.sle_eq_not_slt, BitVec.slt]⟩
  | eq => exact ⟨_, a, b, _, .inl ⟨rfl, rfl⟩, fun _ => rfl, fun m => by simp [branches, Relation.onWords]⟩

end Machine

end SmallC
