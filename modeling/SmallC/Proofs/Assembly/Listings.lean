import Mathlib
import SmallC.Assembly.Reader
import SmallC.Proofs.Program.Resolution

/-!
Listings are assembly text. Every entry of a listing is cut into the words it was written with: its label, its
mnemonic and its operands. Reading the words gives the instruction back, so that the reader of assembly blocks
accepts every listing and returns what was listed, no-ops that anchor labels included. What targets resolved to
is not written and so is lost.
-/
namespace SmallC

/-! ### Numbers -/

namespace Numeral

variable {cs : List Char} {c : Char}

theorem digit?_of_isDigit (digit : c.isDigit = true) : digit? 10 c = some (c.toNat - '0'.toNat) := by
  have bounds : '0' ≤ c ∧ c ≤ '9' := by simpa [Char.isDigit, Char.le_def] using digit
  have upper : c.toNat ≤ 57 := UInt32.le_iff_toNat_le.1 (Char.le_def.1 bounds.2)
  have small : c.toNat - '0'.toNat < 10 := by
    change c.toNat - 48 < 10
    omega
  rw [digit?, if_pos bounds, Option.filter_some, if_pos (by simpa using small)]

theorem accumulate_of_digits (digits : ∀ c ∈ cs, c.isDigit = true) (value : Nat) :
    accumulate 10 value cs = some (Nat.ofDigitChars 10 cs value) := by
  induction cs generalizing value with
  | nil => rfl
  | cons c rest ih =>
    rw [accumulate, digit?_of_isDigit (digits c List.mem_cons_self), Option.bind_some,
      ih fun d member => digits d (List.mem_cons_of_mem c member), Nat.ofDigitChars_cons, Nat.mul_comm]

/-- The decimal digits of a number are a digit and further digits. -/
theorem toDigits_eq_cons (n : Nat) :
    ∃ c rest, Nat.toDigits 10 n = c :: rest ∧ ∀ d ∈ c :: rest, d.isDigit = true := by
  cases shown : Nat.toDigits 10 n with
  | nil => exact absurd shown Nat.toDigits_ne_nil
  | cons c rest =>
    refine ⟨c, rest, rfl, fun d member => ?_⟩
    rw [← shown] at member
    exact Nat.isDigit_of_mem_toDigits (b := 10) (by decide) (by decide) member

theorem signed?_toDigits (n : Nat) : signed? 10 (Nat.toDigits 10 n) = some (n : Int) := by
  obtain ⟨c, rest, shown, digits⟩ := toDigits_eq_cons n
  have value := accumulate_of_digits digits 0
  rw [← shown, Nat.ofDigitChars_ten_toDigits] at value
  have first := digits c List.mem_cons_self
  rw [shown] at value ⊢
  have noMinus : c ≠ '-' := by rintro rfl; cases first
  have noPlus : c ≠ '+' := by rintro rfl; cases first
  simp [signed?, unsigned?, natural?, noMinus, noPlus, value]

end Numeral

namespace Assembly

theorem magnitude?_toDigits (n : Nat) : magnitude? (Nat.toDigits 10 n) = some (n : Int) := by
  have value := Numeral.signed?_toDigits n
  unfold magnitude?
  split
  · next digits same =>
    -- No decimal numeral starts like a hexadecimal one.
    have letter := Nat.isDigit_of_mem_toDigits (n := n) (c := 'x') (b := 10) (by decide) (by decide)
      (by rw [same]; simp)
    cases letter
  · exact value

/-- A number is read as it is written. -/
theorem integer?_repr {n : Int} (fits : FitsSigned 32 n) : integer? n.repr.toList = some n := by
  have digits : ∀ k : Nat, k.repr.toList = Nat.toDigits 10 k := fun k => Nat.toList_repr
  rw [Int.repr_eq_if]
  split
  · next natural =>
    have value := magnitude?_toDigits n.toNat
    obtain ⟨c, rest, shown, all⟩ := Numeral.toDigits_eq_cons n.toNat
    have noMinus : c ≠ '-' := by
      rintro rfl
      cases all _ List.mem_cons_self
    rw [digits]
    rw [shown] at value ⊢
    simp [integer?, noMinus, value, natural, fits]
  · next negative =>
    rw [String.toList_append, digits]
    have back : (-n).toNat = -n := by omega
    simp [integer?, magnitude?_toDigits, back, fits]

/-! ### What a word is made of -/

/-- Whether a character stands between words. -/
def isGap (c : Char) : Bool := Blank.isBlank c || c = ','

/-- Whether a character can stand in a word that no comment cuts off. -/
def isWordChar (c : Char) : Bool := !isGap c && c ≠ '#'

/-- A text that is cut into nothing but itself. -/
def IsWord (cs : List Char) : Prop := cs ≠ [] ∧ ∀ c ∈ cs, isWordChar c = true

variable {cs ds : List Char} {c : Char} {found others texts : List String}

theorem isWordChar_of_bounds (lower : 45 ≤ c.toNat) (upper : c.toNat ≤ 127) : isWordChar c = true := by
  have noComma : c ≠ ',' := by rintro rfl; revert lower; decide
  have noHash : c ≠ '#' := by rintro rfl; revert lower; decide
  have noBlank : Blank.isBlank c = false := by
    simp [Blank.isBlank]
    omega
  simp [isWordChar, isGap, noBlank, noComma, noHash]

theorem isWordChar_of_isDigit (digit : c.isDigit = true) : isWordChar c = true := by
  simp only [Char.isDigit, Bool.and_eq_true, decide_eq_true_eq, ge_iff_le, UInt32.le_iff_toNat_le] at digit
  have lower : 48 ≤ c.toNat := digit.1
  have upper : c.toNat ≤ 57 := digit.2
  exact isWordChar_of_bounds (by omega) (by omega)

theorem isWordChar_of_continuesIdentifier (continues : continuesIdentifier c = true) : isWordChar c = true := by
  simp only [continuesIdentifier, Char.isAlphanum, Bool.or_eq_true, decide_eq_true_eq] at continues
  rcases continues with (letter | digit) | rfl
  · simp only [Char.isAlpha, Char.isUpper, Char.isLower, Bool.or_eq_true, Bool.and_eq_true, decide_eq_true_eq,
      ge_iff_le, UInt32.le_iff_toNat_le] at letter
    have bounds : 65 ≤ c.toNat ∧ c.toNat ≤ 90 ∨ 97 ≤ c.toNat ∧ c.toNat ≤ 122 := letter
    exact isWordChar_of_bounds (by omega) (by omega)
  · exact isWordChar_of_isDigit digit
  · decide

/-- An identifier is one word. -/
theorem isWord_of_isIdentifier (name : isIdentifier cs = true) : IsWord cs := by
  cases cs with
  | nil => cases name
  | cons first rest =>
    simp only [isIdentifier, Bool.and_eq_true, List.all_eq_true] at name
    have start : continuesIdentifier first = true := by
      have := name.1
      simp only [startsIdentifier, Bool.or_eq_true, decide_eq_true_eq] at this
      simp only [continuesIdentifier, Char.isAlphanum, Bool.or_eq_true, decide_eq_true_eq]
      tauto
    exact ⟨List.cons_ne_nil first rest, List.forall_mem_cons.2
      ⟨isWordChar_of_continuesIdentifier start, fun c member =>
        isWordChar_of_continuesIdentifier (name.2 c member)⟩⟩

/-- A label is one word. -/
theorem isWord_of_isLabel (label : isLabel cs = true) : IsWord cs := by
  obtain ⟨shown, name⟩ := isWord_of_isIdentifier label
  rw [← List.takeWhile_append_dropWhile (p := fun c => decide (c = '.')) (l := cs)]
  refine ⟨List.append_ne_nil_of_right_ne_nil _ shown, List.forall_mem_append.2 ⟨fun c member => ?_, name⟩⟩
  have dot : c = '.' := by simpa using List.mem_takeWhile_imp member
  rw [dot]
  decide

/-- A natural number is one word. -/
theorem isWord_repr_natural (n : Nat) : IsWord n.repr.toList := by
  rw [Nat.toList_repr]
  exact ⟨Nat.toDigits_ne_nil, fun c member =>
    isWordChar_of_isDigit (Nat.isDigit_of_mem_toDigits (by decide) (by decide) member)⟩

theorem IsWord.cons (first : isWordChar c = true) (rest : IsWord cs) : IsWord (c :: cs) :=
  ⟨List.cons_ne_nil c cs, List.forall_mem_cons.2 ⟨first, rest.2⟩⟩

theorem isWord_repr (n : Int) : IsWord n.repr.toList := by
  rw [Int.repr_eq_if]
  split
  · exact isWord_repr_natural _
  · rw [String.toList_append]
    exact (isWord_repr_natural _).cons (c := '-') (by decide)

theorem isWord_register (r : Reg) : IsWord r.text.toList := by
  rw [show r.text = "$" ++ r.index.val.repr from rfl, String.toList_append]
  exact (isWord_repr_natural _).cons (c := '$') (by decide)

theorem IsWord.append (first : IsWord cs) (second : IsWord ds) : IsWord (cs ++ ds) :=
  ⟨List.append_ne_nil_of_left_ne_nil first.1 ds, List.forall_mem_append.2 ⟨first.2, second.2⟩⟩

theorem isWord_singleton (char : isWordChar c = true) : IsWord [c] :=
  ⟨List.cons_ne_nil c [], List.forall_mem_singleton.2 char⟩

theorem isWord_memory (offset : Int) (base : Reg) :
    IsWord (offset.repr ++ "(" ++ base.text ++ ")").toList := by
  simp only [String.toList_append]
  have opening : IsWord "(".toList := isWord_singleton (by decide)
  have closing : IsWord ")".toList := isWord_singleton (by decide)
  exact (((isWord_repr offset).append opening).append (isWord_register base)).append closing

/-! ### Cutting a text into words -/

/-- The words of a text, given as its characters. -/
def cut (cs : List Char) : List String := Blank.words isGap (withoutComments false cs)

/-- The characters are cut into those words, whatever stands behind them. -/
def Spells (cs : List Char) (found : List String) : Prop :=
  ∀ rest, cut (cs ++ rest) = found ++ cut rest

theorem withoutComments_append (clean : ∀ c ∈ cs, c ≠ '#') (rest : List Char) :
    withoutComments false (cs ++ rest) = cs ++ withoutComments false rest := by
  induction cs with
  | nil => rfl
  | cons c cs ih =>
    have others := ih fun d member => clean d (List.mem_cons_of_mem c member)
    rw [List.cons_append, withoutComments.eq_def]
    split
    · contradiction
    -- A line break would end a comment, but none is open.
    · next same =>
      cases same
      rw [others]
      rfl
    · next same =>
      cases same
      rw [others]
      simp [clean c List.mem_cons_self]

theorem wordsFrom_append (apart : ∀ c ∈ cs, isGap c = false) (word rest : List Char) :
    Blank.wordsFrom isGap word (cs ++ rest) = Blank.wordsFrom isGap (cs.reverse ++ word) rest := by
  induction cs generalizing word with
  | nil => rfl
  | cons c cs ih =>
    rw [List.cons_append, Blank.wordsFrom, apart c List.mem_cons_self, if_neg Bool.false_ne_true,
      ih fun d member => apart d (List.mem_cons_of_mem c member)]
    simp

namespace Spells

theorem nil : Spells [] [] := fun _ => rfl

theorem append (first : Spells cs found) (second : Spells ds others) : Spells (cs ++ ds) (found ++ others) := by
  intro rest
  rw [List.append_assoc, first, second, List.append_assoc]

theorem flatMap {α : Type} {l : List α} {written : α → List Char} {read : α → List String}
    (each : ∀ x ∈ l, Spells (written x) (read x)) : Spells (l.flatMap written) (l.flatMap read) := by
  induction l with
  | nil => exact nil
  | cons x l ih =>
    rw [List.flatMap_cons, List.flatMap_cons]
    exact (each x List.mem_cons_self).append (ih fun y member => each y (List.mem_cons_of_mem x member))

/-- A gap is no word. -/
theorem gap (gap : isGap c = true) (clean : c ≠ '#') : Spells [c] [] := by
  intro rest
  have kept : withoutComments false ([c] ++ rest) = [c] ++ withoutComments false rest :=
    withoutComments_append (by simpa using clean) rest
  rw [cut, kept]
  simp [cut, Blank.words, Blank.wordsFrom, gap, Blank.closeWord]

/-- A word ends where a gap begins. -/
theorem word (word : IsWord cs) (gap : isGap c = true) (clean : c ≠ '#') :
    Spells (cs ++ [c]) [String.ofList cs] := by
  intro rest
  have chars : ∀ d ∈ cs, isGap d = false ∧ d ≠ '#' := fun d member => by
    simpa [isWordChar] using word.2 d member
  have noComment : ∀ d ∈ cs ++ [c], d ≠ '#' :=
    List.forall_mem_append.2 ⟨fun d member => (chars d member).2, List.forall_mem_singleton.2 clean⟩
  rw [cut, withoutComments_append noComment, Blank.words, List.append_assoc,
    wordsFrom_append fun d member => (chars d member).1]
  simp [Blank.wordsFrom, gap, Blank.closeWord, word.1, cut, Blank.words]

/-- Operands are read off a line one by one. -/
theorem operands (some : texts ≠ []) (words : ∀ t ∈ texts, IsWord t.toList) :
    Spells ((String.intercalate ", " texts).toList ++ ['\n']) texts := by
  induction texts with
  | nil => contradiction
  | cons text rest ih =>
    have head := words text List.mem_cons_self
    cases rest with
    | nil =>
      rw [String.intercalate_singleton]
      simpa using word head (c := '\n') (by decide) (by decide)
    | cons second rest =>
      have last := ih (by simp) fun t member => words t (List.mem_cons_of_mem text member)
      have first := (word head (c := ',') (by decide) (by decide)).append
        ((gap (c := ' ') (by decide) (by decide)).append last)
      simpa [String.intercalate_cons_cons, String.toList_append] using first

end Spells

end Assembly

/-! ### What a listing is made of -/

namespace MachineInstr

/-- The operands of the instruction as assembly listings write them. -/
def operandTexts : MachineInstr → List String
  | .alu _ rd rs rt => [rd.text, rs.text, rt.text]
  | .shift _ rd rs amount => [rd.text, rs.text, (amount : Int).repr]
  | .addi rd rs imm => [rd.text, rs.text, imm.repr]
  | .sw rd base offset => [rd.text, offset.repr ++ "(" ++ base.text ++ ")"]
  | .lw rd base offset => [rd.text, offset.repr ++ "(" ++ base.text ++ ")"]
  | .branch _ rd rs target => [rd.text, rs.text, target.label]
  | .jump _ target => [target.label]
  | .jr rd => [rd.text]
  | .setx value => [value.repr]
  | .testlog rd => [rd.text]

theorem text_eq (i : MachineInstr) : i.text = i.mnemonic ++ " " ++ String.intercalate ", " i.operandTexts := by
  cases i <;> simp [text, operandTexts, String.intercalate_cons_cons, String.intercalate_singleton, toString,
    String.append_assoc, Int.repr_eq_if]

end MachineInstr

namespace Instr

variable {R L : Type}

/-- What names the instruction. -/
def kind : Instr R L → Mnemonic
  | .alu op .. => .alu op
  | .shift op .. => .shift op
  | .addi .. => .addi
  | .sw .. => .sw
  | .lw .. => .lw
  | .branch op .. => .branch op
  | .jump op _ => .jump op
  | .jr _ => .jr
  | .setx _ => .setx
  | .testlog _ => .testlog

theorem ofText?_mnemonic (i : Instr R L) : Mnemonic.ofText? i.mnemonic = some i.kind := by
  cases i with
  | alu op | shift op | branch op | jump op => cases op <;> rfl
  | _ => rfl

/-- The shift amount of the instruction, if it has one. -/
def amount? : Instr R L → Option Nat
  | .shift _ _ _ amount => some amount
  | _ => none

/-- The number that the instruction carries, if it carries one: an immediate or an offset. -/
def immediate? : Instr R L → Option Int
  | .addi _ _ imm => some imm
  | .sw _ _ offset => some offset
  | .lw _ _ offset => some offset
  | .setx value => some value
  | _ => none

end Instr

/-- What makes an entry expressible in assembly text: its labels are labels there, it shifts by less than a word and
its number fits in a word. -/
structure Entry.Writable (e : Entry) : Prop where
  label : ∀ label ∈ e.label, Assembly.isLabel label.toList = true
  target : ∀ target ∈ e.instr.target?, Assembly.isLabel target.label.toList = true
  amount : ∀ amount ∈ e.instr.amount?, amount < 32
  number : ∀ n ∈ e.instr.immediate?, FitsSigned 32 n

namespace Entry

variable {e : Entry}

/-- The words that the entry is written with. -/
def words (e : Entry) : List String :=
  (e.label.map fun label => label ++ ":").toList ++ e.instr.mnemonic :: e.instr.operandTexts

/-- The line that the entry is read back as. -/
def line (e : Entry) : AsmLine := ⟨e.label, some (e.instr.rename (m := Id) Operand.reg Target.label)⟩

theorem isWord_operand (writable : e.Writable) : ∀ t ∈ e.instr.operandTexts, Assembly.IsWord t.toList := by
  obtain ⟨-, target, -, -⟩ := writable
  cases found : e.instr <;> rw [found] at target <;>
    simp only [MachineInstr.operandTexts, List.forall_mem_cons, List.not_mem_nil, false_implies, implies_true,
      and_true, Assembly.isWord_register, Assembly.isWord_repr, Assembly.isWord_memory, true_and]
  case branch => exact Assembly.isWord_of_isLabel (target _ rfl)
  case jump => exact Assembly.isWord_of_isLabel (target _ rfl)

end Entry

namespace Assembly

variable {e : Entry} {es : List Entry}

/-- Every spelling is an identifier. -/
theorem spellings_identifiers : ∀ s ∈ Mnemonic.spellings, isIdentifier s.1.toList = true := by decide

/-- A mnemonic is one word. -/
theorem isWord_mnemonic (i : MachineInstr) : IsWord i.mnemonic.toList := by
  obtain ⟨before, after, spellings, -⟩ := List.lookup_eq_some_iff.1 i.ofText?_mnemonic
  exact isWord_of_isIdentifier (spellings_identifiers (i.mnemonic, i.kind) (by simp [spellings]))

theorem spells_instruction (writable : e.Writable) :
    Spells ("  " ++ e.instr.text ++ "\n").toList (e.instr.mnemonic :: e.instr.operandTexts) := by
  have indent := Spells.gap (c := ' ') (by decide) (by decide)
  have mnemonic := Spells.word (isWord_mnemonic e.instr) (c := ' ') (by decide) (by decide)
  have some : e.instr.operandTexts ≠ [] := by cases e.instr <;> simp [MachineInstr.operandTexts]
  have operands := Spells.operands some (Entry.isWord_operand writable)
  have line := indent.append (indent.append (mnemonic.append operands))
  simpa [MachineInstr.text_eq, String.toList_append] using line

/-- The lines of an entry are cut into its words. -/
theorem spells_entry (writable : e.Writable) :
    Spells (e.lines.flatMap fun line => (line ++ "\n").toList) e.words := by
  have instr := spells_instruction writable
  obtain ⟨label, i⟩ := e
  cases label with
  | none => simpa [Entry.lines, Entry.words, toString] using instr
  | some label =>
    have name := isWord_of_isLabel (writable.label label rfl)
    have word := name.append (isWord_singleton (c := ':') (by decide))
    have shown := Spells.word word (c := '\n') (by decide) (by decide)
    simpa [Entry.lines, Entry.words, toString, String.ofList_append] using shown.append instr

/-- A listing is cut into the words of its entries. -/
theorem words_listing (writable : ∀ e ∈ es, e.Writable) : words (listing es) = es.flatMap Entry.words := by
  have all := Spells.flatMap (fun e member => spells_entry (writable e member)) []
  rw [List.append_nil, show cut [] = [] from rfl, List.append_nil] at all
  have chars : (listing es).toList = es.flatMap fun e => e.lines.flatMap fun line => (line ++ "\n").toList := by
    simp [listing, listingLines, String.toList_join, List.flatMap_map, List.flatMap_assoc]
  change cut (listing es).toList = _
  rw [chars, all]

/-! ### Reading back -/

theorem operand_text : ∀ r : Reg, operand r.text = .ok (.reg r) := by
  rintro ⟨i⟩
  revert i
  decide

theorem immediate_repr {n : Int} (fits : FitsSigned 32 n) : immediate n.repr = .ok n := by
  rw [immediate, integer?_repr fits]

theorem shiftAmount_repr {n : Nat} (small : n < 32) : shiftAmount (n : Int).repr = .ok n := by
  have fits : FitsSigned 32 (n : Int) := by
    simp only [FitsSigned, signedBound, Nat.pow_eq]
    omega
  rw [shiftAmount, immediate_repr fits]
  change (if 0 ≤ (n : Int) ∧ (n : Int) < 32 then _ else _) = _
  rw [if_pos (by omega)]
  rfl

theorem labelReference_label {label : String} (valid : isLabel label.toList = true) :
    labelReference label = .ok label := by
  rw [labelReference, if_pos valid]

theorem isOffset_repr (n : Int) : ∀ c ∈ n.repr.toList, c ≠ '(' := by
  rintro c member rfl
  rw [Int.repr_eq_if] at member
  have noDigit : ∀ k : Nat, '(' ∉ Nat.toDigits 10 k := fun k member => by
    cases Nat.isDigit_of_mem_toDigits (by decide) (by decide) member
  split at member
  · exact noDigit _ (by simpa using member)
  · exact noDigit (-n).toNat (by simpa using member)

theorem memory_text {offset : Int} (fits : FitsSigned 32 offset) (base : Reg) :
    memory (offset.repr ++ "(" ++ base.text ++ ")") = .ok (offset, .reg base) := by
  have shown : (offset.repr ++ "(" ++ base.text ++ ")").toList =
      offset.repr.toList ++ '(' :: (base.text.toList ++ [')']) := by
    simp [String.toList_append]
  have all : ∀ c ∈ offset.repr.toList, decide (c ≠ '(') = true := by simpa using isOffset_repr offset
  have stop : ∀ rest : List Char, List.takeWhile (fun c => decide (c ≠ '(')) ('(' :: rest) = [] := by simp
  have noDrop : ∀ rest : List Char,
      List.dropWhile (fun c => decide (c ≠ '(')) ('(' :: rest) = '(' :: rest := by simp
  have some : offset.repr.toList.isEmpty = false := List.isEmpty_eq_false_iff.2 (isWord_repr offset).1
  have inner : parenthesised? ('(' :: (base.text.toList ++ [')'])) = Option.some base.text.toList := by
    simp [parenthesised?]
  simp only [memory, shown, List.takeWhile_append_of_pos all, List.dropWhile_append_of_pos all, stop, noDrop, inner,
    List.append_nil, some, integer?_repr fits, String.ofList_toList, operand_text]
  rfl

theorem next_of_read {α : Type} {text : String} {read : String → Except AsmFault α} {v : α}
    (ok : read text = .ok v) (word : String) (rest : List String) :
    (next word read).run (text :: rest) = pure (v, rest) := by
  simp [next, ok]
  rfl

theorem next_register (r : Reg) (word : String) (rest : List String) :
    (next word operand).run (r.text :: rest) = pure (.reg r, rest) :=
  next_of_read (operand_text r) word rest

/-- The operands of a written instruction are read as they were written. -/
theorem instruction_operandTexts (writable : e.Writable) (word : String) :
    (instruction word e.instr.kind).run' e.instr.operandTexts = .ok e.line.instr := by
  obtain ⟨-, target, amount, number⟩ := writable
  unfold Entry.line
  generalize e.instr = i at *
  cases i with
  | shift op rd rs n =>
    have small := next_of_read (shiftAmount_repr (amount n rfl)) word []
    simp [Instr.kind, MachineInstr.operandTexts, instruction, next_register, small, Instr.rename]
    rfl
  | addi rd rs n =>
    have fits := next_of_read (immediate_repr (number n rfl)) word []
    simp [Instr.kind, MachineInstr.operandTexts, instruction, next_register, fits, Instr.rename]
    rfl
  | setx n =>
    have fits := next_of_read (immediate_repr (number n rfl)) word []
    simp [Instr.kind, MachineInstr.operandTexts, instruction, fits, Instr.rename]
    rfl
  | sw rd base n | lw rd base n =>
    have access := next_of_read (memory_text (number n rfl) base) word []
    simp [Instr.kind, MachineInstr.operandTexts, instruction, next_register, access, Instr.rename]
    rfl
  | branch op rd rs t | jump op t =>
    have valid := next_of_read (labelReference_label (target t rfl)) word []
    simp [Instr.kind, MachineInstr.operandTexts, instruction, next_register, valid, Instr.rename]
    rfl
  | alu op rd rs rt | jr rd | testlog rd =>
    simp [Instr.kind, MachineInstr.operandTexts, instruction, next_register, Instr.rename]
    rfl

theorem definition?_mnemonic (i : MachineInstr) : definition? i.mnemonic = none := by
  have noColon : ∀ s ∈ Mnemonic.spellings, definition? s.1 = none := by decide
  obtain ⟨before, after, spellings, -⟩ := List.lookup_eq_some_iff.1 i.ofText?_mnemonic
  exact noColon (i.mnemonic, i.kind) (by simp [spellings])

theorem definition?_label (label : String) : definition? (label ++ ":") = some label.toList := by
  simp [definition?]

theorem length_operandTexts (i : MachineInstr) : i.operandTexts.length = i.kind.arity := by
  cases i <;> rfl

/-- A written instruction is read together with the label that waits for it. -/
theorem linesFrom_instruction (writable : e.Writable) (pending : Option String) (rest : List String) :
    linesFrom pending (e.instr.mnemonic :: e.instr.operandTexts ++ rest) =
      (linesFrom none rest).map (⟨pending, e.line.instr⟩ :: ·) := by
  have taken : (e.instr.operandTexts ++ rest).take e.instr.kind.arity = e.instr.operandTexts := by
    rw [← length_operandTexts, List.take_left]
  have dropped : (e.instr.operandTexts ++ rest).drop e.instr.kind.arity = rest := by
    rw [← length_operandTexts, List.drop_left]
  rw [List.cons_append, linesFrom.eq_def]
  simp only [definition?_mnemonic, Instr.ofText?_mnemonic, taken, dropped, instruction_operandTexts writable]
  cases linesFrom none rest <;> rfl

/-- The words of a written entry are read as one line. -/
theorem linesFrom_entry (writable : e.Writable) (rest : List String) :
    linesFrom none (e.words ++ rest) = (linesFrom none rest).map (e.line :: ·) := by
  obtain ⟨label, i⟩ := e
  cases label with
  | none => exact linesFrom_instruction writable none rest
  | some label =>
    have valid := writable.label label rfl
    -- The label's own word only sets it aside for the instruction behind it.
    have instr := linesFrom_instruction writable (some label) rest
    have first : Entry.words ⟨some label, i⟩ = (label ++ ":") :: i.mnemonic :: i.operandTexts := rfl
    rw [first, List.cons_append, linesFrom.eq_def]
    simp only [definition?_label, valid, if_true, String.ofList_toList]
    rw [instr]
    cases linesFrom none rest <;> rfl

theorem linesFrom_entries (writable : ∀ e ∈ es, e.Writable) :
    linesFrom none (es.flatMap Entry.words) = .ok (es.map Entry.line) := by
  induction es with
  | nil => rw [List.flatMap_nil, linesFrom, Option.toList_none, List.map_nil, List.map_nil]
  | cons e es ih =>
    rw [List.flatMap_cons, linesFrom_entry (writable e List.mem_cons_self),
      ih fun e' member => writable e' (List.mem_cons_of_mem e member)]
    rfl

end Assembly

/-- The entry that a line stands for when its registers are taken as they are written and its labels as they are. -/
def AsmLine.entry? (l : AsmLine) : Option Entry := (l.lower Operand.reg? id).map fun instr => ⟨l.label, instr⟩

theorem Entry.entry?_line (e : Entry) : e.line.entry? = some e.unlinked := by
  obtain ⟨label, i⟩ := e
  cases i <;> rfl

/-- A listing is assembly text: it is read, and as the entries that it lists. -/
theorem read_listing (es : List Entry) (writable : ∀ e ∈ es, e.Writable) :
    ∃ lines, Assembly.read (listing es) = .ok lines ∧
      lines.mapM AsmLine.entry? = some (es.map Entry.unlinked) := by
  refine ⟨es.map Entry.line, ?_, ?_⟩
  · rw [Assembly.read, Assembly.words_listing writable, Assembly.linesFrom_entries writable]
  · have back : AsmLine.entry? ∘ Entry.line = pure ∘ Entry.unlinked := funext Entry.entry?_line
    rw [List.mapM_map, back]
    exact List.mapM_pure

/-- A labelled no-op, the least and the greatest number, a shift by all but one bit and a resolved branch back to a
label behind dots all survive. -/
theorem read_listing_of_extremes :
    let es : List Entry :=
      [.labeled "..again" MachineInstr.noop, .plain (.addi ⟨8⟩ ⟨0⟩ (-2147483648)),
        .plain (.sw ⟨8⟩ Reg.stackPointer (-1)), .plain (.shift .sra ⟨9⟩ ⟨8⟩ 31), .plain (.setx 2147483647),
        .plain (.branch .blt ⟨9⟩ ⟨8⟩ ⟨"..again", some (-6)⟩)]
    ∃ lines, Assembly.read (listing es) = .ok lines ∧ lines.mapM AsmLine.entry? = some (es.map Entry.unlinked) := by
  refine read_listing _ ?_
  simp only [List.forall_mem_cons, List.not_mem_nil, false_implies, implies_true, and_true]
  refine ⟨?_, ?_, ?_, ?_, ?_, ?_⟩ <;> exact ⟨by decide, by decide, by decide, by decide⟩

end SmallC
