import SmallC.Assembly.Line
import SmallC.Machine.Word
import SmallC.Text.Blank

/-!
Reading inline assembly. A text is cut into words at blanks and commas, after what follows a hash
sign on each line is dropped; line breaks mean nothing else. A word that ends in a colon is a label,
and every other word is a mnemonic followed by as many operands as it takes.
-/
namespace SmallC

/-- Why a text is not inline assembly. -/
inductive AsmFault where
  | missingOperand (mnemonic : String)
  | unknownRegister (text : String)
  | notRegister (text : String)
  | invalidImmediate (text : String)
  | invalidMemory (text : String)
  | invalidOffset (text : String)
  | invalidLabel (name : String)
  | shiftOutOfRange (amount : Int)
  | unknownInstruction (text : String)
  deriving DecidableEq, Repr

/-- The wording of a fault in inline assembly. -/
def AsmFault.message : AsmFault → String
  | missingOperand mnemonic => s!"{mnemonic} is missing an operand"
  | unknownRegister text => s!"unknown register {text}"
  | notRegister text => s!"expected a register or (variable), found {text}"
  | invalidImmediate text => s!"invalid immediate {text}"
  | invalidMemory text => s!"invalid memory access {text}"
  | invalidOffset text => s!"invalid offset {text}"
  | invalidLabel name => s!"invalid label {name}"
  | shiftOutOfRange amount => s!"shift amount {amount} out of range"
  | unknownInstruction text => s!"unknown instruction {text}"

/-- What a word can name as an instruction. -/
inductive Mnemonic where
  | alu (op : AluOp)
  | shift (op : ShiftOp)
  | addi | lw | sw
  | branch (op : BranchOp)
  | jump (op : JumpOp)
  | jr | setx | testlog | noop
  deriving DecidableEq, Repr

namespace Mnemonic

/-- Every spelling of every mnemonic. -/
def spellings : List (String × Mnemonic) :=
  [("add", alu .add), ("sub", alu .sub), ("and", alu .and), ("or", alu .or), ("mul", alu .mul),
    ("div", alu .div), ("slt", alu .slt), ("sgt", alu .sgt), ("sll", shift .sll),
    ("sra", shift .sra), ("addi", addi), ("lw", lw), ("sw", sw), ("bne", branch .bne),
    ("blt", branch .blt), ("j", jump .j), ("jal", jump .jal), ("bex", jump .bex), ("jr", jr),
    ("setx", setx), ("testlog", testlog), ("print", testlog), ("nop", noop), ("noop", noop)]

/-- The mnemonic that a word spells. -/
def ofText? (word : String) : Option Mnemonic := spellings.lookup word

/-- Number of operands that the mnemonic takes. -/
def arity : Mnemonic → Nat
  | alu _ => 3
  | shift _ => 3
  | addi => 3
  | lw => 2
  | sw => 2
  | branch _ => 3
  | jump _ => 1
  | jr => 1
  | setx => 1
  | testlog => 1
  | noop => 0

end Mnemonic

namespace Assembly

/-- Whether a character can start an identifier. -/
def startsIdentifier (c : Char) : Bool := c.isAlpha || c = '_'

/-- Whether a character can stand inside an identifier. -/
def continuesIdentifier (c : Char) : Bool := c.isAlphanum || c = '_'

/-- Whether a text is an identifier. -/
def isIdentifier : List Char → Bool
  | [] => false
  | c :: rest => startsIdentifier c && rest.all continuesIdentifier

/-- Whether a text is a label: an identifier behind any number of dots. -/
def isLabel (cs : List Char) : Bool :=
  isIdentifier (cs.dropWhile (· = '.'))

/-- Drops what follows a hash sign up to the end of its line. -/
def withoutComments (inComment : Bool) : List Char → List Char
  | [] => []
  | '\n' :: rest => '\n' :: withoutComments false rest
  | c :: rest =>
    if inComment || c = '#' then withoutComments true rest else c :: withoutComments false rest

/-- The words of an assembly text. -/
def words (text : String) : List String :=
  Blank.words (fun c => Blank.isBlank c || c = ',') (withoutComments false text.toList)

/-- Magnitude of a number after its minus sign: hexadecimal behind `0x`, else decimal. The digits
may carry a sign of their own. -/
def magnitude? : List Char → Option Int
  | '0' :: 'x' :: digits => Numeral.signed? 16 digits
  | digits => Numeral.signed? 10 digits

/-- The number that a text writes, if it is a word. -/
def integer? (cs : List Char) : Option Int :=
  let value? :=
    match cs with
    | '-' :: digits => (magnitude? digits).map Neg.neg
    | digits => magnitude? digits
  value?.filter fun n => FitsSigned 32 n

/-- The text between an opening parenthesis at the start and a closing one at the end. -/
def parenthesised? : List Char → Option (List Char)
  | '(' :: rest => if rest.getLast? = some ')' then some rest.dropLast else none
  | _ => none

/-- Reads a register position. -/
def operand (text : String) : Except AsmFault Operand :=
  if text = "$return" then .ok (.reg Reg.result)
  else if text.toList.head? = some '$' then
    match Reg.ofText? text with
    | some r => .ok (.reg r)
    | none => .error (.unknownRegister text)
  else
    match parenthesised? text.toList with
    | some name =>
      if isIdentifier name then .ok (.var (String.ofList name)) else .error (.notRegister text)
    | none => .error (.notRegister text)

/-- Reads an immediate. -/
def immediate (text : String) : Except AsmFault Int :=
  match integer? text.toList with
  | some n => .ok n
  | none => .error (.invalidImmediate text)

/-- Reads a memory operand: an offset, which may be left out, and a base in parentheses. -/
def memory (text : String) : Except AsmFault (Int × Operand) :=
  let isOffset : Char → Bool := fun c => c ≠ '('
  let offset := text.toList.takeWhile isOffset
  match parenthesised? (text.toList.dropWhile isOffset) with
  | none => .error (.invalidMemory text)
  | some base =>
    match if offset.isEmpty then some 0 else integer? offset with
    | none => .error (.invalidOffset (String.ofList offset))
    | some n => (operand (String.ofList base)).map fun base => (n, base)

/-- Reads a label that an instruction refers to. -/
def labelReference (text : String) : Except AsmFault String :=
  if isLabel text.toList then .ok text else .error (.invalidLabel text)

/-- Reads a shift amount. -/
def shiftAmount (text : String) : Except AsmFault Nat := do
  let amount ← immediate text
  if 0 ≤ amount ∧ amount < 32 then return amount.toNat else throw (.shiftOutOfRange amount)

/-- Reading operands one after the other from the words behind a mnemonic. -/
abbrev Operands := StateT (List String) (Except AsmFault)

/-- Reads the next operand with a reader for its kind. -/
def next {α : Type} (mnemonic : String) (read : String → Except AsmFault α) : Operands α := do
  match ← get with
  | [] => throw (.missingOperand mnemonic)
  | text :: rest =>
    set rest
    read text

/-- Reads the operands of an instruction. -/
def instruction (word : String) : Mnemonic → Operands (Option (Instr Operand String))
  | .alu op =>
    return some (.alu op (← next word operand) (← next word operand) (← next word operand))
  | .shift op =>
    return some (.shift op (← next word operand) (← next word operand) (← next word shiftAmount))
  | .addi =>
    return some (.addi (← next word operand) (← next word operand) (← next word immediate))
  | .lw => do
    let rd ← next word operand
    let (offset, base) ← next word memory
    return some (.lw rd base offset)
  | .sw => do
    let rd ← next word operand
    let (offset, base) ← next word memory
    return some (.sw rd base offset)
  | .branch op =>
    return some (.branch op (← next word operand) (← next word operand)
      (← next word labelReference))
  | .jump op => return some (.jump op (← next word labelReference))
  | .jr => return some (.jr (← next word operand))
  | .setx => return some (.setx (← next word immediate))
  | .testlog => return some (.testlog (← next word operand))
  | .noop => return none

/-- The name that a label definition defines. -/
def definition? (word : String) : Option (List Char) :=
  if word.toList.getLast? = some ':' then some word.toList.dropLast else none

/-- Reads the lines of a list of words, given the label that still waits for its instruction. -/
def linesFrom (pending : Option String) : List String → Except AsmFault (List AsmLine)
  | [] => .ok (pending.toList.map AsmLine.anchor)
  | word :: rest =>
    match definition? word with
    | some name => do
      let label := String.ofList name
      if isLabel name then
        return pending.toList.map AsmLine.anchor ++ (← linesFrom (some label) rest)
      else throw (.invalidLabel label)
    | none => do
      match Mnemonic.ofText? word with
      | none => throw (.unknownInstruction word)
      | some mnemonic =>
        let instr ← (instruction word mnemonic).run' (rest.take mnemonic.arity)
        return ⟨pending, instr⟩ :: (← linesFrom none (rest.drop mnemonic.arity))
termination_by words => words.length
decreasing_by all_goals simp; try omega

/-- Reads the text of one assembly block. -/
def read (text : String) : Except AsmFault (List AsmLine) :=
  linesFrom none (words text)

end Assembly

end SmallC
