/-!
Machine words. A word has thirty-two bits and is read as a signed number, so arithmetic on words is
arithmetic on integers brought back into range.
-/
namespace SmallC

/-- The content of a register or of a memory cell. -/
abbrev Word := BitVec 32

/-- One more than the greatest number that a signed field of the given width can hold. -/
def signedBound (bits : Nat) : Nat := Nat.pow 2 (bits - 1)

/-- The integers that a signed field of the given width can hold. -/
def FitsSigned (bits : Nat) (n : Int) : Prop := -(signedBound bits : Int) ≤ n ∧ n < signedBound bits

instance (bits : Nat) (n : Int) : Decidable (FitsSigned bits n) :=
  inferInstanceAs (Decidable (_ ∧ _))

namespace Word

/-- The word that agrees with an integer modulo the word size. -/
def ofInt (n : Int) : Word :=
  BitVec.ofInt 32 n

/-- Shift to the left by the amount modulo the word width. -/
def shiftLeft (w : Word) (amount : Nat) : Word :=
  BitVec.shiftLeft w (amount % 32)

/-- Shift to the right that copies the sign, by the amount modulo the word width. -/
def shiftRight (w : Word) (amount : Nat) : Word :=
  BitVec.sshiftRight w (amount % 32)

/-- The word for a truth value. -/
def ofBool (b : Bool) : Word :=
  if b then 1#32 else 0#32

end Word

end SmallC
