/-!
Written numerals. A numeral is a non-empty run of digits in some radix, and the two readers built on
it differ only in the signs they let stand in front of the digits.
-/
namespace SmallC.Numeral

/-- Value of one digit, letters of either case standing for ten and above. -/
def digit? (radix : Nat) (c : Char) : Option Nat :=
  let value? :=
    if '0' ≤ c ∧ c ≤ '9' then some (c.toNat - '0'.toNat)
    else if 'a' ≤ c ∧ c ≤ 'z' then some (c.toNat - 'a'.toNat + 10)
    else if 'A' ≤ c ∧ c ≤ 'Z' then some (c.toNat - 'A'.toNat + 10)
    else none
  value?.filter (· < radix)

/-- Value of the digits read so far followed by the digits that remain. -/
def accumulate (radix : Nat) : Nat → List Char → Option Nat
  | value, [] => some value
  | value, c :: rest => (digit? radix c).bind fun d => accumulate radix (value * radix + d) rest

/-- Value of a non-empty run of digits. -/
def natural? (radix : Nat) : List Char → Option Nat
  | [] => none
  | digits => accumulate radix 0 digits

/-- A run of digits that may carry a plus sign. -/
def unsigned? (radix : Nat) : List Char → Option Nat
  | '+' :: digits => natural? radix digits
  | digits => natural? radix digits

/-- A run of digits that may carry one sign of either kind. -/
def signed? (radix : Nat) : List Char → Option Int
  | '-' :: digits => (natural? radix digits).map fun n => -(n : Int)
  | digits => (unsigned? radix digits).map Int.ofNat

end SmallC.Numeral
