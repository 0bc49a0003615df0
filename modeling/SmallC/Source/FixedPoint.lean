import SmallC.Text.Numeral

/-!
Fixed-point numbers. A number of type `float` or `double` is a word that counts units of 2^-16. A
decimal literal is first rounded to 53 significant bits, half to even, then scaled and cut towards
zero, and it saturates at the ends of the word range. Written back, a fixed-point number shows the
fewest decimal places that still round to the same 53 bits; of two decimals as near it shows the one
further from zero.
-/
namespace SmallC.FixedPoint

/-- Fractional bits of a fixed-point number. -/
def fractionBits : Nat := 16

/-- The number one as a fixed-point number. -/
def one : Int := 65536

/-- A number times a power of two. -/
def shiftUp (n exponent : Nat) : Nat := n * Nat.pow 2 exponent

/-- A number times a power of ten. -/
def shiftPoint (n places : Nat) : Nat := n * Nat.pow 10 places

/-- Significant bits that a decimal literal is rounded to. -/
def significantBits : Nat := 53

/-- The exponent of the greatest power of two that is at most a positive quotient. -/
def floorLog (num den : Nat) : Int :=
  let guess := (num.log2 : Int) - den.log2
  let reached := if guess ≥ 0 then shiftUp den guess.toNat ≤ num else den ≤ shiftUp num (-guess).toNat
  if reached then guess else guess - 1

/-- The quotient rounded to the nearest integer, half to even. -/
def roundHalfEven (num den : Nat) : Nat :=
  let q := num / den
  let twice := 2 * (num % den)
  if twice < den then q
  else if den < twice then q + 1
  else if q % 2 = 0 then q else q + 1

/-- A quotient times a power of two, as a quotient. -/
def scale (num den : Nat) (exponent : Int) : Nat × Nat :=
  if exponent ≥ 0 then (shiftUp num exponent.toNat, den) else (num, shiftUp den (-exponent).toNat)

/-- The magnitude of a fixed-point number for a quotient: round to 53 bits, scale, cut. -/
def magnitude (num den : Nat) : Nat :=
  if num = 0 then 0 else
    let exponent := (significantBits : Int) - 1 - floorLog num den
    let (scaled, unit) := scale num den exponent
    let (value, divisor) := scale (roundHalfEven scaled unit) 1 (fractionBits - exponent)
    value / divisor

/-- The word range ends here. -/
def saturate (negative : Bool) (n : Nat) : Int :=
  if negative then -(min n 2147483648 : Nat) else (min n 2147483647 : Nat)

/-- Digits around a decimal point, as a numerator over a power of ten; there is at least one digit. -/
def quotient? (cs : List Char) : Option (Nat × Nat) :=
  let isWhole : Char → Bool := fun c => c ≠ '.'
  let whole := cs.takeWhile isWhole
  let fraction := (cs.dropWhile isWhole).drop 1
  (Numeral.natural? 10 (whole ++ fraction)).map fun n => (n, shiftPoint 1 fraction.length)

/-- The fixed-point number for a decimal literal, which may carry a sign. -/
def ofDecimal? (text : String) : Option Int :=
  let (negative, digits) :=
    match text.toList with
    | '-' :: digits => (true, digits)
    | '+' :: digits => (false, digits)
    | digits => (false, digits)
  (quotient? digits).map fun (num, den) => saturate negative (magnitude num den)

/-- The quotient rounded to the nearest integer, half up. -/
def roundHalfUp (num den : Nat) : Nat := (2 * num + den) / (2 * den)

/-- The decimal with the given places that is nearest to a magnitude, in units of its last place. -/
def nearest (n places : Nat) : Nat :=
  roundHalfUp (shiftPoint n places) (shiftUp 1 fractionBits)

/-- Whether the nearest decimal with the given places rounds back to the same 53 bits. -/
def readsBack (n places : Nat) : Bool :=
  let exact := shiftPoint n places
  let approximate := shiftUp (nearest n places) fractionBits
  let distance := max exact approximate - min exact approximate
  shiftUp distance significantBits ≤ shiftPoint (shiftUp 1 n.log2) places

/-- The fewest decimal places that read back; sixteen places write every fixed-point number exactly. -/
def places (n : Nat) : Nat :=
  ((List.range fractionBits).find? (readsBack n)).getD fractionBits

/-- A fixed-point number in decimal. A whole number has no point. -/
def text (n : Int) : String :=
  let count := places n.natAbs
  let units := nearest n.natAbs count
  let whole := s!"{units / shiftPoint 1 count}"
  let fraction := Nat.toDigits 10 (units % shiftPoint 1 count)
  let sign := if n < 0 then "-" else ""
  if count = 0 then sign ++ whole
  else
    let padding := List.replicate (count - fraction.length) '0'
    sign ++ whole ++ "." ++ String.ofList (padding ++ fraction)

end SmallC.FixedPoint
