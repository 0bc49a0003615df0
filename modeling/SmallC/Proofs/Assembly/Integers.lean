import Mathlib
import SmallC.Assembly.Reader

/-!
Numbers in assembly text. A number is written with a minus sign or without, with the mark of its radix, and with digits;
it is read as what the digits stand for at their places, provided that this is a word. The digits may carry a sign of
their own behind the mark, plus or minus, which counts as well, so that two minus signs cancel. Nothing else is read.
-/
namespace SmallC

namespace Numeral

variable {radix value n : Nat} {c : Char} {cs : List Char}

/-- Digits read behind a value are worth what they stand for at their places. -/
theorem accumulate_eq_some_iff : accumulate radix value cs = some n ↔
    ∃ ds, List.Forall₂ (fun c d => digit? radix c = some d) cs ds ∧
      n = value * radix ^ ds.length + Nat.ofDigits radix ds.reverse := by
  induction cs generalizing value with
  | nil =>
    simp only [accumulate, List.forall₂_nil_left_iff, exists_eq_left, Option.some.injEq]
    simp [eq_comm]
  | cons c cs ih =>
    simp only [accumulate, Option.bind_eq_some_iff, ih, List.forall₂_cons_left_iff]
    have place : ∀ d (ds : List Nat), (value * radix + d) * radix ^ ds.length + Nat.ofDigits radix ds.reverse =
        value * radix ^ (d :: ds).length + Nat.ofDigits radix (d :: ds).reverse := by
      intro d ds
      rw [List.reverse_cons, Nat.ofDigits_append, Nat.ofDigits_singleton, List.length_reverse, List.length_cons, pow_succ]
      ring
    constructor
    · rintro ⟨d, read, ds, all, rfl⟩
      exact ⟨d :: ds, ⟨d, ds, read, all, rfl⟩, place d ds⟩
    · rintro ⟨_, ⟨d, ds, read, all, rfl⟩, rfl⟩
      exact ⟨d, read, ds, all, (place d ds).symm⟩

/-- A numeral is some digits. -/
theorem natural?_eq_some_iff : natural? radix cs = some n ↔
    cs ≠ [] ∧ ∃ ds, List.Forall₂ (fun c d => digit? radix c = some d) cs ds ∧ n = Nat.ofDigits radix ds.reverse := by
  cases cs with
  | nil => simp [natural?]
  | cons c cs =>
    rw [natural?, accumulate_eq_some_iff]
    · simp
    · exact List.cons_ne_nil c cs

/-- A sign in front of digits. -/
inductive Sign where
  | none | plus | minus

/-- The sign as it is written. -/
def Sign.text : Sign → List Char
  | none => []
  | plus => ['+']
  | minus => ['-']

/-- What the sign makes of a number. -/
def Sign.apply : Sign → Int → Int
  | minus => Neg.neg
  | _ => id

/-- No digit is a sign. -/
theorem natural?_of_not_digit (noDigit : digit? radix c = none) : natural? radix (c :: cs) = none := by
  rw [natural?, accumulate, noDigit]
  · rfl
  · exact List.cons_ne_nil c cs

theorem natural?_minus : natural? radix ('-' :: cs) = none := natural?_of_not_digit rfl

theorem natural?_plus : natural? radix ('+' :: cs) = none := natural?_of_not_digit rfl

theorem signed?_minus : signed? radix ('-' :: cs) = (natural? radix cs).map fun v : Nat => -(v : Int) := by
  cases read : natural? radix cs <;> simp [signed?, read]

theorem signed?_plus : signed? radix ('+' :: cs) = (natural? radix cs).map Int.ofNat := rfl

/-- Digits without a sign are read as what they are. -/
theorem signed?_digits (natural : natural? radix cs = some n) : signed? radix cs = some (n : Int) := by
  unfold signed?
  split
  · cases natural?_minus.symm.trans natural
  · unfold unsigned?
    split
    · cases natural?_plus.symm.trans natural
    · rw [natural]
      rfl

theorem signed?_eq_some_iff {n : Int} : signed? radix cs = some n ↔
    ∃ (sign : Sign) (digits : List Char) (v : Nat), natural? radix digits = some v ∧ cs = sign.text ++ digits ∧
      n = sign.apply v := by
  constructor
  · intro read
    by_cases minus : ∃ digits, cs = '-' :: digits
    · obtain ⟨digits, rfl⟩ := minus
      obtain ⟨v, natural, rfl⟩ := Option.map_eq_some_iff.1 (signed?_minus.symm.trans read)
      exact ⟨.minus, digits, v, natural, rfl, rfl⟩
    by_cases plus : ∃ digits, cs = '+' :: digits
    · obtain ⟨digits, rfl⟩ := plus
      obtain ⟨v, natural, rfl⟩ := Option.map_eq_some_iff.1 (signed?_plus.symm.trans read)
      exact ⟨.plus, digits, v, natural, rfl, rfl⟩
    · rw [signed?, unsigned?] at read
      · obtain ⟨v, natural, rfl⟩ := Option.map_eq_some_iff.1 read
        exact ⟨.none, cs, v, natural, rfl, rfl⟩
      · exact fun digits same => plus ⟨digits, same⟩
      · exact fun digits same => minus ⟨digits, same⟩
  · rintro ⟨sign, digits, v, natural, rfl, rfl⟩
    cases sign with
    | none => exact signed?_digits natural
    | plus =>
      change signed? radix ('+' :: digits) = _
      rw [signed?_plus, natural]
      rfl
    | minus =>
      change signed? radix ('-' :: digits) = _
      rw [signed?_minus, natural]
      rfl

end Numeral

namespace Assembly

open Numeral

variable {n : Int} {cs : List Char}

/-- The radices of numbers, each with the mark in front of its digits. -/
def marks : List (Nat × List Char) := [(10, []), (16, ['0', 'x'])]

/-- The mark of a radix and digits with a sign or none. -/
def IsMagnitude (cs : List Char) (n : Int) : Prop :=
  ∃ m ∈ marks, ∃ (sign : Sign) (digits : List Char) (v : Nat), natural? m.1 digits = some v ∧
    cs = m.2 ++ sign.text ++ digits ∧ n = sign.apply v

theorem signed?_mark (rest : List Char) : signed? 10 ('0' :: 'x' :: rest) = none := rfl

theorem magnitude?_eq_some_iff : magnitude? cs = some n ↔ IsMagnitude cs n := by
  constructor
  · intro read
    unfold magnitude? at read
    split at read
    · obtain ⟨sign, digits, v, natural, rfl, rfl⟩ := signed?_eq_some_iff.1 read
      exact ⟨(16, ['0', 'x']), .tail _ (.head _), sign, digits, v, natural, rfl, rfl⟩
    · obtain ⟨sign, digits, v, natural, rfl, rfl⟩ := signed?_eq_some_iff.1 read
      exact ⟨(10, []), .head _, sign, digits, v, natural, rfl, rfl⟩
  · rintro ⟨m, mark, sign, digits, v, natural, rfl, rfl⟩
    simp only [marks, List.mem_cons, List.not_mem_nil, or_false] at mark
    rcases mark with rfl | rfl
    · -- no decimal numeral starts with the mark of the other radix
      have read := signed?_eq_some_iff.2 ⟨sign, digits, v, natural, rfl, rfl⟩
      unfold magnitude?
      split
      · next rest same =>
        rw [List.nil_append] at same
        rw [same, signed?_mark] at read
        cases read
      · exact read
    · exact signed?_eq_some_iff.2 ⟨sign, digits, v, natural, rfl, rfl⟩

/-- A minus sign in front turns the number; it could be the sign of the digits as well. -/
theorem isMagnitude_minus (magnitude : IsMagnitude ('-' :: cs) n) : IsMagnitude cs (-n) := by
  obtain ⟨m, mark, sign, digits, v, natural, whole, rfl⟩ := magnitude
  simp only [marks, List.mem_cons, List.not_mem_nil, or_false] at mark
  rcases mark with rfl | rfl
  · cases sign with
    | none =>
      change _ = digits at whole
      cases natural?_minus.symm.trans (whole ▸ natural)
    | plus => cases whole
    | minus =>
      cases whole
      exact ⟨(10, []), .head _, .none, digits, v, natural, rfl, Int.neg_neg _⟩
  · cases whole

/-- Numbers are read by their grammar: a minus sign or none, the mark of the radix, and digits, in front of which
another sign may stand; what they stand for has to be a word. -/
theorem integer?_eq_some_iff : integer? cs = some n ↔ FitsSigned 32 n ∧
    ∃ outer : Sign, outer ≠ .plus ∧ ∃ rest v, cs = outer.text ++ rest ∧ IsMagnitude rest v ∧ n = outer.apply v := by
  by_cases minus : ∃ rest, cs = '-' :: rest
  · obtain ⟨rest, rfl⟩ := minus
    simp only [integer?, Option.filter_eq_some_iff, Option.map_eq_some_iff, magnitude?_eq_some_iff, decide_eq_true_eq]
    rw [and_comm]
    refine and_congr_right fun _ => ⟨?_, ?_⟩
    · rintro ⟨v, magnitude, rfl⟩
      exact ⟨.minus, nofun, rest, v, rfl, magnitude, rfl⟩
    · rintro ⟨outer, allowed, rest', v, whole, magnitude, rfl⟩
      cases outer with
      | none =>
        change _ = rest' at whole
        exact ⟨-v, isMagnitude_minus (whole ▸ magnitude), Int.neg_neg v⟩
      | plus => exact absurd rfl allowed
      | minus =>
        cases whole
        exact ⟨v, magnitude, rfl⟩
  · rw [integer?]
    · simp only [Option.filter_eq_some_iff, magnitude?_eq_some_iff, decide_eq_true_eq]
      rw [and_comm]
      refine and_congr_right fun _ => ⟨fun magnitude => ⟨.none, nofun, cs, n, rfl, magnitude, rfl⟩, ?_⟩
      rintro ⟨outer, allowed, rest', v, whole, magnitude, rfl⟩
      cases outer with
      | none =>
        change _ = rest' at whole
        exact whole ▸ magnitude
      | plus => exact absurd rfl allowed
      | minus => exact absurd ⟨rest', whole⟩ minus
    · exact fun rest same => minus ⟨rest, same⟩

/-- A second minus sign counts. -/
example : integer? ['-', '-', '5'] = some 5 := by decide

end Assembly

end SmallC
