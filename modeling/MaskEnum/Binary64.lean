set_option autoImplicit false

/-!
# Doubles

A double is a number of the form `m · 2 ^ e` with `m < 2 ^ 53` and `-1074 ≤ e ≤ 971`, an infinity,
or no number at all. A decimal number is read as the double nearest to it; of two that are equally
near, as the one whose significand is even.

## Main definitions

* `MaskEnum.Binary64` — the type.
* `MaskEnum.Binary64.ofRatio`, `MaskEnum.Binary64.ofDecimal` — the nearest double.
* `MaskEnum.Binary64.toInt?` — the integer that a double is.
-/

namespace MaskEnum

/-- A double. -/
inductive Binary64 where
  | nan
  | infinite (negative : Bool)
  /-- The number `significand · 2 ^ exponent`, with a sign. -/
  | finite (negative : Bool) (significand : Nat) (exponent : Int)
  deriving DecidableEq, Repr

namespace Binary64

/-- The quotient rounded to the nearest integer, from the middle to the even one. -/
def roundedQuotient (numerator denominator : Nat) : Nat :=
  let quotient := numerator / denominator
  let twice := 2 * (numerator % denominator)
  if denominator < twice ∨ (twice = denominator ∧ quotient % 2 = 1) then quotient + 1
  else quotient

/-- A ratio divided by a power of two. -/
def scaled (numerator denominator : Nat) (exponent : Int) : Nat × Nat :=
  if 0 ≤ exponent then (numerator, denominator <<< exponent.toNat)
  else (numerator <<< (-exponent).toNat, denominator)

/-- The number that significands stay below. -/
def significandLimit : Nat := 1 <<< 53

/-- The exponent of the least significant bit of the double nearest to a ratio, but for a carry. -/
def unitExponent (numerator denominator : Nat) : Int :=
  let guess : Int := (Nat.log2 numerator : Int) - (Nat.log2 denominator : Int) - 53
  let guess := max guess (-1074)
  let (n, d) := scaled numerator denominator guess
  if significandLimit ≤ n / d then guess + 1 else guess

/-- The double nearest to a ratio of natural numbers. -/
def ofRatio (negative : Bool) (numerator denominator : Nat) : Binary64 :=
  let exponent := unitExponent numerator denominator
  let (n, d) := scaled numerator denominator exponent
  let significand := roundedQuotient n d
  let (significand, exponent) :=
    if significand = significandLimit then (significandLimit / 2, exponent + 1)
    else (significand, exponent)
  if 971 < exponent then infinite negative else finite negative significand exponent

/-- The double nearest to `digits · 10 ^ exponent`, where `digits` has `count` decimal digits. A
number far outside the range of doubles needs no arithmetic. -/
def ofDecimal (negative : Bool) (digits count : Nat) (exponent : Int) : Binary64 :=
  if digits = 0 ∨ exponent + count < -400 then finite negative 0 0
  else if 400 + count < exponent then infinite negative
  else if 0 ≤ exponent then ofRatio negative (digits * Nat.pow 10 exponent.toNat) 1
  else ofRatio negative digits (Nat.pow 10 (-exponent).toNat)

/-- Whether a double is zero, of either sign. -/
def isZero : Binary64 → Bool
  | finite _ significand _ => significand = 0
  | _ => false

/-- The integer that a double is, if it is one. -/
def toInt? : Binary64 → Option Int
  | finite negative significand exponent =>
    let sign (n : Nat) : Int := if negative then -n else n
    if 0 ≤ exponent then some (sign (significand <<< exponent.toNat))
    else
      let unit := 1 <<< (-exponent).toNat
      if significand % unit = 0 then some (sign (significand / unit)) else none
  | _ => none

example : ofDecimal false 5 1 0 = finite false (5 <<< 50) (-50) := by decide +kernel

example : (ofDecimal false 9007199254740993 16 0).toInt? = some 9007199254740992 := by
  decide +kernel

example : (ofDecimal true 25 2 (-1)).toInt? = none := by decide +kernel

example : ofDecimal false 5 1 (-324) = finite false 1 (-1074) := by decide +kernel

example : ofDecimal false 18 2 307 = infinite false := by decide +kernel

end Binary64
end MaskEnum
