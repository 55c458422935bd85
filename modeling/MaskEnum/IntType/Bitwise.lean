set_option autoImplicit false

/-!
# Bitwise operations on integers

An integer stands for its two's complement digits, which go on forever: a natural number ends in
zeros and a negative one in ones. The three operations act digit by digit.

## Main definitions

* `MaskEnum.Bitwise.andNot` — the digits of one natural number that another has not.
* `MaskEnum.Bitwise.and`, `MaskEnum.Bitwise.or`, `MaskEnum.Bitwise.xor` — the operations.
-/

namespace MaskEnum.Bitwise

/-- The digits set in `m` and clear in `n`. -/
def andNot (m n : Nat) : Nat := m ^^^ (m &&& n)

/-- Digit-wise conjunction. -/
def and : Int → Int → Int
  | .ofNat m, .ofNat n => .ofNat (m &&& n)
  | .ofNat m, .negSucc n => .ofNat (andNot m n)
  | .negSucc m, .ofNat n => .ofNat (andNot n m)
  | .negSucc m, .negSucc n => .negSucc (m ||| n)

/-- Digit-wise disjunction. -/
def or : Int → Int → Int
  | .ofNat m, .ofNat n => .ofNat (m ||| n)
  | .ofNat m, .negSucc n => .negSucc (andNot n m)
  | .negSucc m, .ofNat n => .negSucc (andNot m n)
  | .negSucc m, .negSucc n => .negSucc (m &&& n)

/-- Digit-wise exclusive disjunction. -/
def xor : Int → Int → Int
  | .ofNat m, .ofNat n => .ofNat (m ^^^ n)
  | .ofNat m, .negSucc n => .negSucc (m ^^^ n)
  | .negSucc m, .ofNat n => .negSucc (m ^^^ n)
  | .negSucc m, .negSucc n => .ofNat (m ^^^ n)

end MaskEnum.Bitwise
