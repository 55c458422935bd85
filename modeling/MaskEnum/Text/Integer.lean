import MaskEnum.Text.Blank
set_option autoImplicit false

/-!
# Reading integers

The text of an integer in a base up to sixteen: blanks at the ends, a sign, the mark of the base,
and digits with single underscores between them. Decimal digits of every script count as digits.

## Main definitions

* `MaskEnum.Text.digitValue?` — the value of a digit.
* `MaskEnum.Text.digitsValue` — the value of a list of digits.
* `MaskEnum.Text.readInteger` — the integer that a text writes.
-/

namespace MaskEnum.Text

/-- The zeros of the decimal digits of all scripts (version 14 of Unicode); the other nine follow
each. -/
def decimalZeros : List Nat :=
  [0x30, 0x660, 0x6F0, 0x7C0, 0x966, 0x9E6, 0xA66, 0xAE6, 0xB66, 0xBE6, 0xC66, 0xCE6, 0xD66, 0xDE6,
   0xE50, 0xED0, 0xF20, 0x1040, 0x1090, 0x17E0, 0x1810, 0x1946, 0x19D0, 0x1A80, 0x1A90, 0x1B50,
   0x1BB0, 0x1C40, 0x1C50, 0xA620, 0xA8D0, 0xA900, 0xA9D0, 0xA9F0, 0xAA50, 0xABF0, 0xFF10, 0x104A0,
   0x10D30, 0x11066, 0x110F0, 0x11136, 0x111D0, 0x112F0, 0x11450, 0x114D0, 0x11650, 0x116C0,
   0x11730, 0x118E0, 0x11950, 0x11C50, 0x11D50, 0x11DA0, 0x16A60, 0x16AC0, 0x16B50, 0x1D7CE,
   0x1D7D8, 0x1D7E2, 0x1D7EC, 0x1D7F6, 0x1E140, 0x1E2F0, 0x1E950, 0x1FBF0]

/-- The value of a digit: a decimal digit of any script, or an ASCII letter from ten on. -/
def digitValue? (c : Char) : Option Nat :=
  if 'a' ≤ c && c ≤ 'z' then some (c.toNat - 'a'.toNat + 10)
  else if 'A' ≤ c && c ≤ 'Z' then some (c.toNat - 'A'.toNat + 10)
  else (decimalZeros.find? fun z => z ≤ c.toNat && c.toNat < z + 10).map (c.toNat - ·)

/-- The value of a list of digits, most significant first. -/
def digitsValue (base : Nat) (digits : List Nat) : Nat :=
  digits.foldl (fun value digit => value * base + digit) 0

/-- Digits of a base with single underscores between them; `afterDigit` tells whether a digit
stands right before the text. -/
def readDigits (base : Nat) (afterDigit : Bool) : List Char → Option (List Nat)
  | [] => if afterDigit then some [] else none
  | '_' :: cs => if afterDigit then readDigits base false cs else none
  | c :: cs =>
    match digitValue? c with
    | some digit => if digit < base then (readDigits base true cs).map (digit :: ·) else none
    | none => none

/-- The blanks that may surround an integer; the information separators are not among them. -/
def isNumberBlank (c : Char) : Bool := isBlank c && (c.toNat < 28 || 32 ≤ c.toNat)

/-- Drops the mark of a base, and an underscore after it. -/
def dropBaseMark (base : Nat) : List Char → List Char
  | '0' :: letter :: cs =>
    if (base == 16 && (letter == 'x' || letter == 'X'))
        || (base == 8 && (letter == 'o' || letter == 'O'))
        || (base == 2 && (letter == 'b' || letter == 'B')) then
      match cs with
      | '_' :: more => more
      | _ => cs
    else '0' :: letter :: cs
  | cs => cs

/-- The natural number that a text without sign and surrounding blanks writes. -/
def readNatural (base : Nat) (cs : List Char) : Option Nat :=
  (readDigits base false (dropBaseMark base cs)).map (digitsValue base)

/-- The integer that a text writes in a base. -/
def readInteger (base : Nat) (cs : List Char) : Option Int :=
  match stripOf isNumberBlank cs with
  | '-' :: digits => (readNatural base digits).map fun n => -n
  | '+' :: digits => (readNatural base digits).map fun n => n
  | digits => (readNatural base digits).map fun n => n

end MaskEnum.Text
