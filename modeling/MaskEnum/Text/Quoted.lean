import MaskEnum.Text.Printable
set_option autoImplicit false

/-!
# Quoted text

A quoted text stands between single quotes, or between double quotes when it holds a single quote
and no double quote. The quote in use and the backslash take a backslash; line feed, carriage
return and tab have their letters; every other unprintable character is written by its code point
in lower-case hexadecimal, in the shortest of the three fixed widths that holds it.

## Main definitions

* `MaskEnum.Text.hexDigits` — a number in hexadecimal, with a given count of digits.
* `MaskEnum.Text.escapeChar` — one character inside a quoted text.
* `MaskEnum.Text.quote` — a whole quoted text.
-/

namespace MaskEnum.Text

/-- The hexadecimal digit of a number below sixteen, in lower case. -/
def hexDigit (n : Nat) : Char :=
  if n < 10 then Char.ofNat ('0'.toNat + n) else Char.ofNat ('a'.toNat + (n - 10))

/-- The last `width` hexadecimal digits of a number, most significant first. -/
def hexDigits : Nat → Nat → List Char
  | 0, _ => []
  | width + 1, n => hexDigits width (n / 16) ++ [hexDigit (n % 16)]

/-- The quote that a text is put in: the double one only if that spares an escape. -/
def quoteMark (cs : List Char) : Char :=
  if cs.contains '\'' && ! cs.contains '"' then '"' else '\''

/-- A character as it stands inside a text quoted by `mark`. -/
def escapeChar (mark c : Char) : List Char :=
  if c = mark || c = '\\' then ['\\', c]
  else if c = '\n' then ['\\', 'n']
  else if c = '\r' then ['\\', 'r']
  else if c = '\t' then ['\\', 't']
  else if isPrintable c then [c]
  else if c.toNat < 0x100 then '\\' :: 'x' :: hexDigits 2 c.toNat
  else if c.toNat < 0x10000 then '\\' :: 'u' :: hexDigits 4 c.toNat
  else '\\' :: 'U' :: hexDigits 8 c.toNat

/-- A text between quotes. -/
def quote (cs : List Char) : List Char :=
  let mark := quoteMark cs
  mark :: cs.flatMap (escapeChar mark) ++ [mark]

/-- A string between quotes. -/
def quoted (s : String) : String := String.ofList (quote s.toList)

end MaskEnum.Text
