import MaskEnum.Text.Quoted
set_option autoImplicit false

/-!
# String literals

A string literal stands between single or double quotes, one or three at each end. A backslash
hides the character after it from the search for the end; only a literal in three quotes may run
over a line end. Inside, escapes write single code points. A code point may be a surrogate, so the
text of a literal is a list of numbers; `characters` turns it into text.

An escape that names a character (`\N`) has no reading here, because the names of characters are not
listed: whether such a literal is none, or which code point it writes, is left open.

## Main definitions

* `MaskEnum.Text.openLiteral` — whether a literal opens with one quote or three.
* `MaskEnum.Text.literalBody` — what stands between the quotes, as written.
* `MaskEnum.Text.unescape` — the code points that it writes.
* `MaskEnum.Text.readLiteral` — a whole literal at the front of a text.
-/

namespace MaskEnum.Text

/-- Cuts the opening quotes off; the flag tells whether there are three. -/
def openLiteral (mark : Char) : List Char → Option (Bool × List Char)
  | a :: b :: c :: cs =>
    if a = mark ∧ b = mark ∧ c = mark then some (true, cs)
    else if a = mark then some (false, b :: c :: cs)
    else none
  | a :: cs => if a = mark then some (false, cs) else none
  | [] => none

/-- What stands before the closing quotes, and the text after them. -/
def literalBody (mark : Char) (triple : Bool) : List Char → Option (List Char × List Char)
  | [] => none
  | ['\\'] => none
  | '\\' :: c :: cs =>
    (literalBody mark triple cs).map fun (body, rest) => ('\\' :: c :: body, rest)
  | c :: cs =>
    if c = mark ∧ (! triple ∨ [mark, mark].isPrefixOf cs) then
      some ([], if triple then cs.drop 2 else cs)
    else if c = '\n' ∧ ! triple then none
    else (literalBody mark triple cs).map fun (body, rest) => (c :: body, rest)

/-- The value of an ASCII hexadecimal digit. -/
def hexValue? (c : Char) : Option Nat :=
  if c.isDigit then some (c.toNat - '0'.toNat)
  else if 'a' ≤ c && c ≤ 'f' then some (c.toNat - 'a'.toNat + 10)
  else if 'A' ≤ c && c ≤ 'F' then some (c.toNat - 'A'.toNat + 10)
  else none

/-- The number that the first `width` characters write in hexadecimal. -/
def readHex (width : Nat) (cs : List Char) : Option Nat :=
  if cs.length < width then none
  else (cs.take width).foldl (fun n c => do .some ((← n) * 16 + (← hexValue? c))) (some 0)

/-- Whether a character is an octal digit. -/
def isOctalDigit (c : Char) : Bool := '0' ≤ c && c ≤ '7'

/-- What the escape of `c` writes, and how many of the characters `cs` after it belong to it. -/
def readEscape (c : Char) (cs : List Char) : Option (List Nat × Nat) :=
  match c with
  | '\n' => some ([], 0)
  | '\\' | '\'' | '"' => some ([c.toNat], 0)
  | 'a' => some ([7], 0)
  | 'b' => some ([8], 0)
  | 't' => some ([9], 0)
  | 'n' => some ([10], 0)
  | 'v' => some ([11], 0)
  | 'f' => some ([12], 0)
  | 'r' => some ([13], 0)
  | 'x' => (readHex 2 cs).map fun n => ([n], 2)
  | 'u' => (readHex 4 cs).map fun n => ([n], 4)
  | 'U' => (readHex 8 cs).bind fun n => if n < 0x110000 then some ([n], 8) else none
  | 'N' => none
  | _ =>
    if isOctalDigit c then
      let digits := c :: (cs.take 2).takeWhile isOctalDigit
      some ([digits.foldl (fun n d => n * 8 + (d.toNat - '0'.toNat)) 0], digits.length - 1)
    else some (['\\'.toNat, c.toNat], 0)

/-- The code points that the body of a literal writes, behind `skip` characters that belong to the
escape before. -/
def unescapeFrom : Nat → List Char → Option (List Nat)
  | _, [] => some []
  | skip + 1, _ :: cs => unescapeFrom skip cs
  | 0, '\\' :: c :: cs =>
    match readEscape c cs with
    | none => none
    | some (points, used) => (unescapeFrom used cs).map (points ++ ·)
  | 0, c :: cs => (unescapeFrom 0 cs).map (c.toNat :: ·)

/-- The code points that the body of a literal writes. -/
def unescape (cs : List Char) : Option (List Nat) := unescapeFrom 0 cs

/-- Whether a number is the code point of a character: the surrogates are none. -/
def isScalar (n : Nat) : Bool := n < 0xD800 || (0xE000 ≤ n && n < 0x110000)

/-- The text of code points; a surrogate becomes the replacement character. -/
def characters (points : List Nat) : List Char :=
  points.map fun n => if isScalar n then Char.ofNat n else Char.ofNat 0xFFFD

/-- The literal at the front of a text: what it writes and the text after it. -/
def readLiteral (mark : Char) (cs : List Char) : Option (List Nat × List Char) := do
  let (triple, inner) ← openLiteral mark cs
  let (body, rest) ← literalBody mark triple inner
  let points ← unescape body
  some (points, rest)

end MaskEnum.Text
