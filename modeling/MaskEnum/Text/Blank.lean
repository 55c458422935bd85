set_option autoImplicit false

/-!
# Blank characters, stripped text, words and lines

Text is handled as a list of characters. A character is blank when it is white space anywhere in
Unicode, the four information separators and the next-line character included; the zero-width
space is not blank.

## Main definitions

* `MaskEnum.Text.isBlank` — Unicode white space.
* `MaskEnum.Text.strip` — a text without the blanks at its two ends.
* `MaskEnum.Text.words` — the maximal blank-free runs of a text.
* `MaskEnum.Text.pieces`, `MaskEnum.Text.fields` — the pieces of a text between marks, and between
  its line feeds.
* `MaskEnum.Text.lines` — the lines of a text, broken at every line boundary Unicode knows.
-/

namespace MaskEnum.Text

/-- White space: the ASCII controls U+0009..U+000D and U+001C..U+001F, the space, U+0085, U+00A0
and the space, line and paragraph separators of Unicode. -/
def isBlank (c : Char) : Bool :=
  let n := c.toNat
  (9 ≤ n && n ≤ 13) || (28 ≤ n && n ≤ 32) || n == 0x85 || n == 0xA0 || n == 0x1680
    || (0x2000 ≤ n && n ≤ 0x200A) || n == 0x2028 || n == 0x2029 || n == 0x202F || n == 0x205F
    || n == 0x3000

/-- Drops the longest tail whose characters all satisfy `p`. -/
def dropTail (p : Char → Bool) (cs : List Char) : List Char :=
  (cs.reverse.dropWhile p).reverse

/-- Drops what satisfies `p` from both ends. -/
def stripOf (p : Char → Bool) (cs : List Char) : List Char :=
  dropTail p (cs.dropWhile p)

/-- Drops the blanks from both ends. -/
def strip (cs : List Char) : List Char := stripOf isBlank cs

/-- The maximal runs of characters that are not blank. -/
def words : List Char → List (List Char)
  | [] => []
  | c :: cs =>
    if isBlank c then words cs
    else match cs, words cs with
      | d :: _, word :: rest => if isBlank d then [c] :: word :: rest else (c :: word) :: rest
      | _, rest => [c] :: rest

/-- The pieces between the characters that are a mark; a text without the mark is one piece. -/
def pieces (mark : Char) : List Char → List (List Char)
  | [] => [[]]
  | c :: cs =>
    if c = mark then [] :: pieces mark cs
    else match pieces mark cs with
      | [] => [[c]]
      | first :: rest => (c :: first) :: rest

/-- The pieces between line feeds. -/
def fields (cs : List Char) : List (List Char) := pieces '\n' cs

/-- The characters that end a line: line feed, vertical tab, form feed, carriage return, U+001C to
U+001E, the next-line character and the line and paragraph separators. -/
def isLineEnd (c : Char) : Bool :=
  let n := c.toNat
  (10 ≤ n && n ≤ 13) || (28 ≤ n && n ≤ 30) || n == 0x85 || n == 0x2028 || n == 0x2029

/-- The lines of a text without their ends. A carriage return followed by a line feed is one end,
and an end at the very end of the text opens no further line. -/
def lines : List Char → List (List Char)
  | [] => []
  | '\r' :: '\n' :: cs => [] :: lines cs
  | c :: cs =>
    if isLineEnd c then [] :: lines cs
    else match lines cs with
      | [] => [[c]]
      | line :: rest => (c :: line) :: rest

/-- Every line break, whether a line feed, a carriage return or both, as a line feed. -/
def unifyBreaks : List Char → List Char
  | [] => []
  | '\r' :: '\n' :: cs => '\n' :: unifyBreaks cs
  | '\r' :: cs => '\n' :: unifyBreaks cs
  | c :: cs => c :: unifyBreaks cs

/-- Applies a rule on character lists to a string. -/
def onChars (f : List Char → List Char) (s : String) : String := String.ofList (f s.toList)

end MaskEnum.Text
