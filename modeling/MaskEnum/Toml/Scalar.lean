import MaskEnum.Text.Blank
import MaskEnum.Text.Integer
import MaskEnum.Text.StringLiteral
import MaskEnum.Toml.Value
set_option autoImplicit false

/-!
# TOML scalars

Strings, dates, times and numbers at the front of a text. Each reader answers the value and the
text after it, or nothing.

## Main definitions

* `MaskEnum.Toml.readString` — a string in any of its four forms.
* `MaskEnum.Toml.readMoment` — a date, a time or both.
* `MaskEnum.Toml.readNumber` — an integer or a float.
* `MaskEnum.Toml.readKey` — a dotted key.
-/

namespace MaskEnum.Toml

/-- Whether a character is a space or a tab. -/
def isGap (c : Char) : Bool := c == ' ' || c == '\t'

/-- Whether a character is a space, a tab or a line feed. -/
def isGapOrBreak (c : Char) : Bool := isGap c || c == '\n'

/-- Whether a character is a control character other than the tab, which no line may hold. -/
def isForbidden (c : Char) : Bool := (c.toNat < 32 && c != '\t') || c.toNat == 127

/-- The text after a given one, if it starts with it. -/
def after? (start : String) (cs : List Char) : Option (List Char) :=
  if start.toList.isPrefixOf cs then some (cs.drop start.length) else none

/-! ## Strings -/

/-- A character given by its code in hexadecimal, and how many characters write it. -/
def readCode (width : Nat) (cs : List Char) : Option (List Char × Nat) := do
  let code ← Text.readHex width cs
  if Text.isScalar code then some ([Char.ofNat code], width + 1) else none

/-- What a backslash with the text after it writes, and how much of that text belongs to it. In a
string of several lines, a backslash at the end of a line hides the line break and all gaps and
breaks after it. -/
def readEscape (multiline : Bool) : List Char → Option (List Char × Nat)
  | [] => none
  | c :: cs =>
    if multiline && isGapOrBreak c then
      match (c :: cs).dropWhile isGap with
      | [] => some ([], cs.length + 1)
      | '\n' :: _ => some ([], ((c :: cs).takeWhile isGapOrBreak).length)
      | _ => none
    else match c with
      | 'b' => some (['\x08'], 1)
      | 't' => some (['\t'], 1)
      | 'n' => some (['\n'], 1)
      | 'f' => some (['\x0c'], 1)
      | 'r' => some (['\r'], 1)
      | '"' => some (['"'], 1)
      | '\\' => some (['\\'], 1)
      | 'u' => readCode 4 cs
      | 'U' => readCode 8 cs
      | _ => none

/-- What is left of a string in double quotes behind the opening ones. `skip` characters belong to
the escape before. -/
def basicBody (multiline : Bool) : Nat → List Char → Option (List Char × List Char)
  | _, [] => none
  | skip + 1, _ :: cs => basicBody multiline skip cs
  | 0, c :: cs =>
    if c = '"' then
      if ! multiline then some ([], cs)
      else if ['"', '"'].isPrefixOf cs then some ([], cs.drop 2)
      else (basicBody multiline 0 cs).map fun (body, rest) => (c :: body, rest)
    else if c = '\\' then
      match readEscape multiline cs with
      | none => none
      | some (written, used) =>
        (basicBody multiline used cs).map fun (body, rest) => (written ++ body, rest)
    else if isForbidden c && ! (multiline && c == '\n') then none
    else (basicBody multiline 0 cs).map fun (body, rest) => (c :: body, rest)

/-- What is left of a string in single quotes behind the opening ones. -/
def literalBody (multiline : Bool) : List Char → Option (List Char × List Char)
  | [] => none
  | c :: cs =>
    if c = '\'' ∧ (! multiline ∨ ['\'', '\''].isPrefixOf cs) then
      some ([], if multiline then cs.drop 2 else cs)
    else if isForbidden c && ! (multiline && c == '\n') then none
    else (literalBody multiline cs).map fun (body, rest) => (c :: body, rest)

/-- What stands in a string behind its opening quotes. -/
def stringBody (mark : Char) (multiline : Bool) (cs : List Char) : Option (List Char × List Char) :=
  if mark = '"' then basicBody multiline 0 cs else literalBody multiline cs

/-- A string of several lines behind its opening quotes. A line break right after them does not
count, and up to two more quotes may stand before the closing ones. -/
def multilineBody (mark : Char) (cs : List Char) : Option (List Char × List Char) := do
  let start := match cs with
    | '\n' :: more => more
    | _ => cs
  let (body, rest) ← stringBody mark true start
  let extra := (rest.take 2).takeWhile (· == mark)
  some (body ++ extra, rest.drop extra.length)

/-- A string on one line. -/
def readLineString : List Char → Option (String × List Char)
  | [] => none
  | mark :: cs =>
    if mark = '"' ∨ mark = '\'' then
      (stringBody mark false cs).map fun (body, rest) => (String.ofList body, rest)
    else none

/-- A string. -/
def readString (cs : List Char) : Option (String × List Char) :=
  match cs with
  | a :: b :: c :: more =>
    if (a = '"' ∨ a = '\'') ∧ b = a ∧ c = a then
      (multilineBody a more).map fun (body, rest) => (String.ofList body, rest)
    else readLineString cs
  | _ => readLineString cs

/-! ## Keys -/

/-- Whether a character may stand in a key without quotes. -/
def isKeyPart (c : Char) : Bool := c.isAlphanum || c == '-' || c == '_'

/-- A part of a key. -/
def readKeyPart (cs : List Char) : Option (String × List Char) :=
  let name := cs.takeWhile isKeyPart
  if name.isEmpty then readLineString cs else some (String.ofList name, cs.dropWhile isKeyPart)

/-- A dotted key with at most `fuel` parts, and the gap after it. -/
def readKeyParts : Nat → List Char → Option (List String × List Char)
  | 0, _ => none
  | fuel + 1, cs => do
    let (part, rest) ← readKeyPart cs
    match rest.dropWhile isGap with
    | '.' :: more =>
      let (parts, rest) ← readKeyParts fuel (more.dropWhile isGap)
      some (part :: parts, rest)
    | rest => some ([part], rest)

/-- A dotted key and the gap after it. -/
def readKey (cs : List Char) : Option (List String × List Char) := readKeyParts (cs.length + 1) cs

/-! ## Dates and times -/

/-- A number of exactly `width` digits in a range. -/
def readFixed (width low high : Nat) (cs : List Char) : Option (Nat × List Char) :=
  let digits := cs.take width
  if digits.length = width ∧ digits.all Char.isDigit then
    let n := Text.digitsValue 10 (digits.map fun c => c.toNat - '0'.toNat)
    if low ≤ n ∧ n ≤ high then some (n, cs.drop width) else none
  else none

/-- The text after a time of day. -/
def skipTime (cs : List Char) : Option (List Char) := do
  let (_, cs) ← readFixed 2 0 23 cs
  let (_, cs) ← readFixed 2 0 59 (← after? ":" cs)
  let (_, cs) ← readFixed 2 0 59 (← after? ":" cs)
  match cs with
  | '.' :: c :: more =>
    if c.isDigit then some (more.dropWhile Char.isDigit) else some cs
  | _ => some cs

/-- The text after an offset from universal time, if there is one. -/
def skipOffset (cs : List Char) : List Char :=
  let offset : Option (List Char) :=
    match cs with
    | sign :: more =>
      if sign = 'Z' ∨ sign = 'z' then some more
      else if sign = '+' ∨ sign = '-' then do
        let (_, more) ← readFixed 2 0 23 more
        let (_, more) ← readFixed 2 0 59 (← after? ":" more)
        some more
      else none
    | [] => none
  offset.getD cs

/-- The number of days in a month. -/
def daysIn (year month : Nat) : Nat :=
  if month = 2 then if year % 4 = 0 ∧ (year % 100 ≠ 0 ∨ year % 400 = 0) then 29 else 28
  else if month = 4 ∨ month = 6 ∨ month = 9 ∨ month = 11 then 30
  else 31

/-- A date, given by year, month and day, and the text after it. -/
def readDate (cs : List Char) : Option ((Nat × Nat × Nat) × List Char) := do
  let (year, cs) ← readFixed 4 0 9999 cs
  let (month, cs) ← readFixed 2 1 12 (← after? "-" cs)
  let (day, cs) ← readFixed 2 1 31 (← after? "-" cs)
  some ((year, month, day), cs)

/-- The text after the time and the offset that may follow a date. -/
def skipTimeOfDate (cs : List Char) : List Char :=
  match cs with
  | c :: more =>
    if c = 'T' ∨ c = 't' ∨ c = ' ' then
      match skipTime more with
      | some rest => skipOffset rest
      | none => cs
    else cs
  | [] => cs

/-- A moment: the text after it, or nothing if no moment is next. The inner nothing stands for a
date that the calendar does not have. -/
def readMoment (cs : List Char) : Option (Option (List Char)) :=
  match readDate cs with
  | some ((year, month, day), rest) =>
    some (if year = 0 ∨ daysIn year month < day then none else some (skipTimeOfDate rest))
  | none => (skipTime cs).map some

/-! ## Numbers -/

/-- The rest of a run of digits with single underscores between them. -/
def digitsTail (isDigit : Char → Bool) : List Char → List Char × List Char
  | '_' :: c :: cs =>
    if isDigit c then
      let (more, rest) := digitsTail isDigit cs
      (c :: more, rest)
    else ([], '_' :: c :: cs)
  | c :: cs =>
    if isDigit c then
      let (more, rest) := digitsTail isDigit cs
      (c :: more, rest)
    else ([], c :: cs)
  | [] => ([], [])

/-- A run of digits with single underscores between them. -/
def readDigits (isDigit : Char → Bool) : List Char → Option (List Char × List Char)
  | c :: cs =>
    if isDigit c then
      let (more, rest) := digitsTail isDigit cs
      some (c :: more, rest)
    else none
  | [] => none

/-- The number that digits write. -/
def valueOf (base : Nat) (digits : List Char) : Nat :=
  Text.digitsValue base (digits.filterMap Text.hexValue?)

/-- An integer in base sixteen, eight or two, behind its mark. -/
def readMarked : List Char → Option (Nat × List Char)
  | '0' :: 'x' :: cs => (readDigits (Text.hexValue? · |>.isSome) cs).map fun (ds, rest) =>
      (valueOf 16 ds, rest)
  | '0' :: 'o' :: cs => (readDigits Text.isOctalDigit cs).map fun (ds, rest) =>
      (valueOf 8 ds, rest)
  | '0' :: 'b' :: cs => (readDigits (fun c => c == '0' || c == '1') cs).map fun (ds, rest) =>
      (valueOf 2 ds, rest)
  | _ => none

/-- The digits before a point: a zero alone, or a run that starts with another digit. -/
def readWhole : List Char → Option (List Char × List Char)
  | '0' :: cs => some (['0'], cs)
  | cs => readDigits Char.isDigit cs

/-- The digits behind a point, none if there is no point with a digit after it. -/
def readFraction (cs : List Char) : List Char × List Char :=
  match cs with
  | '.' :: more => (readDigits Char.isDigit more).getD ([], cs)
  | _ => ([], cs)

/-- The exponent of a float, if there is one. -/
def readExponent (cs : List Char) : Option Int × List Char :=
  match cs with
  | e :: more =>
    if e = 'e' ∨ e = 'E' then
      let (negative, digits) := match more with
        | '-' :: ds => (true, ds)
        | '+' :: ds => (false, ds)
        | ds => (false, ds)
      match readDigits Char.isDigit digits with
      | some (ds, rest) =>
        let n : Int := valueOf 10 ds
        (some (if negative then -n else n), rest)
      | none => (none, cs)
    else (none, cs)
  | [] => (none, cs)

/-- Whether a number has a minus sign, and the text after its sign. -/
def readSign : List Char → Bool × List Char
  | '-' :: cs => (true, cs)
  | '+' :: cs => (false, cs)
  | cs => (false, cs)

/-- An integer or a float with a fraction or an exponent, in base ten. -/
def readDecimal (cs : List Char) : Option (Value × List Char) := do
  let (negative, start) := readSign cs
  let (whole, rest) ← readWhole start
  let (fraction, rest) := readFraction rest
  let (exponent, rest) := readExponent rest
  if fraction.isEmpty && exponent.isNone then
    let n : Int := valueOf 10 whole
    some (.integer (if negative then -n else n), rest)
  else
    let digits := whole ++ fraction
    some (.float (Binary64.ofDecimal negative (valueOf 10 digits) digits.length
      (exponent.getD 0 - fraction.length)), rest)

/-- An infinity, or the float that is no number. -/
def readSpecial (cs : List Char) : Option (Value × List Char) :=
  let (negative, start) := readSign cs
  match after? "inf" start with
  | some rest => some (.float (.infinite negative), rest)
  | none => (after? "nan" start).map fun rest => (.float .nan, rest)

/-- An integer or a float. -/
def readNumber (cs : List Char) : Option (Value × List Char) :=
  match readMarked cs with
  | some (n, rest) => some (.integer n, rest)
  | none => (readDecimal cs).or (readSpecial cs)

/-- A scalar. -/
def readScalar (cs : List Char) : Option (Value × List Char) :=
  match cs with
  | [] => none
  | c :: _ =>
    if c = '"' ∨ c = '\'' then (readString cs).map fun (s, rest) => (.text s, rest)
    else match after? "true" cs, after? "false" cs with
      | some rest, _ => some (.boolean true, rest)
      | _, some rest => some (.boolean false, rest)
      | none, none =>
        match readMoment cs with
        | some found => found.map fun rest =>
            (.moment (String.ofList (cs.take (cs.length - rest.length))), rest)
        | none => readNumber cs

end MaskEnum.Toml
