import MaskEnum.Token
import MaskEnum.Text.Blank
set_option autoImplicit false

/-!
# Tokenizing

A text is cut from the left into spellings. Each spelling is either a gap (white space, a comment)
or the spelling of one lexeme; what is cut off is decided by the first characters alone. Every
fault is reported at the first character of the spelling that could not be finished.

## Main definitions

* `MaskEnum.Lexer.scan` — the first spelling of a text, what it says, and the rest of the text.
* `MaskEnum.tokenize` — the tokens of a text.

## Main results

* `MaskEnum.Lexer.scan_append` — a spelling and its rest make up the text.
* `MaskEnum.Lexer.scan_ne_nil` — no spelling is empty, so the cutting ends.
-/

namespace MaskEnum
namespace Lexer

/-- A text cut in two: what was read and what is left. -/
abbrev Cut := List Char × List Char

/-- Reads as long as `p` holds. -/
def run (p : Char → Bool) (cs : List Char) : Cut := (cs.takeWhile p, cs.dropWhile p)

/-- The white space between tokens. -/
def isGap (c : Char) : Bool := c == ' ' || c == '\t' || c == '\r' || c == '\n'

/-- An ASCII letter or the underscore. -/
def isNameStart (c : Char) : Bool := c.isAlpha || c == '_'

/-- An ASCII letter, an ASCII digit or the underscore. -/
def isNamePart (c : Char) : Bool := c.isAlphanum || c == '_'

/-! ## Comments -/

/-- Reads to the end of the line, without its line feed. -/
def restOfLine (cs : List Char) : Cut := run (· != '\n') cs

/-- Reads to the end of a block comment inside which `outer` further ones are open. -/
def blockComment : Nat → List Char → Option Cut
  | outer, '/' :: '*' :: cs =>
    (blockComment (outer + 1) cs).map fun (body, rest) => ('/' :: '*' :: body, rest)
  | 0, '*' :: '/' :: cs => some (['*', '/'], cs)
  | outer + 1, '*' :: '/' :: cs =>
    (blockComment outer cs).map fun (body, rest) => ('*' :: '/' :: body, rest)
  | outer, c :: cs => (blockComment outer cs).map fun (body, rest) => (c :: body, rest)
  | _, [] => none

/-! ## Attributes -/

/-- Reads an attribute's text up to the bracket that closes it. `depth` counts the brackets open
inside it; with `inString` the text continues inside a double-quoted string, where brackets do not
count and a backslash hides the next character. -/
def attributeBody : Nat → Bool → List Char → Except LexicalFault Cut
  | _, true, [] => .error .openString
  | _, false, [] => .error .openAttribute
  | depth, true, '\\' :: c :: cs =>
    (attributeBody depth true cs).map fun (body, rest) => ('\\' :: c :: body, rest)
  | _, true, ['\\'] => .error .openString
  | 0, false, ']' :: cs => .ok ([], cs)
  | depth + 1, false, ']' :: cs =>
    (attributeBody depth false cs).map fun (body, rest) => (']' :: body, rest)
  | depth, false, '[' :: cs =>
    (attributeBody (depth + 1) false cs).map fun (body, rest) => ('[' :: body, rest)
  | depth, inString, '"' :: cs =>
    (attributeBody depth (! inString) cs).map fun (body, rest) => ('"' :: body, rest)
  | depth, inString, c :: cs =>
    (attributeBody depth inString cs).map fun (body, rest) => (c :: body, rest)

/-! ## Numbers -/

/-- The digits after a radix letter. -/
def radixDigit? : Char → Option (Char → Bool)
  | 'x' => some fun c => c.isDigit || ('a' ≤ c && c ≤ 'f') || ('A' ≤ c && c ≤ 'F')
  | 'o' => some fun c => '0' ≤ c && c ≤ '7'
  | 'b' => some fun c => c == '0' || c == '1'
  | _ => none

/-- Reads a decimal digit and the digits and underscores after it. -/
def decimal : List Char → Option Cut
  | [] => none
  | c :: cs =>
    if c.isDigit then
      let (digits, rest) := run (fun d => d.isDigit || d == '_') cs
      some (c :: digits, rest)
    else none

/-- Reads a radix mark and at least one of its digits or an underscore. -/
def radixed : List Char → Option Cut
  | '0' :: letter :: cs =>
    (radixDigit? letter).bind fun isDigit =>
      match run (fun d => isDigit d || d == '_') cs with
      | ([], _) => none
      | (digits, rest) => some ('0' :: letter :: digits, rest)
  | _ => none

/-- Reads the name of an integer type, or nothing. -/
def typeSuffix (cs : List Char) : Cut :=
  match IntType.all.find? (·.name.toList.isPrefixOf cs) with
  | some t => (t.name.toList, cs.drop t.name.length)
  | none => ([], cs)

/-- Reads an integer literal. -/
def integer (cs : List Char) : Option Cut :=
  (radixed cs <|> decimal cs).map fun (digits, rest) =>
    let (suffix, rest) := typeSuffix rest
    (digits ++ suffix, rest)

/-- Whether decimal digits at the front of a text go on as a floating-point literal. -/
def startsFloat (cs : List Char) : Bool :=
  match decimal cs with
  | some (_, '.' :: d :: _) => d.isDigit
  | some (_, 'e' :: rest) | some (_, 'E' :: rest) =>
    match rest with
    | '+' :: d :: _ | '-' :: d :: _ => d.isDigit
    | d :: _ => d.isDigit
    | [] => false
  | some (_, 'f' :: '3' :: '2' :: _) | some (_, 'f' :: '6' :: '4' :: _) => true
  | _ => false

/-! ## One spelling -/

/-- A lexeme, or nothing for a gap, with its spelling and the rest of the text. -/
abbrev Scanned := Option Lexeme × Cut

/-- A spelling that says nothing. -/
def gap (cut : Cut) : Scanned := (none, cut)

/-- The doc comment that fills the rest of a line. -/
def docComment (cs : List Char) : Scanned :=
  let cut := restOfLine cs
  (some (.doc (String.ofList (Text.strip (cut.1.drop 3)))), cut)

/-- An attribute whose opening is `opener` and whose text starts at `cs`. -/
def attr (opener cs : List Char) : Except LexicalFault Scanned :=
  match attributeBody 0 false cs with
  | .error fault => .error fault
  | .ok (body, rest) =>
    .ok (some (.attr (String.ofList (Text.strip body))), opener ++ (body ++ [']']), rest)

/-- A number, a name or a mark. -/
def plainLexeme (c : Char) (more : List Char) : Except LexicalFault Scanned :=
  match integer (c :: more) with
  | some (digits, rest) =>
    if startsFloat (c :: more) then .error .floatLiteral
    else .ok (some (.int (String.ofList digits)), digits, rest)
  | none =>
    if isNameStart c then
      let cut := run isNamePart more
      .ok (some (.ident (String.ofList (c :: cut.1))), c :: cut.1, cut.2)
    else
      match Mark.all.find? (·.spelling.isPrefixOf (c :: more)) with
      | some m => .ok (some (.mark m), m.spelling, (c :: more).drop m.spelling.length)
      | none => .error (.unexpected c)

/-- The first spelling of the text `c :: more`. -/
def scan (c : Char) (more : List Char) : Except LexicalFault Scanned :=
  if isGap c then
    let cut := run isGap more
    .ok (gap (c :: cut.1, cut.2))
  else
    match c, more with
    | '/', '/' :: '/' :: '/' :: _ => .ok (gap (restOfLine (c :: more)))
    | '/', '/' :: '/' :: _ => .ok (docComment (c :: more))
    | '/', '/' :: _ => .ok (gap (restOfLine (c :: more)))
    | '/', '*' :: rest =>
      match blockComment 0 rest with
      | some (body, rest) => .ok (gap ('/' :: '*' :: body, rest))
      | none => .error .openComment
    | '#', '[' :: rest => attr ['#', '['] rest
    | '#', '!' :: '[' :: rest => attr ['#', '!', '['] rest
    | _, _ => plainLexeme c more

/-! ## Spellings make up the text -/

theorem run_append (p : Char → Bool) (cs : List Char) : (run p cs).1 ++ (run p cs).2 = cs :=
  List.takeWhile_append_dropWhile

theorem blockComment_append {outer : Nat} {cs : List Char} {cut : Cut}
    (h : blockComment outer cs = some cut) : cut.1 ++ cut.2 = cs := by
  fun_induction blockComment outer cs generalizing cut with
  | case1 outer cs ih =>
    obtain ⟨inner, hi, rfl⟩ := Option.map_eq_some_iff.1 h
    simp [ih hi]
  | case2 cs => cases h; rfl
  | case3 outer cs ih =>
    obtain ⟨inner, hi, rfl⟩ := Option.map_eq_some_iff.1 h
    simp [ih hi]
  | case4 outer c cs _ _ _ ih =>
    obtain ⟨inner, hi, rfl⟩ := Option.map_eq_some_iff.1 h
    simp [ih hi]
  | case5 => cases h

theorem map_eq_ok {ε α β : Type} {f : α → β} {r : Except ε α} {b : β}
    (h : r.map f = .ok b) : ∃ a, r = .ok a ∧ f a = b := by
  cases r with
  | error e => cases h
  | ok a => cases h; exact ⟨a, rfl, rfl⟩

theorem attributeBody_append {depth : Nat} {inString : Bool} {cs : List Char} {cut : Cut}
    (h : attributeBody depth inString cs = .ok cut) : cut.1 ++ ']' :: cut.2 = cs := by
  fun_induction attributeBody depth inString cs generalizing cut with
  | case1 => cases h
  | case2 => cases h
  | case3 depth c cs ih =>
    obtain ⟨inner, hi, rfl⟩ := map_eq_ok h
    simp [ih hi]
  | case4 => cases h
  | case5 => cases h; rfl
  | case6 depth cs ih =>
    obtain ⟨inner, hi, rfl⟩ := map_eq_ok h
    simp [ih hi]
  | case7 depth cs ih =>
    obtain ⟨inner, hi, rfl⟩ := map_eq_ok h
    simp [ih hi]
  | case8 depth inString cs ih =>
    obtain ⟨inner, hi, rfl⟩ := map_eq_ok h
    simp [ih hi]
  | case9 depth inString c cs _ _ _ _ _ _ ih =>
    obtain ⟨inner, hi, rfl⟩ := map_eq_ok h
    simp [ih hi]

theorem decimal_append {cs : List Char} {cut : Cut} (h : decimal cs = some cut) :
    cut.1 ++ cut.2 = cs ∧ cut.1 ≠ [] := by
  cases cs with
  | nil => cases h
  | cons c cs =>
    simp only [decimal] at h
    split at h
    · cases h
      exact ⟨congrArg (c :: ·) (run_append _ cs), List.cons_ne_nil _ _⟩
    · cases h

theorem radixed_append {cs : List Char} {cut : Cut} (h : radixed cs = some cut) :
    cut.1 ++ cut.2 = cs ∧ cut.1 ≠ [] := by
  unfold radixed at h
  split at h
  · next letter cs =>
    obtain ⟨p, _, h⟩ := Option.bind_eq_some_iff.1 h
    split at h
    · cases h
    · next digits rest _ hr =>
      cases h
      have := run_append (fun d => p d || d == '_') cs
      rw [hr] at this
      simp [← this]
  · cases h

theorem typeSuffix_append (cs : List Char) : (typeSuffix cs).1 ++ (typeSuffix cs).2 = cs := by
  unfold typeSuffix
  split
  · next t ht =>
    have := List.find?_some ht
    obtain ⟨rest, rfl⟩ := List.isPrefixOf_iff_prefix.1 this
    simp [← String.length_toList]
  · rfl

theorem integer_append {cs : List Char} {cut : Cut} (h : integer cs = some cut) :
    cut.1 ++ cut.2 = cs ∧ cut.1 ≠ [] := by
  obtain ⟨inner, hi, rfl⟩ := Option.map_eq_some_iff.1 h
  have key : inner.1 ++ inner.2 = cs ∧ inner.1 ≠ [] := by
    rcases hr : radixed cs with _ | cut
    · rw [hr] at hi; exact decimal_append hi
    · rw [hr] at hi; cases hi; exact radixed_append hr
  refine ⟨?_, ?_⟩
  · simp only [List.append_assoc, typeSuffix_append]
    exact key.1
  · simp [key.2]

theorem mark_spelling_ne_nil (m : Mark) : m.spelling ≠ [] := by cases m <;> simp [Mark.spelling]

theorem plainLexeme_append {c : Char} {more : List Char} {s : Scanned}
    (h : plainLexeme c more = .ok s) : s.2.1 ++ s.2.2 = c :: more ∧ s.2.1 ≠ [] := by
  unfold plainLexeme at h
  split at h
  · next hi =>
    split at h
    · cases h
    · cases h; exact integer_append hi
  · split at h
    · cases h
      exact ⟨congrArg (c :: ·) (run_append _ more), List.cons_ne_nil _ _⟩
    · split at h
      · next m hm =>
        cases h
        have hp : m.spelling.isPrefixOf (c :: more) = true :=
          by simpa using List.find?_some hm
        obtain ⟨rest, hr⟩ := List.isPrefixOf_iff_prefix.1 hp
        exact ⟨by simp [← hr], mark_spelling_ne_nil m⟩
      · cases h

theorem attr_append {opener cs : List Char} {s : Scanned} (h : attr opener cs = .ok s) :
    s.2.1 ++ s.2.2 = opener ++ cs ∧ s.2.1 ≠ [] := by
  unfold attr at h
  split at h
  · cases h
  · next hb =>
    cases h
    simp [← attributeBody_append hb]

/-- A spelling and the rest make up the text, and no spelling is empty. -/
theorem scan_spec {c : Char} {more : List Char} {s : Scanned} (h : scan c more = .ok s) :
    s.2.1 ++ s.2.2 = c :: more ∧ s.2.1 ≠ [] := by
  have line : (restOfLine ('/' :: '/' :: more.drop 1)).1 ≠ [] := by simp [restOfLine, run]
  unfold scan at h
  split at h
  · cases h
    exact ⟨congrArg (c :: ·) (run_append _ more), List.cons_ne_nil _ _⟩
  · split at h
    · cases h; exact ⟨run_append _ _, line⟩
    · cases h; exact ⟨run_append _ _, line⟩
    · cases h; exact ⟨run_append _ _, line⟩
    · split at h
      · next hb => cases h; simp [gap, ← blockComment_append hb]
      · cases h
    · exact attr_append h
    · exact attr_append h
    · exact plainLexeme_append h

/-- A spelling and the rest of the text make up the text. -/
theorem scan_append {c : Char} {more : List Char} {s : Scanned} (h : scan c more = .ok s) :
    s.2.1 ++ s.2.2 = c :: more :=
  (scan_spec h).1

/-- No spelling is empty. -/
theorem scan_ne_nil {c : Char} {more : List Char} {s : Scanned} (h : scan c more = .ok s) :
    s.2.1 ≠ [] :=
  (scan_spec h).2

theorem scan_length_lt {c : Char} {more : List Char} {s : Scanned} (h : scan c more = .ok s) :
    s.2.2.length < (c :: more).length := by
  have hl := congrArg List.length (scan_append h)
  have hn := List.length_pos_iff.2 (scan_ne_nil h)
  rw [List.length_append] at hl
  omega

end Lexer

/-- The tokens of the text `cs`, whose first character is at `p`. -/
def tokensFrom (p : Position) (cs : List Char) : Except Error TokenList :=
  match cs with
  | [] => .ok ⟨[], p⟩
  | c :: more =>
    match h : Lexer.scan c more with
    | .error fault => .error ⟨.lexical fault, some p⟩
    | .ok scanned =>
      have := Lexer.scan_length_lt h
      match tokensFrom (p.advance scanned.2.1) scanned.2.2 with
      | .error e => .error e
      | .ok list =>
        match scanned.1 with
        | none => .ok list
        | some lexeme => .ok { list with tokens := ⟨lexeme, p⟩ :: list.tokens }
termination_by cs.length
decreasing_by assumption

/-- The tokens of a text. -/
def tokenize (text : String) : Except Error TokenList := tokensFrom .start text.toList

end MaskEnum
