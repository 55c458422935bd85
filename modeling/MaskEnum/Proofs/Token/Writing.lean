import MaskEnum.Proofs.Token.Gaps
import MaskEnum.Proofs.Token.Identifier
set_option autoImplicit false

/-!
# Tokenizing undoes writing

Well-formed lexemes can be written down with any white space and any comments between them, as long
as white space stands right behind each, and a line feed behind a doc comment. The text has these
lexemes as tokens, in order, and no others.

## Main definitions

* `MaskEnum.Lexeme.WellFormed` — identifiers, integers, marks, attributes and doc comments that
  can be written.
* `MaskEnum.Lexeme.written` — how a lexeme is written.
* `MaskEnum.Lexeme.Separator` — what may stand between a lexeme and the next one.

## Main results

* `MaskEnum.Lexeme.WellFormed.exists_scan` — a written lexeme is cut off as a whole.
* `MaskEnum.tokenize_written` — the tokens of a written text.
-/

namespace MaskEnum

namespace Lexer

/-! ## What can be written -/

/-- The inside of a double-quoted string. A backslash hides the character after it. -/
inductive StringBody : List Char → Prop
  | nil : StringBody []
  | char {c : Char} {rest : List Char} : c ≠ '"' → c ≠ '\\' → StringBody rest →
      StringBody (c :: rest)
  | hidden {c : Char} {rest : List Char} : StringBody rest → StringBody ('\\' :: c :: rest)

/-- A text whose double-quoted strings are closed, and whose brackets outside of them balance. -/
inductive Balanced : List Char → Prop
  | nil : Balanced []
  | char {c : Char} {rest : List Char} : c ∉ ['[', ']', '"'] → Balanced rest → Balanced (c :: rest)
  | brackets {inner rest : List Char} : Balanced inner → Balanced rest →
      Balanced ('[' :: (inner ++ ']' :: rest))
  | string {inside rest : List Char} : StringBody inside → Balanced rest →
      Balanced ('"' :: (inside ++ '"' :: rest))

/-- The name of an integer type, or nothing. -/
def IsTypeSuffix (cs : List Char) : Prop := cs = [] ∨ ∃ t : IntType, cs = t.name.toList

/-- An integer: digits and underscores, behind a radix mark or with a decimal digit in front, and
the name of a type or nothing. -/
inductive IntegerText : List Char → Prop
  | radixed {letter : Char} {isDigit : Char → Bool} {digits suffix : List Char} :
      radixDigit? letter = some isDigit → digits ≠ [] →
      (∀ d ∈ digits, (isDigit d || d == '_') = true) → IsTypeSuffix suffix →
      IntegerText ('0' :: letter :: (digits ++ suffix))
  | decimal {first : Char} {digits suffix : List Char} : first.isDigit = true →
      (∀ d ∈ digits, (d.isDigit || d == '_') = true) → IsTypeSuffix suffix →
      IntegerText (first :: (digits ++ suffix))

end Lexer

namespace Lexeme

open Lexer

/-- A lexeme that can be written. Texts of attributes and doc comments have no blanks at their
ends, and a doc comment is a single line. -/
def WellFormed : Lexeme → Prop
  | ident name => Generated.isIdentifier name = true
  | int digits => IntegerText digits.toList
  | attr text => Text.strip text.toList = text.toList ∧ Balanced text.toList
  | doc text => Text.strip text.toList = text.toList ∧ '\n' ∉ text.toList
  | mark _ => True

/-- How a lexeme is written. -/
def written : Lexeme → List Char
  | ident name => name.toList
  | int digits => digits.toList
  | attr text => '#' :: '[' :: (text.toList ++ [']'])
  | doc text => '/' :: '/' :: '/' :: ' ' :: text.toList
  | mark m => m.spelling

/-- What may stand right behind a lexeme: white space, and a line feed behind a doc comment. -/
def mayPrecede : Lexeme → Char → Bool
  | doc _, c => c == '\n'
  | ident _, c | int _, c | attr _, c | mark _, c => isGap c

/-- What may stand between a lexeme and the next one. -/
def Separator (x : Lexeme) (cs : List Char) : Prop :=
  ∃ c rest, cs = c :: rest ∧ x.mayPrecede c = true ∧ Gap rest

/-- Lexemes as written, each with its separator behind it. -/
def writeAll (items : List (Lexeme × List Char)) : List Char :=
  items.flatMap fun (x, separator) => x.written ++ separator

end Lexeme

namespace Lexer

variable {rest : List Char}

/-! ## Attributes -/

/-- What is read of an attribute, with the text `front` before it. -/
def prepend (front : List Char) (result : Except LexicalFault Cut) : Except LexicalFault Cut :=
  result.map fun (body, rest) => (front ++ body, rest)

/-- Nothing in front changes nothing. -/
theorem prepend_nil (result : Except LexicalFault Cut) : prepend [] result = result := by
  cases result <;> rfl

/-- Two texts in front are one. -/
theorem prepend_prepend (front more : List Char) (result : Except LexicalFault Cut) :
    prepend front (prepend more result) = prepend (front ++ more) result := by
  cases result with
  | error fault => rfl
  | ok cut => simp [prepend, Except.map]

/-- In a string, a character that is neither a double quote nor a backslash is read alone. -/
theorem attributeBody_char_inString {c : Char} (hquote : c ≠ '"') (hback : c ≠ '\\') (depth : Nat)
    (cs : List Char) :
    attributeBody depth true (c :: cs) = prepend [c] (attributeBody depth true cs) := by
  rw [attributeBody.eq_def]
  split <;> simp_all [prepend]

/-- Outside of strings, so is one that is neither a double quote nor a bracket. -/
theorem attributeBody_char {c : Char} (hc : c ∉ ['[', ']', '"']) (depth : Nat) (cs : List Char) :
    attributeBody depth false (c :: cs) = prepend [c] (attributeBody depth false cs) := by
  rw [attributeBody.eq_def]
  split <;> simp_all [prepend]

/-- A double quote starts a string or ends one. -/
theorem attributeBody_quote (depth : Nat) (inString : Bool) (cs : List Char) :
    attributeBody depth inString ('"' :: cs) =
      prepend ['"'] (attributeBody depth (! inString) cs) := by
  rw [attributeBody.eq_def]
  cases inString <;> rfl

/-- A string inside an attribute is read to its end. -/
theorem StringBody.attributeBody_append {inside : List Char} (h : StringBody inside) (depth : Nat)
    (more : List Char) :
    attributeBody depth true (inside ++ more) =
      prepend inside (attributeBody depth true more) := by
  induction h with
  | nil => exact (prepend_nil _).symm
  | char hquote hback _ ih =>
    rw [List.cons_append, attributeBody_char_inString hquote hback, ih, prepend_prepend]
    rfl
  | @hidden c rest _ ih =>
    rw [List.cons_append, List.cons_append, attributeBody, ih]
    exact prepend_prepend ['\\', c] rest _

/-- A balanced text is read as part of the attribute around it. -/
theorem Balanced.attributeBody_append {text : List Char} (h : Balanced text) (depth : Nat)
    (more : List Char) :
    attributeBody depth false (text ++ more) =
      prepend text (attributeBody depth false more) := by
  induction h generalizing depth more with
  | nil => exact (prepend_nil _).symm
  | char hc _ ih =>
    rw [List.cons_append, attributeBody_char hc, ih, prepend_prepend]
    rfl
  | @brackets inner rest _ _ ihinner ihrest =>
    rw [List.cons_append, List.append_assoc, List.cons_append, attributeBody, ihinner,
      attributeBody, ihrest]
    show prepend ['['] (prepend inner (prepend [']'] (prepend rest _))) = _
    simp only [prepend_prepend, List.cons_append, List.nil_append]
  | @string inside rest hinside _ ih =>
    rw [List.cons_append, List.append_assoc, List.cons_append, attributeBody_quote, Bool.not_false,
      hinside.attributeBody_append, attributeBody_quote, Bool.not_true, ih]
    simp only [prepend_prepend, List.cons_append, List.nil_append]

/-- The text of an attribute ends at the bracket that closes it. -/
theorem Balanced.attributeBody_eq_ok {text : List Char} (h : Balanced text) (more : List Char) :
    attributeBody 0 false (text ++ ']' :: more) = .ok (text, more) := by
  rw [h.attributeBody_append, attributeBody]
  show Except.ok (text ++ [], more) = _
  rw [List.append_nil]

/-! ## Numbers -/

/-- A text without white space starts a longer text exactly if it starts what stands before the
first white space. -/
theorem isPrefixOf_append {l cs : List Char} (hl : l.any isGap = false)
    (hrest : ∀ c ∈ rest.head?, isGap c = true) : l.isPrefixOf (cs ++ rest) = l.isPrefixOf cs := by
  induction l generalizing cs with
  | nil => cases cs <;> cases rest <;> rfl
  | cons a l ih =>
    rw [List.any_cons, Bool.or_eq_false_iff] at hl
    obtain ⟨ha, hl⟩ := hl
    cases cs with
    | nil =>
      cases rest with
      | nil => rfl
      | cons c rest =>
        have hne : a ≠ c := by
          rintro rfl
          rw [hrest a rfl] at ha
          cases ha
        show (a == c && l.isPrefixOf rest) = false
        rw [beq_false_of_ne hne, Bool.false_and]
    | cons b cs => rw [List.cons_append, List.isPrefixOf, List.isPrefixOf, ih hl]

/-- White space and what follows it change nothing about which type name is found. -/
theorem find?_typeName_append (hrest : ∀ c ∈ rest.head?, isGap c = true) (cs : List Char) :
    IntType.all.find? (·.name.toList.isPrefixOf (cs ++ rest)) =
      IntType.all.find? (·.name.toList.isPrefixOf cs) := by
  refine congrArg (IntType.all.find? ·) (funext fun t => isPrefixOf_append ?_ hrest)
  cases t <;> rfl

/-- The name of a type at the end of a number is read, or nothing. -/
theorem typeSuffix_append_eq {suffix : List Char} (hsuffix : IsTypeSuffix suffix)
    (hrest : ∀ c ∈ rest.head?, isGap c = true) : typeSuffix (suffix ++ rest) = (suffix, rest) := by
  rw [typeSuffix, find?_typeName_append hrest]
  rcases hsuffix with rfl | ⟨t, rfl⟩
  · rfl
  · have hself : IntType.all.find? (·.name.toList.isPrefixOf t.name.toList) = some t := by
      cases t <;> decide
    rw [hself]
    simp [← String.length_toList]

/-- What may stand behind the digits of a number: white space, or a letter that starts the name of
a type. -/
def endsDigits (c : Char) : Bool := isGap c || c == 'i' || c == 'u'

/-- There are six such characters. -/
theorem eq_of_endsDigits {c : Char} (hc : endsDigits c = true) :
    c = ' ' ∨ c = '\t' ∨ c = '\r' ∨ c = '\n' ∨ c = 'i' ∨ c = 'u' := by
  simpa only [endsDigits, isGap, Bool.or_eq_true, beq_iff_eq, or_assoc] using hc

/-- The digits of a number end at its type or at white space. -/
theorem head?_suffix {suffix : List Char} (hsuffix : IsTypeSuffix suffix)
    (hrest : ∀ c ∈ rest.head?, isGap c = true) :
    ∀ c ∈ (suffix ++ rest).head?, endsDigits c = true := by
  intro c hc
  rcases hsuffix with rfl | ⟨t, rfl⟩
  · rw [endsDigits, hrest c hc, Bool.true_or, Bool.true_or]
  · have hhead : t.name.toList.head?.all endsDigits = true := by
      cases t <;> decide
    have hne : t.name.toList ≠ [] := by
      cases t <;> decide
    rw [List.head?_append_of_ne_nil _ hne] at hc
    rwa [hc] at hhead

/-- The digits of a number are read to their end. -/
theorem run_digits {isDigit : Char → Bool} {digits suffix : List Char}
    (hdigits : ∀ d ∈ digits, (isDigit d || d == '_') = true) (hsuffix : IsTypeSuffix suffix)
    (hrest : ∀ c ∈ rest.head?, isGap c = true)
    (hstop : ∀ c, endsDigits c = true → (isDigit c || c == '_') = false) :
    run (fun d => isDigit d || d == '_') (digits ++ (suffix ++ rest)) = (digits, suffix ++ rest) :=
  run_append_eq hdigits fun c hc => hstop c (head?_suffix hsuffix hrest c hc)

/-- What may stand behind the digits of a number is none of them. -/
theorem isDigit_of_endsDigits {letter : Char} {isDigit : Char → Bool}
    (hletter : radixDigit? letter = some isDigit) :
    ∀ c, endsDigits c = true → (isDigit c || c == '_') = false := by
  intro c hc
  unfold radixDigit? at hletter
  split at hletter
  · obtain rfl := Option.some.inj hletter
    rcases eq_of_endsDigits hc with rfl | rfl | rfl | rfl | rfl | rfl <;> rfl
  · obtain rfl := Option.some.inj hletter
    rcases eq_of_endsDigits hc with rfl | rfl | rfl | rfl | rfl | rfl <;> rfl
  · obtain rfl := Option.some.inj hletter
    rcases eq_of_endsDigits hc with rfl | rfl | rfl | rfl | rfl | rfl <;> rfl
  · cases hletter

/-- A number behind a radix mark is read to its end. -/
theorem radixed_append_eq {letter : Char} {isDigit : Char → Bool} {digits suffix : List Char}
    (hletter : radixDigit? letter = some isDigit) (hne : digits ≠ [])
    (hdigits : ∀ d ∈ digits, (isDigit d || d == '_') = true) (hsuffix : IsTypeSuffix suffix)
    (hrest : ∀ c ∈ rest.head?, isGap c = true) :
    radixed ('0' :: letter :: (digits ++ (suffix ++ rest))) =
      some ('0' :: letter :: digits, suffix ++ rest) := by
  have hstop := isDigit_of_endsDigits hletter
  simp only [radixed, hletter, Option.bind_some, run_digits hdigits hsuffix hrest hstop]

/-- A number with a radix mark does not go on as a floating-point number. -/
theorem startsFloat_radixed {letter : Char} {isDigit : Char → Bool}
    (hletter : radixDigit? letter = some isDigit) (cs : List Char) :
    startsFloat ('0' :: letter :: cs) = false := by
  unfold radixDigit? at hletter
  split at hletter
  · rfl
  · rfl
  · rfl
  · cases hletter

/-- A decimal number is read to its end. -/
theorem decimal_append_eq {first : Char} {digits suffix : List Char} (hfirst : first.isDigit = true)
    (hdigits : ∀ d ∈ digits, (d.isDigit || d == '_') = true) (hsuffix : IsTypeSuffix suffix)
    (hrest : ∀ c ∈ rest.head?, isGap c = true) :
    decimal (first :: (digits ++ (suffix ++ rest))) = some (first :: digits, suffix ++ rest) := by
  have hstop : ∀ c, endsDigits c = true → (c.isDigit || c == '_') = false := by
    intro c hc
    rcases eq_of_endsDigits hc with rfl | rfl | rfl | rfl | rfl | rfl <;> rfl
  rw [decimal, if_pos hfirst, run_digits hdigits hsuffix hrest hstop]

/-- Decimal digits are not taken for a radix mark. -/
theorem radixed_decimal {first : Char} {digits suffix : List Char}
    (hdigits : ∀ d ∈ digits, (d.isDigit || d == '_') = true) (hsuffix : IsTypeSuffix suffix)
    (hrest : ∀ c ∈ rest.head?, isGap c = true) :
    radixed (first :: (digits ++ (suffix ++ rest))) = none := by
  have hsecond : ∀ c ∈ (digits ++ (suffix ++ rest)).head?, radixDigit? c = none := by
    cases digits with
    | nil =>
      intro c hc
      rcases eq_of_endsDigits (head?_suffix hsuffix hrest c hc) with
        rfl | rfl | rfl | rfl | rfl | rfl <;> rfl
    | cons d digits =>
      intro c hc
      obtain rfl := Option.some.inj hc
      have hd := hdigits d List.mem_cons_self
      unfold radixDigit?
      split
      · cases hd
      · cases hd
      · cases hd
      · rfl
  unfold radixed
  split
  · next letter cs heq =>
    rw [hsecond letter ((List.cons.inj heq).2 ▸ rfl), Option.bind_none]
  · rfl

/-- Decimal digits with a type or white space behind them do not go on as a floating-point
number. -/
theorem startsFloat_decimal {cs digits more : List Char} (h : decimal cs = some (digits, more))
    (hmore : ∀ c ∈ more.head?, endsDigits c = true) : startsFloat cs = false := by
  have hhead : ∀ c cs, more = c :: cs → c ∉ ['.', 'e', 'E', 'f'] := by
    rintro c cs rfl
    rcases eq_of_endsDigits (hmore c rfl) with rfl | rfl | rfl | rfl | rfl | rfl <;> decide
  unfold startsFloat
  rw [h]
  split
  · next heq => exact absurd (by decide) (hhead _ _ (Prod.mk.inj (Option.some.inj heq)).2)
  · next heq => exact absurd (by decide) (hhead _ _ (Prod.mk.inj (Option.some.inj heq)).2)
  · next heq => exact absurd (by decide) (hhead _ _ (Prod.mk.inj (Option.some.inj heq)).2)
  · next heq => exact absurd (by decide) (hhead _ _ (Prod.mk.inj (Option.some.inj heq)).2)
  · next heq => exact absurd (by decide) (hhead _ _ (Prod.mk.inj (Option.some.inj heq)).2)
  · rfl

/-- **Numbers.** A number is read to its end, and it does not go on as a floating-point number. -/
theorem IntegerText.integer_append {digits : List Char} (h : IntegerText digits)
    (hrest : ∀ c ∈ rest.head?, isGap c = true) :
    integer (digits ++ rest) = some (digits, rest) ∧ startsFloat (digits ++ rest) = false := by
  cases h with
  | @radixed letter isDigit digits suffix hletter hne hdigits hsuffix =>
    rw [List.cons_append, List.cons_append, List.append_assoc]
    refine ⟨?_, startsFloat_radixed hletter _⟩
    rw [integer, radixed_append_eq hletter hne hdigits hsuffix hrest]
    simp [typeSuffix_append_eq hsuffix hrest]
  | @decimal first digits suffix hfirst hdigits hsuffix =>
    rw [List.cons_append, List.append_assoc]
    have hdecimal := decimal_append_eq hfirst hdigits hsuffix hrest
    refine ⟨?_, startsFloat_decimal hdecimal (head?_suffix hsuffix hrest)⟩
    rw [integer, radixed_decimal hdigits hsuffix hrest, hdecimal]
    simp [typeSuffix_append_eq hsuffix hrest]

/-! ## One lexeme -/

/-- What starts neither a gap nor a comment nor an attribute is a number, a name or a mark. -/
theorem scan_eq_plainLexeme {c : Char} {more : List Char} (hc : isGap c = false)
    (hhash : c = '#' → ¬ ['['] <+: more ∧ ¬ ['!', '['] <+: more)
    (hslash : c = '/' → ∀ d ∈ more.head?, d ≠ '/' ∧ d ≠ '*') :
    scan c more = plainLexeme c more := by
  unfold scan
  rw [if_neg (by simp [hc])]
  split
  · exact absurd rfl (hslash rfl _ rfl).1
  · exact absurd rfl (hslash rfl _ rfl).1
  · exact absurd rfl (hslash rfl _ rfl).1
  · exact absurd rfl (hslash rfl _ rfl).2
  · exact absurd ⟨_, rfl⟩ (hhash rfl).1
  · exact absurd ⟨_, rfl⟩ (hhash rfl).2
  · rfl

/-- Where no digit stands there is no decimal number. -/
theorem decimal_eq_none {c : Char} (hc : c.isDigit = false) (more : List Char) :
    decimal (c :: more) = none := by
  simp [decimal, hc]

/-- Nor is there a number with a radix mark. -/
theorem radixed_eq_none {c : Char} (hc : c.isDigit = false) (more : List Char) :
    radixed (c :: more) = none := by
  unfold radixed
  split
  · next heq =>
    obtain ⟨rfl, -⟩ := List.cons.inj heq
    cases hc
  · rfl

/-- So there is no number. -/
theorem integer_eq_none {c : Char} (hc : c.isDigit = false) (more : List Char) :
    integer (c :: more) = none := by
  rw [integer, radixed_eq_none hc, decimal_eq_none hc]
  rfl

/-- A character that starts a number or a name starts no gap, comment or attribute. -/
theorem scan_eq_plainLexeme_of_isNamePart {c : Char} (hc : isNamePart c = true)
    (more : List Char) : scan c more = plainLexeme c more := by
  refine scan_eq_plainLexeme ?_ ?_ ?_
  · cases hgap : isGap c with
    | false => rfl
    | true =>
      simp only [isGap, Bool.or_eq_true, beq_iff_eq] at hgap
      rcases hgap with ((rfl | rfl) | rfl) | rfl <;> cases hc
  · rintro rfl
    cases hc
  · rintro rfl
    cases hc

/-- What stands behind a name ends it. -/
theorem isNamePart_of_isGap {c : Char} (hc : isGap c = true) : isNamePart c = false := by
  simp only [isGap, Bool.or_eq_true, beq_iff_eq] at hc
  rcases hc with ((rfl | rfl) | rfl) | rfl <;> rfl

/-- A name is cut off as a whole. -/
theorem scan_identifier {name : String} (hname : Generated.isIdentifier name = true)
    (hrest : ∀ c ∈ rest.head?, isGap c = true) :
    ∃ c more, name.toList ++ rest = c :: more ∧
      scan c more = .ok (some (.ident name), name.toList, rest) := by
  unfold Generated.isIdentifier at hname
  split at hname
  · cases hname
  · next first letters heq =>
    obtain ⟨hfirst, hletters⟩ := Bool.and_eq_true_iff.mp hname
    have hrun : run isNamePart (letters ++ rest) = (letters, rest) :=
      run_append_eq (List.all_eq_true.mp hletters) fun c hc => isNamePart_of_isGap (hrest c hc)
    refine ⟨first, letters ++ rest, by rw [heq]; rfl, ?_⟩
    rw [scan_eq_plainLexeme_of_isNamePart (isNamePart_of_isNameStart hfirst), plainLexeme,
      integer_eq_none (isDigit_of_isNameStart hfirst)]
    simp only [isNameStart, hfirst, if_true, hrun, ← heq, String.ofList_toList]

/-- A number is cut off as a whole. -/
theorem scan_integer {digits : String} (hdigits : IntegerText digits.toList)
    (hrest : ∀ c ∈ rest.head?, isGap c = true) :
    ∃ c more, digits.toList ++ rest = c :: more ∧
      scan c more = .ok (some (.int digits), digits.toList, rest) := by
  obtain ⟨hinteger, hfloat⟩ := hdigits.integer_append hrest
  obtain ⟨first, more, hfirst, hpart⟩ : ∃ first more, digits.toList = first :: more ∧
      isNamePart first = true := by
    generalize digits.toList = cs at hdigits
    cases hdigits with
    | radixed => exact ⟨_, _, rfl, rfl⟩
    | decimal hfirst => exact ⟨_, _, rfl, isNamePart_of_isDigit hfirst⟩
  rw [hfirst, List.cons_append] at hinteger hfloat
  refine ⟨first, more ++ rest, by rw [hfirst]; rfl, ?_⟩
  rw [scan_eq_plainLexeme_of_isNamePart hpart, plainLexeme, hinteger]
  simp only [hfloat, ← hfirst, String.ofList_toList]
  rfl

/-- A mark is cut off as a whole. -/
theorem scan_mark (m : Mark) (hrest : ∀ c ∈ rest.head?, isGap c = true) :
    ∃ c more, m.spelling ++ rest = c :: more ∧
      scan c more = .ok (some (.mark m), m.spelling, rest) := by
  have hfind : Mark.all.find? (·.spelling.isPrefixOf (m.spelling ++ rest)) = some m := by
    have hsame : Mark.all.find? (·.spelling.isPrefixOf (m.spelling ++ rest)) =
        Mark.all.find? (·.spelling.isPrefixOf m.spelling) :=
      congrArg (Mark.all.find? ·)
        (funext fun m' => isPrefixOf_append (by cases m' <;> rfl) hrest)
    rw [hsame]
    cases m <;> decide
  -- no mark starts like another lexeme, and only one starts with a slash
  obtain ⟨first, more, hfirst, hgap, hhash, hdigit, hname, hsingle⟩ : ∃ first more,
      m.spelling = first :: more ∧ isGap first = false ∧ first ≠ '#' ∧ first.isDigit = false ∧
        isNameStart first = false ∧ (first = '/' → more = []) := by
    cases m <;> exact ⟨_, _, rfl, rfl, by decide, rfl, rfl, by decide⟩
  have hcons : m.spelling ++ rest = first :: (more ++ rest) := by
    rw [hfirst, List.cons_append]
  refine ⟨first, more ++ rest, hcons, ?_⟩
  have hslash : first = '/' → ∀ d ∈ (more ++ rest).head?, d ≠ '/' ∧ d ≠ '*' := by
    intro heq d hd
    obtain rfl := hsingle heq
    have hd := hrest d hd
    constructor <;> rintro rfl <;> cases hd
  rw [scan_eq_plainLexeme hgap (absurd · hhash) hslash, plainLexeme, integer_eq_none hdigit,
    ← hcons]
  simp only [hname, hfind, Bool.false_eq_true, if_false, List.drop_left]

/-- A doc comment is cut off as a whole. -/
theorem scan_doc {text : String} (hstrip : Text.strip text.toList = text.toList)
    (hline : '\n' ∉ text.toList) (hrest : ∀ c ∈ rest.head?, c = '\n') :
    scan '/' ('/' :: '/' :: ' ' :: (text.toList ++ rest)) =
      .ok (some (.doc text), '/' :: '/' :: '/' :: ' ' :: text.toList, rest) := by
  have hrun : restOfLine ('/' :: '/' :: '/' :: ' ' :: text.toList ++ rest) =
      ('/' :: '/' :: '/' :: ' ' :: text.toList, rest) := by
    refine run_append_eq (fun c hc => ?_) (fun c hc => ?_)
    · rw [bne_iff_ne]
      rintro rfl
      simp [hline] at hc
    · rw [hrest c hc]
      rfl
  show Except.ok (docComment ('/' :: '/' :: '/' :: ' ' :: text.toList ++ rest)) = _
  rw [docComment, hrun]
  have htext : Text.strip (' ' :: text.toList) = text.toList := hstrip
  simp only [List.drop_succ_cons, List.drop_zero, htext, String.ofList_toList]

end Lexer

namespace Lexeme

open Lexer

variable {rest : List Char}

/-- **One lexeme.** A well-formed lexeme that is written in front of a text is cut off as a whole,
if what stands behind it may. -/
theorem WellFormed.exists_scan {x : Lexeme} (hx : x.WellFormed)
    (hrest : ∀ c ∈ rest.head?, x.mayPrecede c = true) :
    ∃ c more, x.written ++ rest = c :: more ∧ scan c more = .ok (some x, x.written, rest) := by
  cases x with
  | ident name => exact scan_identifier hx hrest
  | int digits => exact scan_integer hx hrest
  | attr text =>
    obtain ⟨hstrip, hbalanced⟩ := hx
    refine ⟨'#', '[' :: (text.toList ++ ']' :: rest), by simp [written], ?_⟩
    show Lexer.attr ['#', '['] (text.toList ++ ']' :: rest) = _
    rw [Lexer.attr, hbalanced.attributeBody_eq_ok]
    simp [hstrip, written]
  | doc text =>
    exact ⟨_, _, rfl, scan_doc hx.1 hx.2 fun c hc => beq_iff_eq.mp (hrest c hc)⟩
  | mark m => exact scan_mark m hrest

/-- What may stand right behind a lexeme is white space. -/
theorem isGap_of_mayPrecede {x : Lexeme} {c : Char} (h : x.mayPrecede c = true) :
    isGap c = true := by
  cases x with
  | doc text =>
    obtain rfl := beq_iff_eq.mp h
    rfl
  | _ => exact h

/-- A well-formed lexeme in front of a text is spelled first. -/
theorem WellFormed.spells {x : Lexeme} (hx : x.WellFormed)
    (hrest : ∀ c ∈ rest.head?, x.mayPrecede c = true) {lexemes : List Lexeme}
    (h : Spells rest lexemes) : Spells (x.written ++ rest) (x :: lexemes) := by
  obtain ⟨c, more, hcons, hscan⟩ := hx.exists_scan hrest
  rw [hcons]
  exact .lexeme hscan h

/-- Lexemes in front of a text, each with its separator, are spelled in order. -/
theorem spells_writeAll {items : List (Lexeme × List Char)}
    (hitems : ∀ p ∈ items, p.1.WellFormed ∧ p.1.Separator p.2) {lexemes : List Lexeme}
    (h : Spells rest lexemes) :
    Spells (writeAll items ++ rest) (items.map Prod.fst ++ lexemes) := by
  induction items with
  | nil => exact h
  | cons p items ih =>
    obtain ⟨x, separator⟩ := p
    obtain ⟨⟨hx, c, gap, hseparator, hc, hgap⟩, hmore⟩ := List.forall_mem_cons.mp hitems
    obtain rfl : separator = c :: gap := hseparator
    have hsplit : writeAll ((x, c :: gap) :: items) ++ rest =
        x.written ++ c :: (gap ++ (writeAll items ++ rest)) := by
      simp [writeAll]
    rw [hsplit, List.map_cons, List.cons_append]
    refine hx.spells (fun d hd => ?_) (.cons (isGap_of_mayPrecede hc) (hgap.spells (ih hmore)))
    obtain rfl := Option.some.inj hd
    exact hc

end Lexeme

/-- **Tokenizing undoes writing.** Let well-formed lexemes be written one after the other, with any
gap in front of all and with any separator behind each, which the last one may go without. Then the
text is tokenized; its tokens are the lexemes in order, and they are followed by the end of the
text. -/
theorem tokenize_written {front : List Char} {items : List (Lexeme × List Char)}
    {last : Option Lexeme} (hfront : Lexer.Gap front)
    (hitems : ∀ p ∈ items, p.1.WellFormed ∧ p.1.Separator p.2) (hlast : ∀ x ∈ last, x.WellFormed)
    {text : String}
    (htext : text.toList = front ++ (Lexeme.writeAll items ++ last.elim [] Lexeme.written)) :
    ∃ list, tokenize text = .ok list ∧
      list.tokens.map Token.lexeme = items.map Prod.fst ++ last.toList ∧
      list.stop = Position.start.advance text.toList := by
  have hend : Lexer.Spells (last.elim [] Lexeme.written) last.toList := by
    cases last with
    | none => exact .nil
    | some x =>
      have hnext : ∀ c ∈ ([] : List Char).head?, x.mayPrecede c = true := by
        rintro c ⟨⟩
      have hx := (hlast x rfl).spells hnext .nil
      rwa [List.append_nil] at hx
  refine Lexer.Spells.tokenize_eq_ok ?_
  rw [htext]
  exact hfront.spells (Lexeme.spells_writeAll hitems hend)

/-- A doc comment, a name with a nested comment behind it, a number, and an attribute with a bracket
in a string. -/
def annotated : List (Lexeme × List Char) :=
  [(.doc "d", ['\n']), (.ident "A", [' ', '/', '*', '/', '*', '*', '/', '*', '/']),
    (.int "0x1fu8", ['\t']), (.attr "a[\"]\"]", ['\r', '\n'])]

/-- Behind a line comment and with a slash at the end, these are the tokens of a text. -/
theorem tokenize_written_annotated :
    Lexer.Gap ['/', '/', 'x', '\n'] ∧ (∀ p ∈ annotated, p.1.WellFormed ∧ p.1.Separator p.2) ∧
      ∃ list, tokenize "//x\n/// d\nA /*/**/*/0x1fu8\t#[a[\"]\"]]\r\n/" = .ok list ∧
        list.tokens.map Token.lexeme =
          [.doc "d", .ident "A", .int "0x1fu8", .attr "a[\"]\"]", .mark .slash] := by
  have hfront : Lexer.Gap ['/', '/', 'x', '\n'] :=
    @Lexer.Gap.line ['x'] [] (by decide) (by decide) .nil
  have hcomment : Lexer.Gap ['/', '*', '/', '*', '*', '/', '*', '/'] :=
    @Lexer.Gap.block ['/', '*', '*', '/', '*', '/'] []
      (@Lexer.CommentBody.nested ['*', '/'] ['*', '/'] .close .close) .nil
  have hname : Generated.isIdentifier "A" = true := by
    decide +kernel
  have hitems : ∀ p ∈ annotated, p.1.WellFormed ∧ p.1.Separator p.2 := by
    simp only [annotated, List.forall_mem_cons]
    refine ⟨⟨⟨by decide +kernel, by decide⟩, '\n', [], rfl, rfl, .nil⟩,
      ⟨hname, ' ', _, rfl, rfl, hcomment⟩,
      ⟨?_, '\t', [], rfl, rfl, .nil⟩,
      ⟨⟨by decide +kernel, ?_⟩, '\r', _, rfl, rfl, .space rfl .nil⟩, List.forall_mem_nil _⟩
    · exact @Lexer.IntegerText.radixed 'x' _ ['1', 'f'] ['u', '8'] rfl (by decide)
        (List.all_eq_true.mp rfl) (.inr ⟨.u8, rfl⟩)
    · exact .char (by decide) (@Lexer.Balanced.brackets ['"', ']', '"'] []
        (@Lexer.Balanced.string [']'] [] (.char (by decide) (by decide) .nil) .nil) .nil)
  obtain ⟨list, hlist, htokens, -⟩ :=
    @tokenize_written _ _ (some (.mark .slash)) hfront hitems
      (fun x hx => Option.some.inj hx ▸ trivial)
      "//x\n/// d\nA /*/**/*/0x1fu8\t#[a[\"]\"]]\r\n/" (by decide +kernel)
  exact ⟨hfront, hitems, list, hlist, htokens⟩

end MaskEnum
