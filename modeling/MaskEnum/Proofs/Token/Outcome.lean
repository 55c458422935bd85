import MaskEnum.Proofs.Token.Lines
import MaskEnum.Session
set_option autoImplicit false

/-!
# Texts that cannot be tokenized

A text cannot be tokenized exactly if, behind pieces that can be cut off, something stands that
cannot: a character that starts nothing, a floating-point literal, or a comment or an attribute that
the text does not close. The fault is reported at the place where this starts.

If the text ends inside a string of an attribute, its fault is no verdict on it, unlike all others.

## Main definitions

* `MaskEnum.Lexer.Unclosed` — the text of an attribute, with brackets that nothing closes.
* `MaskEnum.Lexer.OpenString` — the inside of a string that nothing closes.
* `MaskEnum.Lexer.Broken` — a text of which no piece can be cut off.
* `MaskEnum.Lexer.Cuts` — the part of a text in front that is cut off in pieces.

## Main results

* `MaskEnum.Lexer.scan_eq_error_iff` — no piece can be cut off of a broken text, and of no other.
* `MaskEnum.tokensFrom_eq_error_iff` — which texts cannot be tokenized, and where the fault is
  reported.
* `MaskEnum.tokenize_outcome` — the outcomes of tokenizing.

## Implementation notes

Which pieces a text is cut into depends on what stands behind them: `1` is cut off of `1 .5`, but
not of `1.5`. So `Cuts` speaks of a part of a text and of the rest behind it.
-/

namespace MaskEnum

namespace Lexer

/-! ## Attributes -/

/-- The text of an attribute that nothing closes: balanced texts with opening brackets between
them. -/
inductive Unclosed : List Char → Prop
  | balanced {body : List Char} : Balanced body → Unclosed body
  | opened {front rest : List Char} : Balanced front → Unclosed rest →
      Unclosed (front ++ '[' :: rest)

/-- The inside of a double-quoted string that nothing closes. A backslash at its end hides
nothing. -/
inductive OpenString : List Char → Prop
  | nil : OpenString []
  | backslash : OpenString ['\\']
  | char {c : Char} {rest : List Char} : c ≠ '"' → c ≠ '\\' → OpenString rest →
      OpenString (c :: rest)
  | hidden {c : Char} {rest : List Char} : OpenString rest → OpenString ('\\' :: c :: rest)

/-- What stands behind the unclosed text of an attribute: nothing, or a string that nothing
closes. -/
inductive AttributeEnd : LexicalFault → List Char → Prop
  | nothing : AttributeEnd .openAttribute []
  | string {inside : List Char} : OpenString inside → AttributeEnd .openString ('"' :: inside)

/-- The text of an attribute that nothing closes, inside which `depth` brackets are open. It closes
some of them, and then all of it is unclosed. -/
def UnclosedAt (depth : Nat) (body : List Char) : Prop :=
  ∃ closed ≤ depth, ClosesAt closed body ∨
    ∃ front rest, body = front ++ '[' :: rest ∧ ClosesAt closed front ∧ Unclosed rest

namespace UnclosedAt

variable {depth : Nat} {body : List Char}

/-- The end of the text. -/
theorem nil (depth : Nat) : UnclosedAt depth [] :=
  ⟨0, Nat.zero_le depth, .inl (.done .nil)⟩

/-- A piece may stand in front of the text that may stand in front of each closed one. -/
theorem append (piece : List Char)
    (hpiece : ∀ closed front, ClosesAt closed front → ClosesAt closed (piece ++ front))
    (h : UnclosedAt depth body) : UnclosedAt depth (piece ++ body) := by
  obtain ⟨closed, hle, hbody | ⟨front, rest, rfl, hfront, hrest⟩⟩ := h
  · exact ⟨closed, hle, .inl (hpiece closed body hbody)⟩
  · exact ⟨closed, hle, .inr ⟨piece ++ front, rest, by simp, hpiece closed front hfront, hrest⟩⟩

/-- A closing bracket in front. -/
theorem closed (h : UnclosedAt depth body) : UnclosedAt (depth + 1) (']' :: body) := by
  obtain ⟨closed, hle, hbody | ⟨front, rest, rfl, hfront, hrest⟩⟩ := h
  · exact ⟨closed + 1, Nat.succ_le_succ hle, .inl (.close .nil hbody)⟩
  · exact ⟨closed + 1, Nat.succ_le_succ hle, .inr ⟨_, rest, rfl, .close .nil hfront, hrest⟩⟩

/-- Where no bracket is open inside the attribute, the text closes none. -/
theorem unclosed (h : UnclosedAt 0 body) : Unclosed body := by
  obtain ⟨closed, hle, h⟩ := h
  obtain rfl := Nat.le_zero.mp hle
  rcases h with hbody | ⟨front, rest, rfl, hfront, hrest⟩
  · cases hbody with
    | done hbody => exact .balanced hbody
  · cases hfront with
    | done hfront => exact .opened hfront hrest

/-- An opening bracket in front. -/
theorem opened (h : UnclosedAt (depth + 1) body) : UnclosedAt depth ('[' :: body) := by
  obtain ⟨closed, hle, h⟩ := h
  cases closed with
  | zero =>
    -- nothing closes the bracket
    have hbody : Unclosed body := UnclosedAt.unclosed ⟨0, le_rfl, h⟩
    exact ⟨0, Nat.zero_le depth, .inr ⟨[], body, rfl, .done .nil, hbody⟩⟩
  | succ closed =>
    rcases h with hbody | ⟨front, rest, rfl, hfront, hrest⟩
    · exact ⟨closed, Nat.le_of_succ_le_succ hle, .inl hbody.opened⟩
    · exact ⟨closed, Nat.le_of_succ_le_succ hle, .inr ⟨_, rest, rfl, hfront.opened, hrest⟩⟩

end UnclosedAt

/-- The text of an attribute that cannot be read to its end, inside which `depth` brackets are
open. -/
def EndsEarly (depth : Nat) (fault : LexicalFault) (cs : List Char) : Prop :=
  ∃ body tail, cs = body ++ tail ∧ UnclosedAt depth body ∧ AttributeEnd fault tail

namespace EndsEarly

variable {depth deeper : Nat} {fault : LexicalFault} {cs : List Char}

/-- A piece may stand in front of the text that may stand in front of its unclosed part. -/
theorem append (piece : List Char)
    (hpiece : ∀ body, UnclosedAt deeper body → UnclosedAt depth (piece ++ body))
    (h : EndsEarly deeper fault cs) : EndsEarly depth fault (piece ++ cs) := by
  obtain ⟨body, tail, rfl, hbody, htail⟩ := h
  exact ⟨piece ++ body, tail, (List.append_assoc ..).symm, hpiece body hbody, htail⟩

/-- A plain character in front. -/
theorem char {c : Char} (hc : c ∉ ['[', ']', '"']) (h : EndsEarly depth fault cs) :
    EndsEarly depth fault (c :: cs) :=
  append [c] (fun _ => UnclosedAt.append [c] fun _ _ => ClosesAt.char hc) h

/-- A string in front. -/
theorem string {inside : List Char} (hinside : StringBody inside) (h : EndsEarly depth fault cs) :
    EndsEarly depth fault ('"' :: (inside ++ '"' :: cs)) := by
  have hpiece : ∀ closed front, ClosesAt closed front →
      ClosesAt closed ('"' :: (inside ++ ['"']) ++ front) := by
    intro closed front hfront
    simpa using hfront.string hinside
  simpa using append _ (fun _ => UnclosedAt.append _ hpiece) h

/-- A string that nothing closes. -/
theorem openString {inside : List Char} (hinside : OpenString inside) (depth : Nat) :
    EndsEarly depth .openString ('"' :: inside) :=
  ⟨[], _, rfl, .nil depth, .string hinside⟩

end EndsEarly

/-- What stands where the text of an attribute cannot be read to its end: its text, or the rest of a
string, which may be open itself. -/
theorem endsEarly_of_attributeBody {depth : Nat} {inString : Bool} {cs : List Char}
    {fault : LexicalFault} (h : attributeBody depth inString cs = .error fault) :
    if inString then
      (OpenString cs ∧ fault = .openString) ∨
        ∃ inside more, cs = inside ++ '"' :: more ∧ StringBody inside ∧ EndsEarly depth fault more
    else EndsEarly depth fault cs := by
  fun_induction attributeBody depth inString cs with
  | case1 => exact .inl ⟨.nil, (Except.error.inj h).symm⟩
  | case2 depth =>
    obtain rfl := Except.error.inj h
    exact ⟨[], [], rfl, .nil depth, .nothing⟩
  | case3 depth c cs ih =>
    rcases ih (map_eq_error.mp h) with ⟨hopen, hfault⟩ | ⟨inside, more, rfl, hinside, hmore⟩
    · exact .inl ⟨.hidden hopen, hfault⟩
    · exact .inr ⟨'\\' :: c :: inside, more, rfl, .hidden hinside, hmore⟩
  | case4 => exact .inl ⟨.backslash, (Except.error.inj h).symm⟩
  | case5 cs => cases h
  | case6 depth cs ih => exact .append [']'] (fun _ => UnclosedAt.closed) (ih (map_eq_error.mp h))
  | case7 depth cs ih => exact .append ['['] (fun _ => UnclosedAt.opened) (ih (map_eq_error.mp h))
  | case8 depth inString cs ih =>
    cases inString with
    | true => exact .inr ⟨[], cs, rfl, .nil, ih (map_eq_error.mp h)⟩
    | false =>
      rcases ih (map_eq_error.mp h) with ⟨hopen, rfl⟩ | ⟨inside, more, rfl, hinside, hmore⟩
      · exact .openString hopen depth
      · exact .string hinside hmore
  | case9 depth inString c cs h₁ h₂ h₃ h₄ h₅ h₆ ih =>
    cases inString with
    | true =>
      have hback : c ≠ '\\' := by
        cases cs with
        | nil => exact (h₂ rfl · rfl)
        | cons d cs => exact (h₁ d cs rfl · rfl)
      rcases ih (map_eq_error.mp h) with ⟨hopen, hfault⟩ | ⟨inside, more, rfl, hinside, hmore⟩
      · exact .inl ⟨.char h₆ hback hopen, hfault⟩
      · exact .inr ⟨c :: inside, more, rfl, .char h₆ hback hinside, hmore⟩
    | false =>
      have hclose : c ≠ ']' := by
        cases depth with
        | zero => exact h₃ rfl rfl
        | succ depth => exact h₄ depth rfl rfl
      have hplain : c ∉ ['[', ']', '"'] := by
        simp only [List.mem_cons, List.not_mem_nil, or_false, not_or]
        exact ⟨h₅ rfl, hclose, h₆⟩
      exact .char hplain (ih (map_eq_error.mp h))

/-- An open string is not read to its end. -/
theorem OpenString.attributeBody_eq_error {inside : List Char} (h : OpenString inside)
    (depth : Nat) : attributeBody depth true inside = .error .openString := by
  induction h with
  | nil => rw [attributeBody]
  | backslash => rw [attributeBody]
  | char hquote hback _ ih =>
    rw [attributeBody_char_inString hquote hback, ih]
    rfl
  | hidden _ ih =>
    rw [attributeBody, ih]
    rfl

/-- Nor is the text of an attribute that nothing closes. -/
theorem Unclosed.attributeBody_append {body tail : List Char} {fault : LexicalFault}
    (h : Unclosed body) (htail : AttributeEnd fault tail) (depth : Nat) :
    attributeBody depth false (body ++ tail) = .error fault := by
  induction h generalizing depth with
  | balanced hbody =>
    rw [hbody.attributeBody_append]
    cases htail with
    | nothing =>
      rw [attributeBody]
      rfl
    | string hinside =>
      rw [attributeBody_quote, Bool.not_false, hinside.attributeBody_eq_error]
      rfl
  | opened hfront _ ih =>
    rw [List.append_assoc, List.cons_append, hfront.attributeBody_append, attributeBody, ih]
    rfl

/-- The text of an attribute cannot be read to its end exactly if nothing closes it. -/
theorem attributeBody_eq_error_iff {cs : List Char} {fault : LexicalFault} :
    attributeBody 0 false cs = .error fault ↔
      ∃ body tail, cs = body ++ tail ∧ Unclosed body ∧ AttributeEnd fault tail := by
  constructor
  · intro h
    obtain ⟨body, tail, rfl, hbody, htail⟩ : EndsEarly 0 fault cs := endsEarly_of_attributeBody h
    exact ⟨body, tail, rfl, hbody.unclosed, htail⟩
  · rintro ⟨body, tail, rfl, hbody, htail⟩
    exact hbody.attributeBody_append htail 0

/-! ## Block comments -/

/-- A block comment cannot be read to its end exactly if nothing closes it. -/
theorem blockComment_eq_none_iff {cs : List Char} :
    blockComment 0 cs = none ↔ ∀ body, CommentBody body → ¬ body <+: cs := by
  constructor
  · rintro hnone body hbody ⟨more, rfl⟩
    rw [(hbody.blockComment_append more).1] at hnone
    cases hnone
  · intro hall
    cases hcut : blockComment 0 cs with
    | none => rfl
    | some cut =>
      exact absurd ⟨cut.2, blockComment_append hcut⟩
        (hall cut.1 (commentBody_of_blockComment hcut))

/-! ## Numbers -/

/-- Decimal digits end where they go on as a floating-point number. -/
theorem FloatTail.head?_append {tail : List Char} (h : FloatTail tail) (more : List Char) :
    ∀ c ∈ (tail ++ more).head?, (c.isDigit || c == '_') = false := by
  intro c hc
  cases h with
  | point | single | double =>
    obtain rfl := Option.some.inj hc
    rfl
  | exponent hmark | signed hmark =>
    obtain rfl := Option.some.inj hc
    rcases hmark with rfl | rfl <;> rfl

/-- A floating-point number starts with decimal digits that go on as one. -/
theorem startsFloat_iff_exists_digits {cs : List Char} :
    startsFloat cs = true ↔ ∃ first digits tail more, cs = first :: (digits ++ (tail ++ more)) ∧
      first.isDigit = true ∧ (∀ d ∈ digits, (d.isDigit || d == '_') = true) ∧ FloatTail tail := by
  rw [startsFloat_iff]
  constructor
  · rintro ⟨number, tail, more, hcut, htail⟩
    obtain ⟨first, digits, hfirst, hdigits, rfl⟩ := decimal_eq_some hcut
    exact ⟨first, digits, tail, more, (decimal_append hcut).1.symm, hfirst, hdigits, htail⟩
  · rintro ⟨first, digits, tail, more, rfl, hfirst, hdigits, htail⟩
    refine ⟨first :: digits, tail, more, ?_, htail⟩
    rw [decimal, if_pos hfirst, run_append_eq hdigits (htail.head?_append more)]

/-! ## Pieces -/

/-- No piece can be cut off of the text, for this fault: it starts with a character that starts
nothing, with a floating-point literal, or with a comment or an attribute that it does not
close. -/
inductive Broken : LexicalFault → List Char → Prop
  | unexpected {c : Char} {more : List Char} : isGap c = false → isNamePart c = false →
      (∀ m : Mark, ¬ m.spelling <+: c :: more) → ¬ ['#', '['] <+: c :: more →
      ¬ ['#', '!', '['] <+: c :: more → Broken (.unexpected c) (c :: more)
  | floatLiteral {first : Char} {digits tail more : List Char} : first.isDigit = true →
      (∀ d ∈ digits, (d.isDigit || d == '_') = true) → FloatTail tail →
      Broken .floatLiteral (first :: (digits ++ (tail ++ more)))
  | openComment {more : List Char} : (∀ body, CommentBody body → ¬ body <+: more) →
      Broken .openComment ('/' :: '*' :: more)
  | openAttribute {opener body tail : List Char} {fault : LexicalFault} :
      opener = ['#', '['] ∨ opener = ['#', '!', '['] → Unclosed body → AttributeEnd fault tail →
      Broken fault (opener ++ (body ++ tail))

/-- Where a digit stands, an integer can be cut off. -/
theorem integer_eq_none_iff {c : Char} {more : List Char} :
    integer (c :: more) = none ↔ c.isDigit = false := by
  refine ⟨fun h => ?_, fun hc => integer_eq_none hc more⟩
  by_contra hc
  rw [Bool.not_eq_false] at hc
  simp [integer, decimal, hc] at h

/-- A number or a name starts with what may stand in a name. -/
theorem isNamePart_eq_false_iff {c : Char} :
    isNamePart c = false ↔ c.isDigit = false ∧ isNameStart c = false := by
  simp only [isNamePart, isNameStart, Char.isAlphanum, Bool.or_eq_false_iff]
  tauto

/-- What is no number, no name and no mark is a floating-point literal, or it starts with a
character that starts none of them. -/
theorem plainLexeme_eq_error_iff {c : Char} {more : List Char} {fault : LexicalFault} :
    plainLexeme c more = .error fault ↔
      (fault = .floatLiteral ∧ startsFloat (c :: more) = true) ∨
        fault = .unexpected c ∧ isNamePart c = false ∧ ∀ m : Mark, ¬ m.spelling <+: c :: more := by
  have hmark : Mark.all.find? (·.spelling.isPrefixOf (c :: more)) = none ↔
      ∀ m : Mark, ¬ m.spelling <+: c :: more := by
    simp only [List.find?_eq_none, List.isPrefixOf_iff_prefix]
    exact ⟨fun h m => h m (by cases m <;> decide), fun h m _ => h m⟩
  rw [← hmark]
  constructor
  · intro h
    unfold plainLexeme at h
    split at h
    · split_ifs at h with hfloat
      exact .inl ⟨(Except.error.inj h).symm, hfloat⟩
    · next hinteger =>
      split_ifs at h with hstart
      split at h
      · cases h
      · next hnone =>
        refine .inr ⟨(Except.error.inj h).symm, ?_, hnone⟩
        exact isNamePart_eq_false_iff.mpr
          ⟨integer_eq_none_iff.mp hinteger, Bool.not_eq_true _ ▸ hstart⟩
  · rintro (⟨rfl, hfloat⟩ | ⟨rfl, hpart, hnone⟩)
    · obtain ⟨digits, hdigits⟩ : ∃ cut, integer (c :: more) = some cut := by
        rw [← Option.ne_none_iff_exists', ne_eq, integer_eq_none_iff]
        obtain ⟨first, digits, tail, rest, hcons, hfirst, -⟩ :=
          startsFloat_iff_exists_digits.mp hfloat
        obtain ⟨rfl, -⟩ := List.cons.inj hcons
        simp [hfirst]
      simp only [plainLexeme, hdigits, hfloat, if_true]
    · obtain ⟨hdigit, hstart⟩ := isNamePart_eq_false_iff.mp hpart
      simp [plainLexeme, integer_eq_none hdigit, hstart, hnone]

/-- An attribute is not read to its end exactly if its text is not. -/
theorem attr_eq_error_iff {opener cs : List Char} {fault : LexicalFault} :
    attr opener cs = .error fault ↔ attributeBody 0 false cs = .error fault := by
  unfold attr
  split <;> simp_all

/-- **Broken texts.** No piece can be cut off of a broken text, and of no other. -/
theorem scan_eq_error_iff {c : Char} {more : List Char} {fault : LexicalFault} :
    scan c more = .error fault ↔ Broken fault (c :: more) := by
  constructor
  · intro h
    unfold scan at h
    split_ifs at h with hgap
    split at h
    · cases h
    · cases h
    · cases h
    · split at h
      · cases h
      · next hnone =>
        obtain rfl := Except.error.inj h
        exact .openComment (blockComment_eq_none_iff.mp hnone)
    · obtain ⟨body, tail, rfl, hbody, htail⟩ :=
        attributeBody_eq_error_iff.mp (attr_eq_error_iff.mp h)
      exact .openAttribute (.inl rfl) hbody htail
    · obtain ⟨body, tail, rfl, hbody, htail⟩ :=
        attributeBody_eq_error_iff.mp (attr_eq_error_iff.mp h)
      exact .openAttribute (.inr rfl) hbody htail
    · next hattr hinner =>
      rcases plainLexeme_eq_error_iff.mp h with ⟨rfl, hfloat⟩ | ⟨rfl, hpart, hmark⟩
      · obtain ⟨first, digits, tail, rest, hcons, hfirst, hdigits, htail⟩ :=
          startsFloat_iff_exists_digits.mp hfloat
        rw [hcons]
        exact .floatLiteral hfirst hdigits htail
      · refine .unexpected (Bool.not_eq_true _ ▸ hgap) hpart hmark ?_ ?_
        · rintro ⟨rest, hrest⟩
          obtain ⟨rfl, rfl⟩ := List.cons.inj hrest
          exact hattr _ rfl rfl
        · rintro ⟨rest, hrest⟩
          obtain ⟨rfl, rfl⟩ := List.cons.inj hrest
          exact hinner _ rfl rfl
  · intro h
    generalize hcons : c :: more = cs at h
    cases h with
    | @unexpected c' more' hgap hpart hmark hattr hinner =>
      obtain ⟨rfl, rfl⟩ := List.cons.inj hcons
      rw [scan_eq_plainLexeme hgap]
      · exact plainLexeme_eq_error_iff.mpr (.inr ⟨rfl, hpart, hmark⟩)
      · rintro rfl
        simpa using And.intro hattr hinner
      · rintro rfl
        exact absurd ⟨more, rfl⟩ (hmark .slash)
    | floatLiteral hfirst hdigits htail =>
      have hfloat : startsFloat (c :: more) = true :=
        startsFloat_iff_exists_digits.mpr ⟨_, _, _, _, hcons, hfirst, hdigits, htail⟩
      obtain ⟨rfl, rfl⟩ := List.cons.inj hcons
      rw [scan_eq_plainLexeme_of_isNamePart (isNamePart_of_isDigit hfirst)]
      exact plainLexeme_eq_error_iff.mpr (.inl ⟨rfl, hfloat⟩)
    | openComment hnone =>
      obtain ⟨rfl, rfl⟩ := List.cons.inj hcons
      unfold scan
      rw [if_neg (by decide)]
      simp only [blockComment_eq_none_iff.mpr hnone]
    | openAttribute hopener hbody htail =>
      have h := attributeBody_eq_error_iff.mpr ⟨_, _, rfl, hbody, htail⟩
      rcases hopener with rfl | rfl
      · obtain ⟨rfl, rfl⟩ := List.cons.inj hcons
        exact attr_eq_error_iff.mpr h
      · obtain ⟨rfl, rfl⟩ := List.cons.inj hcons
        exact attr_eq_error_iff.mpr h

/-- A broken text is not empty. -/
theorem Broken.exists_cons {fault : LexicalFault} {cs : List Char} (h : Broken fault cs) :
    ∃ c more, cs = c :: more := by
  cases h with
  | unexpected | floatLiteral | openComment => exact ⟨_, _, rfl⟩
  | openAttribute hopener => rcases hopener with rfl | rfl <;> exact ⟨_, _, rfl⟩

/-- The text `front` is cut off in pieces, where the text `rest` stands behind it. -/
inductive Cuts : List Char → List Char → Prop
  | nil {rest : List Char} : Cuts [] rest
  | piece {c : Char} {more used front rest : List Char} {said : Option Lexeme} :
      scan c more = .ok (said, used, front ++ rest) → Cuts front rest → Cuts (used ++ front) rest

end Lexer

open Lexer

/-- What is cut off in pieces is made up of gaps and the spellings of tokens. -/
theorem tiled_of_cuts {front rest : List Char} (h : Cuts front rest) (before : List Char) :
    ∃ tokens, Tiled before front tokens (.behind (before ++ front)) := by
  induction h generalizing before with
  | nil => exact ⟨[], .stop (.gap .nil)⟩
  | @piece c more used front rest said hscan _ ih =>
    obtain ⟨tokens, htokens⟩ := ih (before ++ used)
    rw [List.append_assoc] at htokens
    cases said with
    | none => exact ⟨tokens, htokens.scan_gap hscan (List.prefix_append front rest)⟩
    | some x => exact ⟨_, htokens.scan_lexeme hscan (List.prefix_append front rest)⟩

/-- The end of a text that tokens tile is the place behind it. -/
theorem Tiled.stop_eq {before cs : List Char} {tokens : List Token} {stop : Position}
    (h : Tiled before cs tokens stop) : stop = .behind (before ++ cs) := by
  induction h with
  | stop => rfl
  | token _ _ _ _ ih => simpa using ih

/-- A text of which no piece can be cut off is not tokenized; the fault is reported at its start. -/
theorem tokensFrom_eq_error {c : Char} {more : List Char} {fault : LexicalFault}
    (h : scan c more = .error fault) (p : Position) :
    tokensFrom p (c :: more) = .error ⟨.lexical fault, some p⟩ := by
  rw [tokensFrom]
  split
  · next fault' hfault =>
    obtain rfl := Except.error.inj (h.symm.trans hfault)
    rfl
  · next scanned hscanned =>
    rw [h] at hscanned
    cases hscanned

/-- **One run.** A text that stands behind another one cannot be tokenized exactly if it is broken
behind some pieces that can be cut off; the fault is reported at the place behind them. -/
theorem tokensFrom_eq_error_iff {before cs : List Char} {err : Error} :
    tokensFrom (.behind before) cs = .error err ↔
      ∃ front rest fault, cs = front ++ rest ∧ Cuts front rest ∧ Broken fault rest ∧
        err = ⟨.lexical fault, some (.behind (before ++ front))⟩ := by
  constructor
  · intro h
    generalize hp : Position.behind before = p at h
    fun_induction tokensFrom p cs generalizing before err with
    | case1 => cases h
    | case2 p c more fault hscan =>
      obtain rfl := Except.error.inj h
      subst hp
      exact ⟨[], c :: more, fault, rfl, .nil, scan_eq_error_iff.mp hscan, by simp⟩
    | case3 p c more scanned hscan _ err' htail ih =>
      obtain rfl := Except.error.inj h
      obtain ⟨said, used, left⟩ := scanned
      subst hp
      obtain ⟨front, rest, fault, rfl, hcuts, hbroken, rfl⟩ :=
        ih (Position.advance_behind before used).symm htail
      refine ⟨used ++ front, rest, fault, ?_, .piece hscan hcuts, hbroken, by simp⟩
      rw [← scan_append hscan, List.append_assoc]
    | case4 => cases h
    | case5 => cases h
  · rintro ⟨front, rest, fault, rfl, hcuts, hbroken, rfl⟩
    induction hcuts generalizing before with
    | nil =>
      obtain ⟨c, more, rfl⟩ := hbroken.exists_cons
      rw [List.append_nil]
      exact tokensFrom_eq_error (scan_eq_error_iff.mpr hbroken) _
    | @piece c more used front rest said hscan _ ih =>
      rw [List.append_assoc, scan_append hscan, tokensFrom_cons hscan, Position.advance_behind,
        ih hbroken, List.append_assoc]

/-- **Outcomes.** A text that is tokenized is tiled by its tokens, and the place of its end is
found. A text cannot be tokenized exactly if it is broken behind some pieces that can be cut off;
these are tiled by tokens, and the fault is reported at the place behind them. The fault is no
verdict on the text exactly if the break is an attribute that ends inside one of its strings. -/
theorem tokenize_outcome (text : String) :
    (∀ list, tokenize text = .ok list →
        Tiled [] text.toList list.tokens list.stop ∧ list.stop = .behind text.toList) ∧
      (∀ err, tokenize text = .error err ↔
        ∃ front rest fault, text.toList = front ++ rest ∧ Cuts front rest ∧
          (∃ tokens, Tiled [] front tokens (.behind front)) ∧ Broken fault rest ∧
            err = ⟨.lexical fault, some (.behind front)⟩) ∧
      ((∃ err, tokenize text = .error err ∧ err.fault.isReported = false) ↔
        ∃ front opener body inside, (opener = ['#', '['] ∨ opener = ['#', '!', '[']) ∧
          Unclosed body ∧ OpenString inside ∧ Cuts front (opener ++ (body ++ '"' :: inside)) ∧
            text.toList = front ++ (opener ++ (body ++ '"' :: inside))) := by
  have herror : ∀ err, tokenize text = .error err ↔
      ∃ front rest fault, text.toList = front ++ rest ∧ Cuts front rest ∧ Broken fault rest ∧
        err = ⟨.lexical fault, some (.behind front)⟩ := fun err =>
    @tokensFrom_eq_error_iff [] text.toList err
  refine ⟨fun list h => ?_, fun err => ?_, ?_⟩
  · have htiled : Tiled [] text.toList list.tokens list.stop := tiled_of_tokensFrom h
    exact ⟨htiled, htiled.stop_eq⟩
  · rw [herror]
    refine exists_congr fun front => exists_congr fun rest => exists_congr fun fault => ?_
    exact and_congr_right fun _ => and_congr_right fun hcuts =>
      ⟨fun h => ⟨tiled_of_cuts hcuts [], h⟩, fun h => h.2⟩
  · constructor
    · rintro ⟨err, herr, hreported⟩
      obtain ⟨front, rest, fault, htext, hcuts, hbroken, rfl⟩ := (herror err).mp herr
      cases hbroken with
      | unexpected | floatLiteral | openComment => cases hreported
      | openAttribute hopener hbody htail =>
        cases htail with
        | nothing => cases hreported
        | string hinside => exact ⟨front, _, _, _, hopener, hbody, hinside, hcuts, htext⟩
    · rintro ⟨front, opener, body, inside, hopener, hbody, hinside, hcuts, htext⟩
      exact ⟨_, (herror _).mpr ⟨front, _, _, htext, hcuts,
        .openAttribute hopener hbody (.string hinside), rfl⟩, rfl⟩

/-- An attribute that ends right behind a double quote fails, but its fault is no verdict. -/
theorem tokenize_endsInString :
    tokenize "#[\"" = .error ⟨.lexical .openString, some ⟨1, 1⟩⟩ ∧
      (Fault.lexical .openString).isReported = false :=
  ⟨eq_error (by decide +kernel), rfl⟩

end MaskEnum
