import Mathlib.Algebra.GroupWithZero.Nat
import Mathlib.Data.List.Induction
import MaskEnum.Text.StringLiteral
set_option autoImplicit false

/-!
# Quoted text read as a literal

Quoting and reading literals are inverse to each other. Each character of a text is written as
itself or as one escape, and either is passed over by the search for the closing quote and read as
that character.

## Main definitions

* `MaskEnum.Text.WrittenAs` — what stands for a character between two quotes.

## Main results

* `MaskEnum.Text.isPrintable_of_mem_quote` — a quoted text is printable.
* `MaskEnum.Text.readLiteral_quote` — a quoted text is one literal, and it writes the text.
-/

namespace MaskEnum.Text

/-! ## Digits of escapes -/

/-- A hexadecimal digit shows as itself. -/
theorem isPrintable_hexDigit (n : Nat) : isPrintable (hexDigit (n % 16)) = true := by
  have hall : ∀ m < 16, isPrintable (hexDigit m) = true := by decide
  exact hall _ (Nat.mod_lt n (by decide))

/-- A hexadecimal digit has the value that it is written for. -/
theorem hexValue?_hexDigit (n : Nat) : hexValue? (hexDigit (n % 16)) = some (n % 16) := by
  have hall : ∀ m < 16, hexValue? (hexDigit m) = some m := by decide
  exact hall _ (Nat.mod_lt n (by decide))

/-- The digits of a number are hexadecimal digits. -/
theorem exists_of_mem_hexDigits {width n : Nat} {c : Char} (h : c ∈ hexDigits width n) :
    ∃ m, c = hexDigit (m % 16) := by
  induction width generalizing n with
  | zero => cases h
  | succ width ih =>
    rcases List.mem_append.mp h with h | h
    · exact ih h
    · exact ⟨n, List.mem_singleton.mp h⟩

theorem length_hexDigits (width n : Nat) : (hexDigits width n).length = width := by
  induction width generalizing n with
  | zero => rfl
  | succ width ih => rw [hexDigits, List.length_append, ih, List.length_singleton]

/-- The digits of a number that fits their count are read as that number. -/
theorem readHex_hexDigits {width n : Nat} (h : n < 16 ^ width) (rest : List Char) :
    readHex width (hexDigits width n ++ rest) = some n := by
  have hlength := length_hexDigits width n
  have hshort : ¬ (hexDigits width n ++ rest).length < width := by
    rw [List.length_append]
    omega
  rw [readHex, if_neg hshort, List.take_left' hlength]
  clear hlength hshort
  induction width generalizing n with
  | zero =>
    obtain rfl : n = 0 := by omega
    rfl
  | succ width ih =>
    have hdiv : n / 16 < 16 ^ width := by omega
    rw [hexDigits, List.foldl_append, ih hdiv, List.foldl_cons, List.foldl_nil,
      hexValue?_hexDigit]
    exact congrArg some (Nat.div_add_mod' n 16)

/-! ## Printable text -/

/-- What stands for a character is printable. -/
theorem isPrintable_escapeChar {mark : Char} (hmark : isPrintable mark = true) (c : Char) :
    ∀ d ∈ escapeChar mark c, isPrintable d = true := by
  have hdigits : ∀ width, ∀ d ∈ hexDigits width c.toNat, isPrintable d = true := by
    intro width d hd
    obtain ⟨m, rfl⟩ := exists_of_mem_hexDigits hd
    exact isPrintable_hexDigit m
  unfold escapeChar
  split_ifs with hpair _ _ _ hprintable
  · have hc : isPrintable c = true := by
      rcases Bool.or_eq_true_iff.mp hpair with h | h
      · rw [of_decide_eq_true h, hmark]
      · rw [of_decide_eq_true h]
        decide
    exact List.forall_mem_cons.mpr ⟨by decide, List.forall_mem_singleton.mpr hc⟩
  · exact List.forall_mem_cons.mpr ⟨by decide, List.forall_mem_singleton.mpr (by decide)⟩
  · exact List.forall_mem_cons.mpr ⟨by decide, List.forall_mem_singleton.mpr (by decide)⟩
  · exact List.forall_mem_cons.mpr ⟨by decide, List.forall_mem_singleton.mpr (by decide)⟩
  · exact List.forall_mem_singleton.mpr hprintable
  all_goals
    exact List.forall_mem_cons.mpr ⟨by decide, List.forall_mem_cons.mpr ⟨by decide, hdigits _⟩⟩

/-- A text is quoted by one of two marks. -/
theorem quoteMark_eq (cs : List Char) : quoteMark cs = '"' ∨ quoteMark cs = '\'' := by
  unfold quoteMark
  split
  · exact .inl rfl
  · exact .inr rfl

/-- **Printable text.** All characters of a quoted text are printable. -/
theorem isPrintable_quote (cs : List Char) : ∀ c ∈ quote cs, isPrintable c = true := by
  have hmark : isPrintable (quoteMark cs) = true := by
    rcases quoteMark_eq cs with h | h <;> rw [h] <;> decide
  intro c hc
  rw [quote, List.cons_append, List.mem_cons, List.mem_append, List.mem_flatMap,
    List.mem_singleton] at hc
  rcases hc with rfl | ⟨d, -, hd⟩ | rfl
  · exact hmark
  · exact isPrintable_escapeChar hmark d c hd
  · exact hmark

/-! ## Escapes -/

/-- The characters of a literal that stand for `c` between two quotes `mark`: `c` itself, or an
escape that is read as `c` whatever stands behind it. -/
inductive WrittenAs (mark c : Char) : List Char → Prop
  | plain : c ≠ '\\' → c ≠ mark → c ≠ '\n' → WrittenAs mark c [c]
  | escape {d : Char} {digits : List Char} :
      (∀ rest, readEscape d (digits ++ rest) = some ([c.toNat], digits.length)) →
        (∀ e ∈ digits, e ≠ '\\' ∧ e ≠ mark ∧ e ≠ '\n') →
          WrittenAs mark c ('\\' :: d :: digits)

/-- A hexadecimal digit is no quote and no backslash and ends no line. -/
theorem plain_of_mem_hexDigits {mark : Char} (hmark : mark = '"' ∨ mark = '\'') {width n : Nat}
    {c : Char} (h : c ∈ hexDigits width n) : c ≠ '\\' ∧ c ≠ mark ∧ c ≠ '\n' := by
  obtain ⟨m, rfl⟩ := exists_of_mem_hexDigits h
  have hvalue := hexValue?_hexDigit m
  refine ⟨?_, ?_, ?_⟩
  · rintro heq
    rw [heq] at hvalue
    cases hvalue
  · rintro rfl
    rcases hmark with heq | heq <;> rw [heq] at hvalue <;> cases hvalue
  · rintro heq
    rw [heq] at hvalue
    cases hvalue

/-- An escape by digits is read as the number that they write. -/
theorem writtenAs_hexDigits {mark : Char} (hmark : mark = '"' ∨ mark = '\'') {c d : Char}
    {width : Nat} (h : c.toNat < 16 ^ width)
    (hread : ∀ cs, readHex width cs = some c.toNat → readEscape d cs = some ([c.toNat], width)) :
    WrittenAs mark c ('\\' :: d :: hexDigits width c.toNat) := by
  refine .escape (fun rest => ?_) fun e => plain_of_mem_hexDigits hmark
  rw [length_hexDigits]
  exact hread _ (readHex_hexDigits h rest)

/-- A character is a code point. -/
theorem toNat_lt (c : Char) : c.toNat < 0x110000 := by
  rcases c.valid with h | ⟨-, h⟩
  · exact Nat.lt_trans h (by decide)
  · exact h

/-- A character is written by its escape. -/
theorem writtenAs_escapeChar {mark : Char} (hmark : mark = '"' ∨ mark = '\'') (c : Char) :
    WrittenAs mark c (escapeChar mark c) := by
  unfold escapeChar
  split_ifs with hpair hfeed hreturn htab hprintable hbyte hword
  · -- the quote in use, or a backslash
    refine .escape (fun rest => ?_) (List.forall_mem_nil _)
    rcases Bool.or_eq_true_iff.mp hpair with h | h
    · obtain rfl := of_decide_eq_true h
      rcases hmark with rfl | rfl <;> rfl
    · obtain rfl := of_decide_eq_true h
      rfl
  · subst hfeed
    exact .escape (fun _ => rfl) (List.forall_mem_nil _)
  · subst hreturn
    exact .escape (fun _ => rfl) (List.forall_mem_nil _)
  · subst htab
    exact .escape (fun _ => rfl) (List.forall_mem_nil _)
  · obtain ⟨hquote, hslash⟩ : c ≠ mark ∧ c ≠ '\\' := by simpa using hpair
    exact .plain hslash hquote hfeed
  · refine writtenAs_hexDigits hmark hbyte fun cs hcs => ?_
    rw [readEscape, hcs]
    rfl
  · refine writtenAs_hexDigits hmark hword fun cs hcs => ?_
    rw [readEscape, hcs]
    rfl
  · have hsmall := toNat_lt c
    refine writtenAs_hexDigits hmark (Nat.lt_trans hsmall (by decide)) fun cs hcs => ?_
    rw [readEscape, hcs, Option.bind_some, if_pos hsmall]

/-! ## Bodies of literals -/

section Bodies

variable {mark c : Char} {front used : List Char}

/-- Plain characters belong to the body. -/
theorem literalBody_append (h : ∀ e ∈ front, e ≠ '\\' ∧ e ≠ mark ∧ e ≠ '\n') (cs : List Char) :
    literalBody mark false (front ++ cs) =
      (literalBody mark false cs).map fun a => (front ++ a.1, a.2) := by
  induction front with
  | nil => simp
  | cons e front ih =>
    obtain ⟨⟨hslash, hquote, hfeed⟩, hfront⟩ := List.forall_mem_cons.mp h
    rw [List.cons_append, literalBody, if_neg fun h => hquote h.1, if_neg fun h => hfeed h.1,
      ih hfront, Option.map_map]
    · rfl
    · exact fun h => absurd h hslash
    · exact fun _ _ h => absurd h hslash

/-- So does what stands for a character. -/
theorem WrittenAs.literalBody_append (h : WrittenAs mark c used) (cs : List Char) :
    literalBody mark false (used ++ cs) =
      (literalBody mark false cs).map fun a => (used ++ a.1, a.2) := by
  cases h with
  | plain hslash hquote hfeed =>
    exact Text.literalBody_append (List.forall_mem_singleton.mpr ⟨hslash, hquote, hfeed⟩) cs
  | escape _ hplain =>
    rw [List.cons_append, List.cons_append, literalBody, Text.literalBody_append hplain,
      Option.map_map]
    rfl

/-- Characters that belong to the escape before are passed over. -/
theorem unescapeFrom_append (front cs : List Char) :
    unescapeFrom front.length (front ++ cs) = unescapeFrom 0 cs := by
  induction front with
  | nil => rfl
  | cons e front ih => rw [List.length_cons, List.cons_append, unescapeFrom, ih]

/-- What stands for a character is read as that character. -/
theorem WrittenAs.unescapeFrom_append (h : WrittenAs mark c used) (cs : List Char) :
    unescapeFrom 0 (used ++ cs) = (unescapeFrom 0 cs).map (c.toNat :: ·) := by
  cases h with
  | plain hslash _ _ =>
    rw [List.singleton_append, unescapeFrom]
    exact fun _ _ h => absurd h hslash
  | escape hread _ =>
    rw [List.cons_append, List.cons_append, unescapeFrom, hread]
    dsimp only
    rw [Text.unescapeFrom_append]
    rfl

end Bodies

variable {mark : Char} (hmark : mark = '"' ∨ mark = '\'')

include hmark in
/-- The characters of a quoted text are the body of a literal that ends at the next quote. -/
theorem literalBody_flatMap (cs rest : List Char) :
    literalBody mark false (cs.flatMap (escapeChar mark) ++ mark :: rest) =
      some (cs.flatMap (escapeChar mark), rest) := by
  induction cs with
  | nil =>
    rw [List.flatMap_nil, List.nil_append]
    rcases hmark with rfl | rfl <;> rfl
  | cons c cs ih =>
    rw [List.flatMap_cons, List.append_assoc,
      (writtenAs_escapeChar hmark c).literalBody_append, ih]
    rfl

include hmark in
/-- They are read as the text. -/
theorem unescape_flatMap (cs : List Char) :
    unescape (cs.flatMap (escapeChar mark)) = some (cs.map Char.toNat) := by
  rw [unescape]
  induction cs with
  | nil => rfl
  | cons c cs ih =>
    rw [List.flatMap_cons, (writtenAs_escapeChar hmark c).unescapeFrom_append, ih]
    rfl

include hmark in
/-- What stands for a character does not start with the quote in use. -/
theorem WrittenAs.exists_cons {c : Char} {used : List Char} (h : WrittenAs mark c used) :
    ∃ d more, used = d :: more ∧ d ≠ mark := by
  cases h with
  | plain _ hquote _ => exact ⟨c, [], rfl, hquote⟩
  | escape _ _ => exact ⟨_, _, rfl, by rcases hmark with rfl | rfl <;> decide⟩

include hmark in
/-- A quoted text opens with one quote, not with three. -/
theorem openLiteral_flatMap (cs : List Char) :
    openLiteral mark (mark :: (cs.flatMap (escapeChar mark) ++ [mark])) =
      some (false, cs.flatMap (escapeChar mark) ++ [mark]) := by
  cases cs with
  | nil => simp [openLiteral]
  | cons c cs =>
    obtain ⟨d, more, hescape, hd⟩ := (writtenAs_escapeChar hmark c).exists_cons hmark
    obtain ⟨e, rest, hrest⟩ := List.exists_cons_of_ne_nil
      (List.append_ne_nil_of_right_ne_nil (more ++ cs.flatMap (escapeChar mark))
        (List.cons_ne_nil mark []))
    rw [List.flatMap_cons, hescape, List.cons_append, List.cons_append, hrest]
    simp [openLiteral, hd]

/-- **Quoted text.** A quoted text is one literal, and it writes the text. -/
theorem readLiteral_quote (cs : List Char) :
    readLiteral (quoteMark cs) (quote cs) = some (cs.map Char.toNat, []) := by
  have hmark := quoteMark_eq cs
  rw [readLiteral, quote, List.cons_append, openLiteral_flatMap hmark]
  show (literalBody _ false _).bind _ = _
  rw [literalBody_flatMap hmark]
  show (unescape _).bind _ = _
  rw [unescape_flatMap hmark]
  rfl

end MaskEnum.Text
