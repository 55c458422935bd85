import Mathlib.Tactic.Common
import MaskEnum.Initializer.Parser
import MaskEnum.Proofs.Text.Blank
import MaskEnum.Proofs.Token.Identifier
set_option autoImplicit false

/-!
# Integer tokens hold numerals

What the tokenizer cuts out as an integer is a body of digits and underscores, behind a radix mark
or not, and the name of an integer type or none. Reading it takes the same parts apart again, and
the digits of the body are digits of its base. So an integer token is a literal unless its body has
no digit at all, and the literal has the value that the digits have in their base.

## Main definitions

* `MaskEnum.Lexer.Radix` — the marks of bases, each with its digits.
* `MaskEnum.Lexer.Body` — the bodies of integers, each with its base and its digits.
* `MaskEnum.Literal.Numeral` — the texts that write a literal.
* `MaskEnum.Token.Proper` — a token that the tokenizer can make.

## Main results

* `MaskEnum.Lexer.integer_eq_some` — the parts of an integer that is cut out.
* `MaskEnum.Literal.read_of_integer` — such an integer is a literal, or its body has no digit.
* `MaskEnum.Literal.read_eq_ok` — the literal is the one that the numeral writes.
* `MaskEnum.tokenize_proper` — all tokens of a text are proper.
-/

namespace MaskEnum

namespace Lexer

/-! ## Digits -/

/-- Whether `c` is a digit of a base that no mark, sign or blank can be taken for, and no letter
that starts the name of an integer type. -/
def isPlainDigit (base : Nat) (c : Char) : Bool :=
  (Text.digitValue? c).any (· < base) && ! Text.isNumberBlank c
    && ! ['-', '+', '_', 'i', 'u'].contains c && Text.dropBaseMark base ['0', c] == ['0', c]

/-- The digits of integers, each with the mark in front of them and their base. Decimal digits
have no mark. -/
inductive Radix : List Char → (Char → Bool) → Nat → Prop
  | hexadecimal :
      Radix ['0', 'x'] (fun c => c.isDigit || ('a' ≤ c && c ≤ 'f') || ('A' ≤ c && c ≤ 'F')) 16
  | octal : Radix ['0', 'o'] (fun c => '0' ≤ c && c ≤ '7') 8
  | binary : Radix ['0', 'b'] (fun c => c == '0' || c == '1') 2
  | decimal : Radix [] Char.isDigit 10

variable {mark ds : List Char} {isDigit : Char → Bool} {base : Nat}

/-- The digits of integers are ASCII characters. -/
theorem Radix.lt (h : Radix mark isDigit base) {c : Char} (hc : isDigit c = true) :
    c.toNat < 128 := by
  have hle : ∀ d : Char, c ≤ d → d.toNat < 128 → c.toNat < 128 := fun d hcd hd =>
    Nat.lt_of_le_of_lt hcd hd
  cases h <;>
    simp only [Char.isDigit, Bool.or_eq_true, Bool.and_eq_true, decide_eq_true_eq, beq_iff_eq] at hc
  · rcases hc with (⟨-, hc⟩ | ⟨-, hc⟩) | ⟨-, hc⟩
    · exact hle '9' hc (by decide)
    · exact hle 'f' hc (by decide)
    · exact hle 'F' hc (by decide)
  · exact hle '7' hc.2 (by decide)
  · rcases hc with rfl | rfl <;> decide
  · exact hle '9' hc.2 (by decide)

/-- The digits of integers are plain digits of their base. -/
theorem Radix.isPlainDigit (h : Radix mark isDigit base) {c : Char} (hc : isDigit c = true) :
    isPlainDigit base c = true := by
  -- digits are ASCII characters, so there are few to look at
  have hall : ∀ n < 128, isDigit (Char.ofNat n) = true →
      Lexer.isPlainDigit base (Char.ofNat n) = true := by
    cases h <;> decide +kernel
  have hchar := hall c.toNat (h.lt hc)
  rw [Char.ofNat_toNat] at hchar
  exact hchar hc

/-! ## Bodies -/

/-- The text `body` of an integer without its type: its base, and its digits and underscores. -/
structure Body (base : Nat) (body written : List Char) : Prop where
  ne_nil : body ≠ []
  split : Literal.splitBase body = (base, written)
  digits : ∀ c ∈ written, c = '_' ∨ isPlainDigit base c = true
  letters : ∀ c ∈ body, c ≠ 'i' ∧ c ≠ 'u'

/-- A plain digit is no underscore, and no letter that starts the name of an integer type. -/
theorem ne_of_isPlainDigit {c : Char} (h : isPlainDigit base c = true) :
    c ≠ '_' ∧ c ≠ 'i' ∧ c ≠ 'u' := by
  refine ⟨?_, ?_, ?_⟩ <;> rintro rfl <;> simp [isPlainDigit] at h

/-- A digit or an underscore of a body is no letter that starts the name of an integer type. -/
theorem ne_of_written {c : Char} (h : c = '_' ∨ isPlainDigit base c = true) :
    c ≠ 'i' ∧ c ≠ 'u' := by
  rcases h with rfl | hdigit
  · decide
  · exact (ne_of_isPlainDigit hdigit).2

/-- What the tokenizer takes for a digit or an underscore is one. -/
theorem Radix.written (h : Radix mark isDigit base) {c : Char}
    (hc : (isDigit c || c == '_') = true) : c = '_' ∨ Lexer.isPlainDigit base c = true := by
  rcases Bool.or_eq_true _ _ ▸ hc with hdigit | hscore
  · exact Or.inr (h.isPlainDigit hdigit)
  · exact Or.inl (beq_iff_eq.mp hscore)

/-- What is cut off behind a radix mark: digits of its base and underscores, at least one. -/
theorem radixed_eq_some {cs number rest : List Char} (h : radixed cs = some (number, rest)) :
    ∃ letter isDigit digits, radixDigit? letter = some isDigit ∧ digits ≠ [] ∧
      (∀ d ∈ digits, (isDigit d || d == '_') = true) ∧ number = '0' :: letter :: digits := by
  unfold radixed at h
  split at h
  · next letter cs =>
    obtain ⟨isDigit, hletter, hrun⟩ := Option.bind_eq_some_iff.mp h
    split at hrun
    · cases hrun
    · next digits left hne hcut =>
      obtain ⟨rfl, -⟩ := Prod.mk.inj (Option.some.inj hrun)
      have hdigits : digits = cs.takeWhile fun d => isDigit d || d == '_' :=
        (congrArg Prod.fst hcut).symm
      refine ⟨letter, isDigit, digits, hletter, hne, ?_, rfl⟩
      rw [hdigits]
      exact List.all_eq_true.mp List.all_takeWhile
  · cases h

/-- What is cut off as a decimal number: a digit, with digits and underscores behind it. -/
theorem decimal_eq_some {cs number rest : List Char} (h : decimal cs = some (number, rest)) :
    ∃ first digits, first.isDigit = true ∧ (∀ d ∈ digits, (d.isDigit || d == '_') = true) ∧
      number = first :: digits := by
  cases cs with
  | nil => cases h
  | cons first cs =>
    simp only [decimal, run] at h
    split_ifs at h with hfirst
    obtain ⟨rfl, -⟩ := Prod.mk.inj (Option.some.inj h)
    exact ⟨first, _, hfirst, List.all_eq_true.mp List.all_takeWhile, rfl⟩

/-- Decimal digits have no mark of a base. -/
theorem splitBase_of_decimal {cs : List Char}
    (h : ∀ c ∈ cs, c = '_' ∨ isPlainDigit 10 c = true) : Literal.splitBase cs = (10, cs) := by
  have hmark : ∀ letter ∈ cs, letter ∉ ['x', 'X', 'o', 'O', 'b', 'B'] := by
    intro letter hletter hm
    have hnone : isPlainDigit 10 letter = false ∧ letter ≠ '_' := by
      simp only [List.mem_cons, List.not_mem_nil, or_false] at hm
      rcases hm with rfl | rfl | rfl | rfl | rfl | rfl <;> exact ⟨by rfl, by decide⟩
    rcases h letter hletter with hscore | hdigit
    · exact hnone.2 hscore
    · exact absurd hdigit (by simp [hnone.1])
  unfold Literal.splitBase
  split
  · next letter ds =>
    have hletter := hmark letter (List.mem_cons_of_mem _ List.mem_cons_self)
    simp only [List.mem_cons, List.not_mem_nil, or_false, not_or] at hletter
    simp [hletter]
  · rfl

/-- Digits and underscores behind the mark of their base make up a body. -/
theorem Radix.body (h : Radix mark isDigit base) (hne : ds ≠ [])
    (hds : ∀ d ∈ ds, (isDigit d || d == '_') = true) : Body base (mark ++ ds) ds := by
  have hwritten : ∀ d ∈ ds, d = '_' ∨ Lexer.isPlainDigit base d = true := fun d hd =>
    h.written (hds d hd)
  refine ⟨List.append_ne_nil_of_right_ne_nil _ hne, ?_, hwritten, ?_⟩
  · cases h with
    | hexadecimal | octal | binary => rfl
    | decimal => exact splitBase_of_decimal hwritten
  · refine List.forall_mem_append.mpr ⟨?_, fun d hd => ne_of_written (hwritten d hd)⟩
    cases h <;> simp

/-- Marks of bases are those behind which digits are read. -/
theorem exists_radix_of_letter {letter : Char} {isDigit : Char → Bool}
    (h : radixDigit? letter = some isDigit) : ∃ base, Radix ['0', letter] isDigit base := by
  unfold radixDigit? at h
  split at h
  · obtain rfl := Option.some.inj h
    exact ⟨16, .hexadecimal⟩
  · obtain rfl := Option.some.inj h
    exact ⟨8, .octal⟩
  · obtain rfl := Option.some.inj h
    exact ⟨2, .binary⟩
  · cases h

/-- What is cut off as a number has a mark, and behind it digits of its base and underscores. -/
theorem exists_radix {cs number rest : List Char}
    (h : radixed cs = some (number, rest) ∨ decimal cs = some (number, rest)) :
    ∃ mark isDigit base ds, Radix mark isDigit base ∧ ds ≠ [] ∧
      (∀ d ∈ ds, (isDigit d || d == '_') = true) ∧ number = mark ++ ds := by
  rcases h with hradixed | hdecimal
  · obtain ⟨letter, isDigit, ds, hletter, hne, hds, rfl⟩ := radixed_eq_some hradixed
    obtain ⟨base, hradix⟩ := exists_radix_of_letter hletter
    exact ⟨_, isDigit, base, ds, hradix, hne, hds, rfl⟩
  · obtain ⟨first, ds, hfirst, hds, rfl⟩ := decimal_eq_some hdecimal
    refine ⟨_, _, _, first :: ds, .decimal, List.cons_ne_nil _ _, ?_, rfl⟩
    exact List.forall_mem_cons.mpr ⟨by rw [hfirst, Bool.true_or], hds⟩

/-- What is cut off as an integer: a number behind a radix mark or a decimal one, and the name of a
type or nothing. -/
theorem exists_number_of_integer {cs rest digits : List Char}
    (h : integer cs = some (digits, rest)) :
    ∃ number suffix more, digits = number ++ suffix ∧
      (radixed cs = some (number, more) ∨ decimal cs = some (number, more)) ∧
      (suffix = [] ∨ ∃ t : IntType, suffix = t.name.toList) := by
  obtain ⟨⟨number, more⟩, hnumber, hcut⟩ := Option.map_eq_some_iff.mp h
  obtain ⟨rfl, -⟩ := Prod.mk.inj hcut
  refine ⟨number, (typeSuffix more).1, more, rfl, ?_, ?_⟩
  · cases hr : radixed cs with
    | some cut =>
      rw [hr] at hnumber
      exact .inl hnumber
    | none =>
      rw [hr] at hnumber
      exact .inr hnumber
  · unfold typeSuffix
    split
    · next t _ => exact .inr ⟨t, rfl⟩
    · exact .inl rfl

/-- The name of a type behind the digits of an integer, or nothing. -/
def suffixText : Option IntType → List Char
  | none => []
  | some t => t.name.toList

/-- **The parts of an integer.** What is cut out as an integer is the mark of a base, digits of
this base and underscores, and the name of an integer type or nothing. -/
theorem integer_eq_some {cs rest digits : List Char} (h : integer cs = some (digits, rest)) :
    ∃ mark isDigit base ds type, Radix mark isDigit base ∧ ds ≠ [] ∧
      (∀ d ∈ ds, (isDigit d || d == '_') = true) ∧ digits = mark ++ ds ++ suffixText type := by
  obtain ⟨number, suffix, more, rfl, hnumber, hsuffix⟩ := exists_number_of_integer h
  obtain ⟨mark, isDigit, base, ds, hradix, hne, hds, rfl⟩ := exists_radix hnumber
  rcases hsuffix with rfl | ⟨t, rfl⟩
  · exact ⟨mark, isDigit, base, ds, none, hradix, hne, hds, rfl⟩
  · exact ⟨mark, isDigit, base, ds, some t, hradix, hne, hds, rfl⟩

end Lexer

/-! ## Reading numerals -/

namespace Text

open Lexer (isPlainDigit)

/-- A plain digit has a value in its base, and nothing else can be taken for it. -/
theorem of_isPlainDigit {base : Nat} {c : Char} (h : isPlainDigit base c = true) :
    (∃ d, digitValue? c = some d ∧ d < base) ∧ isNumberBlank c = false ∧
      c ∉ ['-', '+', '_', 'i', 'u'] ∧ dropBaseMark base ['0', c] = ['0', c] := by
  simp only [isPlainDigit, Bool.and_eq_true, Bool.not_eq_true', beq_iff_eq] at h
  obtain ⟨⟨⟨hvalue, hblank⟩, hother⟩, hmark⟩ := h
  refine ⟨?_, hblank, by simpa using hother, hmark⟩
  cases hd : digitValue? c with
  | none => simp [hd] at hvalue
  | some d => exact ⟨d, rfl, by simpa [hd] using hvalue⟩

/-- Plain digits are read as digits. -/
theorem readDigits_of_plain {base : Nat} {cs : List Char} {afterDigit : Bool}
    (h : ∀ c ∈ cs, isPlainDigit base c = true) (hne : cs ≠ [] ∨ afterDigit = true) :
    readDigits base afterDigit cs = some (cs.filterMap digitValue?) := by
  induction cs generalizing afterDigit with
  | nil =>
    obtain rfl : afterDigit = true := hne.resolve_left (absurd rfl)
    rfl
  | cons c cs ih =>
    obtain ⟨hc, hcs⟩ := List.forall_mem_cons.mp h
    obtain ⟨⟨d, hd, hlt⟩, -, hother, -⟩ := of_isPlainDigit hc
    have hds : readDigits base true cs = some (cs.filterMap digitValue?) := ih hcs (Or.inr rfl)
    have hscore : c ≠ '_' := by
      rintro rfl
      exact hother (by decide)
    rw [readDigits]
    · rw [hd]
      simp only [if_pos hlt, hds, Option.map_some, List.filterMap_cons, hd]
    · exact fun he => hscore he

/-- No base mark stands before plain digits. -/
theorem dropBaseMark_of_plain {base : Nat} {cs : List Char}
    (h : ∀ c ∈ cs, isPlainDigit base c = true) : dropBaseMark base cs = cs := by
  unfold dropBaseMark
  split
  · next letter cs =>
    obtain ⟨-, -, -, hmark⟩ := of_isPlainDigit (h letter (by simp))
    unfold dropBaseMark at hmark
    split_ifs with hbase
    · simp [hbase] at hmark
    · rfl
  · rfl

/-- Plain digits have no blanks at their ends. -/
theorem stripOf_of_plain {base : Nat} {cs : List Char}
    (h : ∀ c ∈ cs, isPlainDigit base c = true) : stripOf isNumberBlank cs = cs := by
  have hblank : ∀ c ∈ cs, isNumberBlank c = false := fun c hc => (of_isPlainDigit (h c hc)).2.1
  exact stripOf_eq_self (fun c hc => hblank c (List.mem_of_mem_head? hc))
    fun c hc => hblank c (List.mem_of_mem_getLast? hc)

/-- Plain digits are read as the integer that they write, if there are any. -/
theorem readInteger_of_plain {base : Nat} {cs : List Char}
    (h : ∀ c ∈ cs, isPlainDigit base c = true) (hne : cs ≠ []) :
    readInteger base cs = some (digitsValue base (cs.filterMap digitValue?)) := by
  have hnatural : readNatural base cs = some (digitsValue base (cs.filterMap digitValue?)) := by
    rw [readNatural, dropBaseMark_of_plain h, readDigits_of_plain h (Or.inl hne), Option.map_some]
  unfold readInteger
  rw [stripOf_of_plain h]
  split
  · next cs =>
    obtain ⟨-, -, hother, -⟩ := of_isPlainDigit (h '-' List.mem_cons_self)
    exact absurd (by decide) hother
  · next cs =>
    obtain ⟨-, -, hother, -⟩ := of_isPlainDigit (h '+' List.mem_cons_self)
    exact absurd (by decide) hother
  · rw [hnatural]
    rfl

end Text

namespace Literal

open Lexer (Body Radix suffixText)

/-- The value of digits of a base, whatever underscores stand among them. -/
def valueOf (base : Nat) (ds : List Char) : Nat :=
  Text.digitsValue base ((ds.filter (· != '_')).filterMap Text.digitValue?)

/-- The texts that write a literal: the mark of a base, digits of this base and underscores, at
least one digit among them, and the name of a type or nothing. -/
inductive Numeral : List Char → Literal → Prop
  | intro {mark ds : List Char} {isDigit : Char → Bool} {base : Nat} {type : Option IntType} :
      Radix mark isDigit base → (∀ d ∈ ds, (isDigit d || d == '_') = true) →
      (∃ d ∈ ds, isDigit d = true) → Numeral (mark ++ ds ++ suffixText type) ⟨valueOf base ds, type⟩

/-- No name of an integer type ends another one. -/
theorem eq_of_name_suffix {t t' : IntType} (h : t'.name.toList <:+ t.name.toList) : t' = t := by
  revert h
  cases t <;> cases t' <;> decide

/-- The name of an integer type holds one of the letters that start such names. -/
theorem exists_mem_name (t : IntType) : 'i' ∈ t.name.toList ∨ 'u' ∈ t.name.toList := by
  cases t <;> decide

variable {base : Nat} {body written : List Char} {type : Option IntType} {digits : String}

/-- The name of a type that ends a numeral is what stands behind its body. -/
theorem eq_some_of_suffix (hbody : Body base body written) {t : IntType}
    (h : t.name.toList <:+ body ++ suffixText type) : type = some t := by
  cases type with
  | none =>
    rw [suffixText, List.append_nil] at h
    rcases exists_mem_name t with hi | hu
    · exact absurd rfl (hbody.letters 'i' (h.mem hi)).1
    · exact absurd rfl (hbody.letters 'u' (h.mem hu)).2
  | some t' =>
    rcases List.suffix_or_suffix_of_suffix h (List.suffix_append body _) with hle | hle
    · rw [eq_of_name_suffix hle]
    · rw [eq_of_name_suffix hle]

/-- The name of a type at the end is taken off again. -/
theorem splitSuffix_of_body (hbody : Body base body written) :
    splitSuffix (body ++ suffixText type) = (type, body) := by
  unfold splitSuffix
  split
  · next t ht =>
    have hp := List.find?_some ht
    rw [Bool.and_eq_true, List.isSuffixOf_iff_suffix] at hp
    obtain rfl := eq_some_of_suffix hbody hp.1
    have hlength : (body ++ suffixText (some t)).length - t.name.length = body.length := by
      rw [List.length_append, suffixText, String.length_toList, Nat.add_sub_cancel]
    rw [hlength, List.take_left]
  · next hnone =>
    cases type with
    | none => rw [suffixText, List.append_nil]
    | some t =>
      have hall : t ∈ IntType.all := by
        cases t <;> decide
      refine absurd ?_ (List.find?_eq_none.mp hnone t hall)
      rw [Bool.and_eq_true, List.isSuffixOf_iff_suffix, decide_eq_true_eq, suffixText,
        List.length_append, String.length_toList]
      exact ⟨List.suffix_append body _,
        Nat.lt_add_of_pos_left (List.length_pos_iff.mpr hbody.ne_nil)⟩

/-- A body with a type is read as the value of its digits, if it has any. -/
theorem read_of_body (hbody : Body base body written)
    (hdigits : digits.toList = body ++ suffixText type) :
    read digits =
      if written.filter (· != '_') = [] then .error (.emptyLiteral (String.ofList body))
      else .ok ⟨valueOf base written, type⟩ := by
  unfold read
  rw [hdigits, splitSuffix_of_body hbody]
  simp only [hbody.split, List.isEmpty_iff]
  split_ifs with hempty
  · rfl
  · have hplain : ∀ c ∈ written.filter (· != '_'), Lexer.isPlainDigit base c = true := by
      intro c hc
      obtain ⟨hmem, hscore⟩ := List.mem_filter.mp hc
      exact (hbody.digits c hmem).resolve_left (by simpa using hscore)
    rw [Text.readInteger_of_plain hplain hempty]
    rfl

/-- **Numerals are literals.** What is cut out as an integer is a literal, unless its body holds no
digit. -/
theorem read_of_integer {cs rest : List Char}
    (h : Lexer.integer cs = some (digits.toList, rest)) :
    (∃ l, read digits = .ok l) ∨ ∃ text, read digits = .error (.emptyLiteral text) := by
  obtain ⟨mark, isDigit, base, ds, type, hradix, hne, hds, hdigits⟩ := Lexer.integer_eq_some h
  rw [read_of_body (hradix.body hne hds) hdigits]
  split_ifs
  · exact Or.inr ⟨_, rfl⟩
  · exact Or.inl ⟨_, rfl⟩

/-- A numeral is read as the literal that it writes. -/
theorem Numeral.read {l : Literal} (h : Numeral digits.toList l) : read digits = .ok l := by
  generalize hcs : digits.toList = cs at h
  obtain ⟨hradix, hds, d, hd, hdigit⟩ := h
  rw [read_of_body (hradix.body (List.ne_nil_of_mem hd) hds) hcs, if_neg]
  have hscore : d ≠ '_' := (Lexer.ne_of_isPlainDigit (hradix.isPlainDigit hdigit)).1
  exact List.ne_nil_of_mem (List.mem_filter.mpr ⟨hd, by simpa using hscore⟩)

/-- **The literals of integers.** What is cut out as an integer is read as the literal that it
writes, and as nothing if it has no digit behind its mark. -/
theorem read_eq_ok {cs rest : List Char} (h : Lexer.integer cs = some (digits.toList, rest))
    {l : Literal} : read digits = .ok l ↔ Numeral digits.toList l := by
  refine ⟨fun hl => ?_, Numeral.read⟩
  obtain ⟨mark, isDigit, base, ds, type, hradix, hne, hds, hdigits⟩ := Lexer.integer_eq_some h
  rw [read_of_body (hradix.body hne hds) hdigits] at hl
  split_ifs at hl with hempty
  obtain rfl := Except.ok.inj hl
  obtain ⟨d, hd⟩ := List.exists_mem_of_ne_nil _ hempty
  obtain ⟨hmem, hscore⟩ := List.mem_filter.mp hd
  have hdigit : isDigit d = true := (Bool.or_eq_true _ _ ▸ hds d hmem).resolve_right (by
    simpa using hscore)
  rw [hdigits]
  exact .intro hradix hds ⟨d, hmem, hdigit⟩

end Literal

/-! ## Tokens of a text -/

/-- An integer token holds what the tokenizer cuts out as an integer. -/
def Token.Proper (t : Token) : Prop :=
  ∀ digits, t.lexeme = .int digits →
    ∃ cs rest, Lexer.integer cs = some (digits.toList, rest)

namespace Lexer

/-- A number, a name or a mark: if it is a number, it was cut out as one. -/
theorem plainLexeme_int {c : Char} {more cs : List Char} {digits : String} {spelling : List Char}
    (h : plainLexeme c more = .ok (some (.int digits), spelling, cs)) :
    ∃ text rest, integer text = some (digits.toList, rest) := by
  unfold plainLexeme at h
  split at h
  · next found rest hint =>
    split_ifs at h
    · obtain ⟨hlexeme, -⟩ := Prod.mk.inj (Except.ok.inj h)
      obtain rfl := Lexeme.int.inj (Option.some.inj hlexeme)
      exact ⟨_, rest, by rw [hint, String.toList_ofList]⟩
  · split_ifs at h
    · cases h
    · split at h <;> cases h

/-- A spelling that is a number was cut out as one. -/
theorem scan_int {c : Char} {more cs : List Char} {digits : String} {spelling : List Char}
    (h : scan c more = .ok (some (.int digits), spelling, cs)) :
    ∃ text rest, integer text = some (digits.toList, rest) := by
  have hattr : ∀ opener rest, attr opener rest ≠ .ok (some (.int digits), spelling, cs) := by
    intro opener rest hattr
    unfold attr at hattr
    split at hattr <;> cases hattr
  unfold scan at h
  split_ifs at h
  · cases h
  · split at h
    · cases h
    · cases h
    · cases h
    · split at h <;> cases h
    · exact absurd h (hattr _ _)
    · exact absurd h (hattr _ _)
    · exact plainLexeme_int h

end Lexer

/-- **Tokens are proper.** Every integer token of a text holds a numeral. -/
theorem tokenize_proper {text : String} {list : TokenList} (h : tokenize text = .ok list) :
    ∀ t ∈ list.tokens, t.Proper :=
  forall_lexeme_of_tokenize
    (P := fun lexeme => ∀ digits, lexeme = .int digits →
      ∃ text rest, Lexer.integer text = some (digits.toList, rest))
    (fun _ _ _ _ hcut _ hdigits => Lexer.scan_int (hdigits ▸ hcut)) h

end MaskEnum
