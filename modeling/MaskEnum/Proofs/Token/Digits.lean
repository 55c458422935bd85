import Mathlib.Data.Nat.Digits.Defs
import Mathlib.Tactic.IntervalCases
import MaskEnum.Proofs.Lists
import MaskEnum.Proofs.Token.Tiling
set_option autoImplicit false

/-!
# Literals read back

A literal is written as the mark of its base, the digits of a natural number in this base, and the
name of a type or nothing. Zeros may stand in front of the digits, letters among them be of either
case, and underscores stand anywhere but in front of a decimal number. However it is written, it is
one token, and reading it gives the number and the type. No other integer tokens are found in any
text but those whose mark has nothing but underscores behind it, and these are refused.

## Main definitions

* `MaskEnum.Text.WritesDigit`, `MaskEnum.Text.Writes` — the digits of a number.
* `MaskEnum.Literal.WrittenAs` — the texts that write a literal.
* `MaskEnum.Literal.Digitless` — the mark of a base without a digit.

## Main results

* `MaskEnum.Text.Writes.value_eq` — the value of the digits of a number is the number.
* `MaskEnum.Literal.written_or_digitless` — what an integer token may hold.
* `MaskEnum.Literal.reads_back` — literals as written and as read.
-/

namespace MaskEnum

/-! ## Numbers and their digits -/

namespace Text

/-- The digits up to fifteen, each at the index that is its value. -/
def lowerDigits : List Char :=
  ['0', '1', '2', '3', '4', '5', '6', '7', '8', '9', 'a', 'b', 'c', 'd', 'e', 'f']

/-- The same digits with capital letters. -/
def upperDigits : List Char :=
  ['0', '1', '2', '3', '4', '5', '6', '7', '8', '9', 'A', 'B', 'C', 'D', 'E', 'F']

/-- The character `c` writes the digit `d`. -/
def WritesDigit (d : Nat) (c : Char) : Prop := lowerDigits[d]? = some c ∨ upperDigits[d]? = some c

instance (d : Nat) (c : Char) : Decidable (WritesDigit d c) :=
  inferInstanceAs (Decidable (_ ∨ _))

/-- The text `cs` writes the number `n`: its digits, most significant first, behind any number of
zeros. At least one digit is written, also for the number zero. -/
structure Writes (base n : Nat) (cs : List Char) : Prop where
  ne_nil : cs ≠ []
  digits : ∃ zeros, List.Forall₂ WritesDigit
    (List.replicate zeros 0 ++ (Nat.digits base n).reverse) cs

variable {base n d : Nat} {c : Char} {ds : List Nat} {cs : List Char}

/-- A character that writes a digit is read as that digit. -/
theorem WritesDigit.digitValue? (h : WritesDigit d c) : digitValue? c = some d := by
  have hd : d < 16 := by
    rcases h with h | h
    · exact (List.getElem?_eq_some_iff.mp h).1
    · exact (List.getElem?_eq_some_iff.mp h).1
  interval_cases d <;> rcases h with h | h <;> obtain rfl := Option.some.inj h <;> rfl

/-- Characters that write digits are read as these digits. -/
theorem filterMap_digitValue? (h : List.Forall₂ WritesDigit ds cs) :
    cs.filterMap digitValue? = ds := by
  induction h with
  | nil => rfl
  | cons hd _ ih => rw [List.filterMap_cons_some hd.digitValue?, ih]

/-- The value of digits, most significant first, is that of the reversed list, which starts with the
least significant one. -/
theorem digitsValue_eq_ofDigits (base : Nat) (ds : List Nat) :
    digitsValue base ds = Nat.ofDigits base ds.reverse := by
  rw [Nat.ofDigits_eq_foldr, List.foldr_reverse, digitsValue]
  refine congrArg (List.foldl · 0 ds) (funext fun value => funext fun digit => ?_)
  rw [Nat.cast_id, Nat.add_comm, Nat.mul_comm]

/-- **Numbers read back.** The value of the digits of a number is the number. -/
theorem Writes.value_eq (h : Writes base n cs) :
    digitsValue base (cs.filterMap digitValue?) = n := by
  obtain ⟨zeros, hdigits⟩ := h.digits
  rw [filterMap_digitValue? hdigits, digitsValue_eq_ofDigits, List.reverse_append,
    List.reverse_reverse, List.reverse_replicate, Nat.ofDigits_append_replicate_zero,
    Nat.ofDigits_digits]

/-- Digits are zeros and the digits of their value. -/
theorem exists_zeros (hbase : 1 < base) (hds : ∀ d ∈ ds, d < base) :
    ∃ zeros, ds = List.replicate zeros 0 ++ (Nat.digits base (digitsValue base ds)).reverse := by
  induction ds with
  | nil => exact ⟨0, by simp [digitsValue]⟩
  | cons d ds ih =>
    by_cases hd : d = 0
    · subst hd
      obtain ⟨zeros, hzeros⟩ := ih (List.forall_mem_cons.mp hds).2
      have hvalue : digitsValue base (0 :: ds) = digitsValue base ds := by
        rw [digitsValue_eq_ofDigits, digitsValue_eq_ofDigits, Nat.ofDigits_reverse_zero_cons]
      refine ⟨zeros + 1, ?_⟩
      rw [hvalue, List.replicate_succ, List.cons_append, ← hzeros]
    · refine ⟨0, ?_⟩
      have hdigits : Nat.digits base (digitsValue base (d :: ds)) = (d :: ds).reverse := by
        rw [digitsValue_eq_ofDigits]
        refine Nat.digits_ofDigits base hbase _ (fun d' hd' => hds d' (List.mem_reverse.mp hd')) ?_
        intro hne
        rwa [List.getLast_reverse]
      rw [hdigits, List.reverse_reverse]
      rfl

/-- Digits write their value. -/
theorem writes_of_forall₂ (hbase : 1 < base) (hne : cs ≠ []) (h : List.Forall₂ WritesDigit ds cs)
    (hds : ∀ d ∈ ds, d < base) : Writes base (digitsValue base ds) cs := by
  obtain ⟨zeros, hzeros⟩ := exists_zeros hbase hds
  exact ⟨hne, zeros, hzeros ▸ h⟩

end Text

open Text (WritesDigit Writes)

namespace Lexer

variable {mark ds : List Char} {isDigit : Char → Bool} {base n : Nat}

/-- Every base is one of a few. -/
theorem Radix.base_bounds (h : Radix mark isDigit base) : 1 < base ∧ base ≤ 16 := by
  cases h <;> decide

/-- The digits of a base are written by its digit characters. -/
theorem Radix.isDigit_iff (h : Radix mark isDigit base) {c : Char} :
    isDigit c = true ↔ ∃ d < base, WritesDigit d c := by
  constructor
  · intro hc
    -- digits are ASCII characters, so there are few to look at
    have hall : ∀ n < 128, isDigit (Char.ofNat n) = true →
        ∃ d < base, WritesDigit d (Char.ofNat n) := by
      cases h <;> decide +kernel
    have hchar := hall c.toNat (h.lt hc)
    rw [Char.ofNat_toNat] at hchar
    exact hchar hc
  · rintro ⟨d, hd, hc⟩
    have hall : ∀ d < base, Text.lowerDigits[d]?.all isDigit = true ∧
        Text.upperDigits[d]?.all isDigit = true := by
      cases h <;> decide +kernel
    rcases hc with hc | hc
    · exact (Option.all_eq_true _ _).mp (hall d hd).1 c hc
    · exact (Option.all_eq_true _ _).mp (hall d hd).2 c hc

/-- Digit characters write the digits that they are read as. -/
theorem Radix.exists_writes (h : Radix mark isDigit base) (hne : ds ≠ [])
    (hds : ∀ c ∈ ds, isDigit c = true) : ∃ n, Writes base n ds := by
  have hexists : ∃ values, List.Forall₂ WritesDigit values ds ∧ ∀ d ∈ values, d < base := by
    clear hne
    induction ds with
    | nil => exact ⟨[], .nil, List.forall_mem_nil _⟩
    | cons c ds ih =>
      obtain ⟨hc, hrest⟩ := List.forall_mem_cons.mp hds
      obtain ⟨d, hd, hwrites⟩ := h.isDigit_iff.mp hc
      obtain ⟨values, hvalues, hlt⟩ := ih hrest
      exact ⟨d :: values, .cons hwrites hvalues, List.forall_mem_cons.mpr ⟨hd, hlt⟩⟩
  obtain ⟨values, hvalues, hlt⟩ := hexists
  exact ⟨_, Text.writes_of_forall₂ h.base_bounds.1 hne hvalues hlt⟩

/-- What writes a number consists of digit characters. -/
theorem Radix.isDigit_of_writes (h : Radix mark isDigit base) (hn : Writes base n ds) :
    ∀ c ∈ ds, isDigit c = true := by
  obtain ⟨zeros, hdigits⟩ := hn.digits
  intro c hc
  obtain ⟨d, hd, hwrites⟩ := exists_left_of_forall₂ hdigits hc
  refine h.isDigit_iff.mpr ⟨d, ?_, hwrites⟩
  rcases List.mem_append.mp hd with hzero | hdigit
  · rw [List.eq_of_mem_replicate hzero]
    exact Nat.lt_trans Nat.zero_lt_one h.base_bounds.1
  · exact Nat.digits_lt_base h.base_bounds.1 (List.mem_reverse.mp hdigit)

end Lexer

/-! ## Literals -/

namespace Literal

open Lexer (Radix IntegerText IsTypeSuffix suffixText)

/-- The text writes the literal: the mark of a base, the digits of its value with underscores
anywhere, but none in front if there is no mark, and the name of its type or nothing. -/
inductive WrittenAs : Literal → List Char → Prop
  | intro {mark ds : List Char} {isDigit : Char → Bool} {base n : Nat} {type : Option IntType} :
      Radix mark isDigit base → Writes base n (ds.filter (· != '_')) →
      (mark = [] → ds.head? ≠ some '_') → WrittenAs ⟨n, type⟩ (mark ++ ds ++ suffixText type)

/-- The mark of a base with nothing but underscores behind it. -/
inductive Digitless : List Char → Prop
  | intro {mark ds : List Char} {isDigit : Char → Bool} {base : Nat} :
      Radix mark isDigit base → mark ≠ [] → ds ≠ [] → (∀ c ∈ ds, c = '_') → Digitless (mark ++ ds)

variable {l : Literal} {cs body : List Char}

/-- Digits and underscores of a base. -/
theorem isDigit_or_of_filter {isDigit : Char → Bool} {ds : List Char}
    (h : ∀ c ∈ ds.filter (· != '_'), isDigit c = true) :
    ∀ d ∈ ds, (isDigit d || d == '_') = true := by
  intro d hd
  by_cases hscore : d = '_'
  · rw [hscore, beq_self_eq_true, Bool.or_true]
  · rw [h d (List.mem_filter.mpr ⟨hd, by simpa using hscore⟩), Bool.true_or]

/-- The name of a type behind a number. -/
theorem isTypeSuffix_suffixText (type : Option IntType) : IsTypeSuffix (suffixText type) := by
  cases type with
  | none => exact .inl rfl
  | some t => exact .inr ⟨t, rfl⟩

/-- What may stand behind a number is the name of a type or nothing. -/
theorem exists_suffixText {suffix : List Char} (h : IsTypeSuffix suffix) :
    ∃ type, suffix = suffixText type := by
  rcases h with rfl | ⟨t, rfl⟩
  · exact ⟨none, rfl⟩
  · exact ⟨some t, rfl⟩

/-- **Writing.** What writes a literal is an integer. -/
theorem WrittenAs.integerText (h : l.WrittenAs cs) : IntegerText cs := by
  obtain @⟨mark, ds, isDigit, base, n, type, hradix, hn, hhead⟩ := h
  have hall := hradix.isDigit_of_writes hn
  have hds : ∀ d ∈ ds, (isDigit d || d == '_') = true := isDigit_or_of_filter hall
  have hne : ds ≠ [] := by
    rintro rfl
    exact hn.ne_nil rfl
  have hsuffix := isTypeSuffix_suffixText type
  cases hradix with
  | hexadecimal => exact .radixed rfl hne hds hsuffix
  | octal => exact .radixed rfl hne hds hsuffix
  | binary => exact .radixed rfl hne hds hsuffix
  | decimal =>
    obtain ⟨first, digits, rfl⟩ := List.exists_cons_of_ne_nil hne
    obtain ⟨hfirst, hdigits⟩ := List.forall_mem_cons.mp hds
    have hscore : first ≠ '_' := fun heq => hhead rfl (congrArg some heq)
    have hdigit : first.isDigit = true := by simpa [hscore] using hfirst
    exact .decimal hdigit hdigits hsuffix

/-- **Reading.** What writes a literal is read as that literal. -/
theorem WrittenAs.read {text : String} (h : l.WrittenAs text.toList) : read text = .ok l := by
  generalize htext : text.toList = cs at h
  obtain @⟨mark, ds, isDigit, base, n, type, hradix, hn, -⟩ := h
  have hall := hradix.isDigit_of_writes hn
  have hds : ∀ d ∈ ds, (isDigit d || d == '_') = true := isDigit_or_of_filter hall
  have hne : ds ≠ [] := by
    rintro rfl
    exact hn.ne_nil rfl
  rw [read_of_body (hradix.body hne hds) htext, if_neg hn.ne_nil, valueOf, hn.value_eq]

/-- A mark without a digit is refused. -/
theorem Digitless.read (h : Digitless body) {type : Option IntType} {text : String}
    (htext : text.toList = body ++ suffixText type) :
    read text = .error (.emptyLiteral (String.ofList body)) := by
  obtain @⟨mark, ds, isDigit, base, hradix, -, hne, hscores⟩ := h
  have hds : ∀ d ∈ ds, (isDigit d || d == '_') = true := by
    intro d hd
    rw [hscores d hd, beq_self_eq_true, Bool.or_true]
  have hempty : ds.filter (· != '_') = [] := by
    rw [List.filter_eq_nil_iff]
    intro d hd
    simp [hscores d hd]
  rw [read_of_body (hradix.body hne hds) htext, if_pos hempty]

/-- Digits and underscores of a base write a number, unless there are underscores only. -/
theorem writes_or_scores {mark ds : List Char} {isDigit : Char → Bool} {base : Nat}
    (hradix : Radix mark isDigit base) (hds : ∀ d ∈ ds, (isDigit d || d == '_') = true) :
    (∃ n, Writes base n (ds.filter (· != '_'))) ∨ ∀ c ∈ ds, c = '_' := by
  by_cases hscores : ∀ c ∈ ds, c = '_'
  · exact .inr hscores
  · obtain ⟨c, hc, hne⟩ : ∃ c ∈ ds, c ≠ '_' := by simpa using hscores
    refine .inl (hradix.exists_writes ?_ ?_)
    · exact List.ne_nil_of_mem (List.mem_filter.mpr ⟨hc, by simpa using hne⟩)
    · intro d hd
      obtain ⟨hmem, hscore⟩ := List.mem_filter.mp hd
      exact (Bool.or_eq_true _ _ ▸ hds d hmem).resolve_right (by simpa using hscore)

/-- **Integers.** An integer writes a literal, unless it is a mark without a digit. -/
theorem written_or_digitless (h : IntegerText cs) :
    (∃ l : Literal, l.WrittenAs cs) ∨
      ∃ body type, Digitless body ∧ cs = body ++ suffixText type := by
  cases h with
  | @radixed letter isDigit digits suffix hletter hne hdigits hsuffix =>
    obtain ⟨base, hradix⟩ := Lexer.exists_radix_of_letter hletter
    obtain ⟨type, rfl⟩ := exists_suffixText hsuffix
    rcases writes_or_scores hradix hdigits with ⟨n, hn⟩ | hscores
    · exact .inl ⟨⟨n, type⟩, .intro hradix hn nofun⟩
    · exact .inr ⟨_, type, .intro hradix (List.cons_ne_nil _ _) hne hscores, rfl⟩
  | @decimal first digits suffix hfirst hdigits hsuffix =>
    obtain ⟨type, rfl⟩ := exists_suffixText hsuffix
    have hall : ∀ d ∈ first :: digits, (d.isDigit || d == '_') = true :=
      List.forall_mem_cons.mpr ⟨by rw [hfirst, Bool.true_or], hdigits⟩
    have hscore : first ≠ '_' := by
      rintro rfl
      cases hfirst
    rcases writes_or_scores .decimal hall with ⟨n, hn⟩ | hscores
    · exact .inl ⟨⟨n, type⟩, .intro .decimal hn fun _ heq => hscore (Option.some.inj heq)⟩
    · exact absurd (hscores first List.mem_cons_self) hscore

/-- An integer is read as the literal that it writes. -/
theorem read_eq_ok_iff {digits : String} (h : IntegerText digits.toList) :
    read digits = .ok l ↔ l.WrittenAs digits.toList := by
  refine ⟨fun hread => ?_, WrittenAs.read⟩
  rcases written_or_digitless h with ⟨l', hl'⟩ | ⟨body, type, hbody, hdigits⟩
  · obtain rfl := Except.ok.inj (hl'.read.symm.trans hread)
    exact hl'
  · cases (hbody.read hdigits).symm.trans hread

/-- An integer is refused exactly if it is a mark without a digit. -/
theorem read_eq_error_iff {digits : String} (h : IntegerText digits.toList) {fault : ShapeFault} :
    read digits = .error fault ↔ ∃ body type, Digitless body ∧
      digits.toList = body ++ suffixText type ∧ fault = .emptyLiteral (String.ofList body) := by
  constructor
  · intro hread
    rcases written_or_digitless h with ⟨l, hl⟩ | ⟨body, type, hbody, hdigits⟩
    · cases hl.read.symm.trans hread
    · have hfault := Except.error.inj (hread.symm.trans (hbody.read hdigits))
      exact ⟨body, type, hbody, hdigits, hfault⟩
  · rintro ⟨body, type, hbody, hdigits, rfl⟩
    exact hbody.read hdigits

/-- A text that is an integer has one token. -/
theorem tokenize_integerText {text : String} (h : IntegerText text.toList) :
    tokenize text = .ok ⟨[⟨.int text, .start⟩], Position.start.advance text.toList⟩ := by
  have hwell : (Lexeme.int text).WellFormed := h
  have hend : ∀ c ∈ ([] : List Char).head?, (Lexeme.int text).mayPrecede c = true := nofun
  obtain ⟨c, more, htext, hscan⟩ := hwell.exists_scan hend
  rw [List.append_nil] at htext
  have hcs : text.toList = c :: more := htext
  rw [tokenize, hcs, Lexer.tokensFrom_cons hscan, tokensFrom]
  rw [htext]

/-- **Literals read back.** A text that writes a literal has one token, an integer, and it is read
as that literal. The other way round, an integer token of any text is read as the literal that it
writes; it is refused exactly if it is the mark of a base without a digit behind it, apart from the
name of a type, and with no other fault. -/
theorem reads_back :
    (∀ (l : Literal) (text : String), l.WrittenAs text.toList →
      (∃ stop, tokenize text = .ok ⟨[⟨.int text, .start⟩], stop⟩) ∧ read text = .ok l) ∧
    ∀ (text : String) (list : TokenList), tokenize text = .ok list →
      ∀ t ∈ list.tokens, ∀ digits, t.lexeme = .int digits →
        (∀ l, read digits = .ok l ↔ l.WrittenAs digits.toList) ∧
        ∀ fault, read digits = .error fault ↔ ∃ body type, Digitless body ∧
          digits.toList = body ++ suffixText type ∧ fault = .emptyLiteral (String.ofList body) := by
  refine ⟨fun l text hl => ⟨⟨_, tokenize_integerText hl.integerText⟩, hl.read⟩, ?_⟩
  intro text list hlist t ht digits hdigits
  obtain ⟨cs, rest, hcut⟩ := tokenize_proper hlist t ht digits hdigits
  have hinteger := Lexer.integerText_of_integer hcut
  exact ⟨fun l => read_eq_ok_iff hinteger, fun fault => read_eq_error_iff hinteger⟩

/-- A number with a zero in front, both cases of letters, underscores and a type; and a mark without
a digit beside another number. -/
theorem reads_back_octets :
    (⟨255, some .u8⟩ : Literal).WrittenAs "0x_0f_Fu8".toList ∧
      read "0x_0f_Fu8" = .ok ⟨255, some .u8⟩ ∧
      ∃ list, tokenize "0b__i16 7" = .ok list ∧
        (∃ t ∈ list.tokens, t.lexeme = .int "0b__i16") ∧
        read "0b__i16" = .error (.emptyLiteral "0b__") := by
  have hwrites : Writes 16 255 ['0', 'f', 'F'] :=
    ⟨by decide, 1, .cons (by decide) (.cons (by decide) (.cons (by decide) .nil))⟩
  have hwritten : (⟨255, some .u8⟩ : Literal).WrittenAs "0x_0f_Fu8".toList :=
    @WrittenAs.intro _ ['_', '0', 'f', '_', 'F'] _ _ _ (some .u8) .hexadecimal hwrites nofun
  have hdigitless : Digitless "0b__".toList :=
    @Digitless.intro _ ['_', '_'] _ _ .binary (by decide) (by decide)
      (List.forall_mem_cons.mpr ⟨rfl, List.forall_mem_singleton.mpr rfl⟩)
  obtain ⟨list, hlist⟩ : ∃ list, tokenize "0b__i16 7" = .ok list :=
    exists_eq_ok (by decide +kernel)
  have hmem : (tokenize "0b__i16 7").toOption.all
      (·.tokens.any (·.lexeme = .int "0b__i16")) = true := by
    decide +kernel
  rw [hlist] at hmem
  obtain ⟨t, ht, htoken⟩ := List.any_eq_true.mp hmem
  have hlexeme := of_decide_eq_true htoken
  obtain ⟨hwrite, hread⟩ := reads_back
  refine ⟨hwritten, (hwrite _ _ hwritten).2, list, hlist, ⟨t, ht, hlexeme⟩, ?_⟩
  exact ((hread _ list hlist t ht _ hlexeme).2 _).mpr ⟨_, some .i16, hdigitless, by decide, rfl⟩

end Literal
end MaskEnum
