import MaskEnum.Proofs.Token.Tiling
set_option autoImplicit false

/-!
# A text with further lines behind it

What is cut off as a lexeme is told by the characters up to the next white space. So a text keeps
its tokens when a line feed and any further text are written behind it, and the tokens of the
further text follow.

## Main results

* `MaskEnum.spells_of_tokenize` — a text spells its tokens.
* `MaskEnum.Lexer.scan_append_line` — a lexeme is cut off alike with further lines behind the text.
* `MaskEnum.Lexer.Spells.append_line` — a text and the lines behind it spell their lexemes in turn.
-/

namespace MaskEnum

/-- A text whose tokens are found spells them. -/
theorem spells_of_tokensFrom {p : Position} {cs : List Char} {list : TokenList}
    (h : tokensFrom p cs = .ok list) : Lexer.Spells cs (list.tokens.map Token.lexeme) := by
  fun_induction tokensFrom p cs generalizing list with
  | case1 p =>
    obtain rfl := Except.ok.inj h
    exact .nil
  | case2 => cases h
  | case3 => cases h
  | case4 p c more scanned hscan _ tail htail hnone ih =>
    obtain ⟨said, used, rest⟩ := scanned
    obtain rfl := Except.ok.inj h
    obtain rfl : said = none := hnone
    exact .gap hscan (ih htail)
  | case5 p c more scanned hscan _ tail htail x hsome ih =>
    obtain ⟨said, used, rest⟩ := scanned
    obtain rfl := Except.ok.inj h
    obtain rfl : said = some x := hsome
    exact .lexeme hscan (ih htail)

/-- A text spells its tokens. -/
theorem spells_of_tokenize {text : String} {list : TokenList} (h : tokenize text = .ok list) :
    Lexer.Spells text.toList (list.tokens.map Token.lexeme) :=
  spells_of_tokensFrom h

namespace Lexer

/-! ## White space behind a text -/

/-- What was cut off, with more text behind the rest. -/
def Cut.extend (rest : List Char) (cut : Cut) : Cut := (cut.1, cut.2 ++ rest)

/-- A run ends at the first character behind the text, if that has another property. -/
theorem run_append_rest {p : Char → Bool} {rest : List Char} (hrest : ∀ c ∈ rest.head?, p c = false)
    (cs : List Char) : run p (cs ++ rest) = (run p cs).extend rest := by
  induction cs with
  | nil => exact run_append_eq (List.forall_mem_nil _) hrest
  | cons c cs ih =>
    simp only [run, Cut.extend, Prod.mk.injEq, List.cons_append, List.takeWhile_cons,
      List.dropWhile_cons] at ih ⊢
    cases p c
    · exact ⟨rfl, rfl⟩
    · exact ⟨congrArg (c :: ·) ih.1, ih.2⟩

/-- White space is no digit. -/
theorem isDigit_of_isGap {c : Char} (hc : isGap c = true) : c.isDigit = false := by
  simp only [isGap, Bool.or_eq_true, beq_iff_eq] at hc
  rcases hc with ((rfl | rfl) | rfl) | rfl <;> rfl

/-- How a floating-point number goes on behind its first digits. -/
inductive FloatTail : List Char → Prop
  | point {d : Char} : d.isDigit = true → FloatTail ['.', d]
  | exponent {e d : Char} : e = 'e' ∨ e = 'E' → d.isDigit = true → FloatTail [e, d]
  | signed {e sign d : Char} : e = 'e' ∨ e = 'E' → sign = '+' ∨ sign = '-' → d.isDigit = true →
      FloatTail [e, sign, d]
  | single : FloatTail ['f', '3', '2']
  | double : FloatTail ['f', '6', '4']

/-- A floating-point number is told by what stands behind its first digits. -/
theorem startsFloat_iff {cs : List Char} :
    startsFloat cs = true ↔
      ∃ digits l more, decimal cs = some (digits, l ++ more) ∧ FloatTail l := by
  constructor
  · intro h
    unfold startsFloat at h
    split at h
    · next digits d more hcut => exact ⟨digits, ['.', d], more, hcut, .point h⟩
    · next digits more hcut =>
      split at h
      · next d more => exact ⟨digits, ['e', '+', d], more, hcut, .signed (.inl rfl) (.inl rfl) h⟩
      · next d more => exact ⟨digits, ['e', '-', d], more, hcut, .signed (.inl rfl) (.inr rfl) h⟩
      · next d more _ _ => exact ⟨digits, ['e', d], more, hcut, .exponent (.inl rfl) h⟩
      · cases h
    · next digits more hcut =>
      split at h
      · next d more => exact ⟨digits, ['E', '+', d], more, hcut, .signed (.inr rfl) (.inl rfl) h⟩
      · next d more => exact ⟨digits, ['E', '-', d], more, hcut, .signed (.inr rfl) (.inr rfl) h⟩
      · next d more _ _ => exact ⟨digits, ['E', d], more, hcut, .exponent (.inr rfl) h⟩
      · cases h
    · next digits more hcut => exact ⟨digits, ['f', '3', '2'], more, hcut, .single⟩
    · next digits more hcut => exact ⟨digits, ['f', '6', '4'], more, hcut, .double⟩
    · cases h
  · rintro ⟨digits, l, more, hcut, hl⟩
    rw [startsFloat, hcut]
    cases hl with
    | point hd => exact hd
    | @exponent e d he hd =>
      have hplus : d ≠ '+' := by rintro rfl; cases hd
      have hminus : d ≠ '-' := by rintro rfl; cases hd
      rcases he with rfl | rfl <;> simp [hplus, hminus, hd]
    | signed he hsign hd =>
      rcases he with rfl | rfl <;> rcases hsign with rfl | rfl <;> exact hd
    | single => rfl
    | double => rfl

/-- No white space stands in it. -/
theorem FloatTail.any_isGap {l : List Char} (h : FloatTail l) : l.any isGap = false := by
  have hdigit : ∀ d : Char, d.isDigit = true → isGap d = false := fun d hd =>
    isGap_of_isNamePart (isNamePart_of_isDigit hd)
  cases h with
  | point hd =>
    simp only [List.any_cons, hdigit _ hd]
    rfl
  | exponent he hd =>
    simp only [List.any_cons, hdigit _ hd]
    rcases he with rfl | rfl <;> rfl
  | signed he hsign hd =>
    simp only [List.any_cons, hdigit _ hd]
    rcases he with rfl | rfl <;> rcases hsign with rfl | rfl <;> rfl
  | single => rfl
  | double => rfl

section Behind

variable {rest : List Char} (hrest : ∀ c ∈ rest.head?, isGap c = true)

include hrest

/-- The name of a type, or nothing. -/
theorem typeSuffix_append_rest (cs : List Char) :
    typeSuffix (cs ++ rest) = (typeSuffix cs).extend rest := by
  unfold typeSuffix
  rw [find?_typeName_append hrest]
  split
  · next t ht =>
    have hprefix : t.name.toList.isPrefixOf cs = true := by simpa using List.find?_some ht
    obtain ⟨more, rfl⟩ := List.isPrefixOf_iff_prefix.mp hprefix
    simp [Cut.extend, ← String.length_toList]
  · rfl

/-- A decimal number. -/
theorem decimal_append_rest (cs : List Char) :
    decimal (cs ++ rest) = (decimal cs).map (Cut.extend rest) := by
  cases cs with
  | nil =>
    cases rest with
    | nil => rfl
    | cons c more => exact decimal_eq_none (isDigit_of_isGap (hrest c rfl)) more
  | cons c cs =>
    have hstop : ∀ d, isGap d = true → (d.isDigit || d == '_') = false := by
      intro d hd
      simp only [isGap, Bool.or_eq_true, beq_iff_eq] at hd
      rcases hd with ((rfl | rfl) | rfl) | rfl <;> rfl
    rw [List.cons_append, decimal, decimal, run_append_rest fun d hd => hstop d (hrest d hd)]
    split_ifs <;> rfl

/-- A number behind a radix mark. -/
theorem radixed_append_rest (cs : List Char) :
    radixed (cs ++ rest) = (radixed cs).map (Cut.extend rest) := by
  cases cs with
  | nil =>
    cases rest with
    | nil => rfl
    | cons c more => exact radixed_eq_none (isDigit_of_isGap (hrest c rfl)) more
  | cons zero cs =>
    rw [List.cons_append, radixed.eq_def, radixed.eq_def (zero :: cs)]
    by_cases hzero : zero = '0'
    · subst hzero
      cases cs with
      | nil =>
        cases rest with
        | nil => rfl
        | cons c more =>
          have hc : radixDigit? c = none := by
            have hgap := hrest c rfl
            simp only [isGap, Bool.or_eq_true, beq_iff_eq] at hgap
            rcases hgap with ((rfl | rfl) | rfl) | rfl <;> rfl
          simp only [List.nil_append, hc, Option.bind_none, Option.map_none]
      | cons letter cs =>
        simp only [List.cons_append]
        cases hletter : radixDigit? letter with
        | none => rfl
        | some isDigit =>
          have hstop : ∀ d, isGap d = true → (isDigit d || d == '_') = false := fun d hd =>
            isDigit_of_endsDigits hletter d (by simp [endsDigits, hd])
          have hrun := run_append_rest (fun d hd => hstop d (hrest d hd)) cs
          simp only [Option.bind_some, hrun]
          cases run (fun d => isDigit d || d == '_') cs with
          | mk digits left => cases digits <;> rfl
    · split <;> simp_all

/-- A number. -/
theorem integer_append_rest (cs : List Char) :
    integer (cs ++ rest) = (integer cs).map (Cut.extend rest) := by
  unfold integer
  rw [radixed_append_rest hrest, decimal_append_rest hrest]
  cases radixed cs with
  | some cut => simp [typeSuffix_append_rest hrest, Cut.extend]
  | none => cases decimal cs <;> simp [typeSuffix_append_rest hrest, Cut.extend]

/-- What does not go on as a floating-point number does not with white space behind it. -/
theorem startsFloat_append_rest {cs : List Char} (h : startsFloat cs = false) :
    startsFloat (cs ++ rest) = false := by
  rw [← Bool.not_eq_true] at h ⊢
  refine fun hfloat => h ?_
  obtain ⟨digits, l, more, hdecimal, hl⟩ := startsFloat_iff.mp hfloat
  rw [decimal_append_rest hrest] at hdecimal
  obtain ⟨⟨digits', more'⟩, hcut, heq⟩ := Option.map_eq_some_iff.mp hdecimal
  obtain ⟨rfl, hmore⟩ := Prod.mk.inj heq
  have hprefix : l.isPrefixOf more' = true := by
    rw [← isPrefixOf_append hl.any_isGap hrest, List.isPrefixOf_iff_prefix]
    exact ⟨more, hmore.symm⟩
  obtain ⟨left, rfl⟩ := List.isPrefixOf_iff_prefix.mp hprefix
  exact startsFloat_iff.mpr ⟨digits', l, left, hcut, hl⟩

/-- A number, a name or a mark. -/
theorem plainLexeme_append_rest {c : Char} {more used left : List Char} {x : Lexeme}
    (h : plainLexeme c more = .ok (some x, used, left)) :
    plainLexeme c (more ++ rest) = .ok (some x, used, left ++ rest) := by
  unfold plainLexeme at h ⊢
  rw [← List.cons_append, integer_append_rest hrest]
  cases hinteger : integer (c :: more) with
  | some cut =>
    obtain ⟨digits, after⟩ := cut
    simp only [hinteger] at h
    split_ifs at h with hfloat
    have hfloat' := startsFloat_append_rest hrest (Bool.not_eq_true _ ▸ hfloat)
    obtain ⟨hx, hcut⟩ := Prod.mk.inj (Except.ok.inj h)
    obtain ⟨rfl, rfl⟩ := Prod.mk.inj hcut
    simp only [Option.map_some, Cut.extend, hfloat', ← hx, Bool.false_eq_true, if_false]
  | none =>
    simp only [hinteger] at h
    simp only [Option.map_none]
    split_ifs at h ⊢ with hstart
    · have hrun := run_append_rest (fun d hd => isNamePart_of_isGap (hrest d hd)) more
      obtain ⟨hx, hcut⟩ := Prod.mk.inj (Except.ok.inj h)
      obtain ⟨rfl, rfl⟩ := Prod.mk.inj hcut
      simp only [hrun, Cut.extend, ← hx]
    · have hfind : Mark.all.find? (·.spelling.isPrefixOf (c :: more ++ rest)) =
          Mark.all.find? (·.spelling.isPrefixOf (c :: more)) :=
        congrArg (Mark.all.find? ·)
          (funext fun m => isPrefixOf_append (by cases m <;> rfl) hrest)
      rw [hfind]
      split at h
      · next m hm =>
        have hprefix : m.spelling.isPrefixOf (c :: more) = true := by
          simpa using List.find?_some hm
        obtain ⟨tail, htail⟩ := List.isPrefixOf_iff_prefix.mp hprefix
        obtain ⟨hx, hcut⟩ := Prod.mk.inj (Except.ok.inj h)
        obtain ⟨rfl, rfl⟩ := Prod.mk.inj hcut
        rw [← htail, List.append_assoc, List.drop_left, List.drop_left, ← hx]
      · cases h

end Behind

/-- An attribute ends at its own bracket. -/
theorem attr_append_rest {opener cs used left : List Char} {x : Lexeme}
    (h : attr opener cs = .ok (some x, used, left)) (rest : List Char) :
    attr opener (cs ++ rest) = .ok (some x, used, left ++ rest) := by
  unfold attr at h
  split at h
  · cases h
  · next body after hbody =>
    have hbalanced := balanced_of_attributeBody hbody
    have hcs : body ++ ']' :: after = cs := attributeBody_append hbody
    obtain ⟨hx, hcut⟩ := Prod.mk.inj (Except.ok.inj h)
    obtain ⟨rfl, rfl⟩ := Prod.mk.inj hcut
    rw [← hcs, List.append_assoc, List.cons_append, attr, hbalanced.attributeBody_eq_ok, ← hx]

/-! ## Further lines -/

/-- A doc comment ends with its line. -/
theorem docComment_append_line (cs tail : List Char) :
    docComment (cs ++ '\n' :: tail) =
      ((docComment cs).1, (docComment cs).2.extend ('\n' :: tail)) := by
  have hrun : restOfLine (cs ++ '\n' :: tail) = (restOfLine cs).extend ('\n' :: tail) := by
    refine run_append_rest (fun c hc => ?_) cs
    obtain rfl := Option.some.inj hc
    rfl
  rw [docComment, docComment, hrun]
  rfl

/-- A doc comment has three slashes in front, and no fourth. -/
theorem scan_docComment {line : List Char} (hline : ∀ rest, line ≠ '/' :: rest) :
    scan '/' ('/' :: '/' :: line) = .ok (docComment ('/' :: '/' :: '/' :: line)) := by
  unfold scan
  rw [if_neg (by decide)]
  split
  · next heq => exact absurd (List.cons.inj (List.cons.inj heq).2).2 (hline _)
  · rfl
  · next hdoc _ heq => exact (hdoc _ (List.cons.inj heq).2.symm).elim
  · next heq => cases heq
  · next hslash _ => cases hslash
  · next hslash _ => cases hslash
  · next hdoc _ _ _ _ => exact (hdoc _ rfl rfl).elim

/-- **One lexeme.** A lexeme is cut off alike with further lines behind the text. -/
theorem scan_append_line {c : Char} {more used left : List Char} {x : Lexeme}
    (h : scan c more = .ok (some x, used, left)) (tail : List Char) :
    scan c (more ++ '\n' :: tail) = .ok (some x, used, left ++ '\n' :: tail) := by
  have hrest : ∀ d ∈ ('\n' :: tail).head?, isGap d = true := by
    rintro d ⟨⟩
    rfl
  unfold scan at h
  split_ifs at h with hgap
  · cases h
  · split at h
    · cases h
    · next line hline =>
      have hline' : ∀ rest, line ++ '\n' :: tail ≠ '/' :: rest := by
        cases line with
        | nil => simp
        | cons d line =>
          intro rest heq
          exact hline line (congrArg (· :: line) (List.cons.inj heq).1)
      rw [List.cons_append, List.cons_append, scan_docComment hline']
      have hdoc := docComment_append_line ('/' :: '/' :: '/' :: line) tail
      rw [Except.ok.inj h] at hdoc
      exact congrArg Except.ok hdoc
    · cases h
    · split at h <;> cases h
    · exact attr_append_rest h _
    · exact attr_append_rest h _
    · next _ _ hline hblock _ _ =>
      have hhash : c ≠ '#' := by
        rintro rfl
        have hnone : plainLexeme '#' more = .error (.unexpected '#') := by
          rw [plainLexeme, integer_eq_none rfl]
          rfl
        cases hnone.symm.trans h
      have hslash : c = '/' → ∀ d ∈ (more ++ '\n' :: tail).head?, d ≠ '/' ∧ d ≠ '*' := by
        rintro hc d hd
        cases more with
        | nil =>
          obtain rfl := Option.some.inj hd
          decide
        | cons e more =>
          obtain rfl := Option.some.inj hd
          exact ⟨fun heq => hline more hc (congrArg (· :: more) heq),
            fun heq => hblock more hc (congrArg (· :: more) heq)⟩
      rw [scan_eq_plainLexeme (Bool.not_eq_true _ ▸ hgap) (absurd · hhash) hslash]
      exact plainLexeme_append_rest hrest h

/-- **Further lines.** A text and the lines behind it spell their lexemes in turn. -/
theorem Spells.append_line {cs tail : List Char} {xs ys : List Lexeme} (h : Spells cs xs)
    (htail : Spells tail ys) : Spells (cs ++ '\n' :: tail) (xs ++ ys) := by
  induction h with
  | nil => exact .cons rfl htail
  | @gap c more used rest lexemes hscan _ ih =>
    rw [← scan_append hscan, List.append_assoc]
    rcases gap_of_scan hscan with hgap | ⟨text, rfl, hline, hplain, hrest⟩
    · exact hgap.spells ih
    · -- the line comment goes on to the line feed that comes next
      obtain ⟨after, hafter⟩ : ∃ after, rest ++ '\n' :: tail = '\n' :: after := by
        cases rest with
        | nil => exact ⟨tail, rfl⟩
        | cons d rest =>
          obtain rfl := hrest d rfl
          exact ⟨_, rfl⟩
      rw [hafter] at ih ⊢
      exact .gap (scan_line hline hplain) ih
  | lexeme hscan _ ih => exact .lexeme (scan_append_line hscan tail) ih

end Lexer

end MaskEnum
