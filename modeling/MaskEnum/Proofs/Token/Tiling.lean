import Mathlib.Data.List.Induction
import MaskEnum.Proofs.Token.Numeral
import MaskEnum.Proofs.Token.Writing
set_option autoImplicit false

/-!
# Tokens tile their text

A text that is tokenized is made up of the spellings of its tokens, in order, with a gap before each
and one behind the last. So no character is lost and none is read twice. Every token stands at the
place of the first character of its spelling, and the end of the text at the place behind its last
character.

## Main definitions

* `MaskEnum.Position.behind` — the place behind a text, told from its line feeds.
* `MaskEnum.Lexeme.SpelledAs` — the spellings of a lexeme.
* `MaskEnum.Lexer.LastGap` — what may stand behind the last token.
* `MaskEnum.Tiled` — a text is made up of gaps and the spellings of placed tokens.

## Main results

* `MaskEnum.Lexer.spelledAs_of_scan` — what is cut off as a lexeme spells it.
* `MaskEnum.Lexer.gap_of_scan` — what is cut off and spells nothing is a gap.
* `MaskEnum.tokenize_tiled` — the tokens of a text tile it.
-/

namespace MaskEnum

/-! ## Places -/

/-- The place behind a text: its line is one more than the text has line feeds, its column one more
than there are characters behind the last of them. -/
def Position.behind (cs : List Char) : Position :=
  ⟨cs.count '\n' + 1, (cs.reverse.takeWhile (· != '\n')).length + 1⟩

/-- Reading a text from its start leads to the place behind it. -/
theorem Position.advance_start (cs : List Char) : Position.start.advance cs = .behind cs := by
  induction cs using List.reverseRecOn with
  | nil => rfl
  | append_singleton cs c ih =>
    rw [advance_append, ih]
    by_cases hc : c = '\n'
    · subst hc
      simp [advance, after, behind]
    · simp [advance, after, behind, hc]

/-- One text behind another. -/
theorem Position.advance_behind (cs ds : List Char) :
    (Position.behind cs).advance ds = .behind (cs ++ ds) := by
  rw [← advance_start, ← advance_start, advance_append]

/-! ## Spellings -/

/-- The spellings of a lexeme. A doc comment holds what stands behind its three slashes and an
attribute what stands between its brackets, both without the blanks at their ends. -/
inductive Lexeme.SpelledAs : Lexeme → List Char → Prop
  | ident {name : String} : Generated.isIdentifier name = true →
      SpelledAs (.ident name) name.toList
  | int {digits : String} : Lexer.IntegerText digits.toList → SpelledAs (.int digits) digits.toList
  | mark (m : Mark) : SpelledAs (.mark m) m.spelling
  | doc {line : List Char} : '\n' ∉ line → ¬ ['/'] <+: line →
      SpelledAs (.doc (String.ofList (Text.strip line))) ('/' :: '/' :: '/' :: line)
  | attr {opener body : List Char} : opener = ['#', '['] ∨ opener = ['#', '!', '['] →
      Lexer.Balanced body →
      SpelledAs (.attr (String.ofList (Text.strip body))) (opener ++ (body ++ [']']))

namespace Lexer

/-- The text of an attribute inside which `depth` brackets are open: balanced texts with closing
brackets between them. -/
inductive ClosesAt : Nat → List Char → Prop
  | done {body : List Char} : Balanced body → ClosesAt 0 body
  | close {depth : Nat} {inner rest : List Char} : Balanced inner → ClosesAt depth rest →
      ClosesAt (depth + 1) (inner ++ ']' :: rest)

/-- The balanced text in front can be exchanged for another one. -/
theorem ClosesAt.exists_front {depth : Nat} {body : List Char} (h : ClosesAt depth body) :
    ∃ front more, body = front ++ more ∧ Balanced front ∧
      ∀ front', Balanced front' → ClosesAt depth (front' ++ more) := by
  cases h with
  | done hbody =>
    refine ⟨body, [], (List.append_nil body).symm, hbody, fun front' h => ?_⟩
    rw [List.append_nil]
    exact .done h
  | @close depth inner rest hinner hrest =>
    exact ⟨inner, ']' :: rest, rfl, hinner, fun front' h => .close h hrest⟩

/-- A plain character in front. -/
theorem ClosesAt.char {c : Char} (hc : c ∉ ['[', ']', '"']) {depth : Nat} {body : List Char}
    (h : ClosesAt depth body) : ClosesAt depth (c :: body) := by
  obtain ⟨front, more, rfl, hfront, hall⟩ := h.exists_front
  exact hall (c :: front) (.char hc hfront)

/-- A string in front. -/
theorem ClosesAt.string {inside : List Char} (hinside : StringBody inside) {depth : Nat}
    {body : List Char} (h : ClosesAt depth body) :
    ClosesAt depth ('"' :: (inside ++ '"' :: body)) := by
  obtain ⟨front, more, rfl, hfront, hall⟩ := h.exists_front
  simpa using hall _ (.string hinside hfront)

/-- An opening bracket in front. -/
theorem ClosesAt.opened {depth : Nat} {body : List Char} (h : ClosesAt (depth + 1) body) :
    ClosesAt depth ('[' :: body) := by
  cases h with
  | close hinner hrest =>
    obtain ⟨front, more, rfl, hfront, hall⟩ := hrest.exists_front
    simpa using hall _ (.brackets hinner hfront)

/-- What is read of an attribute: its text, or the rest of a string and then its text. -/
theorem closesAt_of_attributeBody {depth : Nat} {inString : Bool} {cs body rest : List Char}
    (h : attributeBody depth inString cs = .ok (body, rest)) :
    if inString then
      ∃ inside more, body = inside ++ '"' :: more ∧ StringBody inside ∧ ClosesAt depth more
    else ClosesAt depth body := by
  fun_induction attributeBody depth inString cs generalizing body with
  | case1 => cases h
  | case2 => cases h
  | case3 depth c cs ih =>
    obtain ⟨⟨inner, after⟩, hi, he⟩ := map_eq_ok h
    obtain ⟨rfl, rfl⟩ := Prod.mk.inj he
    obtain ⟨inside, more, rfl, hinside, hmore⟩ := ih hi
    exact ⟨'\\' :: c :: inside, more, rfl, .hidden hinside, hmore⟩
  | case4 => cases h
  | case5 cs =>
    obtain ⟨rfl, rfl⟩ := Prod.mk.inj (Except.ok.inj h)
    exact .done .nil
  | case6 depth cs ih =>
    obtain ⟨⟨inner, after⟩, hi, he⟩ := map_eq_ok h
    obtain ⟨rfl, rfl⟩ := Prod.mk.inj he
    exact .close .nil (ih hi)
  | case7 depth cs ih =>
    obtain ⟨⟨inner, after⟩, hi, he⟩ := map_eq_ok h
    obtain ⟨rfl, rfl⟩ := Prod.mk.inj he
    exact (ih hi).opened
  | case8 depth inString cs ih =>
    obtain ⟨⟨inner, after⟩, hi, he⟩ := map_eq_ok h
    obtain ⟨rfl, rfl⟩ := Prod.mk.inj he
    cases inString with
    | true => exact ⟨[], inner, rfl, .nil, ih hi⟩
    | false =>
      obtain ⟨inside, more, rfl, hinside, hmore⟩ := ih hi
      exact hmore.string hinside
  | case9 depth inString c cs h₁ h₂ h₃ h₄ h₅ h₆ ih =>
    obtain ⟨⟨inner, after⟩, hi, he⟩ := map_eq_ok h
    obtain ⟨rfl, rfl⟩ := Prod.mk.inj he
    cases inString with
    | true =>
      obtain ⟨inside, more, rfl, hinside, hmore⟩ := ih hi
      have hback : c ≠ '\\' := by
        cases cs with
        | nil => exact (h₂ rfl · rfl)
        | cons d cs => exact (h₁ d cs rfl · rfl)
      exact ⟨c :: inside, more, rfl, .char h₆ hback hinside, hmore⟩
    | false =>
      have hclose : c ≠ ']' := by
        cases depth with
        | zero => exact h₃ rfl rfl
        | succ depth => exact h₄ depth rfl rfl
      have hplain : c ∉ ['[', ']', '"'] := by
        simp only [List.mem_cons, List.not_mem_nil, or_false, not_or]
        exact ⟨h₅ rfl, hclose, h₆⟩
      exact (ih hi).char hplain

/-- The text of an attribute is balanced. -/
theorem balanced_of_attributeBody {cs body rest : List Char}
    (h : attributeBody 0 false cs = .ok (body, rest)) : Balanced body := by
  have hclose : ClosesAt 0 body := closesAt_of_attributeBody h
  cases hclose with
  | done hbody => exact hbody

/-- An integer that is cut off is one. -/
theorem integerText_of_integer {cs digits rest : List Char}
    (h : integer cs = some (digits, rest)) : IntegerText digits := by
  obtain ⟨number, suffix, more, rfl, hnumber, hsuffix⟩ := exists_number_of_integer h
  rcases hnumber with hradixed | hdecimal
  · obtain ⟨letter, isDigit, ds, hletter, hne, hds, rfl⟩ := radixed_eq_some hradixed
    exact .radixed hletter hne hds hsuffix
  · obtain ⟨first, ds, hfirst, hds, rfl⟩ := decimal_eq_some hdecimal
    exact .decimal hfirst hds hsuffix

/-- A number, a name or a mark that is cut off is spelled by what is cut off. -/
theorem spelledAs_of_plainLexeme {c : Char} {more used rest : List Char} {x : Lexeme}
    (h : plainLexeme c more = .ok (some x, used, rest)) :
    x.SpelledAs used ∧ ∀ text, x ≠ .doc text := by
  unfold plainLexeme at h
  split at h
  · next digits left hdigits =>
    split_ifs at h
    obtain ⟨hx, hcut⟩ := Prod.mk.inj (Except.ok.inj h)
    obtain ⟨rfl, rfl⟩ := Prod.mk.inj hcut
    obtain rfl := Option.some.inj hx
    have hspelled : (Lexeme.int (String.ofList digits)).SpelledAs (String.ofList digits).toList :=
      .int (by rw [String.toList_ofList]; exact integerText_of_integer hdigits)
    rw [String.toList_ofList] at hspelled
    exact ⟨hspelled, fun _ => by simp⟩
  · split_ifs at h with hstart
    · obtain ⟨hx, hcut⟩ := Prod.mk.inj (Except.ok.inj h)
      obtain ⟨rfl, rfl⟩ := Prod.mk.inj hcut
      obtain rfl := Option.some.inj hx
      have hname :
          Generated.isIdentifier (String.ofList (c :: (run isNamePart more).1)) = true := by
        rw [Generated.isIdentifier, String.toList_ofList, Bool.and_eq_true]
        exact ⟨hstart, List.all_takeWhile⟩
      have hspelled := Lexeme.SpelledAs.ident hname
      rw [String.toList_ofList] at hspelled
      exact ⟨hspelled, fun _ => by simp⟩
    · split at h
      · next m _ =>
        obtain ⟨hx, hcut⟩ := Prod.mk.inj (Except.ok.inj h)
        obtain ⟨rfl, -⟩ := Prod.mk.inj hcut
        obtain rfl := Option.some.inj hx
        exact ⟨.mark m, fun _ => by simp⟩
      · cases h

/-- An attribute that is cut off is spelled by what is cut off. -/
theorem spelledAs_of_attr {opener cs used rest : List Char} {x : Lexeme}
    (hopener : opener = ['#', '['] ∨ opener = ['#', '!', '['])
    (h : attr opener cs = .ok (some x, used, rest)) :
    x.SpelledAs used ∧ ∀ text, x ≠ .doc text := by
  unfold attr at h
  split at h
  · cases h
  · next body left hbody =>
    obtain ⟨hx, hcut⟩ := Prod.mk.inj (Except.ok.inj h)
    obtain ⟨rfl, rfl⟩ := Prod.mk.inj hcut
    obtain rfl := Option.some.inj hx
    exact ⟨.attr hopener (balanced_of_attributeBody hbody), nofun⟩

/-- What is left of a line starts with its line feed, or is empty. -/
theorem head?_restOfLine (cs : List Char) : ∀ c ∈ (restOfLine cs).2.head?, c = '\n' := by
  intro c hc
  have hstop := List.head?_dropWhile_not (· != '\n') cs
  simp only [restOfLine, run] at hc
  rw [Option.mem_def] at hc
  rw [hc] at hstop
  simpa using hstop

/-- No line feed stands in a line. -/
theorem notMem_restOfLine (cs : List Char) : '\n' ∉ (restOfLine cs).1 := by
  intro hmem
  have hall := List.all_eq_true.mp (@List.all_takeWhile _ (· != '\n') cs) _ hmem
  simp at hall

/-- A doc comment that is cut off is spelled by what is cut off. -/
theorem spelledAs_of_docComment {more used rest : List Char} {x : Lexeme}
    (hslash : ¬ ['/'] <+: more)
    (h : docComment ('/' :: '/' :: '/' :: more) = (some x, used, rest)) :
    x.SpelledAs used ∧ ∀ c ∈ rest.head?, c = '\n' := by
  have hline : restOfLine ('/' :: '/' :: '/' :: more) =
      ('/' :: '/' :: '/' :: (restOfLine more).1, (restOfLine more).2) := rfl
  rw [docComment, hline] at h
  obtain ⟨hx, hcut⟩ := Prod.mk.inj h
  obtain ⟨rfl, rfl⟩ := Prod.mk.inj hcut
  obtain rfl := Option.some.inj hx
  refine ⟨.doc (notMem_restOfLine more) fun hstart => hslash ?_, head?_restOfLine more⟩
  have hcut := run_append (· != '\n') more
  exact hcut ▸ hstart.trans (List.prefix_append _ _)

/-- **Spellings.** What is cut off as a lexeme spells it; a doc comment goes on to the end of its
line. -/
theorem spelledAs_of_scan {c : Char} {more used rest : List Char} {x : Lexeme}
    (h : scan c more = .ok (some x, used, rest)) :
    x.SpelledAs used ∧ ((∃ text, x = .doc text) → ∀ d ∈ rest.head?, d = '\n') := by
  have hother : (x.SpelledAs used ∧ ∀ text, x ≠ .doc text) →
      x.SpelledAs used ∧ ((∃ text, x = .doc text) → ∀ d ∈ rest.head?, d = '\n') := by
    rintro ⟨hspelled, hne⟩
    exact ⟨hspelled, fun ⟨text, hdoc⟩ => absurd hdoc (hne text)⟩
  unfold scan at h
  split_ifs at h
  · cases h
  · split at h
    · cases h
    · next tail hfourth _ =>
      have hslash : ¬ ['/'] <+: tail := fun ⟨more, hmore⟩ => hfourth more hmore.symm
      obtain ⟨hspelled, hstop⟩ := spelledAs_of_docComment hslash (Except.ok.inj h)
      exact ⟨hspelled, fun _ => hstop⟩
    · cases h
    · split at h <;> cases h
    · exact hother (spelledAs_of_attr (.inl rfl) h)
    · exact hother (spelledAs_of_attr (.inr rfl) h)
    · exact hother (spelledAs_of_plainLexeme h)

/-! ## Gaps -/

/-- What may stand behind the last token: a gap, or a gap and a line comment that the text ends
in. -/
inductive LastGap : List Char → Prop
  | gap {cs : List Char} : Gap cs → LastGap cs
  | line {cs text : List Char} : Gap cs → '\n' ∉ text → (['/'] <+: text → ['/', '/'] <+: text) →
      LastGap (cs ++ '/' :: '/' :: text)

/-- Two gaps one after the other are one. -/
theorem Gap.append {cs ds : List Char} (hcs : Gap cs) (hds : Gap ds) : Gap (cs ++ ds) := by
  induction hcs with
  | nil => exact hds
  | space hc _ ih => exact .space hc ih
  | line htext hplain _ ih => simpa using Gap.line htext hplain ih
  | block hbody _ ih => simpa using Gap.block hbody ih

/-- A gap in front of a last gap. -/
theorem LastGap.append {cs ds : List Char} (hcs : Gap cs) (hds : LastGap ds) :
    LastGap (cs ++ ds) := by
  cases hds with
  | gap hds => exact .gap (hcs.append hds)
  | line hds htext hplain =>
    rw [← List.append_assoc]
    exact .line (hcs.append hds) htext hplain

/-- White space does not start a comment. -/
theorem ne_slash_of_isGap {c : Char} (hc : isGap c = true) : c ≠ '/' := by
  rintro rfl
  cases hc

/-- A gap without the white space that it starts with. -/
theorem Gap.tail {c : Char} {cs : List Char} (hc : isGap c = true) (h : Gap (c :: cs)) :
    Gap cs := by
  cases h with
  | space _ hrest => exact hrest
  | line => exact absurd rfl (ne_slash_of_isGap hc)
  | block => exact absurd rfl (ne_slash_of_isGap hc)

/-- A last gap without the white space that it starts with. -/
theorem LastGap.tail {c : Char} {cs : List Char} (hc : isGap c = true) (h : LastGap (c :: cs)) :
    LastGap cs := by
  generalize htext : c :: cs = text at h
  cases h with
  | gap hgap =>
    subst htext
    exact .gap (hgap.tail hc)
  | @line front text hfront hline hplain =>
    cases front with
    | nil => exact absurd (List.cons.inj htext).1 (ne_slash_of_isGap hc)
    | cons d front =>
      obtain ⟨rfl, rfl⟩ := List.cons.inj htext
      exact .line (hfront.tail hc) hline hplain

/-- White space is a gap. -/
theorem gap_of_forall {cs : List Char} (h : ∀ c ∈ cs, isGap c = true) : Gap cs := by
  induction cs with
  | nil => exact .nil
  | cons c cs ih =>
    obtain ⟨hc, hcs⟩ := List.forall_mem_cons.mp h
    exact .space hc (ih hcs)

/-- The text of a block comment inside which `outer` further ones are open: one rest of a comment
for each and for itself. -/
inductive CommentsAt : Nat → List Char → Prop
  | done {body : List Char} : CommentBody body → CommentsAt 0 body
  | close {outer : Nat} {body rest : List Char} : CommentBody body → CommentsAt outer rest →
      CommentsAt (outer + 1) (body ++ rest)

/-- The first rest of a comment can be exchanged for another one. -/
theorem CommentsAt.exists_front {outer : Nat} {body : List Char} (h : CommentsAt outer body) :
    ∃ front more, body = front ++ more ∧ CommentBody front ∧
      ∀ front', CommentBody front' → CommentsAt outer (front' ++ more) := by
  cases h with
  | done hbody =>
    refine ⟨body, [], by simp, hbody, fun front' h => ?_⟩
    rw [List.append_nil]
    exact .done h
  | @close outer body rest hbody hrest =>
    exact ⟨body, rest, rfl, hbody, fun front' h => .close h hrest⟩

/-- What is read of a block comment. -/
theorem commentsAt_of_blockComment {outer : Nat} {cs body rest : List Char}
    (h : blockComment outer cs = some (body, rest)) : CommentsAt outer body := by
  fun_induction blockComment outer cs generalizing body with
  | case1 outer cs ih =>
    obtain ⟨⟨inner, left⟩, hi, he⟩ := Option.map_eq_some_iff.mp h
    obtain ⟨rfl, rfl⟩ := Prod.mk.inj he
    cases ih hi with
    | close hbody hrest =>
      obtain ⟨front, more, rfl, hfront, hall⟩ := hrest.exists_front
      simpa using hall _ (.nested hbody hfront)
  | case2 cs =>
    obtain ⟨rfl, rfl⟩ := Prod.mk.inj (Option.some.inj h)
    exact .done .close
  | case3 outer cs ih =>
    obtain ⟨⟨inner, left⟩, hi, he⟩ := Option.map_eq_some_iff.mp h
    obtain ⟨rfl, rfl⟩ := Prod.mk.inj he
    exact .close .close (ih hi)
  | case4 outer c cs hopen hclose hclose' ih =>
    obtain ⟨⟨inner, left⟩, hi, he⟩ := Option.map_eq_some_iff.mp h
    obtain ⟨rfl, rfl⟩ := Prod.mk.inj he
    obtain ⟨front, more, hbody, hfront, hall⟩ := (ih hi).exists_front
    -- a mark that starts in front of the comment's text starts in front of all
    have hstart : c :: front <+: c :: cs := by
      refine ⟨more ++ left, ?_⟩
      simpa [hbody] using blockComment_append hi
    have hnoOpen : ¬ ['/', '*'] <+: c :: front := by
      intro hmark
      obtain ⟨tail, htail⟩ := hmark.trans hstart
      obtain ⟨rfl, rfl⟩ := List.cons.inj htail
      exact hopen _ rfl rfl
    have hnoClose : ¬ ['*', '/'] <+: c :: front := by
      intro hmark
      obtain ⟨tail, htail⟩ := hmark.trans hstart
      obtain ⟨rfl, rfl⟩ := List.cons.inj htail
      cases outer with
      | zero => exact hclose _ rfl rfl rfl
      | succ outer => exact hclose' outer _ rfl rfl rfl
    simpa [hbody] using hall _ (.char hnoOpen hnoClose hfront)
  | case5 => cases h

/-- What is read of the only open comment is its rest. -/
theorem commentBody_of_blockComment {cs body rest : List Char}
    (h : blockComment 0 cs = some (body, rest)) : CommentBody body := by
  cases commentsAt_of_blockComment h with
  | done hbody => exact hbody

/-- A line comment that is cut off ends before the line feed of its line. -/
theorem line_of_restOfLine {more used rest : List Char}
    (hplain : ['/'] <+: more → ['/', '/'] <+: more)
    (h : gap (restOfLine ('/' :: '/' :: more)) = (none, used, rest)) :
    ∃ text, used = '/' :: '/' :: text ∧ '\n' ∉ text ∧ (['/'] <+: text → ['/', '/'] <+: text) ∧
      ∀ d ∈ rest.head?, d = '\n' := by
  obtain ⟨rfl, rfl⟩ := Prod.mk.inj (Prod.mk.inj h).2
  refine ⟨(restOfLine more).1, rfl, notMem_restOfLine more, fun hstart => ?_,
    head?_restOfLine more⟩
  obtain ⟨tail, rfl⟩ := hplain (hstart.trans ⟨_, run_append _ more⟩)
  exact ⟨(restOfLine tail).1, rfl⟩

/-- An attribute spells a lexeme. -/
theorem attr_ne_none (opener cs : List Char) {cut : Cut} : attr opener cs ≠ .ok (none, cut) := by
  unfold attr
  split <;> simp

/-- So does a number, a name or a mark. -/
theorem plainLexeme_ne_none (c : Char) (more : List Char) {cut : Cut} :
    plainLexeme c more ≠ .ok (none, cut) := by
  unfold plainLexeme
  split
  · split_ifs <;> simp
  · split_ifs
    · simp
    · split <;> simp

/-- **Gaps.** What is cut off and spells nothing is a gap, or a line comment without the line feed
of its line. -/
theorem gap_of_scan {c : Char} {more used rest : List Char}
    (h : scan c more = .ok (none, used, rest)) :
    Gap used ∨ ∃ text, used = '/' :: '/' :: text ∧ '\n' ∉ text ∧
      (['/'] <+: text → ['/', '/'] <+: text) ∧ ∀ d ∈ rest.head?, d = '\n' := by
  unfold scan at h
  split_ifs at h with hc
  · obtain ⟨rfl, rfl⟩ := Prod.mk.inj (Prod.mk.inj (Except.ok.inj h)).2
    refine .inl (.space hc (gap_of_forall fun d hd => ?_))
    exact List.all_eq_true.mp List.all_takeWhile d hd
  · split at h
    · refine .inr (line_of_restOfLine (fun _ => ?_) (Except.ok.inj h))
      exact ⟨_, rfl⟩
    · cases h
    · next tail _ hdoc =>
      refine .inr (line_of_restOfLine (fun hstart => ?_) (Except.ok.inj h))
      obtain ⟨more, rfl⟩ := hstart
      exact (hdoc more rfl).elim
    · split at h
      · next hbody =>
        obtain ⟨rfl, rfl⟩ := Prod.mk.inj (Prod.mk.inj (Except.ok.inj h)).2
        have hgap := Gap.block (commentBody_of_blockComment hbody) .nil
        rw [List.append_nil] at hgap
        exact .inl hgap
      · cases h
    · exact absurd h (attr_ne_none _ _)
    · exact absurd h (attr_ne_none _ _)
    · exact absurd h (plainLexeme_ne_none _ _)

end Lexer

open Lexer

/-- No name and no number starts with white space. -/
theorem Lexer.isGap_of_isNamePart {c : Char} (hc : isNamePart c = true) : isGap c = false := by
  by_contra hgap
  rw [isNamePart_of_isGap (Bool.not_eq_false _ ▸ hgap)] at hc
  cases hc

/-- No spelling starts with white space. -/
theorem Lexeme.SpelledAs.exists_cons {x : Lexeme} {spelling : List Char}
    (h : x.SpelledAs spelling) : ∃ c more, spelling = c :: more ∧ isGap c = false := by
  cases h with
  | @ident name hname =>
    unfold Generated.isIdentifier at hname
    split at hname
    · cases hname
    · next c more hcons =>
      rw [Bool.and_eq_true] at hname
      exact ⟨c, more, hcons, isGap_of_isNamePart (isNamePart_of_isNameStart hname.1)⟩
  | @int digits hdigits =>
    cases hcons : digits.toList with
    | nil =>
      rw [hcons] at hdigits
      cases hdigits
    | cons c more =>
      rw [hcons] at hdigits
      have hdigit : c.isDigit = true := by
        cases hdigits with
        | radixed => rfl
        | decimal hfirst => exact hfirst
      exact ⟨c, more, rfl, isGap_of_isNamePart (isNamePart_of_isDigit hdigit)⟩
  | mark m => cases m <;> exact ⟨_, _, rfl, rfl⟩
  | doc => exact ⟨_, _, rfl, rfl⟩
  | attr hopener => rcases hopener with rfl | rfl <;> exact ⟨_, _, rfl, rfl⟩

/-! ## Texts and their tokens -/

/-- The text is made up of gaps and the spellings of tokens, each at its place behind the text
`before`; its end is at `stop`. The text behind a doc comment starts with the line feed of its line,
unless it is empty. -/
inductive Tiled : List Char → List Char → List Token → Position → Prop
  | stop {before gap : List Char} : LastGap gap →
      Tiled before gap [] (.behind (before ++ gap))
  | token {before gap spelling rest : List Char} {x : Lexeme} {tokens : List Token}
      {stop : Position} :
      Gap gap → x.SpelledAs spelling →
      ((∃ text, x = .doc text) → ∀ c ∈ rest.head?, c = '\n') →
      Tiled (before ++ (gap ++ spelling)) rest tokens stop →
      Tiled before (gap ++ (spelling ++ rest)) (⟨x, .behind (before ++ gap)⟩ :: tokens) stop

namespace Tiled

variable {before cs : List Char} {tokens : List Token} {stop : Position}

/-- A gap in front belongs to the gap before the first token. -/
theorem gap_append {front : List Char} (hfront : Gap front)
    (h : Tiled (before ++ front) cs tokens stop) :
    Tiled before (front ++ cs) tokens stop := by
  cases h with
  | stop hgap =>
    rw [List.append_assoc]
    exact .stop (.append hfront hgap)
  | @token _ gap spelling rest x tokens _ hgap hx hdoc hrest =>
    rw [List.append_assoc, ← List.append_assoc front]
    refine .token (hfront.append hgap) hx hdoc ?_
    simpa only [List.append_assoc] using hrest

/-- White space in front can be taken from the gap before the first token. -/
theorem tail {c : Char} (hc : isGap c = true) (h : Tiled before (c :: cs) tokens stop) :
    Tiled (before ++ [c]) cs tokens stop := by
  generalize htext : c :: cs = text at h
  cases h with
  | stop hlast =>
    subst htext
    simpa using @Tiled.stop (before ++ [c]) _ (hlast.tail hc)
  | @token _ gap spelling rest x tokens _ hgap hx hdoc hrest =>
    cases gap with
    | nil =>
      obtain ⟨d, more, rfl, hd⟩ := hx.exists_cons
      obtain ⟨rfl, -⟩ := List.cons.inj htext
      rw [hc] at hd
      cases hd
    | cons d gap =>
      obtain ⟨rfl, rfl⟩ := List.cons.inj htext
      have hrest : Tiled (before ++ [c] ++ (gap ++ spelling)) rest tokens stop := by
        simpa using hrest
      simpa using Tiled.token (hgap.tail hc) hx hdoc hrest

/-- A line comment in front, whose line goes on to a line feed or to the end of the text, belongs to
the gap before the first token, or to the last gap. -/
theorem line_append {text : List Char} (hline : '\n' ∉ text)
    (hplain : ['/'] <+: text → ['/', '/'] <+: text) (hcs : ∀ c ∈ cs.head?, c = '\n')
    (h : Tiled (before ++ '/' :: '/' :: text) cs tokens stop) :
    Tiled before ('/' :: '/' :: (text ++ cs)) tokens stop := by
  cases cs with
  | cons c cs =>
    obtain rfl : c = '\n' := hcs c rfl
    have hgap : Gap ('/' :: '/' :: (text ++ ['\n'])) := .line hline hplain .nil
    simpa using gap_append hgap (by simpa using h.tail rfl)
  | nil =>
    generalize hnil : ([] : List Char) = rest at h
    cases h with
    | stop hlast =>
      subst hnil
      have hgap : LastGap ('/' :: '/' :: text) := .line .nil hline hplain
      simpa using @Tiled.stop before _ hgap
    | token hgap hx =>
      obtain ⟨d, more, rfl, -⟩ := hx.exists_cons
      simp at hnil

/-- **One step.** What is cut off in front and spells nothing belongs to the gap before the first
token, whatever part of the rest the tokens are from. -/
theorem scan_gap {c : Char} {more used rest : List Char}
    (hscan : scan c more = .ok (none, used, rest)) (hcs : cs <+: rest)
    (h : Tiled (before ++ used) cs tokens stop) : Tiled before (used ++ cs) tokens stop := by
  obtain ⟨after, rfl⟩ := hcs
  rcases gap_of_scan hscan with hgap | ⟨text, rfl, hline, hplain, hrest⟩
  · exact h.gap_append hgap
  · exact h.line_append hline hplain fun d hd =>
      hrest d (List.mem_head?_append_of_mem_head? hd)

/-- **One step.** What is cut off in front as a lexeme is the first token. -/
theorem scan_lexeme {c : Char} {more used rest : List Char} {x : Lexeme}
    (hscan : scan c more = .ok (some x, used, rest)) (hcs : cs <+: rest)
    (h : Tiled (before ++ used) cs tokens stop) :
    Tiled before (used ++ cs) (⟨x, .behind before⟩ :: tokens) stop := by
  obtain ⟨after, rfl⟩ := hcs
  obtain ⟨hspelled, hdoc⟩ := spelledAs_of_scan hscan
  simpa using @Tiled.token before _ _ _ _ _ _ .nil hspelled
    (fun hx d hd => hdoc hx d (List.mem_head?_append_of_mem_head? hd)) h

end Tiled

/-- **One run.** The tokens of a text that stands behind another one tile it. -/
theorem tiled_of_tokensFrom {before cs : List Char} {list : TokenList}
    (h : tokensFrom (.behind before) cs = .ok list) :
    Tiled before cs list.tokens list.stop := by
  generalize hp : Position.behind before = p at h
  fun_induction tokensFrom p cs generalizing before list with
  | case1 p =>
    obtain rfl := Except.ok.inj h
    subst hp
    simpa using @Tiled.stop before _ (.gap .nil)
  | case2 => cases h
  | case3 => cases h
  | case4 p c more scanned hscan _ tail htail hnone ih =>
    obtain ⟨said, used, rest⟩ := scanned
    obtain rfl := Except.ok.inj h
    obtain rfl : said = none := hnone
    subst hp
    rw [← scan_append hscan]
    exact (ih (Position.advance_behind before used).symm htail).scan_gap hscan List.prefix_rfl
  | case5 p c more scanned hscan _ tail htail x hsome ih =>
    obtain ⟨said, used, rest⟩ := scanned
    obtain rfl := Except.ok.inj h
    obtain rfl : said = some x := hsome
    subst hp
    rw [← scan_append hscan]
    exact (ih (Position.advance_behind before used).symm htail).scan_lexeme hscan List.prefix_rfl

/-- **Tokens tile their text.** A text that is tokenized is made up of the spellings of its tokens,
in order, with a gap in front of each and one at the end. Each token stands at the place of the
first character of its spelling, and the end of the text at the place behind its last character. -/
theorem tokenize_tiled {text : String} {list : TokenList} (h : tokenize text = .ok list) :
    Tiled [] text.toList list.tokens list.stop :=
  tiled_of_tokensFrom h

/-- The tokens of a text with comments of all kinds, the last of which runs to its end. -/
def commentedTokens : TokenList where
  tokens := [⟨.doc "d", ⟨2, 1⟩⟩, ⟨.ident "A", ⟨3, 1⟩⟩, ⟨.int "0x1fu8", ⟨3, 11⟩⟩,
    ⟨.attr "a[\"]\"]", ⟨3, 18⟩⟩, ⟨.mark .slash, ⟨4, 1⟩⟩]
  stop := ⟨4, 5⟩

/-- They tile it. -/
theorem tokenize_tiled_commented :
    tokenize "//x\n/// d\nA /*/**/*/0x1fu8\t#[a[\"]\"]]\r\n/ //" = .ok commentedTokens ∧
      Tiled [] "//x\n/// d\nA /*/**/*/0x1fu8\t#[a[\"]\"]]\r\n/ //".toList commentedTokens.tokens
        commentedTokens.stop := by
  have hread : (tokenize "//x\n/// d\nA /*/**/*/0x1fu8\t#[a[\"]\"]]\r\n/ //").toOption =
      some commentedTokens := by
    decide +kernel
  obtain ⟨list, hlist⟩ := exists_eq_ok (by rw [hread]; rfl)
  obtain rfl : list = commentedTokens := by
    rw [hlist] at hread
    exact Option.some.inj hread
  exact ⟨hlist, tokenize_tiled hlist⟩

end MaskEnum
