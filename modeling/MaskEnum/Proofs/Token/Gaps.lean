import MaskEnum.Proofs.Result
import MaskEnum.Token.Lexer
set_option autoImplicit false

/-!
# Gaps between tokens

A text is cut into pieces, some of which spell a lexeme. Gaps spell none: white space, comments that
run to the end of their line and are no doc comments, and block comments with further ones inside.
So a gap in front of a text changes nothing about what the text spells.

## Main definitions

* `MaskEnum.Lexer.Spells` — a text is cut into pieces that spell some lexemes.
* `MaskEnum.Lexer.CommentBody` — the rest of a block comment, up to the mark that closes it.
* `MaskEnum.Lexer.Gap` — any sequence of white space and comments.

## Main results

* `MaskEnum.Lexer.Spells.tokenize_eq_ok` — a text has the lexemes that it spells as tokens.
* `MaskEnum.Lexer.Gap.spells` — a gap in front of a text spells nothing.
-/

namespace MaskEnum

/-- A position moves over two texts one after the other. -/
theorem Position.advance_append (p : Position) (cs ds : List Char) :
    p.advance (cs ++ ds) = (p.advance cs).advance ds :=
  List.foldl_append

namespace Lexer

/-- The text is cut into pieces, of which those that are no gaps spell the lexemes in order. -/
inductive Spells : List Char → List Lexeme → Prop
  | nil : Spells [] []
  | gap {c : Char} {more used rest : List Char} {lexemes : List Lexeme} :
      scan c more = .ok (none, used, rest) → Spells rest lexemes → Spells (c :: more) lexemes
  | lexeme {c : Char} {more used rest : List Char} {lexeme : Lexeme} {lexemes : List Lexeme} :
      scan c more = .ok (some lexeme, used, rest) → Spells rest lexemes →
      Spells (c :: more) (lexeme :: lexemes)

/-- The tokens of a text, from its first spelling and those of the rest. -/
theorem tokensFrom_cons {p : Position} {c : Char} {more : List Char} {scanned : Scanned}
    (h : scan c more = .ok scanned) :
    tokensFrom p (c :: more) =
      match tokensFrom (p.advance scanned.2.1) scanned.2.2 with
      | .error e => .error e
      | .ok list =>
        match scanned.1 with
        | none => .ok list
        | some lexeme => .ok { list with tokens := ⟨lexeme, p⟩ :: list.tokens } := by
  rw [tokensFrom]
  split
  · next fault hfault =>
    rw [h] at hfault
    cases hfault
  · next scanned' hscanned =>
    obtain rfl := Except.ok.inj (h.symm.trans hscanned)
    rfl

/-- A text has the lexemes that it spells as tokens, and its end is found. -/
theorem Spells.tokensFrom_eq_ok {cs : List Char} {lexemes : List Lexeme} (h : Spells cs lexemes)
    (p : Position) :
    ∃ list, tokensFrom p cs = .ok list ∧ list.tokens.map Token.lexeme = lexemes ∧
      list.stop = p.advance cs := by
  induction h generalizing p with
  | nil =>
    refine ⟨⟨[], p⟩, ?_, rfl, rfl⟩
    rw [tokensFrom]
  | @gap c more used rest lexemes hscan _ ih =>
    obtain ⟨list, hlist, htokens, hstop⟩ := ih (p.advance used)
    refine ⟨list, ?_, htokens, ?_⟩
    · rw [tokensFrom_cons hscan, hlist]
    · rw [hstop, ← Position.advance_append, scan_append hscan]
  | @lexeme c more used rest lexeme lexemes hscan _ ih =>
    obtain ⟨list, hlist, htokens, hstop⟩ := ih (p.advance used)
    refine ⟨{ list with tokens := ⟨lexeme, p⟩ :: list.tokens }, ?_, ?_, ?_⟩
    · rw [tokensFrom_cons hscan, hlist]
    · rw [List.map_cons, htokens]
    · rw [hstop, ← Position.advance_append, scan_append hscan]

/-- The tokens of such a text. -/
theorem Spells.tokenize_eq_ok {text : String} {lexemes : List Lexeme}
    (h : Spells text.toList lexemes) :
    ∃ list, tokenize text = .ok list ∧ list.tokens.map Token.lexeme = lexemes ∧
      list.stop = Position.start.advance text.toList :=
  h.tokensFrom_eq_ok .start

/-! ## White space -/

/-- A run ends where the next character has another property. -/
theorem run_append_eq {p : Char → Bool} {cs rest : List Char} (hcs : ∀ c ∈ cs, p c = true)
    (hrest : ∀ c ∈ rest.head?, p c = false) : run p (cs ++ rest) = (cs, rest) := by
  have hstop : run p rest = ([], rest) := by
    cases rest with
    | nil => rfl
    | cons c rest =>
      have hc : p c = false := hrest c rfl
      simp [run, hc]
  obtain ⟨htake, hdrop⟩ := Prod.mk.inj hstop
  rw [run, List.takeWhile_append_of_pos hcs, List.dropWhile_append_of_pos hcs, htake, hdrop,
    List.append_nil]

/-- White space in front of a text is cut off with the white space that follows it. -/
theorem scan_of_isGap {c : Char} (hc : isGap c = true) (more : List Char) :
    scan c more = .ok (none, c :: more.takeWhile isGap, more.dropWhile isGap) := by
  unfold scan
  rw [if_pos hc]
  rfl

/-- White space in front of a text spells nothing. -/
theorem Spells.cons {c : Char} (hc : isGap c = true) {cs : List Char} {lexemes : List Lexeme}
    (h : Spells cs lexemes) : Spells (c :: cs) lexemes := by
  cases cs with
  | nil => exact .gap (scan_of_isGap hc []) h
  | cons d more =>
    have hscan := scan_of_isGap hc (d :: more)
    cases hd : isGap d with
    | false =>
      rw [List.dropWhile_cons_of_neg (by simp [hd])] at hscan
      exact .gap hscan h
    | true =>
      -- the white space that follows is cut off together with `c`
      rw [List.dropWhile_cons_of_pos hd] at hscan
      have hnext := scan_of_isGap hd more
      cases h with
      | gap hscan' hrest =>
        obtain ⟨-, hcut⟩ := Prod.mk.inj (Except.ok.inj (hnext.symm.trans hscan'))
        obtain ⟨-, rfl⟩ := Prod.mk.inj hcut
        exact .gap hscan hrest
      | lexeme hscan' _ =>
        obtain ⟨hnone, -⟩ := Prod.mk.inj (Except.ok.inj (hnext.symm.trans hscan'))
        cases hnone

/-! ## Comments -/

/-- What stands behind the mark that opens a block comment, up to and with the mark that closes it.
Inside, a further comment has both its marks; any other character stands where neither mark
starts. -/
inductive CommentBody : List Char → Prop
  | close : CommentBody ['*', '/']
  | nested {inner rest : List Char} :
      CommentBody inner → CommentBody rest → CommentBody ('/' :: '*' :: (inner ++ rest))
  | char {c : Char} {rest : List Char} : ¬ ['/', '*'] <+: c :: rest → ¬ ['*', '/'] <+: c :: rest →
      CommentBody rest → CommentBody (c :: rest)

/-- The rest of a block comment has its two last characters at least. -/
theorem CommentBody.exists_cons {body : List Char} (h : CommentBody body) :
    ∃ a b more, body = a :: b :: more := by
  cases h with
  | close => exact ⟨_, _, _, rfl⟩
  | nested => exact ⟨_, _, _, rfl⟩
  | char _ _ hrest =>
    cases hrest with
    | close => exact ⟨_, _, _, rfl⟩
    | nested => exact ⟨_, _, _, rfl⟩
    | char => exact ⟨_, _, _, rfl⟩

/-- Where no mark starts, one character is read. -/
theorem blockComment_char {c : Char} {cs : List Char} (hopen : ¬ ['/', '*'] <+: c :: cs)
    (hclose : ¬ ['*', '/'] <+: c :: cs) (outer : Nat) :
    blockComment outer (c :: cs) =
      (blockComment outer cs).map fun (body, rest) => (c :: body, rest) := by
  rw [blockComment.eq_def]
  split
  · next heq =>
    rw [heq] at hopen
    exact absurd ⟨_, rfl⟩ hopen
  · next heq =>
    rw [heq] at hclose
    exact absurd ⟨_, rfl⟩ hclose
  · next heq =>
    rw [heq] at hclose
    exact absurd ⟨_, rfl⟩ hclose
  · next heq =>
    obtain ⟨rfl, rfl⟩ := List.cons.inj heq
    rfl
  · next heq => cases heq

/-- A comment is read to the mark that closes it. Inside of others, the next mark belongs to the one
around it. -/
theorem CommentBody.blockComment_append {body : List Char} (h : CommentBody body)
    (more : List Char) :
    blockComment 0 (body ++ more) = some (body, more) ∧
      ∀ outer, blockComment (outer + 1) (body ++ more) =
        (blockComment outer more).map fun (inner, rest) => (body ++ inner, rest) := by
  induction h generalizing more with
  | close => exact ⟨rfl, fun outer => rfl⟩
  | @nested inner rest _ _ ihinner ihrest =>
    rw [List.cons_append, List.cons_append, List.append_assoc]
    refine ⟨?_, fun outer => ?_⟩
    · rw [blockComment, (ihinner _).2, (ihrest _).1]
      rfl
    · rw [blockComment, (ihinner _).2, (ihrest _).2]
      cases blockComment outer more with
      | none => rfl
      | some cut => simp
  | @char c rest hopen hclose hrest ih =>
    -- the two characters that decide belong to the comment
    obtain ⟨a, b, tail, rfl⟩ := hrest.exists_cons
    have hopen' : ¬ ['/', '*'] <+: c :: (a :: b :: tail ++ more) := by
      simpa using hopen
    have hclose' : ¬ ['*', '/'] <+: c :: (a :: b :: tail ++ more) := by
      simpa using hclose
    rw [List.cons_append]
    refine ⟨?_, fun outer => ?_⟩
    · rw [blockComment_char hopen' hclose', (ih more).1]
      rfl
    · rw [blockComment_char hopen' hclose', (ih more).2]
      cases blockComment outer more with
      | none => rfl
      | some cut => rfl

/-- Any sequence of white space, of comments that run to the end of their line, and of block
comments. A comment that starts with three slashes is a doc comment, unless it starts with four. -/
inductive Gap : List Char → Prop
  | nil : Gap []
  | space {c : Char} {rest : List Char} : isGap c = true → Gap rest → Gap (c :: rest)
  | line {text rest : List Char} : '\n' ∉ text → (['/'] <+: text → ['/', '/'] <+: text) →
      Gap rest → Gap ('/' :: '/' :: (text ++ '\n' :: rest))
  | block {body rest : List Char} : CommentBody body → Gap rest →
      Gap ('/' :: '*' :: (body ++ rest))

/-- A comment that runs to the end of its line is cut off before the line feed. -/
theorem scan_line {text more : List Char} (htext : '\n' ∉ text)
    (hplain : ['/'] <+: text → ['/', '/'] <+: text) :
    scan '/' ('/' :: (text ++ '\n' :: more)) =
      .ok (none, '/' :: '/' :: text, '\n' :: more) := by
  have hrun : restOfLine ('/' :: '/' :: text ++ '\n' :: more) =
      ('/' :: '/' :: text, '\n' :: more) := by
    refine run_append_eq (fun c hc => ?_) (fun c hc => ?_)
    · rw [bne_iff_ne]
      rintro rfl
      simp [htext] at hc
    · obtain rfl := Option.some.inj hc
      rfl
  have hcut : gap (restOfLine ('/' :: '/' :: text ++ '\n' :: more)) =
      (none, '/' :: '/' :: text, '\n' :: more) := by
    rw [hrun]
    rfl
  rw [← hcut]
  clear hcut hrun
  cases text with
  | nil => rfl
  | cons a text =>
    by_cases ha : a = '/'
    · subst ha
      obtain ⟨text, rfl⟩ : ∃ rest, text = '/' :: rest := by
        obtain ⟨rest, hrest⟩ := hplain ⟨text, rfl⟩
        exact ⟨rest, (List.cons.inj hrest).2.symm⟩
      rfl
    · unfold scan
      rw [if_neg (by decide)]
      split
      · next heq => exact absurd (List.cons.inj (List.cons.inj heq).2).1 ha
      · next heq => exact absurd (List.cons.inj (List.cons.inj heq).2).1 ha
      · rfl
      · next heq => cases heq
      · next hslash => cases hslash
      · next hslash => cases hslash
      · next _ _ hline _ _ _ => exact (hline _ rfl rfl).elim

/-- A gap in front of a text spells nothing. -/
theorem Gap.spells {gap cs : List Char} {lexemes : List Lexeme} (hgap : Gap gap)
    (h : Spells cs lexemes) : Spells (gap ++ cs) lexemes := by
  induction hgap with
  | nil => exact h
  | space hc _ ih => exact .cons hc ih
  | @line text rest htext hplain _ ih =>
    rw [List.cons_append, List.cons_append, List.append_assoc]
    exact .gap (scan_line htext hplain) (.cons rfl ih)
  | @block body rest hbody _ ih =>
    rw [List.cons_append, List.cons_append, List.append_assoc]
    have hscan : scan '/' ('*' :: (body ++ (rest ++ cs))) =
        .ok (none, '/' :: '*' :: body, rest ++ cs) := by
      unfold scan
      rw [if_neg (by decide)]
      simp only [(hbody.blockComment_append (rest ++ cs)).1]
      rfl
    exact .gap hscan ih

end Lexer

end MaskEnum
