import MaskEnum.Proofs.Token.Tiling
set_option autoImplicit false

/-!
# Places in a text

A place points into a text if the text has its line and its column is one of that line, or the one
behind its last character. So does the place in front of every token. The place behind a token is
told from the length of what the token says. Its spelling is at least as long, so this place points
into the text too, as long as the spelling stays on one line; only an attribute may not.

## Main definitions

* `MaskEnum.Position.PointsInto` — a place is one of a text.
* `MaskEnum.Token.StandsIn` — a token stands where a text spells it.
* `MaskEnum.Token.SpansLines` — an attribute that a text spells over several lines.

## Main results

* `MaskEnum.Tiled.standsIn` — tokens that tile a text stand in it.
* `MaskEnum.Token.StandsIn.pointsInto_endOf` — the place behind a token.
-/

namespace MaskEnum

/-! ## Lines -/

/-- The text has the line of the place, and its column is at most one past the end of that line. -/
def Position.PointsInto (cs : List Char) (p : Position) : Prop :=
  ∃ n line, (cs.splitOn '\n')[n]? = some line ∧ p.line = n + 1 ∧
    1 ≤ p.column ∧ p.column ≤ line.length + 1

section Lines

variable {front used rest : List Char}

/-- A text has one line more than line feeds. -/
theorem length_splitOn (cs : List Char) : (cs.splitOn '\n').length = cs.count '\n' + 1 := by
  induction cs with
  | nil => rfl
  | cons c cs ih =>
    rw [List.splitOn_cons_eq_if_modifyHead, List.count_cons]
    split_ifs with hc
    · rw [List.length_cons, ih]
    · rw [List.length_modifyHead, ih, Nat.add_zero]

/-- What stands in front of the first line feed is the front of the first line. -/
theorem getElem?_splitOn_zero (hused : '\n' ∉ used) (rest : List Char) :
    ∃ more, ((used ++ rest).splitOn '\n')[0]? = some (used ++ more) := by
  by_cases hrest : '\n' ∈ rest
  · obtain ⟨more, after, rfl, hmore⟩ := List.eq_append_cons_of_mem hrest
    have hline : '\n' ∉ used ++ more := by simp [hused, hmore]
    rw [← List.append_assoc, List.splitOn_append_cons_self_of_not_mem hline]
    exact ⟨more, rfl⟩
  · have hline : '\n' ∉ used ++ rest := by simp [hused, hrest]
    rw [List.splitOn_eq_singleton hline]
    exact ⟨rest, rfl⟩

/-- The last line feed of a text, with the line behind it. -/
theorem exists_lastLine (h : '\n' ∈ front) :
    ∃ before line, front = before ++ '\n' :: line ∧ '\n' ∉ line := by
  obtain ⟨line, before, hreverse, hline⟩ :=
    List.eq_append_cons_of_mem (List.mem_reverse.mpr h)
  refine ⟨before.reverse, line.reverse, ?_, by simpa using hline⟩
  rw [← List.reverse_reverse front, hreverse]
  simp

/-- The place behind a text without a line feed. -/
theorem Position.behind_of_notMem (h : '\n' ∉ front) : behind front = ⟨1, front.length + 1⟩ := by
  have hall : ∀ c ∈ front.reverse, (c != '\n') = true := by
    intro c hc
    rw [bne_iff_ne]
    rintro rfl
    exact h (List.mem_reverse.mp hc)
  rw [behind, List.count_eq_zero.mpr h, List.takeWhile_eq_self_iff.mpr hall, List.length_reverse]

/-- The place behind a text does not depend on the columns of the lines before its last one. -/
theorem Position.behind_append_cons {before line : List Char} (h : '\n' ∉ line) :
    behind (before ++ '\n' :: line) = ⟨before.count '\n' + 2, line.length + 1⟩ := by
  have hall : ∀ c ∈ line.reverse, (c != '\n') = true := by
    intro c hc
    rw [bne_iff_ne]
    rintro rfl
    exact h (List.mem_reverse.mp hc)
  rw [behind, List.count_append, List.count_cons_self, List.count_eq_zero.mpr h,
    List.reverse_append, List.reverse_cons, List.append_assoc,
    List.takeWhile_append_of_pos hall]
  simp

/-- **Places.** The places behind the characters of a line point into the text. -/
theorem Position.pointsInto_behind (hused : '\n' ∉ used) {k : Nat} (hk : k ≤ used.length) :
    PointsInto (front ++ (used ++ rest)) ⟨(behind front).line, (behind front).column + k⟩ := by
  by_cases hfront : '\n' ∈ front
  · obtain ⟨before, line, rfl, hline⟩ := exists_lastLine hfront
    obtain ⟨more, hmore⟩ := getElem?_splitOn_zero (List.not_mem_append hline hused) rest
    have hlast : ((before ++ '\n' :: line ++ (used ++ rest)).splitOn '\n')[before.count '\n' + 1]? =
        some (line ++ used ++ more) := by
      rw [List.append_assoc, List.cons_append, List.splitOn_append_cons_self,
        List.getElem?_append_right (length_splitOn before).le, length_splitOn, Nat.sub_self,
        ← List.append_assoc, hmore]
    refine ⟨_, _, hlast, ?_⟩
    rw [behind_append_cons hline]
    refine ⟨rfl, ?_, ?_⟩
    all_goals simp only [List.length_append]; omega
  · obtain ⟨more, hmore⟩ := getElem?_splitOn_zero (List.not_mem_append hfront hused) rest
    rw [List.append_assoc] at hmore
    refine ⟨_, _, hmore, ?_⟩
    rw [behind_of_notMem hfront]
    refine ⟨rfl, ?_, ?_⟩
    all_goals simp only [List.length_append]; omega

/-- The place behind any part of a text in front points into it. -/
theorem Position.pointsInto_behind_append (front rest : List Char) :
    (behind front).PointsInto (front ++ rest) :=
  @pointsInto_behind front [] rest List.not_mem_nil 0 le_rfl

end Lines

/-! ## Tokens -/

open Lexer

/-- The text spells the token at its place. -/
def Token.StandsIn (cs : List Char) (t : Token) : Prop :=
  ∃ front spelling rest, cs = front ++ (spelling ++ rest) ∧ t.position = .behind front ∧
    t.lexeme.SpelledAs spelling

/-- The token is an attribute, and the text spells it over several lines. -/
def Token.SpansLines (cs : List Char) (t : Token) : Prop :=
  ∃ text front spelling rest, t.lexeme = .attr text ∧ cs = front ++ (spelling ++ rest) ∧
    t.position = .behind front ∧ t.lexeme.SpelledAs spelling ∧ '\n' ∈ spelling

/-- Tokens that tile a text stand in it. -/
theorem Tiled.standsIn {before cs : List Char} {tokens : List Token} {stop : Position}
    (h : Tiled before cs tokens stop) : ∀ t ∈ tokens, t.StandsIn (before ++ cs) := by
  induction h with
  | stop => exact fun t ht => absurd ht List.not_mem_nil
  | @token before gap spelling rest x tokens stop _ hx _ _ ih =>
    refine List.forall_mem_cons.mpr ⟨⟨before ++ gap, spelling, rest, by simp, rfl, hx⟩, ?_⟩
    simpa using ih

/-- The place of a token points into the text. -/
theorem Token.StandsIn.pointsInto {cs : List Char} {t : Token} (h : t.StandsIn cs) :
    t.position.PointsInto cs := by
  obtain ⟨front, spelling, rest, rfl, hposition, -⟩ := h
  rw [hposition]
  exact Position.pointsInto_behind_append front (spelling ++ rest)

/-- Blanks at the ends are taken away from a text. -/
theorem length_strip_le (cs : List Char) : (Text.strip cs).length ≤ cs.length := by
  have hdrop : ∀ ds : List Char, (ds.dropWhile Text.isBlank).length ≤ ds.length := fun ds =>
    (List.dropWhile_sublist _).length_le
  rw [Text.strip, Text.stripOf, Text.dropTail, List.length_reverse]
  exact (hdrop _).trans (by rw [List.length_reverse]; exact hdrop cs)

/-- A spelling is at least as long as what it says. -/
theorem Lexeme.SpelledAs.length_text_le {x : Lexeme} {spelling : List Char}
    (h : x.SpelledAs spelling) : x.text.length ≤ spelling.length := by
  cases h with
  | ident | int => exact (String.length_toList ..).ge
  | mark m => exact (String.length_ofList ..).le
  | @doc line =>
    have := length_strip_le line
    simp only [text, String.length_ofList, List.length_cons]
    omega
  | @attr opener body =>
    have := length_strip_le body
    simp only [text, String.length_ofList, List.length_append]
    omega

/-- An integer stays on its line. -/
theorem Lexer.IntegerText.notMem {cs : List Char} (h : IntegerText cs) : '\n' ∉ cs := by
  have hsuffix : ∀ suffix, IsTypeSuffix suffix → '\n' ∉ suffix := by
    rintro suffix (rfl | ⟨t, rfl⟩)
    · exact List.not_mem_nil
    · cases t <;> decide
  have hdigits : ∀ {isDigit : Char → Bool} {digits : List Char}, isDigit '\n' = false →
      (∀ d ∈ digits, (isDigit d || d == '_') = true) → '\n' ∉ digits := by
    intro isDigit digits hline hall hmem
    simpa [hline] using hall _ hmem
  cases h with
  | @radixed letter isDigit digits suffix hletter _ hall htype =>
    have hline : (isDigit '\n' || '\n' == '_') = false := isDigit_of_endsDigits hletter '\n' rfl
    have hne : '\n' ≠ letter := by
      rintro rfl
      cases hletter
    simp [hne, hdigits (Bool.or_eq_false_iff.mp hline).1 hall, hsuffix suffix htype]
  | @decimal first digits suffix hfirst hall htype =>
    have hne : '\n' ≠ first := by
      rintro rfl
      cases hfirst
    simp [hne, hdigits rfl hall, hsuffix suffix htype]

/-- Only an attribute can be spelled over several lines. -/
theorem Lexeme.SpelledAs.exists_attr {x : Lexeme} {spelling : List Char} (h : x.SpelledAs spelling)
    (hline : '\n' ∈ spelling) : ∃ text, x = .attr text := by
  cases h with
  | @ident name hname =>
    have hall : ∀ c ∈ name.toList, isNamePart c = true := by
      unfold Generated.isIdentifier at hname
      split at hname
      · cases hname
      · next c more hcons =>
        rw [Bool.and_eq_true, List.all_eq_true] at hname
        rw [hcons]
        exact List.forall_mem_cons.mpr ⟨isNamePart_of_isNameStart hname.1, hname.2⟩
    cases hall _ hline
  | int hdigits => exact absurd hline hdigits.notMem
  | mark m => cases m <;> simp [Mark.spelling] at hline
  | doc hdoc => simp [hdoc] at hline
  | attr => exact ⟨_, rfl⟩

/-- **The place behind a token.** It points into the text, unless the token is an attribute that is
spelled over several lines. -/
theorem Token.StandsIn.pointsInto_endOf {cs : List Char} {t : Token} (h : t.StandsIn cs) :
    (endOf t).PointsInto cs ∨ t.SpansLines cs := by
  obtain ⟨front, spelling, rest, rfl, hposition, hspelled⟩ := h
  by_cases hline : '\n' ∈ spelling
  · obtain ⟨text, htext⟩ := hspelled.exists_attr hline
    exact .inr ⟨text, front, spelling, rest, htext, rfl, hposition, hspelled, hline⟩
  · rw [endOf, hposition]
    exact .inl (Position.pointsInto_behind hline hspelled.length_text_le)

end MaskEnum
