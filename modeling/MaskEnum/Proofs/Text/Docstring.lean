import MaskEnum.Proofs.Text.Escaped
set_option autoImplicit false

/-!
# Docstrings read back

Escaping works character by character, and neither a line feed nor a blank is escaped or written by
an escape. So cutting a text at its line feeds, and stripping blanks off a line, can be done before
it is escaped as well as after. What stands between the quotes of a docstring is therefore one
escaped text, and it is read as the text that was laid out in lines.

## Main results

* `MaskEnum.Docs.fields_flatMap`, `MaskEnum.Docs.strip_flatMap` — lines and stripped lines of an
  escaped text.
* `MaskEnum.Docs.intercalate_docstring` — the lines of a docstring as one escaped text.
* `MaskEnum.Docs.readLiteral_docstring` — a docstring is read as its documentation, line by line.
-/

namespace MaskEnum

/-- A map of characters to texts goes through the joining of texts. -/
theorem flatMap_intercalate {α β : Type} (f : α → List β) (sep : List α) (parts : List (List α)) :
    (sep.intercalate parts).flatMap f =
      (sep.flatMap f).intercalate (parts.map (·.flatMap f)) := by
  induction parts with
  | nil => rfl
  | cons part parts ih =>
    cases parts with
    | nil => simp
    | cons next parts =>
      simp only [List.intercalate_cons_cons, List.flatMap_append, ih, List.map_cons]

namespace Text

/-! ## Lines -/

/-- The fields of a text are the lists that its line feeds split it into. -/
theorem fields_eq_splitOn (cs : List Char) : fields cs = cs.splitOn '\n' := by
  induction cs with
  | nil => rfl
  | cons c cs ih =>
    rw [fields] at ih ⊢
    rw [List.splitOn_eq_splitOnP, List.splitOnP_cons_eq_if_modifyHead,
      ← List.splitOn_eq_splitOnP, ← ih, pieces]
    simp only [beq_iff_eq]
    split_ifs
    · rfl
    · cases hcs : pieces '\n' cs with
      | nil => exact absurd hcs (fields_ne_nil cs)
      | cons first rest => rfl

/-- A text is made up of its fields with line feeds between them. -/
theorem intercalate_fields (cs : List Char) : ['\n'].intercalate (fields cs) = cs := by
  rw [fields_eq_splitOn, List.intercalate_splitOn]

/-- Texts without line feeds are the fields of the text joined of them. -/
theorem fields_intercalate {lines : List (List Char)} (hne : lines ≠ [])
    (h : ∀ line ∈ lines, '\n' ∉ line) : fields (['\n'].intercalate lines) = lines := by
  rw [fields_eq_splitOn, List.splitOn_intercalate '\n' h hne]

/-- No field holds a line feed. -/
theorem notMem_of_mem_fields {cs line : List Char} (h : line ∈ fields cs) : '\n' ∉ line := by
  intro hfeed
  have hmem : '\n' ∈ (fields cs).flatten := List.mem_flatten.mpr ⟨line, h, hfeed⟩
  rw [flatten_fields] at hmem
  simpa using List.of_mem_filter hmem

/-! ## Stripping -/

section Strip

variable {f : Char → List Char}

/-- Blanks in front may be dropped before each character is written, if a blank is written as itself
and any other character with another one in front. -/
theorem dropWhile_flatMap (hblank : ∀ c, isBlank c = true → f c = [c])
    (hother : ∀ c, isBlank c = false → ∃ d more, f c = d :: more ∧ isBlank d = false)
    (cs : List Char) : (cs.flatMap f).dropWhile isBlank = (cs.dropWhile isBlank).flatMap f := by
  induction cs with
  | nil => rfl
  | cons c cs ih =>
    cases hc : isBlank c with
    | true => rw [List.flatMap_cons, hblank c hc, List.singleton_append,
        List.dropWhile_cons_of_pos hc, List.dropWhile_cons_of_pos hc, ih]
    | false =>
      obtain ⟨d, more, hwritten, hd⟩ := hother c hc
      rw [List.dropWhile_cons_of_neg (by simp [hc]), List.flatMap_cons, hwritten, List.cons_append,
        List.dropWhile_cons_of_neg (by simp [hd])]

/-- Blanks at the ends may be stripped before each character is written, if a blank is written as
itself and any other character without a blank at its ends. -/
theorem strip_flatMap (hblank : ∀ c, isBlank c = true → f c = [c])
    (hfront : ∀ c, isBlank c = false → ∃ d more, f c = d :: more ∧ isBlank d = false)
    (hback : ∀ c, isBlank c = false → ∃ d more, f c = more ++ [d] ∧ isBlank d = false)
    (cs : List Char) : strip (cs.flatMap f) = (strip cs).flatMap f := by
  have hreverse : ∀ ds : List Char, (ds.reverse.flatMap (List.reverse ∘ f)).dropWhile isBlank =
      (ds.reverse.dropWhile isBlank).flatMap (List.reverse ∘ f) := by
    intro ds
    refine dropWhile_flatMap (fun c hc => ?_) (fun c hc => ?_) _
    · rw [Function.comp_apply, hblank c hc, List.reverse_singleton]
    · obtain ⟨d, more, hwritten, hd⟩ := hback c hc
      exact ⟨d, more.reverse, by simp [hwritten], hd⟩
  rw [strip, stripOf, dropTail, dropWhile_flatMap hblank hfront, List.reverse_flatMap, hreverse,
    strip, stripOf, dropTail]
  simp [List.reverse_flatMap, Function.comp_def]

end Strip

/-- Blanks in front do not matter to a stripped text. -/
theorem strip_append {indent : List Char} (h : ∀ c ∈ indent, isBlank c = true) (cs : List Char) :
    strip (indent ++ cs) = strip cs := by
  rw [strip, stripOf, List.dropWhile_append_of_pos h, strip, stripOf]

end Text

namespace Docs

open Text

/-! ## Escaped text -/

/-- A blank is written as itself. -/
theorem escapeDoc_of_isBlank {c : Char} (h : isBlank c = true) : escapeDoc c = [c] := by
  obtain ⟨hslash, hquote⟩ := Escaped.plain_of_isBlank h
  rw [escapeDoc, if_neg hslash, if_neg hquote]

/-- A character is written as itself, or with a backslash in front. -/
theorem escapeDoc_eq (c : Char) :
    escapeDoc c = [c] ∨ escapeDoc c = ['\\', c] := by
  unfold escapeDoc
  split_ifs with hslash hquote
  · exact .inr (by rw [hslash])
  · exact .inr (by rw [hquote])
  · exact .inl rfl

/-- The lines of an escaped text are the escaped lines. -/
theorem fields_flatMap (cs : List Char) :
    fields (cs.flatMap escapeDoc) = (fields cs).map (·.flatMap escapeDoc) := by
  have hjoined : cs.flatMap escapeDoc =
      ['\n'].intercalate ((fields cs).map (·.flatMap escapeDoc)) := by
    conv_lhs => rw [← intercalate_fields cs]
    exact flatMap_intercalate escapeDoc ['\n'] (fields cs)
  rw [hjoined]
  refine fields_intercalate (by simpa using fields_ne_nil cs) fun part hpart hfeed => ?_
  obtain ⟨line, hline, rfl⟩ := List.mem_map.mp hpart
  obtain ⟨c, hc, hfeed⟩ := List.mem_flatMap.mp hfeed
  obtain rfl : '\n' = c := by
    rcases escapeDoc_eq c with h | h <;> simpa [h] using hfeed
  exact notMem_of_mem_fields hline hc

/-- Stripping an escaped text strips the text. -/
theorem strip_flatMap (cs : List Char) :
    strip (cs.flatMap escapeDoc) = (strip cs).flatMap escapeDoc := by
  refine Text.strip_flatMap (fun c => escapeDoc_of_isBlank) (fun c hc => ?_) (fun c hc => ?_) cs
  · rcases escapeDoc_eq c with h | h
    · exact ⟨c, [], h, hc⟩
    · exact ⟨'\\', [c], h, by decide⟩
  · rcases escapeDoc_eq c with h | h
    · exact ⟨c, [], h, hc⟩
    · exact ⟨c, ['\\'], h, hc⟩

/-- The escapes of an escaped text are read as the characters that they are written for. -/
theorem unescape_flatMap (cs : List Char) :
    unescape (cs.flatMap escapeDoc) = some (cs.map Char.toNat) := by
  rw [unescape]
  induction cs with
  | nil => rfl
  | cons c cs ih =>
    rw [List.flatMap_cons, escapeDoc]
    split_ifs with hslash hquote
    · subst hslash
      simp [unescapeFrom, readEscape, ih]
    · subst hquote
      simp [unescapeFrom, readEscape, ih]
    · rw [List.singleton_append, unescapeFrom, ih]
      · rfl
      · exact fun _ _ h => absurd h hslash

/-- An escaped text in three quotes is one literal, which is read as the text. -/
theorem readLiteral_flatMap (cs : List Char) :
    readLiteral '"' (docQuotes ++ cs.flatMap escapeDoc ++ docQuotes) =
      some (cs.map Char.toNat, []) := by
  have hopen : openLiteral '"' (docQuotes ++ cs.flatMap escapeDoc ++ docQuotes) =
      some (true, cs.flatMap escapeDoc ++ docQuotes ++ []) := by
    simp [docQuotes, openLiteral]
  rw [readLiteral, hopen]
  show (literalBody '"' true (cs.flatMap escapeDoc ++ docQuotes ++ [])).bind _ = _
  rw [literalBody_escaped (escaped_flatMap cs)]
  show (unescape _).bind _ = _
  rw [unescape_flatMap]
  rfl

/-! ## Laid out in lines -/

/-- A line behind an indentation, unless it is empty. -/
def indentedLine (indent line : List Char) : List Char := if line = [] then [] else indent ++ line

/-- The text of a docstring: a text of one line as it is; of several lines the first without blanks
at its ends, the others behind the indentation unless they are empty, and the indentation on a line
of its own. -/
def shown (indent first : List Char) (rest : List (List Char)) : List Char :=
  if rest = [] then first
  else ['\n'].intercalate (strip first :: rest.map (indentedLine indent) ++ [indent])

section Layout

variable {indent : List Char} (hindent : ∀ c ∈ indent, c = ' ')

include hindent in
/-- An indentation is not escaped. -/
theorem flatMap_indent : indent.flatMap escapeDoc = indent := by
  induction indent with
  | nil => rfl
  | cons c indent ih =>
    obtain ⟨rfl, hrest⟩ := List.forall_mem_cons.mp hindent
    rw [List.flatMap_cons, ih hrest]
    rfl

include hindent in
/-- An escaped line behind an indentation is the line behind it, escaped. -/
theorem indentedLine_flatMap (line : List Char) :
    (if (line.flatMap escapeDoc).isEmpty then [] else indent ++ line.flatMap escapeDoc) =
      (indentedLine indent line).flatMap escapeDoc := by
  cases line with
  | nil => rfl
  | cons c cs =>
    have hne : ((c :: cs).flatMap escapeDoc).isEmpty = false := by
      rcases escapeDoc_eq c with h | h <;> simp [h]
    rw [hne, indentedLine, if_neg Bool.false_ne_true, if_neg (List.cons_ne_nil c cs),
      List.flatMap_append, flatMap_indent hindent]

include hindent in
/-- Stripped, a line is the same behind an indentation. -/
theorem strip_indentedLine (line : List Char) : strip (indentedLine indent line) = strip line := by
  rw [indentedLine]
  split_ifs with hempty
  · rw [hempty]
  · exact strip_append (fun c hc => by rw [hindent c hc]; decide) line

include hindent in
/-- The lines of a docstring with several lines. -/
theorem docstring_of_fields {docs : List (List Char)} {first next : List Char}
    {rest : List (List Char)} (h : fields (docBody docs) = first :: next :: rest) :
    docstring docs indent =
      (indent ++ docQuotes ++ (strip first).flatMap escapeDoc) ::
        ((next :: rest).map (indentedLine indent)).map (·.flatMap escapeDoc) ++
          [indent ++ docQuotes] := by
  have hmap : ∀ lines : List (List Char),
      (lines.map (·.flatMap escapeDoc)).map
          (fun line => if line.isEmpty then [] else indent ++ line) =
        (lines.map (indentedLine indent)).map (·.flatMap escapeDoc) := by
    intro lines
    rw [List.map_map, List.map_map]
    exact List.map_congr_left fun line _ => indentedLine_flatMap hindent line
  rw [docstring, fields_flatMap, h, ← hmap, ← strip_indentedLine hindent first, ← strip_flatMap,
    ← indentedLine_flatMap hindent]
  rfl

include hindent in
/-- **Layout.** The lines of a docstring are its text, escaped, between quotes. -/
theorem intercalate_docstring {docs : List (List Char)} {first : List Char}
    {rest : List (List Char)} (h : fields (docBody docs) = first :: rest) :
    ['\n'].intercalate (docstring docs indent) =
      indent ++ docQuotes ++ (shown indent first rest).flatMap escapeDoc ++ docQuotes := by
  cases rest with
  | nil =>
    rw [docstring, fields_flatMap, h]
    exact List.intercalate_singleton
  | cons next rest =>
    have hfeed : ['\n'].flatMap escapeDoc = ['\n'] := rfl
    rw [docstring_of_fields hindent h, intercalate_concat_append, List.cons_append,
      intercalate_append_cons, shown, if_neg (List.cons_ne_nil next rest), flatMap_intercalate,
      hfeed]
    simp only [List.cons_append, List.map_cons, List.map_append, List.map_nil,
      flatMap_indent hindent]

end Layout

/-- **Docstrings come back as written.** The lines of a docstring, joined by line feeds, are an
indentation and one literal that ends with the last of them. With the lines of the documentation
cut at their line feeds once each is stripped, the literal is read as the only one of them; or, if
there are several, as the first without blanks at its ends, the others behind the indentation unless
they are empty, and the indentation on a line of its own. -/
theorem readLiteral_docstring (docs : List (List Char)) (width : ℕ) :
    ∃ first rest literal,
      (∀ line ∈ first :: rest, '\n' ∉ line) ∧
      ['\n'].intercalate (docs.map strip) = ['\n'].intercalate (first :: rest) ∧
      ['\n'].intercalate (docstring docs (List.replicate width ' ')) =
        List.replicate width ' ' ++ literal ∧
      readLiteral '"' literal =
        some ((shown (List.replicate width ' ') first rest).map Char.toNat, []) := by
  obtain ⟨first, rest, hlines⟩ := List.exists_cons_of_ne_nil (fields_ne_nil (docBody docs))
  refine ⟨first, rest, docQuotes ++ (shown _ first rest).flatMap escapeDoc ++ docQuotes,
    fun line hline => notMem_of_mem_fields (hlines ▸ hline), ?_, ?_, readLiteral_flatMap _⟩
  · rw [← hlines, intercalate_fields]
    rfl
  · rw [intercalate_docstring (fun c => List.eq_of_mem_replicate) hlines]
    simp only [List.append_assoc]

end Docs

end MaskEnum
