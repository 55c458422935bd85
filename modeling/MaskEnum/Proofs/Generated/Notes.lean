import MaskEnum.Generated.Program
import MaskEnum.Proofs.Result
import MaskEnum.Proofs.Text.Docstring
set_option autoImplicit false

/-!
# Metadata stays in its place

Documentation is written as one literal that ends with its own quotes, whatever its text, because
quotes and backslashes in it are escaped. Attributes and the documentation of constants are cut into
lines before they are written as comments, so no comment goes on behind its line.

## Main results

* `MaskEnum.Generated.isDocstring_eq` — documentation is one literal.
* `MaskEnum.Generated.notesStay_eq` — the metadata of a class stays in its comments and its
  docstring.
-/

namespace MaskEnum

/-- A text that is joined of texts has their characters. -/
theorem toList_intercalate_ofList (sep : String) (parts : List (List Char)) :
    (sep.intercalate (parts.map String.ofList)).toList = sep.toList.intercalate parts := by
  have hparts : (parts.map String.ofList).map String.toList = parts := by
    rw [List.map_map]
    exact (List.map_congr_left fun _ _ => String.toList_ofList).trans (List.map_id _)
  rw [String.toList_intercalate, hparts]

/-! ## Docstrings -/

namespace Docs

/-- The lines of a docstring are escaped text in three quotes, behind the indentation. -/
theorem exists_docstring (docs : List (List Char)) {indent : List Char}
    (hindent : ∀ c ∈ indent, c = ' ') :
    ∃ body, Text.Escaped body ∧
      ['\n'].intercalate (docstring docs indent) = indent ++ docQuotes ++ body ++ docQuotes := by
  obtain ⟨first, rest, hlines⟩ := List.exists_cons_of_ne_nil (Text.fields_ne_nil (docBody docs))
  exact ⟨_, escaped_flatMap (shown indent first rest), intercalate_docstring hindent hlines⟩

end Docs

namespace Generated

/-- An indentation is made of spaces. -/
theorem toList_pad (depth : Nat) : (pad depth).toList = List.replicate (4 * depth) ' ' :=
  String.toList_ofList

/-- **Docstrings.** Documentation is one literal that ends with its quotes. -/
theorem isDocstring_eq (depth : Nat) (docs : List String) : isDocstring depth docs = true := by
  have hindent : ∀ c ∈ (pad depth).toList, c = ' ' := by
    rw [toList_pad]
    exact fun c hc => List.eq_of_mem_replicate hc
  obtain ⟨body, hbody, htext⟩ := Docs.exists_docstring (docs.map String.toList) hindent
  have hdrop : ((pad depth).toList ++ Docs.docQuotes ++ body ++ Docs.docQuotes).drop (4 * depth) =
      Docs.docQuotes ++ body ++ Docs.docQuotes := by
    rw [List.append_assoc, List.append_assoc]
    refine (List.drop_left' ?_).trans (List.append_assoc _ _ _).symm
    rw [toList_pad, List.length_replicate]
  have hunified : Text.unifyBreaks (Docs.docQuotes ++ body ++ Docs.docQuotes) =
      Docs.docQuotes ++ Text.unifyBreaks body ++ Docs.docQuotes ++ [] := by
    show Text.unifyBreaks (Docs.docQuotes ++ body ++ '"' :: ['"', '"']) = _
    rw [Text.unifyBreaks_append (by decide), List.append_nil]
    rfl
  obtain ⟨points, hpoints⟩ := Text.readLiteral_escaped hbody.unifyBreaks []
  have hread : readDocstring depth docs = some (points, []) := by
    have hlines := toList_intercalate_ofList "\n"
      (Docs.docstring (docs.map String.toList) (pad depth).toList)
    rw [← hpoints, ← hunified, ← hdrop, ← htext]
    exact congrArg (fun text => Text.readLiteral '"' (Text.unifyBreaks (text.drop (4 * depth))))
      hlines
  rw [isDocstring, hread]

end Generated

/-! ## Attributes -/

variable {read : Docs.Reader}

/-- The metadata of attributes, one by one. -/
theorem Notes.ofAttributes_cons {attr : String} {attrs : List String} {notes : Notes}
    (h : ofAttributes read (attr :: attrs) = .ok notes) :
    ∃ rest, ofAttributes read attrs = .ok rest ∧
      ((∃ text, Docs.docText read attr = .ok (some text) ∧
          notes = ⟨text :: rest.docs, rest.comments⟩) ∨
        Docs.docText read attr = .ok none ∧
          notes = ⟨rest.docs, Docs.flatten attr :: rest.comments⟩) := by
  obtain ⟨text, htext, h⟩ := bind_eq_ok.mp h
  obtain ⟨rest, hrest, h⟩ := bind_eq_ok.mp h
  refine ⟨rest, hrest, ?_⟩
  cases text with
  | none => exact .inr ⟨htext, (Except.ok.inj h).symm⟩
  | some text => exact .inl ⟨text, htext, (Except.ok.inj h).symm⟩

/-- Comments are attributes on one line. -/
theorem Notes.exists_flatten {attrs : List String} {notes : Notes}
    (h : ofAttributes read attrs = .ok notes) :
    ∀ comment ∈ notes.comments, ∃ attr ∈ attrs, comment = Docs.flatten attr := by
  induction attrs generalizing notes with
  | nil =>
    obtain rfl := Except.ok.inj h
    exact List.forall_mem_nil _
  | cons attr attrs ih =>
    obtain ⟨rest, hrest, ⟨text, -, rfl⟩ | ⟨-, rfl⟩⟩ := ofAttributes_cons h
    · intro comment hcomment
      obtain ⟨other, hother, heq⟩ := ih hrest comment hcomment
      exact ⟨other, List.mem_cons_of_mem _ hother, heq⟩
    · refine List.forall_mem_cons.mpr ⟨⟨attr, List.mem_cons_self, rfl⟩, fun comment hcomment => ?_⟩
      obtain ⟨other, hother, heq⟩ := ih hrest comment hcomment
      exact ⟨other, List.mem_cons_of_mem _ hother, heq⟩

/-! ## Comments -/

namespace Generated

/-- A text is one line if none of its characters ends a line. -/
theorem isOneLine_of_forall {line : String} (h : ∀ c ∈ line.toList, c ≠ '\n' ∧ c ≠ '\r') :
    isOneLine line = true := by
  refine List.all_eq_true.mpr fun c hc => ?_
  obtain ⟨hfeed, hreturn⟩ := h c hc
  simp [hfeed, hreturn]

/-- One line after another text of one line. -/
theorem isOneLine_append {line more : String} (h : isOneLine line = true)
    (h' : isOneLine more = true) : isOneLine (line ++ more) = true := by
  rw [isOneLine, String.toList_append, List.all_append, Bool.and_eq_true]
  exact ⟨h, h'⟩

/-- An indentation is one line. -/
theorem isOneLine_pad (depth : Nat) : isOneLine (pad depth) = true := by
  refine isOneLine_of_forall fun c hc => ?_
  rw [toList_pad] at hc
  rw [List.eq_of_mem_replicate hc]
  decide

/-- An attribute between its words is one line. -/
theorem isOneLine_flatten (attr : String) : isOneLine (Docs.flatten attr) = true := by
  refine isOneLine_of_forall fun c hc => ?_
  rw [Docs.flatten, toList_intercalate_ofList] at hc
  rcases mem_of_mem_intercalate hc with hspace | ⟨word, hword, hc⟩
  · obtain rfl := List.mem_singleton.mp hspace
    decide
  · have hblank : c ∈ attr.toList.filter (! Text.isBlank ·) :=
      Text.flatten_words _ ▸ List.mem_flatten.mpr ⟨word, hword, hc⟩
    have hplain := (List.mem_filter.mp hblank).2
    constructor <;> rintro rfl <;> revert hplain <;> decide

variable {attrs : List String} {notes : Notes} (h : Notes.ofAttributes read attrs = .ok notes)
  (depth : Nat)

include h in
/-- **Comments.** Attributes are comments of one line each. -/
theorem isOneLine_commentLines : ∀ line ∈ commentLines depth notes, isOneLine line = true := by
  refine List.forall_mem_map.mpr fun comment hcomment => ?_
  obtain ⟨attr, -, rfl⟩ := Notes.exists_flatten h comment hcomment
  exact isOneLine_append
    (isOneLine_append (isOneLine_append (isOneLine_pad depth) rfl) (isOneLine_flatten attr)) rfl

/-- **Comments.** The documentation of a constant is comments of one line each. -/
theorem isOneLine_docLines (notes : Notes) :
    ∀ line ∈ docLines depth notes, isOneLine line = true := by
  intro line hline
  obtain ⟨doc, -, hline⟩ := List.mem_flatMap.mp hline
  obtain ⟨part, hpart, rfl⟩ := List.mem_map.mp hline
  refine isOneLine_append (isOneLine_append (isOneLine_pad depth) rfl)
    (isOneLine_of_forall fun c hc => ?_)
  rw [String.toList_ofList] at hc
  have hmem : c ∈ (Text.lines doc.toList).flatten := by
    revert hpart
    cases Text.lines doc.toList with
    | nil =>
      intro hpart
      obtain rfl := List.mem_singleton.mp hpart
      cases hc
    | cons first rest => exact fun hpart => List.mem_flatten.mpr ⟨part, hpart, hc⟩
  rw [Text.flatten_lines] at hmem
  have hplain := (List.mem_filter.mp hmem).2
  constructor <;> rintro rfl <;> revert hplain <;> decide

include h in
/-- **Metadata.** The metadata of a class stays in its comments and its docstring. -/
theorem notesStay_eq : notesStay depth notes = true := by
  rw [notesStay, Bool.and_eq_true, List.all_eq_true, isDocstring_eq, Bool.or_true]
  exact ⟨isOneLine_commentLines h depth, rfl⟩

end Generated

end MaskEnum
