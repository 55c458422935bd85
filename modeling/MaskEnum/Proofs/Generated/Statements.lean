import MaskEnum.Proofs.Generated.Notes
set_option autoImplicit false

/-!
# The statements of generated lines

What is left of the lines of a module when comment lines, blank lines and the docstrings of classes
are taken away. The lines are read one after the other, as they stand; nothing is known of where
they come from. A docstring starts with three quotes in the first line behind that of a class, and
ends with the next three that no backslash escapes. Text behind those is a statement again.

## Main definitions

* `MaskEnum.Generated.Standing` — where a reader of lines stands.
* `MaskEnum.Generated.readLine`, `MaskEnum.Generated.readLines` — reading a line and reading lines.
* `MaskEnum.Generated.statements` — what is left.

## Main results

* `MaskEnum.Generated.readLines_commentLines`, `MaskEnum.Generated.readLines_docLines` — comments
  leave nothing.
* `MaskEnum.Generated.readLines_docstringLines` — behind a class, a docstring leaves nothing.
-/

namespace MaskEnum

namespace Generated

/-- Where a reader of lines stands: in code, right behind the line of a class, or inside of a
class's docstring. -/
inductive Standing where
  | code | behindClass | inDocstring
  deriving DecidableEq, Repr

/-- Code is outside of every docstring. -/
theorem Standing.code_ne : Standing.code ≠ .inDocstring := nofun

/-- So is the line of a class. -/
theorem Standing.behindClass_ne : Standing.behindClass ≠ .inDocstring := nofun

/-- The text behind the next three quotes, if there are any. A backslash hides the character after
it. -/
def behindQuotes : List Char → Option (List Char)
  | [] => none
  | '\\' :: _ :: cs => behindQuotes cs
  | '"' :: '"' :: '"' :: cs => some cs
  | _ :: cs => behindQuotes cs

/-- Whether a text opens a class. -/
def opensClass (cs : List Char) : Bool :=
  "class ".toList.isPrefixOf cs && cs.getLast? == some ':'

/-- Reading the inside of a docstring: it goes on, or what stands behind it is a statement unless it
is blank. -/
def readInside (cs : List Char) : Standing × List String :=
  match behindQuotes cs with
  | none => (.inDocstring, [])
  | some more => (.code, if more.all (· == ' ') then [] else [String.ofList more])

/-- Reading a line: where the reader stands behind it, and the statements on it. -/
def readLine (standing : Standing) (line : String) : Standing × List String :=
  if standing = .inDocstring then readInside line.toList
  else
    match line.toList.dropWhile (· == ' ') with
    | [] => (standing, [])
    | '#' :: _ => (standing, [])
    | cs =>
      if standing = .behindClass ∧ Docs.docQuotes.isPrefixOf cs then readInside (cs.drop 3)
      else (if opensClass cs then .behindClass else .code, [line])

/-- Reading lines one after the other. -/
def readLines : Standing → List String → Standing × List String
  | standing, [] => (standing, [])
  | standing, line :: lines =>
    let found := readLine standing line
    let more := readLines found.1 lines
    (more.1, found.2 ++ more.2)

/-- The statements of lines that start in code. -/
def statements (lines : List String) : List String := (readLines .code lines).2

/-- Reading on. -/
theorem readLines_append (standing : Standing) (lines more : List String) :
    readLines standing (lines ++ more) =
      ((readLines (readLines standing lines).1 more).1,
        (readLines standing lines).2 ++ (readLines (readLines standing lines).1 more).2) := by
  induction lines generalizing standing with
  | nil => rfl
  | cons line lines ih =>
    rw [List.cons_append, readLines, readLines, ih]
    simp

/-- Reading on, step by step. -/
theorem readLines_concat {standing next last : Standing} {lines more found rest : List String}
    (h : readLines standing lines = (next, found)) (h' : readLines next more = (last, rest)) :
    readLines standing (lines ++ more) = (last, found ++ rest) := by
  rw [readLines_append, h, h']

/-! ## Lines that leave nothing -/

/-- Spaces in front of a text. -/
theorem dropWhile_pad (depth : Nat) (cs : List Char) :
    ((pad depth).toList ++ cs).dropWhile (· == ' ') = cs.dropWhile (· == ' ') := by
  rw [toList_pad]
  exact List.dropWhile_append_of_pos fun c hc => beq_iff_eq.mpr (List.eq_of_mem_replicate hc)

variable {standing : Standing} (hstanding : standing ≠ .inDocstring)

include hstanding

/-- An empty line leaves nothing. -/
theorem readLine_empty : readLine standing "" = (standing, []) := by
  rw [readLine, if_neg hstanding]
  rfl

/-- A comment leaves nothing. -/
theorem readLine_comment {line : String} {depth : Nat} {cs : List Char}
    (hline : line.toList = (pad depth).toList ++ '#' :: cs) :
    readLine standing line = (standing, []) := by
  rw [readLine, if_neg hstanding, hline, dropWhile_pad]
  rfl

omit hstanding in
/-- Lines that leave nothing each leave nothing together. -/
theorem readLines_of_forall {lines : List String}
    (h : ∀ line ∈ lines, readLine standing line = (standing, [])) :
    readLines standing lines = (standing, []) := by
  induction lines with
  | nil => rfl
  | cons line lines ih =>
    obtain ⟨hline, hlines⟩ := List.forall_mem_cons.mp h
    simp only [readLines, hline, ih hlines, List.append_nil]

/-- **Comments.** Attributes leave nothing. -/
theorem readLines_commentLines (depth : Nat) (notes : Notes) :
    readLines standing (commentLines depth notes) = (standing, []) := by
  refine readLines_of_forall (List.forall_mem_map.mpr fun comment _ => ?_)
  exact @readLine_comment _ hstanding _ depth (" #[".toList ++ comment.toList ++ [']']) (by simp)

/-- **Comments.** The documentation of a constant leaves nothing. -/
theorem readLines_docLines (depth : Nat) (notes : Notes) :
    readLines standing (docLines depth notes) = (standing, []) := by
  refine readLines_of_forall fun line hline => ?_
  obtain ⟨doc, -, hline⟩ := List.mem_flatMap.mp hline
  obtain ⟨part, -, rfl⟩ := List.mem_map.mp hline
  exact @readLine_comment _ hstanding _ depth (": ".toList ++ part) (by simp)

omit hstanding

/-! ## Docstrings -/

/-- A character that is neither a quote nor a backslash. -/
theorem behindQuotes_char {c : Char} (hback : c ≠ '\\') (hquote : c ≠ '"') (cs : List Char) :
    behindQuotes (c :: cs) = behindQuotes cs := by
  rw [behindQuotes.eq_def]
  split
  · next heq => cases heq
  · next heq => exact absurd (List.cons.inj heq).1 hback
  · next heq => exact absurd (List.cons.inj heq).1 hquote
  · next heq => rw [(List.cons.inj heq).2]

/-- No three quotes stand in an escaped text. -/
theorem behindQuotes_escaped {cs : List Char} (h : Text.Escaped cs) (rest : List Char) :
    behindQuotes (cs ++ rest) = behindQuotes rest := by
  induction h with
  | nil => rfl
  | @char c cs hback hquote _ ih => rw [List.cons_append, behindQuotes_char hback hquote, ih]
  | @pair c cs _ _ ih => exact ih

/-- An escaped text inside of a docstring. -/
theorem readInside_escaped {cs : List Char} (h : Text.Escaped cs) :
    readInside cs = (.inDocstring, []) := by
  have hopen : behindQuotes cs = none := by
    simpa [behindQuotes] using behindQuotes_escaped h []
  rw [readInside, hopen]

/-- An escaped text with the quotes that close a docstring. -/
theorem readInside_closing {cs : List Char} (h : Text.Escaped cs) :
    readInside (cs ++ Docs.docQuotes) = (.code, []) := by
  rw [readInside, behindQuotes_escaped h]
  rfl

/-- The line that opens a docstring behind that of a class. -/
theorem readLine_opening {line : String} {depth : Nat} {cs : List Char}
    (hline : line.toList = (pad depth).toList ++ Docs.docQuotes ++ cs) :
    readLine .behindClass line = readInside cs := by
  have hdrop : line.toList.dropWhile (· == ' ') = Docs.docQuotes ++ cs := by
    rw [hline, List.append_assoc, dropWhile_pad]
    rfl
  rw [readLine, if_neg Standing.behindClass_ne, hdrop]
  rfl

/-- A docstring on several lines leaves nothing. -/
theorem readLines_spread {opening closing : String} {inside : List String}
    (hopening : readLine .behindClass opening = (.inDocstring, []))
    (hinside : ∀ line ∈ inside, readLine .inDocstring line = (.inDocstring, []))
    (hclosing : readLine .inDocstring closing = (.code, [])) :
    readLines .behindClass (opening :: inside ++ [closing]) = (.code, []) := by
  rw [readLines_append]
  simp [readLines, hopening, readLines_of_forall hinside, hclosing]

/-- **Docstrings.** Behind a class, a docstring leaves nothing. -/
theorem readLines_docstringLines (depth : Nat) (docs : List String) :
    readLines .behindClass (docstringLines depth docs) = (.code, []) := by
  have hindent : Text.Escaped (pad depth).toList := by
    refine .of_forall fun c hc => ?_
    rw [toList_pad] at hc
    rw [List.eq_of_mem_replicate hc]
    decide
  have hline : ∀ line, Text.Escaped line →
      Text.Escaped (if line.isEmpty then [] else (pad depth).toList ++ line) := by
    intro line h
    split_ifs
    · exact .nil
    · exact hindent.append h
  have hfields := (Docs.escaped_flatMap (Docs.docBody (docs.map String.toList))).fields
  have hne := Text.fields_ne_nil ((Docs.docBody (docs.map String.toList)).flatMap Docs.escapeDoc)
  unfold docstringLines Docs.docstring
  generalize Text.fields ((Docs.docBody (docs.map String.toList)).flatMap Docs.escapeDoc) = fields
    at hfields hne
  rcases fields with - | ⟨first, - | ⟨next, rest⟩⟩
  · exact absurd rfl hne
  · have hopening := @readLine_opening (String.ofList
      ((pad depth).toList ++ Docs.docQuotes ++ first ++ Docs.docQuotes)) depth
      (first ++ Docs.docQuotes) (by simp)
    rw [readInside_closing (List.forall_mem_singleton.mp hfields)] at hopening
    simp only [List.map_cons, List.map_nil, readLines, hopening, List.append_nil]
  · obtain ⟨hfirst, hrest⟩ := List.forall_mem_cons.mp hfields
    have hopening : ∀ opened, Text.Escaped opened → readLine .behindClass
        (String.ofList ((pad depth).toList ++ Docs.docQuotes ++ opened)) = (.inDocstring, []) := by
      intro opened h
      rw [@readLine_opening _ depth opened (by simp), readInside_escaped h]
    have hinside : ∀ line, Text.Escaped line →
        readLine .inDocstring (String.ofList line) = (.inDocstring, []) := by
      intro line h
      rw [readLine, if_pos rfl, String.toList_ofList, readInside_escaped h]
    have hclosing : readLine .inDocstring (String.ofList ((pad depth).toList ++ Docs.docQuotes)) =
        (.code, []) := by
      rw [readLine, if_pos rfl, String.toList_ofList, readInside_closing hindent]
    rw [List.map_append, List.map_cons]
    refine readLines_spread (hopening _ (hline first hfirst).strip) ?_ hclosing
    refine List.forall_mem_map.mpr (List.forall_mem_map.mpr fun line h => ?_)
    exact hinside _ (hline line (hrest line h))

end Generated

end MaskEnum
