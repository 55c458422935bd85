import MaskEnum.Proofs.Generated.Notes
import MaskEnum.Proofs.Text.Quoted
import MaskEnum.Proofs.Token.Identifier
set_option autoImplicit false

/-!
# Null characters in generated modules

A program holds no null character. Names, numbers and quoted texts have none, so the text of a
module holds one only if its first line does or some metadata.

## Main definitions

* `MaskEnum.Generated.HasNull` — whether lines hold a null character.
* `MaskEnum.Notes.HasNull` — whether metadata does.

## Main results

* `MaskEnum.Generated.Module.null_mem_text` — where a null character in a module comes from.
-/

namespace MaskEnum

namespace Generated

/-- One of the lines holds a null character. -/
def HasNull (lines : List String) : Prop := ∃ line ∈ lines, '\x00' ∈ line.toList

end Generated

/-- Some documentation or a comment holds a null character. -/
def Notes.HasNull (notes : Notes) : Prop :=
  Generated.HasNull notes.docs ∨ Generated.HasNull notes.comments

/-! ## Numbers, quoted texts and docstrings -/

namespace Text

/-- A quoted text holds no null character. -/
theorem null_quoted (s : String) : '\x00' ∉ (quoted s).toList := by
  intro h
  have hprintable := isPrintable_quote s.toList _ (String.toList_ofList ▸ h)
  revert hprintable
  decide

end Text

/-- A number holds no null character. -/
theorem null_toString (n : Int) : '\x00' ∉ (toString n).toList := by
  have hdigits : ∀ m : Nat, '\x00' ∉ m.repr.toList := by
    intro m hmem
    rw [Nat.repr, String.toList_ofList] at hmem
    have hdigit := Nat.isDigit_of_mem_toDigits (by decide) (by decide) hmem
    revert hdigit
    decide
  cases n with
  | ofNat m => exact hdigits m
  | negSucc m =>
    show '\x00' ∉ ("-" ++ m.succ.repr).toList
    rw [String.toList_append, List.mem_append]
    exact not_or.mpr ⟨by decide, hdigits _⟩

/-- An identifier holds no null character. -/
theorem null_isIdentifier {name : String} (h : Generated.isIdentifier name = true) :
    '\x00' ∉ name.toList := Generated.not_mem_of_isIdentifier (by decide) h

/-- Parts hold a null character that their separator does not hold. -/
theorem null_intercalate {sep : String} (hsep : '\x00' ∉ sep.toList) {parts : List String} :
    '\x00' ∈ (sep.intercalate parts).toList ↔ ∃ part ∈ parts, '\x00' ∈ part.toList := by
  rw [String.toList_intercalate, mem_intercalate_iff hsep]
  simp only [List.mem_map, exists_exists_and_eq_and]

/-- A formula holds no null character. -/
theorem Formula.null_text {f : Formula} (h : ∀ name ∈ f.names, '\x00' ∉ name.toList) :
    '\x00' ∉ f.text.toList := by
  induction f with
  | int value => exact null_toString value
  | constant name => exact h name (List.mem_singleton_self name)
  | apply op left right type ihleft ihright =>
    have hleft := ihleft fun name hname => h name (List.mem_append_left _ hname)
    have hright := ihright fun name hname => h name (List.mem_append_right _ hname)
    simp [text, IntType.reference, arithmeticName, Text.null_quoted, hleft, hright]
  | cast inner source target ih =>
    simp [text, IntType.reference, arithmeticName, Text.null_quoted, ih h]

/-- A docstring holds a null character if its documentation does. -/
theorem Docs.null_docstring (docs : List (List Char)) {indent : List Char}
    (hindent : '\x00' ∉ indent) :
    (∃ line ∈ docstring docs indent, '\x00' ∈ line) ↔ ∃ doc ∈ docs, '\x00' ∈ doc := by
  have hquotes : '\x00' ∉ docQuotes := by decide
  have hescape : ∀ c, '\x00' ∈ escapeDoc c ↔ c = '\x00' := by
    intro c
    unfold escapeDoc
    split_ifs with hslash hquote
    · subst hslash
      decide
    · subst hquote
      decide
    · rw [List.mem_singleton, eq_comm]
  have hstrip : ∀ cs : List Char, '\x00' ∈ Text.strip cs ↔ '\x00' ∈ cs :=
    fun _ => Text.mem_strip (by decide)
  have hline : ∀ line : List Char,
      '\x00' ∈ (if line.isEmpty then [] else indent ++ line) ↔ '\x00' ∈ line := by
    intro line
    cases line with
    | nil => rfl
    | cons c cs => simp [hindent]
  have hfields : (∃ part ∈ Text.fields ((docBody docs).flatMap escapeDoc), '\x00' ∈ part) ↔
      ∃ doc ∈ docs, '\x00' ∈ doc := by
    rw [← List.mem_flatten, Text.flatten_fields, List.mem_filter, and_iff_left (by decide),
      docBody]
    simp [hescape, mem_intercalate_iff, hstrip]
  rw [← hfields]
  unfold docstring
  split
  · next hnil => exact absurd hnil (Text.fields_ne_nil _)
  · next line heq => simp [heq, hindent, hquotes]
  · next first rest _ heq =>
    rw [heq]
    simp only [List.mem_append, List.mem_cons, List.mem_map, List.not_mem_nil, or_false, or_assoc,
      or_and_right, exists_or, exists_exists_and_eq_and, exists_eq_left, hindent,
      hquotes, hstrip, hline, false_or]

namespace Generated

/-! ## Lines -/

section Lines

variable {α : Type} {lines more : List String}

@[simp]
theorem hasNull_nil : ¬ HasNull [] := fun ⟨_, h, _⟩ => by cases h

@[simp]
theorem hasNull_cons {line : String} :
    HasNull (line :: lines) ↔ '\x00' ∈ line.toList ∨ HasNull lines := by
  simp [HasNull]

@[simp]
theorem hasNull_append : HasNull (lines ++ more) ↔ HasNull lines ∨ HasNull more := by
  simp [HasNull, or_and_right, exists_or]

@[simp]
theorem hasNull_flatMap {f : α → List String} {as : List α} :
    HasNull (as.flatMap f) ↔ ∃ a ∈ as, HasNull (f a) := exists_mem_flatMap

@[simp]
theorem hasNull_map {f : α → String} {as : List α} :
    HasNull (as.map f) ↔ ∃ a ∈ as, '\x00' ∈ (f a).toList := by
  simp only [HasNull, List.mem_map, exists_exists_and_eq_and]

@[simp]
theorem null_pad (depth : Nat) : '\x00' ∉ (pad depth).toList := by
  rw [toList_pad]
  exact fun h => absurd (List.eq_of_mem_replicate h) (by decide)

/-- Indented lines hold what the lines do. -/
@[simp]
theorem hasNull_indented {depth : Nat} : HasNull (indented depth lines) ↔ HasNull lines := by
  rw [indented, hasNull_map]
  refine exists_congr fun line => and_congr_right fun _ => ?_
  split <;> simp

/-- A list of quoted names holds none. -/
@[simp]
theorem null_quotedList (names : List String) : '\x00' ∉ (quotedList names).toList := by
  rw [quotedList, null_intercalate (by decide)]
  simp [Text.null_quoted]

end Lines

/-! ## Metadata -/

variable (depth : Nat) (notes : Notes)

/-- Comments hold what the comments of metadata do. -/
@[simp]
theorem hasNull_commentLines : HasNull (commentLines depth notes) ↔ HasNull notes.comments := by
  simp [commentLines, HasNull]

/-- The documentation of a constant holds what its lines do. -/
@[simp]
theorem hasNull_docLines : HasNull (docLines depth notes) ↔ HasNull notes.docs := by
  rw [docLines, hasNull_flatMap]
  refine exists_congr fun doc => and_congr_right fun _ => ?_
  have hlines : '\x00' ∈ (Text.lines doc.toList).flatten ↔ '\x00' ∈ doc.toList := by
    rw [Text.flatten_lines, List.mem_filter, and_iff_left (by decide)]
  rw [← hlines]
  cases Text.lines doc.toList <;> simp

/-- A docstring holds what its documentation does. -/
@[simp]
theorem hasNull_docstringLines (docs : List String) :
    HasNull (docstringLines depth docs) ↔ HasNull docs := by
  rw [docstringLines, hasNull_map]
  simp only [String.toList_ofList]
  rw [Docs.null_docstring _ (null_pad depth)]
  simp only [HasNull, List.mem_map, exists_exists_and_eq_and]

/-! ## Classes -/

@[simp]
theorem null_field (c : Class) : '\x00' ∉ c.field.toList := by
  unfold Class.field
  split <;> decide

@[simp]
theorem null_typeName (t : IntType) : '\x00' ∉ t.name.toList := by
  cases t <;> decide

/-- The methods of a binary operator hold none. -/
theorem hasNull_operatorLines {field stem : String} (op : Operator)
    (hfield : '\x00' ∉ field.toList) (hstem : '\x00' ∉ stem.toList) :
    ¬ HasNull (operatorLines field (stem, op)) := by
  have hoperation : ∀ left right : String, '\x00' ∉ left.toList → '\x00' ∉ right.toList →
      '\x00' ∉ (operation op left right).toList := by
    intro left right hleft hright
    have hsymbol : '\x00' ∉ op.symbol.toList := by
      cases op <;> decide
    unfold operation
    split <;> simp [typeAttribute, arithmeticName, hleft, hright, hsymbol]
  have hraw : '\x00' ∉ (operation op ("self." ++ field) ("other." ++ field)).toList :=
    hoperation _ _ (by simp [hfield]) (by simp [hfield])
  simp [operatorLines, hfield, hstem, hraw]

/-- The methods of a class hold none. -/
theorem hasNull_methods (c : Class) :
    ¬ HasNull (checkLines c ++ accessLines c ++ (if c.isOpen then openLines c else [])
      ++ methods.flatMap (operatorLines c.field) ++ unaryLines c) := by
  have hopen : ¬ HasNull (if c.isOpen then openLines c else []) := by
    split
    · simp [openLines]
    · exact hasNull_nil
  have hunary : ¬ HasNull (unaryLines c) := by
    unfold unaryLines
    split <;> simp [typeAttribute, arithmeticName]
  have hmethods : ¬ HasNull (methods.flatMap (operatorLines c.field)) := by
    have hstems : ∀ method ∈ methods, '\x00' ∉ method.1.toList := by decide
    rw [hasNull_flatMap]
    rintro ⟨⟨stem, op⟩, hmethod, hnull⟩
    exact hasNull_operatorLines op (null_field c) (hstems _ hmethod) hnull
  simp [hopen, hunary, hmethods, checkLines, accessLines, typeAttribute, arithmeticName]

/-- The field and the attributes of a class hold none. -/
theorem hasNull_fieldLines (c : Class) : ¬ HasNull (fieldLines c) := by
  simp [fieldLines, typeAttribute, IntType.reference, arithmeticName, Text.null_quoted]

/-- A name that a program can use holds none. -/
theorem null_isUsable {name : String} (h : isUsable name = true) : '\x00' ∉ name.toList :=
  null_isIdentifier (Bool.and_eq_true_iff.mp h).1

/-- The value of a constant holds none, if its names are usable. -/
theorem Source.null_text {source : Source} (h : source.names.all isUsable = true) :
    '\x00' ∉ source.text.toList := by
  have hnames : ∀ name ∈ source.names, '\x00' ∉ name.toList :=
    fun name hname => null_isUsable (List.all_eq_true.mp h name hname)
  cases source with
  | formula f => exact Formula.null_text hnames
  | member companion table name =>
    simp only [names, List.forall_mem_cons] at hnames
    obtain ⟨hcompanion, htable, hname, -⟩ := hnames
    simp [text, hcompanion, htable, hname]

/-- A constant holds what its metadata does. -/
theorem Constant.hasNull_lines {k : Constant} (h : k.isProgram depth = true) :
    HasNull (k.lines depth) ↔ k.notes.HasNull := by
  simp only [isProgram, Bool.and_eq_true] at h
  obtain ⟨⟨⟨hname, hsource⟩, -⟩, -⟩ := h
  simp [lines, Notes.HasNull, null_isUsable hname, Source.null_text hsource, arithmeticName,
    or_comm]

/-- A class holds what its metadata and that of its constants does. -/
theorem Class.hasNull_lines {c : Class} (h : c.isProgram depth = true) :
    HasNull (c.lines depth) ↔ ∃ notes ∈ c.allNotes, notes.HasNull := by
  simp only [isProgram, Bool.and_eq_true, List.all_eq_true] at h
  obtain ⟨⟨hname, -⟩, hconstants⟩ := h
  have hlist : ¬ HasNull (listLines c) := by
    have hvalues : '\x00' ∉ (", ".intercalate (c.constants.map (·.name ++ ".raw"))).toList := by
      rw [null_intercalate (by decide)]
      rintro ⟨part, hpart, hnull⟩
      obtain ⟨k, hk, rfl⟩ := List.mem_map.mp hpart
      have hk := hconstants k hk
      simp only [Constant.isProgram, Bool.and_eq_true] at hk
      simp [null_isUsable hk.1.1.1] at hnull
    simp only [listLines, hasNull_cons, String.toList_append, List.mem_append, null_quotedList,
      hvalues]
    simp
  have hconstant : (∃ k ∈ c.constants, HasNull (k.lines (depth + 1))) ↔
      ∃ k ∈ c.constants, k.notes.HasNull :=
    exists_congr fun k => and_congr_right fun hk => Constant.hasNull_lines _ (hconstants k hk)
  have hdocs : HasNull (if c.notes.docs.isEmpty then []
      else docstringLines (depth + 1) c.notes.docs ++ [""]) ↔ HasNull c.notes.docs := by
    cases c.notes.docs with
    | nil => rfl
    | cons doc docs => simp
  have hmethods := hasNull_methods c
  have hfields := hasNull_fieldLines c
  simp only [hasNull_append, not_or] at hmethods
  simp only [lines, hasNull_append, hasNull_commentLines, hdocs, hasNull_indented, hasNull_flatMap,
    hconstant, hlist, hfields, hmethods, hasNull_cons, hasNull_nil, String.toList_append,
    List.mem_append, null_pad, null_isUsable hname]
  simp only [allNotes, Notes.HasNull, List.mem_cons, List.mem_map, exists_eq_or_imp,
    exists_exists_and_eq_and]
  simp [or_comm]

variable {depth notes}

/-- A module around classes, or a class, holds what its metadata does. -/
theorem Item.hasNull_lines {item : Item} (h : item.isProgram = true) :
    HasNull item.lines ↔ ∃ notes ∈ item.notes, notes.HasNull := by
  cases item with
  | single c => simp [lines, Item.notes, Class.hasNull_lines 0 h]
  | group name notes tables classes =>
    simp only [isProgram, Bool.and_eq_true, List.all_eq_true] at h
    obtain ⟨⟨⟨hname, -⟩, htables⟩, hclasses⟩ := h
    have hcompanion : ¬ HasNull (companionLines name tables) := by
      unfold companionLines
      split
      · exact hasNull_nil
      · have htable : ∀ t ∈ tables, '\x00' ∉ t.name.toList :=
          fun t ht => null_isUsable (htables t ht)
        simp +contextual [companionName, companionMark, null_isUsable hname, Text.null_quoted,
          htable]
    have hdocs : HasNull (if notes.docs.isEmpty then
          [pad 1 ++ "\"\"\"Namespace of module " ++ name ++ ".\"\"\""]
        else docstringLines 1 notes.docs) ↔ HasNull notes.docs := by
      cases notes.docs with
      | nil => simp [null_isUsable hname]
      | cons doc docs => simp
    have hclass : (∃ c ∈ classes, HasNull ("" :: c.lines 1)) ↔
        ∃ notes ∈ classes.flatMap Class.allNotes, notes.HasNull := by
      rw [exists_mem_flatMap]
      refine exists_congr fun c => and_congr_right fun hc => ?_
      rw [hasNull_cons, Class.hasNull_lines 1 (hclasses c hc)]
      exact or_iff_right (by decide)
    rw [Item.notes, List.exists_mem_cons_iff, ← hclass]
    simp only [lines, hasNull_append, hdocs]
    simp [Notes.HasNull, hcompanion, null_isUsable hname, or_assoc, or_left_comm]

/-- **Null characters.** The text of a module without preamble holds a null character if its first
line does or its metadata. -/
theorem Module.null_mem_text {m : Module} (hpreamble : m.preamble = [])
    (hitems : m.items.all Item.isProgram = true) :
    '\x00' ∈ m.text.toList ↔
      '\x00' ∈ (headline m.source).toList ∨ ∃ notes ∈ m.notes, notes.HasNull := by
  have htext : '\x00' ∈ m.text.toList ↔ HasNull m.lines := by
    rw [text, String.toList_append, List.mem_append, null_intercalate (by decide)]
    exact or_iff_left (by decide)
  have hitem : (∃ item ∈ m.items, HasNull item.lines) ↔ ∃ notes ∈ m.notes, notes.HasNull := by
    rw [Module.notes, exists_mem_flatMap]
    exact exists_congr fun item => and_congr_right fun hmem =>
      Item.hasNull_lines (List.all_eq_true.mp hitems item hmem)
  have hexports : '\x00' ∉ ("__all__ = [" ++ quotedList m.exports ++ "]").toList := by simp
  have himports : ¬ HasNull (if m.items.any Item.needsTables then ["import enum as _enum"] else [])
      := by
    split <;> simp
  rw [htext]
  simp only [lines, hpreamble, hasNull_append, hasNull_cons, hasNull_flatMap, hitem, hexports,
    himports, hasNull_nil, List.isEmpty_nil, if_true]
  simp [arithmeticName]

end Generated

end MaskEnum
