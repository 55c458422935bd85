import MaskEnum.Proofs.Declaration.Identifiers
import MaskEnum.Proofs.Generated.Statements
set_option autoImplicit false

/-!
# The statements of classes and modules

Metadata leaves nothing of what it is written as, so the statements of a class and of an item can be
told without it. A reader who comes from code, or from the line of a class, is in code again behind
every item.

## Main definitions

* `MaskEnum.Generated.Class.statements`, `MaskEnum.Generated.Item.statements` — the statements of a
  class and of an item.
* `MaskEnum.Generated.Class.bare`, `MaskEnum.Generated.Item.bare` — those without metadata.

## Main results

* `MaskEnum.Generated.readLines_class`, `MaskEnum.Generated.readLines_items` — they are what is left
  of the lines.
-/

namespace MaskEnum

namespace Generated

/-! ## Lines that are code -/

/-- Whether a line does not open a class, so that a reader who stands in code stays there. -/
def staysInCode (line : String) : Bool := ! opensClass (line.toList.dropWhile (· == ' '))

/-- A reader who stands in code stays there. -/
theorem readLine_code {line : String} (h : staysInCode line = true) :
    (readLine .code line).1 = .code := by
  rw [readLine, if_neg Standing.code_ne]
  rw [staysInCode, Bool.not_eq_true'] at h
  split
  · rfl
  · rfl
  · rw [if_neg (by simp), h]
    rfl

/-- So does one who reads several lines. -/
theorem readLines_code {lines : List String} (h : ∀ line ∈ lines, staysInCode line = true) :
    readLines .code lines = (.code, statements lines) := by
  have hcode : (readLines .code lines).1 = .code := by
    induction lines with
    | nil => rfl
    | cons line lines ih =>
      obtain ⟨hline, hlines⟩ := List.forall_mem_cons.mp h
      rw [readLines, readLine_code hline]
      exact ih hlines
  exact Prod.ext hcode rfl

/-- A line that starts with neither a comment nor quotes is a statement. -/
theorem readLine_statement {standing : Standing} (hstanding : standing ≠ .inDocstring)
    {line : String} {c : Char} {cs : List Char} (hline : line.toList.dropWhile (· == ' ') = c :: cs)
    (hcomment : c ≠ '#') (hquote : c ≠ '"') :
    readLine standing line = (if opensClass (c :: cs) then .behindClass else .code, [line]) := by
  rw [readLine, if_neg hstanding, hline]
  split
  · next heq => cases heq
  · next heq => exact absurd (List.cons.inj heq).1 hcomment
  · have hquotes : Docs.docQuotes.isPrefixOf (c :: cs) = false := by
      simp [Docs.docQuotes, List.isPrefixOf, hquote.symm]
    rw [if_neg (by simp [hquotes])]

/-- A reader who comes from the line of a class is in code behind such a line. -/
theorem readLines_start {standing : Standing} (hstanding : standing ≠ .inDocstring)
    {line : String} {c : Char} {cs : List Char} (hline : line.toList.dropWhile (· == ' ') = c :: cs)
    (hcomment : c ≠ '#') (hquote : c ≠ '"') {lines : List String}
    (hcode : ∀ other ∈ line :: lines, staysInCode other = true) :
    readLines standing (line :: lines) = (.code, line :: statements lines) := by
  obtain ⟨hplain, hlines⟩ := List.forall_mem_cons.mp hcode
  rw [staysInCode, hline, Bool.not_eq_true'] at hplain
  rw [readLines, readLine_statement hstanding hline hcomment hquote, hplain]
  exact congrArg (fun found : Standing × List String => (found.1, line :: found.2))
    (readLines_code hlines)

/-- Whether a text starts with a character that opens no class, behind spaces. -/
def startsPlain (line : String) : Bool :=
  match line.toList.dropWhile (· == ' ') with
  | [] => false
  | c :: _ => c != 'c'

/-- A line that starts so stays in code. -/
theorem staysInCode_of_startsPlain {line : String} (h : startsPlain line = true) :
    staysInCode line = true := by
  unfold startsPlain at h
  split at h
  · cases h
  · next c cs hcs =>
    have hne : ('c' == c) = false := by
      rw [bne_iff_ne] at h
      exact beq_false_of_ne h.symm
    rw [staysInCode, hcs]
    simp [opensClass, List.isPrefixOf, hne]

/-- How a text starts is told by a first part of it. -/
theorem startsPlain_append {line : String} (h : startsPlain line = true) (more : String) :
    startsPlain (line ++ more) = true := by
  unfold startsPlain at h ⊢
  split at h
  · cases h
  · next c cs hcs =>
    have hdrop : (line ++ more).toList.dropWhile (· == ' ') = c :: (cs ++ more.toList) := by
      rw [String.toList_append, List.dropWhile_append, hcs]
      rfl
    rw [hdrop]
    exact h

/-- A line that starts so stays in code, whatever follows. -/
theorem staysInCode_append {line : String} (h : startsPlain line = true) (more : String) :
    staysInCode (line ++ more) = true :=
  staysInCode_of_startsPlain (startsPlain_append h more)

/-- The indentation does not decide whether a line opens a class. -/
theorem staysInCode_pad (depth : Nat) (line : String) :
    staysInCode (pad depth ++ line) = staysInCode line := by
  rw [staysInCode, String.toList_append, dropWhile_pad]
  rfl

/-- Nor does that of several lines. -/
theorem staysInCode_indented {depth : Nat} {lines : List String}
    (h : ∀ line ∈ lines, staysInCode line = true) :
    ∀ line ∈ indented depth lines, staysInCode line = true := by
  refine List.forall_mem_map.mpr fun line hline => ?_
  split_ifs
  · exact h line hline
  · rw [staysInCode_pad]
    exact h line hline

/-- A line that ends with a parenthesis opens no class. -/
theorem staysInCode_closed (line : String) : staysInCode (line ++ ")") = true := by
  have hdrop : (line ++ ")").toList.dropWhile (· == ' ') =
      line.toList.dropWhile (· == ' ') ++ [')'] := by
    rw [String.toList_append, List.dropWhile_append]
    split_ifs with hempty
    · rw [List.isEmpty_iff.mp hempty]
      rfl
    · rfl
  rw [staysInCode, hdrop]
  simp [opensClass]

/-! ## Classes -/

/-- The line that opens a class. -/
theorem readLine_class {standing : Standing} (hstanding : standing ≠ .inDocstring)
    {line name : String} (hdrop : line.toList.dropWhile (· == ' ') =
      "class ".toList ++ (name.toList ++ [':'])) :
    readLine standing line = (.behindClass, [line]) := by
  have hopens : opensClass ("class ".toList ++ (name.toList ++ [':'])) = true := by
    rw [opensClass, ← List.append_assoc, List.getLast?_concat, Bool.and_eq_true,
      List.isPrefixOf_iff_prefix, List.append_assoc]
    exact ⟨List.prefix_append _ _, rfl⟩
  rw [readLine_statement hstanding hdrop (by decide) (by decide)]
  exact congrArg (fun opens : Bool => (if opens then Standing.behindClass else .code, [_])) hopens

/-- The lines of a class behind its constants. -/
def memberLines (c : Class) : List String :=
  listLines c ++ checkLines c ++ accessLines c ++ (if c.isOpen then openLines c else [])
    ++ methods.flatMap (operatorLines c.field) ++ unaryLines c

/-- The members of a class open no class. -/
theorem staysInCode_memberLines (c : Class) : ∀ line ∈ memberLines c, staysInCode line = true := by
  simp only [memberLines, List.forall_mem_append, List.forall_mem_flatMap]
  refine ⟨⟨⟨⟨⟨?_, ?_⟩, ?_⟩, ?_⟩, fun m _ => ?_⟩, ?_⟩
  · simp +decide [listLines, String.append_assoc, staysInCode_append]
  · simp +decide [checkLines, String.append_assoc, staysInCode_append]
  · simp +decide [accessLines, String.append_assoc, staysInCode_append]
  · split_ifs
    · simp +decide [openLines, String.append_assoc, staysInCode_append]
    · exact List.forall_mem_nil _
  · simp +decide [operatorLines, String.append_assoc, staysInCode_append]
  · unfold unaryLines
    split_ifs <;> simp +decide [String.append_assoc, staysInCode_append]

/-- The field and the attributes of a class open no class. -/
theorem staysInCode_fieldLines (c : Class) : ∀ line ∈ fieldLines c, staysInCode line = true := by
  have hfield : startsPlain c.field = true := by
    unfold Class.field
    split_ifs <;> decide
  simp +decide [fieldLines, String.append_assoc, staysInCode_append, hfield]

/-- The line of a constant. -/
def Constant.line (depth : Nat) (k : Constant) : String :=
  pad depth ++ k.name ++ " = " ++ arithmeticName ++ ".VariantConstant(" ++ k.source.text ++ ")"

/-- The lines that open a class. -/
def Class.opening (depth : Nat) (c : Class) : List String :=
  [pad depth ++ "@_dc.dataclass(order=True, unsafe_hash=True, slots=True)",
    pad depth ++ "class " ++ c.name ++ ":"]

/-- The statements of a class. -/
def Class.statements (depth : Nat) (c : Class) : List String :=
  c.opening depth
    ++ Generated.statements (indented (depth + 1) (fieldLines c))
    ++ c.constants.flatMap (fun k => Generated.statements [k.line (depth + 1)])
    ++ Generated.statements (indented (depth + 1) (memberLines c))

/-- The lines that open a class. -/
theorem readLines_opening {standing : Standing} (hstanding : standing ≠ .inDocstring)
    (depth : Nat) (c : Class) :
    readLines standing (c.opening depth) = (.behindClass, c.opening depth) := by
  have hdrop :
      (pad depth ++ "@_dc.dataclass(order=True, unsafe_hash=True, slots=True)").toList.dropWhile
        (· == ' ') = '@' :: "_dc.dataclass(order=True, unsafe_hash=True, slots=True)".toList := by
    rw [String.toList_append, dropWhile_pad]
    rfl
  have hdecorator := readLine_statement hstanding hdrop (by decide) (by decide)
  rw [opensClass, show "class ".toList.isPrefixOf _ = false from rfl, Bool.false_and,
    if_neg Bool.false_ne_true] at hdecorator
  have hclass : readLine .code (pad depth ++ "class " ++ c.name ++ ":") =
      (.behindClass, [pad depth ++ "class " ++ c.name ++ ":"]) := by
    refine @readLine_class _ Standing.code_ne _ c.name ?_
    simp only [String.toList_append, List.append_assoc, dropWhile_pad]
    rfl
  rw [Class.opening, readLines, hdecorator, readLines, hclass]
  rfl

/-- A constant in code. -/
theorem readLines_constant (depth : Nat) (k : Constant) :
    readLines .code (k.lines depth) = (.code, statements [k.line depth]) := by
  have hnotes := readLines_concat (readLines_commentLines Standing.code_ne depth k.notes)
    (readLines_docLines Standing.code_ne depth k.notes)
  have hclosed : staysInCode (k.line depth) = true := by
    unfold Constant.line
    exact staysInCode_closed _
  have h := readLines_concat hnotes (readLines_code (List.forall_mem_singleton.mpr hclosed))
  rw [List.nil_append, List.nil_append] at h
  exact h

/-- The constants of a class. -/
theorem readLines_constants (depth : Nat) (ks : List Constant) :
    readLines .code (ks.flatMap (Constant.lines depth)) =
      (.code, ks.flatMap fun k => statements [k.line depth]) := by
  induction ks with
  | nil => rfl
  | cons k ks ih => exact readLines_concat (readLines_constant depth k) ih

/-- The field and the attributes of a class. -/
theorem readLines_fieldLines {standing : Standing} (hstanding : standing ≠ .inDocstring)
    (depth : Nat) (c : Class) : readLines standing (indented depth (fieldLines c)) =
      (.code, statements (indented depth (fieldLines c))) := by
  obtain ⟨d, ds, hfield, hcomment, hquote⟩ :
      ∃ d ds, (c.field ++ ": int").toList.dropWhile (· == ' ') = d :: ds ∧ d ≠ '#' ∧ d ≠ '"' := by
    unfold Class.field
    split_ifs <;> exact ⟨_, _, rfl, by decide, by decide⟩
  have hne : (c.field ++ ": int").isEmpty = false := by
    unfold Class.field
    split_ifs <;> rfl
  have hline : (pad depth ++ (c.field ++ ": int")).toList.dropWhile (· == ' ') = d :: ds := by
    rw [String.toList_append, dropWhile_pad, hfield]
  have hcode := @staysInCode_indented depth _ (staysInCode_fieldLines c)
  obtain ⟨rest, hrest⟩ : ∃ rest, indented depth (fieldLines c) =
      (pad depth ++ (c.field ++ ": int")) :: rest := by
    rw [fieldLines, indented, List.map_cons, hne]
    exact ⟨_, rfl⟩
  rw [hrest] at hcode ⊢
  have hstart := readLines_start Standing.code_ne hline hcomment hquote hcode
  rw [readLines_start hstanding hline hcomment hquote hcode]
  exact Prod.ext rfl (congrArg Prod.snd hstart).symm

/-- **Classes.** What is left of a class: its documentation leaves nothing. -/
theorem readLines_class {standing : Standing} (hstanding : standing ≠ .inDocstring) (depth : Nat)
    (c : Class) : readLines standing (c.lines depth) = (.code, c.statements depth) := by
  obtain ⟨next, hnext, hdocs⟩ : ∃ next, next ≠ .inDocstring ∧ readLines .behindClass
      (if c.notes.docs.isEmpty then [] else docstringLines (depth + 1) c.notes.docs ++ [""]) =
        (next, []) := by
    split_ifs
    · exact ⟨.behindClass, Standing.behindClass_ne, rfl⟩
    · exact ⟨.code, Standing.code_ne, readLines_concat (readLines_docstringLines _ _) rfl⟩
  have hmembers := readLines_code (@staysInCode_indented (depth + 1) _ (staysInCode_memberLines c))
  have h := readLines_concat (readLines_concat (readLines_concat (readLines_concat
    (readLines_concat (readLines_commentLines hstanding depth c.notes)
    (readLines_opening hstanding depth c)) hdocs)
    (readLines_fieldLines hnext (depth + 1) c)) (readLines_constants (depth + 1) c.constants))
    hmembers
  rw [List.nil_append, List.append_nil] at h
  exact h

/-! ## Items -/

/-- The line of a table of ordinals. -/
def OrdinalTable.line (t : OrdinalTable) : String :=
  pad 1 ++ t.name ++ " = _enum.IntEnum(" ++ Text.quoted t.name ++ ", [" ++ quotedList t.members
    ++ "], start=0)"

/-- The names that stand in the lines of an item by themselves are identifiers. -/
def Item.HasIdentifiers : Item → Prop
  | .single _ => True
  | .group name _ tables _ => isIdentifier name = true ∧ ∀ t ∈ tables, isIdentifier t.name = true

/-- The statements of an item. -/
def Item.statements : Item → List String
  | .single c => c.statements 0
  | .group name _ tables classes =>
    (companionLines name tables).drop 2 ++ ["class " ++ name ++ ":"]
      ++ classes.flatMap (Class.statements 1)

/-- Empty lines between items. -/
theorem readLines_gap {standing : Standing} (hstanding : standing ≠ .inDocstring) :
    readLines standing ["", ""] = (standing, []) :=
  readLines_of_forall (List.forall_mem_cons.mpr ⟨readLine_empty hstanding,
    List.forall_mem_singleton.mpr (readLine_empty hstanding)⟩)

/-- An identifier starts with a character that stands in names. -/
theorem exists_cons_of_isIdentifier {name : String} (h : isIdentifier name = true) :
    ∃ c cs, name.toList = c :: cs ∧
      ∀ other, (other.isAlphanum || other == '_') = false → c ≠ other := by
  cases hchars : name.toList with
  | nil =>
    rw [isIdentifier, hchars] at h
    cases h
  | cons c cs =>
    refine ⟨c, cs, rfl, fun other hother => ?_⟩
    rintro rfl
    exact not_mem_of_isIdentifier hother h (hchars ▸ List.mem_cons_self)

/-- The line of a table is a statement. -/
theorem readLine_table {standing : Standing} (hstanding : standing ≠ .inDocstring)
    {t : OrdinalTable} (hname : isIdentifier t.name = true) :
    readLine standing t.line = (.code, [t.line]) := by
  obtain ⟨c, cs, hchars, hne⟩ := exists_cons_of_isIdentifier hname
  have hpad : t.line = pad 1 ++ (t.name ++ (" = _enum.IntEnum(" ++ Text.quoted t.name ++ ", ["
      ++ quotedList t.members ++ "], start=0)")) := by
    simp only [OrdinalTable.line, String.append_assoc]
  have hdrop : t.line.toList.dropWhile (· == ' ') = c :: (cs ++ (" = _enum.IntEnum("
      ++ Text.quoted t.name ++ ", [" ++ quotedList t.members ++ "], start=0)").toList) := by
    rw [hpad, String.toList_append, dropWhile_pad, String.toList_append, hchars]
    exact List.dropWhile_cons_of_neg (by simpa using hne ' ' (by decide))
  have hclosed : staysInCode t.line = true := by
    have hend : t.line = pad 1 ++ t.name ++ " = _enum.IntEnum(" ++ Text.quoted t.name ++ ", ["
        ++ quotedList t.members ++ "], start=0" ++ ")" := by
      simp only [OrdinalTable.line, String.append_assoc]
      rfl
    rw [hend]
    exact staysInCode_closed _
  rw [staysInCode, hdrop, Bool.not_eq_true'] at hclosed
  rw [readLine_statement hstanding hdrop (hne '#' (by decide)) (hne '"' (by decide)), hclosed]
  rfl

/-- The tables of a companion. -/
theorem readLines_tables {standing : Standing} (hstanding : standing ≠ .inDocstring)
    {tables : List OrdinalTable} (hnames : ∀ t ∈ tables, isIdentifier t.name = true) :
    ∃ next, next ≠ .inDocstring ∧ readLines standing (tables.map OrdinalTable.line) =
      (next, tables.map OrdinalTable.line) := by
  induction tables generalizing standing with
  | nil => exact ⟨standing, hstanding, rfl⟩
  | cons t tables ih =>
    obtain ⟨hname, hrest⟩ := List.forall_mem_cons.mp hnames
    obtain ⟨next, hnext, hread⟩ := ih Standing.code_ne hrest
    refine ⟨next, hnext, ?_⟩
    rw [List.map_cons, readLines, readLine_table hstanding hname, hread]
    rfl

/-- The companion of a module. -/
theorem readLines_companion {standing : Standing} (hstanding : standing ≠ .inDocstring)
    (module : String) {tables : List OrdinalTable}
    (hnames : ∀ t ∈ tables, isIdentifier t.name = true) :
    ∃ next, next ≠ .inDocstring ∧ readLines standing (companionLines module tables) =
      (next, (companionLines module tables).drop 2) := by
  unfold companionLines
  split_ifs
  · exact ⟨standing, hstanding, rfl⟩
  · obtain ⟨next, hnext, htables⟩ := readLines_tables Standing.behindClass_ne hnames
    have hclass : readLine standing ("class " ++ companionName module ++ ":") =
        (.behindClass, ["class " ++ companionName module ++ ":"]) := by
      refine @readLine_class _ hstanding _ (companionName module) ?_
      simp only [String.toList_append, List.append_assoc]
      rfl
    have hopening : readLines standing ["", "", "class " ++ companionName module ++ ":"] =
        (.behindClass, ["class " ++ companionName module ++ ":"]) := by
      refine readLines_concat (readLines_gap hstanding)
        (?_ : readLines standing ["class " ++ companionName module ++ ":"] = _)
      rw [readLines, hclass]
      rfl
    exact ⟨next, hnext, readLines_concat hopening htables⟩

/-- The docstring of a module. -/
theorem readLines_moduleDocs {name : String} (hname : isIdentifier name = true) (notes : Notes) :
    readLines .behindClass
      (if notes.docs.isEmpty then [pad 1 ++ "\"\"\"Namespace of module " ++ name ++ ".\"\"\""]
        else docstringLines 1 notes.docs) = (.code, []) := by
  split_ifs
  · have hstart : ("Namespace of module ".toList.all fun c => decide (c ≠ '\\' ∧ c ≠ '"')) =
        true := by
      decide
    have hbody : Text.Escaped ("Namespace of module ".toList ++ name.toList ++ ['.']) := by
      refine .of_forall fun c hc => ?_
      rw [List.mem_append, List.mem_append] at hc
      rcases hc with (hc | hc) | hc
      · exact of_decide_eq_true (List.all_eq_true.mp hstart c hc)
      · constructor <;> rintro rfl <;> exact not_mem_of_isIdentifier (by decide) hname hc
      · rw [List.mem_singleton.mp hc]
        decide
    have hline := @readLine_opening (pad 1 ++ "\"\"\"Namespace of module " ++ name ++ ".\"\"\"") 1
      ("Namespace of module ".toList ++ name.toList ++ ['.'] ++ Docs.docQuotes) (by
        simp only [String.toList_append, List.append_assoc]
        rfl)
    rw [readLines, hline, readInside_closing hbody]
    rfl
  · exact readLines_docstringLines 1 notes.docs

/-- **Items.** What is left of an item. -/
theorem readLines_item {standing : Standing} (hstanding : standing ≠ .inDocstring) {item : Item}
    (hitem : item.HasIdentifiers) :
    readLines standing item.lines = (.code, item.statements) := by
  cases item with
  | single c =>
    have h := readLines_concat (readLines_gap hstanding) (readLines_class hstanding 0 c)
    rw [List.nil_append] at h
    exact h
  | group name notes tables classes =>
    obtain ⟨next, hnext, hcompanion⟩ := readLines_companion hstanding name hitem.2
    have hclass : readLines next ["class " ++ name ++ ":"] =
        (.behindClass, ["class " ++ name ++ ":"]) := by
      have hdrop : ("class " ++ name ++ ":").toList.dropWhile (· == ' ') =
          "class ".toList ++ (name.toList ++ [':']) := by
        simp only [String.toList_append, List.append_assoc]
        rfl
      rw [readLines, readLine_class hnext hdrop]
      rfl
    have hclasses : readLines .code (classes.flatMap fun c => "" :: c.lines 1) =
        (.code, classes.flatMap (Class.statements 1)) := by
      induction classes with
      | nil => rfl
      | cons c classes ih =>
        exact readLines_concat (readLines_class Standing.code_ne 1 c) (ih hitem)
    have h := readLines_concat (readLines_concat (readLines_concat (readLines_concat
      (readLines_concat hcompanion (readLines_gap hnext)) (readLines_commentLines hnext 0 notes))
      hclass) (readLines_moduleDocs hitem.1 notes)) hclasses
    simp only [List.append_nil] at h
    exact h

/-- **Items.** What is left of several items. -/
theorem readLines_items {items : List Item} (hitems : ∀ item ∈ items, item.HasIdentifiers)
    {standing : Standing} (hstanding : standing ≠ .inDocstring) :
    (readLines standing (items.flatMap Item.lines)).2 = items.flatMap Item.statements := by
  induction items generalizing standing with
  | nil => rfl
  | cons item items ih =>
    obtain ⟨hitem, hrest⟩ := List.forall_mem_cons.mp hitems
    have hmore := ih hrest Standing.code_ne
    rw [List.flatMap_cons, readLines_append, readLines_item hstanding hitem, hmore]
    rfl

end Generated

end MaskEnum
