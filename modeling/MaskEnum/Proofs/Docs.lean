import MaskEnum.Declaration.Parser
import MaskEnum.Docs
import MaskEnum.Proofs.Text.Escaped
import MaskEnum.Proofs.Text.Quoted
set_option autoImplicit false

/-!
# Doc comments as attributes

A doc comment becomes the attribute `doc = "..."` with its text quoted. The expression of that
attribute is a single string literal, so the documentation that it is read as is the text of the
comment again.

## Main results

* `MaskEnum.Docs.evaluate_quote` — a quoted text is an expression whose value is the text.
* `MaskEnum.Docs.docText_docAttribute` — the attribute of a doc comment says its text.
-/

namespace MaskEnum

namespace Text

/-- A text without carriage returns has its line breaks unified. -/
theorem unifyBreaks_eq_self {cs : List Char} (h : '\r' ∉ cs) : unifyBreaks cs = cs := by
  induction cs with
  | nil => rfl
  | cons c cs ih =>
    have hc : c ≠ '\r' := fun hc => h (hc ▸ List.mem_cons_self)
    rw [unifyBreaks_cons hc, ih fun hcs => h (List.mem_cons_of_mem c hcs)]

/-- A character is no surrogate. -/
theorem isScalar_toNat (c : Char) : isScalar c.toNat = true := by
  have hvalid : c.toNat < 0xD800 ∨ 0xDFFF < c.toNat ∧ c.toNat < 0x110000 := c.valid
  simp only [isScalar, Bool.or_eq_true, Bool.and_eq_true, decide_eq_true_eq]
  omega

/-- The text of the code points of a text. -/
theorem characters_map_toNat (cs : List Char) : characters (cs.map Char.toNat) = cs := by
  rw [characters, List.map_map]
  refine List.map_id'' (fun c => ?_) cs
  rw [Function.comp_apply, isScalar_toNat, if_pos rfl, Char.ofNat_toNat]

end Text

namespace Docs

/-! ## The expression reader -/

variable (cs : List Char) (inside : Bool) (fuel : Nat)

/-- A quoted text starts with a quote. -/
theorem exists_quote : ∃ more, Text.quote cs = '"' :: more ∨ Text.quote cs = '\'' :: more := by
  refine ⟨cs.flatMap (Text.escapeChar (Text.quoteMark cs)) ++ [Text.quoteMark cs], ?_⟩
  rcases Text.quoteMark_eq cs with h | h
  · exact .inl (congrArg (· :: _) h)
  · exact .inr (congrArg (· :: _) h)

/-- A quoted text is one string literal. -/
theorem readString_quote :
    readString (Text.quote cs) = some (.text (cs.map Char.toNat), []) := by
  have hmark := Text.quoteMark_eq cs
  have hletter : ¬ (Text.quoteMark cs).isAlpha = true := by
    rcases hmark with h | h <;> rw [h] <;> decide
  rw [readString, Text.quote, List.cons_append, List.takeWhile_cons_of_neg hletter,
    List.dropWhile_cons_of_neg hletter]
  simp only [List.map_nil, List.head?_cons, Option.bind_eq_bind, Option.bind_some, if_pos hmark,
    Text.openLiteral_flatMap hmark, Text.literalBody_flatMap hmark, Text.unescape_flatMap hmark,
    true_or, if_true]

/-- No other literal stands behind it. -/
theorem readStrings_quote :
    readStrings inside (fuel + 1) (Text.quote cs) = some (.text (cs.map Char.toNat), []) := by
  rw [readStrings, readString_quote]
  rfl

/-- It is a value without sign or sum. -/
theorem readAtom_quote :
    readAtom inside (fuel + 1) (Text.quote cs) = some (.text (cs.map Char.toNat), []) := by
  have hstring : atString (Text.quote cs) = true := by
    obtain ⟨more, h | h⟩ := exists_quote cs <;> rw [h] <;> rfl
  rw [readAtom.eq_def]
  dsimp only
  rw [if_pos hstring, readStrings_quote]

/-- It has no sign. -/
theorem readSigned_quote :
    readSigned inside (fuel + 2) (Text.quote cs) = some (.text (cs.map Char.toNat), []) := by
  rw [← readAtom_quote cs inside fuel]
  obtain ⟨more, h | h⟩ := exists_quote cs <;> rw [h] <;> rfl

/-- It is no sum. -/
theorem readValue_quote :
    readValue inside (fuel + 3) (Text.quote cs) = some (.text (cs.map Char.toNat), []) := by
  rw [readValue.eq_def]
  dsimp only
  rw [readSigned_quote]
  rfl

/-- It is the only entry of its text. -/
theorem readEntries_quote :
    readEntries inside (fuel + 4) (Text.quote cs) =
      some ([(.text (cs.map Char.toNat), none)], false, []) := by
  have hskip : skipBlanks inside false (Text.quote cs) = Text.quote cs := by
    obtain ⟨more, h | h⟩ := exists_quote cs <;> rw [h] <;> cases inside <;> rfl
  have hstop : atStop inside (Text.quote cs) = false := by
    obtain ⟨more, h | h⟩ := exists_quote cs <;> rw [h] <;> cases inside <;> rfl
  rw [readEntries.eq_def]
  dsimp only
  rw [hskip, hstop, if_neg Bool.false_ne_true, readValue_quote]
  rfl

/-- The whole of it is one value. -/
theorem readWhole_quote : readWhole (Text.quote cs) = some (.text (cs.map Char.toNat)) := by
  rw [readWhole, readEntries_quote]
  rfl

/-- **Expressions.** A quoted text is an expression, and its value is the text. -/
theorem evaluate_quote : evaluate (Text.quote cs) = .text (cs.map Char.toNat) := by
  have hprintable := Text.isPrintable_quote cs
  have hreturn : '\r' ∉ Text.quote cs := fun h => by
    have := hprintable _ h
    revert this
    decide
  have hnull : (Text.quote cs).contains '\x00' = false := by
    rw [← Bool.not_eq_true, List.contains_iff_mem]
    intro h
    have := hprintable _ h
    revert this
    decide
  rw [evaluate, Text.unifyBreaks_eq_self hreturn, hnull, if_neg Bool.false_ne_true,
    readWhole_quote]

/-! ## Doc comments -/

/-- The attribute of a doc comment has the form of documentation, and its expression is the text of
the comment between quotes. -/
theorem docExpression?_docAttribute (s : String) :
    docExpression? (Declaration.docAttribute s).toList = some (Text.quote s.toList) := by
  have hquoted : (Text.quoted s).toList = Text.quote s.toList := String.toList_ofList
  have htext : (Declaration.docAttribute s).toList =
      'd' :: 'o' :: 'c' :: ' ' :: '=' :: ' ' :: Text.quote s.toList := by
    rw [Declaration.docAttribute, String.toList_append, hquoted]
    rfl
  have hlast : (Declaration.docAttribute s).toList.getLast? = some (Text.quoteMark s.toList) := by
    simp [htext, Text.quote, List.getLast?_cons]
  have hstrip : Text.strip (Declaration.docAttribute s).toList =
      (Declaration.docAttribute s).toList := by
    refine Text.stripOf_eq_self (fun c hc => ?_) fun c hc => ?_
    · rw [htext] at hc
      obtain rfl := Option.some.inj hc
      decide
    · obtain rfl := Option.some.inj (hlast.symm.trans hc)
      rcases Text.quoteMark_eq s.toList with h | h <;> rw [h] <;> decide
  obtain ⟨more, h | h⟩ := exists_quote s.toList <;>
    rw [docExpression?, hstrip, htext, h] <;> rfl

/-- **Doc comments.** The attribute of a doc comment is documentation: its expression is the text
between quotes, the value of that expression is the text, so the documentation is the text as it
was, with nothing stripped. -/
theorem docText_docAttribute (s : String) :
    docExpression? (Declaration.docAttribute s).toList = some (Text.quote s.toList) ∧
      evaluate (Text.quote s.toList) = .text (s.toList.map Char.toNat) ∧
      docText evaluate (Declaration.docAttribute s) = .ok (some s) := by
  have hexpression := docExpression?_docAttribute s
  have hvalue := evaluate_quote s.toList
  refine ⟨hexpression, hvalue, ?_⟩
  have houtcome : outcome evaluate (Declaration.docAttribute s) =
      .text (s.toList.map Char.toNat) := by
    rw [outcome, hexpression]
    dsimp only
    rw [hvalue]
  rw [docText, houtcome]
  dsimp only
  rw [Text.characters_map_toNat, String.ofList_toList]

end Docs

end MaskEnum
