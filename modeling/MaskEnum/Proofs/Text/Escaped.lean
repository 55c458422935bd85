import MaskEnum.Docs
import MaskEnum.Proofs.Text.Blank
set_option autoImplicit false

/-!
# Escaped text in three quotes

A text is escaped when its backslashes come in pairs with the backslash or the double quote behind
each. Between three double quotes, such a text is one literal to its end. Cutting it at line feeds,
stripping blanks and unifying line breaks leave it escaped, because none of these touches a pair.

## Main definitions

* `MaskEnum.Text.Escaped` — texts without a double quote or a backslash of their own.

## Main results

* `MaskEnum.Text.readLiteral_escaped` — an escaped text in three quotes is one literal.
* `MaskEnum.Docs.escaped_flatMap` — escaping a docstring gives such a text.
-/

namespace MaskEnum.Text

/-- Texts in which each double quote and each backslash stands in a pair that a backslash opens. -/
inductive Escaped : List Char → Prop
  | nil : Escaped []
  | char {c : Char} {cs : List Char} : c ≠ '\\' → c ≠ '"' → Escaped cs → Escaped (c :: cs)
  | pair {c : Char} {cs : List Char} : c = '\\' ∨ c = '"' → Escaped cs → Escaped ('\\' :: c :: cs)

namespace Escaped

variable {cs ds : List Char}

/-- Texts without backslashes and double quotes need no pairs. -/
theorem of_forall (h : ∀ c ∈ cs, c ≠ '\\' ∧ c ≠ '"') : Escaped cs := by
  induction cs with
  | nil => exact .nil
  | cons c cs ih =>
    obtain ⟨⟨hslash, hquote⟩, hrest⟩ := List.forall_mem_cons.mp h
    exact .char hslash hquote (ih hrest)

/-- One text after another. -/
theorem append (h : Escaped cs) (h' : Escaped ds) : Escaped (cs ++ ds) := by
  induction h with
  | nil => exact h'
  | char hslash hquote _ ih => exact .char hslash hquote ih
  | pair hc _ ih => exact .pair hc ih

/-! ## Cutting and stripping -/

/-- What stands before plain characters is escaped. -/
theorem of_append (h : Escaped (cs ++ ds)) (hds : ∀ c ∈ ds, c ≠ '\\' ∧ c ≠ '"') :
    Escaped cs := by
  generalize htext : cs ++ ds = text at h
  induction h generalizing cs with
  | nil =>
    obtain ⟨rfl, -⟩ := List.append_eq_nil_iff.mp htext
    exact .nil
  | char hslash hquote _ ih =>
    cases cs with
    | nil => exact .nil
    | cons c cs =>
      obtain ⟨rfl, hrest⟩ := List.cons.inj htext
      exact .char hslash hquote (ih hrest)
  | pair hc _ ih =>
    -- a pair cannot start in `ds`, and if it starts in `cs` it ends there
    cases cs with
    | nil => exact .nil
    | cons slash cs =>
      rw [List.cons_append, List.cons.injEq] at htext
      obtain ⟨rfl, hrest⟩ := htext
      cases cs with
      | nil =>
        obtain ⟨hslash, hquote⟩ := hds _ (hrest ▸ List.mem_cons_self)
        exact (hc.elim hslash hquote).elim
      | cons d cs =>
        obtain ⟨rfl, hmore⟩ := List.cons.inj hrest
        exact .pair hc (ih hmore)

/-- A blank is neither a backslash nor a double quote. -/
theorem plain_of_isBlank {c : Char} (h : isBlank c = true) : c ≠ '\\' ∧ c ≠ '"' := by
  constructor <;> rintro rfl <;> revert h <;> decide

/-- Dropping blanks in front. -/
theorem dropWhile_isBlank (h : Escaped cs) : Escaped (cs.dropWhile isBlank) := by
  induction h with
  | nil => exact .nil
  | @char c cs hslash hquote hcs ih =>
    by_cases hblank : isBlank c = true
    · rwa [List.dropWhile_cons_of_pos hblank]
    · rw [List.dropWhile_cons_of_neg hblank]
      exact .char hslash hquote hcs
  | pair hc hcs _ =>
    rw [List.dropWhile_cons_of_neg (by decide)]
    exact .pair hc hcs

/-- Stripping blanks. -/
theorem strip (h : Escaped cs) : Escaped (strip cs) := by
  obtain ⟨tail, heq, htail⟩ := exists_dropTail_append isBlank (cs.dropWhile isBlank)
  have hfront := h.dropWhile_isBlank
  rw [heq] at hfront
  exact hfront.of_append fun c hc => plain_of_isBlank (htail c hc)

end Escaped

/-! ## Fields and line breaks -/

/-- Every text has a first field. -/
theorem fields_ne_nil (cs : List Char) : fields cs ≠ [] := by
  cases cs with
  | nil => exact List.cons_ne_nil _ _
  | cons d ds =>
    rw [fields, pieces]
    split
    · exact List.cons_ne_nil _ _
    · split <;> exact List.cons_ne_nil _ _

/-- A character that is no line feed belongs to the first field. -/
theorem fields_cons {c : Char} (hc : c ≠ '\n') (cs : List Char) :
    ∃ first rest, fields cs = first :: rest ∧ fields (c :: cs) = (c :: first) :: rest := by
  obtain ⟨first, rest, hcs⟩ := List.exists_cons_of_ne_nil (fields_ne_nil cs)
  refine ⟨first, rest, hcs, ?_⟩
  rw [fields] at hcs ⊢
  rw [pieces, if_neg hc, hcs]

/-- The fields of an escaped text are escaped. -/
theorem Escaped.fields {cs : List Char} (h : Escaped cs) : ∀ part ∈ fields cs, Escaped part := by
  induction h with
  | nil => exact List.forall_mem_singleton.mpr .nil
  | @char c cs hslash hquote _ ih =>
    by_cases hc : c = '\n'
    · rw [Text.fields, pieces, if_pos hc]
      exact List.forall_mem_cons.mpr ⟨.nil, ih⟩
    · obtain ⟨first, rest, hcs, hcons⟩ := fields_cons hc cs
      rw [hcs] at ih
      rw [hcons]
      obtain ⟨hfirst, hrest⟩ := List.forall_mem_cons.mp ih
      exact List.forall_mem_cons.mpr ⟨.char hslash hquote hfirst, hrest⟩
  | @pair c cs hc _ ih =>
    have hfeed : c ≠ '\n' := by
      rcases hc with rfl | rfl <;> decide
    obtain ⟨first, rest, hcs, hcons⟩ := fields_cons hfeed cs
    obtain ⟨first', rest', hcs', hcons'⟩ := fields_cons (c := '\\') (by decide) (c :: cs)
    obtain ⟨rfl, rfl⟩ := List.cons.inj (hcons.symm.trans hcs')
    rw [hcs] at ih
    rw [hcons']
    obtain ⟨hfirst, hrest⟩ := List.forall_mem_cons.mp ih
    exact List.forall_mem_cons.mpr ⟨.pair hc hfirst, hrest⟩

/-- A carriage return gives a line feed, unless there is one behind it already. -/
theorem unifyBreaks_return (cs : List Char) :
    unifyBreaks ('\r' :: cs) = unifyBreaks cs ∨
      unifyBreaks ('\r' :: cs) = '\n' :: unifyBreaks cs := by
  cases cs with
  | nil => exact .inr rfl
  | cons c cs =>
    by_cases hc : c = '\n'
    · subst hc
      exact .inl rfl
    · refine .inr ?_
      rw [unifyBreaks]
      rintro cs' ⟨⟩
      exact hc rfl

/-- Any other character stays. -/
theorem unifyBreaks_cons {c : Char} (hc : c ≠ '\r') (cs : List Char) :
    unifyBreaks (c :: cs) = c :: unifyBreaks cs := by
  rw [unifyBreaks]
  · rintro cs' rfl
    exact absurd rfl hc
  · exact hc

/-- Line breaks before a character that is none are unified apart from what follows. -/
theorem unifyBreaks_append {c : Char} (hfeed : c ≠ '\n') (cs ds : List Char) :
    unifyBreaks (cs ++ c :: ds) = unifyBreaks cs ++ unifyBreaks (c :: ds) := by
  fun_induction unifyBreaks cs with
  | case1 => rfl
  | case2 cs ih => exact congrArg ('\n' :: ·) ih
  | case3 cs hnext ih =>
    rw [List.cons_append, unifyBreaks, ih]
    · rfl
    · intro more hmore
      cases cs with
      | nil => exact hfeed (List.cons.inj hmore).1
      | cons d cs => exact hnext cs (congrArg (· :: cs) (List.cons.inj hmore).1)
  | case4 d cs _ hreturn ih => rw [List.cons_append, unifyBreaks_cons hreturn, ih, List.cons_append]

/-- Unifying line breaks leaves a text escaped. -/
theorem Escaped.unifyBreaks {cs : List Char} (h : Escaped cs) : Escaped (unifyBreaks cs) := by
  induction h with
  | nil => exact .nil
  | @char c cs hslash hquote _ ih =>
    by_cases hc : c = '\r'
    · subst hc
      rcases unifyBreaks_return cs with heq | heq <;> rw [heq]
      · exact ih
      · exact .char (by decide) (by decide) ih
    · rw [unifyBreaks_cons hc]
      exact .char hslash hquote ih
  | @pair c cs hc _ ih =>
    have hreturn : c ≠ '\r' := by
      rcases hc with rfl | rfl <;> decide
    rw [unifyBreaks_cons (by decide), unifyBreaks_cons hreturn]
    exact .pair hc ih

/-! ## Literals -/

/-- An escaped text before three double quotes is the body of a literal that ends there. -/
theorem literalBody_escaped {cs : List Char} (h : Escaped cs) (rest : List Char) :
    literalBody '"' true (cs ++ Docs.docQuotes ++ rest) = some (cs, rest) := by
  induction h with
  | nil => rfl
  | @char c cs hslash hquote _ ih =>
    rw [List.cons_append, List.cons_append, literalBody, ih, if_neg fun h => hquote h.1,
      if_neg fun h => by cases h.2]
    · rfl
    · exact fun h => absurd h hslash
    · exact fun _ _ h => absurd h hslash
  | pair _ _ ih =>
    rw [List.cons_append, List.cons_append, List.cons_append, List.cons_append, literalBody, ih]
    rfl

/-- The escapes in an escaped text can be read. -/
theorem unescape_escaped {cs : List Char} (h : Escaped cs) :
    ∃ points, unescape cs = some points := by
  unfold unescape
  induction h with
  | nil => exact ⟨[], rfl⟩
  | @char c cs hslash hquote _ ih =>
    obtain ⟨points, hpoints⟩ := ih
    refine ⟨c.toNat :: points, ?_⟩
    rw [unescapeFrom, hpoints]
    · rfl
    · exact fun _ _ h => absurd h hslash
  | @pair c cs hc _ ih =>
    obtain ⟨points, hpoints⟩ := ih
    refine ⟨c.toNat :: points, ?_⟩
    rcases hc with rfl | rfl <;> rw [unescapeFrom] <;> simp [readEscape, hpoints]

/-- **Literals.** An escaped text in three double quotes is one literal. -/
theorem readLiteral_escaped {cs : List Char} (h : Escaped cs) (rest : List Char) :
    ∃ points, readLiteral '"' (Docs.docQuotes ++ cs ++ Docs.docQuotes ++ rest) =
      some (points, rest) := by
  obtain ⟨points, hpoints⟩ := unescape_escaped h
  refine ⟨points, ?_⟩
  have hopen : openLiteral '"' (Docs.docQuotes ++ cs ++ Docs.docQuotes ++ rest) =
      some (true, cs ++ Docs.docQuotes ++ rest) := by
    simp [Docs.docQuotes, openLiteral]
  rw [readLiteral, hopen]
  show (literalBody '"' true (cs ++ Docs.docQuotes ++ rest)).bind _ = _
  rw [literalBody_escaped h]
  show (unescape cs).bind _ = _
  rw [hpoints]
  rfl

end MaskEnum.Text

namespace MaskEnum.Docs

/-- Escaping a docstring gives an escaped text. -/
theorem escaped_flatMap (cs : List Char) : Text.Escaped (cs.flatMap escapeDoc) := by
  induction cs with
  | nil => exact .nil
  | cons c cs ih =>
    rw [List.flatMap_cons]
    refine Text.Escaped.append ?_ ih
    unfold escapeDoc
    split_ifs with hslash hquote
    · exact .pair (.inl rfl) .nil
    · exact .pair (.inr rfl) .nil
    · exact .char hslash hquote .nil

end MaskEnum.Docs
