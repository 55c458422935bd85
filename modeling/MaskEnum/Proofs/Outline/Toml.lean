import MaskEnum.Proofs.Lists
import MaskEnum.Proofs.Outline.Telling
set_option autoImplicit false

/-!
# TOML values are told

The text of an outline as the value of a key tells the outline, a missing value by an empty text. A
line of a document tells its key and value, so the lines of a section tell its plain fields. The
sections of a record are those of its fields, one field behind the other.

## Main results

* `MaskEnum.Outline.inline_tells` — values.
* `MaskEnum.Outline.plainLines_tells` — the lines of a section.
* `MaskEnum.Outline.fieldSections_append`, `MaskEnum.Outline.itemSections_eq` — sections.
-/

namespace MaskEnum.Outline

open Text

variable {depth : Nat}

/-! ## Values -/

/-- An item of a list, with its indentation and comma. -/
def inlineItem (depth : Nat) (o : Outline) : List Char :=
  tomlPad depth ++ (o.inline depth ++ ",\n".toList)

/-- The items of a list, one by one. -/
theorem inline_list {items : List Outline} (hitems : items ≠ []) :
    (list items).inline depth =
      '[' :: '\n' :: (items.flatMap (inlineItem (depth + 1)) ++ (tomlPad depth ++ [']'])) := by
  have hmap : ∀ os : List Outline,
      inlineItems (depth + 1) os = os.map fun o => tomlPad (depth + 1) ++ o.inline (depth + 1) := by
    intro os
    induction os with
    | nil => rfl
    | cons o os ih => rw [inlineItems, ih, List.map_cons]
  have hcommas : ∀ (parts : List (List Char)) {sep : List Char}, parts ≠ [] →
      sep.intercalate parts ++ sep = parts.flatMap (· ++ sep) := by
    intro parts sep hparts
    induction parts with
    | nil => exact absurd rfl hparts
    | cons part parts ih =>
      cases parts with
      | nil => simp
      | cons next parts =>
        rw [List.intercalate_cons_cons, List.append_assoc, ih (List.cons_ne_nil _ _)]
        simp
  obtain ⟨o, os, rfl⟩ := List.exists_cons_of_ne_nil hitems
  rw [inline, joined, hmap, List.append_assoc "[\n".toList, hcommas _ (by simp), List.flatMap_map]
  simp only [List.append_assoc]
  rfl

/-- A field of an inline table. -/
def inlineField (e : String × Outline) : List Char := tomlKey e.1 ++ (" = ".toList ++ e.2.inline 0)

/-- The fields of an inline table, one by one. -/
theorem inline_record {fields : List (String × Outline)} (hfields : fields ≠ []) :
    (record fields).inline depth =
      '\x7b' :: ' ' :: ((", ".toList).intercalate (fields.map inlineField) ++ [' ', '\x7d']) := by
  have hmap : ∀ es : List (String × Outline), inlineFields es = es.map inlineField := by
    intro es
    induction es with
    | nil => rfl
    | cons e es ih => rw [inlineFields, ih, List.map_cons, inlineField, List.append_assoc]
  obtain ⟨e, es, rfl⟩ := List.exists_cons_of_ne_nil hfields
  rw [inline, joined, hmap]
  simp only [List.append_assoc]
  rfl

/-- The text of an outline starts with a character of its kind. -/
theorem kindAt_inline (o : Outline) {r : List Char} (hr : Stops r) :
    kindAt (o.inline depth ++ r) = o.kind := by
  cases o with
  | null =>
    cases r with
    | nil => rfl
    | cons c r => rcases hr c rfl with rfl | rfl | rfl <;> rfl
  | flag value =>
    rw [inline]
    exact kindAt_flagChars value r
  | integer value =>
    rw [inline]
    exact kindAt_integerChars value r
  | text value =>
    rw [inline]
    rfl
  | list items =>
    by_cases hitems : items = []
    · subst hitems
      rw [inline]
      rfl
    · rw [inline_list hitems]
      rfl
  | record fields =>
    by_cases hfields : fields = []
    · subst hfields
      rw [inline]
      rfl
    · rw [inline_record hfields]
      rfl

/-- A field tells its key and value, if the value is told. -/
theorem inlineField_tells {e : String × Outline} (h : Tells Stops (inline 0) id e.2) :
    Tells Stops inlineField id e := by
  rintro ⟨name, o⟩ r r' hr hr' heq
  simp only [inlineField, List.append_assoc] at heq
  obtain ⟨hname, hvalue⟩ := tomlKey_tells e.1 name _ _ rfl rfl heq
  obtain ⟨ho, hrest⟩ := h o r r' hr hr' (List.append_cancel_left hvalue)
  exact ⟨Prod.ext hname ho, hrest⟩

/-- The items of a list are told, if their texts are. -/
theorem inline_list_tells {items items' : List Outline}
    (ih : ∀ o ∈ items, Tells Stops (inline (depth + 1)) id o) {r r' : List Char}
    (h : (list items).inline depth ++ r = (list items').inline depth ++ r') :
    items = items' ∧ r = r' := by
  refine @eq_of_nil_apart _ _ _ _ _ (fun os => (list os).inline depth) (fun os s s' hos heq => ?_)
    (fun hitems hitems' => ?_) h
  · rw [inline_list hos, inline] at heq
    cases (List.cons.inj (List.cons.inj heq).2).1
  · rw [inline_list hitems, inline_list hitems'] at h
    simp only [List.cons_append, List.cons.injEq, true_and, List.append_assoc] at h
    have hcomma : ∀ s, Stops (",\n".toList ++ s) := fun s c hc => .inl (Option.some.inj hc).symm
    have hitem : ∀ o ∈ items, Tells (fun _ => True) (inlineItem (depth + 1)) id o := fun o ho =>
      ((ih o ho).append_right hcomma).append_left (tomlPad (depth + 1))
    -- an item lies four spaces deeper than the bracket that closes the list
    have hend : ∀ o s s', tomlPad depth ++ (']' :: s) ≠ inlineItem (depth + 1) o ++ s' := by
      intro o s s' heq
      have hpad : tomlPad (depth + 1) = tomlPad depth ++ List.replicate 4 ' ' := by
        rw [tomlPad, tomlPad, List.replicate_append_replicate, Nat.mul_add]
      rw [inlineItem, hpad, List.append_assoc, List.append_assoc] at heq
      cases (List.cons.inj (List.append_cancel_left heq)).1
    obtain ⟨rfl, hrest⟩ := eq_of_flatMap hitem (fun _ _ => trivial) trivial trivial
      (fun o s => hend o r s) (fun o s => hend o r' s) h
    exact ⟨rfl, (List.cons.inj (List.append_cancel_left hrest)).2⟩

/-- The fields of an inline table are told, if their values are. -/
theorem inline_record_tells {fields fields' : List (String × Outline)}
    (ih : ∀ e ∈ fields, Tells Stops (inline 0) id e.2) {r r' : List Char}
    (h : (record fields).inline depth ++ r = (record fields').inline depth ++ r') :
    fields = fields' ∧ r = r' := by
  refine @eq_of_nil_apart _ _ _ _ _ (fun es => (record es).inline depth) (fun es s s' hes heq => ?_)
    (fun hfields hfields' => ?_) h
  · rw [inline_record hes, inline] at heq
    cases (List.cons.inj (List.cons.inj heq).2).1
  · rw [inline_record hfields, inline_record hfields'] at h
    simp only [List.cons_append, List.cons.injEq, true_and, List.append_assoc] at h
    have hsep : ∀ s, Stops (", ".toList ++ s) := fun s c hc => .inl (Option.some.inj hc).symm
    have hstop : ∀ s, Stops (' ' :: s) := fun s c hc => .inr (.inr (Option.some.inj hc).symm)
    have hend : ∀ s s', ' ' :: s ≠ ", ".toList ++ s' := by
      intro s s' heq
      cases (List.cons.inj heq).1
    obtain ⟨rfl, hrest⟩ := eq_of_intercalate hfields hfields'
      (fun e he => inlineField_tells (ih e he)) hsep (hstop _) (hstop _) (hend _) (hend _) h
    exact ⟨rfl, (List.cons.inj (List.cons.inj hrest).2).2⟩

/-- **TOML values.** The text of an outline as a value tells it. -/
theorem inline_tells (o : Outline) : ∀ depth, Tells Stops (inline depth) id o :=
  @tells_of_parts inline (fun _ o _ => kindAt_inline o) (fun _ => flagChars_tells)
    (fun _ => integerChars_tells) (fun _ => tomlString_tells)
    (fun depth _ ih => inline_list_tells fun o ho => ih o ho (depth + 1))
    (fun _ _ ih => inline_record_tells fun e he => ih e he 0) o

/-! ## Lines -/

/-- What may stand behind the lines of a section: nothing, or an empty line. -/
def EndsSection (r : List Char) : Prop := ∀ c ∈ r.head?, c = '\n'

/-- No key starts with a line feed. -/
theorem tomlKey_append_ne (name : String) (r s : List Char) : tomlKey name ++ r ≠ '\n' :: s := by
  intro h
  unfold tomlKey at h
  split_ifs at h with hplain
  · rw [Bool.and_eq_true, List.all_eq_true] at hplain
    cases hchars : name.toList with
    | nil => simp [String.toList_eq_nil_iff.mp hchars] at hplain
    | cons c cs =>
      rw [hchars] at hplain h
      obtain ⟨rfl, -⟩ := List.cons.inj h
      cases hplain.2 _ List.mem_cons_self
  · cases (List.cons.inj h).1

/-- **Lines.** The lines of a section tell its plain fields. -/
theorem plainLines_tells {fields fields' : List (String × Outline)} {r r' : List Char}
    (hr : EndsSection r) (hr' : EndsSection r')
    (h : plainLines fields ++ r = plainLines fields' ++ r') :
    fields.filter (·.2.isPlain) = fields'.filter (·.2.isPlain) ∧ r = r' := by
  have hlines : ∀ es : List (String × Outline), plainLines es =
      (es.filter (·.2.isPlain)).flatMap fun e => inlineField e ++ ['\n'] := by
    intro es
    refine List.flatMap_congr fun e _ => ?_
    obtain ⟨name, o⟩ := e
    simp only [inlineField, List.append_assoc]
  rw [hlines, hlines] at h
  have hbreak : ∀ s, Stops (['\n'] ++ s) := fun s c hc => .inr (.inl (Option.some.inj hc).symm)
  have hline : ∀ e ∈ fields.filter (·.2.isPlain),
      Tells (fun _ => True) (fun e => inlineField e ++ ['\n']) id e := fun e _ =>
    (inlineField_tells (inline_tells e.2 0)).append_right hbreak
  have hend : ∀ {s : List Char}, EndsSection s → ∀ (e : String × Outline) (t : List Char),
      s ≠ inlineField e ++ ['\n'] ++ t := by
    intro s hs e t heq
    cases s with
    | nil => simp at heq
    | cons c s =>
      obtain rfl := hs c rfl
      rw [inlineField, List.append_assoc, List.append_assoc] at heq
      exact tomlKey_append_ne _ _ _ heq.symm
  exact eq_of_flatMap hline (fun _ _ => trivial) trivial trivial (hend hr) (hend hr') h

/-! ## Missing values -/

/-- The items of a list without their missing values, one by one. -/
theorem itemsWithoutNulls_eq (items : List Outline) :
    itemsWithoutNulls items = items.map withoutNulls := by
  induction items with
  | nil => rfl
  | cons o items ih => rw [itemsWithoutNulls, ih, List.map_cons]

/-! ## Sections -/

/-- The sections of fields, field by field. -/
theorem fieldSections_append (outer : List Char) (fields fields' : List (String × Outline)) :
    fieldSections outer (fields ++ fields') =
      fieldSections outer fields ++ fieldSections outer fields' := by
  induction fields with
  | nil => rfl
  | cons e fields ih =>
    obtain ⟨name, o⟩ := e
    cases o <;> simp [fieldSections, ih]

/-- Plain fields have no sections. -/
theorem fieldSections_of_plain {outer : List Char} {fields : List (String × Outline)}
    (h : ∀ e ∈ fields, e.2.isPlain = true) : fieldSections outer fields = [] := by
  induction fields with
  | nil => rfl
  | cons e fields ih =>
    obtain ⟨name, o⟩ := e
    obtain ⟨hplain, hfields⟩ := List.forall_mem_cons.mp h
    cases o with
    | record inner => cases hplain
    | list items =>
      have hsections : needsSections items = false := by simpa [isPlain] using hplain
      rw [fieldSections, if_neg (by simp [hsections]), ih hfields]
      rfl
    | _ => exact ih hfields

/-- The sections of a list, item by item. -/
theorem itemSections_eq (name : List Char) (items : List Outline) :
    itemSections name items = items.flatMap (sections name true) := by
  induction items with
  | nil => rfl
  | cons o items ih => rw [itemSections, ih, List.flatMap_cons]

/-- A list of texts is written as a line. -/
theorem needsSections_text (texts : List String) : needsSections (texts.map .text) = false := by
  cases texts <;> rfl

/-- Records are written as sections if there are some, and none of them fits a line. -/
theorem needsSections_record {α : Type} {f : α → List (String × Outline)} {as : List α}
    (h : ∀ a ∈ as, fitsLine (record (f a)) = false) :
    needsSections (as.map fun a => record (f a)) = ! as.isEmpty := by
  cases as with
  | nil => rfl
  | cons a as =>
    have hfirst : fitsLine (record (f a)) = false := h a List.mem_cons_self
    simp [needsSections, isRecord, hfirst]

/-- A record with a list in it fits no line. -/
theorem fitsLine_of_list {fields : List (String × Outline)} {name : String} {items : List Outline}
    (hitems : items ≠ []) (h : (name, list items) ∈ fields) : fitsLine (record fields) = false := by
  have hbreak : '\n' ∈ inlineField (name, list items) := by
    rw [inlineField, inline_list hitems]
    simp
  have hline : '\n' ∈ (record fields).inline 0 := by
    rw [inline_record (List.ne_nil_of_mem h)]
    refine List.mem_cons_of_mem _ (List.mem_cons_of_mem _ (List.mem_append_left _ ?_))
    exact mem_intercalate_of_mem (List.mem_map_of_mem h) hbreak
  simp [fitsLine, hline]

end MaskEnum.Outline
