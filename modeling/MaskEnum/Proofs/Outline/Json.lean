import MaskEnum.Proofs.Outline.Telling
set_option autoImplicit false

/-!
# JSON texts are told

The JSON text of an outline tells the outline: its first character tells the kind, and the text
of each kind tells where its parts end, at the same depth and with the same indentation.

## Main results

* `MaskEnum.Outline.jsonChars_tells` — the text of an outline.
* `MaskEnum.Outline.json_injective` — different outlines have different JSON texts.
-/

namespace MaskEnum.Outline

open Text

variable {indent depth : Nat}

/-- The items of a list, one by one. -/
theorem jsonItems_eq (items : List Outline) :
    jsonItems indent depth items = items.map (jsonChars indent depth) := by
  induction items with
  | nil => rfl
  | cons o items ih => rw [jsonItems, ih, List.map_cons]

/-- A field of a record. -/
def jsonField (indent depth : Nat) (e : String × Outline) : List Char :=
  jsonString e.1 ++ (": ".toList ++ e.2.jsonChars indent depth)

/-- The fields of a record, one by one. -/
theorem jsonFields_eq (fields : List (String × Outline)) :
    jsonFields indent depth fields = fields.map (jsonField indent depth) := by
  induction fields with
  | nil => rfl
  | cons e fields ih => rw [jsonFields, ih, List.map_cons, jsonField, List.append_assoc]

/-- The text of an outline starts with a character of its kind. -/
theorem kindAt_jsonChars (o : Outline) (r : List Char) :
    kindAt (o.jsonChars indent depth ++ r) = o.kind := by
  have hblock : ∀ (opener closer : Char) (parts : List (List Char)),
      ∃ s, jsonBlock opener closer indent depth parts ++ r = opener :: s := by
    intro opener closer parts
    unfold jsonBlock
    split_ifs
    · exact ⟨_, rfl⟩
    · exact ⟨_, by rw [List.append_assoc]; rfl⟩
  cases o with
  | null => rfl
  | flag value =>
    rw [jsonChars]
    exact kindAt_flagChars value r
  | integer value =>
    rw [jsonChars]
    exact kindAt_integerChars value r
  | text value =>
    rw [jsonChars]
    rfl
  | list items =>
    obtain ⟨s, hs⟩ := hblock '[' ']' (jsonItems indent (depth + 1) items)
    rw [jsonChars, hs]
    rfl
  | record fields =>
    obtain ⟨s, hs⟩ := hblock '\x7b' '\x7d' (jsonFields indent (depth + 1) fields)
    rw [jsonChars, hs]
    rfl

/-- **Blocks.** A block tells its parts, if their texts do. -/
theorem jsonBlock_tells {α : Type} {f : α → List Char} {opener closer : Char}
    (hcloser : closer ≠ '\n') {as bs : List α} (hf : ∀ a ∈ as, Tells Stops f id a)
    {r r' : List Char}
    (h : jsonBlock opener closer indent depth (as.map f) ++ r =
      jsonBlock opener closer indent depth (bs.map f) ++ r') : as = bs ∧ r = r' := by
  refine @eq_of_nil_apart _ _ _ _ _ (fun cs => jsonBlock opener closer indent depth (cs.map f))
    (fun cs s s' hcs heq => ?_) (fun has hbs => ?_) h
  · -- a block without parts is closed where a line break starts those of another one
    obtain ⟨c, cs, rfl⟩ := List.exists_cons_of_ne_nil hcs
    simp only [jsonBlock, List.map_nil, List.isEmpty_nil, if_true, List.map_cons, List.isEmpty_cons,
      joined, intercalate_cons_eq, jsonBreak, List.cons_append, Bool.false_eq_true, if_false] at heq
    exact hcloser (List.cons.inj (List.cons.inj heq).2).1
  · have hblock : ∀ {cs : List α} {s : List Char}, cs ≠ [] →
        jsonBlock opener closer indent depth (cs.map f) ++ s =
          opener :: ((",".toList).intercalate
            (cs.map fun c => jsonBreak indent (depth + 1) ++ f c) ++
              (jsonBreak indent depth ++ ([closer] ++ s))) := by
      intro cs s hcs
      rw [jsonBlock, if_neg (by simpa using hcs), joined, List.map_map]
      simp only [List.append_assoc, List.cons_append]
      rfl
    rw [hblock has, hblock hbs] at h
    have hsep : ∀ s, Stops (",".toList ++ s) := fun s c hc => .inl (Option.some.inj hc).symm
    have hstop : ∀ s, Stops (jsonBreak indent depth ++ s) := fun s c hc =>
      .inr (.inl (Option.some.inj hc).symm)
    have hend : ∀ s s', jsonBreak indent depth ++ s ≠ ",".toList ++ s' := by
      intro s s' heq
      cases (List.cons.inj heq).1
    obtain ⟨rfl, hrest⟩ := eq_of_intercalate has hbs
      (fun a ha => (hf a ha).append_left (jsonBreak indent (depth + 1))) hsep (hstop _) (hstop _)
      (hend _) (hend _) (List.cons.inj h).2
    exact ⟨rfl, List.append_cancel_left (List.append_cancel_left hrest)⟩

/-- The items of a list are told, if their texts are. -/
theorem json_list_tells {items items' : List Outline}
    (ih : ∀ o ∈ items, Tells Stops (jsonChars indent (depth + 1)) id o) {r r' : List Char}
    (h : (list items).jsonChars indent depth ++ r = (list items').jsonChars indent depth ++ r') :
    items = items' ∧ r = r' := by
  rw [jsonChars, jsonChars, jsonItems_eq, jsonItems_eq] at h
  exact jsonBlock_tells (by decide) ih h

/-- The fields of a record are told, if their values are. -/
theorem json_record_tells {fields fields' : List (String × Outline)}
    (ih : ∀ e ∈ fields, Tells Stops (jsonChars indent (depth + 1)) id e.2) {r r' : List Char}
    (h : (record fields).jsonChars indent depth ++ r =
      (record fields').jsonChars indent depth ++ r') : fields = fields' ∧ r = r' := by
  rw [jsonChars, jsonChars, jsonFields_eq, jsonFields_eq] at h
  refine jsonBlock_tells (by decide) ?_ h
  rintro ⟨name, o⟩ he ⟨name', o'⟩ s s' hs hs' heq
  simp only [jsonField, List.append_assoc] at heq
  obtain ⟨rfl, hvalue⟩ := jsonString_tells name name' _ _ trivial trivial heq
  obtain ⟨rfl, hrest⟩ := ih _ he o' s s' hs hs' (List.append_cancel_left hvalue)
  exact ⟨rfl, hrest⟩

/-- **JSON texts.** The text of an outline tells it. -/
theorem jsonChars_tells (indent : Nat) (o : Outline) :
    ∀ depth, Tells Stops (jsonChars indent depth) id o :=
  @tells_of_parts (jsonChars indent) (fun _ o r _ => kindAt_jsonChars o r) (fun _ => flagChars_tells)
    (fun _ => integerChars_tells) (fun _ => jsonString_tells)
    (fun depth _ ih => json_list_tells fun o ho => ih o ho (depth + 1))
    (fun depth _ ih => json_record_tells fun e he => ih e he (depth + 1)) o

/-- Outlines are told apart by their JSON texts. -/
theorem json_injective (indent : Nat) {o o' : Outline} (h : o.json indent = o'.json indent) :
    o = o' := by
  have hchars : o.jsonChars indent 0 ++ [] = o'.jsonChars indent 0 ++ [] := by
    simpa [json] using congrArg String.toList h
  have hnil : Stops [] := fun c hc => by cases hc
  exact (jsonChars_tells indent o 0 o' [] [] hnil hnil hchars).1

end MaskEnum.Outline
