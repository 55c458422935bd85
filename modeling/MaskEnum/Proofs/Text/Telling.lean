import Mathlib.Data.List.TakeWhile
set_option autoImplicit false

/-!
# Texts that tell what they are written for

A writer is a function to texts. It tells what it wrote if its texts are recognized at the front of
longer ones: two texts that start with what was written for two things, and go on in an admitted
way, are equal only if the two things are and the texts go on alike. So runs of such texts, with or
without separators, tell the whole list that they were written for.

## Main definitions

* `MaskEnum.Text.Tells` — the text for a thing tells a key of it and where the text ends.

## Main results

* `MaskEnum.Text.map_eq_of_flatMap` — a run of texts tells the keys of its list.
* `MaskEnum.Text.eq_of_flatMap`, `MaskEnum.Text.eq_of_intercalate` — a run tells the list itself,
  also with separators.
-/

namespace MaskEnum.Text

variable {α β : Type} {Stop : List Char → Prop} {f : α → List Char} {key : α → β} {a : α}

/-- What is written for `a` tells the key of `a` and where it ends, as long as the texts behind it
are among `Stop`. -/
def Tells (Stop : List Char → Prop) (f : α → List Char) (key : α → β) (a : α) : Prop :=
  ∀ b r r', Stop r → Stop r' → f a ++ r = f b ++ r' → key a = key b ∧ r = r'

/-- A part that is the same for all may stand in front. -/
theorem Tells.append_left (h : Tells Stop f key a) (front : List Char) :
    Tells Stop (fun b => front ++ f b) key a := by
  intro b r r' hr hr' heq
  rw [List.append_assoc, List.append_assoc] at heq
  exact h b r r' hr hr' (List.append_cancel_left heq)

/-- A part that is the same for all may stand behind, if texts that start with it stop. -/
theorem Tells.append_right (h : Tells Stop f key a) {back : List Char}
    (hback : ∀ r, Stop (back ++ r)) : Tells (fun _ => True) (fun b => f b ++ back) key a := by
  intro b r r' _ _ heq
  rw [List.append_assoc, List.append_assoc] at heq
  obtain ⟨hkey, hrest⟩ := h b _ _ (hback r) (hback r') heq
  exact ⟨hkey, List.append_cancel_left hrest⟩

/-- Two texts of certain characters are told, if texts behind them do not start with one. -/
theorem eq_of_append_eq {p : Char → Bool} {cs cs' r r' : List Char} (hcs : ∀ c ∈ cs, p c = true)
    (hcs' : ∀ c ∈ cs', p c = true) (hr : ∀ c ∈ r.head?, p c = false)
    (hr' : ∀ c ∈ r'.head?, p c = false) (h : cs ++ r = cs' ++ r') : cs = cs' ∧ r = r' := by
  have hnone : ∀ {s : List Char}, (∀ c ∈ s.head?, p c = false) → s.takeWhile p = [] := by
    intro s hs
    cases s with
    | nil => rfl
    | cons c s => rw [List.takeWhile_cons_of_neg (by simp [hs c rfl])]
  have htake := congrArg (List.takeWhile p) h
  rw [List.takeWhile_append_of_pos hcs, List.takeWhile_append_of_pos hcs', hnone hr, hnone hr',
    List.append_nil, List.append_nil] at htake
  subst htake
  exact ⟨rfl, List.append_cancel_left h⟩

section Runs

variable {as bs : List α} {r r' : List Char}

/-- **Runs.** A run of texts tells the keys of its list, if no further one stands behind it. -/
theorem map_eq_of_flatMap (hf : ∀ a ∈ as, Tells Stop f key a) (hstop : ∀ b s, Stop (f b ++ s))
    (hr : Stop r) (hr' : Stop r') (hend : ∀ b s, r ≠ f b ++ s) (hend' : ∀ b s, r' ≠ f b ++ s)
    (h : as.flatMap f ++ r = bs.flatMap f ++ r') : as.map key = bs.map key ∧ r = r' := by
  have hrun : ∀ (ds : List α) {s : List Char}, Stop s → Stop (ds.flatMap f ++ s) := by
    intro ds s hs
    cases ds with
    | nil => exact hs
    | cons d ds =>
      rw [List.flatMap_cons, List.append_assoc]
      exact hstop d _
  induction as generalizing bs with
  | nil =>
    cases bs with
    | nil => exact ⟨rfl, h⟩
    | cons b bs =>
      rw [List.flatMap_nil, List.nil_append, List.flatMap_cons, List.append_assoc] at h
      exact absurd h (hend b _)
  | cons a as ih =>
    cases bs with
    | nil =>
      rw [List.flatMap_nil, List.nil_append, List.flatMap_cons, List.append_assoc] at h
      exact absurd h.symm (hend' a _)
    | cons b bs =>
      rw [List.flatMap_cons, List.flatMap_cons, List.append_assoc, List.append_assoc] at h
      obtain ⟨hkey, hrest⟩ := hf a List.mem_cons_self b _ _ (hrun as hr) (hrun bs hr') h
      obtain ⟨hkeys, heq⟩ := ih (fun d hd => hf d (List.mem_cons_of_mem a hd)) hrest
      rw [List.map_cons, List.map_cons, hkey, hkeys]
      exact ⟨rfl, heq⟩

/-- A run of texts that tell what they are written for tells its list. -/
theorem eq_of_flatMap (hf : ∀ a ∈ as, Tells Stop f id a) (hstop : ∀ b s, Stop (f b ++ s))
    (hr : Stop r) (hr' : Stop r') (hend : ∀ b s, r ≠ f b ++ s) (hend' : ∀ b s, r' ≠ f b ++ s)
    (h : as.flatMap f ++ r = bs.flatMap f ++ r') : as = bs ∧ r = r' := by
  obtain ⟨hmap, hrest⟩ := map_eq_of_flatMap hf hstop hr hr' hend hend' h
  rw [List.map_id, List.map_id] at hmap
  exact ⟨hmap, hrest⟩

/-- Parts with separators, as the first part with a run of all others behind it. -/
theorem intercalate_cons_eq (sep part : List Char) (parts : List (List Char)) :
    sep.intercalate (part :: parts) = part ++ parts.flatMap (sep ++ ·) := by
  induction parts generalizing part with
  | nil => rw [List.intercalate_singleton, List.flatMap_nil, List.append_nil]
  | cons next parts ih =>
    rw [List.intercalate_cons_cons, ih, List.flatMap_cons, List.append_assoc, List.append_assoc]

/-- **Separators.** A run of texts with separators between them tells its list, if it is not empty
and no separator stands behind it. -/
theorem eq_of_intercalate {sep : List Char} (has : as ≠ []) (hbs : bs ≠ [])
    (hf : ∀ a ∈ as, Tells Stop f id a) (hsep : ∀ s, Stop (sep ++ s)) (hr : Stop r) (hr' : Stop r')
    (hend : ∀ s, r ≠ sep ++ s) (hend' : ∀ s, r' ≠ sep ++ s)
    (h : sep.intercalate (as.map f) ++ r = sep.intercalate (bs.map f) ++ r') :
    as = bs ∧ r = r' := by
  obtain ⟨a, as, rfl⟩ := List.exists_cons_of_ne_nil has
  obtain ⟨b, bs, rfl⟩ := List.exists_cons_of_ne_nil hbs
  have hrun : ∀ (ds : List α) {s : List Char}, Stop s →
      Stop ((ds.map f).flatMap (sep ++ ·) ++ s) := by
    intro ds s hs
    cases ds with
    | nil => exact hs
    | cons d ds =>
      rw [List.map_cons, List.flatMap_cons, List.append_assoc, List.append_assoc]
      exact hsep _
  rw [List.map_cons, List.map_cons, intercalate_cons_eq, intercalate_cons_eq, List.append_assoc,
    List.append_assoc] at h
  obtain ⟨rfl, hrest⟩ := hf a List.mem_cons_self b _ _ (hrun as hr) (hrun bs hr') h
  rw [List.flatMap_map, List.flatMap_map] at hrest
  have hparts : ∀ d ∈ as, Tells Stop (fun d => sep ++ f d) id d := fun d hd =>
    (hf d (List.mem_cons_of_mem a hd)).append_left sep
  obtain ⟨rfl, heq⟩ := eq_of_flatMap hparts
    (fun d s => by rw [List.append_assoc]; exact hsep _) hr hr'
    (fun d s => by rw [List.append_assoc]; exact hend _)
    (fun d s => by rw [List.append_assoc]; exact hend' _) hrest
  exact ⟨rfl, heq⟩

/-- What is written for lists tells them, if it tells the empty list from all others and these from
each other. -/
theorem eq_of_nil_apart {text : List α → List Char}
    (hnil : ∀ cs s s', cs ≠ [] → text [] ++ s ≠ text cs ++ s')
    (hcons : as ≠ [] → bs ≠ [] → as = bs ∧ r = r') (h : text as ++ r = text bs ++ r') :
    as = bs ∧ r = r' := by
  by_cases has : as = []
  · subst has
    by_cases hbs : bs = []
    · subst hbs
      exact ⟨rfl, List.append_cancel_left h⟩
    · exact absurd h (hnil bs r r' hbs)
  · by_cases hbs : bs = []
    · subst hbs
      exact absurd h.symm (hnil as r' r has)
    · exact hcons has hbs

end Runs

end MaskEnum.Text
