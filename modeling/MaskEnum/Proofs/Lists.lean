import Mathlib.Data.List.Forall2
import Mathlib.Data.List.Sort
import Mathlib.Data.String.Basic
import Mathlib.Tactic.Common
set_option autoImplicit false

/-!
# Lists that correspond, joined parts, sorted names

Two lists of the same length correspond when their elements do, one by one. Every element then has
a partner in the other list. Parts are joined with a separator between them. Names are sorted after
their repetitions have been dropped.

## Main results

* `MaskEnum.forall₂_and_mem` — elements that correspond belong to their lists.
* `MaskEnum.exists_right_of_forall₂`, `MaskEnum.exists_left_of_forall₂`, `MaskEnum.exists_forall₂` —
  partners.
* `MaskEnum.exists_last` — the last of some elements.
* `MaskEnum.mem_intercalate_iff` — what is in parts that are joined.
* `MaskEnum.pairwise_mergeSort_eraseDups` — sorted names ascend.
-/

namespace MaskEnum

variable {α β γ : Type} {R : α → β → Prop} {as : List α} {bs : List β}

/-- Elements that correspond belong to their lists. -/
theorem forall₂_and_mem (h : List.Forall₂ R as bs) :
    List.Forall₂ (fun a b => a ∈ as ∧ b ∈ bs ∧ R a b) as bs := by
  induction h with
  | nil => exact .nil
  | cons hab _ ih =>
    refine .cons ⟨List.mem_cons_self, List.mem_cons_self, hab⟩ (ih.imp fun a b h => ?_)
    exact ⟨List.mem_cons_of_mem _ h.1, List.mem_cons_of_mem _ h.2.1, h.2.2⟩

/-- An element of the first list has a partner in the second. -/
theorem exists_right_of_forall₂ (h : List.Forall₂ R as bs) {a : α} (ha : a ∈ as) :
    ∃ b ∈ bs, R a b := by
  induction h with
  | nil => cases ha
  | cons hab _ ih =>
    rcases List.mem_cons.mp ha with rfl | ha
    · exact ⟨_, List.mem_cons_self, hab⟩
    · obtain ⟨b, hb, hr⟩ := ih ha
      exact ⟨b, List.mem_cons_of_mem _ hb, hr⟩

/-- An element of the second list has a partner in the first. -/
theorem exists_left_of_forall₂ (h : List.Forall₂ R as bs) {b : β} (hb : b ∈ bs) :
    ∃ a ∈ as, R a b :=
  exists_right_of_forall₂ h.flip hb

/-- Some list corresponds if there is a partner for every element. -/
theorem exists_forall₂ : (∃ bs, List.Forall₂ R as bs) ↔ ∀ a ∈ as, ∃ b, R a b := by
  refine ⟨fun ⟨bs, h⟩ a ha => ?_, fun h => ?_⟩
  · obtain ⟨b, -, hb⟩ := exists_right_of_forall₂ h ha
    exact ⟨b, hb⟩
  · induction as with
    | nil => exact ⟨[], .nil⟩
    | cons a as ih =>
      obtain ⟨⟨b, hb⟩, has⟩ := List.forall_mem_cons.mp h
      obtain ⟨bs, hbs⟩ := ih has
      exact ⟨b :: bs, .cons hb hbs⟩

/-- Correspondence through a list in between. -/
theorem forall₂_trans {S : β → γ → Prop} {T : α → γ → Prop} {cs : List γ}
    (hT : ∀ a b c, R a b → S b c → T a c) (h : List.Forall₂ R as bs)
    (h' : List.Forall₂ S bs cs) : List.Forall₂ T as cs := by
  induction h generalizing cs with
  | nil =>
    cases h'
    exact .nil
  | cons hab _ ih =>
    cases h' with
    | cons hbc hrest => exact .cons (hT _ _ _ hab hbc) (ih hrest)

/-- Images of elements that correspond are equal, so the lists of images are. -/
theorem map_eq_of_forall₂ {f : α → γ} {g : β → γ} (h : List.Forall₂ (fun a b => f a = g b) as bs) :
    as.map f = bs.map g := by
  rw [← List.forall₂_eq_eq_eq, List.forall₂_map_left_iff, List.forall₂_map_right_iff]
  exact h

/-- Parts that correspond to lists that they are contained in, in order. -/
theorem sublist_flatMap_of_forall₂ {f : α → List γ} {g : β → List γ}
    (h : List.Forall₂ (fun a b => (g b).Sublist (f a)) as bs) :
    (bs.flatMap g).Sublist (as.flatMap f) := by
  induction h with
  | nil => exact List.Sublist.refl _
  | cons hab _ ih => exact hab.append ih

/-- Images of some of the elements of a list, in order. -/
theorem filterMap_sublist_map {f : α → Option β} {g : α → β} (h : ∀ a b, f a = some b → b = g a)
    (as : List α) : (as.filterMap f).Sublist (as.map g) := by
  induction as with
  | nil => exact List.Sublist.refl _
  | cons a as ih =>
    cases hfa : f a with
    | none =>
      rw [List.filterMap_cons_none hfa]
      exact ih.cons _
    | some b =>
      rw [List.filterMap_cons_some hfa, List.map_cons, h a b hfa]
      exact ih.cons_cons _

/-- A list can be cut at the last of the elements of which something holds. -/
theorem exists_last {p : α → Prop} (h : ∃ a ∈ as, p a) :
    ∃ before a after, as = before ++ a :: after ∧ p a ∧ ∀ b ∈ after, ¬ p b := by
  induction as with
  | nil => exact absurd h (by simp)
  | cons a as ih =>
    by_cases hrest : ∃ b ∈ as, p b
    · obtain ⟨before, b, after, rfl, hb, hafter⟩ := ih hrest
      exact ⟨a :: before, b, after, rfl, hb, hafter⟩
    · obtain ⟨b, hmem, hb⟩ := h
      rcases List.mem_cons.mp hmem with rfl | hmem
      · exact ⟨[], b, as, rfl, hb, fun c hc hpc => hrest ⟨c, hc, hpc⟩⟩
      · exact absurd ⟨b, hmem, hb⟩ hrest

/-- What holds of an element of one of several lists. -/
theorem exists_mem_flatMap {f : α → List β} {P : β → Prop} :
    (∃ b ∈ as.flatMap f, P b) ↔ ∃ a ∈ as, ∃ b ∈ f a, P b := by
  simp only [List.mem_flatMap]
  constructor
  · rintro ⟨b, ⟨a, ha, hb⟩, hp⟩
    exact ⟨a, ha, b, hb, hp⟩
  · rintro ⟨a, ha, b, hb, hp⟩
    exact ⟨b, ⟨a, ha, hb⟩, hp⟩

/-! ## Parts with a separator between them -/

variable {sep : List α} {parts : List (List α)}

/-- What is in the whole is in the separator or in a part. -/
theorem mem_of_mem_intercalate {a : α} (h : a ∈ sep.intercalate parts) :
    a ∈ sep ∨ ∃ part ∈ parts, a ∈ part := by
  induction parts with
  | nil => cases h
  | cons part parts ih =>
    cases parts with
    | nil =>
      rw [List.intercalate_singleton] at h
      exact .inr ⟨part, List.mem_cons_self, h⟩
    | cons next parts =>
      rw [List.intercalate_cons_cons, List.mem_append, List.mem_append] at h
      rcases h with (h | h) | h
      · exact .inr ⟨part, List.mem_cons_self, h⟩
      · exact .inl h
      · exact (ih h).imp id fun ⟨other, hother, ha⟩ => ⟨other, List.mem_cons_of_mem _ hother, ha⟩

/-- What is in a part is in the whole. -/
theorem mem_intercalate_of_mem {a : α} {part : List α} (hpart : part ∈ parts) (ha : a ∈ part) :
    a ∈ sep.intercalate parts := by
  induction parts with
  | nil => cases hpart
  | cons first parts ih =>
    cases parts with
    | nil =>
      obtain rfl := List.mem_singleton.mp hpart
      rwa [List.intercalate_singleton]
    | cons next parts =>
      rw [List.intercalate_cons_cons]
      rcases List.mem_cons.mp hpart with rfl | hpart
      · exact List.mem_append_left _ (List.mem_append_left _ ha)
      · exact List.mem_append_right _ (ih hpart)

/-- What is not in the separator is in the whole if it is in a part. -/
theorem mem_intercalate_iff {a : α} (hsep : a ∉ sep) :
    a ∈ sep.intercalate parts ↔ ∃ part ∈ parts, a ∈ part :=
  ⟨fun h => (mem_of_mem_intercalate h).resolve_left hsep,
    fun ⟨_, hpart, ha⟩ => mem_intercalate_of_mem hpart ha⟩

/-- What stands in front of the first part stands in front of all. -/
theorem intercalate_append_cons (sep start part : List α) (parts : List (List α)) :
    sep.intercalate ((start ++ part) :: parts) = start ++ sep.intercalate (part :: parts) := by
  cases parts with
  | nil => rw [List.intercalate_singleton, List.intercalate_singleton]
  | cons next parts =>
    rw [List.intercalate_cons_cons, List.intercalate_cons_cons, List.append_assoc,
      List.append_assoc, List.append_assoc]

/-- What stands behind the last part stands behind all. -/
theorem intercalate_concat_append (sep part stop : List α) (parts : List (List α)) :
    sep.intercalate (parts ++ [part ++ stop]) = sep.intercalate (parts ++ [part]) ++ stop := by
  induction parts with
  | nil => rw [List.nil_append, List.nil_append, List.intercalate_singleton,
      List.intercalate_singleton]
  | cons first parts ih =>
    rw [List.cons_append, List.cons_append, List.intercalate_cons_of_ne_nil (by simp),
      List.intercalate_cons_of_ne_nil (by simp), ih, List.append_assoc, List.append_assoc,
      List.append_assoc]

/-! ## Sorted names -/

/-- Dropping repetitions leaves none. -/
theorem nodup_eraseDups (names : List String) : names.eraseDups.Nodup := by
  induction hn : names.length using Nat.strong_induction_on generalizing names with
  | _ n ih =>
    cases names with
    | nil => simp
    | cons name names =>
      rw [List.eraseDups_cons, List.nodup_cons]
      refine ⟨by simp, ih _ ?_ _ rfl⟩
      subst hn
      exact Nat.lt_succ_of_le (List.length_filter_le _ _)

/-- Names without repetitions ascend when they are sorted. -/
theorem pairwise_mergeSort_eraseDups (names : List String) :
    (names.eraseDups.mergeSort fun a b => decide (a ≤ b)).Pairwise (· < ·) := by
  have hsorted := List.pairwise_mergeSort' (· ≤ ·) names.eraseDups
  have hnodup := (List.mergeSort_perm names.eraseDups fun a b => decide (a ≤ b)).nodup_iff.mpr
    (nodup_eraseDups names)
  exact (hsorted.and hnodup).imp fun h => lt_of_le_of_ne h.1 h.2

end MaskEnum
