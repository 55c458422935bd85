import Mathlib.Data.List.Nodup
import MaskEnum.Table
set_option autoImplicit false

/-!
# Keys and look-up of tables

A table answers for exactly its keys. Setting a value leaves the keys and their order alone when
the key was there, and puts the key at the end otherwise; so keys that are pairwise different stay
so.

## Main results

* `MaskEnum.Table.get?_eq_none_iff`, `MaskEnum.Table.mem_entries_of_get?`,
  `MaskEnum.Table.get?_eq_some_of_mem` — look-up and entries.
* `MaskEnum.Table.keys_insert`, `MaskEnum.Table.nodup_keys_insert` — the keys after a change.
* `MaskEnum.Table.mem_keys_insertAll`, `MaskEnum.Table.forall_get?_insertAll`,
  `MaskEnum.Table.get?_insertAll_of_mem` — keys and values after several changes.
-/

namespace MaskEnum.Table

variable {κ α : Type} [DecidableEq κ]

/-- A key without a value is no key. -/
theorem get?_eq_none_iff {t : Table κ α} {k : κ} : t.get? k = none ↔ k ∉ t.keys := by
  simp only [get?, Option.map_eq_none_iff, List.find?_eq_none, decide_eq_true_eq, keys,
    List.mem_map, not_exists, not_and]

/-- A key has a value. -/
theorem isSome_get?_iff {t : Table κ α} {k : κ} : (t.get? k).isSome = true ↔ k ∈ t.keys := by
  rw [← not_iff_not, ← get?_eq_none_iff, Bool.not_eq_true, Option.isSome_eq_false_iff,
    Option.isNone_iff_eq_none]

/-- Nothing is found in the table without entries. -/
theorem forall_get?_empty {P : κ → α → Prop} :
    ∀ k a, (empty : Table κ α).get? k = some a → P k a := by
  intro k a h
  cases h

/-- Whatever holds of the values of a table and of the one set holds of the values afterwards. -/
theorem forall_get?_insert {P : κ → α → Prop} {t : Table κ α} {k : κ} {a : α}
    (ht : ∀ k a, t.get? k = some a → P k a) (ha : P k a) :
    ∀ k' a', (t.insert k a).get? k' = some a' → P k' a' := by
  intro k' a' h
  rw [get?_insert] at h
  split_ifs at h with hk
  · obtain rfl := Option.some.inj h
    exact hk ▸ ha
  · exact ht k' a' h

/-- Tables whose values correspond do so after setting values that correspond. -/
theorem rel_get?_insert {β : Type} {R : α → β → Prop} {t : Table κ α} {t' : Table κ β}
    (ht : ∀ k, Option.Rel R (t.get? k) (t'.get? k)) (k : κ) {a : α} {b : β} (hab : R a b) :
    ∀ k', Option.Rel R ((t.insert k a).get? k') ((t'.insert k b).get? k') := by
  intro k'
  rw [get?_insert, get?_insert]
  split_ifs
  · exact Option.Rel.some hab
  · exact ht k'

/-- What look-up finds is an entry. -/
theorem mem_entries_of_get? {t : Table κ α} {k : κ} {a : α} (h : t.get? k = some a) :
    (k, a) ∈ t.entries := by
  obtain ⟨e, he, rfl⟩ := Option.map_eq_some_iff.mp h
  have hk : e.1 = k := by
    simpa using List.find?_some he
  rw [← hk]
  exact List.mem_of_find?_eq_some he

/-- If the keys are pairwise different, look-up finds every entry. -/
theorem get?_eq_some_of_mem {t : Table κ α} (ht : t.keys.Nodup) {k : κ} {a : α}
    (h : (k, a) ∈ t.entries) : t.get? k = some a := by
  have hk : k ∈ t.keys := List.mem_map_of_mem (f := Prod.fst) h
  obtain ⟨b, hb⟩ := Option.isSome_iff_exists.mp (isSome_get?_iff.mpr hk)
  have heq : (k, b) = (k, a) := List.inj_on_of_nodup_map ht (mem_entries_of_get? hb) h rfl
  rw [hb, (Prod.mk.inj heq).2]

/-- Look-up among the entries whose keys are picked. -/
theorem get?_filter (t : Table κ α) (p : κ → Bool) (k : κ) :
    (⟨t.entries.filter fun e => p e.1⟩ : Table κ α).get? k = if p k then t.get? k else none := by
  simp only [get?, List.find?_filter]
  cases hk : p k with
  | true =>
    have hp : (fun e : κ × α => decide (p e.1 = true ∧ decide (e.1 = k) = true)) =
        fun e => decide (e.1 = k) := by
      funext e
      by_cases he : e.1 = k
      · simp [he, hk]
      · simp [he]
    rw [hp, if_pos rfl]
  | false =>
    rw [if_neg Bool.false_ne_true, Option.map_eq_none_iff, List.find?_eq_none]
    intro e _ he
    obtain ⟨hpe, hek⟩ := of_decide_eq_true he
    rw [of_decide_eq_true hek, hk] at hpe
    exact Bool.false_ne_true hpe

/-- The keys of a list of entries after setting a value. -/
theorem map_fst_insertEntry (k : κ) (a : α) (es : List (κ × α)) :
    (insertEntry k a es).map Prod.fst =
      if k ∈ es.map Prod.fst then es.map Prod.fst else es.map Prod.fst ++ [k] := by
  induction es with
  | nil => rfl
  | cons e es ih =>
    unfold insertEntry
    split_ifs with he hm hm
    · simp [he]
    · exact absurd (by simp [he]) hm
    · have hk : k ∈ es.map Prod.fst := by
        simpa [Ne.symm he] using hm
      rw [List.map_cons, ih, if_pos hk, List.map_cons]
    · have hk : k ∉ es.map Prod.fst := fun hk => hm (by simp at hk ⊢; exact Or.inr hk)
      rw [List.map_cons, ih, if_neg hk, List.map_cons, List.cons_append]

/-- The keys after setting a value: a new key stands last. -/
theorem keys_insert (t : Table κ α) (k : κ) (a : α) :
    (t.insert k a).keys = if k ∈ t.keys then t.keys else t.keys ++ [k] :=
  map_fst_insertEntry k a t.entries

/-- Setting a value adds no key but its own. -/
theorem mem_keys_insert {t : Table κ α} {k k' : κ} {a : α} :
    k' ∈ (t.insert k a).keys ↔ k' = k ∨ k' ∈ t.keys := by
  rw [keys_insert]
  split_ifs with h
  · exact ⟨Or.inr, fun h' => h'.elim (fun e => e ▸ h) id⟩
  · rw [List.mem_append, List.mem_singleton, or_comm]

/-- Setting a value keeps the keys pairwise different. -/
theorem nodup_keys_insert {t : Table κ α} (ht : t.keys.Nodup) (k : κ) (a : α) :
    (t.insert k a).keys.Nodup := by
  rw [keys_insert]
  split_ifs with h
  · exact ht
  · exact ht.append (List.nodup_singleton k) (by simpa using h)

/-- Setting a value unless there is one adds no key but its own. -/
theorem mem_keys_insertNew {t : Table κ α} {k k' : κ} {a : α} :
    k' ∈ (t.insertNew k a).keys ↔ k' = k ∨ k' ∈ t.keys := by
  rw [insertNew]
  split_ifs with h
  · have hk : k ∈ t.keys := isSome_get?_iff.mp h
    exact ⟨Or.inr, fun h' => h'.elim (fun e => e ▸ hk) id⟩
  · exact mem_keys_insert

/-- Setting a value unless there is one keeps the keys pairwise different. -/
theorem nodup_keys_insertNew {t : Table κ α} (ht : t.keys.Nodup) (k : κ) (a : α) :
    (t.insertNew k a).keys.Nodup := by
  rw [insertNew]
  split_ifs
  · exact ht
  · exact nodup_keys_insert ht k a

/-- Giving a key an empty value unless it has one changes no value beside the absent ones. -/
theorem getD_get?_insertNew (t : Table κ α) (k k' : κ) (a : α) :
    ((t.insertNew k a).get? k').getD a = (t.get? k').getD a := by
  rw [insertNew]
  split_ifs with h
  · rfl
  · rw [get?_insert]
    split_ifs with hk
    · have hn : t.get? k' = none := by
        rw [← hk, ← Option.isNone_iff_eq_none]
        simpa [contains] using h
      rw [hn]
      rfl
    · rfl

/-- Setting several values is setting the first and then the others. -/
theorem insertAll_cons (t : Table κ α) (e : κ × α) (es : List (κ × α)) :
    t.insertAll (e :: es) = (t.insert e.1 e.2).insertAll es := rfl

/-- Setting several values in two turns. -/
theorem insertAll_append (t : Table κ α) (es es' : List (κ × α)) :
    t.insertAll (es ++ es') = (t.insertAll es).insertAll es' :=
  List.foldl_append

/-- Setting several values adds no keys but theirs. -/
theorem mem_keys_insertAll {t : Table κ α} {k : κ} {es : List (κ × α)} :
    k ∈ (t.insertAll es).keys ↔ k ∈ es.map Prod.fst ∨ k ∈ t.keys := by
  induction es generalizing t with
  | nil => simp [insertAll]
  | cons e es ih =>
    rw [insertAll_cons, ih, mem_keys_insert, List.map_cons, List.mem_cons]
    tauto

/-- Setting several values keeps the keys pairwise different. -/
theorem nodup_keys_insertAll {t : Table κ α} (ht : t.keys.Nodup) (es : List (κ × α)) :
    (t.insertAll es).keys.Nodup := by
  induction es generalizing t with
  | nil => exact ht
  | cons e es ih => exact ih (nodup_keys_insert ht e.1 e.2)

/-- Whatever holds of the values of a table and of those set holds of the values afterwards. -/
theorem forall_get?_insertAll {P : κ → α → Prop} {t : Table κ α} {es : List (κ × α)}
    (ht : ∀ k a, t.get? k = some a → P k a) (hes : ∀ e ∈ es, P e.1 e.2) :
    ∀ k a, (t.insertAll es).get? k = some a → P k a := by
  induction es generalizing t with
  | nil => exact ht
  | cons e es ih =>
    obtain ⟨he, hes⟩ := List.forall_mem_cons.mp hes
    exact ih (forall_get?_insert ht he) hes

/-- Setting several values leaves alone what other keys have. -/
theorem get?_insertAll_of_notMem {t : Table κ α} {es : List (κ × α)} {k : κ}
    (hk : k ∉ es.map Prod.fst) : (t.insertAll es).get? k = t.get? k := by
  induction es generalizing t with
  | nil => rfl
  | cons e es ih =>
    obtain ⟨hne, hk⟩ := List.ne_and_not_mem_of_not_mem_cons hk
    rw [insertAll_cons, ih hk, get?_insert, if_neg (Ne.symm hne)]

/-- After setting values of pairwise different keys, each key has its value. -/
theorem get?_insertAll_of_mem {t : Table κ α} {es : List (κ × α)}
    (hes : (es.map Prod.fst).Nodup) {k : κ} {a : α} (h : (k, a) ∈ es) :
    (t.insertAll es).get? k = some a := by
  induction es generalizing t with
  | nil => cases h
  | cons e es ih =>
    obtain ⟨hnew, hes⟩ := List.nodup_cons.mp hes
    rw [insertAll_cons]
    rcases List.mem_cons.mp h with rfl | h
    · rw [get?_insertAll_of_notMem hnew, get?_insert, if_pos rfl]
    · exact ih hes h

end MaskEnum.Table
