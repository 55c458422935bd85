import Mathlib.Data.List.TakeWhile
import MaskEnum.Proofs.Lists
import MaskEnum.Text.Blank
set_option autoImplicit false

/-!
# The characters of words, fields and lines

Cutting a text into words, fields or lines loses the characters between the parts and keeps the
others in order. So a part holds none of the former, and the parts together hold all of the latter.

## Main results

* `MaskEnum.Text.mem_strip` — blanks at the ends are all that `strip` takes away.
* `MaskEnum.Text.flatten_words`, `MaskEnum.Text.flatten_fields`, `MaskEnum.Text.flatten_lines` — the
  characters of all words, fields and lines.
-/

namespace MaskEnum.Text

/-! ## Stripped texts -/

variable {p : Char → Bool} {c : Char} {cs : List Char}

/-- A text is what is left after its tail is dropped, and characters that were to be dropped. -/
theorem exists_dropTail_append (p : Char → Bool) (cs : List Char) :
    ∃ tail, cs = dropTail p cs ++ tail ∧ ∀ c ∈ tail, p c = true := by
  refine ⟨(cs.reverse.takeWhile p).reverse, ?_, fun c hc => ?_⟩
  · rw [dropTail, ← List.reverse_append, List.takeWhile_append_dropWhile, List.reverse_reverse]
  · exact List.mem_takeWhile_imp (List.mem_reverse.mp hc)

/-- A character that is not dropped stays. -/
theorem mem_dropWhile (hc : p c = false) : c ∈ cs.dropWhile p ↔ c ∈ cs := by
  have hsplit : c ∈ cs.takeWhile p ++ cs.dropWhile p ↔ c ∈ cs := by
    rw [List.takeWhile_append_dropWhile]
  rw [← hsplit, List.mem_append]
  refine ⟨.inr, fun h => h.resolve_left fun htake => ?_⟩
  rw [List.mem_takeWhile_imp htake] at hc
  cases hc

/-- A character that is not blank stays when blanks are stripped. -/
theorem mem_strip (hc : isBlank c = false) : c ∈ strip cs ↔ c ∈ cs := by
  rw [strip, stripOf, dropTail, List.mem_reverse, mem_dropWhile hc, List.mem_reverse,
    mem_dropWhile hc]

/-- What starts and ends with other characters stays as it is. -/
theorem stripOf_eq_self (hfirst : ∀ c ∈ cs.head?, p c = false)
    (hlast : ∀ c ∈ cs.getLast?, p c = false) : stripOf p cs = cs := by
  have hdrop : ∀ ds : List Char, (∀ c ∈ ds.head?, p c = false) → ds.dropWhile p = ds := by
    intro ds hds
    cases ds with
    | nil => rfl
    | cons c ds => rw [List.dropWhile_cons_of_neg (by simp [hds c rfl])]
  rw [← List.head?_reverse] at hlast
  rw [stripOf, hdrop cs hfirst, dropTail, hdrop cs.reverse hlast, List.reverse_reverse]

/-! ## Words, fields and lines -/

/-- The characters of the words of a text are those that are not blank. -/
theorem flatten_words (cs : List Char) : (words cs).flatten = cs.filter (! isBlank ·) := by
  fun_induction words cs with
  | case1 => rfl
  | case2 c cs hblank ih => rw [ih, List.filter_cons, hblank]; rfl
  | case3 c hblank d tail word rest hd hwords ih =>
    rw [List.filter_cons, Bool.eq_false_iff.mpr hblank, ← ih, hwords]
    simp only [hd, if_true]
    rfl
  | case4 c hblank d tail word rest hd hwords ih =>
    rw [List.filter_cons, Bool.eq_false_iff.mpr hblank, ← ih, hwords]
    simp only [hd]
    rfl
  | case5 c cs hblank hnone ih =>
    rw [List.filter_cons, Bool.eq_false_iff.mpr hblank, ← ih]
    split
    · next d tail word rest hwords => exact absurd hwords (hnone d tail word rest rfl)
    · rfl

/-- The characters of the fields of a text are those that are not line feeds. -/
theorem flatten_fields (cs : List Char) : (fields cs).flatten = cs.filter (· ≠ '\n') := by
  unfold fields
  induction cs with
  | nil => rfl
  | cons c cs ih =>
    rw [pieces]
    by_cases hmark : c = '\n'
    · simp [hmark, ih]
    · rw [if_neg hmark]
      simp only [List.filter_cons, hmark, ne_eq, not_false_eq_true, decide_true, if_true, ← ih]
      split
      · next hnil =>
        rw [hnil]
        rfl
      · next first rest hcons =>
        rw [hcons]
        rfl

/-- The characters of the lines of a text are those that end no line. -/
theorem flatten_lines (cs : List Char) : (lines cs).flatten = cs.filter (! isLineEnd ·) := by
  fun_induction lines cs with
  | case1 => rfl
  | case2 cs ih => exact ih
  | case3 c cs _ hend ih => simp [hend, ih]
  | case4 c cs _ hend hnil ih =>
    rw [hnil] at ih
    simp [hend, ← ih]
  | case5 c cs _ hend line rest hcons ih =>
    rw [hcons] at ih
    simp [hend, ← ih]

end MaskEnum.Text
