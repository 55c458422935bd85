import Mathlib.Data.Int.ModEq
import MaskEnum.IntType
set_option autoImplicit false

/-!
# The ranges of integer types

A type of `w` bits holds `2 ^ w` consecutive integers, from `-2 ^ (w - 1)` on if it is signed and
from `0` on if it is not. So it holds exactly one integer of every residue class modulo `2 ^ w`,
and `IntType.wrap` finds it.

## Main results

* `MaskEnum.IntType.contains_iff_of_signed`, `MaskEnum.IntType.contains_iff_of_unsigned` — the
  bounds of the two kinds of range.
* `MaskEnum.IntType.contains_wrap`, `MaskEnum.IntType.wrap_modEq`,
  `MaskEnum.IntType.eq_wrap_of_modEq` — a wrapped integer is the one of its residue class.
-/

namespace MaskEnum.IntType

variable {t : IntType} {n : Int}

/-- Every type has a bit. -/
theorem bits_pos (t : IntType) : 0 < t.bits := by
  cases t <;> decide

/-- A type has `2 ^ w` values. -/
theorem size_eq (t : IntType) : t.size = 2 ^ t.bits := by
  rw [size, Nat.one_shiftLeft]

/-- Half the values of a type number `2 ^ (w - 1)`. -/
theorem half_eq (t : IntType) : t.half = 2 ^ (t.bits - 1) := by
  rw [half, Nat.one_shiftLeft]

/-- The two halves of a type make up all of it. -/
theorem size_eq_two_mul_half (t : IntType) : t.size = 2 * t.half := by
  rw [size_eq, half_eq, ← pow_succ', Nat.sub_add_cancel t.bits_pos]

/-- No type is empty. -/
theorem size_pos (t : IntType) : 0 < t.size := by
  rw [size_eq]
  exact Nat.two_pow_pos _

/-! ## Bounds -/

/-- A signed type holds the integers from minus its half to before its half. -/
theorem contains_iff_of_signed (h : t.signed = true) :
    t.contains n = true ↔ -(t.half : Int) ≤ n ∧ n < t.half := by
  simp only [contains, min, max, h, if_true, Bool.and_eq_true, decide_eq_true_eq]
  omega

/-- An unsigned type holds the natural numbers below its size. -/
theorem contains_iff_of_unsigned (h : t.signed = false) :
    t.contains n = true ↔ 0 ≤ n ∧ n < t.size := by
  simp only [contains, min, max, h, Bool.false_eq_true, if_false, Bool.and_eq_true,
    decide_eq_true_eq]
  omega

/-! ## Wrapping -/

/-- In a signed type, wrapping takes the balanced residue. -/
theorem wrap_eq_bmod (h : t.signed = true) (n : Int) : t.wrap n = n.bmod t.size := by
  have hs := t.size_eq_two_mul_half
  have hm : ((t.size : Int) + 1) / 2 = t.half := by
    omega
  simp only [wrap, max, h, if_true, Bool.true_and, decide_eq_true_eq, Int.bmod_def, hm]
  split_ifs <;> omega

/-- In an unsigned type, wrapping takes the residue. -/
theorem wrap_eq_emod (h : t.signed = false) (n : Int) : t.wrap n = n % t.size := by
  simp [wrap, h]

/-- A wrapped integer is in range. -/
theorem contains_wrap (t : IntType) (n : Int) : t.contains (t.wrap n) = true := by
  have hp : (0 : Int) < t.size := by
    exact_mod_cast t.size_pos
  cases h : t.signed with
  | true =>
    rw [contains_iff_of_signed h, wrap_eq_bmod h]
    have hl := Int.le_bmod (x := n) t.size_pos
    have hu := Int.bmod_lt (x := n) t.size_pos
    have hs := t.size_eq_two_mul_half
    omega
  | false =>
    rw [contains_iff_of_unsigned h, wrap_eq_emod h]
    exact ⟨Int.emod_nonneg n hp.ne', Int.emod_lt_of_pos n hp⟩

/-- A wrapped integer keeps its residue modulo the number of values. -/
theorem wrap_modEq (t : IntType) (n : Int) : t.wrap n ≡ n [ZMOD t.size] := by
  cases h : t.signed with
  | true =>
    rw [wrap_eq_bmod h]
    exact Int.bmod_emod
  | false =>
    rw [wrap_eq_emod h]
    exact Int.mod_modEq n t.size

/-- Two integers of a range with the same residue are equal: they differ by less than the number
of values. -/
theorem eq_of_modEq {m : Int} (hn : t.contains n = true) (hm : t.contains m = true)
    (h : n ≡ m [ZMOD t.size]) : n = m := by
  have hs := t.size_eq_two_mul_half
  have hd : (t.size : Int) ∣ m - n := h.dvd
  have hz : m - n = 0 := by
    apply Int.eq_zero_of_abs_lt_dvd hd
    rw [abs_lt]
    cases ht : t.signed with
    | true =>
      rw [contains_iff_of_signed ht] at hn hm
      omega
    | false =>
      rw [contains_iff_of_unsigned ht] at hn hm
      omega
  omega

/-- The one integer of the range that has the residue of `n` is the wrapped `n`. -/
theorem eq_wrap_of_modEq {m : Int} (hm : t.contains m = true) (h : m ≡ n [ZMOD t.size]) :
    m = t.wrap n :=
  eq_of_modEq hm (t.contains_wrap n) (h.trans (t.wrap_modEq n).symm)

/-- Wrapping changes nothing in range. -/
theorem wrap_of_contains (h : t.contains n = true) : t.wrap n = n :=
  (eq_wrap_of_modEq h rfl).symm

end MaskEnum.IntType
