import Mathlib.Algebra.Order.Ring.Int
import MaskEnum.Proofs.IntType.Range
import MaskEnum.Proofs.Operator.Exact
set_option autoImplicit false

/-!
# Results that leave the range

With operands in the range of a type, most operators never leave it. The digit-wise ones keep all
digits from the sign on equal, and a remainder or a number shifted to the right lies between zero
and the left operand. So does a quotient, except where the divisor is negative; there only the least
value divided by minus one is too large.

## Main definitions

* `MaskEnum.IntType.magnitude` — how many digits of a value come before those of its sign.
* `MaskEnum.Operator.MayOverflow` — the operands for which an operator can leave the range.

## Main results

* `MaskEnum.IntType.contains_ofNat`, `MaskEnum.IntType.contains_negSucc` — ranges by digits.
* `MaskEnum.IntType.contains_of_between` — what lies between zero and a value is a value.
* `MaskEnum.Operator.contains_tdiv_eq_false` — the one quotient that leaves the range.
* `MaskEnum.Operator.Gives.mayOverflow` — a result outside the range comes from such operands.
-/

namespace MaskEnum

/-! ## Ranges by digits -/

namespace IntType

variable {t : IntType} {a n : Int}

/-- The number of digits of a value in front of which all are copies of its sign. -/
def magnitude (t : IntType) : Nat := if t.signed then t.bits - 1 else t.bits

/-- The natural numbers in the range of a type. -/
theorem contains_ofNat (t : IntType) (m : Nat) :
    t.contains (.ofNat m) = true ↔ m < 2 ^ t.magnitude := by
  cases h : t.signed with
  | true =>
    rw [contains_iff_of_signed h, magnitude, if_pos h, ← half_eq]
    simp only [Int.ofNat_eq_natCast]
    omega
  | false =>
    rw [contains_iff_of_unsigned h, magnitude, if_neg (by simp [h]), ← size_eq]
    simp only [Int.ofNat_eq_natCast]
    omega

/-- The negative numbers in the range of a type, by the digits that their complements have. -/
theorem contains_negSucc (t : IntType) (m : Nat) :
    t.contains (.negSucc m) = true ↔ t.signed = true ∧ m < 2 ^ t.magnitude := by
  cases h : t.signed with
  | true =>
    rw [contains_iff_of_signed h, magnitude, if_pos h, ← half_eq]
    simp only [true_and]
    omega
  | false =>
    rw [contains_iff_of_unsigned h]
    simp only [Bool.false_eq_true, false_and, iff_false]
    omega

/-- What lies between zero and a value of a type is a value of the type. -/
theorem contains_of_between (ha : t.contains a = true) (h : 0 ≤ n ∧ n ≤ a ∨ a ≤ n ∧ n ≤ 0) :
    t.contains n = true := by
  cases hs : t.signed with
  | true =>
    rw [contains_iff_of_signed hs] at ha ⊢
    have hhalf : 0 < t.half := by
      rw [half_eq]
      exact Nat.two_pow_pos _
    omega
  | false =>
    rw [contains_iff_of_unsigned hs] at ha ⊢
    have hsize := t.size_pos
    omega

end IntType

/-! ## Operators that stay in range -/

namespace Bitwise

variable {t : IntType} {a b : Int} {m n k : Nat}

/-- Leaving out digits of a natural number makes it no larger. -/
theorem andNot_lt_two_pow (h : m < 2 ^ k) : andNot m n < 2 ^ k :=
  Nat.xor_lt_two_pow h (lt_of_le_of_lt Nat.and_le_left h)

/-- A conjunction of values is a value. -/
theorem contains_and (ha : t.contains a = true) (hb : t.contains b = true) :
    t.contains (and a b) = true := by
  cases a with
  | ofNat m =>
    rw [t.contains_ofNat] at ha
    cases b with
    | ofNat n => exact (t.contains_ofNat _).mpr (lt_of_le_of_lt Nat.and_le_left ha)
    | negSucc n => exact (t.contains_ofNat _).mpr (andNot_lt_two_pow ha)
  | negSucc m =>
    rw [t.contains_negSucc] at ha
    cases b with
    | ofNat n => exact (t.contains_ofNat _).mpr (andNot_lt_two_pow ((t.contains_ofNat n).mp hb))
    | negSucc n =>
      rw [t.contains_negSucc] at hb
      exact (t.contains_negSucc _).mpr ⟨ha.1, Nat.or_lt_two_pow ha.2 hb.2⟩

/-- A disjunction of values is a value. -/
theorem contains_or (ha : t.contains a = true) (hb : t.contains b = true) :
    t.contains (or a b) = true := by
  cases a with
  | ofNat m =>
    rw [t.contains_ofNat] at ha
    cases b with
    | ofNat n => exact (t.contains_ofNat _).mpr (Nat.or_lt_two_pow ha ((t.contains_ofNat n).mp hb))
    | negSucc n =>
      rw [t.contains_negSucc] at hb
      exact (t.contains_negSucc _).mpr ⟨hb.1, andNot_lt_two_pow hb.2⟩
  | negSucc m =>
    rw [t.contains_negSucc] at ha
    cases b with
    | ofNat n => exact (t.contains_negSucc _).mpr ⟨ha.1, andNot_lt_two_pow ha.2⟩
    | negSucc n => exact (t.contains_negSucc _).mpr ⟨ha.1, lt_of_le_of_lt Nat.and_le_left ha.2⟩

/-- An exclusive disjunction of values is a value. -/
theorem contains_xor (ha : t.contains a = true) (hb : t.contains b = true) :
    t.contains (xor a b) = true := by
  cases a with
  | ofNat m =>
    rw [t.contains_ofNat] at ha
    cases b with
    | ofNat n => exact (t.contains_ofNat _).mpr (Nat.xor_lt_two_pow ha ((t.contains_ofNat n).mp hb))
    | negSucc n =>
      rw [t.contains_negSucc] at hb
      exact (t.contains_negSucc _).mpr ⟨hb.1, Nat.xor_lt_two_pow ha hb.2⟩
  | negSucc m =>
    rw [t.contains_negSucc] at ha
    cases b with
    | ofNat n =>
      exact (t.contains_negSucc _).mpr
        ⟨ha.1, Nat.xor_lt_two_pow ha.2 ((t.contains_ofNat n).mp hb)⟩
    | negSucc n =>
      rw [t.contains_negSucc] at hb
      exact (t.contains_ofNat _).mpr (Nat.xor_lt_two_pow ha.2 hb.2)

end Bitwise

namespace Operator

variable {t : IntType} {op : Operator} {a b n : Int}

/-- A remainder lies between zero and the dividend. -/
theorem contains_tmod (b : Int) (ha : t.contains a = true) : t.contains (a.tmod b) = true := by
  have habs : (a.tmod b).natAbs ≤ a.natAbs := by
    rw [Int.natAbs_tmod]
    exact Nat.mod_le _ _
  refine IntType.contains_of_between ha ?_
  rcases le_total 0 a with h | h
  · have hsign := Int.tmod_nonneg b h
    omega
  · have hsign := Int.tmod_nonneg b (Int.neg_nonneg_of_nonpos h)
    rw [Int.neg_tmod] at hsign
    omega

/-- Shifting to the right leads toward zero, or from below to minus one. -/
theorem contains_shr (k : Nat) (ha : t.contains a = true) :
    t.contains (a / 2 ^ k) = true := by
  have hpow : (0 : Int) < 2 ^ k := pow_pos (by decide) k
  refine IntType.contains_of_between ha ?_
  rcases le_or_gt 0 a with h | h
  · exact .inl ⟨Int.ediv_nonneg h hpow.le, Int.ediv_le_self _ h⟩
  · refine .inr ⟨?_, (Int.ediv_neg_of_neg_of_pos h hpow).le⟩
    exact Int.le_ediv_of_mul_le hpow (mul_le_of_one_le_right h.le hpow)

/-- A quotient by a positive divisor lies between zero and the dividend. -/
theorem contains_tdiv_of_pos (ha : t.contains a = true) (hb : 0 < b) :
    t.contains (a.tdiv b) = true := by
  have habs : (a.tdiv b).natAbs ≤ a.natAbs := by
    rw [Int.natAbs_tdiv]
    exact Nat.div_le_self _ _
  refine IntType.contains_of_between ha ?_
  rcases le_total 0 a with h | h
  · have hsign := Int.tdiv_nonneg h hb.le
    omega
  · have hsign := Int.tdiv_nonneg (Int.neg_nonneg_of_nonpos h) hb.le
    rw [Int.neg_tdiv] at hsign
    omega

/-- **Quotients.** Only the least value of a signed type divided by minus one leaves the range. -/
theorem contains_tdiv_eq_false (ha : t.contains a = true) (hb : t.contains b = true)
    (h0 : b ≠ 0) :
    t.contains (a.tdiv b) = false ↔ t.signed = true ∧ a = t.min ∧ b = -1 := by
  rw [← Bool.not_eq_true]
  rcases lt_or_gt_of_ne h0 with hneg | hpos
  · -- only signed types have a negative divisor
    have hs : t.signed = true := by
      cases b with
      | ofNat m => exact absurd hneg (Int.not_lt.mpr (Int.natCast_nonneg m))
      | negSucc m => exact ((t.contains_negSucc m).mp hb).1
    have hmin : t.min = -(t.half : Int) := by
      simp [IntType.min, hs]
    have hhalf : 0 < t.half := by
      rw [t.half_eq]
      exact Nat.two_pow_pos _
    rw [IntType.contains_iff_of_signed hs] at ha ⊢
    rw [hmin]
    by_cases hone : b = -1
    · rw [hone, Int.tdiv_neg, Int.tdiv_one]
      simp only [hs, true_and, and_true]
      omega
    · -- a divisor of at least two in absolute value halves the dividend at least
      have habs : (a.tdiv b).natAbs ≤ a.natAbs / 2 := by
        rw [Int.natAbs_tdiv]
        exact Nat.div_le_div_left (by omega) (by decide)
      simp only [hone, and_false, iff_false]
      omega
  · refine iff_of_false (not_not_intro (contains_tdiv_of_pos ha hpos)) ?_
    omega

/-- The operands in the range of a type for which an operator can leave it. -/
def MayOverflow (op : Operator) (t : IntType) (a b : Int) : Prop :=
  match op with
  | add | sub | mul | shl => True
  | div => t.signed = true ∧ a = t.min ∧ b = -1
  | or | and | xor | rem | shr => False

/-- **Overflow.** An exact result outside the range comes from an operator that can leave it, with
operands for which it can. -/
theorem Gives.mayOverflow (h : Gives t op a b n) (ha : t.contains a = true)
    (hb : t.contains b = true) (hn : t.contains n = false) : op.MayOverflow t a b := by
  -- a result that is in range after all
  have hin : ∀ {m : Int}, t.contains m = true → Gives t op a b m → op.MayOverflow t a b := by
    intro m hm hgives
    rw [h.unique hgives, hm] at hn
    cases hn
  cases op with
  | or => exact hin (Bitwise.contains_or ha hb) (.or (Bitwise.testBit_or a b))
  | and => exact hin (Bitwise.contains_and ha hb) (.and (Bitwise.testBit_and a b))
  | xor => exact hin (Bitwise.contains_xor ha hb) (.xor (Bitwise.testBit_xor a b))
  | add | sub | mul | shl => trivial
  | div =>
    cases h with
    | div h0 => exact (contains_tdiv_eq_false ha hb h0).mp hn
  | rem =>
    cases h with
    | rem h0 => exact hin (contains_tmod b ha) (.rem h0)
  | shr =>
    cases h with
    | shr hl hu => exact hin (contains_shr b.toNat ha) (.shr hl hu)

end Operator

end MaskEnum
