import Mathlib.Data.Int.Bitwise
import MaskEnum.Operator
import MaskEnum.Proofs.Result
set_option autoImplicit false

/-!
# Exact arithmetic

What an operator gives over unbounded integers is said by rules, one for each operator: the
digit-wise operators by the binary digits of their result, which go on forever, and the others by
the arithmetic of integers. Division truncates toward zero, and a right shift rounds down. There is
no rule for a zero divisor, and none for a shift amount that is negative, or the width of the type
or more.

## Main definitions

* `MaskEnum.Operator.Gives` — the exact result of an operator.
* `MaskEnum.Operator.refusal?` — the right operands that an operator refuses.

## Main results

* `MaskEnum.Bitwise.eq_of_testBit_eq` — an integer is determined by its digits.
* `MaskEnum.Operator.exact_eq_ok`, `MaskEnum.Operator.exact_eq_error` — when there is an exact
  result, and why there is none.
* `MaskEnum.Operator.checked_eq_ok`, `MaskEnum.Operator.checked_eq_error` — the outcomes of checked
  operators.
-/

namespace MaskEnum

/-! ## Digits -/

namespace Bitwise

/-- The digits set in one natural number and clear in another. -/
theorem testBit_andNot (m n i : Nat) :
    (andNot m n).testBit i = (m.testBit i && ! n.testBit i) := by
  rw [andNot, Nat.testBit_xor, Nat.testBit_and]
  cases m.testBit i <;> cases n.testBit i <;> rfl

/-- The digits of a disjunction. -/
theorem testBit_or (a b : Int) (i : Nat) :
    (or a b).testBit i = (a.testBit i || b.testBit i) := by
  cases a <;> cases b <;> simp [or, Int.testBit, testBit_andNot, Bool.or_comm]

/-- The digits of a conjunction. -/
theorem testBit_and (a b : Int) (i : Nat) :
    (and a b).testBit i = (a.testBit i && b.testBit i) := by
  cases a <;> cases b <;> simp [and, Int.testBit, testBit_andNot, Bool.and_comm]

/-- The digits of an exclusive disjunction. -/
theorem testBit_xor (a b : Int) (i : Nat) :
    (xor a b).testBit i = (a.testBit i ^^ b.testBit i) := by
  cases a <;> cases b <;> simp [xor, Int.testBit]

/-- A digit far enough to the left is the sign. -/
theorem exists_testBit_eq_sign (n : Int) : ∃ k, ∀ i ≥ k, n.testBit i = decide (n < 0) := by
  cases n with
  | ofNat m =>
    refine ⟨m, fun i hi => ?_⟩
    have hbit : m.testBit i = false :=
      Nat.testBit_lt_two_pow (lt_of_le_of_lt hi Nat.lt_two_pow_self)
    exact hbit.trans (decide_eq_false (Int.not_lt.mpr (Int.natCast_nonneg m))).symm
  | negSucc m =>
    refine ⟨m, fun i hi => ?_⟩
    have hbit : m.testBit i = false :=
      Nat.testBit_lt_two_pow (lt_of_le_of_lt hi Nat.lt_two_pow_self)
    simp [Int.testBit, hbit, Int.negSucc_lt_zero]

/-- Integers with the same digits are equal. -/
theorem eq_of_testBit_eq {a b : Int} (h : ∀ i, a.testBit i = b.testBit i) : a = b := by
  have hsign : a < 0 ↔ b < 0 := by
    obtain ⟨j, hj⟩ := exists_testBit_eq_sign a
    obtain ⟨k, hk⟩ := exists_testBit_eq_sign b
    rw [← decide_eq_decide, ← hj _ (le_max_left j k), ← hk _ (le_max_right j k), h]
  cases a with
  | ofNat m =>
    cases b with
    | ofNat n => exact congrArg Int.ofNat (Nat.eq_of_testBit_eq h)
    | negSucc n =>
      have hneg := hsign.mpr (Int.negSucc_lt_zero n)
      exact absurd hneg (Int.not_lt.mpr (Int.natCast_nonneg m))
  | negSucc m =>
    cases b with
    | ofNat n =>
      have hneg := hsign.mp (Int.negSucc_lt_zero m)
      exact absurd hneg (Int.not_lt.mpr (Int.natCast_nonneg n))
    | negSucc n =>
      exact congrArg Int.negSucc (Nat.eq_of_testBit_eq fun i => Bool.not_inj (h i))

end Bitwise

/-! ## Results -/

namespace Operator

variable {t : IntType} {op : Operator} {a b n : Int} {fault : ArithFault}

/-- What an operator gives over unbounded integers. The type matters only for the amounts that a
shift accepts. -/
inductive Gives (t : IntType) : Operator → Int → Int → Int → Prop
  | or {a b n : Int} : (∀ i, n.testBit i = (a.testBit i || b.testBit i)) → Gives t or a b n
  | and {a b n : Int} : (∀ i, n.testBit i = (a.testBit i && b.testBit i)) → Gives t and a b n
  | xor {a b n : Int} : (∀ i, n.testBit i = (a.testBit i ^^ b.testBit i)) → Gives t xor a b n
  | add {a b : Int} : Gives t add a b (a + b)
  | sub {a b : Int} : Gives t sub a b (a - b)
  | mul {a b : Int} : Gives t mul a b (a * b)
  | div {a b : Int} : b ≠ 0 → Gives t div a b (a.tdiv b)
  | rem {a b : Int} : b ≠ 0 → Gives t rem a b (a.tmod b)
  | shl {a b : Int} : 0 ≤ b → b < t.bits → Gives t shl a b (a * 2 ^ b.toNat)
  | shr {a b : Int} : 0 ≤ b → b < t.bits → Gives t shr a b (a / 2 ^ b.toNat)

/-- Why an operator refuses the right operand `b`, if it does. -/
def refusal? (op : Operator) (b : Int) (t : IntType) : Option ArithFault :=
  match op with
  | div | rem => if b = 0 then some .zeroDivisor else none
  | shl | shr => if 0 ≤ b ∧ b < t.bits then none else some (.shiftAmount b t)
  | or | and | xor | add | sub | mul => none

/-- A power of two as it is shifted to its place. -/
theorem natCast_one_shiftLeft (k : Nat) : ((1 <<< k : Nat) : Int) = 2 ^ k := by
  rw [Nat.one_shiftLeft]
  exact_mod_cast rfl

/-- There is an exact result, unless the operator refuses its right operand. -/
theorem exact_spec (op : Operator) (a b : Int) (t : IntType) :
    (∃ n, op.exact a b t = .ok n ∧ Gives t op a b n) ∨
      ∃ fault, op.exact a b t = .error fault ∧ op.refusal? b t = some fault := by
  cases op with
  | or => exact .inl ⟨_, rfl, .or (Bitwise.testBit_or a b)⟩
  | and => exact .inl ⟨_, rfl, .and (Bitwise.testBit_and a b)⟩
  | xor => exact .inl ⟨_, rfl, .xor (Bitwise.testBit_xor a b)⟩
  | add => exact .inl ⟨_, rfl, .add⟩
  | sub => exact .inl ⟨_, rfl, .sub⟩
  | mul => exact .inl ⟨_, rfl, .mul⟩
  | div =>
    by_cases hb : b = 0
    · exact .inr ⟨_, if_pos hb, if_pos hb⟩
    · exact .inl ⟨_, if_neg hb, .div hb⟩
  | rem =>
    by_cases hb : b = 0
    · exact .inr ⟨_, if_pos hb, if_pos hb⟩
    · exact .inl ⟨_, if_neg hb, .rem hb⟩
  | shl =>
    by_cases hb : 0 ≤ b ∧ b < t.bits
    · refine .inl ⟨_, if_pos hb, ?_⟩
      rw [natCast_one_shiftLeft]
      exact .shl hb.1 hb.2
    · exact .inr ⟨_, if_neg hb, if_neg hb⟩
  | shr =>
    by_cases hb : 0 ≤ b ∧ b < t.bits
    · refine .inl ⟨_, if_pos hb, ?_⟩
      rw [natCast_one_shiftLeft]
      exact .shr hb.1 hb.2
    · exact .inr ⟨_, if_neg hb, if_neg hb⟩

/-- An operator gives one result at most. -/
theorem Gives.unique {m : Int} (h : Gives t op a b n) (h' : Gives t op a b m) : n = m := by
  cases h with
  | or hn =>
    cases h' with
    | or hm => exact Bitwise.eq_of_testBit_eq fun i => (hn i).trans (hm i).symm
  | and hn =>
    cases h' with
    | and hm => exact Bitwise.eq_of_testBit_eq fun i => (hn i).trans (hm i).symm
  | xor hn =>
    cases h' with
    | xor hm => exact Bitwise.eq_of_testBit_eq fun i => (hn i).trans (hm i).symm
  | add | sub | mul | div | rem | shl | shr =>
    cases h'
    rfl

/-- An operator that gives a result does not refuse its right operand. -/
theorem Gives.refusal?_eq_none (h : Gives t op a b n) : op.refusal? b t = none := by
  cases h with
  | or | and | xor | add | sub | mul => rfl
  | div hb | rem hb => exact if_neg hb
  | shl hl hu | shr hl hu => exact if_pos ⟨hl, hu⟩

/-- **Exact results.** The result that is computed is the one that the operator gives. -/
theorem exact_eq_ok : op.exact a b t = .ok n ↔ Gives t op a b n := by
  rcases exact_spec op a b t with ⟨m, hm, hgives⟩ | ⟨fault, hfault, hrefused⟩
  · rw [hm]
    constructor
    · intro h
      exact Except.ok.inj h ▸ hgives
    · intro h
      rw [hgives.unique h]
  · rw [hfault]
    refine ⟨nofun, fun h => ?_⟩
    rw [h.refusal?_eq_none] at hrefused
    cases hrefused

/-- There is no exact result just for the right operands that the operator refuses. -/
theorem exact_eq_error : op.exact a b t = .error fault ↔ op.refusal? b t = some fault := by
  rcases exact_spec op a b t with ⟨m, hm, hgives⟩ | ⟨fault', hfault, hrefused⟩
  · rw [hm, hgives.refusal?_eq_none]
    exact ⟨nofun, nofun⟩
  · rw [hfault, hrefused, Except.error.injEq, Option.some.injEq]

/-- A checked operator succeeds with an exact result in the range of the type. -/
theorem checked_eq_ok : op.checked a b t = .ok n ↔ Gives t op a b n ∧ t.contains n = true := by
  rw [checked, bind_eq_ok, ← exact_eq_ok]
  constructor
  · rintro ⟨m, hm, h⟩
    split_ifs at h with hrange
    obtain rfl := Except.ok.inj h
    exact ⟨hm, hrange⟩
  · rintro ⟨hn, hrange⟩
    exact ⟨n, hn, if_pos hrange⟩

/-- A checked operator fails with a right operand that it refuses, or with an exact result outside
the range of the type. -/
theorem checked_eq_error :
    op.checked a b t = .error fault ↔ op.refusal? b t = some fault ∨
      ∃ n, Gives t op a b n ∧ t.contains n = false ∧ fault = .overflow op a b n t := by
  rw [checked, bind_eq_error, exact_eq_error]
  refine or_congr Iff.rfl (exists_congr fun n => ?_)
  rw [← exact_eq_ok, and_congr_right_iff]
  intro _
  cases t.contains n with
  | true => simp
  | false => simp [eq_comm]

end Operator

end MaskEnum
