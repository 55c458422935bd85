import MaskEnum.Proofs.Machine.WordArithmetic
import MaskEnum.Proofs.Operator.Overflow
set_option autoImplicit false

/-!
# Values follow initializers

The operators of values and those of initializers share their exact results and the right operands
that they refuse. They differ only where an exact result leaves the range of the type: there an
initializer has no value, and the values of generated types wrap around.

## Main definitions

* `MaskEnum.Object.Follows` — an outcome of a value operator beside that of the checked operator.

## Main results

* `MaskEnum.Object.binary_of_gives`, `MaskEnum.Object.binary_of_refusal` — value operators by exact
  results.
* `MaskEnum.Object.binary_follows` — value operators beside checked ones.
-/

namespace MaskEnum.Object

variable {c : LoadedClass} {op : Operator} {a b n : Int} {fault : ArithFault}

/-- An operator on two values of one class wraps its exact result. -/
theorem binary_of_gives (h : op.Gives c.type a b n) :
    binary op ⟨c, a⟩ ⟨c, b⟩ = .ok ⟨c, c.type.wrap n⟩ := by
  rw [binary_eq, operate_mk, Operator.wrapping, Operator.exact_eq_ok.mpr h]
  rfl

/-- An operator on two values of one class fails with a right operand that it refuses. -/
theorem binary_of_refusal (h : op.refusal? b c.type = some fault) :
    binary op ⟨c, a⟩ ⟨c, b⟩ = .error (.arithmetic fault) := by
  rw [binary_eq, operate_mk, Operator.wrapping, Operator.exact_eq_error.mpr h]
  rfl

/-- The outcome of an operator on two values of the class `c` with the raw integers `a` and `b`,
beside the outcome of the checked operator on these integers. -/
inductive Follows (c : LoadedClass) (op : Operator) (a b : Int) :
    Except ArithFault Int → Except StepFault Object → Prop
  /-- The exact result is in range, and both give it. -/
  | value {n : Int} : op.Gives c.type a b n → c.type.contains n = true →
      Follows c op a b (.ok n) (.ok ⟨c, n⟩)
  /-- Both refuse the right operand: a zero divisor, or what is no shift amount. -/
  | refused {fault : ArithFault} : op.refusal? b c.type = some fault →
      Follows c op a b (.error fault) (.error (.arithmetic fault))
  /-- The exact result is out of range: it is reported, or reduced by a multiple of the number of
  values. -/
  | wrapped {n r : Int} : op.Gives c.type a b n → c.type.contains n = false →
      op.MayOverflow c.type a b → c.type.contains r = true → r ≡ n [ZMOD 2 ^ c.type.bits] →
      Follows c op a b (.error (.overflow op a b n c.type)) (.ok ⟨c, r⟩)

/-- **Values follow initializers.** On integers in range, where the checked operator has a result
the value operator has the same one, and where the right operand is refused by one it is refused by
the other. Where the checked operator overflows, the value operator gives the exact result modulo
the number of values; this happens only for sums, differences, products, left shifts, and the
quotient of the least signed value by minus one. -/
theorem binary_follows (c : LoadedClass) (op : Operator) {a b : Int}
    (ha : c.type.contains a = true) (hb : c.type.contains b = true) :
    Follows c op a b (op.checked a b c.type) (binary op ⟨c, a⟩ ⟨c, b⟩) := by
  cases hchecked : op.checked a b c.type with
  | ok n =>
    obtain ⟨hgives, hrange⟩ := Operator.checked_eq_ok.mp hchecked
    rw [binary_of_gives hgives, IntType.wrap_of_contains hrange]
    exact .value hgives hrange
  | error fault =>
    rcases Operator.checked_eq_error.mp hchecked with hrefused | ⟨n, hgives, hout, rfl⟩
    · rw [binary_of_refusal hrefused]
      exact .refused hrefused
    · have hsize : (c.type.size : Int) = 2 ^ c.type.bits := by
        exact_mod_cast c.type.size_eq
      rw [binary_of_gives hgives]
      exact .wrapped hgives hout (hgives.mayOverflow ha hb hout) (c.type.contains_wrap n)
        (hsize ▸ c.type.wrap_modEq n)

/-- The least value of a signed type divided by minus one overflows, and wraps around to itself. -/
theorem binary_follows_least :
    let c : LoadedClass :=
      ⟨⟨"Level", none, .i8, .everywhere, .everywhere, ⟨[], []⟩, []⟩, []⟩
    c.type.contains (-128) = true ∧ c.type.contains (-1) = true ∧
      Follows c .div (-128) (-1) (.error (.overflow .div (-128) (-1) 128 .i8)) (.ok ⟨c, -128⟩) :=
  ⟨by decide, by decide,
    binary_follows ⟨⟨"Level", none, .i8, .everywhere, .everywhere, ⟨[], []⟩, []⟩, []⟩ .div
      (by decide) (by decide)⟩

end MaskEnum.Object
