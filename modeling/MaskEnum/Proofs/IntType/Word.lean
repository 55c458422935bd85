import Mathlib.Data.Int.ModEq
import MaskEnum.Operator
import MaskEnum.Proofs.IntType.Range
set_option autoImplicit false

/-!
# Integers as words

Modulo `2 ^ w` an integer is a word of `w` bits, and a word read back as signed or unsigned, as the
type has it, is the one integer of the range in its residue class. Reducing to words commutes with
the ring operations and with the digit-wise ones; this is why exact arithmetic followed by one
wrapping is arithmetic on words.

## Main definitions

* `MaskEnum.IntType.encode`, `MaskEnum.IntType.decode` — the word of an integer, and the integer of
  a word.

## Main results

* `MaskEnum.IntType.decode_encode` — wrapping is reducing to a word and reading it back.
* `MaskEnum.Bitwise.ofInt_and`, `MaskEnum.Bitwise.ofInt_or`, `MaskEnum.Bitwise.ofInt_xor` — the
  digit-wise operations on integers are those on words.
-/

namespace MaskEnum

namespace IntType

variable {t : IntType} {n : Int}

/-- The word of an integer: its last `w` binary digits in two's complement. -/
def encode (t : IntType) (n : Int) : BitVec t.bits := BitVec.ofInt t.bits n

/-- The integer that a word stands for in a type. -/
def decode (t : IntType) (v : BitVec t.bits) : Int := if t.signed then v.toInt else v.toNat

/-- Reducing an integer to a word and reading it back wraps it. -/
theorem decode_encode (t : IntType) (n : Int) : t.decode (t.encode n) = t.wrap n := by
  cases h : t.signed with
  | true => rw [decode, if_pos h, encode, BitVec.toInt_ofInt, wrap_eq_bmod h, size_eq]
  | false =>
    have hp : (0 : Int) < t.size := by
      exact_mod_cast t.size_pos
    rw [decode, if_neg (by simp [h]), encode, BitVec.toNat_ofInt, wrap_eq_emod h, size_eq] at *
    exact Int.toNat_of_nonneg (Int.emod_nonneg n hp.ne')

/-- An integer of the range survives the way to its word and back. -/
theorem decode_encode_of_contains (h : t.contains n = true) : t.decode (t.encode n) = n := by
  rw [decode_encode, wrap_of_contains h]

/-- In a signed type the word of an integer of the range, read as signed, is the integer. -/
theorem toInt_encode (hs : t.signed = true) (h : t.contains n = true) :
    (t.encode n).toInt = n := by
  have hd := decode_encode_of_contains h
  rwa [decode, if_pos hs] at hd

/-- In an unsigned type the word of an integer of the range, read as unsigned, is the integer. -/
theorem toNat_encode (hs : t.signed = false) (h : t.contains n = true) :
    ((t.encode n).toNat : Int) = n := by
  have hd := decode_encode_of_contains h
  rwa [decode, if_neg (by simp [hs])] at hd

/-- The word of an opposite is the opposite word. -/
theorem encode_neg (t : IntType) (n : Int) : t.encode (-n) = -t.encode n :=
  BitVec.ofInt_neg

/-- The word of a difference is the difference of the words. -/
theorem encode_sub (t : IntType) (m n : Int) : t.encode (m - n) = t.encode m - t.encode n := by
  rw [sub_eq_add_neg, BitVec.sub_eq_add_neg, ← encode_neg]
  exact BitVec.ofInt_add m (-n)

end IntType

/-! ## Digit-wise operations -/

namespace Bitwise

variable {w : Nat}

/-- The word of the digits set in one natural number and clear in another. -/
theorem ofNat_andNot (m n : Nat) :
    BitVec.ofNat w (andNot m n) = BitVec.ofNat w m &&& ~~~BitVec.ofNat w n := by
  apply BitVec.eq_of_getLsbD_eq
  intro i hi
  simp only [andNot, BitVec.getLsbD_ofNat, BitVec.getLsbD_and, BitVec.getLsbD_not,
    Nat.testBit_xor, Nat.testBit_and, hi, decide_true, Bool.true_and]
  cases m.testBit i <;> cases n.testBit i <;> rfl

/-- Conjunction of integers is conjunction of their words. -/
theorem ofInt_and (a b : Int) :
    BitVec.ofInt w (and a b) = BitVec.ofInt w a &&& BitVec.ofInt w b := by
  cases a with
  | ofNat m =>
    cases b with
    | ofNat n => simp [and]
    | negSucc n => simp [and, ofNat_andNot]
  | negSucc m =>
    cases b with
    | ofNat n => simp [and, ofNat_andNot, BitVec.and_comm]
    | negSucc n => simp [and, BitVec.not_or]

/-- Disjunction of integers is disjunction of their words. -/
theorem ofInt_or (a b : Int) :
    BitVec.ofInt w (or a b) = BitVec.ofInt w a ||| BitVec.ofInt w b := by
  cases a with
  | ofNat m =>
    cases b with
    | ofNat n => simp [or]
    | negSucc n => simp [or, ofNat_andNot, BitVec.not_and, BitVec.or_comm]
  | negSucc m =>
    cases b with
    | ofNat n => simp [or, ofNat_andNot, BitVec.not_and]
    | negSucc n => simp [or, BitVec.not_and]

/-- Exclusive disjunction of integers is exclusive disjunction of their words. -/
theorem ofInt_xor (a b : Int) :
    BitVec.ofInt w (xor a b) = BitVec.ofInt w a ^^^ BitVec.ofInt w b := by
  cases a with
  | ofNat m =>
    cases b with
    | ofNat n => simp [xor]
    | negSucc n => simp [xor, BitVec.not_xor_right]
  | negSucc m =>
    cases b with
    | ofNat n => simp [xor, BitVec.not_xor_left]
    | negSucc n => simp [xor, ← BitVec.not_xor_left, ← BitVec.not_xor_right]

end Bitwise
end MaskEnum
