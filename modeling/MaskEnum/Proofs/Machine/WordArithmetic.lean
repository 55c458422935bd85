import Mathlib.Data.Int.ModEq
import MaskEnum.Machine
import MaskEnum.Proofs.IntType.Word
import MaskEnum.Proofs.Operator.Exact
set_option autoImplicit false

/-!
# Values compute as words

The operators of generated values are those of two's complement words of the width of their type.
Exact arithmetic on unbounded integers followed by one wrapping gives the same raw integer as the
word operation, for signed and unsigned types and for every operator; an operator fails on exactly
the right operands for which the word operation has no meaning.

## Main definitions

* `MaskEnum.Operator.onWords` — an operator as an operation on words.

## Main results

* `MaskEnum.Operator.wrapping_eq` — wrapping arithmetic is arithmetic on words.
* `MaskEnum.Object.operators_eq_words` — so are all operators of values, with the reduction of
  arbitrary integers and the reading of single bits.
-/

namespace MaskEnum

/-! ## Reading words back -/

namespace IntType

variable {t : IntType} {n : Int}

/-- The integer of a word is in range. -/
theorem contains_decode (t : IntType) (v : BitVec t.bits) : t.contains (t.decode v) = true := by
  cases h : t.signed with
  | true =>
    rw [contains_iff_of_signed h, decode, if_pos h, half_eq]
    exact ⟨by exact_mod_cast v.le_toInt, by exact_mod_cast BitVec.toInt_lt⟩
  | false =>
    rw [contains_iff_of_unsigned h, decode, if_neg (by simp [h]), size_eq]
    exact ⟨Int.natCast_nonneg _, by exact_mod_cast v.isLt⟩

/-- Wrapping leaves the integer of a word as it is. -/
theorem wrap_decode (t : IntType) (v : BitVec t.bits) : t.wrap (t.decode v) = t.decode v :=
  wrap_of_contains (t.contains_decode v)

/-- An integer of the range lies strictly between `-2 ^ w` and `2 ^ w`. -/
theorem abs_lt_size (h : t.contains n = true) : -(t.size : Int) ≤ n ∧ n < t.size := by
  have hs := t.size_eq_two_mul_half
  cases ht : t.signed with
  | true =>
    rw [contains_iff_of_signed ht] at h
    omega
  | false =>
    rw [contains_iff_of_unsigned ht] at h
    omega

/-- The word of a shift amount is the amount. -/
theorem toNat_encode_amount (t : IntType) (h : 0 ≤ n ∧ n < t.bits) :
    (t.encode n).toNat = n.toNat := by
  obtain ⟨k, rfl⟩ := Int.eq_ofNat_of_zero_le h.1
  have hk : k < 2 ^ t.bits := lt_trans (by exact_mod_cast h.2) Nat.lt_two_pow_self
  simp [encode, Nat.mod_eq_of_lt hk]

end IntType

/-! ## Operators -/

namespace Operator

variable {t : IntType} {a b : Int}

/-- An operator as an operation on words, read as signed or unsigned as the type has it: division
truncates, the remainder goes with it, and a right shift brings in copies of the sign. -/
def onWords (op : Operator) (t : IntType) (v w : BitVec t.bits) : BitVec t.bits :=
  match op with
  | or => v ||| w
  | and => v &&& w
  | xor => v ^^^ w
  | add => v + w
  | sub => v - w
  | mul => v * w
  | div => if t.signed then v.sdiv w else v.udiv w
  | rem => if t.signed then v.srem w else v.umod w
  | shl => v <<< w.toNat
  | shr => if t.signed then v.sshiftRight w.toNat else v >>> w.toNat

/-- Truncating division in a type is division of words; in a signed type only the least value
divided by `-1` leaves the range, and wraps around to itself. -/
theorem wrap_tdiv (ha : t.contains a = true) (hb : t.contains b = true) :
    t.wrap (a.tdiv b) = t.decode (onWords div t (t.encode a) (t.encode b)) := by
  cases hs : t.signed with
  | true =>
    simp only [onWords, hs, if_true, IntType.decode]
    -- the quotient of words wraps at the same place as the type does
    rw [BitVec.toInt_sdiv, IntType.toInt_encode hs ha, IntType.toInt_encode hs hb,
      IntType.wrap_eq_bmod hs, IntType.size_eq]
  | false =>
    have hd : a.tdiv b = t.decode ((t.encode a).udiv (t.encode b)) := by
      rw [IntType.decode, if_neg (by simp [hs]), BitVec.udiv_eq, BitVec.toNat_udiv,
        Int.ofNat_tdiv, IntType.toNat_encode hs ha, IntType.toNat_encode hs hb]
    rw [hd, IntType.wrap_decode]
    simp [onWords, hs]

/-- The remainder of truncating division in a type is that of words; it never leaves the range. -/
theorem wrap_tmod (ha : t.contains a = true) (hb : t.contains b = true) :
    t.wrap (a.tmod b) = t.decode (onWords rem t (t.encode a) (t.encode b)) := by
  cases hs : t.signed with
  | true =>
    have hd : a.tmod b = t.decode ((t.encode a).srem (t.encode b)) := by
      rw [IntType.decode, if_pos hs, BitVec.toInt_srem, IntType.toInt_encode hs ha,
        IntType.toInt_encode hs hb]
    rw [hd, IntType.wrap_decode]
    simp [onWords, hs]
  | false =>
    have hd : a.tmod b = t.decode ((t.encode a).umod (t.encode b)) := by
      rw [IntType.decode, if_neg (by simp [hs]), BitVec.umod_eq, BitVec.toNat_umod,
        Int.ofNat_tmod, IntType.toNat_encode hs ha, IntType.toNat_encode hs hb]
    rw [hd, IntType.wrap_decode]
    simp [onWords, hs]

/-- A left shift in a type is that of words. -/
theorem wrap_shl (hb : 0 ≤ b ∧ b < t.bits) :
    t.wrap (a * (1 <<< b.toNat : Nat)) = t.decode (onWords shl t (t.encode a) (t.encode b)) := by
  have hw : t.encode (a * (1 <<< b.toNat : Nat)) = t.encode a <<< b.toNat := by
    rw [Nat.one_shiftLeft, BitVec.shiftLeft_eq_mul_twoPow, IntType.encode, BitVec.ofInt_mul,
      BitVec.ofInt_natCast]
    congr 1
    apply BitVec.eq_of_toNat_eq
    rw [BitVec.toNat_ofNat, BitVec.toNat_twoPow]
  rw [← IntType.decode_encode, hw, onWords, t.toNat_encode_amount hb]

/-- A right shift in a type is that of words: with copies of the sign, or with zeros. -/
theorem wrap_shr (ha : t.contains a = true) (hb : 0 ≤ b ∧ b < t.bits) :
    t.wrap (a / (1 <<< b.toNat : Nat)) = t.decode (onWords shr t (t.encode a) (t.encode b)) := by
  have hn := t.toNat_encode_amount hb
  cases hs : t.signed with
  | true =>
    have hd : a / (1 <<< b.toNat : Nat) = t.decode ((t.encode a).sshiftRight b.toNat) := by
      rw [IntType.decode, if_pos hs, BitVec.toInt_sshiftRight, IntType.toInt_encode hs ha,
        Int.shiftRight_eq_div_pow, Nat.one_shiftLeft]
    rw [hd, IntType.wrap_decode]
    simp [onWords, hs, hn]
  | false =>
    have hd : a / (1 <<< b.toNat : Nat) = t.decode (t.encode a >>> b.toNat) := by
      rw [IntType.decode, if_neg (by simp [hs]), BitVec.toNat_ushiftRight,
        Nat.shiftRight_eq_div_pow, Int.natCast_ediv, IntType.toNat_encode hs ha,
        Nat.one_shiftLeft]
    rw [hd, IntType.wrap_decode]
    simp [onWords, hs, hn]

/-- Wrapping arithmetic on integers of a type is arithmetic on their words.

**Proof sketch.** Reducing to words commutes with the ring operations and the digit-wise ones, so
there wrapping once at the end is enough. Division, remainder and right shift do not commute with
it; they are compared on the integers that the words stand for. -/
theorem wrapping_eq (op : Operator) (ha : t.contains a = true) (hb : t.contains b = true) :
    op.wrapping a b t =
      match op.refusal? b t with
      | none => .ok (t.decode (op.onWords t (t.encode a) (t.encode b)))
      | some fault => .error fault := by
  have hring : ∀ {n : Int} {v : BitVec t.bits}, t.encode n = v → t.wrap n = t.decode v := by
    intro n v h
    rw [← h, IntType.decode_encode]
  cases op with
  | or => exact congrArg Except.ok (hring (Bitwise.ofInt_or a b))
  | and => exact congrArg Except.ok (hring (Bitwise.ofInt_and a b))
  | xor => exact congrArg Except.ok (hring (Bitwise.ofInt_xor a b))
  | add => exact congrArg Except.ok (hring (BitVec.ofInt_add a b))
  | sub => exact congrArg Except.ok (hring (t.encode_sub a b))
  | mul => exact congrArg Except.ok (hring (BitVec.ofInt_mul a b))
  | div =>
    by_cases h0 : b = 0
    · simp [wrapping, exact, refusal?, h0, Except.map]
    · simp [wrapping, exact, refusal?, h0, Except.map, wrap_tdiv ha hb]
  | rem =>
    by_cases h0 : b = 0
    · simp [wrapping, exact, refusal?, h0, Except.map]
    · simp [wrapping, exact, refusal?, h0, Except.map, wrap_tmod ha hb]
  | shl =>
    by_cases h : 0 ≤ b ∧ b < t.bits
    · simp only [wrapping, exact, refusal?, if_pos h, Except.map, wrap_shl h]
    · simp only [wrapping, exact, refusal?, if_neg h, Except.map]
  | shr =>
    by_cases h : 0 ≤ b ∧ b < t.bits
    · simp only [wrapping, exact, refusal?, if_pos h, Except.map, wrap_shr ha h]
    · simp only [wrapping, exact, refusal?, if_neg h, Except.map]

end Operator

/-! ## Single bits -/

/-- A bit of the digits of an integer, inside the width of a type, is the bit of its word. -/
theorem IntType.getLsbD_encode {t : IntType} {i : Nat} (hi : i < t.bits) (n : Int) :
    ((n >>> i) % 2 == 1) = (t.encode n).getLsbD i := by
  cases n with
  | ofNat m =>
    have hm : (Int.ofNat m >>> i) % 2 = ((m >>> i % 2 : Nat) : Int) := rfl
    rw [hm, encode, Int.ofNat_eq_natCast, BitVec.ofInt_natCast, BitVec.getLsbD_ofNat,
      Nat.testBit_eq_decide_div_mod_eq, ← Nat.shiftRight_eq_div_pow, decide_eq_true hi,
      Bool.true_and, Bool.beq_eq_decide_eq]
    exact decide_eq_decide.mpr (by omega)
  | negSucc m =>
    rw [Int.negSucc_shiftRight, encode, BitVec.ofInt_negSucc_eq_not_ofNat, BitVec.getLsbD_not,
      BitVec.getLsbD_ofNat, Nat.testBit_eq_decide_div_mod_eq, ← Nat.shiftRight_eq_div_pow,
      decide_eq_true hi, Bool.true_and, Bool.true_and, Bool.beq_eq_decide_eq, ← decide_not]
    exact decide_eq_decide.mpr (by omega)

/-- Beyond the width of a type, every digit of an integer of the range is its sign. -/
theorem IntType.digit_eq_sign {t : IntType} {i : Nat} {n : Int} (hi : t.bits ≤ i)
    (h : t.contains n = true) : ((n >>> i) % 2 == 1) = decide (n < 0) := by
  obtain ⟨hl, hu⟩ := abs_lt_size h
  have hp : (t.size : Int) ≤ 2 ^ i := by
    rw [size_eq]
    exact_mod_cast Nat.pow_le_pow_right Nat.two_pos hi
  rw [Int.shiftRight_eq_div_pow, Bool.beq_eq_decide_eq]
  push_cast
  rcases lt_or_ge n 0 with hn | hn
  · have hq : n / 2 ^ i = -1 := by
      have hs := t.size_pos
      rw [Int.ediv_eq_iff_of_pos (by omega)]
      omega
    rw [hq]
    simp [hn]
  · rw [Int.ediv_eq_zero_of_lt hn (by omega)]
    simp [not_lt.mpr hn]

/-! ## Values -/

namespace Object

variable {c : LoadedClass} {n : Int}

/-- An integer of the range makes a value. -/
theorem create_of_contains (h : c.type.contains n = true) : create c n = .ok ⟨c, n⟩ := by
  rw [create, if_pos h]

/-- Any integer makes a value after wrapping. -/
theorem ofRaw_eq (c : LoadedClass) (n : Int) : ofRaw c n = .ok ⟨c, c.type.wrap n⟩ :=
  create_of_contains (c.type.contains_wrap n)

/-- The integer that a binary operator computes from two values of one class. -/
theorem operate_mk (c : LoadedClass) (op : Operator) (a b : Int) :
    operate op ⟨c, a⟩ ⟨c, b⟩ = (op.wrapping a b c.type).mapError .arithmetic := by
  have hs : sameType ⟨c, a⟩ ⟨c, b⟩ = true := by
    simp [sameType]
  rw [operate, if_pos hs]

/-- The integer that a binary operator computes lies in the range of the left operand's type. -/
theorem contains_of_operate {op : Operator} {a b : Object} (h : operate op a b = .ok n) :
    a.type.type.contains n = true := by
  unfold operate at h
  split_ifs at h
  obtain hwrapping := mapError_eq_ok.mp h
  unfold Operator.wrapping at hwrapping
  cases hexact : op.exact a.raw b.raw a.type.type with
  | ok result =>
    rw [hexact] at hwrapping
    exact Except.ok.inj hwrapping ▸ a.type.type.contains_wrap result
  | error fault =>
    rw [hexact] at hwrapping
    cases hwrapping

/-- The value form of an operator gives the computed integer as a new object: it always lies in the
range that new objects are checked for. -/
theorem binary_eq (op : Operator) (a b : Object) :
    binary op a b = (operate op a b).map fun raw => { a with raw } := by
  cases hraw : operate op a b with
  | ok raw =>
    rw [binary, hraw]
    exact create_of_contains (contains_of_operate hraw)
  | error fault =>
    rw [binary, hraw]
    rfl

/-- The integer that a binary operator computes, which the in-place form stores: that of the
operation on words, or the refusal of the right operand. -/
theorem operate_eq (op : Operator) {a b : Int} (ha : c.type.contains a = true)
    (hb : c.type.contains b = true) :
    operate op ⟨c, a⟩ ⟨c, b⟩ =
      match op.refusal? b c.type with
      | none => .ok (c.type.decode (op.onWords c.type (c.type.encode a) (c.type.encode b)))
      | some fault => .error (.arithmetic fault) := by
  rw [operate_mk, Operator.wrapping_eq op ha hb]
  cases op.refusal? b c.type <;> rfl

/-- Every value operator is the operator of two's complement words: the binary ones fail on just
the right operands that the word operation refuses, and complement and opposite never; any integer
is reduced to the one of the range with its residue; and the digits of a value are the bits of its
word, followed by copies of its sign. -/
theorem operators_eq_words (c : LoadedClass) (a b : Int) (ha : c.type.contains a = true)
    (hb : c.type.contains b = true) :
    (∀ op : Operator,
      operate op ⟨c, a⟩ ⟨c, b⟩ =
          (match op.refusal? b c.type with
          | none => .ok (c.type.decode (op.onWords c.type (c.type.encode a) (c.type.encode b)))
          | some fault => .error (.arithmetic fault)) ∧
        binary op ⟨c, a⟩ ⟨c, b⟩ =
          (match op.refusal? b c.type with
          | none =>
            .ok ⟨c, c.type.decode (op.onWords c.type (c.type.encode a) (c.type.encode b))⟩
          | some fault => .error (.arithmetic fault))) ∧
    complement ⟨c, a⟩ = .ok ⟨c, c.type.decode (~~~c.type.encode a)⟩ ∧
    (c.type.signed = true → negate ⟨c, a⟩ = .ok ⟨c, c.type.decode (-c.type.encode a)⟩) ∧
    (∀ x : Int, ∃ r : Int, ofRaw c x = .ok ⟨c, r⟩ ∧ c.type.contains r = true ∧
      r ≡ x [ZMOD 2 ^ c.type.bits] ∧
      ∀ r', c.type.contains r' = true → r' ≡ x [ZMOD 2 ^ c.type.bits] → r' = r) ∧
    (c.definition.isOpen = true → ∀ i : Int, 0 ≤ i →
      bit ⟨c, a⟩ i =
        .ok (if i < c.type.bits then (c.type.encode a).getLsbD i.toNat else decide (a < 0))) := by
  refine ⟨fun op => ⟨operate_eq op ha hb, ?_⟩, ?_, fun hs => ?_, fun x => ?_, fun ho i hi => ?_⟩
  · rw [binary, operate_eq op ha hb]
    cases op.refusal? b c.type with
    | none => exact create_of_contains (c.type.contains_decode _)
    | some fault => rfl
  · have hw : c.type.encode (-a - 1) = ~~~c.type.encode a := by
      rw [IntType.encode_sub, IntType.encode_neg, BitVec.not_eq_neg_add]
      rfl
    rw [complement, MaskEnum.complement, ← hw, IntType.decode_encode]
    exact create_of_contains (c.type.contains_wrap _)
  · rw [negate, if_pos hs, ofRaw_eq, zero_sub, ← IntType.encode_neg, IntType.decode_encode]
  · have hz : (c.type.size : Int) = 2 ^ c.type.bits := by
      exact_mod_cast c.type.size_eq
    rw [← hz]
    refine ⟨c.type.wrap x, ofRaw_eq c x, c.type.contains_wrap x, c.type.wrap_modEq x, ?_⟩
    intro r' hr' hx
    exact IntType.eq_wrap_of_modEq hr' hx
  · rw [bit, if_neg (by simp [ho]), if_neg (by omega)]
    by_cases hw : i < c.type.bits
    · have hn : i.toNat < c.type.bits := by
        omega
      rw [if_pos hw, ← IntType.getLsbD_encode hn]
    · have hn : c.type.bits ≤ i.toNat := by
        omega
      rw [if_neg hw, ← IntType.digit_eq_sign hn ha]

/-- The least value of a signed type divided by minus one is the least value again. -/
theorem operators_eq_words_least_div :
    let c : LoadedClass :=
      ⟨⟨"Level", none, .i8, .everywhere, .everywhere, ⟨[], []⟩, []⟩, []⟩
    c.type.contains (-128) = true ∧ c.type.contains (-1) = true ∧
      binary .div ⟨c, -128⟩ ⟨c, -1⟩ = .ok ⟨c, -128⟩ :=
  ⟨by decide, by decide,
    ((operators_eq_words
      ⟨⟨"Level", none, .i8, .everywhere, .everywhere, ⟨[], []⟩, []⟩, []⟩ (-128) (-1)
      (by decide) (by decide)).1 .div).2.trans (by decide)⟩

end Object
end MaskEnum
