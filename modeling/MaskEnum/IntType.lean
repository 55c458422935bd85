set_option autoImplicit false

/-!
# Fixed-width integer types

The twelve two's complement types that a declaration may wrap. A value of a type is an integer of
its range; the word-sized types are 64 bits wide.

## Main definitions

* `MaskEnum.IntType` — the types, with `bits`, `signed`, `min`, `max` and `name`.
* `MaskEnum.IntType.contains` — whether an integer lies in the range.
* `MaskEnum.IntType.wrap` — the integer of the range that is congruent modulo the number of values.
* `MaskEnum.IntType.ofName?` — the type of a name.
-/

namespace MaskEnum

/-- A fixed-width integer type. -/
inductive IntType where
  | u8 | u16 | u32 | u64 | u128 | usize
  | i8 | i16 | i32 | i64 | i128 | isize
  deriving DecidableEq, Repr, Inhabited

namespace IntType

/-- The width in bits. -/
def bits : IntType → Nat
  | u8 | i8 => 8
  | u16 | i16 => 16
  | u32 | i32 => 32
  | u64 | i64 | usize | isize => 64
  | u128 | i128 => 128

/-- Whether the type has negative values. -/
def signed : IntType → Bool
  | u8 | u16 | u32 | u64 | u128 | usize => false
  | i8 | i16 | i32 | i64 | i128 | isize => true

/-- The name as written in declarations. -/
def name : IntType → String
  | u8 => "u8" | u16 => "u16" | u32 => "u32" | u64 => "u64" | u128 => "u128" | usize => "usize"
  | i8 => "i8" | i16 => "i16" | i32 => "i32" | i64 => "i64" | i128 => "i128" | isize => "isize"

/-- All types, the unsigned ones first. -/
def all : List IntType :=
  [u8, u16, u32, u64, u128, usize, i8, i16, i32, i64, i128, isize]

/-- The type of a name. -/
def ofName? (s : String) : Option IntType := all.find? (·.name == s)

/-- The number of values. -/
def size (t : IntType) : Nat := 1 <<< t.bits

/-- Half the number of values. -/
def half (t : IntType) : Nat := 1 <<< (t.bits - 1)

/-- The least value. -/
def min (t : IntType) : Int := if t.signed then -(t.half : Int) else 0

/-- The greatest value. -/
def max (t : IntType) : Int := if t.signed then (t.half : Int) - 1 else (t.size : Int) - 1

/-- Whether an integer is a value of the type. -/
def contains (t : IntType) (n : Int) : Bool := t.min ≤ n && n ≤ t.max

/-- The value of the type that is congruent to `n` modulo the number of values. -/
def wrap (t : IntType) (n : Int) : Int :=
  let residue := n % (t.size : Int)
  if t.signed && t.max < residue then residue - (t.size : Int) else residue

end IntType

/-- The names of the floating-point types, which no declaration may use. -/
def isFloatTypeName (s : String) : Bool := s == "f32" || s == "f64"

end MaskEnum
