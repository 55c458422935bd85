import MaskEnum.Loaded
import MaskEnum.Proofs.Result
import MaskEnum.Proofs.Table
set_option autoImplicit false

/-!
# Evaluating formulas

A formula is evaluated when generated code is loaded, with its names looked up in a table. A
checked operator has a result only inside the range of its type, and so has a checked cast; hence
the value of an operator or a cast always lies in the type it was checked against.

## Main definitions

* `MaskEnum.Formula.evalIn` — the value of a formula with the constants of a table.
* `MaskEnum.Formula.checkedType?` — the type against which the value of a formula is checked.

## Main results

* `MaskEnum.Formula.eval_apply_eq_ok`, `MaskEnum.Formula.eval_cast_eq_ok` — when an operator and a
  cast have a value.
* `MaskEnum.Formula.contains_of_eval` — the value lies in the type it is checked against.
* `MaskEnum.Formula.eval_congr`, `MaskEnum.Formula.eval_eq_ok_of_read` — names that are read in the
  same way.
-/

namespace MaskEnum

/-! ## Checked arithmetic -/

/-- The result of a checked operator lies in the range of its type. -/
theorem Operator.contains_of_checked {op : Operator} {a b n : Int} {t : IntType}
    (h : op.checked a b t = .ok n) : t.contains n = true := by
  obtain ⟨r, -, hr⟩ := bind_eq_ok.mp h
  split_ifs at hr with hc
  exact Except.ok.inj hr ▸ hc

/-- A checked cast leaves a constant as it is, and succeeds for those that fit both types. -/
theorem checkedCast_eq_ok {a n : Int} {source target : IntType} :
    checkedCast a source target = .ok n ↔
      source.contains a = true ∧ target.contains a = true ∧ n = a := by
  unfold checkedCast
  split_ifs with hs ht
  · exact ⟨nofun, fun h => by simp [h.1] at hs⟩
  · exact ⟨nofun, fun h => by simp [h.2.1] at ht⟩
  · simp only [Bool.not_eq_true', Bool.not_eq_false] at hs ht
    exact ⟨fun h => ⟨hs, ht, (Except.ok.inj h).symm⟩, fun h => h.2.2 ▸ rfl⟩

/-! ## Values of formulas -/

namespace Formula

section Eval

variable {ε : Type} {read : String → Except ε Int} {fault : ArithFault → ε} {n : Int}

/-- An operator has a value if its operands have values on which it succeeds. -/
theorem eval_apply_eq_ok {op : Operator} {left right : Formula} {t : IntType} :
    (apply op left right t).eval read fault = .ok n ↔
      ∃ a b, left.eval read fault = .ok a ∧ right.eval read fault = .ok b ∧
        op.checked a b t = .ok n := by
  simp only [eval, bind_eq_ok, mapError_eq_ok]
  constructor
  · rintro ⟨a, ha, b, hb, h⟩
    exact ⟨a, b, ha, hb, h⟩
  · rintro ⟨a, b, ha, hb, h⟩
    exact ⟨a, ha, b, hb, h⟩

/-- A cast has the value of its operand, if that fits both types. -/
theorem eval_cast_eq_ok {inner : Formula} {source target : IntType} :
    (cast inner source target).eval read fault = .ok n ↔
      inner.eval read fault = .ok n ∧ source.contains n = true ∧ target.contains n = true := by
  simp only [eval, bind_eq_ok, mapError_eq_ok, checkedCast_eq_ok]
  constructor
  · rintro ⟨a, ha, hs, ht, rfl⟩
    exact ⟨ha, hs, ht⟩
  · rintro ⟨ha, hs, ht⟩
    exact ⟨n, ha, hs, ht, rfl⟩

/-- The type against which the value of a formula is checked, if it is. -/
def checkedType? : Formula → Option IntType
  | apply _ _ _ type => some type
  | cast _ _ target => some target
  | int _ | constant _ => none

/-- The value of a formula lies in the type against which it is checked. -/
theorem contains_of_eval {f : Formula} {t : IntType} (ht : f.checkedType? = some t)
    (h : f.eval read fault = .ok n) : t.contains n = true := by
  cases f with
  | int => cases ht
  | constant => cases ht
  | apply op left right type =>
    obtain ⟨a, b, -, -, hn⟩ := eval_apply_eq_ok.mp h
    exact Option.some.inj ht ▸ Operator.contains_of_checked hn
  | cast inner source target =>
    exact Option.some.inj ht ▸ (eval_cast_eq_ok.mp h).2.2

/-- A value does not change where its names stand for the same integers. -/
theorem eval_eq_ok_of_read {read' : String → Except ε Int} {f : Formula}
    (hread : ∀ name ∈ f.names, ∀ m, read name = .ok m → read' name = .ok m)
    (h : f.eval read fault = .ok n) : f.eval read' fault = .ok n := by
  induction f generalizing n with
  | int value => exact h
  | constant name => exact hread name (List.mem_singleton_self name) n h
  | apply op left right type ihl ihr =>
    obtain ⟨hleft, hright⟩ := List.forall_mem_append.mp hread
    obtain ⟨a, b, ha, hb, hn⟩ := eval_apply_eq_ok.mp h
    exact eval_apply_eq_ok.mpr ⟨a, b, ihl hleft ha, ihr hright hb, hn⟩
  | cast inner source target ih =>
    obtain ⟨ha, hs, ht⟩ := eval_cast_eq_ok.mp h
    exact eval_cast_eq_ok.mpr ⟨ih hread ha, hs, ht⟩

/-- A formula is evaluated in the same way where its names are read in the same way. -/
theorem eval_congr {read' : String → Except ε Int} {f : Formula}
    (hread : ∀ name ∈ f.names, read name = read' name) :
    f.eval read fault = f.eval read' fault := by
  induction f with
  | int value => rfl
  | constant name => exact hread name (List.mem_singleton_self name)
  | apply op left right type ihl ihr =>
    obtain ⟨hleft, hright⟩ := List.forall_mem_append.mp hread
    rw [eval, eval, ihl hleft, ihr hright]
  | cast inner source target ih => rw [eval, eval, ih hread]

end Eval

variable {constants : Table String Int}

/-- The constant that a table gives to a name, as loaded code reads it. -/
def readIn (constants : Table String Int) (name : String) : Except LoadFault Int :=
  match constants.get? name with
  | some n => .ok n
  | none => .error (.unbound name)

/-- The value of a formula whose names stand for the constants of a table. -/
def evalIn (constants : Table String Int) (f : Formula) : Except LoadFault Int :=
  f.eval (readIn constants) .arithmetic

/-- A name is read as the constant of the table. -/
theorem readIn_eq_ok {name : String} {n : Int} :
    readIn constants name = .ok n ↔ constants.get? name = some n := by
  unfold readIn
  cases constants.get? name with
  | none => exact ⟨nofun, nofun⟩
  | some m => rw [Except.ok.injEq, Option.some.injEq]

/-- A name has the value that the table gives it. -/
theorem evalIn_constant_eq_ok {name : String} {n : Int} :
    (constant name).evalIn constants = .ok n ↔ constants.get? name = some n :=
  readIn_eq_ok

/-- An operator has a value if its operands have values on which it succeeds. -/
theorem evalIn_apply_eq_ok {op : Operator} {left right : Formula} {t : IntType} {n : Int} :
    (apply op left right t).evalIn constants = .ok n ↔
      ∃ a b, left.evalIn constants = .ok a ∧ right.evalIn constants = .ok b ∧
        op.checked a b t = .ok n :=
  eval_apply_eq_ok

/-- A cast has the value of its operand, if that fits both types. -/
theorem evalIn_cast_eq_ok {inner : Formula} {source target : IntType} {n : Int} :
    (cast inner source target).evalIn constants = .ok n ↔
      inner.evalIn constants = .ok n ∧ source.contains n = true ∧ target.contains n = true :=
  eval_cast_eq_ok

/-- A formula whose names all have constants can only fail in its arithmetic. -/
theorem exists_arithmetic_of_evalIn_error {f : Formula} {fault : LoadFault}
    (hnames : ∀ name ∈ f.names, name ∈ constants.keys)
    (h : f.evalIn constants = .error fault) : ∃ a, fault = .arithmetic a := by
  have hmap : ∀ (r : Except ArithFault Int), r.mapError LoadFault.arithmetic = .error fault →
      ∃ a, fault = .arithmetic a := by
    intro r hr
    cases r with
    | ok n => cases hr
    | error a => exact ⟨a, (Except.error.inj hr).symm⟩
  induction f with
  | int value => cases h
  | constant name =>
    obtain ⟨n, hn⟩ := Option.isSome_iff_exists.mp
      (Table.isSome_get?_iff.mpr (hnames name (List.mem_singleton_self name)))
    rw [evalIn_constant_eq_ok.mpr hn] at h
    cases h
  | apply op left right type ihl ihr =>
    obtain ⟨hleft, hright⟩ := List.forall_mem_append.mp hnames
    rcases bind_eq_error.mp h with h | ⟨a, -, h⟩
    · exact ihl hleft h
    · rcases bind_eq_error.mp h with h | ⟨b, -, h⟩
      · exact ihr hright h
      · exact hmap _ h
  | cast inner source target ih =>
    rcases bind_eq_error.mp h with h | ⟨a, -, h⟩
    · exact ih hnames h
    · exact hmap _ h

end Formula

/-! ## Names -/

/-- Sorting names and dropping repetitions keeps which names there are. -/
theorem mem_sortedNames {name : String} {names : List String} :
    name ∈ sortedNames names ↔ name ∈ names := by
  rw [sortedNames, List.mem_mergeSort, List.mem_eraseDups]

end MaskEnum
