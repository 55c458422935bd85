import MaskEnum.Proofs.Resolution.Invariant
set_option autoImplicit false

/-!
# Resolved values lie in their type

Every value that a variant gets is an integer in the range of the wrapped type, or a formula whose
value is checked against that type when it is evaluated. That is what allows a cast of such a
formula to its own type to be left out.

## Main definitions

* `MaskEnum.Value.Fits` — an integer of a type, or a formula checked against it.
* `MaskEnum.ResolvedEnum.Fits` — an enumeration all of whose values fit its type.

## Main results

* `MaskEnum.Value.Fits.contains_of_eval` — a value that fits a type evaluates inside its range.
* `MaskEnum.resolveEnum_fits`, `MaskEnum.resolveUnit_fits` — resolved values fit their types.
-/

namespace MaskEnum

/-- The value is an integer of the type `t`, or a formula whose value is checked against `t`. -/
def Value.Fits (t : IntType) : Value → Prop
  | .known n => t.contains n = true
  | .symbolic f => f.checkedType? = some t

/-- All values of the enumeration fit the type it wraps. -/
def ResolvedEnum.Fits (r : ResolvedEnum) : Prop := r.All fun t v => v.Fits t

/-- A value that fits a type evaluates inside the range of the type. -/
theorem Value.Fits.contains_of_eval {ε : Type} {read : String → Except ε Int}
    {fault : ArithFault → ε} {t : IntType} {v : Value} {n : Int} (hv : v.Fits t)
    (h : v.formula.eval read fault = .ok n) : t.contains n = true := by
  cases v with
  | known m =>
    obtain rfl : m = n := Except.ok.inj h
    exact hv
  | symbolic f => exact Formula.contains_of_eval hv h

/-- A formula is an operator or a cast exactly if it has a type against which it is checked. -/
theorem Formula.isChecked_eq (f : Formula) : f.isChecked = f.checkedType?.isSome := by
  cases f <;> rfl

namespace Resolution

/-! ## One value -/

/-- An operator gives a value of the type in which it is applied. -/
theorem apply_fits {op : Operator} {x y z : Value} {t : IntType} (h : apply op x y t = .ok z) :
    z.Fits t := by
  unfold apply at h
  split at h
  · split at h
    · next hn =>
      obtain rfl := Except.ok.inj h
      exact Operator.contains_of_checked hn
    · cases h
  · obtain rfl := Except.ok.inj h
    rfl

/-- A cast gives a value of its target, if a formula that is checked at all is checked against the
source. -/
theorem cast_fits {x y : Value} {source target : IntType}
    (hx : ∀ f t, x = .symbolic f → f.checkedType? = some t → t = source)
    (h : cast x source target = .ok y) : y.Fits target := by
  cases x with
  | known n =>
    simp only [cast] at h
    split at h
    · next hn =>
      obtain rfl := Except.ok.inj h
      exact (checkedCast_eq_ok.mp hn).2.1
    · cases h
  | symbolic f =>
    simp only [cast] at h
    split_ifs at h with hc
    · obtain rfl := Except.ok.inj h
      obtain ⟨t, ht⟩ := Option.isSome_iff_exists.mp (Formula.isChecked_eq f ▸ hc.2)
      show f.checkedType? = some target
      rw [ht, hx f t rfl ht, hc.1]
    · obtain rfl := Except.ok.inj h
      rfl

/-- What a cast has to know of a value that fits the source. -/
theorem eq_of_fits {x : Value} {source : IntType} (hx : x.Fits source) (f : Formula) (t : IntType)
    (hf : x = .symbolic f) (ht : f.checkedType? = some t) : t = source := by
  subst hf
  exact Option.some.inj (ht.symm.trans hx)

/-- Fitting is an invariant of resolution. -/
theorem fits_invariant (environment : Environment) :
    Invariant environment (fun _ => True) fun t v => v.Fits t where
  known h := h
  apply _ _ h := apply_fits h
  cast hx h := cast_fits (eq_of_fits hx) h
  constant _ _ _ h := by
    refine cast_fits (fun f t hf ht => ?_) h
    obtain rfl := Value.symbolic.inj hf
    cases ht

end Resolution

/-! ## Enumerations and units -/

variable {unit : List EnumDecl} {environment : Environment}

/-- Of every constant, nothing is required. -/
theorem allConstants_true (e : EnumDecl) : e.AllConstants fun _ => True :=
  fun _ _ _ _ _ _ => trivial

/-- The values of a resolved enumeration fit its type, if those of the others do theirs. -/
theorem resolveEnum_fits {decl : EnumDecl} {find : EnumPath → Option ResolvedEnum}
    {r : ResolvedEnum} (hfind : ∀ path r, find path = some r → r.Fits)
    (h : resolveEnum decl environment find = .ok r) : r.Fits :=
  resolveEnum_all (Resolution.fits_invariant environment) (allConstants_true decl) hfind h

/-- Paths find fitting enumerations if the table holds no others. -/
theorem fits_of_resolvedTarget {t : Table QualifiedName ResolvedEnum} {m : Option String}
    (ht : ∀ q r, t.get? q = some r → r.Fits) :
    ∀ path r, resolvedTarget unit t m path = some r → r.Fits :=
  all_of_resolvedTarget ht

/-- The values of every enumeration of a resolved unit fit the type it wraps. -/
theorem resolveUnit_fits {rs : List ResolvedEnum} (h : resolveUnit unit environment = .ok rs) :
    ∀ r ∈ rs, r.Fits :=
  resolveUnit_all (Resolution.fits_invariant environment) (fun e _ => allConstants_true e) h

end MaskEnum
