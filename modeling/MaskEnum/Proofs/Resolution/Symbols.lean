import MaskEnum.Proofs.Resolution.Invariant
set_option autoImplicit false

/-!
# Symbols of resolved values

A value stays symbolic only because of constants that have no value yet, and its formula reads
their names. Each of them is an identifier and no keyword, so a program can read it.

## Main definitions

* `MaskEnum.Value.Readable` — a value whose formula, if it is symbolic, reads usable names only.

## Main results

* `MaskEnum.resolveUnit_readable` — the values of a resolved unit are such.
* `MaskEnum.Value.Readable.exists_known` — a value without symbols is known.
-/

namespace MaskEnum

/-- A symbolic value reads a name, and all names that it reads can be used by a program. -/
def Value.Readable (v : Value) : Prop :=
  ∀ f, v = .symbolic f → f.names ≠ [] ∧ ∀ name ∈ f.names, Generated.isUsable name = true

/-- A value that reads no names is known. -/
theorem Value.Readable.exists_known {v : Value} (h : v.Readable) (hnames : v.formula.names = []) :
    ∃ n, v = .known n := by
  cases v with
  | known n => exact ⟨n, rfl⟩
  | symbolic f => exact absurd hnames (h f rfl).1

/-- The names that a value reads are usable. -/
theorem Value.Readable.isUsable {v : Value} (h : v.Readable) {name : String}
    (hname : name ∈ v.formula.names) : Generated.isUsable name = true := by
  cases v with
  | known n => cases hname
  | symbolic f => exact (h f rfl).2 name hname

namespace Resolution

/-- A value of some names, and of none only if it is known. -/
theorem readable_of_names {v : Value} {names : List String} (hne : names ≠ [])
    (hv : v.formula.names = names) (h : ∀ name ∈ names, Generated.isUsable name = true) :
    v.Readable := by
  rintro f rfl
  subst hv
  exact ⟨hne, h⟩

/-- An operator reads the names of both its operands. -/
theorem apply_readable {op : Operator} {x y z : Value} {t : IntType} (hx : x.Readable)
    (hy : y.Readable) (h : apply op x y t = .ok z) : z.Readable := by
  unfold apply at h
  split at h
  · split at h
    · obtain rfl := Except.ok.inj h
      exact nofun
    · cases h
  · next hsymbolic =>
    obtain rfl := Except.ok.inj h
    refine readable_of_names (fun hnil => ?_) rfl fun name hname => ?_
    · -- both operands would be known
      obtain ⟨hl, hr⟩ := List.append_eq_nil_iff.mp hnil
      obtain ⟨a, rfl⟩ := hx.exists_known hl
      obtain ⟨b, rfl⟩ := hy.exists_known hr
      exact hsymbolic a b rfl rfl
    · rcases List.mem_append.mp hname with hname | hname
      · exact hx.isUsable hname
      · exact hy.isUsable hname

/-- A cast of a formula, checked or left out, has the names of that formula. -/
theorem names_of_cast {f : Formula} {source target : IntType} {v : Value}
    (h : cast (.symbolic f) source target = .ok v) : v.formula.names = f.names := by
  simp only [cast] at h
  split_ifs at h <;> exact Except.ok.inj h ▸ rfl

/-- A cast reads the names of its operand. -/
theorem cast_readable {x y : Value} {source target : IntType} (hx : x.Readable)
    (h : cast x source target = .ok y) : y.Readable := by
  cases x with
  | known n =>
    obtain ⟨-, -, rfl⟩ := cast_known_eq_ok.mp h
    exact nofun
  | symbolic f => exact readable_of_names (hx f rfl).1 (names_of_cast h) (hx f rfl).2

/-- Reading usable names is an invariant of resolution, if external constants are identifiers. -/
theorem readable_invariant (environment : Environment) :
    Invariant environment (Generated.isIdentifier · = true) fun _ v => v.Readable where
  known _ := nofun
  apply hx hy h := apply_readable hx hy h
  cast hx h := cast_readable hx h
  constant {name _ _ _} _ hkeyword hname h := by
    have husable : Generated.isUsable name = true := by
      rw [Generated.isUsable, hname, hkeyword]
      rfl
    exact readable_of_names (List.cons_ne_nil name []) (names_of_cast h)
      (List.forall_mem_singleton.mpr husable)

end Resolution

/-- **Symbols.** The values of a resolved unit read names that a program can use, if the external
constants in its initializers are identifiers. -/
theorem resolveUnit_readable {unit : List EnumDecl} {environment : Environment}
    {rs : List ResolvedEnum}
    (hunit : ∀ e ∈ unit, e.AllConstants (Generated.isIdentifier · = true))
    (h : resolveUnit unit environment = .ok rs) : ∀ r ∈ rs, ∀ v ∈ r.variants, v.value.Readable :=
  resolveUnit_all (Resolution.readable_invariant environment) hunit h

end MaskEnum
