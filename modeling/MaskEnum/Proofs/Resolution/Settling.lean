import Mathlib.Data.List.Forall2
import MaskEnum.Proofs.Resolution.Range
import MaskEnum.Proofs.Resolution.Symbols
set_option autoImplicit false

/-!
# Values that settle

A value that was computed without some of the constants settles once all of them are known: its
formula is evaluated, and gives an integer or fails. Operators and casts respect this. Applied to
what two values settle as, an operator gives what its formula evaluates to, and fails where the
evaluation does; a cast that was left out would have succeeded.

## Main definitions

* `MaskEnum.Value.Settles` — a value becomes an integer once all constants are known.
* `MaskEnum.ResolvedVariant.Settles`, `MaskEnum.ResolvedEnum.Settles` — the same for a variant, and
  for each variant of an enumeration.
* `MaskEnum.Value.Part` — a value whose formula is read wherever that of another is.
* `MaskEnum.Resolution.Agrees` — a step gives what the value of another step settles as.

## Main results

* `MaskEnum.Resolution.Agrees.bind` — chains of steps that agree agree.
* `MaskEnum.Resolution.apply_agrees`, `MaskEnum.Resolution.cast_agrees` — operators and casts.
* `MaskEnum.ResolvedEnum.exists_settles_iff` — when an enumeration settles.
-/

namespace MaskEnum

/-! ## One value -/

/-- What corresponds to something is something. -/
theorem exists_of_rel_some {α β : Type} {R : α → β → Prop} {a : α} {o : Option β}
    (h : Option.Rel R (some a) o) : ∃ b, o = some b ∧ R a b := by
  cases h with
  | some h => exact ⟨_, rfl, h⟩

/-- What corresponds to nothing is nothing. -/
theorem eq_none_of_rel_none {α β : Type} {R : α → β → Prop} {o : Option β}
    (h : Option.Rel R none o) : o = none := by
  cases h
  rfl

variable {constants : Table String Int}

namespace Value

/-- With these constants, the formula of `v` evaluates to the integer `w`. -/
def Settles (constants : Table String Int) (v w : Value) : Prop :=
  ∃ n, v.formula.evalIn constants = .ok n ∧ w = .known n

/-- Every name of the formula is one of these constants. -/
def Supplied (constants : Table String Int) (v : Value) : Prop :=
  ∀ name ∈ v.formula.names, name ∈ constants.keys

/-- The formula of `v` is read whenever that of `x` is. -/
structure Part (constants : Table String Int) (v x : Value) : Prop where
  names : ∀ name ∈ v.formula.names, name ∈ x.formula.names
  evalIn : ∀ n, x.formula.evalIn constants = .ok n → ∃ m, v.formula.evalIn constants = .ok m

/-- An integer settles as itself. -/
theorem settles_known {n : Int} {w : Value} :
    (known n).Settles constants w ↔ w = known n := by
  constructor
  · rintro ⟨m, hm, rfl⟩
    rw [Except.ok.inj hm]
  · rintro rfl
    exact ⟨n, rfl, rfl⟩

/-- A value settles in one way. -/
theorem Settles.unique {v w w' : Value} (h : v.Settles constants w) :
    v.Settles constants w' ↔ w' = w := by
  obtain ⟨n, hn, rfl⟩ := h
  constructor
  · rintro ⟨m, hm, rfl⟩
    rw [Except.ok.inj (hm.symm.trans hn)]
  · rintro rfl
    exact ⟨n, hn, rfl⟩

/-- A value settles if its formula has a value. -/
theorem exists_settles_iff {v : Value} :
    (∃ w, v.Settles constants w) ↔ ∃ n, v.formula.evalIn constants = .ok n :=
  ⟨fun ⟨_, n, hn, _⟩ => ⟨n, hn⟩, fun ⟨n, hn⟩ => ⟨.known n, n, hn, rfl⟩⟩

namespace Part

variable {v x y : Value}

/-- A value is a part of itself. -/
theorem refl (v : Value) : v.Part constants v := ⟨fun _ h => h, fun n h => ⟨n, h⟩⟩

/-- A part of a part is a part. -/
theorem trans (h : v.Part constants x) (h' : x.Part constants y) : v.Part constants y where
  names name hn := h'.names name (h.names name hn)
  evalIn n hn := by
    obtain ⟨m, hm⟩ := h'.evalIn n hn
    exact h.evalIn m hm

/-- The names of a part are supplied with those of the whole. -/
theorem supplied (h : v.Part constants x) (hx : x.Supplied constants) : v.Supplied constants :=
  fun name hn => hx name (h.names name hn)

end Part

end Value

namespace Resolution

open Value

/-- The second step gives what the value of the first settles as, if the names of that value are
supplied. -/
def Agrees (constants : Table String Int) (r r' : Except ResolutionFault Value) : Prop :=
  ∀ v, r = .ok v → v.Supplied constants → ∀ w, r' = .ok w ↔ v.Settles constants w

/-- A value agrees with what it settles as. -/
theorem agrees_ok {x w : Value} (h : x.Settles constants w) :
    Agrees constants (.ok x) (.ok w) := by
  intro v hv _ w'
  obtain rfl := Except.ok.inj hv
  rw [h.unique, Except.ok.injEq, eq_comm]

/-- A step that fails agrees with every step. -/
theorem agrees_error {fault : ResolutionFault} {r' : Except ResolutionFault Value} :
    Agrees constants (.error fault) r' := by
  intro v hv
  cases hv

/-- Chains of steps agree if their steps do, and the value of the first step is a part of that of
the second. -/
theorem Agrees.bind {r r' : Except ResolutionFault Value}
    {f f' : Value → Except ResolutionFault Value} (hr : Agrees constants r r')
    (hpart : ∀ x y, f x = .ok y → x.Part constants y)
    (hf : ∀ x w, x.Settles constants w → Agrees constants (f x) (f' w)) :
    Agrees constants (r >>= f) (r' >>= f') := by
  intro v hv hsupplied w
  obtain ⟨x, hx, hfx⟩ := bind_eq_ok.mp hv
  have hxv : x.Part constants v := hpart x v hfx
  have hfirst := hr x hx (hxv.supplied hsupplied)
  rw [bind_eq_ok]
  constructor
  · rintro ⟨a, ha, hfa⟩
    exact (hf x a ((hfirst a).mp ha) v hfx hsupplied w).mp hfa
  · rintro ⟨n, hn, rfl⟩
    -- the chain settles, so its first step does, which is a part of it
    obtain ⟨m, hm⟩ := hxv.evalIn n hn
    have hxm : x.Settles constants (.known m) := ⟨m, hm, rfl⟩
    exact ⟨.known m, (hfirst _).mpr hxm, (hf x _ hxm v hfx hsupplied _).mpr ⟨n, hn, rfl⟩⟩

/-! ## Operators and casts -/

/-- The operands of an operator are parts of its value. -/
theorem part_of_apply {op : Operator} {x y z : Value} {t : IntType} (h : apply op x y t = .ok z) :
    x.Part constants z ∧ y.Part constants z := by
  unfold apply at h
  split at h
  · exact ⟨⟨nofun, fun _ _ => ⟨_, rfl⟩⟩, ⟨nofun, fun _ _ => ⟨_, rfl⟩⟩⟩
  · obtain rfl := Except.ok.inj h
    refine ⟨⟨fun name hn => List.mem_append_left _ hn, fun n hn => ?_⟩,
      ⟨fun name hn => List.mem_append_right _ hn, fun n hn => ?_⟩⟩
    · obtain ⟨a, b, ha, -, -⟩ := Formula.evalIn_apply_eq_ok.mp hn
      exact ⟨a, ha⟩
    · obtain ⟨a, b, -, hb, -⟩ := Formula.evalIn_apply_eq_ok.mp hn
      exact ⟨b, hb⟩

/-- An operator is folded on integers, if it is defined there. -/
theorem apply_known_eq_ok {op : Operator} {a b : Int} {t : IntType} {w : Value} :
    apply op (.known a) (.known b) t = .ok w ↔ ∃ n, op.checked a b t = .ok n ∧ w = .known n := by
  simp only [apply]
  split
  · next n hn =>
    simp only [hn, Except.ok.injEq, exists_eq_left']
    exact eq_comm
  · next fault hn =>
    simp [hn]

/-- Operators agree on values and on what these settle as. -/
theorem apply_agrees {op : Operator} {x y w w' : Value} {t : IntType}
    (hx : x.Settles constants w) (hy : y.Settles constants w') :
    Agrees constants (apply op x y t) (apply op w w' t) := by
  obtain ⟨a, ha, rfl⟩ := hx
  obtain ⟨b, hb, rfl⟩ := hy
  intro v hv _ w
  rw [apply_known_eq_ok]
  unfold apply at hv
  split at hv
  · obtain rfl := Except.ok.inj ha
    obtain rfl := Except.ok.inj hb
    split at hv
    · next n hn =>
      obtain rfl := Except.ok.inj hv
      simp only [hn, Except.ok.injEq, exists_eq_left', settles_known]
    · cases hv
  · obtain rfl := Except.ok.inj hv
    refine exists_congr fun n => and_congr_left fun _ => ?_
    rw [formula, Formula.evalIn_apply_eq_ok]
    constructor
    · exact fun h => ⟨a, b, ha, hb, h⟩
    · rintro ⟨a', b', ha', hb', h⟩
      rwa [Except.ok.inj (ha.symm.trans ha'), Except.ok.inj (hb.symm.trans hb')]

/-- Casts agree on a value and on what it settles as, if a formula that is checked at all is
checked against the source. Then a cast that is left out would have succeeded. -/
theorem cast_agrees {x w : Value} {source target : IntType}
    (hx : ∀ f t, x = .symbolic f → f.checkedType? = some t → t = source)
    (h : x.Settles constants w) :
    Agrees constants (cast x source target) (cast w source target) := by
  obtain ⟨n, hn, rfl⟩ := h
  intro v hv _ w
  rw [cast_known_eq_ok]
  cases x with
  | known m =>
    obtain rfl : m = n := Except.ok.inj hn
    obtain ⟨hs, ht, rfl⟩ := cast_known_eq_ok.mp hv
    simp only [hs, ht, true_and, settles_known]
  | symbolic f =>
    simp only [cast] at hv
    split_ifs at hv with hc
    · obtain rfl := Except.ok.inj hv
      obtain ⟨t, ht⟩ := Option.isSome_iff_exists.mp (Formula.isChecked_eq f ▸ hc.2)
      -- the cast was left out: the formula is checked against this very type already
      have hcontains : source.contains n = true :=
        hx f t rfl ht ▸ Formula.contains_of_eval ht hn
      rw [← hc.1, hcontains, (show Settles constants (.symbolic f) (.known n) from
        ⟨n, hn, rfl⟩).unique]
      simp only [true_and]
    · obtain rfl := Except.ok.inj hv
      constructor
      · rintro ⟨hs, ht, rfl⟩
        exact ⟨n, Formula.evalIn_cast_eq_ok.mpr ⟨hn, hs, ht⟩, rfl⟩
      · rintro ⟨m, hm, rfl⟩
        obtain ⟨hm, hs, ht⟩ := Formula.evalIn_cast_eq_ok.mp hm
        obtain rfl : n = m := Except.ok.inj (hn.symm.trans hm)
        exact ⟨hs, ht, rfl⟩

end Resolution

/-! ## Variants and enumerations that settle -/

/-- With these constants, the value of the variant settles, and nothing else changes. -/
def ResolvedVariant.Settles (constants : Table String Int) (v v' : ResolvedVariant) : Prop :=
  ∃ w, v.value.Settles constants w ∧ v' = { v with value := w }

/-- With these constants, every value of the enumeration settles, and nothing else changes. -/
def ResolvedEnum.Settles (constants : Table String Int) (r r' : ResolvedEnum) : Prop :=
  ∃ vs, List.Forall₂ (ResolvedVariant.Settles constants) r.variants vs ∧
    r' = { r with variants := vs }

/-- Every name in the values of the enumeration is one of these constants. -/
def ResolvedEnum.Supplied (constants : Table String Int) (r : ResolvedEnum) : Prop :=
  ∀ v ∈ r.variants, v.value.Supplied constants

/-- Variants that settle keep their names, so that look-up by name finds corresponding ones. -/
theorem find?_settles {vs vs' : List ResolvedVariant}
    (h : List.Forall₂ (ResolvedVariant.Settles constants) vs vs') (name : String) :
    Option.Rel (ResolvedVariant.Settles constants) (vs.find? (·.name == name))
      (vs'.find? (·.name == name)) := by
  induction h with
  | nil => exact Option.Rel.none
  | cons hv _ ih =>
    obtain ⟨w, hw, rfl⟩ := hv
    simp only [List.find?_cons]
    split
    · exact Option.Rel.some ⟨w, hw, rfl⟩
    · exact ih

/-- An enumeration settles if the formulas of all its values have values. -/
theorem ResolvedEnum.exists_settles_iff {r : ResolvedEnum} :
    (∃ r', r.Settles constants r') ↔
      ∀ v ∈ r.variants, ∃ n, v.value.formula.evalIn constants = .ok n := by
  have hvariants : ∀ vs : List ResolvedVariant,
      (∃ vs', List.Forall₂ (ResolvedVariant.Settles constants) vs vs') ↔
        ∀ v ∈ vs, ∃ n, v.value.formula.evalIn constants = .ok n := by
    intro vs
    induction vs with
    | nil => exact ⟨fun _ => List.forall_mem_nil _, fun _ => ⟨[], List.Forall₂.nil⟩⟩
    | cons v vs ih =>
      rw [List.forall_mem_cons, ← ih, ← Value.exists_settles_iff]
      constructor
      · rintro ⟨_, _ | ⟨⟨w, hw, _⟩, hrest⟩⟩
        exact ⟨⟨w, hw⟩, ⟨_, hrest⟩⟩
      · rintro ⟨⟨w, hw⟩, ⟨vs', hrest⟩⟩
        exact ⟨_, List.Forall₂.cons ⟨w, hw, rfl⟩ hrest⟩
  rw [← hvariants]
  exact ⟨fun ⟨_, vs, h, _⟩ => ⟨vs, h⟩, fun ⟨vs, h⟩ => ⟨_, vs, h, rfl⟩⟩

/-- Supplying the symbols of an enumeration supplies all its values. -/
theorem ResolvedEnum.supplied_of_symbols {r : ResolvedEnum}
    (h : ∀ name ∈ r.symbols, constants.contains name = true) : r.Supplied constants := by
  intro v hv name hn
  refine Table.isSome_get?_iff.mp (h name ?_)
  exact mem_sortedNames.mpr (List.mem_flatMap.mpr ⟨v, hv, hn⟩)

end MaskEnum
