import MaskEnum.Proofs.IntType.Range
import MaskEnum.Proofs.Resolution.Range
set_option autoImplicit false

/-!
# Reports of values

The report of a value that cannot be resolved tells an integer in three cases: a literal that is out
of range, a constant from elsewhere that is, and a value of another enumeration that does not fit.
The last one lies in the range of a type, so only the first two may have more digits than a report
can have.

## Main definitions

* `MaskEnum.EnumDecl.Writes`, `MaskEnum.Environment.Supplies`, `MaskEnum.HasUnwritable` — where
  large integers come from.
* `MaskEnum.Resolution.Told` — the integer of a fault is a literal, comes from elsewhere, or can be
  written.
* `MaskEnum.ReportedAs` — the reports that a unit may give rise to.

## Main results

* `MaskEnum.isWritable_of_contains` — an integer of a type can be written.
* `MaskEnum.Resolution.value_told` — the integers in the faults of a value.
* `MaskEnum.resolveInOrder_error` — what is reported of the enumerations of a unit.
-/

namespace MaskEnum

/-- A literal of the enumeration has the value. -/
def EnumDecl.Writes (e : EnumDecl) (n : Int) : Prop :=
  ∃ v ∈ e.variants, ∃ init, v.value = some init ∧
    ∃ l : Literal, .literal l ∈ init.operands ∧ l.value = n

/-- A constant from elsewhere has the value, or a variant of an enumeration from elsewhere. -/
def Environment.Supplies (environment : Environment) (n : Int) : Prop :=
  (∃ name, environment.constants.get? name = some n) ∨
    ∃ path table name, environment.enums.get? path = some table ∧ table.get? name = some n

/-- A literal of the unit or a value from elsewhere has more digits than a report can have. -/
def HasUnwritable (unit : List EnumDecl) (environment : Environment) : Prop :=
  ∃ n, isWritable n = false ∧ ((∃ e ∈ unit, e.Writes n) ∨ environment.Supplies n)

/-- An integer of a type can be written. -/
theorem isWritable_of_contains {t : IntType} {n : Int} (h : t.contains n = true) :
    isWritable n = true := by
  have hsize : t.size ≤ 2 ^ 128 := by
    rw [t.size_eq]
    exact Nat.pow_le_pow_right (by decide) (by cases t <;> decide)
  have hbound : n.natAbs ≤ 2 ^ 128 := by
    have hhalf := t.size_eq_two_mul_half
    cases hs : t.signed with
    | true =>
      obtain ⟨hmin, hmax⟩ := (IntType.contains_iff_of_signed hs).mp h
      omega
    | false =>
      obtain ⟨hmin, hmax⟩ := (IntType.contains_iff_of_unsigned hs).mp h
      omega
  have hpow : ∀ k, 39 ≤ k → Nat.pow 10 39 ≤ Nat.pow 10 k := fun _ =>
    Nat.pow_le_pow_right (by decide)
  have hlimit := hpow digitLimit (by decide)
  exact decide_eq_true (lt_of_le_of_lt hbound (lt_of_lt_of_le (by decide) hlimit))

namespace Resolution

/-- If the wording of a fault tells an integer, then a literal among the operands has this value, or
it comes from elsewhere, or it can be written. -/
def Told (environment : Environment) (operands : List Operand) (fault : ResolutionFault) : Prop :=
  ∀ n, fault.told? = some n → (∃ l : Literal, .literal l ∈ operands ∧ l.value = n) ∨
    environment.Supplies n ∨ isWritable n = true

section Value

variable {environment : Environment} {fault : ResolutionFault}

/-- A fault that tells no integer. -/
theorem told_of_none {operands : List Operand} (h : fault.told? = none) :
    Told environment operands fault := by
  intro n hn
  rw [h] at hn
  cases hn

/-- More operands do not matter. -/
theorem Told.mono {os os' : List Operand} (h : Told environment os fault)
    (hsub : ∀ o ∈ os, o ∈ os') : Told environment os' fault :=
  fun n hn => (h n hn).imp_left fun ⟨l, hl, hvalue⟩ => ⟨l, hsub _ hl, hvalue⟩

/-- The fault of an operator is about its result. -/
theorem told?_of_checked {op : Operator} {l r : Int} {t : IntType} {a : ArithFault}
    (h : op.checked l r t = .error a) : ResolutionFault.told? (.arithmetic a) = none := by
  have hexact : ∀ a, op.exact l r t = .error a →
      ResolutionFault.told? (.arithmetic a) = none := by
    intro a ha
    cases op with
    | div | rem | shl | shr =>
      simp only [Operator.exact] at ha
      split_ifs at ha
      obtain rfl := Except.error.inj ha
      rfl
    | _ => cases ha
  rcases bind_eq_error.mp h with h | ⟨n, -, h⟩
  · exact hexact a h
  · split_ifs at h
    obtain rfl := Except.error.inj h
    rfl

/-- An operator on values. -/
theorem told?_of_apply {op : Operator} {x y : Value} {t : IntType}
    (h : apply op x y t = .error fault) : fault.told? = none := by
  unfold apply at h
  split at h
  · split at h
    · cases h
    · next a ha =>
      obtain rfl := Except.error.inj h
      exact told?_of_checked ha
  · cases h

/-- A cast tells the integer that does not fit. -/
theorem told_of_cast {x : Value} {source target : IntType}
    (h : cast x source target = .error fault) {n : Int} (hn : fault.told? = some n) :
    x = .known n := by
  cases x with
  | known m =>
    simp only [cast, checkedCast] at h
    split at h
    · cases h
    · next a ha =>
      obtain rfl := Except.error.inj h
      split_ifs at ha <;> obtain rfl := Except.error.inj ha <;>
        exact congrArg Value.known (Option.some.inj hn)
  | symbolic f =>
    simp only [cast] at h
    split_ifs at h

/-- A literal tells its value. -/
theorem literal_told {t : IntType} {l : Literal} (h : literal t l = .error fault) :
    Told environment [.literal l] fault := by
  have hvalue : fault.told? = some l.value := by
    unfold literal at h
    split at h <;> split_ifs at h <;> obtain rfl := Except.error.inj h <;> rfl
  intro n hn
  exact .inl ⟨l, List.mem_singleton_self _, Option.some.inj (hvalue.symm.trans hn)⟩

section Scope

variable {decl : EnumDecl} {find : EnumPath → Option ResolvedEnum} {os : List Operand}

/-- A variant of the same enumeration. -/
theorem variant_told {c : Context} {name : String} (h : variant c name = .error fault) :
    Told environment os fault := by
  unfold variant at h
  split at h
  · cases h
  · split_ifs at h <;> obtain rfl := Except.error.inj h <;> exact told_of_none rfl

/-- An external constant. -/
theorem constant_told {name : String} {source : IntType}
    (h : constant ⟨decl, environment, find⟩ name source = .error fault) :
    Told environment os fault := by
  unfold constant at h
  split at h
  · next m hm =>
    intro n hn
    obtain rfl := Value.known.inj (told_of_cast h hn)
    exact .inr (.inl (.inl ⟨name, hm⟩))
  · split_ifs at h
    · obtain rfl := Except.error.inj h
      exact told_of_none rfl
    · obtain rfl := Except.error.inj h
      exact told_of_none rfl
    · intro n hn
      cases told_of_cast h hn

variable (hfind : ∀ path r, find path = some r → r.Fits)
include hfind

/-- A variant of another enumeration. -/
theorem foreign_told {path : EnumPath} {name : String}
    (h : foreign ⟨decl, environment, find⟩ path name = .error fault) :
    Told environment os fault := by
  unfold foreign at h
  split at h
  · next r hr =>
    split at h
    · next v hv =>
      intro n hn
      have hfits := hfind path r hr v (List.mem_of_find?_eq_some hv)
      rw [told_of_cast h hn] at hfits
      exact .inr (.inr (isWritable_of_contains hfits))
    · obtain rfl := Except.error.inj h
      exact told_of_none rfl
  · split at h
    · obtain rfl := Except.error.inj h
      exact told_of_none rfl
    · next table htable =>
      split at h
      · next m hm =>
        intro n hn
        obtain rfl := Value.known.inj (told_of_cast h hn)
        exact .inr (.inl (.inr ⟨_, table, name, htable, hm⟩))
      · obtain rfl := Except.error.inj h
        exact told_of_none rfl

variable {current : String} {bound : List (String × Value)}

/-- An operand. -/
theorem operand_told {o : Operand}
    (h : operand ⟨⟨decl, environment, find⟩, current, bound⟩ o = .error fault) :
    Told environment [o] fault := by
  cases o with
  | literal l => exact literal_told h
  | variant name => exact variant_told h
  | negated name =>
    simp only [operand] at h
    split_ifs at h
    · obtain rfl := Except.error.inj h
      exact told_of_none rfl
    · rcases bind_eq_error.mp h with h | ⟨x, -, h⟩
      · exact variant_told h
      · exact told_of_none (told?_of_apply h)
  | external name source =>
    cases source with
    | typed source => exact constant_told h
    | bare => exact constant_told h
    | enumeration path =>
      simp only [operand] at h
      split_ifs at h
      · exact variant_told h
      · exact foreign_told hfind h

/-- Operands behind one operator. -/
theorem group_told {op : Operator} {os : List Operand} {x : Value}
    (h : group ⟨⟨decl, environment, find⟩, current, bound⟩ op x os = .error fault) :
    Told environment os fault := by
  induction os generalizing x with
  | nil => cases h
  | cons o os ih =>
    rw [group] at h
    rcases bind_eq_error.mp h with h | ⟨r, -, h⟩
    · exact (operand_told hfind h).mono fun o' ho' => List.mem_singleton.mp ho' ▸ List.mem_cons_self
    · rcases bind_eq_error.mp h with h | ⟨y, -, h⟩
      · exact told_of_none (told?_of_apply h)
      · exact (ih h).mono fun _ => List.mem_cons_of_mem o

/-- An initializer. -/
theorem initializer_told {init : Initializer}
    (h : initializer ⟨⟨decl, environment, find⟩, current, bound⟩ init = .error fault) :
    Told environment init.operands fault := by
  induction init with
  | operand o =>
    rw [initializer_operand] at h
    exact operand_told hfind h
  | chain op first rest ih =>
    rw [initializer] at h
    rcases bind_eq_error.mp h with h | ⟨x, -, h⟩
    · exact (ih h).mono fun _ => List.mem_append_left rest
    · exact (group_told hfind h).mono fun _ => List.mem_append_right first.operands

/-- **Values.** The integer that the report of a value tells is a literal of its initializer, comes
from elsewhere, or can be written. -/
theorem value_told {index : Nat} {v : VariantDecl}
    (h : value ⟨decl, environment, find⟩ bound index v = .error fault) :
    ∃ operands, Told environment operands fault ∧
      ∀ o ∈ operands, ∃ init, v.value = some init ∧ o ∈ init.operands := by
  unfold value at h
  split at h
  · split_ifs at h
    obtain rfl := Except.error.inj h
    exact ⟨[], told_of_none rfl, fun o ho => absurd ho List.not_mem_nil⟩
  · next init hinit =>
    exact ⟨init.operands, initializer_told hfind h, fun o ho => ⟨init, hinit, ho⟩⟩

end Scope

end Value

/-- What goes wrong with variants is the value of one of them. -/
theorem variants_error {s : Scope} {index : Nat} {bound : List (String × Value)}
    {vs : List VariantDecl} {err : Error} (h : variants s index bound vs = .error err) :
    ∃ v ∈ vs, ∃ index bound fault, value s bound index v = .error fault ∧
      err = report s.decl v fault := by
  induction vs generalizing index bound with
  | nil => cases h
  | cons v vs ih =>
    rw [variants] at h
    split at h
    · next fault hfault =>
      exact ⟨v, List.mem_cons_self, index, bound, fault, hfault, (Except.error.inj h).symm⟩
    · rcases bind_eq_error.mp h with h | ⟨more, -, h⟩
      · obtain ⟨v', hv', hrest⟩ := ih h
        exact ⟨v', List.mem_cons_of_mem v hv', hrest⟩
      · cases h

end Resolution

/-! ## Units -/

/-- The report names a variant, or it is that an integer cannot be written. -/
inductive ReportedAs (unit : List EnumDecl) (environment : Environment) : Error → Prop
  | value (site : String) (fault : ResolutionFault) (position : Position) :
    ReportedAs unit environment ⟨.resolution site fault, some position⟩
  | unwritable (h : HasUnwritable unit environment) :
    ReportedAs unit environment ⟨.unwritable, none⟩

variable {unit : List EnumDecl} {environment : Environment}

/-- **Reports.** What is reported of the enumerations of a unit. -/
theorem resolveInOrder_error {order : List QualifiedName} {t : Table QualifiedName ResolvedEnum}
    {err : Error} (ht : ∀ q r, t.get? q = some r → r.Fits)
    (h : resolveInOrder unit environment order t = .error err) :
    ReportedAs unit environment err := by
  induction order generalizing t with
  | nil => cases h
  | cons q order ih =>
    rw [resolveInOrder] at h
    split at h
    · exact ih ht h
    · next e he =>
      have hfind : ∀ path r, resolvedTarget unit t e.group path = some r → r.Fits :=
        fits_of_resolvedTarget ht
      rcases bind_eq_error.mp h with h | ⟨r, hr, h⟩
      · rcases bind_eq_error.mp h with h | ⟨vs, -, h⟩
        · obtain ⟨v, hv, index, bound, fault, hfault, rfl⟩ := Resolution.variants_error h
          unfold Resolution.report
          split_ifs with htold
          · exact .value ..
          · obtain ⟨n, hn, hlarge⟩ : ∃ n, fault.told? = some n ∧ isWritable n = false := by
              cases hn : fault.told? with
              | none => simp [hn] at htold
              | some n => exact ⟨n, rfl, by simpa [hn] using htold⟩
            obtain ⟨operands, htraced, hoperands⟩ := Resolution.value_told hfind hfault
            refine .unwritable ⟨n, hlarge, ?_⟩
            rcases htraced n hn with ⟨l, hl, hvalue⟩ | hsupplied | hwritable
            · obtain ⟨init, hinit, hmem⟩ := hoperands _ hl
              exact .inl ⟨e, mem_of_enumNamed? he, v, hv, init, hinit, l, hmem, hvalue⟩
            · exact .inr hsupplied
            · rw [hlarge] at hwritable
              cases hwritable
        · cases h
      · exact ih (Table.forall_get?_insert ht (resolveEnum_fits hfind hr)) h

end MaskEnum
