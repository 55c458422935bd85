import MaskEnum.Proofs.Generated.Program
import MaskEnum.Proofs.Loaded.Values
set_option autoImplicit false

/-!
# When modules load

A module of a unit loads if its text is a program, its tables of ordinals show all their members,
and each of its formulas has a value. Symbols stand for the integers that are supplied for them, so
with one for each, nothing but the arithmetic of a formula is left to fail.

## Main definitions

* `MaskEnum.CompiledUnit.IsLoadable` — the text of a unit is a program that finds its ordinals.

## Main results

* `MaskEnum.CompiledUnit.loads_iff` — when the module of a unit without symbols loads.
* `MaskEnum.CompiledUnit.load_supplied` — what loading a module with its symbols supplied does.
-/

namespace MaskEnum

/-- The first line of the module is an expression, all attributes can be stored, as `read` reads
them, and no table of ordinals keeps a member to itself. -/
structure CompiledUnit.IsLoadable (u : CompiledUnit) (read : Docs.Reader) : Prop where
  headline : Generated.isHeadline u.module = true
  storable : ∀ attr ∈ u.declarations.flatMap Declaration.allAttributes,
    Docs.isStorable read attr = true
  shown : ∀ e ∈ u.resolved, ∀ v ∈ e.variants, e.hides v = false

instance (u : CompiledUnit) (read : Docs.Reader) : Decidable (u.IsLoadable read) :=
  decidable_of_iff (Generated.isHeadline u.module = true ∧
      (∀ attr ∈ u.declarations.flatMap Declaration.allAttributes,
        Docs.isStorable read attr = true) ∧
      ∀ e ∈ u.resolved, ∀ v ∈ e.variants, e.hides v = false)
    ⟨fun ⟨headline, storable, shown⟩ => ⟨headline, storable, shown⟩,
      fun h => ⟨h.headline, h.storable, h.shown⟩⟩

/-- A value that a formula does not have is not known. -/
theorem isSymbolic_of_evalIn_error {v : ResolvedVariant} {supplied : Table String Int}
    {fault : LoadFault} (h : v.value.formula.evalIn supplied = .error fault) :
    v.isSymbolic = true := by
  unfold ResolvedVariant.isSymbolic
  cases hv : v.value with
  | known n =>
    rw [hv] at h
    cases h
  | symbolic f => rfl

/-- The formula of a constant is that of the value of its variant. -/
theorem Generated.formula_of_sourceOf {companion : Option String} {e : ResolvedEnum}
    {v : ResolvedVariant} {f : Formula} (h : sourceOf companion e v = .formula f) :
    v.value.formula = f := by
  unfold sourceOf at h
  split at h
  · cases h
  · exact Source.formula.inj h

namespace CompiledUnit.Of

open Generated

variable {text : String} {options : Options} {u : CompiledUnit} (hu : u.Of text options)
  {supplied : Table String Int}
include hu

/-- Every site computes the value of a variant. -/
theorem exists_hosts {s : Setting} (hs : s ∈ u.module.settings) {site : Site}
    (hsite : site ∈ s.sites) :
    ∃ e ∈ u.resolved, s.Hosts e ∧ ∃ v ∈ e.variants, site.Hosts e v := by
  obtain ⟨e, he, hhost⟩ := exists_left_of_forall₂ hu.hosts hs
  obtain ⟨v, hv, hvariant⟩ := exists_left_of_forall₂ hhost.sites hsite
  exact ⟨e, he, hhost, v, hv, hvariant⟩

/-- The text of a loadable unit without deep formulas is a program. -/
theorem textFault?_eq_none (hpreamble : options.preamble = []) (hshallow : u.IsShallow)
    (h : u.IsLoadable options.read) : u.module.textFault? = none :=
  (hu.textFault?_eq_none_iff hpreamble hshallow).mpr ⟨h.headline, h.storable⟩

/-- A module that loads belongs to a loadable unit. -/
theorem isLoadable (hpreamble : options.preamble = []) (hshallow : u.IsShallow) {l : Loaded}
    (h : u.module.load supplied = .ok l) : u.IsLoadable options.read := by
  obtain ⟨hheadline, hstorable⟩ := (hu.textFault?_eq_none_iff hpreamble hshallow).mp
    (Module.load_eq_ok.mp h).1
  refine ⟨hheadline, hstorable, fun e he v hv => ?_⟩
  obtain ⟨c, -, hrealizes⟩ := exists_right_of_forall₂ (hu.realizes h) he
  obtain ⟨entry, -, -, hshown, -⟩ := exists_right_of_forall₂ hrealizes.values hv
  exact hshown

/-- **Faults.** The module of a loadable unit fails to load only because a formula has no value. -/
theorem exists_eval_error (hpreamble : options.preamble = []) (hshallow : u.IsShallow)
    (h : u.IsLoadable options.read) {fault : LoadFault}
    (hload : u.module.load supplied = .error fault) :
    ∃ s ∈ u.module.settings, ∃ site ∈ s.sites, ∃ e ∈ u.resolved, s.Hosts e ∧ ∃ v ∈ e.variants,
      v.value.formula.eval (site.read supplied) .arithmetic = .error fault := by
  obtain ⟨s, hs, site, hsite, herror⟩ :=
    Module.load_eq_error (hu.textFault?_eq_none hpreamble hshallow h) hu.isFree hload
  obtain ⟨e, he, hhost, v, hv, hvariant⟩ := hu.exists_hosts hs hsite
  rw [hvariant.eval_eq (hu.inPlace he) (hu.admitted_decl he) hv, h.shown e he v hv,
    if_neg Bool.false_ne_true] at herror
  exact ⟨s, hs, site, hsite, e, he, hhost, v, hv, herror⟩

/-- If the name of the source stays in the literal of the first line, then what keeps the text from
being run is not that the name ends it. -/
theorem textFault?_ne_stray (hname : isOneLiteral options.source = true) :
    u.module.textFault? ≠ some .stray := by
  have hsource : u.module.source = options.source := by
    obtain ⟨items, -, hmodule⟩ := hu.module_eq
    rw [hmodule]
  unfold Module.textFault? Module.headingFault?
  rw [hsource, hname]
  split
  · nofun
  · split
    · nofun
    · cases u.module.heading <;> nofun

/-- Without symbols, all values are known. -/
theorem exists_known (hsymbols : u.symbols = []) {e : ResolvedEnum} (he : e ∈ u.resolved)
    {v : ResolvedVariant} (hv : v ∈ e.variants) : ∃ n, v.value = .known n := by
  refine (hu.readable he hv).exists_known (List.eq_nil_iff_forall_not_mem.mpr fun name hname => ?_)
  have hmem : name ∈ u.symbols := mem_symbols.mpr ⟨e, he, v, hv, hname⟩
  rw [hsymbols] at hmem
  cases hmem

/-- Without symbols, no formula nests brackets. -/
theorem isShallow (hsymbols : u.symbols = []) : u.IsShallow := by
  intro e he v hv
  obtain ⟨n, hn⟩ := hu.exists_known hsymbols he hv
  rw [hn]
  exact Nat.zero_lt_succ _

/-- If the name of the source stays in the literal of the first line, then loading a module without
symbols does not end in the one way that is left open. -/
theorem load_ne_stray (hsymbols : u.symbols = []) (hname : isOneLiteral options.source = true) :
    u.module.load supplied ≠ .error .stray := by
  intro hload
  cases htext : u.module.textFault? with
  | some fault =>
    rw [Module.load, htext] at hload
    exact hu.textFault?_ne_stray hname (htext.trans (congrArg some (Except.error.inj hload)))
  | none =>
    -- A site fails only where a table of ordinals misses a member: all formulas have values.
    obtain ⟨s, hs, site, hsite, herror⟩ := Module.load_eq_error htext hu.isFree hload
    obtain ⟨e, he, -, v, hv, hvariant⟩ := hu.exists_hosts hs hsite
    obtain ⟨n, hn⟩ := hu.exists_known hsymbols he hv
    rw [hvariant.eval_eq (hu.inPlace he) (hu.admitted_decl he) hv, hn] at herror
    split at herror <;> cases herror

/-- **Symbols.** With an integer for each symbol, and no private ones, the sites of an enumeration
read those of a formula as the integers that are supplied. -/
theorem read_supplied (hprivate : ∀ name ∈ u.symbols, startsWith "__" name = false)
    (hsupplied : ∀ name ∈ u.symbols, supplied.contains name = true) {s : Setting}
    (hs : s ∈ u.module.settings) {e : ResolvedEnum} (he : e ∈ u.resolved) (hhost : s.Hosts e)
    {site : Site} (hsite : site ∈ s.sites) {v : ResolvedVariant} (hv : v ∈ e.variants)
    {name : String} (hname : name ∈ v.value.formula.names) :
    ∃ n, supplied.get? name = some n ∧ site.read supplied name = .ok n := by
  have hmem : name ∈ u.symbols := mem_symbols.mpr ⟨e, he, v, hv, hname⟩
  obtain ⟨n, hn⟩ := Option.isSome_iff_exists.mp (hsupplied name hmem)
  exact ⟨n, hn, hu.read_eq hs he hhost hsite hv hname (hprivate name hmem) hn⟩

end CompiledUnit.Of

namespace CompiledUnit

open Generated

variable {text : String} {options : Options} {u : CompiledUnit}

/-- A text compiles and its module loads, as evaluating the formulas shows. -/
theorem exists_loaded (text : String) (options : Options) (supplied : Table String Int)
    (hpreamble : options.preamble = []) {p : CompiledUnit → Prop} [DecidablePred p]
    (h : (match compile text options with
      | .ok u => decide (u.IsLoadable options.read ∧ u.IsShallow ∧
          (u.module.settings.mapM (Setting.load · supplied)).toBool = true ∧ p u)
      | .error _ => false) = true) :
    ∃ u l, compile text options = .ok u ∧ u.module.load supplied = .ok l ∧ p u := by
  obtain ⟨u, hu, hloadable, hshallow, hclasses, hp⟩ := exists_compile text options h
  have hof := compile_of hu
  obtain ⟨l, hload⟩ := Module.exists_load
    (hof.textFault?_eq_none hpreamble hshallow hloadable) hof.isFree hclasses
  exact ⟨u, l, hu, hload, hp⟩

/-- **Loading.** Take a unit without preamble and symbols, and a source whose name stays in the
literal of the first line. Its module loads if the unit is loadable, and only then; otherwise it
fails, in another way than the one that is left open. -/
theorem loads_iff (h : compile text options = .ok u) (hpreamble : options.preamble = [])
    (hsymbols : u.symbols = []) (hname : isOneLiteral options.source = true) :
    ((∃ l, u.module.load .empty = .ok l) ↔ u.IsLoadable options.read) ∧
      u.module.load .empty ≠ .error .stray := by
  have hu := compile_of h
  have hshallow := hu.isShallow hsymbols
  refine ⟨⟨fun ⟨l, hload⟩ => hu.isLoadable hpreamble hshallow hload, fun hloadable => ?_⟩,
    hu.load_ne_stray hsymbols hname⟩
  cases hload : u.module.load .empty with
  | ok l => exact ⟨l, rfl⟩
  | error fault =>
    obtain ⟨s, -, site, -, e, he, -, v, hv, herror⟩ :=
      hu.exists_eval_error hpreamble hshallow hloadable hload
    obtain ⟨n, hn⟩ := hu.exists_known hsymbols he hv
    rw [hn] at herror
    cases herror

/-- A unit with a table of ordinals loads. -/
theorem loads_iff_ordinals :
    ∃ u, compile "pub mod m { pub enum Kind { A, B } }" {} = .ok u ∧ u.symbols = [] ∧
      isOneLiteral none = true ∧ ∃ l, u.module.load .empty = .ok l := by
  obtain ⟨u, hu, hsymbols, hloadable⟩ := exists_compile
    "pub mod m { pub enum Kind { A, B } }" {}
    (p := fun u => u.symbols = [] ∧ u.IsLoadable Docs.evaluate) (by decide +kernel)
  have hname : isOneLiteral none = true := by decide +kernel
  exact ⟨u, hu, hsymbols, hname, (loads_iff hu rfl hsymbols hname).1.mpr hloadable⟩

/-- A table of ordinals keeps a variant to itself whose name starts like the private names of the
table, so the class does not find it there. -/
theorem load_hidden_ordinal :
    ∃ u, compile "pub mod m { pub enum Kind { A, _Kind__X } }" {} = .ok u ∧ u.symbols = [] ∧
      u.module.load .empty = .error (.missingMember "Kind" "_Kind__X") := by
  obtain ⟨u, h, hsymbols, hheadline, hstorable, hsettings⟩ := exists_compile
    "pub mod m { pub enum Kind { A, _Kind__X } }" {}
    (p := fun u => u.symbols = [] ∧ isHeadline u.module = true ∧
      (∀ attr ∈ u.declarations.flatMap Declaration.allAttributes,
        Docs.isStorable Docs.evaluate attr = true) ∧
      u.module.settings.mapM (·.load .empty) = .error (.missingMember "Kind" "_Kind__X"))
    (by decide +kernel)
  have hu := compile_of h
  have htext : u.module.textFault? = none :=
    (hu.textFault?_eq_none_iff rfl (hu.isShallow hsymbols)).mpr ⟨hheadline, hstorable⟩
  exact ⟨u, h, hsymbols, Module.load_of_settings_error htext hu.isFree hsettings⟩

/-- **Supplied symbols.** Take a unit without preamble and private symbols, and an integer for each
of its symbols. Wherever its module computes a constant, every symbol in the formula is read as the
integer that is supplied for it. So loading a unit that is loadable and has no deep formulas fails
only where the arithmetic of a formula does on these integers, and when a module loads, every
variant has the value of its formula on them. -/
theorem load_supplied (h : compile text options = .ok u) (hpreamble : options.preamble = [])
    (hprivate : ∀ name ∈ u.symbols, startsWith "__" name = false) {supplied : Table String Int}
    (hsupplied : ∀ name, supplied.contains name = true ↔ name ∈ u.symbols) :
    (∀ s ∈ u.module.settings, ∀ site ∈ s.sites, ∀ f, site.constant.source = .formula f →
      ∀ name ∈ f.names, ∃ n, supplied.get? name = some n ∧ site.read supplied name = .ok n) ∧
    (u.IsLoadable options.read → u.IsShallow → ∀ fault, u.module.load supplied = .error fault →
      ∃ a, fault = .arithmetic a ∧ ∃ e ∈ u.resolved, ∃ v ∈ e.variants, v.isSymbolic = true ∧
        v.value.formula.evalIn supplied = .error (.arithmetic a)) ∧
    ∀ l, u.module.load supplied = .ok l →
      List.Forall₂ (fun e c => List.Forall₂ (fun v entry => entry.1 = v.name ∧
        v.value.formula.evalIn supplied = .ok entry.2) e.variants c.values)
        u.resolved l.classes := by
  have hu := compile_of h
  have hcontains := fun name => (hsupplied name).mpr
  refine ⟨fun s hs site hsite f hf name hname => ?_, fun hloadable hshallow fault hload => ?_,
    fun l hload => ?_⟩
  · obtain ⟨e, he, hhost, v, hv, hvariant⟩ := hu.exists_hosts hs hsite
    have hformula : v.value.formula = f :=
      formula_of_sourceOf (hvariant.name_source.2.symm.trans hf)
    exact hu.read_supplied hprivate hcontains hs he hhost hsite hv (hformula ▸ hname)
  · obtain ⟨s, hs, site, hsite, e, he, hhost, v, hv, herror⟩ :=
      hu.exists_eval_error hpreamble hshallow hloadable hload
    have hread : ∀ name ∈ v.value.formula.names,
        ∃ n, supplied.get? name = some n ∧ site.read supplied name = .ok n :=
      fun _ hname => hu.read_supplied hprivate hcontains hs he hhost hsite hv hname
    have heval : v.value.formula.evalIn supplied = .error fault := by
      rw [← herror]
      refine Formula.eval_congr fun name hname => ?_
      obtain ⟨n, hn, hsite⟩ := hread name hname
      rw [hsite, Formula.readIn_eq_ok.mpr hn]
    have hkeys : ∀ name ∈ v.value.formula.names, name ∈ supplied.keys := by
      intro name hname
      obtain ⟨n, hn, -⟩ := hread name hname
      exact Table.isSome_get?_iff.mp (Option.isSome_iff_exists.mpr ⟨n, hn⟩)
    obtain ⟨a, rfl⟩ := Formula.exists_arithmetic_of_evalIn_error hkeys heval
    exact ⟨a, rfl, e, he, v, hv, isSymbolic_of_evalIn_error heval, heval⟩
  · refine (forall₂_and_mem (hu.realizes hload)).imp fun e c ⟨he, _, hrealizes⟩ => ?_
    refine (forall₂_and_mem hrealizes.values).imp fun v entry ⟨hv, _, hname, _, heval⟩ => ?_
    refine ⟨hname.symm, (Formula.eval_congr fun name hname => ?_).trans heval⟩
    rw [privateName_of_not_private (hprivate name (mem_symbols.mpr ⟨e, he, v, hv, hname⟩))]

/-- A unit that adds to a symbol loads, and its variant has the sum. -/
theorem load_supplied_sum :
    ∃ u, compile "pub enum Mask: u8 { LOW = (u8) LIMIT + 1 }" {} = .ok u ∧
      u.symbols = ["LIMIT"] ∧
      ∃ l, u.module.load (.ofList [("LIMIT", 3)]) = .ok l ∧
        List.Forall₂ (fun e c => List.Forall₂ (fun v entry => entry.1 = v.name ∧
          v.value.formula.evalIn (.ofList [("LIMIT", 3)]) = .ok entry.2) e.variants c.values)
          u.resolved l.classes := by
  obtain ⟨u, h, hsymbols, hloadable, hshallow, hsum⟩ := exists_compile
    "pub enum Mask: u8 { LOW = (u8) LIMIT + 1 }" {}
    (p := fun u => u.symbols = ["LIMIT"] ∧ u.IsLoadable Docs.evaluate ∧ u.IsShallow ∧
      ∀ e ∈ u.resolved, ∀ v ∈ e.variants,
        v.value.formula.evalIn (.ofList [("LIMIT", 3)]) = .ok 4) (by decide +kernel)
  have hsupplied : ∀ name, (Table.ofList [("LIMIT", (3 : Int))]).contains name = true ↔
      name ∈ u.symbols := by
    intro name
    rw [hsymbols]
    exact Table.isSome_get?_iff
  obtain ⟨-, hfault, hvalues⟩ := load_supplied h rfl (hsymbols ▸ by decide) hsupplied
  refine ⟨u, h, hsymbols, ?_⟩
  cases hload : u.module.load (.ofList [("LIMIT", 3)]) with
  | ok l => exact ⟨l, rfl, hvalues l hload⟩
  | error fault =>
    obtain ⟨a, -, e, he, v, hv, -, herror⟩ := hfault hloadable hshallow fault hload
    rw [hsum e he v hv] at herror
    cases herror

/-- A name that starts with two underscores is another one in the body of a class, so the integer
that is supplied for it is not found. -/
theorem load_private_symbol :
    ∃ u, compile "pub enum A: u8 { X = (u8) __x }" {} = .ok u ∧ u.symbols = ["__x"] ∧
      u.module.load (.ofList [("__x", 1)]) = .error (.unbound "_A__x") := by
  obtain ⟨u, h, hsymbols, hloadable, hshallow, hsettings⟩ := exists_compile
    "pub enum A: u8 { X = (u8) __x }" {}
    (p := fun u => u.symbols = ["__x"] ∧ u.IsLoadable Docs.evaluate ∧ u.IsShallow ∧
      u.module.settings.mapM (·.load (.ofList [("__x", 1)])) = .error (.unbound "_A__x"))
    (by decide +kernel)
  have hu := compile_of h
  exact ⟨u, h, hsymbols, Module.load_of_settings_error
    (hu.textFault?_eq_none rfl hshallow hloadable) hu.isFree hsettings⟩

end CompiledUnit

end MaskEnum
