import MaskEnum.Proofs.Generated.Documentation
import MaskEnum.Proofs.Verdict
set_option autoImplicit false

/-!
# How compiling fails

A text that has tokens is compiled or refused with a verdict on its declarations, with two
exceptions: an attribute of declarations that pass every check may hold an expression whose reading
fails, and the report of a value may have to tell an integer with too many digits. Then that fault
comes out as it is.

## Main results

* `MaskEnum.compile_of_tokenize` — the outcomes of compiling a text that has tokens.
* `MaskEnum.compile_unhashable` — a text for which the first exception happens.
-/

namespace MaskEnum

variable {text : String} {options : Options}

/-- The module for declarations that pass every check fails with the first fault of their
attributes. -/
theorem ofUnit_failsAtFirst_of_checked {ds : List Declaration} {rs : List ResolvedEnum}
    (hds : declarationsOf text = .ok ds) (hcollisions : Collisions.declarations ds = .ok ())
    (hrs : resolveUnit (ds.flatMap Declaration.enums) options.environment = .ok rs) :
    FailsAtFirst options.read (ds.flatMap Declaration.allAttributes)
      (Generated.ofUnit options.read ds rs options.source options.preamble) :=
  (checked_of_declarationsOf hds hcollisions).ofUnit_failsAtFirst hrs _ _

/-- If a text with tokens does not compile, then the reason is a verdict, an integer that cannot be
told, or the first fault of an attribute. -/
theorem compile_error {list : TokenList} (h : tokenize text = .ok list) {err : Error}
    (herr : compile text options = .error err) :
    err.fault.isVerdict = true ∨
      ∃ ds, declarationsOf text = .ok ds ∧
        ((err = ⟨.unwritable, none⟩ ∧
            HasUnwritable (ds.flatMap Declaration.enums) options.environment) ∨
          ∃ fault, (ds.flatMap Declaration.allAttributes).findSome? (Docs.fault? options.read) =
              some fault ∧ err = ⟨.documentation fault, none⟩) := by
  rcases bind_eq_error.mp herr with herr | ⟨ds, hds, herr⟩
  · exact .inl (declarationsOf_fails h err herr)
  rcases bind_eq_error.mp herr with herr | ⟨⟨⟩, hcollisions, herr⟩
  · exact .inl (Collisions.declarations_fails ds err herr)
  rcases bind_eq_error.mp herr with herr | ⟨rs, hrs, herr⟩
  · exact (resolveUnit_fails herr).imp_right fun hunwritable => ⟨ds, hds, .inl hunwritable⟩
  rcases bind_eq_error.mp herr with herr | ⟨⟨⟩, -, herr⟩
  · exact .inl (Collisions.symbols_fails ds rs err herr)
  rcases bind_eq_error.mp herr with herr | ⟨module, -, herr⟩
  · obtain ⟨f, hf, rfl⟩ := mapError_eq_error.mp herr
    have hfirst : FailsAtFirst options.read (ds.flatMap Declaration.allAttributes)
        (Generated.ofUnit options.read ds rs options.source options.preamble) :=
      ofUnit_failsAtFirst_of_checked hds hcollisions hrs
    rw [hf] at hfirst
    obtain ⟨fault, hfault, rfl⟩ := hfirst.of_error
    exact .inr ⟨ds, hds, .inr ⟨fault, hfault, rfl⟩⟩
  · cases herr

/-- If a text compiles, then every expression in its attributes can be read. -/
theorem fault?_eq_none_of_compile {u : CompiledUnit} (h : compile text options = .ok u) :
    ∀ attr ∈ u.declarations.flatMap Declaration.allAttributes,
      Docs.fault? options.read attr = none := by
  have hu := compile_of h
  have hfirst := ofUnit_failsAtFirst_of_checked hu.declarationsOf hu.collisions hu.resolveUnit
  rw [hu.ofUnit] at hfirst
  exact hfirst.of_ok

/-- A text that passes every check compiles exactly if every expression in its attributes can be
read. -/
theorem exists_compile_iff_of_checked {ds : List Declaration} {rs : List ResolvedEnum}
    (hds : declarationsOf text = .ok ds) (hcollisions : Collisions.declarations ds = .ok ())
    (hrs : resolveUnit (ds.flatMap Declaration.enums) options.environment = .ok rs)
    (hsymbols : Collisions.symbols ds rs = .ok ()) :
    (∃ u, compile text options = .ok u) ↔
      ∀ attr ∈ ds.flatMap Declaration.allAttributes, Docs.fault? options.read attr = none := by
  constructor
  · rintro ⟨u, hu⟩
    obtain rfl := Except.ok.inj ((compile_of hu).declarationsOf.symm.trans hds)
    exact fault?_eq_none_of_compile hu
  · intro hall
    have hfirst := ofUnit_failsAtFirst_of_checked hds hcollisions hrs
    rw [FailsAtFirst, List.findSome?_eq_none_iff.mpr hall] at hfirst
    obtain ⟨module, hmodule⟩ := hfirst
    let u : CompiledUnit :=
      ⟨ds, rs, ds.flatMap (Surface.ofDeclaration (Generated.byName rs)), module⟩
    have hu : u.Of text options := ⟨hds, hcollisions, hrs, hsymbols, hmodule, rfl⟩
    exact ⟨u, hu.compile_eq⟩

/-- **Outcomes of compiling.** A text that has tokens compiles, and then every expression in its
attributes can be read. Or it is refused with a verdict on its declarations. Or the report of a
value would have to tell an integer with too many digits, which is written in the declarations or
comes from elsewhere. Or, if nothing of this is due, it fails with the first attribute in the text
whose expression cannot be read. So a text that passes every check compiles exactly if there is no
such attribute. This holds for every reader of expressions. No look-up by the full name of an
enumeration misses on the way. -/
theorem compile_of_tokenize {list : TokenList} (h : tokenize text = .ok list) (options : Options) :
    ((∃ u, compile text options = .ok u ∧
        ∀ attr ∈ u.declarations.flatMap Declaration.allAttributes,
          Docs.fault? options.read attr = none) ∨
      (∃ err, compile text options = .error err ∧ err.fault.isVerdict = true) ∨
      ∃ ds, declarationsOf text = .ok ds ∧
        ((compile text options = .error ⟨.unwritable, none⟩ ∧
            HasUnwritable (ds.flatMap Declaration.enums) options.environment) ∨
          ∃ fault, (ds.flatMap Declaration.allAttributes).findSome? (Docs.fault? options.read) =
              some fault ∧ compile text options = .error ⟨.documentation fault, none⟩)) ∧
    (∀ ds rs, declarationsOf text = .ok ds → Collisions.declarations ds = .ok () →
      resolveUnit (ds.flatMap Declaration.enums) options.environment = .ok rs →
      Collisions.symbols ds rs = .ok () →
      ((∃ u, compile text options = .ok u) ↔
        ∀ attr ∈ ds.flatMap Declaration.allAttributes, Docs.fault? options.read attr = none)) ∧
    ∀ ds, declarationsOf text = .ok ds →
      LooksUp (ds.flatMap Declaration.enums) options.environment := by
  refine ⟨?_, fun ds rs => exists_compile_iff_of_checked, fun ds _ => looksUp _ _⟩
  cases hcompile : compile text options with
  | ok u => exact .inl ⟨u, rfl, fault?_eq_none_of_compile hcompile⟩
  | error err =>
    rcases compile_error h hcompile with hverdict | ⟨ds, hds, ⟨rfl, hlarge⟩ | ⟨fault, hfault, rfl⟩⟩
    · exact .inr (.inl ⟨err, rfl, hverdict⟩)
    · exact .inr (.inr ⟨ds, hds, .inl ⟨rfl, hlarge⟩⟩)
    · exact .inr (.inr ⟨ds, hds, .inr ⟨fault, hfault, rfl⟩⟩)

/-- An enumeration whose value cannot be computed. -/
def divided : String := "pub enum A: u8 \x7b X = 1 / 0 \x7d"

/-- `divided` is refused. -/
theorem compile_of_tokenize_divided :
    ∃ list, tokenize divided = .ok list ∧
      ∃ err, compile divided {} = .error err ∧ err.fault.isVerdict = true := by
  have hfault : compile divided {} =
      .error ⟨.resolution "A::X" (.arithmetic .zeroDivisor), some ⟨1, 18⟩⟩ :=
    eq_error (by decide +kernel)
  obtain ⟨list, hlist⟩ : ∃ list, tokenize divided = .ok list := exists_eq_ok (by decide +kernel)
  refine ⟨list, hlist, ?_⟩
  obtain ⟨⟨u, hu, -⟩ | herr | ⟨ds, -, ⟨herr, -⟩ | ⟨fault, -, herr⟩⟩, -⟩ :=
    compile_of_tokenize hlist {}
  · rw [hfault] at hu
    cases hu
  · exact herr
  · rw [hfault] at herr
    cases herr
  · rw [hfault] at herr
    cases herr

/-- An enumeration with documentation whose expression has a set with a list in it. -/
def unhashable : String := "#[doc = \"a\", \x7b[]\x7d] pub enum A: u8 \x7b X = 1 \x7d"

/-- `unhashable` has tokens, but it is neither compiled nor refused with a verdict. -/
theorem compile_unhashable :
    (∃ list, tokenize unhashable = .ok list) ∧
      compile unhashable {} = .error ⟨.documentation .unhashableKey, none⟩ ∧
      ¬ ((∃ u, compile unhashable {} = .ok u) ∨
        ∃ err, compile unhashable {} = .error err ∧ err.fault.isVerdict = true) := by
  have hfault : compile unhashable {} = .error ⟨.documentation .unhashableKey, none⟩ :=
    eq_error (by decide +kernel)
  refine ⟨exists_eq_ok (by decide +kernel), hfault, ?_⟩
  rintro (⟨u, hu⟩ | ⟨err, herr, hverdict⟩)
  · rw [hfault] at hu
    cases hu
  · obtain rfl := Except.error.inj (hfault.symm.trans herr)
    cases hverdict

end MaskEnum
