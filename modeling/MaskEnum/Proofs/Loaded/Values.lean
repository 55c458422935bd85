import MaskEnum.Machine
import MaskEnum.Proofs.Loaded.Settings
set_option autoImplicit false

/-!
# Values of loaded constants

The constant of a variant is loaded with the value of the variant's formula, in which the body of
the class reads names. For a variant without initializer that is its position, as its table of
ordinals knows it; only a member that the table keeps to itself is not found there.

## Main definitions

* `MaskEnum.ResolvedEnum.hides` — whether a variant is a member that its table keeps to itself.
* `MaskEnum.Formula.evalInBody` — the value of a formula in the body of a class.
* `MaskEnum.LoadedClass.Realizes` — a class with the values of a resolved enumeration.

## Main results

* `MaskEnum.Generated.Site.Hosts.eval_eq` — the value that a constant gets.
* `MaskEnum.CompiledUnit.Of.read_eq` — a symbol stands for the integer that is supplied for it.
* `MaskEnum.CompiledUnit.Of.realizes` — loaded classes have the values of the unit.
-/

namespace MaskEnum

/-- Whether a variant is a member of a table of ordinals that the table keeps to itself. -/
def ResolvedEnum.hides (e : ResolvedEnum) (v : ResolvedVariant) : Bool :=
  e.companion?.isSome && (Generated.tableOf e).isPrivate v.name

/-- The value of a formula in the body of a class, where names stand for constants of a table. -/
def Formula.evalInBody (supplied : Table String Int) (className : String) (f : Formula) :
    Except LoadFault Int :=
  f.eval (fun name => readIn supplied (Generated.privateName className name)) .arithmetic

/-- The class has the definition of an enumeration, whoever has read its documentation, and a value
for each of its variants. -/
structure LoadedClass.Realizes (c : LoadedClass) (supplied : Table String Int)
    (e : ResolvedEnum) : Prop where
  definition : ∃ read, Generated.classOf read e.companion? e = .ok c.definition
  values : List.Forall₂ (fun v entry => v.name = entry.1 ∧ e.hides v = false ∧
    v.value.formula.evalInBody supplied e.decl.name = .ok entry.2) e.variants c.values

namespace Generated

variable {supplied : Table String Int}

/-! ## Ordinals -/

/-- The ordinal of a member is its position, unless the table keeps the member to itself. -/
theorem OrdinalTable.ordinal?_eq {t : OrdinalTable} (ht : t.members.Nodup) {member : String}
    {index : Nat} (h : (member, index) ∈ t.members.zipIdx) :
    t.ordinal? member = if t.isPrivate member then none else some index := by
  have hnodup : (t.ordinals.map Prod.fst).Nodup := by
    refine (List.filter_sublist.map Prod.fst).nodup ?_
    rwa [List.zipIdx_map_fst]
  unfold ordinal?
  split_ifs with hprivate
  · rw [Option.map_eq_none_iff, List.find?_eq_none]
    rintro ⟨other, index'⟩ hother heq
    obtain rfl := eq_of_beq heq
    have hpublic := (List.mem_filter.mp hother).2
    simp [hprivate] at hpublic
  · have hmem : (member, index) ∈ t.ordinals :=
      List.mem_filter.mpr ⟨h, by simpa using hprivate⟩
    have hfind : t.ordinals.find? (·.1 == member) = some (member, index) :=
      find?_eq_some_of_nodup hnodup hmem
    rw [hfind]
    rfl

/-! ## Values at sites -/

/-- **Values.** The constant of a variant gets the value of the variant's formula, unless it is
hidden. -/
theorem Site.Hosts.eval_eq {site : Site} {e : ResolvedEnum} {v : ResolvedVariant}
    (h : site.Hosts e v) (hplace : e.InPlace) (hdecl : e.decl.Admitted) (hv : v ∈ e.variants) :
    site.eval supplied =
      if e.hides v then .error (.missingMember e.decl.name v.name)
      else v.value.formula.eval (site.read supplied) .arithmetic := by
  have hsource := h.name_source.2
  unfold Site.eval ResolvedEnum.hides
  cases hcompanion : e.companion? with
  | none =>
    have hformula : sourceOf none e v = .formula v.value.formula := by
      unfold sourceOf
      split
      · next heq => cases heq
      · rfl
    rw [hsource, hcompanion, hformula]
    rfl
  | some companion =>
    have hfieldless : e.decl.isFieldless = true := by
      unfold ResolvedEnum.companion? at hcompanion
      split_ifs at hcompanion with hfieldless
      exact hfieldless
    obtain ⟨index, hindex, rfl⟩ := List.mem_iff_getElem.mp hv
    have hzip : (e.variants[index], index) ∈ e.variants.zipIdx :=
      List.mk_mem_zipIdx_iff_getElem?.mpr (List.getElem?_eq_getElem hindex)
    obtain ⟨hordinal, hvalue⟩ := hplace.ordinals hfieldless hzip
    have hmember : sourceOf (some companion) e e.variants[index] =
        .member companion e.decl.name e.variants[index].name := by
      simp only [sourceOf, hordinal]
    have hnames : (tableOf e).members.Nodup := by
      rw [tableOf, hplace.names]
      exact hdecl.nodup
    have hentry : (e.variants[index].name, index) ∈ (tableOf e).members.zipIdx := by
      rw [tableOf, List.zipIdx_map]
      exact List.mem_map_of_mem (f := Prod.map ResolvedVariant.name id) hzip
    rw [hsource, hcompanion, hmember]
    dsimp only
    rw [h.table (by rw [hcompanion]; rfl), Option.bind_some, OrdinalTable.ordinal?_eq hnames hentry,
      hvalue]
    simp only [Option.isSome_some, Bool.true_and]
    split_ifs <;> rfl

end Generated

/-! ## Symbols -/

namespace CompiledUnit

/-- The symbols of a unit are the names in its formulas. -/
theorem mem_symbols {u : CompiledUnit} {name : String} :
    name ∈ u.symbols ↔ ∃ e ∈ u.resolved, ∃ v ∈ e.variants, name ∈ v.value.formula.names := by
  rw [symbols, mem_sortedNames, List.mem_flatMap]
  refine exists_congr fun e => and_congr_right fun _ => ?_
  rw [ResolvedEnum.symbols, mem_sortedNames, List.mem_flatMap]

end CompiledUnit

/-- A symbol that passes the check is no name of a variant and none at module level. -/
theorem Collisions.not_mem_of_symbols {ds : List Declaration} {resolved : List ResolvedEnum}
    (h : symbols ds resolved = .ok ()) {e : ResolvedEnum} (he : e ∈ resolved)
    {v : ResolvedVariant} (hv : v ∈ e.variants) {name : String}
    (hname : name ∈ v.value.formula.names) :
    name ∉ e.variants.map ResolvedVariant.name ∧ name ∉ moduleNames ds := by
  have hcheck := forM_eq_ok.mp h e he
  unfold symbolsOf at hcheck
  split at hcheck
  · cases hcheck
  · next hnone =>
    have hsymbol : name ∈ e.symbols :=
      mem_sortedNames.mpr (List.mem_flatMap.mpr ⟨v, hv, hname⟩)
    simpa using List.find?_eq_none.mp hnone name hsymbol

namespace Generated

/-- A name that is not private is the same in every class. -/
theorem privateName_of_not_private {className name : String} (h : startsWith "__" name = false) :
    privateName className name = name := by
  unfold privateName
  simp [h]

/-- What the body of a class has from the start is private. -/
theorem startsWith_of_mem_bodyNames {c : Class} :
    ∀ name ∈ c.bodyNames, startsWith "__" name = true := by
  intro name hname
  have hcases : name ∈ ["__module__", "__qualname__", "__annotations__", "__underlying_type__",
      "__type_visibility__", "__field_visibility__", "__doc__"] := by
    rcases List.mem_append.mp hname with hname | hname
    · exact List.mem_append_left ["__doc__"] hname
    · split_ifs at hname
      · cases hname
      · exact List.mem_append_right ["__module__", "__qualname__", "__annotations__",
          "__underlying_type__", "__type_visibility__", "__field_visibility__"] hname
  have hall : ∀ name ∈ ["__module__", "__qualname__", "__annotations__", "__underlying_type__",
      "__type_visibility__", "__field_visibility__", "__doc__"],
      startsWith "__" name = true := by
    decide
  exact hall name hcases

/-- What a site reads is an integer that is supplied for the name as the class has it. -/
theorem Site.get?_of_read_eq_ok {site : Site} {supplied : Table String Int} {name : String}
    {n : Int} (h : site.read supplied name = .ok n) :
    supplied.get? (privateName site.className name) = some n := by
  unfold Site.read readName at h
  split at h
  · cases h
  · split at h
    · next value hvalue => exact Except.ok.inj h ▸ hvalue
    · split at h <;> cases h

end Generated

namespace CompiledUnit.Of

open Generated

variable {text : String} {options : Options} {u : CompiledUnit} (hu : u.Of text options)
  {supplied : Table String Int}
include hu

/-- **Symbols.** At the sites of an enumeration, a symbol of one of its formulas that is not private
stands for the integer that is supplied for it. -/
theorem read_eq {s : Setting} (hs : s ∈ u.module.settings) {e : ResolvedEnum}
    (he : e ∈ u.resolved) (hhost : s.Hosts e) {site : Site} (hsite : site ∈ s.sites)
    {v : ResolvedVariant} (hv : v ∈ e.variants) {name : String}
    (hname : name ∈ v.value.formula.names) (hprivate : startsWith "__" name = false) {n : Int}
    (hn : supplied.get? name = some n) : site.read supplied name = .ok n := by
  obtain ⟨hvariant, hmodule⟩ := Collisions.not_mem_of_symbols hu.symbols he hv hname
  have hundefined : ¬ site.defined.contains name = true := by
    rw [List.contains_iff_mem]
    intro hmem
    rcases hhost.defined hsite hmem with hbody | hdefined | hmem
    · rw [startsWith_of_mem_bodyNames name hbody] at hprivate
      cases hprivate
    · rcases hu.defined hs name hdefined with hmem | hdunder
      · exact hmodule hmem
      · rw [hdunder] at hprivate
        cases hprivate
    · exact hvariant hmem
  rw [Site.read, privateName_of_not_private hprivate, readName, if_neg hundefined, hn]

/-- **Loaded values.** Every loaded class has the values of its enumeration, as the body of the
class reads the names in their formulas. -/
theorem realizes {l : Loaded} (h : u.module.load supplied = .ok l) :
    List.Forall₂ (fun e c => LoadedClass.Realizes c supplied e) u.resolved l.classes := by
  obtain ⟨-, -, -, -, hclasses⟩ := Module.load_eq_ok.mp h
  have hcomp : List.Forall₂ (fun e c => e ∈ u.resolved ∧
      ∃ s : Setting, s.Hosts e ∧ s.load supplied = .ok c) u.resolved l.classes := by
    refine forall₂_trans ?_ (forall₂_and_mem hu.hosts) hclasses
    exact fun e s c hs hc => ⟨hs.1, s, hs.2.2, hc⟩
  refine hcomp.imp ?_
  rintro e c ⟨he, s, hhost, hload⟩
  obtain ⟨hdefinition, hvalues⟩ := Setting.load_eq_ok.mp hload
  refine ⟨hdefinition ▸ hhost.definition, ?_⟩
  refine forall₂_trans ?_ (forall₂_and_mem hhost.sites) hvalues
  rintro v site entry ⟨hv, -, hsite⟩ ⟨hname, heval⟩
  rw [hsite.eval_eq (hu.inPlace he) (hu.admitted_decl he) hv] at heval
  split_ifs at heval with hhidden
  refine ⟨hsite.name_source.1 ▸ hname, by simpa using hhidden, ?_⟩
  refine Formula.eval_eq_ok_of_read (fun name _ m hm => ?_) heval
  rw [← hsite.className]
  exact Formula.readIn_eq_ok.mpr (Site.get?_of_read_eq_ok hm)

end CompiledUnit.Of

namespace LoadedClass.Realizes

variable {c : LoadedClass} {supplied : Table String Int} {e : ResolvedEnum}
  (h : c.Realizes supplied e)
include h

/-- The class has the name and the type of the enumeration. -/
theorem name_type : c.name = e.decl.qualifiedName ∧ c.type = e.decl.type := by
  obtain ⟨read, hclass⟩ := h.definition
  obtain ⟨_, _, _, _, hdefinition⟩ := Generated.classOf_eq_ok.mp hclass
  rw [LoadedClass.name, LoadedClass.type, hdefinition]
  exact ⟨rfl, rfl⟩

/-- The constants have the names of the variants. -/
theorem names : c.values.map Prod.fst = e.variants.map ResolvedVariant.name :=
  (map_eq_of_forall₂ (h.values.imp fun _ _ hv => hv.1)).symm

/-- The constants have the values of the formulas, so the known values where there are any. -/
theorem loaded :
    List.Forall₂ (fun v entry => entry.1 = v.name ∧
      v.value.formula.evalInBody supplied e.decl.name = .ok entry.2 ∧
      ∀ n, v.value = .known n → entry.2 = n) e.variants c.values := by
  refine h.values.imp fun v entry hv => ⟨hv.1.symm, hv.2.2, fun n hn => ?_⟩
  have heval := hv.2.2
  rw [hn] at heval
  exact (Except.ok.inj heval).symm

/-- A constant is found by its name. -/
theorem constant?_eq (hnodup : (e.variants.map ResolvedVariant.name).Nodup) {entry : String × Int}
    (hentry : entry ∈ c.values) : c.constant? entry.1 = some entry.2 := by
  have hfind : c.values.find? (·.1 == entry.1) = some entry :=
    find?_eq_some_of_nodup (h.names ▸ hnodup) hentry
  rw [LoadedClass.constant?, hfind]
  rfl

/-- No member of the table of ordinals is kept back. -/
theorem ordinals_tableOf (hcompanion : e.companion?.isSome = true) :
    (Generated.tableOf e).ordinals = (e.variants.map ResolvedVariant.name).zipIdx := by
  refine List.filter_eq_self.mpr fun entry hentry => ?_
  obtain ⟨v, hv, hname⟩ := List.mem_map.mp (List.fst_mem_of_mem_zipIdx hentry)
  obtain ⟨_, -, -, hpublic, -⟩ := exists_right_of_forall₂ h.values hv
  rw [ResolvedEnum.hides, hcompanion, Bool.true_and, hname] at hpublic
  rw [hpublic]
  rfl

/-- The constants lie in the range of the type. -/
theorem contains (hfits : e.Fits) {entry : String × Int} (hentry : entry ∈ c.values) :
    c.type.contains entry.2 = true := by
  obtain ⟨v, hv, -, -, hvalue⟩ := exists_left_of_forall₂ h.values hentry
  rw [h.name_type.2]
  exact (hfits v hv).contains_of_eval hvalue

end LoadedClass.Realizes

end MaskEnum
