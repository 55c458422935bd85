import MaskEnum.Proofs.Declaration.Names
set_option autoImplicit false

/-!
# Names that are admitted

What the check for collisions leaves through, apart from names being pairwise different: every name
of a declaration can be bound by a program, and generated code neither looks it up nor gives it to
something of its own.

## Main definitions

* `MaskEnum.Admissible` — a name that can be given to anything in a declaration.
* `MaskEnum.EnumDecl.Admitted`, `MaskEnum.Declaration.Admitted` — all names can be given, and the
  variants of an enumeration have names of their own.
* `MaskEnum.Declaration.boundNames` — the names that a declaration binds at module level.

## Main results

* `MaskEnum.Collisions.admitted` — declarations that pass the check are admitted.
* `MaskEnum.Collisions.nodup_boundNames`, `MaskEnum.Collisions.eq_of_mem_boundNames` — no two of
  them bind the same name at module level.
-/

namespace MaskEnum

/-- A name that can be given to anything in a declaration. -/
structure Admissible (name : String) : Prop where
  notKeyword : isKeyword name = false
  notPrivate : startsWith "__" name = false
  notScope : name ∉ scopeNames
  notCompanion : startsWith companionMark name = false

/-- A variant whose name no generated member has, nor, if it stands for its position, a table of
ordinals refuses. -/
structure VariantDecl.Admitted (v : VariantDecl) : Prop where
  name : Admissible v.name
  notMember : v.name ∉ generatedMembers
  ordinal : v.isFieldless = true → isOrdinalReserved v.name = false

/-- An enumeration whose name and variants are admitted, with pairwise different variants. -/
structure EnumDecl.Admitted (e : EnumDecl) : Prop where
  name : Admissible e.name
  variants : ∀ v ∈ e.variants, v.Admitted
  nodup : (e.variants.map VariantDecl.name).Nodup

/-- A declaration whose name and enumerations are admitted. -/
structure Declaration.Admitted (d : Declaration) : Prop where
  scope : ∀ name ∈ d.scopeNames, Admissible name
  enums : ∀ e ∈ d.enums, e.Admitted

/-- The names that a declaration binds at module level: those of the block scope, and that of a
companion. -/
def Declaration.boundNames : Declaration → List String
  | .block enums => enums.map EnumDecl.name
  | .module name _ _ _ => [name, companionName name]

/-- Companions of different modules have different names. -/
theorem companionName_inj {m m' : String} (h : companionName m = companionName m') : m = m' := by
  have hlist := congrArg String.toList h
  rw [companionName, companionName, String.toList_append, String.toList_append] at hlist
  exact String.toList_inj.mp (List.append_cancel_left hlist)

/-- The name of a companion starts with the mark of companions. -/
theorem startsWith_companionName (m : String) :
    startsWith companionMark (companionName m) = true := by
  rw [startsWith, companionName, String.toList_append, List.isPrefixOf_iff_prefix]
  exact List.prefix_append _ _

/-- An admissible name is not that of a companion. -/
theorem Admissible.ne_companionName {name : String} (h : Admissible name) (m : String) :
    companionName m ≠ name := by
  rintro rfl
  have hmark := h.notCompanion
  rw [startsWith_companionName] at hmark
  cases hmark

/-- A name that a declaration binds at module level is one of the block scope or, for a module, that
of its companion. -/
theorem Declaration.mem_boundNames {d : Declaration} {name : String} (h : name ∈ d.boundNames) :
    name ∈ d.scopeNames ∨ ∃ m ∈ d.scopeNames, name = companionName m := by
  cases d with
  | block enums => exact .inl h
  | module m _ _ _ =>
    rcases List.mem_cons.mp h with rfl | h
    · exact .inl (List.mem_singleton_self _)
    · exact .inr ⟨m, List.mem_singleton_self m, List.mem_singleton.mp h⟩

/-- Declarations that share no name in the block scope share none at module level. -/
theorem Declaration.Admitted.disjoint_boundNames {d d' : Declaration} (h : d.Admitted)
    (h' : d'.Admitted) (hdisjoint : d.scopeNames.Disjoint d'.scopeNames) :
    d.boundNames.Disjoint d'.boundNames := by
  intro name hname hname'
  rcases mem_boundNames hname with hn | ⟨m, hm, rfl⟩
  · rcases mem_boundNames hname' with hn' | ⟨m', -, rfl⟩
    · exact hdisjoint hn hn'
    · exact (h.scope _ hn).ne_companionName m' rfl
  · rcases mem_boundNames hname' with hn' | ⟨m', hm', heq⟩
    · exact (h'.scope _ hn').ne_companionName m rfl
    · exact hdisjoint hm (companionName_inj heq ▸ hm')

namespace Collisions

/-! ## One name -/

variable {kind : NameKind} {name label : String} {position : Option Position}

/-- A check passes where there is nothing bad. -/
theorem refuse_eq_ok {bad : Bool} {fault : Fault} {u : Unit} :
    refuse bad fault position = .ok u ↔ bad = false := by
  unfold refuse
  cases bad with
  | false => exact ⟨fun _ => rfl, fun _ => rfl⟩
  | true => exact ⟨nofun, nofun⟩

/-- The three checks that every name has to pass. -/
theorem admissible_of_checks {u₁ u₂ u₃ : Unit} (h₁ : identifier kind name position = .ok u₁)
    (h₂ : scopeName kind name label position = .ok u₂)
    (h₃ : companion kind name label position = .ok u₃) : Admissible name := by
  obtain ⟨hkeyword, hprivate⟩ := Bool.or_eq_false_iff.mp (refuse_eq_ok.mp h₁)
  have hscope : ¬ scopeNames.contains name = true :=
    Bool.eq_false_iff.mp (refuse_eq_ok.mp h₂)
  exact ⟨hkeyword, hprivate, fun hmem => hscope (List.contains_iff_mem.mpr hmem),
    refuse_eq_ok.mp h₃⟩

/-! ## Scopes -/

/-- The variants of an enumeration, of which some names are taken already. -/
theorem variants_ok {enumeration : String} {seen : List String} {vs : List VariantDecl}
    (h : variants enumeration seen vs = .ok ()) :
    (∀ v ∈ vs, v.Admitted ∧ v.name ∉ seen) ∧ (vs.map VariantDecl.name).Nodup := by
  induction vs generalizing seen with
  | nil => exact ⟨List.forall_mem_nil _, List.nodup_nil⟩
  | cons v vs ih =>
    simp only [variants, bind_eq_ok] at h
    obtain ⟨_, h₁, _, hmember, _, h₂, _, h₃, _, hordinal, _, hseen, hrest⟩ := h
    obtain ⟨hall, hnodup⟩ := ih hrest
    have hv : v.Admitted := by
      refine ⟨admissible_of_checks h₁ h₂ h₃, ?_, fun hfieldless => ?_⟩
      · simpa using refuse_eq_ok.mp hmember
      · simpa [hfieldless] using refuse_eq_ok.mp hordinal
    refine ⟨List.forall_mem_cons.mpr ⟨⟨hv, by simpa using refuse_eq_ok.mp hseen⟩, ?_⟩, ?_⟩
    · exact fun w hw => ⟨(hall w hw).1, fun hs => (hall w hw).2 (List.mem_cons_of_mem _ hs)⟩
    · refine List.nodup_cons.mpr ⟨fun hmem => ?_, hnodup⟩
      obtain ⟨w, hw, heq⟩ := List.mem_map.mp hmem
      exact (hall w hw).2 (heq ▸ List.mem_cons_self)

/-- The enumerations of a scope. -/
theorem admitted_of_enums {scope scope' : Names} {es : List EnumDecl}
    (h : enums scope es = .ok scope') : ∀ e ∈ es, e.Admitted := by
  induction es generalizing scope with
  | nil => exact List.forall_mem_nil _
  | cons e es ih =>
    simp only [enums, bind_eq_ok] at h
    obtain ⟨_, h₁, _, h₂, _, h₃, _, _, _, hvariants, hrest⟩ := h
    obtain ⟨hall, hnodup⟩ := variants_ok hvariants
    exact List.forall_mem_cons.mpr
      ⟨⟨admissible_of_checks h₁ h₂ h₃, fun v hv => (hall v hv).1, hnodup⟩, ih hrest⟩

/-- One declaration. -/
theorem admitted_of_declaration {top top' : Names} {d : Declaration}
    (h : declaration top d = .ok top') : d.Admitted := by
  cases d with
  | block es =>
    have hes := admitted_of_enums h
    refine ⟨fun name hname => ?_, hes⟩
    obtain ⟨e, he, rfl⟩ := List.mem_map.mp hname
    exact (hes e he).name
  | module name access attributes es =>
    simp only [declaration, bind_eq_ok] at h
    obtain ⟨_, h₁, _, h₂, _, h₃, _, _, _, hes, _⟩ := h
    exact ⟨List.forall_mem_singleton.mpr (admissible_of_checks h₁ h₂ h₃), admitted_of_enums hes⟩

/-- Declarations after others. -/
theorem admitted_of_declarationsFrom {top : Names} {ds : List Declaration}
    (h : declarationsFrom top ds = .ok ()) : ∀ d ∈ ds, d.Admitted := by
  induction ds generalizing top with
  | nil => exact List.forall_mem_nil _
  | cons d ds ih =>
    obtain ⟨top', hd, hrest⟩ := bind_eq_ok.mp h
    exact List.forall_mem_cons.mpr ⟨admitted_of_declaration hd, ih hrest⟩

variable {ds : List Declaration} (h : declarations ds = .ok ())
include h

/-- **What is left through.** Every name in declarations that pass the check is admitted. -/
theorem admitted : ∀ d ∈ ds, d.Admitted := admitted_of_declarationsFrom h

/-- **Names at module level.** The names that declarations bind at module level are pairwise
different. -/
theorem nodup_boundNames : (ds.flatMap Declaration.boundNames).Nodup := by
  obtain ⟨hscope, hdisjoint⟩ := List.nodup_flatMap.mp (declarations_ok h).1
  refine List.nodup_flatMap.mpr ⟨fun d hd => ?_, ?_⟩
  · cases d with
    | block enums => exact hscope _ hd
    | module name access attributes enums =>
      have hname := (admitted h _ hd).scope name (List.mem_singleton_self name)
      exact List.nodup_cons.mpr
        ⟨fun hmem => hname.ne_companionName name (List.mem_singleton.mp hmem).symm,
          List.nodup_singleton _⟩
  · refine hdisjoint.imp_of_mem fun hd hd' hdd => ?_
    exact (admitted h _ hd).disjoint_boundNames (admitted h _ hd') hdd

/-- **One meaning.** No two declarations bind the same name at module level. -/
theorem eq_of_mem_boundNames {d d' : Declaration} (hd : d ∈ ds) (hd' : d' ∈ ds) {name : String}
    (hname : name ∈ d.boundNames) (hname' : name ∈ d'.boundNames) : d = d' := by
  have hdisjoint := (List.nodup_flatMap.mp (nodup_boundNames h)).2
  exact List.Pairwise.forall_of_forall_of_flip
    (R := fun d d' => name ∈ d.boundNames → name ∈ d'.boundNames → d = d')
    (fun _ _ _ _ => rfl) (hdisjoint.imp fun hdd hn hn' => (hdd hn hn').elim)
    (hdisjoint.imp fun hdd hn hn' => (hdd hn' hn).elim) hd hd' hname hname'

end Collisions

end MaskEnum
