import MaskEnum.Proofs.Generated.Unit
set_option autoImplicit false

/-!
# Documentation that cannot be read

Reading the expression behind `doc =` may fail, whatever the reader. Generating a module then fails,
with the fault of the first such attribute, and it fails for no other reason.

## Main definitions

* `MaskEnum.Docs.fault?` — why reading the expression of an attribute fails.
* `MaskEnum.FailsAtFirst` — a step fails with the first fault of a list of attributes.

## Main results

* `MaskEnum.Generated.ofUnit_failsAtFirst` — a module fails with the first fault of the attributes
  of its declarations, in the order of the text.
-/

namespace MaskEnum

/-- Why reading the expression of an attribute for documentation fails, if it does. -/
def Docs.fault? (read : Reader) (attr : String) : Option ExpressionFault :=
  match outcome read attr with
  | .broken fault => some fault
  | .text _ | .other | .none => none

/-- The step fails with the fault of the first of these attributes whose expression cannot be read,
and succeeds if each can. -/
def FailsAtFirst {α : Type} (read : Docs.Reader) (attrs : List String) (r : Except Fault α) :
    Prop :=
  match attrs.findSome? (Docs.fault? read) with
  | some fault => r = .error (.documentation fault)
  | none => ∃ a, r = .ok a

variable {read : Docs.Reader}

section Steps

variable {α β : Type} {attrs attrs' : List String}

/-- If the step succeeds, then every expression can be read. -/
theorem FailsAtFirst.of_ok {a : α} (h : FailsAtFirst read attrs (.ok a : Except Fault α)) :
    ∀ attr ∈ attrs, Docs.fault? read attr = none := by
  unfold FailsAtFirst at h
  split at h
  · cases h
  · next hnone => exact List.findSome?_eq_none_iff.mp hnone

/-- If it fails, then with the first fault. -/
theorem FailsAtFirst.of_error {f : Fault}
    (h : FailsAtFirst read attrs (.error f : Except Fault α)) :
    ∃ fault, attrs.findSome? (Docs.fault? read) = some fault ∧ f = .documentation fault := by
  unfold FailsAtFirst at h
  split at h
  · next fault hfault => exact ⟨fault, hfault, Except.error.inj h⟩
  · obtain ⟨a, ha⟩ := h
    cases ha

/-- A step that uses no attributes. -/
theorem failsAtFirst_ok (a : α) : FailsAtFirst read [] (.ok a) := ⟨a, rfl⟩

/-- A chain of two steps uses the attributes of both. -/
theorem FailsAtFirst.bind {r : Except Fault α} {f : α → Except Fault β}
    (hr : FailsAtFirst read attrs r)
    (hf : ∀ a, r = .ok a → FailsAtFirst read attrs' (f a)) :
    FailsAtFirst read (attrs ++ attrs') (r >>= f) := by
  unfold FailsAtFirst at hr ⊢
  rw [List.findSome?_append]
  cases hfirst : attrs.findSome? (Docs.fault? read) with
  | some fault =>
    rw [hfirst] at hr
    exact bind_eq_error.mpr (.inl hr)
  | none =>
    rw [hfirst] at hr
    obtain ⟨a, rfl⟩ := hr
    exact hf a rfl

/-- A step whose result is used with success. -/
theorem FailsAtFirst.bind_ok {r : Except Fault α} (hr : FailsAtFirst read attrs r) (g : α → β) :
    FailsAtFirst read attrs (r >>= fun a => .ok (g a)) := by
  have h := hr.bind fun a _ => failsAtFirst_ok (g a)
  rwa [List.append_nil] at h

/-- The same step for all elements of a list uses the attributes of each. -/
theorem failsAtFirst_mapM {f : α → Except Fault β} {attributes : α → List String} {as : List α}
    (h : ∀ a ∈ as, FailsAtFirst read (attributes a) (f a)) :
    FailsAtFirst read (as.flatMap attributes) (as.mapM f) := by
  induction as with
  | nil => exact failsAtFirst_ok []
  | cons a as ih =>
    obtain ⟨ha, has⟩ := List.forall_mem_cons.mp h
    rw [List.flatMap_cons, List.mapM_cons]
    exact ha.bind fun b _ => (ih has).bind_ok _

end Steps

/-- The documentation of an attribute. -/
theorem Docs.docText_failsAtFirst (attr : String) :
    FailsAtFirst read [attr] (docText read attr) := by
  rw [FailsAtFirst, List.findSome?_singleton, fault?, docText]
  cases outcome read attr with
  | text points => exact ⟨_, rfl⟩
  | other | none => exact ⟨_, rfl⟩
  | broken fault => rfl

/-- The metadata of attributes. -/
theorem Notes.ofAttributes_failsAtFirst (attrs : List String) :
    FailsAtFirst read attrs (ofAttributes read attrs) := by
  induction attrs with
  | nil => exact failsAtFirst_ok _
  | cons attr attrs ih =>
    refine (Docs.docText_failsAtFirst attr).bind fun text _ => ?_
    cases text with
    | none => exact ih.bind_ok _
    | some text => exact ih.bind_ok _

namespace Generated

/-- The class of an enumeration. -/
theorem classOf_failsAtFirst (companion : Option String) {e : ResolvedEnum} (he : e.InPlace) :
    FailsAtFirst read e.decl.allAttributes (classOf read companion e) := by
  have hconstants : FailsAtFirst read (e.decl.variants.flatMap (·.attributes))
      (e.variants.mapM (constantOf read companion e)) := by
    have hattributes :
        e.variants.flatMap (·.attributes) = e.decl.variants.flatMap (·.attributes) := by
      rw [List.flatMap_def, List.flatMap_def]
      exact congrArg List.flatten he.attributes
    rw [← hattributes]
    exact failsAtFirst_mapM fun v _ => (Notes.ofAttributes_failsAtFirst v.attributes).bind_ok _
  exact (Notes.ofAttributes_failsAtFirst e.decl.attributes).bind fun _ _ => hconstants.bind_ok _

/-- The classes of resolved enumerations. -/
theorem classes_failsAtFirst (companion : ResolvedEnum → Option String)
    {members : List ResolvedEnum} (hmembers : ∀ e ∈ members, e.InPlace) :
    FailsAtFirst read ((members.map ResolvedEnum.decl).flatMap EnumDecl.allAttributes)
      (members.mapM fun e => classOf read (companion e) e) := by
  rw [List.flatMap_map]
  exact failsAtFirst_mapM fun e he => classOf_failsAtFirst (companion e) (hmembers e he)

/-- The items of a declaration. -/
theorem itemsOf_failsAtFirst {resolved : Table QualifiedName ResolvedEnum} {d : Declaration}
    (hdecl : (membersOf resolved d).map ResolvedEnum.decl = d.enums)
    (hmembers : ∀ e ∈ membersOf resolved d, e.InPlace) :
    FailsAtFirst read d.allAttributes (itemsOf read resolved d) := by
  cases d with
  | block enums =>
    have hclasses := @classes_failsAtFirst read (fun _ => none) _ hmembers
    rw [hdecl] at hclasses
    simp only [itemsOf, mapM_single]
    exact hclasses.bind_ok _
  | module name access attributes enums =>
    have hclasses := @classes_failsAtFirst read (companionOf name) _ hmembers
    rw [hdecl] at hclasses
    exact (Notes.ofAttributes_failsAtFirst attributes).bind fun _ _ => hclasses.bind_ok _

/-- **Modules.** The module for the declarations of a unit fails with the first fault of their
attributes. -/
theorem ofUnit_failsAtFirst {ds : List Declaration} {rs : List ResolvedEnum}
    (hnames : (rs.map fun r => r.decl.qualifiedName).Nodup)
    (hdecl : rs.map ResolvedEnum.decl = ds.flatMap Declaration.enums)
    (hplace : ∀ r ∈ rs, r.InPlace) (source : Option String) (preamble : List String) :
    FailsAtFirst read (ds.flatMap Declaration.allAttributes)
      (ofUnit read ds rs source preamble) := by
  have hitems : FailsAtFirst read (ds.flatMap Declaration.allAttributes)
      (ds.mapM (itemsOf read (byName rs))) := by
    refine failsAtFirst_mapM fun d hd => itemsOf_failsAtFirst ?_ fun e he =>
      hplace e (mem_of_membersOf he)
    exact map_decl_membersOf hnames fun e he => hdecl ▸ List.mem_flatMap.mpr ⟨d, hd, he⟩
  exact hitems.bind_ok _

end Generated

/-- The module for declarations that pass the check fails with the first fault of their
attributes. -/
theorem Checked.ofUnit_failsAtFirst {ds : List Declaration} (h : Checked ds)
    {environment : Environment} {rs : List ResolvedEnum}
    (hrs : resolveUnit (ds.flatMap Declaration.enums) environment = .ok rs)
    (source : Option String) (preamble : List String) :
    FailsAtFirst read (ds.flatMap Declaration.allAttributes)
      (Generated.ofUnit read ds rs source preamble) := by
  have hnodup := h.nodup_qualifiedName
  have hdecl := resolveUnit_decl hnodup hrs
  refine Generated.ofUnit_failsAtFirst ?_ hdecl (resolveUnit_inPlace hrs) _ _
  rwa [← hdecl, List.map_map] at hnodup

end MaskEnum
