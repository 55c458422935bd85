import MaskEnum.Declaration.Collisions
import MaskEnum.Proofs.Relabeling
set_option autoImplicit false

/-!
# Names do not depend on places and attributes

Whether the names of a unit can stand side by side is decided by the names alone.

## Main results

* `MaskEnum.Collisions.declarations_relabel` — relabeled declarations are accepted or refused alike.
-/

namespace MaskEnum

namespace Collisions

variable (r : Relabeling)

/-- A refusal at another place. -/
theorem refuse_move (f : Position → Position) (bad : Bool) (fault : Fault)
    (position : Option Position) :
    refuse bad fault (position.map f) = moved f id (refuse bad fault position) := by
  unfold refuse
  split_ifs <;> rfl

/-- A claim at another place. -/
theorem claim_move (f : Position → Position) (scope : Names) (kind : NameKind) (name : String)
    (position : Option Position) :
    claim scope kind name (position.map f) = moved f id (claim scope kind name position) := by
  unfold claim
  split <;> rfl

/-- The variants of an enumeration. -/
theorem variants_relabel (enumeration : String) (seen : List String) (vs : List VariantDecl) :
    variants enumeration seen (vs.map (·.relabel r)) =
      moved r.place id (variants enumeration seen vs) := by
  induction vs generalizing seen with
  | nil => rfl
  | cons v vs ih =>
    refine moved_bind (refuse_move r.place _ _ (some v.position)) fun _ _ => ?_
    refine moved_bind (refuse_move r.place _ _ (some v.position)) fun _ _ => ?_
    refine moved_bind (refuse_move r.place _ _ (some v.position)) fun _ _ => ?_
    refine moved_bind (refuse_move r.place _ _ (some v.position)) fun _ _ => ?_
    refine moved_bind (refuse_move r.place _ _ (some v.position)) fun _ _ => ?_
    refine moved_bind (refuse_move r.place _ _ (some v.position)) fun _ _ => ?_
    exact ih _

/-- The enumerations of a scope. -/
theorem enums_relabel (scope : Names) (es : List EnumDecl) :
    enums scope (es.map (·.relabel r)) = moved r.place id (enums scope es) := by
  induction es generalizing scope with
  | nil => rfl
  | cons e es ih =>
    refine moved_bind (refuse_move r.place _ _ (some e.position)) fun _ _ => ?_
    refine moved_bind (refuse_move r.place _ _ (some e.position)) fun _ _ => ?_
    refine moved_bind (refuse_move r.place _ _ (some e.position)) fun _ _ => ?_
    refine moved_bind (claim_move r.place _ _ _ (some e.position)) fun _ _ => ?_
    refine moved_bind (variants_relabel r _ _ _) fun _ _ => ?_
    exact ih _

/-- A declaration. -/
theorem declaration_relabel (top : Names) (d : Declaration) :
    declaration top (d.relabel r) = moved r.place id (declaration top d) := by
  cases d with
  | block es => exact enums_relabel r top es
  | module name access attributes es =>
    refine moved_bind (refuse_move r.place _ _ none) fun _ _ => ?_
    refine moved_bind (refuse_move r.place _ _ none) fun _ _ => ?_
    refine moved_bind (refuse_move r.place _ _ none) fun _ _ => ?_
    refine moved_bind (claim_move r.place _ _ _ none) fun _ _ => ?_
    exact moved_bind (enums_relabel r _ _) fun _ _ => rfl

/-- **Names.** Relabeled declarations are accepted or refused alike. -/
theorem declarations_relabel (ds : List Declaration) :
    declarations (ds.map (·.relabel r)) = moved r.place id (declarations ds) := by
  have hfrom : ∀ top, declarationsFrom top (ds.map (·.relabel r)) =
      moved r.place id (declarationsFrom top ds) := by
    induction ds with
    | nil => exact fun _ => rfl
    | cons d ds ih => exact fun top => moved_bind (declaration_relabel r top d) fun _ _ => ih _
  exact hfrom []

end Collisions

end MaskEnum
