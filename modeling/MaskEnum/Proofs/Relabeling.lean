import MaskEnum.Proofs.Result
import MaskEnum.Resolution
import MaskEnum.Token
set_option autoImplicit false

/-!
# Other places and other attributes

Declarations hold the places where their parts are written and the attributes that are written with
them. A relabeling changes both, and nothing else. A step that only hands places on commutes with
every change of places: it gives the same outcome, but at the other places.

## Main definitions

* `MaskEnum.Relabeling` — a change of places and attributes; `relabel` applies it to variants,
  enumerations and declarations, as declared and as resolved.
* `MaskEnum.moved` — an outcome with its result changed and its fault at another place.

## Main results

* `MaskEnum.moved_bind` — a chain commutes with a change of places if its steps do.
-/

namespace MaskEnum

/-- A change of the places and of the attributes that declarations hold. -/
structure Relabeling where
  place : Position → Position
  attributes : List String → List String

namespace Relabeling

/-- A change of places alone. -/
def ofPlaces (f : Position → Position) : Relabeling := ⟨f, id⟩

/-- Taking all attributes away. -/
def bare : Relabeling := ⟨id, fun _ => []⟩

end Relabeling

section Relabel

variable (r : Relabeling)

/-- A token at another place. -/
def Token.move (f : Position → Position) (t : Token) : Token := ⟨t.lexeme, f t.position⟩

/-- Tokens and their end at other places. -/
def TokenList.move (f : Position → Position) (list : TokenList) : TokenList :=
  ⟨list.tokens.map (Token.move f), f list.stop⟩

/-- A variant as declared, relabeled. -/
def VariantDecl.relabel (v : VariantDecl) : VariantDecl :=
  { v with attributes := r.attributes v.attributes, position := r.place v.position }

/-- An enumeration as declared, relabeled with its variants. -/
def EnumDecl.relabel (e : EnumDecl) : EnumDecl :=
  { e with
    variants := e.variants.map (·.relabel r)
    attributes := r.attributes e.attributes
    position := r.place e.position }

/-- A declaration, relabeled with its enumerations. -/
def Declaration.relabel : Declaration → Declaration
  | .block enums => .block (enums.map (·.relabel r))
  | .module name access attributes enums =>
    .module name access (r.attributes attributes) (enums.map (·.relabel r))

/-- A resolved variant, relabeled. -/
def ResolvedVariant.relabel (v : ResolvedVariant) : ResolvedVariant :=
  { v with attributes := r.attributes v.attributes }

/-- A resolved enumeration, relabeled. -/
def ResolvedEnum.relabel (e : ResolvedEnum) : ResolvedEnum :=
  { e with decl := e.decl.relabel r, variants := e.variants.map (·.relabel r) }

/-- A relabeled enumeration has the same name. -/
@[simp]
theorem EnumDecl.qualifiedName_relabel (e : EnumDecl) :
    (e.relabel r).qualifiedName = e.qualifiedName := rfl

/-- It wraps the same type. -/
@[simp]
theorem EnumDecl.type_relabel (e : EnumDecl) : (e.relabel r).type = e.type := rfl

/-- It is fieldless exactly if it was. -/
@[simp]
theorem EnumDecl.isFieldless_relabel (e : EnumDecl) :
    (e.relabel r).isFieldless = e.isFieldless := by
  simp only [isFieldless, relabel, List.all_map]
  rfl

/-- The enumerations of a relabeled declaration. -/
@[simp]
theorem Declaration.enums_relabel (d : Declaration) :
    (d.relabel r).enums = d.enums.map (·.relabel r) := by
  cases d <;> rfl

end Relabel

/-! ## Outcomes -/

/-- A fault that is reported at another place. -/
def Error.move (f : Position → Position) (e : Error) : Error := ⟨e.fault, e.position.map f⟩

section Outcomes

variable {α β γ δ : Type} {f : Position → Position}

/-- An outcome with its result changed and its fault at another place. -/
def moved (f : Position → Position) (g : α → β) (x : Except Error α) : Except Error β :=
  (x.mapError (Error.move f)).map g

@[simp]
theorem moved_ok (g : α → β) (a : α) : moved f g (.ok a) = .ok (g a) := rfl

/-- A changed outcome is success exactly if the outcome is. -/
theorem moved_eq_ok {g : α → β} {x : Except Error α} {b : β} :
    moved f g x = .ok b ↔ ∃ a, x = .ok a ∧ g a = b := by
  cases x <;> simp [moved, Except.mapError, Except.map]

/-- **Chains.** A chain of two steps commutes with a change if both steps do. -/
theorem moved_bind {g : α → β} {h : γ → δ} {x : Except Error α} {x' : Except Error β}
    {k : α → Except Error γ} {k' : β → Except Error δ} (hx : x' = moved f g x)
    (hk : ∀ a, x = .ok a → k' (g a) = moved f h (k a)) : (x' >>= k') = moved f h (x >>= k) := by
  subst hx
  cases x with
  | error e => rfl
  | ok a => exact hk a rfl

/-- A step whose result is used with success. -/
theorem moved_map {g : α → β} {h : γ → δ} {x : Except Error α} {x' : Except Error β} {k : α → γ}
    {k' : β → δ} (hx : x' = moved f g x) (hk : ∀ a, k' (g a) = h (k a)) :
    x'.map k' = moved f h (x.map k) := by
  subst hx
  cases x with
  | error e => rfl
  | ok a => exact congrArg Except.ok (hk a)

/-- The same step for all elements of a list. -/
theorem moved_mapM {α' β' : Type} {g : α → α'} {h : β → β'} {k : α → Except Error β}
    {k' : α' → Except Error β'} {as : List α} (hk : ∀ a ∈ as, k' (g a) = moved f h (k a)) :
    (as.map g).mapM k' = moved f (List.map h) (as.mapM k) := by
  induction as with
  | nil => rfl
  | cons a as ih =>
    obtain ⟨ha, has⟩ := List.forall_mem_cons.mp hk
    rw [List.map_cons, List.mapM_cons, List.mapM_cons]
    exact moved_bind ha fun b _ => moved_bind (ih has) fun bs _ => rfl


end Outcomes

end MaskEnum
