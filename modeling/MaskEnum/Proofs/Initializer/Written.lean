import MaskEnum.Proofs.Declaration.Refusal
import MaskEnum.Proofs.Initializer.Completeness
set_option autoImplicit false

/-!
# Initializers as they are written

Read from left to right, an initializer is an operand and further operands, each behind an operator;
only a constant without type stands alone. It is an initializer if operands behind the same operator
stand together, and the operators come in their fixed order, the difference first. The tree has one
node for each operator that is written, applied to what stands before it.

## Main definitions

* `MaskEnum.Initializer.Tail` — operands, each behind an operator.
* `MaskEnum.Initializer.Written` — the tokens of an initializer, by its groups.
* `MaskEnum.Initializer.first`, `MaskEnum.Initializer.terms` — the operands of a tree in writing
  order, with the operators in front of them.
* `MaskEnum.Initializer.Flat` — tokens as an operand and further ones behind operators.

## Main results

* `MaskEnum.Initializer.spells_iff_written` — the rules of the reader give the same initializers.
* `MaskEnum.Initializer.Flat.unique`, `MaskEnum.Initializer.Written.flat` — tokens can be taken for
  operands behind operators in one way only, and the tree holds these in the same order.
* `MaskEnum.Initializer.ofTokens_iff_written` — what is accepted, and as which tree.
-/

namespace MaskEnum.Initializer

/-! ## Rules -/

/-- The tokens of operands that each stand behind an operator. -/
inductive Tail : List Token → List (Operator × Operand) → Prop
  | nil : Tail [] []
  | cons {t : Token} {used ts : List Token} {op : Operator} {o : Operand}
      {terms : List (Operator × Operand)} :
      t.operator? = some op → Operand.Spells used o → Tail ts terms →
        Tail (t :: (used ++ ts)) ((op, o) :: terms)

/-- The operands of groups, each behind the operator of its group. -/
def termsOf (groups : List (Operator × List Operand)) : List (Operator × Operand) :=
  groups.flatMap fun g => g.2.map fun o => (g.1, o)

/-- The tree in which groups are applied to `first`, one after the other. -/
def grouped (first : Initializer) (groups : List (Operator × List Operand)) : Initializer :=
  groups.foldl (fun init g => .chain g.1 init g.2) first

/-- The tokens of an initializer, and its tree. -/
inductive Written : List Token → Initializer → Prop
  /-- A constant without type, and nothing else. -/
  | bare {p q : Position} {name : String} :
      Written [⟨.mark .pathsep, p⟩, ⟨.ident name, q⟩] (.operand (.external name .bare))
  /-- An operand and the operands of groups, none of them empty. No operator has two groups, and
  the operators come in order. -/
  | chain {used ts : List Token} {o : Operand} {groups : List (Operator × List Operand)} :
      Operand.Spells used o → Tail ts (termsOf groups) → (∀ g ∈ groups, g.2 ≠ []) →
        (groups.map Prod.fst).Sublist (.sub :: groupOrder) →
          Written (used ++ ts) (grouped (.operand o) groups)

/-- The operand of an initializer that is written first. -/
def first : Initializer → Operand
  | operand o => o
  | chain _ init _ => init.first

/-- The other operands of an initializer in writing order, each with the operator in front. -/
def terms : Initializer → List (Operator × Operand)
  | operand _ => []
  | chain op init os => init.terms ++ os.map fun o => (op, o)

/-- Tokens as an operand and further operands behind operators. -/
inductive Flat : List Token → Operand → List (Operator × Operand) → Prop
  | bare {p q : Position} {name : String} :
      Flat [⟨.mark .pathsep, p⟩, ⟨.ident name, q⟩] (.external name .bare) []
  | chain {used ts : List Token} {o : Operand} {terms : List (Operator × Operand)} :
      Operand.Spells used o → Tail ts terms → Flat (used ++ ts) o terms

/-! ## Groups -/

variable {ts : List Token} {first init : Initializer} {groups : List (Operator × List Operand)}

/-- The operands behind one operator are operands behind operators. -/
theorem terms_iff_tail {op : Operator} {os : List Operand} :
    Terms op ts os ↔ Tail ts (os.map fun o => (op, o)) := by
  constructor
  · intro h
    induction h with
    | nil => exact .nil
    | cons hop ho _ ih => exact .cons hop ho ih
  · intro h
    induction os generalizing ts with
    | nil =>
      cases h
      exact .nil
    | cons o os ih =>
      cases h with
      | cons hop ho hos => exact .cons hop ho (ih hos)

/-- Operands behind operators, and others after them. -/
theorem Tail.append {ts' : List Token} {as bs : List (Operator × Operand)} (h : Tail ts as)
    (h' : Tail ts' bs) : Tail (ts ++ ts') (as ++ bs) := by
  induction h with
  | nil => exact h'
  | cons hop ho _ ih =>
    rw [List.cons_append, List.append_assoc]
    exact .cons hop ho ih

/-- The tokens of some operands behind operators end where those of the others start. -/
theorem Tail.exists_append {as bs : List (Operator × Operand)} (h : Tail ts (as ++ bs)) :
    ∃ used rest, ts = used ++ rest ∧ Tail used as ∧ Tail rest bs := by
  induction as generalizing ts with
  | nil => exact ⟨[], ts, rfl, .nil, h⟩
  | cons a as ih =>
    cases h with
    | @cons t used _ _ _ _ hop ho htail =>
      obtain ⟨more, rest, rfl, has, hbs⟩ := ih htail
      exact ⟨t :: (used ++ more), rest, by simp, .cons hop ho has, hbs⟩

/-- At most one group for each of some operators, in this order: these are groups that are not
empty, whose operators are some of them. -/
theorem groups_iff_tail {order : List Operator} :
    Groups order first ts init ↔
      ∃ groups : List (Operator × List Operand), Tail ts (termsOf groups) ∧
        (∀ g ∈ groups, g.2 ≠ []) ∧ (groups.map Prod.fst).Sublist order ∧
        init = grouped first groups := by
  constructor
  · intro h
    induction h with
    | nil => exact ⟨[], .nil, nofun, .slnil, rfl⟩
    | @cons op order first init used rest os hterms _ ih =>
      obtain ⟨groups, htail, hne, hsub, rfl⟩ := ih
      cases os with
      | nil =>
        -- an empty group leaves no trace in the tree
        cases hterms
        exact ⟨groups, htail, hne, hsub.cons op, rfl⟩
      | cons o os =>
        exact ⟨(op, o :: os) :: groups, (terms_iff_tail.mp hterms).append htail,
          List.forall_mem_cons.mpr ⟨List.cons_ne_nil _ _, hne⟩, hsub.cons_cons op, rfl⟩
  · rintro ⟨groups, htail, hne, hsub, rfl⟩
    -- on the operators that may still come: the first of them has the next group, or none at all
    induction order generalizing ts first groups with
    | nil =>
      obtain rfl := List.map_eq_nil_iff.mp (List.sublist_nil.mp hsub)
      cases htail
      exact .nil
    | cons op order ih =>
      rcases List.sublist_cons_iff.mp hsub with hsub | ⟨ops, hops, hsub⟩
      · exact .cons .nil (ih groups htail hne hsub)
      · obtain ⟨⟨op', os⟩, groups, rfl, rfl, rfl⟩ := List.map_eq_cons_iff.mp hops
        obtain ⟨hos, hne⟩ := List.forall_mem_cons.mp hne
        obtain ⟨used, rest, rfl, hused, hrest⟩ := htail.exists_append
        have hchained : chained op' first os = .chain op' first os := by
          cases os with
          | nil => exact absurd rfl hos
          | cons o os => rfl
        refine .cons (terms_iff_tail.mpr hused) ?_
        rw [hchained]
        exact ih groups hrest hne hsub

/-- **One grammar.** Tokens spell an initializer exactly if they are written as its groups. -/
theorem spells_iff_written : Spells ts init ↔ Written ts init := by
  constructor
  · rintro (- | ⟨ho, hos, hgroups⟩)
    · exact .bare
    · obtain ⟨groups, htail, hne, hsub, rfl⟩ := groups_iff_tail.mp (.cons hos hgroups)
      exact .chain ho htail hne hsub
  · rintro (- | ⟨ho, htail, hne, hsub⟩)
    · exact .bare
    · cases groups_iff_tail.mpr ⟨_, htail, hne, hsub, rfl⟩ with
      | cons hos hgroups => exact .chain ho hos hgroups

/-! ## Writing order -/

/-- The operands of an initializer are the first one and those behind operators. -/
theorem operands_eq (init : Initializer) :
    init.operands = init.first :: init.terms.map Prod.snd := by
  induction init with
  | operand o => rfl
  | chain op init os ih =>
    rw [operands, terms, first, ih, List.map_append, List.map_map, List.cons_append]
    exact congrArg _ (congrArg _ (List.map_id os).symm)

/-- Groups do not change the operand that is written first. -/
theorem first_grouped (init : Initializer) (groups : List (Operator × List Operand)) :
    (grouped init groups).first = init.first := by
  induction groups generalizing init with
  | nil => rfl
  | cons g groups ih => exact ih (.chain g.1 init g.2)

/-- Groups stand behind the operands that they are applied to. -/
theorem terms_grouped (init : Initializer) (groups : List (Operator × List Operand)) :
    (grouped init groups).terms = init.terms ++ termsOf groups := by
  induction groups generalizing init with
  | nil => exact (List.append_nil _).symm
  | cons g groups ih =>
    have hterms : termsOf (g :: groups) = g.2.map (fun o => (g.1, o)) ++ termsOf groups := rfl
    rw [hterms, ← List.append_assoc]
    exact ih (.chain g.1 init g.2)

/-- **Writing order.** The tree of an initializer holds its operands as they are written. -/
theorem Written.flat (h : Written ts init) : Flat ts init.first init.terms := by
  cases h with
  | bare => exact .bare
  | chain ho htail _ _ =>
    rw [first_grouped, terms_grouped]
    exact .chain ho htail

/-- An operand at the front of tokens is determined by them, and so is what follows it. -/
theorem spells_append_unique {used used' rest rest' : List Token} {o o' : Operand}
    (h : Operand.Spells used o) (h' : Operand.Spells used' o')
    (heq : used ++ rest = used' ++ rest') : o = o' ∧ rest = rest' := by
  have hread : readOperand ⟨"", none⟩ (used ++ rest) = .ok (o, rest) := readOperand_complete h rest
  rw [heq, readOperand_complete h' rest'] at hread
  obtain ⟨rfl, rfl⟩ := Prod.mk.inj (Except.ok.inj hread)
  exact ⟨rfl, rfl⟩

/-- Tokens can be taken for operands behind operators in one way only. -/
theorem Tail.unique {as bs : List (Operator × Operand)} (h : Tail ts as) (h' : Tail ts bs) :
    as = bs := by
  induction h generalizing bs with
  | nil =>
    cases h'
    rfl
  | @cons t used ts op o terms hop ho _ ih =>
    generalize hts : t :: (used ++ ts) = all at h'
    cases h' with
    | nil => cases hts
    | @cons t' used' ts' op' o' terms' hop' ho' htail =>
      obtain ⟨rfl, hrest⟩ := List.cons.inj hts
      obtain ⟨rfl, rfl⟩ := spells_append_unique ho ho' hrest
      obtain rfl := Option.some.inj (hop.symm.trans hop')
      rw [ih htail]

/-- Tokens can be taken for an operand and further operands behind operators in one way only. -/
theorem Flat.unique {o o' : Operand} {as bs : List (Operator × Operand)} (h : Flat ts o as)
    (h' : Flat ts o' bs) : o = o' ∧ as = bs := by
  have hpath : ∀ {used more : List Token} {o : Operand} {p q : Position} {name : String},
      Operand.Spells used o → used ++ more ≠ [⟨.mark .pathsep, p⟩, ⟨.ident name, q⟩] := by
    intro used more o p q name ho heq
    obtain ⟨t, rest, rfl, ht⟩ := ho.exists_cons
    exact ht (congrArg Token.lexeme (List.cons.inj heq).1)
  cases h with
  | bare =>
    generalize hts : [_, _] = all at h'
    cases h' with
    | bare =>
      obtain ⟨⟨-, -⟩, ⟨rfl, -⟩⟩ := by simpa using hts
      exact ⟨rfl, rfl⟩
    | chain ho' => exact absurd hts.symm (hpath ho')
  | @chain used ts o terms ho htail =>
    generalize hts : used ++ ts = all at h'
    cases h' with
    | bare => exact absurd hts (hpath ho)
    | @chain used' ts' _ _ ho' htail' =>
      obtain ⟨rfl, rfl⟩ := spells_append_unique ho ho' hts
      exact ⟨rfl, htail.unique htail'⟩

/-! ## What is accepted -/

/-- **Initializers.** A token list is accepted exactly if it is written as an initializer, and read
as the tree of this initializer, of which there is only one; it holds the operands in the order in
which they are written. The integers, if they are integers of a text (`tokenize_proper`), are read
as the literals that they write, which need a digit behind the mark of the base; every list of such
tokens that is not written as an initializer is refused with a shape fault. -/
theorem ofTokens_iff_written (variant : String) (ts : List Token) :
    (∀ init, ofTokens variant ts = .ok init ↔ Written ts init) ∧
    (∀ init init', Written ts init → Written ts init' → init = init') ∧
    (∀ init, Written ts init →
      Flat ts init.first init.terms ∧ init.operands = init.first :: init.terms.map Prod.snd) ∧
    ((∀ t ∈ ts, t.Proper) →
      (∀ t ∈ ts, ∀ digits, t.lexeme = .int digits → ∀ l : Literal,
        Literal.read digits = .ok l ↔ Literal.Numeral digits.toList l) ∧
      ((∀ init, ¬ Written ts init) → ∃ err f, ofTokens variant ts = .error err ∧
        err.fault = .shape f ∧ err.fault.isReported = true)) := by
  have hiff : ∀ init, ofTokens variant ts = .ok init ↔ Written ts init := fun init =>
    ⟨fun h => spells_iff_written.mp (ofTokens_sound h),
      fun h => ofTokens_complete (spells_iff_written.mpr h)⟩
  refine ⟨hiff, fun init init' h h' => ?_, fun init h => ⟨h.flat, init.operands_eq⟩,
    fun hproper => ⟨fun t ht digits hdigits l => ?_, fun hnone => ?_⟩⟩
  · exact Except.ok.inj (((hiff init).mpr h).symm.trans ((hiff init').mpr h'))
  · obtain ⟨cs, rest, hcut⟩ := hproper t ht digits hdigits
    exact Literal.read_eq_ok hcut
  · cases hread : ofTokens variant ts with
    | ok init => exact absurd ((hiff init).mp hread) (hnone init)
    | error err =>
      obtain ⟨⟨f, hf⟩, hreported⟩ := ofTokens_refuses hproper err hread
      exact ⟨err, f, rfl, hf, hreported⟩

/-- A sum in front of a disjunction, which would have to come first. -/
def misordered : List Token :=
  [⟨.int "1", ⟨1, 1⟩⟩, ⟨.mark .plus, ⟨1, 3⟩⟩, ⟨.ident "A", ⟨1, 5⟩⟩, ⟨.mark .pipe, ⟨1, 7⟩⟩,
    ⟨.int "1", ⟨1, 9⟩⟩]

/-- `misordered` is not written as an initializer, so it is refused. -/
theorem ofTokens_iff_written_misordered :
    (∀ t ∈ misordered, t.Proper) ∧ (∀ init, ¬ Written misordered init) ∧
      ∃ err f, ofTokens "V" misordered = .error err ∧ err.fault = .shape f ∧
        err.fault.isReported = true := by
  obtain ⟨hiff, -, -, hrefused⟩ := ofTokens_iff_written "V" misordered
  have hproper : ∀ t ∈ misordered, t.Proper := by
    intro t ht digits hdigits
    have hone : digits = "1" := by
      revert digits
      revert t
      simp [misordered]
    exact ⟨['1'], [], by rw [hone]; decide⟩
  have hfails : (ofTokens "V" misordered).toOption = none := by
    decide +kernel
  have hnone : ∀ init, ¬ Written misordered init := by
    intro init hinit
    rw [(hiff init).mpr hinit] at hfails
    cases hfails
  exact ⟨hproper, hnone, (hrefused hproper).2 hnone⟩

end MaskEnum.Initializer
