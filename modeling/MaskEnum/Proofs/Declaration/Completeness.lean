import MaskEnum.Proofs.Declaration.Soundness
import MaskEnum.Proofs.Initializer.Completeness
set_option autoImplicit false

/-!
# What is spelled is read

Every reader of declarations gives back what the tokens at the front spell, whatever stands behind
them, as long as that could not belong to them: no attributes behind attributes, a name behind an
access, a comma or a closing brace behind an initializer.

An initializer is cut out before it is read. The cut ends at the first comma or closing brace
outside parentheses; an initializer holds neither of them, and closes the parentheses it opens.

## Main definitions

* `MaskEnum.Declaration.Passed` — tokens that a cut goes through.
* `MaskEnum.Declaration.NoMetadata`, `MaskEnum.Declaration.StartsWord` — what may follow attributes
  and what may follow an access.

## Main results

* `MaskEnum.Declaration.cutValue_of_spells` — an initializer is cut out as a whole.
* `MaskEnum.Declaration.readVariants_complete`, `MaskEnum.Declaration.readEnum_complete` — the
  variants of an enumeration, and an enumeration.
* `MaskEnum.Declaration.ofTokens_complete` — a block.
-/

namespace MaskEnum.Declaration

open Initializer (map_ok bind_ok Terms Groups)

variable {stop : Position} {ts rest : List Token}

/-! ## Cutting out an initializer -/

/-- A cut that starts with `depth` open parentheses goes through all of `used`, and is left with
`depth'` of them. -/
def Passed (used : List Token) (depth depth' : Int) : Prop :=
  ∀ rest, cutValue depth (used ++ rest) =
    (used ++ (cutValue depth' rest).1, (cutValue depth' rest).2)

/-- A cut goes through no tokens. -/
theorem passed_nil (depth : Int) : Passed [] depth depth := fun _ => rfl

/-- A cut goes through tokens one after the other. -/
theorem Passed.append {used used' : List Token} {a b c : Int} (h : Passed used a b)
    (h' : Passed used' b c) : Passed (used ++ used') a c := by
  intro rest
  rw [List.append_assoc, h, h', List.append_assoc]

/-- A cut goes through a token that is no comma and no closing brace. -/
theorem passed_token {t : Token} {depth depth' : Int}
    (hcomma : t.lexeme ≠ .mark .comma) (hbrace : t.lexeme ≠ .mark .rbrace)
    (hdepth : depth' = if t.lexeme = .mark .lparen then depth + 1
      else if t.lexeme = .mark .rparen then depth - 1 else depth) : Passed [t] depth depth' := by
  intro rest
  subst hdepth
  simp [cutValue, hcomma, hbrace]

/-- A cut goes through a name. -/
theorem passed_ident (name : String) (p : Position) (depth : Int) :
    Passed [⟨.ident name, p⟩] depth depth :=
  passed_token (by simp) (by simp) (by simp)

/-- A cut goes through an integer. -/
theorem passed_int (digits : String) (p : Position) (depth : Int) :
    Passed [⟨.int digits, p⟩] depth depth :=
  passed_token (by simp) (by simp) (by simp)

/-- A cut goes through a mark that neither separates nor encloses. -/
theorem passed_mark {m : Mark} (hm : m ∉ [.comma, .rbrace, .lparen, .rparen]) (p : Position)
    (depth : Int) : Passed [⟨.mark m, p⟩] depth depth := by
  simp only [List.mem_cons, List.not_mem_nil, or_false, not_or] at hm
  exact passed_token (by simp [hm]) (by simp [hm]) (by simp [hm])

/-- A cut goes through parentheses around what it goes through. -/
theorem Passed.parens {used : List Token} {depth : Int} (h : Passed used (depth + 1) (depth + 1))
    (p q : Position) :
    Passed (⟨.mark .lparen, p⟩ :: (used ++ [⟨.mark .rparen, q⟩])) depth depth := by
  have hopen : Passed [⟨.mark .lparen, p⟩] depth (depth + 1) :=
    passed_token (by simp) (by simp) (by simp)
  have hclose : Passed [⟨.mark .rparen, q⟩] (depth + 1) depth :=
    passed_token (by simp) (by simp) (by simp)
  exact hopen.append (h.append hclose)

/-- A cut goes through the segments of a path. -/
theorem passed_pathTail {names : List String} (h : PathTail ts names) (depth : Int) :
    Passed ts depth depth := by
  induction h with
  | nil => exact passed_nil depth
  | cons _ ih =>
    exact (passed_mark (by decide) _ depth).append ((passed_ident _ _ depth).append ih)

/-- A cut goes through an operand. -/
theorem passed_operand {o : Operand} (h : Operand.Spells ts o) (depth : Int) :
    Passed ts depth depth := by
  cases h with
  | literal => exact passed_int _ _ depth
  | negative => exact (passed_mark (by decide) _ depth).append (passed_int _ _ depth)
  | variant => exact passed_ident _ _ depth
  | negated =>
    exact ((passed_mark (by decide) _ _).append (passed_ident _ _ _)).parens _ _
  | @enumeration p q r s t first name ts names hsegments =>
    -- the path stands one parenthesis deeper than the name behind it
    have hpath : Passed (⟨.ident "enum", q⟩ :: ⟨.ident first, r⟩ :: ts) (depth + 1) (depth + 1) :=
      (passed_ident _ _ _).append ((passed_ident _ _ _).append (passed_pathTail hsegments _))
    have hall := (hpath.parens p s).append (passed_ident name t depth)
    simpa using hall
  | typed =>
    exact ((passed_ident _ _ _).parens _ _).append (passed_ident _ _ depth)

/-- A cut goes through an operator. -/
theorem passed_operator {t : Token} {op : Operator} (h : t.operator? = some op) (depth : Int) :
    Passed [t] depth depth := by
  obtain ⟨lexeme, p⟩ := t
  cases lexeme with
  | mark m =>
    refine passed_mark (fun hm => ?_) p depth
    simp only [List.mem_cons, List.not_mem_nil, or_false] at hm
    rcases hm with rfl | rfl | rfl | rfl <;> cases h
  | ident => cases h
  | int => cases h
  | attr => cases h
  | doc => cases h

/-- A cut goes through operands behind their operator. -/
theorem passed_terms {op : Operator} {os : List Operand} (h : Terms op ts os) (depth : Int) :
    Passed ts depth depth := by
  induction h with
  | nil => exact passed_nil depth
  | cons hop ho _ ih =>
    exact (passed_operator hop depth).append ((passed_operand ho depth).append ih)

/-- A cut goes through groups. -/
theorem passed_groups {order : List Operator} {first init : Initializer}
    (h : Groups order first ts init) (depth : Int) : Passed ts depth depth := by
  induction h with
  | nil => exact passed_nil depth
  | cons hterms _ ih => exact (passed_terms hterms depth).append ih

/-- A cut goes through an initializer. -/
theorem passed_initializer {init : Initializer} (h : Initializer.Spells ts init) (depth : Int) :
    Passed ts depth depth := by
  cases h with
  | bare => exact (passed_mark (by decide) _ depth).append (passed_ident _ _ depth)
  | chain ho hterms hgroups =>
    exact (passed_operand ho depth).append
      ((passed_terms hterms depth).append (passed_groups hgroups depth))

/-- What ends an initializer: a comma or a closing brace. -/
def EndsValue (rest : List Token) : Prop :=
  ∃ p more, rest = ⟨.mark .comma, p⟩ :: more ∨ rest = ⟨.mark .rbrace, p⟩ :: more

/-- **An initializer is cut out as a whole.** Before a comma or a closing brace, the cut takes just
the tokens of the initializer. -/
theorem cutValue_of_spells {init : Initializer} (h : Initializer.Spells ts init)
    (hrest : EndsValue rest) : cutValue 0 (ts ++ rest) = (ts, rest) := by
  obtain ⟨p, more, hend⟩ := hrest
  have hcut : cutValue 0 rest = ([], rest) := by
    rcases hend with rfl | rfl <;> simp [cutValue]
  rw [passed_initializer h 0 rest, hcut, List.append_nil]

/-! ## Heads -/

/-- No attribute and no doc comment stands at the front. -/
def NoMetadata (rest : List Token) : Prop :=
  ∀ t ∈ rest.head?, (∀ text, t.lexeme ≠ .attr text) ∧ ∀ text, t.lexeme ≠ .doc text

/-- A name stands at the front, and none that starts an access. -/
def StartsWord (rest : List Token) : Prop :=
  ∃ word p more, rest = ⟨.ident word, p⟩ :: more ∧ word ≠ "pub" ∧ word ≠ "crate"

/-- A name at the front is no attribute. -/
theorem noMetadata_ident (name : String) (p : Position) (more : List Token) :
    NoMetadata (⟨.ident name, p⟩ :: more) := by
  rintro t ht
  obtain rfl := Option.some.inj ht
  exact ⟨nofun, nofun⟩

/-- A mark at the front is no attribute. -/
theorem noMetadata_mark (m : Mark) (p : Position) (more : List Token) :
    NoMetadata (⟨.mark m, p⟩ :: more) := by
  rintro t ht
  obtain rfl := Option.some.inj ht
  exact ⟨nofun, nofun⟩

/-- Attributes are read up to what is none. -/
theorem readMetadata_complete {ms : List Token} {attributes : List String}
    (h : Metadata ms attributes) (hrest : NoMetadata rest) :
    readMetadata (ms ++ rest) = (attributes, rest) := by
  induction h with
  | nil =>
    show readMetadata rest = ([], rest)
    unfold readMetadata
    split
    · exact absurd rfl ((hrest _ rfl).1 _)
    · exact absurd rfl ((hrest _ rfl).2 _)
    · rfl
  | attr _ ih =>
    rw [List.cons_append, readMetadata, ih]
  | doc _ ih =>
    rw [List.cons_append, readMetadata, ih]

/-- The segments of a path are read up to a closing parenthesis. -/
theorem readModulePath_complete {names : List String} (h : PathTail ts names) (p : Position) :
    readModulePath stop (ts ++ ⟨.mark .rparen, p⟩ :: rest) =
      .ok (names, ⟨.mark .rparen, p⟩ :: rest) := by
  induction h with
  | nil => rfl
  | cons _ ih =>
    rw [List.cons_append, List.cons_append, readModulePath, ih]
    rfl

/-- The scope of an access is read up to the closing parenthesis. -/
theorem readScope_complete {access : Access} (h : Access.Scope ts access) (p : Position) :
    readScope stop (ts ++ ⟨.mark .rparen, p⟩ :: rest) =
      .ok (access, ⟨.mark .rparen, p⟩ :: rest) := by
  cases h with
  | crate => rfl
  | super => rfl
  | own => rfl
  | within hpath =>
    refine bind_eq_ok.mpr ⟨_, readIdent_ok.mpr rfl, ?_⟩
    refine bind_eq_ok.mpr ⟨_, readIdent_ok.mpr rfl, ?_⟩
    exact bind_eq_ok.mpr ⟨_, readModulePath_complete hpath p, rfl⟩

/-- An access is read up to a name that starts none. -/
theorem readAccess_complete {access : Access} (h : Access.Spells ts access)
    (hrest : StartsWord rest) : readAccess stop (ts ++ rest) = .ok (access, rest) := by
  obtain ⟨word, p, more, rfl, hpub, hcrate⟩ := hrest
  cases h with
  | own =>
    show readAccess stop (⟨.ident word, p⟩ :: more) = _
    unfold readAccess
    split
    · next heq => simp [hcrate] at heq
    · next heq => simp [hcrate] at heq
    · next heq => simp [hpub] at heq
    · next heq => simp [hpub] at heq
    · rfl
  | crate => rfl
  | everywhere => rfl
  | @limited q r s used access hscope =>
    rw [List.cons_append, List.cons_append, List.append_assoc, List.singleton_append]
    refine bind_eq_ok.mpr ⟨_, readScope_complete hscope s, ?_⟩
    exact bind_eq_ok.mpr ⟨_, readMark_ok.mpr ⟨s, rfl⟩, rfl⟩

/-- The name of an integer type is read as that type. -/
theorem readType_complete {name : String} {type : IntType}
    (h : IntType.ofName? name = some type) (p : Position) :
    readType stop (⟨.ident name, p⟩ :: rest) = .ok (type, rest) := by
  have hfloat : isFloatTypeName name = false := by
    rw [IntType.eq_name_of_ofName? h]
    cases type <;> decide
  refine bind_eq_ok.mpr ⟨_, readIdent_ok.mpr rfl, ?_⟩
  simp only [hfloat, h, Bool.false_eq_true, if_false]

/-- The wrapped type is read up to the opening brace. -/
theorem readUnderlying_complete {access : Access} {writtenType : Option IntType}
    (h : Underlying ts access writtenType) (p : Position) :
    readUnderlying stop (ts ++ ⟨.mark .lbrace, p⟩ :: rest) =
      .ok ((access, writtenType), ⟨.mark .lbrace, p⟩ :: rest) := by
  cases h with
  | absent => rfl
  | @written q r used access name type haccess hname =>
    have hword : StartsWord (⟨.ident name, r⟩ :: ⟨.mark .lbrace, p⟩ :: rest) := by
      rw [IntType.eq_name_of_ofName? hname]
      refine ⟨type.name, r, _, rfl, ?_, ?_⟩ <;> cases type <;> decide
    rw [List.cons_append, List.append_assoc, List.singleton_append]
    refine bind_eq_ok.mpr ⟨_, readAccess_complete haccess hword, ?_⟩
    exact bind_eq_ok.mpr ⟨_, readType_complete hname r, rfl⟩

/-! ## Variants -/

/-- A name and its initializer are read up to a comma or a closing brace. -/
theorem readValue_complete {name : String} {value : Option Initializer} {p : Position}
    (h : VariantHead ts name value p) (hrest : EndsValue rest) :
    ∃ left, ts ++ rest = ⟨.ident name, p⟩ :: left ∧ readValue name left = .ok (value, rest) := by
  cases h with
  | bare =>
    refine ⟨rest, rfl, ?_⟩
    obtain ⟨q, more, rfl | rfl⟩ := hrest <;> rfl
  | @valued name p q used init hinit =>
    refine ⟨⟨.mark .eq, q⟩ :: (used ++ rest), rfl, ?_⟩
    rw [readValue, cutValue_of_spells (Initializer.ofTokens_sound hinit) hrest]
    simp only [hinit]
    rfl

/-- A variant with a comma and attributes behind it. -/
theorem readVariant_comma {name : String} {value : Option Initializer} {p q : Position}
    {ms : List Token} {attributes : List String} (h : VariantHead ts name value p)
    (hms : Metadata ms attributes) (hrest : NoMetadata rest) :
    readVariant stop (ts ++ ⟨.mark .comma, q⟩ :: (ms ++ rest)) =
      .ok (⟨name, value, attributes, p⟩, rest) := by
  have hends : EndsValue (⟨.mark .comma, q⟩ :: (ms ++ rest)) := ⟨q, _, Or.inl rfl⟩
  obtain ⟨left, hts, hvalue⟩ := readValue_complete h hends
  have hend : readVariantEnd stop name (⟨.mark .comma, q⟩ :: (ms ++ rest)) =
      .ok (attributes, rest) := by
    rw [readVariantEnd, readMetadata_complete hms hrest]
  rw [hts]
  refine bind_eq_ok.mpr ⟨_, readIdent_ok.mpr rfl, ?_⟩
  refine bind_eq_ok.mpr ⟨_, hvalue, ?_⟩
  exact bind_eq_ok.mpr ⟨_, hend, rfl⟩

/-- A variant before the closing brace. -/
theorem readVariant_brace {name : String} {value : Option Initializer} {p q : Position}
    (h : VariantHead ts name value p) :
    readVariant stop (ts ++ ⟨.mark .rbrace, q⟩ :: rest) =
      .ok (⟨name, value, [], p⟩, ⟨.mark .rbrace, q⟩ :: rest) := by
  have hends : EndsValue (⟨.mark .rbrace, q⟩ :: rest) := ⟨q, _, Or.inr rfl⟩
  obtain ⟨left, hts, hvalue⟩ := readValue_complete h hends
  rw [hts]
  refine bind_eq_ok.mpr ⟨_, readIdent_ok.mpr rfl, ?_⟩
  refine bind_eq_ok.mpr ⟨_, hvalue, ?_⟩
  exact bind_eq_ok.mpr ⟨([], ⟨.mark .rbrace, q⟩ :: rest), rfl, rfl⟩

/-- The first variant and those after it. -/
theorem readVariants_cons {v : VariantDecl} {vs : List VariantDecl} {left left' : List Token}
    (hbrace : atBrace ts = false) (hv : readVariant stop ts = .ok (v, left))
    (hvs : readVariants stop left = .ok (vs, left')) :
    readVariants stop ts = .ok (v :: vs, left') := by
  rw [readVariants, if_neg (by simp [hbrace])]
  split
  · next e he =>
    rw [hv] at he
    cases he
  · next v' l he =>
    rw [hv] at he
    obtain ⟨rfl, rfl⟩ := Prod.mk.inj (Except.ok.inj he)
    rw [hvs]

/-- A variant starts with a name. -/
theorem VariantHead.exists_ident {name : String} {value : Option Initializer} {p : Position}
    (h : VariantHead ts name value p) : ∃ more, ts = ⟨.ident name, p⟩ :: more := by
  cases h <;> exact ⟨_, rfl⟩

/-- A list of variants starts with a name. -/
theorem VariantList.exists_ident {vs : List VariantDecl} (h : VariantList ts vs) :
    ∃ name p more, ts = ⟨.ident name, p⟩ :: more := by
  cases h with
  | last hv =>
    obtain ⟨more, rfl⟩ := VariantHead.exists_ident hv
    exact ⟨_, _, _, rfl⟩
  | closed hv =>
    obtain ⟨more, rfl⟩ := VariantHead.exists_ident hv
    exact ⟨_, _, _, rfl⟩
  | cons hv =>
    obtain ⟨more, rfl⟩ := VariantHead.exists_ident hv
    exact ⟨_, _, _, rfl⟩

/-- **Variants** are read up to the closing brace. -/
theorem readVariants_complete {vs : List VariantDecl} (h : VariantList ts vs) (q : Position) :
    readVariants stop (ts ++ ⟨.mark .rbrace, q⟩ :: rest) =
      .ok (vs, ⟨.mark .rbrace, q⟩ :: rest) := by
  have hend : readVariants stop (⟨.mark .rbrace, q⟩ :: rest) =
      .ok ([], ⟨.mark .rbrace, q⟩ :: rest) := readVariants_of_atBrace rfl
  induction h with
  | last hv =>
    obtain ⟨more, rfl⟩ := VariantHead.exists_ident hv
    exact readVariants_cons rfl (readVariant_brace hv) hend
  | @closed used ms name value p r attributes hv hms =>
    have hstep : readVariant stop (used ++ ⟨.mark .comma, r⟩ ::
        (ms ++ ⟨.mark .rbrace, q⟩ :: rest)) =
          .ok (⟨name, value, attributes, p⟩, ⟨.mark .rbrace, q⟩ :: rest) :=
      readVariant_comma hv hms (noMetadata_mark .rbrace q rest)
    obtain ⟨more, rfl⟩ := VariantHead.exists_ident hv
    simp only [List.append_assoc, List.cons_append] at hstep ⊢
    exact readVariants_cons rfl hstep hend
  | @cons used ms list name value p r attributes vs hv hms hlist ih =>
    have hno : NoMetadata (list ++ ⟨.mark .rbrace, q⟩ :: rest) := by
      obtain ⟨name', p', more', rfl⟩ := VariantList.exists_ident hlist
      exact noMetadata_ident _ _ _
    have hstep : readVariant stop (used ++ ⟨.mark .comma, r⟩ ::
        (ms ++ (list ++ ⟨.mark .rbrace, q⟩ :: rest))) =
          .ok (⟨name, value, attributes, p⟩, list ++ ⟨.mark .rbrace, q⟩ :: rest) :=
      readVariant_comma hv hms hno
    obtain ⟨more, rfl⟩ := VariantHead.exists_ident hv
    simp only [List.append_assoc, List.cons_append] at hstep ⊢
    exact readVariants_cons rfl hstep ih

/-- The variants of an enumeration are read up to the closing brace. -/
theorem readBody_complete {vs : List VariantDecl} (h : VariantList ts vs) (name : String)
    (q : Position) :
    readBody stop name (ts ++ ⟨.mark .rbrace, q⟩ :: rest) =
      .ok (vs, ⟨.mark .rbrace, q⟩ :: rest) := by
  have hvariants : readVariants stop (ts ++ ⟨.mark .rbrace, q⟩ :: rest) =
      .ok (vs, ⟨.mark .rbrace, q⟩ :: rest) := readVariants_complete h q
  obtain ⟨first, p, more, rfl⟩ := VariantList.exists_ident h
  refine bind_eq_ok.mpr ⟨_, hvariants, ?_⟩
  exact if_neg (by simpa using h.ne_nil)

/-! ## Enumerations and blocks -/

/-- An access stands before a name that starts none, so no attribute is at the front. -/
theorem noMetadata_access {access : Access} (h : Access.Spells ts access)
    (hrest : StartsWord rest) : NoMetadata (ts ++ rest) := by
  obtain ⟨word, p, more, rfl, -, -⟩ := hrest
  cases h <;> exact noMetadata_ident _ _ _

/-- **An enumeration** is read, whatever stands behind it. -/
theorem readEnum_complete {group : Option String} {e : EnumDecl}
    (h : EnumDecl.Spells group ts e) : readEnum stop group (ts ++ rest) = .ok (e, rest) := by
  cases h with
  | @mk ms as us vs attributes access fieldAccess writtenType variants name p q r s hms has hus hvs
      huniform =>
    have hword : StartsWord (⟨.ident "enum", p⟩ :: ⟨.ident name, q⟩ ::
        (us ++ ⟨.mark .lbrace, r⟩ :: (vs ++ ⟨.mark .rbrace, s⟩ :: rest))) :=
      ⟨"enum", p, _, rfl, by decide, by decide⟩
    have hmetadata := readMetadata_complete hms (noMetadata_access has hword)
    have hunderlying : readUnderlying stop
        (us ++ ⟨.mark .lbrace, r⟩ :: (vs ++ ⟨.mark .rbrace, s⟩ :: rest)) =
          .ok ((fieldAccess, writtenType),
            ⟨.mark .lbrace, r⟩ :: (vs ++ ⟨.mark .rbrace, s⟩ :: rest)) :=
      readUnderlying_complete hus r
    have hbody : readBody stop name (vs ++ ⟨.mark .rbrace, s⟩ :: rest) =
        .ok (variants, ⟨.mark .rbrace, s⟩ :: rest) := readBody_complete hvs name s
    have hmixed : isMixed variants = false := isMixed_eq_false.mpr huniform
    simp only [List.append_assoc, List.cons_append, List.nil_append]
    unfold readEnum
    simp only [hmetadata]
    refine bind_eq_ok.mpr ⟨_, readAccess_complete has hword, ?_⟩
    refine bind_eq_ok.mpr ⟨_, readKeyword_ok.mpr rfl, ?_⟩
    refine bind_eq_ok.mpr ⟨_, readIdent_ok.mpr rfl, ?_⟩
    refine bind_eq_ok.mpr ⟨_, hunderlying, ?_⟩
    refine bind_eq_ok.mpr ⟨_, readMark_ok.mpr ⟨r, rfl⟩, ?_⟩
    refine bind_eq_ok.mpr ⟨_, hbody, ?_⟩
    refine bind_eq_ok.mpr ⟨_, readMark_ok.mpr ⟨s, rfl⟩, ?_⟩
    exact if_neg (by simp [hmixed])

/-- An enumeration has a token at the front, which is no closing brace. -/
theorem EnumDecl.Spells.exists_cons {group : Option String} {e : EnumDecl}
    (h : EnumDecl.Spells group ts e) : ∃ t more, ts = t :: more ∧ atBrace ts = false := by
  cases h with
  | mk hms has =>
    cases hms with
    | attr => exact ⟨_, _, rfl, rfl⟩
    | doc => exact ⟨_, _, rfl, rfl⟩
    | nil => cases has <;> exact ⟨_, _, rfl, rfl⟩

/-- The enumerations of a module are read with its closing brace. -/
theorem readMembers_complete {name : String} {es : List EnumDecl}
    (h : EnumList (some name) ts es) (p : Position) :
    readMembers stop name (ts ++ ⟨.mark .rbrace, p⟩ :: rest) = .ok (es, rest) := by
  induction h with
  | nil =>
    rw [List.nil_append, readMembers]
    rfl
  | @cons used list e es he _ ih =>
    have hread : readEnum stop (some name) (used ++ (list ++ ⟨.mark .rbrace, p⟩ :: rest)) =
        .ok (e, list ++ ⟨.mark .rbrace, p⟩ :: rest) := readEnum_complete he
    obtain ⟨t, more, rfl, hbrace⟩ := EnumDecl.Spells.exists_cons he
    rw [List.append_assoc]
    rw [List.cons_append] at hread ⊢
    rw [readMembers]
    have hnot : ¬ atBrace (t :: (more ++ (list ++ ⟨.mark .rbrace, p⟩ :: rest))) = true := by
      revert hbrace
      unfold atBrace
      split <;> split <;> simp_all
    rw [if_neg hnot]
    split
    · next err herr =>
      rw [hread] at herr
      cases herr
    · next e' left he' =>
      rw [hread] at he'
      obtain ⟨rfl, rfl⟩ := Prod.mk.inj (Except.ok.inj he')
      rw [ih]

/-- Enumerations without a module are read if all of them have initializers. -/
theorem readSiblings_complete {es : List EnumDecl} (h : EnumList none ts es)
    (hvalued : ∀ e ∈ es, e.isFieldless = false) : readSiblings stop ts = .ok es := by
  induction h with
  | nil =>
    rw [readSiblings]
  | @cons used list e es he _ ih =>
    obtain ⟨hfirst, hothers⟩ := List.forall_mem_cons.mp hvalued
    have hread : readEnum stop none (used ++ list) = .ok (e, list) := readEnum_complete he
    obtain ⟨t, more, rfl, -⟩ := EnumDecl.Spells.exists_cons he
    rw [List.cons_append] at hread ⊢
    rw [readSiblings]
    split
    · next err herr =>
      rw [hread] at herr
      cases herr
    · next e' left he' =>
      rw [hread] at he'
      obtain ⟨rfl, rfl⟩ := Prod.mk.inj (Except.ok.inj he')
      rw [hfirst, ih hothers]
      rfl

/-- A module is read with the semicolon behind it. -/
theorem readModule_complete {es semi : List Token} {name : String} {enums : List EnumDecl}
    (hes : EnumList (some name) es enums) (hne : enums ≠ [])
    (hsemi : semi = [] ∨ ∃ t, semi = [⟨.mark .semi, t⟩]) (attributes : List String)
    (access : Access) (q r s : Position) :
    readModule stop attributes access (⟨.ident name, q⟩ :: ⟨.mark .lbrace, r⟩ ::
      (es ++ ⟨.mark .rbrace, s⟩ :: semi)) = .ok (.module name access attributes enums) := by
  have hmembers : readMembers stop name (es ++ ⟨.mark .rbrace, s⟩ :: semi) = .ok (enums, semi) :=
    readMembers_complete hes s
  refine bind_eq_ok.mpr ⟨_, readIdent_ok.mpr rfl, ?_⟩
  refine bind_eq_ok.mpr ⟨_, readMark_ok.mpr ⟨r, rfl⟩, ?_⟩
  refine bind_eq_ok.mpr ⟨_, hmembers, ?_⟩
  dsimp only
  rw [if_neg (by simpa using hne)]
  rcases hsemi with rfl | ⟨t, rfl⟩ <;> rfl

/-- An enumeration has attributes and an access at the front, and then its keyword. -/
theorem EnumDecl.Spells.exists_head {group : Option String} {e : EnumDecl}
    (h : EnumDecl.Spells group ts e) (stop : Position) (rest : List Token) :
    ∃ left p more, (readMetadata (ts ++ rest)).2 = left ∧
      readAccess stop left = .ok (e.access, ⟨.ident "enum", p⟩ :: more) := by
  cases h with
  | @mk ms as us vs attributes access fieldAccess writtenType variants name p q r s hms has =>
    have hword : StartsWord (⟨.ident "enum", p⟩ :: ⟨.ident name, q⟩ ::
        (us ++ ⟨.mark .lbrace, r⟩ :: (vs ++ ⟨.mark .rbrace, s⟩ :: rest))) :=
      ⟨"enum", p, _, rfl, by decide, by decide⟩
    simp only [List.append_assoc, List.cons_append, List.nil_append]
    rw [readMetadata_complete hms (noMetadata_access has hword)]
    exact ⟨_, p, _, rfl, readAccess_complete has hword⟩

/-- **What is spelled is read.** The reader gives a declaration to every block that spells it. -/
theorem ofTokens_complete {block : TokenList} {d : Declaration}
    (h : Declaration.Spells block.tokens d) : ofTokens block = .ok d := by
  obtain ⟨tokens, stop⟩ := block
  dsimp only at h
  cases h with
  | @module ms as es semi attributes access name enums p q r s hms has hes hne hsemi =>
    have hword : StartsWord (⟨.ident "mod", p⟩ :: ⟨.ident name, q⟩ :: ⟨.mark .lbrace, r⟩ ::
        (es ++ ⟨.mark .rbrace, s⟩ :: semi)) := ⟨"mod", p, _, rfl, by decide, by decide⟩
    unfold ofTokens
    rw [if_neg (by simp)]
    simp only [readMetadata_complete hms (noMetadata_access has hword),
      readAccess_complete has hword]
    exact readModule_complete hes hne hsemi attributes access q r s
  | @block ts enums hlist hne hvalued =>
    have hsiblings : readSiblings stop tokens = .ok enums :=
      readSiblings_complete hlist fun e he => by
        obtain ⟨used, hused⟩ := hlist.exists_spells e he
        exact hused.isFieldless_eq_false_iff.mpr (hvalued e he)
    cases hlist with
    | nil => exact absurd rfl hne
    | @cons used list e es he hes =>
      -- the reader looks past attributes and access, finds no module, and starts again
      obtain ⟨left, p, more, hleft, haccess⟩ := EnumDecl.Spells.exists_head he stop list
      obtain ⟨t, others, rfl, -⟩ := EnumDecl.Spells.exists_cons he
      unfold ofTokens
      rw [if_neg (by simp)]
      simp only [hleft, haccess]
      show (readSiblings stop _).map Declaration.block = _
      rw [hsiblings]
      rfl

end MaskEnum.Declaration
