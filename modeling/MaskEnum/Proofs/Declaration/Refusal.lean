import MaskEnum.Proofs.Declaration.Completeness
import MaskEnum.Proofs.Token.Numeral
import MaskEnum.Session
set_option autoImplicit false

/-!
# Blocks that spell nothing are refused

A block that spells no declaration is refused with a shape fault. The one shape fault that is no
verdict on the text, an integer that cannot be read, never occurs with the tokens of a text.

## Main definitions

* `MaskEnum.OnlyRefuses` — every failure is a shape fault that is reported.

## Main results

* `MaskEnum.Initializer.ofTokens_refuses` — initializers.
* `MaskEnum.Declaration.ofTokens_refuses` — declarations.
* `MaskEnum.Declaration.ofTokens_iff_spells` — blocks are accepted exactly if they spell a
  declaration, and refused otherwise.
-/

namespace MaskEnum

open Initializer (map_ok bind_ok)

/-- Every failure is a shape fault that is reported as a verdict on the text. -/
def OnlyRefuses {α : Type} (r : Except Error α) : Prop :=
  ∀ err, r = .error err → (∃ f, err.fault = .shape f) ∧ err.fault.isReported = true

section Steps

variable {α β : Type}

/-- Success is no failure. -/
theorem onlyRefuses_ok (a : α) : OnlyRefuses (.ok a) := by
  intro err h
  cases h

/-- A shape fault that is reported. -/
theorem onlyRefuses_error {f : ShapeFault} (p : Option Position)
    (hf : (Fault.shape f).isReported = true) :
    OnlyRefuses (.error ⟨.shape f, p⟩ : Except Error α) := by
  intro err h
  obtain rfl := Except.error.inj h
  exact ⟨⟨f, rfl⟩, hf⟩

/-- A chain of steps that only refuse. -/
theorem OnlyRefuses.bind {r : Except Error α} {g : α → Except Error β} (hr : OnlyRefuses r)
    (hg : ∀ a, r = .ok a → OnlyRefuses (g a)) : OnlyRefuses (r >>= g) := by
  intro err h
  rcases bind_eq_error.mp h with h | ⟨a, ha, h⟩
  · exact hr err h
  · exact hg a ha err h

/-- A step that only refuses, whatever is made of its result. -/
theorem OnlyRefuses.map {r : Except Error α} (hr : OnlyRefuses r) (g : α → β) :
    OnlyRefuses (r.map g) := by
  intro err h
  cases r with
  | ok a => cases h
  | error e => exact hr err (congrArg Except.error (Except.error.inj h))

end Steps

/-! ## Initializers -/

namespace Initializer

variable {site : Site} {ts : List Token}

/-- A fault of an initializer. -/
theorem fail_refuses {α : Type} (left : List Token) (fault : InitializerFault) :
    OnlyRefuses (fail site left fault : Except Error α) :=
  onlyRefuses_error _ rfl

/-- A name. -/
theorem readName_refuses (what : String) : OnlyRefuses (readName site what ts) := by
  unfold readName
  split
  · exact onlyRefuses_ok _
  · exact fail_refuses _ _

/-- A closing parenthesis. -/
theorem readClosing_refuses : OnlyRefuses (readClosing site ts) := by
  unfold readClosing
  split
  · exact onlyRefuses_ok _
  · exact fail_refuses _ _

/-- The segments of a path. -/
theorem readSegments_refuses : OnlyRefuses (readSegments site ts) := by
  fun_induction readSegments site ts with
  | case1 p name q ts ih => exact ih.map _
  | case2 => exact fail_refuses _ _
  | case3 => exact onlyRefuses_ok _

/-- The literal of a proper token. -/
theorem readLiteral_refuses {digits : String} {p : Position}
    (h : (⟨.int digits, p⟩ : Token).Proper) : OnlyRefuses (readLiteral digits) := by
  obtain ⟨cs, rest, hcut⟩ := h digits rfl
  unfold readLiteral
  rcases Literal.read_of_integer hcut with ⟨l, hl⟩ | ⟨text, htext⟩
  · rw [hl]
    exact onlyRefuses_ok l
  · rw [htext]
    exact onlyRefuses_error _ rfl

/-- An operand in parentheses. -/
theorem readParenthesized_refuses (opener : Token) :
    OnlyRefuses (readParenthesized site opener ts) := by
  unfold readParenthesized
  split
  · split
    · exact fail_refuses _ _
    · refine (readName_refuses _).bind fun _ _ => ?_
      exact readClosing_refuses.bind fun _ _ => onlyRefuses_ok _
  · refine (readName_refuses _).bind fun found _ => ?_
    dsimp only
    split_ifs
    · refine (readName_refuses _).bind fun _ _ => readSegments_refuses.bind fun _ _ => ?_
      refine readClosing_refuses.bind fun _ _ => ?_
      exact (readName_refuses _).bind fun _ _ => onlyRefuses_ok _
    · exact fail_refuses _ _
    · split
      · exact fail_refuses _ _
      · refine readClosing_refuses.bind fun _ _ => ?_
        exact (readName_refuses _).bind fun _ _ => onlyRefuses_ok _

/-- An operand. -/
theorem readOperand_refuses (h : ∀ t ∈ ts, t.Proper) : OnlyRefuses (readOperand site ts) := by
  unfold readOperand
  split
  · exact fail_refuses _ _
  · next token left =>
    obtain ⟨lexeme, p⟩ := token
    obtain ⟨htoken, hleft⟩ := List.forall_mem_cons.mp h
    dsimp only
    split
    · exact (readLiteral_refuses htoken).map _
    · exact onlyRefuses_ok _
    · split
      · exact (readLiteral_refuses (List.forall_mem_cons.mp hleft).1).map _
      · exact fail_refuses _ _
    · exact readParenthesized_refuses _
    · exact fail_refuses _ _
    · exact fail_refuses _ _

/-- The operands behind one operator. -/
theorem readTerms_refuses {op : Operator} (h : ∀ t ∈ ts, t.Proper) :
    OnlyRefuses (readTerms site op ts) := by
  fun_induction readTerms site op ts with
  | case1 => exact onlyRefuses_ok _
  | case2 token left hop err herr =>
    exact fun e he => readOperand_refuses (List.forall_mem_cons.mp h).2 e (herr.trans
      (congrArg Except.error (Except.error.inj he)))
  | case3 token left hop o after ho hlen err herr ih =>
    obtain ⟨used, rfl, -⟩ := readOperand_sound ho
    have hafter := (List.forall_mem_append.mp (List.forall_mem_cons.mp h).2).2
    exact fun e he => ih hafter e (herr.trans (congrArg Except.error (Except.error.inj he)))
  | case4 => exact onlyRefuses_ok _
  | case5 => exact onlyRefuses_ok _

/-- The groups of the remaining operators. -/
theorem readGroups_refuses {order : List Operator} {first : Initializer}
    (h : ∀ t ∈ ts, t.Proper) : OnlyRefuses (readGroups site order first ts) := by
  induction order generalizing first ts with
  | nil =>
    cases ts with
    | nil => exact onlyRefuses_ok _
    | cons t ts => exact fail_refuses _ _
  | cons op order ih =>
    rw [readGroups]
    refine (readTerms_refuses h).bind fun found hfound => ?_
    obtain ⟨used, rfl, -⟩ := readTerms_sound hfound
    exact ih (List.forall_mem_append.mp h).2

/-- **Initializers.** Proper tokens that spell no initializer are refused. -/
theorem ofTokens_refuses {variant : String} (h : ∀ t ∈ ts, t.Proper) :
    OnlyRefuses (ofTokens variant ts) := by
  unfold ofTokens
  dsimp only
  split
  · exact fail_refuses _ _
  · refine (readName_refuses _).bind fun found _ => ?_
    split
    · exact onlyRefuses_ok _
    · exact fail_refuses _ _
  · refine (readOperand_refuses h).bind fun found hfound => ?_
    obtain ⟨used, hused, -⟩ := readOperand_sound hfound
    rw [hused] at h
    have hleft := (List.forall_mem_append.mp h).2
    refine (readTerms_refuses hleft).bind fun terms hterms => ?_
    obtain ⟨used', hused', -⟩ := readTerms_sound hterms
    rw [hused'] at hleft
    exact readGroups_refuses (List.forall_mem_append.mp hleft).2

end Initializer

/-! ## Declarations -/

namespace Declaration

variable {stop : Position} {ts : List Token}

/-- A shape fault that is reported. -/
theorem fail_refuses {α : Type} (left : List Token) {fault : ShapeFault}
    (hfault : (Fault.shape fault).isReported = true) :
    OnlyRefuses (fail stop left fault : Except Error α) :=
  onlyRefuses_error _ hfault

/-- A name. -/
theorem readIdent_refuses (what : String) : OnlyRefuses (readIdent stop what ts) := by
  unfold readIdent
  split
  · exact onlyRefuses_ok _
  · exact fail_refuses _ rfl

/-- A mark. -/
theorem readMark_refuses (m : Mark) : OnlyRefuses (readMark stop m ts) := by
  unfold readMark
  split
  · split_ifs
    · exact onlyRefuses_ok _
    · exact fail_refuses _ rfl
  · exact fail_refuses _ rfl

/-- A keyword. -/
theorem readKeyword_refuses (word : String) : OnlyRefuses (readKeyword stop word ts) := by
  unfold readKeyword
  split
  · split_ifs
    · exact onlyRefuses_ok _
    · exact fail_refuses _ rfl
  · exact fail_refuses _ rfl

/-- The segments of a module path. -/
theorem readModulePath_refuses : OnlyRefuses (readModulePath stop ts) := by
  fun_induction readModulePath stop ts with
  | case1 p name q ts ih => exact ih.map _
  | case2 => exact fail_refuses _ rfl
  | case3 => exact onlyRefuses_ok _

/-- The scope of an access. -/
theorem readScope_refuses : OnlyRefuses (readScope stop ts) := by
  unfold readScope
  refine (readIdent_refuses _).bind fun found _ => ?_
  dsimp only
  split_ifs
  · exact onlyRefuses_ok _
  · exact onlyRefuses_ok _
  · exact onlyRefuses_ok _
  · refine (readIdent_refuses _).bind fun _ _ => ?_
    exact readModulePath_refuses.bind fun _ _ => onlyRefuses_ok _
  · exact fail_refuses _ rfl

/-- An access. -/
theorem readAccess_refuses : OnlyRefuses (readAccess stop ts) := by
  unfold readAccess
  split
  · exact onlyRefuses_ok _
  · exact onlyRefuses_ok _
  · refine readScope_refuses.bind fun _ _ => ?_
    exact (readMark_refuses _).bind fun _ _ => onlyRefuses_ok _
  · exact onlyRefuses_ok _
  · exact onlyRefuses_ok _

/-- The name of an integer type. -/
theorem readType_refuses : OnlyRefuses (readType stop ts) := by
  unfold readType
  refine (readIdent_refuses _).bind fun found _ => ?_
  dsimp only
  split_ifs
  · exact fail_refuses _ rfl
  · split
    · exact onlyRefuses_ok _
    · exact fail_refuses _ rfl

/-- The wrapped type. -/
theorem readUnderlying_refuses : OnlyRefuses (readUnderlying stop ts) := by
  unfold readUnderlying
  split
  · refine readAccess_refuses.bind fun _ _ => ?_
    exact readType_refuses.bind fun _ _ => onlyRefuses_ok _
  · exact onlyRefuses_ok _

/-- The initializer of a variant. -/
theorem readValue_refuses {variant : String} (h : ∀ t ∈ ts, t.Proper) :
    OnlyRefuses (readValue variant ts) := by
  unfold readValue
  split
  · next p left =>
    have hleft := (List.forall_mem_cons.mp h).2
    rw [← cutValue_append 0 left] at hleft
    exact (Initializer.ofTokens_refuses (List.forall_mem_append.mp hleft).1).map _
  · exact onlyRefuses_ok _

/-- What stands behind a variant. -/
theorem readVariantEnd_refuses (variant : String) :
    OnlyRefuses (readVariantEnd stop variant ts) := by
  unfold readVariantEnd
  split
  · exact onlyRefuses_ok _
  · exact onlyRefuses_ok _
  · exact fail_refuses _ rfl

/-- A variant. -/
theorem readVariant_refuses (h : ∀ t ∈ ts, t.Proper) : OnlyRefuses (readVariant stop ts) := by
  unfold readVariant
  refine (readIdent_refuses _).bind fun found hfound => ?_
  obtain rfl := readIdent_ok.mp hfound
  refine (readValue_refuses (List.forall_mem_cons.mp h).2).bind fun _ _ => ?_
  exact (readVariantEnd_refuses _).bind fun _ _ => onlyRefuses_ok _

/-- A variant leaves proper tokens. -/
theorem proper_of_readVariant {v : VariantDecl} {left : List Token} (h : ∀ t ∈ ts, t.Proper)
    (hv : readVariant stop ts = .ok (v, left)) : ∀ t ∈ left, t.Proper := by
  obtain ⟨used, -, ⟨p, ms, rfl, -⟩ | ⟨-, rfl, -⟩⟩ := readVariant_sound hv
  · have htail := (List.forall_mem_append.mp h).2
    exact (List.forall_mem_append.mp (List.forall_mem_cons.mp htail).2).2
  · exact (List.forall_mem_append.mp h).2

/-- The variants up to the closing brace. -/
theorem readVariants_refuses (h : ∀ t ∈ ts, t.Proper) : OnlyRefuses (readVariants stop ts) := by
  fun_induction readVariants stop ts with
  | case1 => exact onlyRefuses_ok _
  | case2 ts hbrace err herr =>
    exact fun e he => readVariant_refuses h e (herr.trans
      (congrArg Except.error (Except.error.inj he)))
  | case3 ts hbrace v left hv hlen err herr ih =>
    exact fun e he => ih (proper_of_readVariant h hv) e (herr.trans
      (congrArg Except.error (Except.error.inj he)))
  | case4 => exact onlyRefuses_ok _

/-- The variants of an enumeration. -/
theorem readBody_refuses (name : String) (h : ∀ t ∈ ts, t.Proper) :
    OnlyRefuses (readBody stop name ts) := by
  unfold readBody
  split
  · exact fail_refuses _ rfl
  · exact fail_refuses _ rfl
  · refine (readVariants_refuses h).bind fun found _ => ?_
    dsimp only
    split_ifs
    · exact fail_refuses _ rfl
    · exact onlyRefuses_ok _

/-- An enumeration. -/
theorem readEnum_refuses (group : Option String) (h : ∀ t ∈ ts, t.Proper) :
    OnlyRefuses (readEnum stop group ts) := by
  unfold readEnum
  obtain ⟨ms, hts, -⟩ := readMetadata_sound ts
  rw [hts] at h
  replace h := (List.forall_mem_append.mp h).2
  refine readAccess_refuses.bind fun found haccess => ?_
  obtain ⟨as, has, -⟩ := readAccess_sound haccess
  rw [has] at h
  replace h := (List.forall_mem_append.mp h).2
  refine (readKeyword_refuses _).bind fun found hkeyword => ?_
  rw [readKeyword_ok.mp hkeyword] at h
  replace h := (List.forall_mem_cons.mp h).2
  refine (readIdent_refuses _).bind fun found hname => ?_
  rw [readIdent_ok.mp hname] at h
  replace h := (List.forall_mem_cons.mp h).2
  refine readUnderlying_refuses.bind fun found htype => ?_
  obtain ⟨us, hus, -⟩ := readUnderlying_sound htype
  rw [hus] at h
  replace h := (List.forall_mem_append.mp h).2
  refine (readMark_refuses _).bind fun left hopen => ?_
  obtain ⟨r, hleft⟩ := readMark_ok.mp hopen
  rw [hleft] at h
  replace h := (List.forall_mem_cons.mp h).2
  refine (readBody_refuses _ h).bind fun found _ => ?_
  refine (readMark_refuses _).bind fun left _ => ?_
  split_ifs
  · exact onlyRefuses_error _ rfl
  · exact onlyRefuses_ok _

/-- The enumerations of a module. -/
theorem readMembers_refuses (name : String) (h : ∀ t ∈ ts, t.Proper) :
    OnlyRefuses (readMembers stop name ts) := by
  fun_induction readMembers stop name ts with
  | case1 => exact fail_refuses _ rfl
  | case2 => exact onlyRefuses_ok _
  | case3 t rest hbrace err herr =>
    exact fun e he => readEnum_refuses _ h e (herr.trans
      (congrArg Except.error (Except.error.inj he)))
  | case4 t rest hbrace e left he hlen err herr ih =>
    obtain ⟨used, hused, -⟩ := readEnum_sound he
    rw [hused] at h
    exact fun e he => ih (List.forall_mem_append.mp h).2 e (herr.trans
      (congrArg Except.error (Except.error.inj he)))
  | case5 => exact onlyRefuses_ok _

/-- The enumerations of a block without a module. -/
theorem readSiblings_refuses (h : ∀ t ∈ ts, t.Proper) : OnlyRefuses (readSiblings stop ts) := by
  fun_induction readSiblings stop ts with
  | case1 => exact onlyRefuses_ok _
  | case2 t rest err herr =>
    exact fun e he => readEnum_refuses _ h e (herr.trans
      (congrArg Except.error (Except.error.inj he)))
  | case3 => exact onlyRefuses_error _ rfl
  | case4 t rest e left he hlen hvalued err herr ih =>
    obtain ⟨used, hused, -⟩ := readEnum_sound he
    rw [hused] at h
    exact fun e he => ih (List.forall_mem_append.mp h).2 e (herr.trans
      (congrArg Except.error (Except.error.inj he)))
  | case5 => exact onlyRefuses_ok _

/-- A module behind its attributes and access. -/
theorem readModule_refuses (attributes : List String) (access : Access)
    (h : ∀ t ∈ ts, t.Proper) : OnlyRefuses (readModule stop attributes access ts) := by
  unfold readModule
  refine (readIdent_refuses _).bind fun found hname => ?_
  rw [readIdent_ok.mp hname] at h
  replace h := (List.forall_mem_cons.mp h).2
  refine (readMark_refuses _).bind fun left hopen => ?_
  obtain ⟨r, hleft⟩ := readMark_ok.mp hopen
  rw [hleft] at h
  refine (readMembers_refuses _ (List.forall_mem_cons.mp h).2).bind fun found _ => ?_
  dsimp only
  split_ifs
  · exact onlyRefuses_error _ rfl
  · split
    · exact onlyRefuses_ok _
    · exact fail_refuses _ rfl

/-- **Declarations.** Proper tokens that spell no declaration are refused. -/
theorem ofTokens_refuses {block : TokenList} (h : ∀ t ∈ block.tokens, t.Proper) :
    OnlyRefuses (ofTokens block) := by
  unfold ofTokens
  split_ifs
  · exact fail_refuses _ rfl
  · obtain ⟨ms, hts, -⟩ := readMetadata_sound block.tokens
    have hleft := h
    rw [hts] at hleft
    replace hleft := (List.forall_mem_append.mp hleft).2
    refine readAccess_refuses.bind fun found haccess => ?_
    obtain ⟨as, has, -⟩ := readAccess_sound haccess
    rw [has] at hleft
    replace hleft := (List.forall_mem_append.mp hleft).2
    dsimp only
    split
    · next p left heq =>
      rw [heq] at hleft
      exact readModule_refuses _ _ (List.forall_mem_cons.mp hleft).2
    · exact (readSiblings_refuses h).map _

/-- **The grammar of declarations.** A block is read as a declaration exactly if its tokens spell
that declaration. If they spell none, and its integers are numerals as in every text
(`tokenize_proper`), it is refused with a shape fault. A block without a module is valued; a module
of a single fieldless enumeration whose type is written has a form of its own, and all others are
groups. -/
theorem ofTokens_iff_spells (block : TokenList) :
    (∀ d, ofTokens block = .ok d ↔ Declaration.Spells block.tokens d) ∧
    ((∀ t ∈ block.tokens, t.Proper) → (∀ d, ¬ Declaration.Spells block.tokens d) →
      ∃ err f, ofTokens block = .error err ∧ err.fault = .shape f ∧
        err.fault.isReported = true) ∧
    ∀ d, Declaration.Spells block.tokens d →
      (d.shape = .typedFieldless ↔ d.IsTypedFieldless) ∧
      (d.shape = .moduleGroup ↔ (∃ name access attributes enums,
        d = .module name access attributes enums) ∧ ¬ d.IsTypedFieldless) ∧
      (d.shape = .valued ↔ ∃ enums, d = .block enums) := by
  have hiff : ∀ d, ofTokens block = .ok d ↔ Declaration.Spells block.tokens d :=
    fun d => ⟨ofTokens_sound, ofTokens_complete⟩
  refine ⟨hiff, fun hproper hnone => ?_, fun d _ => ?_⟩
  · cases hread : ofTokens block with
    | ok d => exact absurd ((hiff d).mp hread) (hnone d)
    | error err =>
      obtain ⟨⟨f, hf⟩, hreported⟩ := ofTokens_refuses hproper err hread
      exact ⟨err, f, rfl, hf, hreported⟩
  · exact ⟨shape_eq_typedFieldless_iff, shape_eq_moduleGroup_iff, shape_eq_valued_iff⟩

/-- An enumeration whose closing brace is missing. -/
def unclosed : TokenList where
  tokens :=
    [⟨.ident "enum", ⟨1, 1⟩⟩, ⟨.ident "E", ⟨1, 6⟩⟩, ⟨.mark .lbrace, ⟨1, 8⟩⟩, ⟨.ident "A", ⟨1, 10⟩⟩,
      ⟨.mark .eq, ⟨1, 12⟩⟩, ⟨.int "1", ⟨1, 14⟩⟩]
  stop := ⟨1, 15⟩

/-- `unclosed` spells nothing, so it is refused. -/
theorem ofTokens_iff_spells_unclosed :
    (∀ t ∈ unclosed.tokens, t.Proper) ∧ (∀ d, ¬ Declaration.Spells unclosed.tokens d) ∧
      ∃ err f, ofTokens unclosed = .error err ∧ err.fault = .shape f ∧
        err.fault.isReported = true := by
  obtain ⟨hiff, hrefused, -⟩ := ofTokens_iff_spells unclosed
  have hproper : ∀ t ∈ unclosed.tokens, t.Proper := by
    intro t ht digits hdigits
    have hone : digits = "1" := by
      revert digits
      revert t
      simp [unclosed]
    exact ⟨['1'], [], by rw [hone]; decide⟩
  have hfails : (ofTokens unclosed).toOption = none := by
    decide +kernel
  have hnone : ∀ d, ¬ Declaration.Spells unclosed.tokens d := by
    intro d hd
    rw [(hiff d).mpr hd] at hfails
    cases hfails
  exact ⟨hproper, hnone, hrefused hproper hnone⟩

end Declaration

end MaskEnum
