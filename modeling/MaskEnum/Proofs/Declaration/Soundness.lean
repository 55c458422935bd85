import MaskEnum.Proofs.Declaration.Grammar
set_option autoImplicit false

/-!
# What is read is spelled

Every reader of declarations uses up tokens at the front that spell what it gives, and leaves the
others.

## Main results

* `MaskEnum.Declaration.readVariants_sound` — the variants of an enumeration.
* `MaskEnum.Declaration.readEnum_sound` — an enumeration.
* `MaskEnum.Declaration.ofTokens_sound` — a block, all of whose tokens are used.
-/

namespace MaskEnum.Declaration

open Initializer (map_ok bind_ok)

variable {stop : Position} {ts left : List Token}

/-! ## Single tokens -/

/-- A name is one token. -/
theorem readIdent_ok {what name : String} {p : Position} :
    readIdent stop what ts = .ok ((name, p), left) ↔ ts = ⟨.ident name, p⟩ :: left := by
  unfold readIdent
  split
  · simp only [Except.ok.injEq, Prod.mk.injEq, List.cons.injEq, Token.mk.injEq, Lexeme.ident.injEq]
  · next hname =>
    refine ⟨nofun, ?_⟩
    rintro rfl
    exact absurd rfl (hname name p left)

/-- A mark is one token. -/
theorem readMark_ok {m : Mark} :
    readMark stop m ts = .ok left ↔ ∃ p, ts = ⟨.mark m, p⟩ :: left := by
  unfold readMark
  split
  · next m' p rest =>
    split_ifs with hm
    · subst hm
      simp [eq_comm]
    · refine ⟨nofun, ?_⟩
      rintro ⟨q, h⟩
      simp [hm] at h
  · next hmark =>
    refine ⟨nofun, ?_⟩
    rintro ⟨p, rfl⟩
    exact absurd rfl (hmark m p left)

/-- A keyword is one token. -/
theorem readKeyword_ok {word : String} {p : Position} :
    readKeyword stop word ts = .ok (p, left) ↔ ts = ⟨.ident word, p⟩ :: left := by
  unfold readKeyword
  split
  · next name q rest =>
    split_ifs with hname
    · subst hname
      simp
    · refine ⟨nofun, fun h => ?_⟩
      simp [hname] at h
  · next hident =>
    refine ⟨nofun, ?_⟩
    rintro rfl
    exact absurd rfl (hident word p left)

/-! ## Heads -/

/-- Attributes and doc comments. -/
theorem readMetadata_sound (ts : List Token) :
    ∃ used, ts = used ++ (readMetadata ts).2 ∧ Metadata used (readMetadata ts).1 := by
  fun_induction readMetadata ts with
  | case1 text p ts more left he ih =>
    rw [he] at ih
    obtain ⟨used, hts, hused⟩ := ih
    exact ⟨⟨.attr text, p⟩ :: used, congrArg _ hts, .attr hused⟩
  | case2 text p ts more left he ih =>
    rw [he] at ih
    obtain ⟨used, hts, hused⟩ := ih
    exact ⟨⟨.doc text, p⟩ :: used, congrArg _ hts, .doc hused⟩
  | case3 ts => exact ⟨[], rfl, .nil⟩

/-- The segments of a module path. -/
theorem readModulePath_sound {names : List String}
    (h : readModulePath stop ts = .ok (names, left)) :
    ∃ used, ts = used ++ left ∧ PathTail used names := by
  fun_induction readModulePath stop ts generalizing names left with
  | case1 p name q ts ih =>
    obtain ⟨⟨more, left'⟩, hr, he⟩ := map_ok h
    obtain ⟨rfl, rfl⟩ := Prod.mk.inj he
    obtain ⟨used, rfl, hused⟩ := ih hr
    exact ⟨_, rfl, .cons hused⟩
  | case2 => cases h
  | case3 ts =>
    obtain ⟨rfl, rfl⟩ := Prod.mk.inj (Except.ok.inj h)
    exact ⟨[], rfl, .nil⟩

/-- The scope of an access. -/
theorem readScope_sound {access : Access} (h : readScope stop ts = .ok (access, left)) :
    ∃ used, ts = used ++ left ∧ Access.Scope used access := by
  obtain ⟨⟨⟨scope, p⟩, after⟩, hscope, hrest⟩ := bind_ok h
  obtain rfl := readIdent_ok.mp hscope
  dsimp only at hrest
  split_ifs at hrest with hcrate hsuper hself hin
  · obtain ⟨rfl, rfl⟩ := Prod.mk.inj (Except.ok.inj hrest)
    exact ⟨[_], rfl, hcrate ▸ .crate⟩
  · obtain ⟨rfl, rfl⟩ := Prod.mk.inj (Except.ok.inj hrest)
    exact ⟨[_], rfl, hsuper ▸ .super⟩
  · obtain ⟨rfl, rfl⟩ := Prod.mk.inj (Except.ok.inj hrest)
    exact ⟨[_], rfl, hself ▸ .own⟩
  · obtain ⟨⟨⟨first, q⟩, l₁⟩, hfirst, hrest'⟩ := bind_ok hrest
    obtain rfl := readIdent_ok.mp hfirst
    obtain ⟨⟨names, l₂⟩, hnames, hend⟩ := bind_ok hrest'
    obtain ⟨rfl, rfl⟩ := Prod.mk.inj (Except.ok.inj hend)
    obtain ⟨used, rfl, hused⟩ := readModulePath_sound hnames
    exact ⟨⟨.ident scope, p⟩ :: ⟨.ident first, q⟩ :: used, rfl, hin ▸ .within hused⟩
  · cases hrest

/-- An access. -/
theorem readAccess_sound {access : Access} (h : readAccess stop ts = .ok (access, left)) :
    ∃ used, ts = used ++ left ∧ Access.Spells used access := by
  unfold readAccess at h
  split at h
  · obtain ⟨rfl, rfl⟩ := Prod.mk.inj (Except.ok.inj h)
    exact ⟨[], rfl, .own⟩
  · obtain ⟨rfl, rfl⟩ := Prod.mk.inj (Except.ok.inj h)
    exact ⟨[_], rfl, .crate⟩
  · next p q rest =>
    obtain ⟨⟨access', l₁⟩, hscope, hrest⟩ := bind_ok h
    obtain ⟨l₂, hclose, hend⟩ := bind_ok hrest
    obtain ⟨rfl, rfl⟩ := Prod.mk.inj (Except.ok.inj hend)
    obtain ⟨used, rfl, hused⟩ := readScope_sound hscope
    obtain ⟨r, rfl⟩ := readMark_ok.mp hclose
    exact ⟨⟨.ident "pub", p⟩ :: ⟨.mark .lparen, q⟩ :: (used ++ [⟨.mark .rparen, r⟩]), by simp,
      .limited hused⟩
  · obtain ⟨rfl, rfl⟩ := Prod.mk.inj (Except.ok.inj h)
    exact ⟨[_], rfl, .everywhere⟩
  · obtain ⟨rfl, rfl⟩ := Prod.mk.inj (Except.ok.inj h)
    exact ⟨[], rfl, .own⟩

/-- The name of an integer type. -/
theorem readType_sound {type : IntType} (h : readType stop ts = .ok (type, left)) :
    ∃ name p, ts = ⟨.ident name, p⟩ :: left ∧ IntType.ofName? name = some type := by
  obtain ⟨⟨⟨name, p⟩, after⟩, hname, hrest⟩ := bind_ok h
  obtain rfl := readIdent_ok.mp hname
  dsimp only at hrest
  split at hrest
  · cases hrest
  · split at hrest
    · next htype =>
      obtain ⟨rfl, rfl⟩ := Prod.mk.inj (Except.ok.inj hrest)
      exact ⟨name, p, rfl, htype⟩
    · cases hrest

/-- The wrapped type with the access of the field. -/
theorem readUnderlying_sound {access : Access} {writtenType : Option IntType}
    (h : readUnderlying stop ts = .ok ((access, writtenType), left)) :
    ∃ used, ts = used ++ left ∧ Underlying used access writtenType := by
  unfold readUnderlying at h
  split at h
  · next p rest =>
    obtain ⟨⟨access', l₁⟩, haccess, hrest⟩ := bind_ok h
    obtain ⟨⟨type, l₂⟩, htype, hend⟩ := bind_ok hrest
    obtain ⟨he, rfl⟩ := Prod.mk.inj (Except.ok.inj hend)
    obtain ⟨rfl, rfl⟩ := Prod.mk.inj he
    obtain ⟨used, rfl, hused⟩ := readAccess_sound haccess
    obtain ⟨name, q, rfl, hname⟩ := readType_sound htype
    exact ⟨⟨.mark .colon, p⟩ :: (used ++ [⟨.ident name, q⟩]), by simp, .written hused hname⟩
  · obtain ⟨he, rfl⟩ := Prod.mk.inj (Except.ok.inj h)
    obtain ⟨rfl, rfl⟩ := Prod.mk.inj he
    exact ⟨[], rfl, .absent⟩

/-! ## Variants -/

/-- The name of a variant and its initializer. -/
theorem readValue_sound {name : String} {p : Position} {value : Option Initializer}
    (h : readValue name ts = .ok (value, left)) :
    ∃ used, ⟨.ident name, p⟩ :: ts = used ++ left ∧ VariantHead used name value p := by
  unfold readValue at h
  split at h
  · next q rest =>
    obtain ⟨init, hinit, he⟩ := map_ok h
    obtain ⟨rfl, rfl⟩ := Prod.mk.inj he
    refine ⟨⟨.ident name, p⟩ :: ⟨.mark .eq, q⟩ :: (cutValue 0 rest).1, ?_, .valued hinit⟩
    rw [List.cons_append, List.cons_append, cutValue_append]
  · obtain ⟨rfl, rfl⟩ := Prod.mk.inj (Except.ok.inj h)
    exact ⟨[_], rfl, .bare⟩

/-- Behind a variant stand a comma and attributes, or nothing before the closing brace. -/
theorem readVariantEnd_sound {name : String} {attributes : List String}
    (h : readVariantEnd stop name ts = .ok (attributes, left)) :
    (∃ p ms, ts = ⟨.mark .comma, p⟩ :: (ms ++ left) ∧ Metadata ms attributes) ∨
      (atBrace ts = true ∧ left = ts ∧ attributes = []) := by
  unfold readVariantEnd at h
  split at h
  · next p rest =>
    obtain ⟨ms, hrest, hms⟩ := readMetadata_sound rest
    have he : readMetadata rest = (attributes, left) := Except.ok.inj h
    rw [he] at hrest hms
    exact Or.inl ⟨p, ms, congrArg _ hrest, hms⟩
  · obtain ⟨rfl, rfl⟩ := Prod.mk.inj (Except.ok.inj h)
    exact Or.inr ⟨rfl, rfl, rfl⟩
  · cases h

/-- A variant: its head, and what stands behind it. -/
theorem readVariant_sound {v : VariantDecl} (h : readVariant stop ts = .ok (v, left)) :
    ∃ used, VariantHead used v.name v.value v.position ∧
      ((∃ p ms, ts = used ++ ⟨.mark .comma, p⟩ :: (ms ++ left) ∧ Metadata ms v.attributes) ∨
        (atBrace left = true ∧ ts = used ++ left ∧ v.attributes = [])) := by
  obtain ⟨⟨⟨name, place⟩, l₁⟩, hname, hrest⟩ := bind_ok h
  obtain ⟨⟨value, l₂⟩, hvalue, hrest'⟩ := bind_ok hrest
  obtain ⟨⟨attributes, l₃⟩, hattributes, hend⟩ := bind_ok hrest'
  obtain ⟨rfl, rfl⟩ := Prod.mk.inj (Except.ok.inj hend)
  obtain rfl := readIdent_ok.mp hname
  obtain ⟨used, hused, hhead⟩ := readValue_sound (p := place) hvalue
  refine ⟨used, hhead, ?_⟩
  rcases readVariantEnd_sound hattributes with ⟨p, ms, rfl, hms⟩ | ⟨hbrace, rfl, rfl⟩
  · exact Or.inl ⟨p, ms, hused, hms⟩
  · exact Or.inr ⟨hbrace, hused, rfl⟩

/-- At a closing brace there are no more variants. -/
theorem readVariants_of_atBrace (h : atBrace ts = true) : readVariants stop ts = .ok ([], ts) := by
  rw [readVariants, if_pos h]

/-- The variants up to the closing brace, if there are any. -/
theorem readVariants_sound {vs : List VariantDecl}
    (h : readVariants stop ts = .ok (vs, left)) :
    (vs = [] ∧ left = ts) ∨ ∃ used, ts = used ++ left ∧ VariantList used vs := by
  fun_induction readVariants stop ts generalizing vs left with
  | case1 ts hbrace =>
    obtain ⟨rfl, rfl⟩ := Prod.mk.inj (Except.ok.inj h)
    exact Or.inl ⟨rfl, rfl⟩
  | case2 => cases h
  | case3 => cases h
  | case4 ts hbrace v l₁ hv hlen more l₂ hmore ih =>
    obtain ⟨rfl, rfl⟩ := Prod.mk.inj (Except.ok.inj h)
    obtain ⟨used, hhead, hend⟩ := readVariant_sound hv
    obtain ⟨name, value, attributes, p⟩ := v
    refine Or.inr ?_
    rcases hend with ⟨q, ms, rfl, hms⟩ | ⟨hclose, rfl, rfl⟩
    · rcases ih hmore with ⟨rfl, rfl⟩ | ⟨rest, rfl, hrest⟩
      · exact ⟨used ++ ⟨.mark .comma, q⟩ :: ms, by simp, .closed hhead hms⟩
      · exact ⟨used ++ ⟨.mark .comma, q⟩ :: (ms ++ rest), by simp, .cons hhead hms hrest⟩
    · rw [readVariants_of_atBrace hclose] at hmore
      obtain ⟨rfl, rfl⟩ := Prod.mk.inj (Except.ok.inj hmore)
      exact ⟨used, rfl, .last hhead⟩

/-- The variants of an enumeration, of which there is one at least. -/
theorem readBody_sound {name : String} {vs : List VariantDecl}
    (h : readBody stop name ts = .ok (vs, left)) :
    ∃ used, ts = used ++ left ∧ VariantList used vs := by
  unfold readBody at h
  split at h
  · cases h
  · cases h
  · obtain ⟨⟨vs', l₁⟩, hvariants, hrest⟩ := bind_ok h
    dsimp only at hrest
    split_ifs at hrest with hempty
    · cases hrest
    · obtain ⟨rfl, rfl⟩ := Prod.mk.inj (Except.ok.inj hrest)
      rcases readVariants_sound hvariants with ⟨rfl, -⟩ | hused
      · exact absurd rfl hempty
      · exact hused

/-! ## Enumerations and blocks -/

/-- Variants are not mixed if all of them have an initializer or none has. -/
theorem isMixed_eq_false {vs : List VariantDecl} : isMixed vs = false ↔ Uniform vs := by
  rw [isMixed, Bool.and_eq_false_iff, Bool.not_eq_false', List.any_eq_false, List.all_eq_true]
  refine or_congr ?_ ?_
  · simp [VariantDecl.isFieldless, Option.isSome_iff_ne_none]
  · simp [VariantDecl.isFieldless]

/-- An enumeration. -/
theorem readEnum_sound {group : Option String} {e : EnumDecl}
    (h : readEnum stop group ts = .ok (e, left)) :
    ∃ used, ts = used ++ left ∧ EnumDecl.Spells group used e := by
  unfold readEnum at h
  obtain ⟨ms, hts, hms⟩ := readMetadata_sound ts
  obtain ⟨⟨access, l₁⟩, haccess, h₁⟩ := bind_ok h
  obtain ⟨⟨place, l₂⟩, hkeyword, h₂⟩ := bind_ok h₁
  obtain ⟨⟨⟨name, q⟩, l₃⟩, hname, h₃⟩ := bind_ok h₂
  obtain ⟨⟨⟨fieldAccess, writtenType⟩, l₄⟩, htype, h₄⟩ := bind_ok h₃
  obtain ⟨l₅, hopen, h₅⟩ := bind_ok h₄
  obtain ⟨⟨variants, l₆⟩, hbody, h₆⟩ := bind_ok h₅
  obtain ⟨l₇, hclose, h₇⟩ := bind_ok h₆
  split_ifs at h₇ with hmixed
  obtain ⟨rfl, rfl⟩ := Prod.mk.inj (Except.ok.inj h₇)
  obtain ⟨as, has, hspells⟩ := readAccess_sound haccess
  obtain rfl := readKeyword_ok.mp hkeyword
  obtain rfl := readIdent_ok.mp hname
  obtain ⟨us, rfl, hus⟩ := readUnderlying_sound htype
  obtain ⟨r, rfl⟩ := readMark_ok.mp hopen
  obtain ⟨vs, rfl, hvs⟩ := readBody_sound hbody
  obtain ⟨s, rfl⟩ := readMark_ok.mp hclose
  refine ⟨_, ?_, .mk (p := place) (q := q) (r := r) (s := s) hms hspells hus hvs
    (isMixed_eq_false.mp (Bool.not_eq_true _ ▸ hmixed))⟩
  rw [hts, has]
  simp

/-- The enumerations of a module and its closing brace. -/
theorem readMembers_sound {name : String} {es : List EnumDecl}
    (h : readMembers stop name ts = .ok (es, left)) :
    ∃ used p, ts = used ++ ⟨.mark .rbrace, p⟩ :: left ∧ EnumList (some name) used es := by
  fun_induction readMembers stop name ts generalizing es left with
  | case1 => cases h
  | case2 t rest hbrace =>
    obtain ⟨rfl, rfl⟩ := Prod.mk.inj (Except.ok.inj h)
    obtain ⟨lexeme, p⟩ := t
    unfold atBrace at hbrace
    split at hbrace
    · next hts =>
      obtain ⟨⟨rfl, rfl⟩, rfl⟩ : (lexeme = .mark .rbrace ∧ p = _) ∧ rest = _ := by simpa using hts
      exact ⟨[], _, rfl, .nil⟩
    · cases hbrace
  | case3 => cases h
  | case4 => cases h
  | case5 t rest hbrace e l₁ he hlen more l₂ hmore ih =>
    obtain ⟨rfl, rfl⟩ := Prod.mk.inj (Except.ok.inj h)
    obtain ⟨used, hused, hspells⟩ := readEnum_sound he
    obtain ⟨rest', p, rfl, hrest⟩ := ih hmore
    exact ⟨used ++ rest', p, by rw [hused, List.append_assoc], .cons hspells hrest⟩

/-- The enumerations of a block without a module, all with initializers. -/
theorem readSiblings_sound {es : List EnumDecl} (h : readSiblings stop ts = .ok es) :
    EnumList none ts es ∧ ∀ e ∈ es, e.isFieldless = false := by
  fun_induction readSiblings stop ts generalizing es with
  | case1 =>
    obtain rfl := Except.ok.inj h
    exact ⟨.nil, List.forall_mem_nil _⟩
  | case2 => cases h
  | case3 => cases h
  | case4 => cases h
  | case5 t rest e l₁ he hlen hvalued more hmore ih =>
    obtain rfl := Except.ok.inj h
    obtain ⟨used, hused, hspells⟩ := readEnum_sound he
    obtain ⟨hlist, hall⟩ := ih hmore
    rw [hused]
    exact ⟨.cons hspells hlist, List.forall_mem_cons.mpr ⟨Bool.not_eq_true _ ▸ hvalued, hall⟩⟩

/-- A module behind its attributes and access, up to the end of the block. -/
theorem readModule_sound {attributes : List String} {access : Access} {d : Declaration}
    {ms as : List Token} {p : Position} (hms : Metadata ms attributes)
    (has : Access.Spells as access) (h : readModule stop attributes access ts = .ok d) :
    Declaration.Spells (ms ++ (as ++ ⟨.ident "mod", p⟩ :: ts)) d := by
  obtain ⟨⟨⟨name, q⟩, l₁⟩, hname, h₁⟩ := bind_ok h
  obtain ⟨l₂, hopen, h₂⟩ := bind_ok h₁
  obtain ⟨⟨members, l₃⟩, hmembers, h₃⟩ := bind_ok h₂
  dsimp only at h₃
  split_ifs at h₃ with hempty
  obtain rfl := readIdent_ok.mp hname
  obtain ⟨r, rfl⟩ := readMark_ok.mp hopen
  obtain ⟨es, s, rfl, hes⟩ := readMembers_sound hmembers
  have hne : members ≠ [] := fun hnil => hempty (hnil ▸ rfl)
  split at h₃
  · next hsemi =>
    obtain rfl := Except.ok.inj h₃
    refine .module hms has hes hne ?_
    unfold skipSemicolon at hsemi
    split at hsemi
    · next t rest =>
      subst hsemi
      exact Or.inr ⟨t, rfl⟩
    · exact Or.inl hsemi
  · cases h₃

/-- **What is read is spelled.** The reader gives a declaration only to a block that spells it. -/
theorem ofTokens_sound {block : TokenList} {d : Declaration} (h : ofTokens block = .ok d) :
    Declaration.Spells block.tokens d := by
  unfold ofTokens at h
  split_ifs at h with hempty
  · cases h
  · obtain ⟨ms, hts, hms⟩ := readMetadata_sound block.tokens
    obtain ⟨⟨access, left⟩, haccess, hrest⟩ := bind_ok h
    obtain ⟨as, has, hspells⟩ := readAccess_sound haccess
    dsimp only at hrest
    split at hrest
    · next p rest =>
      rw [hts, has]
      exact readModule_sound hms hspells hrest
    · obtain ⟨es, hes, rfl⟩ := map_ok hrest
      obtain ⟨hlist, hvalued⟩ := readSiblings_sound hes
      refine .block hlist ?_ fun e he => ?_
      · rintro rfl
        generalize block.tokens = ts at hempty hlist
        cases hlist
        exact hempty rfl
      · obtain ⟨used, hused⟩ := hlist.exists_spells e he
        exact hused.isFieldless_eq_false_iff.mp (hvalued e he)

end MaskEnum.Declaration
