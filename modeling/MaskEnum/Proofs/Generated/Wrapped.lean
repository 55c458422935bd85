import MaskEnum.Proofs.Declaration.Nesting
import MaskEnum.Proofs.Generated.Layout
import MaskEnum.Proofs.Token.Lines
set_option autoImplicit false

/-!
# Bare text and an invocation around it

A text that is one block by itself can be put into an invocation, on lines of its own, in brackets
of any kind. The invocation has the tokens of the text inside, its opening bracket is closed by the
last one because a declaration nests its own, and so the block inside is the same declaration at
other places.

## Main definitions

* `MaskEnum.Wraps` — a text inside an invocation, in brackets of each kind.

## Main results

* `MaskEnum.declarationsOf_wrapped` — the declaration of a text is that of the invocation.
* `MaskEnum.compile_wrapped` — a text and an invocation around it compile alike.
-/

namespace MaskEnum

/-- The invocation around a text: the brackets are of one of three kinds, and a semicolon stands
behind the parentheses. -/
inductive Wraps (text : String) : String → Prop
  | braces : Wraps text ("encap_enum! \x7b" ++ text ++ "\n\x7d")
  | parens : Wraps text ("encap_enum! (" ++ text ++ "\n);")
  | brackets : Wraps text ("encap_enum! [" ++ text ++ "\n]")

/-! ## Tokens -/

section Tokens

open Lexer

/-- The opening of an invocation in front of a text has three tokens. -/
theorem spells_opening {opener : Mark} {bracket : Char} {cs : List Char} {xs : List Lexeme}
    (hscan : scan bracket cs = .ok (some (.mark opener), [bracket], cs)) (h : Spells cs xs) :
    Spells ("encap_enum! ".toList ++ bracket :: cs)
      (.ident invocationName :: .mark .bang :: .mark opener :: xs) := by
  have hname : ∀ more, scan 'e' ("ncap_enum! ".toList ++ more) =
      .ok (some (.ident invocationName), "encap_enum".toList, '!' :: ' ' :: more) := fun _ => rfl
  have hbang : ∀ more, scan '!' (' ' :: more) = .ok (some (.mark .bang), ['!'], ' ' :: more) :=
    fun _ => rfl
  exact .lexeme (hname _) (.lexeme (hbang _) (.cons rfl (.lexeme hscan h)))

/-- The tokens of an invocation around a text. -/
theorem Wraps.exists_spells {text wrapped : String} {xs : List Lexeme} (h : Wraps text wrapped)
    (hxs : Spells text.toList xs) :
    ∃ opener close semi, opener.closer? = some close ∧ (semi = [] ∨ semi = [Lexeme.mark .semi]) ∧
      Spells wrapped.toList
        (.ident invocationName :: .mark .bang :: .mark opener :: (xs ++ .mark close :: semi)) := by
  cases h with
  | braces =>
    have hend : Spells ['\x7d'] [.mark .rbrace] := .lexeme rfl .nil
    refine ⟨.lbrace, .rbrace, [], rfl, .inl rfl, ?_⟩
    simpa using spells_opening rfl (hxs.append_line hend)
  | parens =>
    have hend : Spells [')', ';'] [.mark .rparen, .mark .semi] := .lexeme rfl (.lexeme rfl .nil)
    refine ⟨.lparen, .rparen, [.mark .semi], rfl, .inr rfl, ?_⟩
    simpa using spells_opening rfl (hxs.append_line hend)
  | brackets =>
    have hend : Spells [']'] [.mark .rbracket] := .lexeme rfl .nil
    refine ⟨.lbracket, .rbracket, [], rfl, .inl rfl, ?_⟩
    simpa using spells_opening rfl (hxs.append_line hend)

end Tokens

/-! ## Declarations -/

/-- Tokens with the same lexemes are read as the same declaration, up to places. -/
theorem Declaration.exists_ofTokens {block block' : TokenList} {d : Declaration}
    (h : ofTokens block = .ok d)
    (hlexemes : block'.tokens.map Token.lexeme = block.tokens.map Token.lexeme) :
    ∃ d', ofTokens block' = .ok d' ∧
      d'.relabel (.ofPlaces erased) = d.relabel (.ofPlaces erased) := by
  have hblocks : block'.move erased = block.move erased := by
    have htokens := congrArg (List.map fun lexeme => Token.mk lexeme Position.start) hlexemes
    rw [List.map_map, List.map_map] at htokens
    exact congrArg (TokenList.mk · Position.start) htokens
  have hmoved := ofTokens_move (f := erased) block'
  rw [hblocks, ofTokens_move, h] at hmoved
  exact moved_eq_ok.mp hmoved.symm

/-- A text without the pair that starts an invocation is one declaration. -/
theorem declarationsOf_bare {text : String} {list : TokenList} {ds : List Declaration}
    (hlist : tokenize text = .ok list) (hpair : ¬ HasPair list.tokens)
    (h : declarationsOf text = .ok ds) : ∃ d, ds = [d] ∧ Declaration.ofTokens list = .ok d := by
  rw [declarationsOf_of_tokenize hlist, splitBlocks_bare hpair] at h
  obtain ⟨d, ds, hd, hds, rfl⟩ := List.forall₂_cons_left_iff.mp (mapM_eq_ok.mp h)
  obtain rfl := List.forall₂_nil_left_iff.mp hds
  exact ⟨d, rfl, hd⟩

/-- **Declarations.** The declaration of a text is that of an invocation around it, up to
places. -/
theorem declarationsOf_wrapped {text wrapped : String} {list : TokenList} {d : Declaration}
    (hlist : tokenize text = .ok list) (hd : Declaration.ofTokens list = .ok d)
    (h : Wraps text wrapped) :
    ∃ d', declarationsOf wrapped = .ok [d'] ∧
      d'.relabel (.ofPlaces erased) = d.relabel (.ofPlaces erased) := by
  obtain ⟨opener, close, semi, hkind, hsemi, hspells⟩ := h.exists_spells (spells_of_tokenize hlist)
  obtain ⟨⟨all, stop⟩, hwrapped, hall, -⟩ := hspells.tokenize_eq_ok
  obtain ⟨⟨_, p⟩, rest₁, rfl, rfl, hrest₁⟩ := List.map_eq_cons_iff.mp hall
  obtain ⟨⟨_, q⟩, rest₂, rfl, rfl, hrest₂⟩ := List.map_eq_cons_iff.mp hrest₁
  obtain ⟨⟨_, r⟩, rest₃, rfl, rfl, hrest₃⟩ := List.map_eq_cons_iff.mp hrest₂
  obtain ⟨inner, rest₄, rfl, hinner, hrest₄⟩ := List.map_eq_append_iff.mp hrest₃
  obtain ⟨⟨_, s⟩, last, rfl, rfl, hlast⟩ := List.map_eq_cons_iff.mp hrest₄
  have hblock : (blockOf inner ⟨.mark close, s⟩).tokens.map Token.lexeme =
      list.tokens.map Token.lexeme := hinner
  obtain ⟨d', hd', hplaces⟩ := Declaration.exists_ofTokens hd hblock
  -- what is read as a declaration has no bracket that closes the invocation
  have hreturns : ReturnsAt opener close 1 inner ⟨.mark close, s⟩ :=
    (Declaration.ofTokens_sound hd').nested.returnsAt hkind rfl
  have hlast' : last = [] ∨ ∃ t, last = [⟨.mark .semi, t⟩] := by
    rcases hsemi with rfl | rfl
    · exact .inl (List.map_eq_nil_iff.mp hlast)
    · obtain ⟨⟨_, t⟩, more, rfl, rfl, hmore⟩ := List.map_eq_cons_iff.mp hlast
      exact .inr ⟨t, congrArg _ (List.map_eq_nil_iff.mp hmore)⟩
  have hsplit := (Invocations.cons (.mk (p := p) (q := q) (r := r) hkind hreturns hlast')
    .nil).splitBlocks_eq_ok (List.cons_ne_nil _ _) (some stop)
  rw [List.append_nil] at hsplit
  refine ⟨d', ?_, hplaces⟩
  rw [declarationsOf_of_tokenize hwrapped, hsplit]
  exact mapM_eq_ok.mpr (.cons hd' .nil)

/-! ## Compiled units -/

/-- Declarations that differ in places alone compile to units that do. -/
theorem exists_compileDeclarations {ds ds' : List Declaration} {options : Options}
    {u : CompiledUnit} (hgrouped : ∀ d ∈ ds, d.Grouped) (hgrouped' : ∀ d ∈ ds', d.Grouped)
    (hds : ds'.map (·.relabel (.ofPlaces erased)) = ds.map (·.relabel (.ofPlaces erased)))
    (h : compileDeclarations options ds = .ok u) :
    ∃ u', compileDeclarations options ds' = .ok u' ∧ u'.move erased = u.move erased := by
  have hmoved := compileDeclarations_ofPlaces erased options hgrouped'
  rw [hds, compileDeclarations_ofPlaces erased options hgrouped, h] at hmoved
  exact moved_eq_ok.mp hmoved.symm

/-- **Bare text and an invocation around it.** Let a text without the pair that starts an
invocation compile. Then each invocation around it compiles with the same options, to a module with
the same text, types and symbols, and its variants have the same values. -/
theorem compile_wrapped {text wrapped : String} {list : TokenList} {options : Options}
    {u : CompiledUnit} (hlist : tokenize text = .ok list) (hpair : ¬ HasPair list.tokens)
    (h : compile text options = .ok u) (hwrapped : Wraps text wrapped) :
    ∃ u', compile wrapped options = .ok u' ∧ u'.text = u.text ∧ u'.types = u.types ∧
      u'.symbols = u.symbols ∧
      u'.resolved.map (fun r => (r.decl.qualifiedName, r.variants)) =
        u.resolved.map fun r => (r.decl.qualifiedName, r.variants) := by
  rw [compile_eq] at h
  obtain ⟨ds, hds, hu⟩ := bind_eq_ok.mp h
  obtain ⟨d, rfl, hd⟩ := declarationsOf_bare hlist hpair hds
  obtain ⟨d', hd', hplaces⟩ := declarationsOf_wrapped hlist hd hwrapped
  have hgrouped : ∀ {t : String} {ds : List Declaration}, declarationsOf t = .ok ds →
      ∀ d ∈ ds, d.Grouped := by
    intro t ds hds d hd
    obtain ⟨⟨used, hused⟩, -⟩ := declarationsOf_spec hds d hd
    exact hused.grouped
  obtain ⟨u', hu', hmove⟩ := exists_compileDeclarations (hgrouped hds) (hgrouped hd')
    (congrArg (fun d => [d]) hplaces) hu
  refine ⟨u', ?_, ?_, ?_, ?_, ?_⟩
  · rw [compile_eq, hd']
    exact hu'
  · show (u'.move erased).text = (u.move erased).text
    rw [hmove]
  · show (u'.move erased).types = (u.move erased).types
    rw [hmove]
  · rw [← u'.symbols_move erased, hmove, u.symbols_move]
  · have hresolved := congrArg (fun u : CompiledUnit =>
      u.resolved.map fun r => (r.decl.qualifiedName, r.variants)) hmove
    simp only [CompiledUnit.move, List.map_map, Function.comp_def,
      ResolvedEnum.variants_ofPlaces] at hresolved
    exact hresolved

/-- An enumeration with brackets of two kinds, others in an attribute, and a line comment that the
text ends in. -/
def unwrapped : String :=
  "#[a[\"]\"]] pub(crate) enum A: u8 \x7b X = 1, Y = (u8) K | X, \x7d // )]\x7d"

/-- Around it, none of its brackets and no comment closes the invocation. -/
theorem compile_wrapped_commented :
    ∃ list u, tokenize unwrapped = .ok list ∧ ¬ HasPair list.tokens ∧
      compile unwrapped {} = .ok u ∧
      ∀ wrapped, Wraps unwrapped wrapped → ∃ u', compile wrapped {} = .ok u' ∧
        u'.text = u.text ∧ u'.symbols = u.symbols := by
  have hread : (tokenize unwrapped).toOption.any (! hasInvocation ·.tokens) = true := by
    decide +kernel
  obtain ⟨list, hlist⟩ : ∃ list, tokenize unwrapped = .ok list := exists_eq_ok (by decide +kernel)
  obtain ⟨u, hu⟩ : ∃ u, compile unwrapped {} = .ok u := exists_eq_ok (by decide +kernel)
  rw [hlist] at hread
  have hnone : (! hasInvocation list.tokens) = true := hread
  have hpair : ¬ HasPair list.tokens := by
    rwa [← hasInvocation_iff, Bool.not_eq_true, ← Bool.not_eq_true']
  refine ⟨list, u, hlist, hpair, hu, fun wrapped hwrapped => ?_⟩
  obtain ⟨u', hu', htext, -, hsymbols, -⟩ := compile_wrapped hlist hpair hu hwrapped
  exact ⟨u', hu', htext, hsymbols⟩

end MaskEnum
