import MaskEnum.Proofs.Declaration.Invocations
import MaskEnum.Proofs.Declaration.Places
import MaskEnum.Proofs.Declaration.Refusal
import MaskEnum.Proofs.Token.Outcome
import MaskEnum.Proofs.Token.Places
set_option autoImplicit false

/-!
# Where faults are reported

The faults of a text that is no declaration are reported at a place that points into the text. Two
are reported without any place: an integer without digits, which is read from its digits alone, and
a value that is missing behind its equals sign, since it has no token.

The place is that of a token or the end of a block. The end of the block of an invocation is told
from what its last token says, so behind an attribute that is spelled over several lines it may lie
elsewhere. The end of a text without invocations is where the text ends.

## Main definitions

* `MaskEnum.Fault.isUnplaced` — the faults that are reported without a place.
* `MaskEnum.Placed` — an outcome whose fault has a place unless it is one of these.

## Main results

* `MaskEnum.Declaration.ofTokens_placed` — which faults of a block have a place.
* `MaskEnum.Declaration.position_of_ofTokens` — this place is that of a token or the end of the
  block.
* `MaskEnum.diagnostics_pointInto` — the places of all faults point into the text.
* `MaskEnum.diagnostics_unplaced`, `MaskEnum.diagnostics_beyond` — texts for the exceptions.
-/

namespace MaskEnum

/-- Whether a fault is reported without a place. -/
def Fault.isUnplaced : Fault → Bool
  | shape (.emptyLiteral _) | shape (.badLiteral ..) | shape (.initializer _ .missing) => true
  | _ => false

/-- A failure has no place exactly if its fault is reported without one. -/
def Placed {α : Type} (r : Except Error α) : Prop :=
  ∀ err, r = .error err → err.position.isNone = err.fault.isUnplaced

section Steps

variable {α β : Type}

/-- Success is no failure. -/
theorem placed_ok (a : α) : Placed (.ok a) := by
  intro err h
  cases h

/-- A failure. -/
theorem placed_error {fault : Fault} {p : Option Position} (h : p.isNone = fault.isUnplaced) :
    Placed (.error ⟨fault, p⟩ : Except Error α) := by
  intro err herr
  obtain rfl := Except.error.inj herr
  exact h

/-- A failure that is handed on. -/
theorem Placed.error {err : Error} {r : Except Error α} (hr : Placed r) (h : r = .error err) :
    Placed (.error err : Except Error β) :=
  placed_error (hr err h)

/-- A chain of steps. -/
theorem Placed.bind {r : Except Error α} {g : α → Except Error β} (hr : Placed r)
    (hg : ∀ a, Placed (g a)) : Placed (r >>= g) := by
  cases r with
  | ok a => exact hg a
  | error err => exact hr.error rfl

/-- A step, whatever is made of its result. -/
theorem Placed.map {r : Except Error α} (hr : Placed r) (g : α → β) : Placed (r.map g) := by
  cases r with
  | ok a => exact placed_ok (g a)
  | error err => exact hr.error rfl

end Steps

/-! ## Initializers -/

namespace Initializer

variable {site : Site} {ts : List Token}

/-- A fault at one of the tokens that are left, or at the place for faults at the end. -/
theorem fail_placed {α : Type} (hstop : site.stop.isSome = true) (left : List Token)
    {fault : InitializerFault} (hfault : fault ≠ .missing) :
    Placed (fail site left fault : Except Error α) := by
  refine placed_error ?_
  have hplace : ((left.head?.map Token.position).or site.stop).isNone = false := by
    cases left with
    | nil => simpa using hstop
    | cons t left => rfl
  rw [hplace]
  cases fault with
  | missing => exact absurd rfl hfault
  | _ => rfl

/-- A literal. -/
theorem readLiteral_placed (digits : String) : Placed (readLiteral digits) := by
  unfold readLiteral Literal.read
  dsimp only
  split_ifs
  · exact placed_error rfl
  · split
    · exact placed_ok _
    · exact placed_error rfl

section Site

variable (hstop : site.stop.isSome = true)
include hstop

/-- A name. -/
theorem readName_placed (what : String) : Placed (readName site what ts) := by
  unfold readName
  split
  · exact placed_ok _
  · exact fail_placed hstop _ (by simp)

/-- A closing parenthesis. -/
theorem readClosing_placed : Placed (readClosing site ts) := by
  unfold readClosing
  split
  · exact placed_ok _
  · exact fail_placed hstop _ (by simp)

/-- The segments of a path. -/
theorem readSegments_placed : Placed (readSegments site ts) := by
  fun_induction readSegments site ts with
  | case1 p name q ts ih => exact ih.map _
  | case2 => exact fail_placed hstop _ (by simp)
  | case3 => exact placed_ok _

/-- An operand in parentheses. -/
theorem readParenthesized_placed (opener : Token) :
    Placed (readParenthesized site opener ts) := by
  unfold readParenthesized
  split
  · split
    · exact fail_placed hstop _ (by simp)
    · refine (readName_placed hstop _).bind fun _ => ?_
      exact (readClosing_placed hstop).bind fun _ => placed_ok _
  · refine (readName_placed hstop _).bind fun found => ?_
    dsimp only
    split_ifs
    · refine (readName_placed hstop _).bind fun _ => ?_
      refine (readSegments_placed hstop).bind fun _ => ?_
      refine (readClosing_placed hstop).bind fun _ => ?_
      exact (readName_placed hstop _).bind fun _ => placed_ok _
    · exact fail_placed hstop _ (by simp)
    · split
      · exact fail_placed hstop _ (by simp)
      · refine (readClosing_placed hstop).bind fun _ => ?_
        exact (readName_placed hstop _).bind fun _ => placed_ok _

/-- An operand. -/
theorem readOperand_placed : Placed (readOperand site ts) := by
  unfold readOperand
  split
  · exact fail_placed hstop _ (by simp)
  · split
    · exact (readLiteral_placed _).map _
    · exact placed_ok _
    · split
      · exact (readLiteral_placed _).map _
      · exact fail_placed hstop _ (by simp)
    · exact readParenthesized_placed hstop _
    · exact fail_placed hstop _ (by simp)
    · exact fail_placed hstop _ (by simp)

/-- The operands behind one operator. -/
theorem readTerms_placed {op : Operator} : Placed (readTerms site op ts) := by
  fun_induction readTerms site op ts with
  | case1 => exact placed_ok _
  | case2 token left hop err herr => exact (readOperand_placed hstop).error herr
  | case3 token left hop o after ho hlen err herr ih => exact ih.error herr
  | case4 => exact placed_ok _
  | case5 => exact placed_ok _

/-- The groups of the remaining operators. -/
theorem readGroups_placed {order : List Operator} {first : Initializer} :
    Placed (readGroups site order first ts) := by
  induction order generalizing first ts with
  | nil =>
    cases ts with
    | nil => exact placed_ok _
    | cons t ts =>
      refine fail_placed hstop _ ?_
      split <;> simp
  | cons op order ih =>
    rw [readGroups]
    exact (readTerms_placed hstop).bind fun _ => ih

end Site

/-- **Initializers.** Without tokens the value is missing and there is no place; the other faults of
an initializer have one, its literals apart. -/
theorem ofTokens_placed (variant : String) (ts : List Token) : Placed (ofTokens variant ts) := by
  cases ts with
  | nil => exact placed_error rfl
  | cons t ts =>
    have hstop : ((t :: ts).getLast?.map Token.position).isSome = true := by
      rw [Option.isSome_map, List.getLast?_isSome]
      exact List.cons_ne_nil t ts
    unfold ofTokens
    dsimp only
    split
    · next hnil => cases hnil
    · refine (readName_placed hstop _).bind fun found => ?_
      split
      · exact placed_ok _
      · exact fail_placed hstop _ (by simp)
    · refine (readOperand_placed hstop).bind fun _ => ?_
      exact (readTerms_placed hstop).bind fun _ => readGroups_placed hstop

end Initializer

/-! ## Declarations -/

namespace Declaration

variable {stop : Position} {ts : List Token}

/-- A fault at one of the tokens that are left, or at the end of the block. -/
theorem fail_placed {α : Type} (left : List Token) {fault : ShapeFault}
    (hfault : (Fault.shape fault).isUnplaced = false) :
    Placed (fail stop left fault : Except Error α) :=
  placed_error hfault.symm

/-- A name. -/
theorem readIdent_placed (what : String) : Placed (readIdent stop what ts) := by
  unfold readIdent
  split
  · exact placed_ok _
  · exact fail_placed _ rfl

/-- A mark. -/
theorem readMark_placed (m : Mark) : Placed (readMark stop m ts) := by
  unfold readMark
  split
  · split_ifs
    · exact placed_ok _
    · exact fail_placed _ rfl
  · exact fail_placed _ rfl

/-- A keyword. -/
theorem readKeyword_placed (word : String) : Placed (readKeyword stop word ts) := by
  unfold readKeyword
  split
  · split_ifs
    · exact placed_ok _
    · exact fail_placed _ rfl
  · exact fail_placed _ rfl

/-- The segments of a module path. -/
theorem readModulePath_placed : Placed (readModulePath stop ts) := by
  fun_induction readModulePath stop ts with
  | case1 p name q ts ih => exact ih.map _
  | case2 => exact fail_placed _ rfl
  | case3 => exact placed_ok _

/-- The scope of an access. -/
theorem readScope_placed : Placed (readScope stop ts) := by
  unfold readScope
  refine (readIdent_placed _).bind fun found => ?_
  dsimp only
  split_ifs
  · exact placed_ok _
  · exact placed_ok _
  · exact placed_ok _
  · refine (readIdent_placed _).bind fun _ => ?_
    exact readModulePath_placed.bind fun _ => placed_ok _
  · exact fail_placed _ rfl

/-- An access. -/
theorem readAccess_placed : Placed (readAccess stop ts) := by
  unfold readAccess
  split
  · exact placed_ok _
  · exact placed_ok _
  · refine readScope_placed.bind fun _ => ?_
    exact (readMark_placed _).bind fun _ => placed_ok _
  · exact placed_ok _
  · exact placed_ok _

/-- The name of an integer type. -/
theorem readType_placed : Placed (readType stop ts) := by
  unfold readType
  refine (readIdent_placed _).bind fun found => ?_
  dsimp only
  split_ifs
  · exact fail_placed _ rfl
  · split
    · exact placed_ok _
    · exact fail_placed _ rfl

/-- The wrapped type. -/
theorem readUnderlying_placed : Placed (readUnderlying stop ts) := by
  unfold readUnderlying
  split
  · refine readAccess_placed.bind fun _ => ?_
    exact readType_placed.bind fun _ => placed_ok _
  · exact placed_ok _

/-- A variant. -/
theorem readVariant_placed : Placed (readVariant stop ts) := by
  unfold readVariant
  refine (readIdent_placed _).bind fun found => Placed.bind ?_ fun _ => Placed.bind ?_ fun _ => ?_
  · unfold readValue
    split
    · exact (Initializer.ofTokens_placed _ _).map _
    · exact placed_ok _
  · unfold readVariantEnd
    split
    · exact placed_ok _
    · exact placed_ok _
    · exact fail_placed _ rfl
  · exact placed_ok _

/-- The variants up to the closing brace. -/
theorem readVariants_placed : Placed (readVariants stop ts) := by
  fun_induction readVariants stop ts with
  | case1 => exact placed_ok _
  | case2 ts hbrace err herr => exact readVariant_placed.error herr
  | case3 ts hbrace v left hv hlen err herr ih => exact ih.error herr
  | case4 => exact placed_ok _

/-- The variants of an enumeration. -/
theorem readBody_placed (name : String) : Placed (readBody stop name ts) := by
  unfold readBody
  split
  · exact fail_placed _ rfl
  · exact fail_placed _ rfl
  · refine readVariants_placed.bind fun found => ?_
    dsimp only
    split_ifs
    · exact fail_placed _ rfl
    · exact placed_ok _

/-- An enumeration. -/
theorem readEnum_placed (group : Option String) : Placed (readEnum stop group ts) := by
  unfold readEnum
  refine readAccess_placed.bind fun _ => ?_
  refine (readKeyword_placed _).bind fun _ => ?_
  refine (readIdent_placed _).bind fun _ => ?_
  refine readUnderlying_placed.bind fun _ => ?_
  refine (readMark_placed _).bind fun _ => ?_
  refine (readBody_placed _).bind fun _ => ?_
  refine (readMark_placed _).bind fun _ => ?_
  split_ifs
  · exact placed_error rfl
  · exact placed_ok _

/-- The enumerations of a module. -/
theorem readMembers_placed (name : String) : Placed (readMembers stop name ts) := by
  fun_induction readMembers stop name ts with
  | case1 => exact fail_placed _ rfl
  | case2 => exact placed_ok _
  | case3 t rest hbrace err herr => exact (readEnum_placed _).error herr
  | case4 t rest hbrace e left he hlen err herr ih => exact ih.error herr
  | case5 => exact placed_ok _

/-- The enumerations of a block without a module. -/
theorem readSiblings_placed : Placed (readSiblings stop ts) := by
  fun_induction readSiblings stop ts with
  | case1 => exact placed_ok _
  | case2 t rest err herr => exact (readEnum_placed _).error herr
  | case3 => exact placed_error rfl
  | case4 t rest e left he hlen hvalued err herr ih => exact ih.error herr
  | case5 => exact placed_ok _

/-- A module behind its attributes and access. -/
theorem readModule_placed (attributes : List String) (access : Access) :
    Placed (readModule stop attributes access ts) := by
  unfold readModule
  refine (readIdent_placed _).bind fun _ => ?_
  refine (readMark_placed _).bind fun _ => ?_
  refine (readMembers_placed _).bind fun _ => ?_
  dsimp only
  split_ifs
  · exact placed_error rfl
  · split
    · exact placed_ok _
    · exact fail_placed _ rfl

/-- **Blocks.** The faults of a block have a place, but for missing values and literals. -/
theorem ofTokens_placed (block : TokenList) : Placed (ofTokens block) := by
  unfold ofTokens
  split_ifs
  · exact fail_placed _ rfl
  · refine readAccess_placed.bind fun _ => ?_
    dsimp only
    split
    · exact readModule_placed _ _
    · exact readSiblings_placed.map _

/-- **Places.** A fault of a block is reported at the place of one of its tokens, or at its end.

**Proof sketch.** Reading commutes with a change of places (`ofTokens_move`). A change of the place
of the fault alone would change the fault and not the block, if the block did not hold that place. -/
theorem position_of_ofTokens {block : TokenList} {err : Error} {p : Position}
    (h : ofTokens block = .error err) (hp : err.position = some p) :
    p = block.stop ∨ ∃ t ∈ block.tokens, t.position = p := by
  by_contra hother
  push Not at hother
  obtain ⟨hstop, htokens⟩ := hother
  obtain ⟨f, hfp, hf⟩ : ∃ f : Position → Position, f p ≠ p ∧ ∀ q, q ≠ p → f q = q := by
    refine ⟨fun q => if q = p then ⟨p.line + 1, p.column⟩ else q, ?_, fun q hq => if_neg hq⟩
    dsimp only
    rw [if_pos rfl]
    intro heq
    exact absurd (congrArg Position.line heq) (Nat.succ_ne_self _)
  have hblock : block.move f = block := by
    have hsame : ∀ t ∈ block.tokens, t.move f = t := fun t ht =>
      congrArg (Token.mk t.lexeme) (hf t.position (htokens t ht))
    rw [TokenList.move, hf block.stop (Ne.symm hstop), List.map_congr_left hsame, List.map_id']
  have hmoved := ofTokens_move (f := f) block
  rw [hblock, h] at hmoved
  have hposition := congrArg Error.position (Except.error.inj hmoved)
  simp only [Error.move, hp, Option.map_some, Option.some.injEq] at hposition
  exact hfp hposition.symm

end Declaration

/-! ## Texts -/

/-- A text that is not split is reported at one of its tokens. -/
theorem position_of_splitBlocks {list : TokenList} {err : Error}
    (h : splitBlocks list.tokens (some list.stop) = .error err) :
    ∃ t ∈ list.tokens, err.position = some t.position := by
  by_cases hpair : HasPair list.tokens
  · obtain ⟨done, blocks, left, hleft, -, hunsplit⟩ :=
      ((splitBlocks_partitions list).2 hpair).2 err h
    rw [hleft]
    cases hunsplit with
    | stray => exact ⟨_, by simp, rfl⟩
    | unopened => exact ⟨⟨.ident invocationName, _⟩, by simp, rfl⟩
    | @unclosed _ _ r opener => exact ⟨⟨.mark opener, r⟩, by simp, rfl⟩
  · rw [splitBlocks_bare hpair] at h
    cases h

/-- The token at which a count of brackets returns to zero is a mark. -/
theorem ReturnsAt.exists_mark {opener close : Mark} {depth : Int} {ts : List Token} {last : Token}
    (h : ReturnsAt opener close depth ts last) : ∃ m, last.lexeme = .mark m := by
  by_contra hother
  push Not at hother
  have hzero := h.zero
  rw [excess_append, excess_other (hother opener) (hother close), Int.add_zero] at hzero
  exact h.first ts List.prefix_rfl hzero

/-- A block ends behind the given token: its own last one, or a mark if it has none. -/
def EndsBehind (b : TokenList) (last : Token) : Prop :=
  b.stop = endOf last ∧ (b.tokens.getLast? = some last ∨ ∃ m, last.lexeme = .mark m)

/-- The block of an invocation has some of its tokens, and ends behind one of them. -/
theorem Invocation.tokens {ts : List Token} {b : TokenList} (h : Invocation ts b) :
    (∀ t ∈ b.tokens, t ∈ ts) ∧ ∃ last ∈ ts, EndsBehind b last := by
  obtain @⟨p, q, r, opener, close, inner, semi, closer, -, hreturns, -⟩ := h
  refine ⟨fun t ht => by simp [ht], ?_⟩
  cases hlast : inner.getLast? with
  | none =>
    exact ⟨closer, by simp, rfl, .inr hreturns.exists_mark⟩
  | some last =>
    exact ⟨last, by simp [List.mem_of_getLast? hlast], rfl, .inl hlast⟩

/-- The blocks of invocations have some of their tokens, and end behind one of them. -/
theorem Invocations.tokens {ts : List Token} {bs : List TokenList} (h : Invocations ts bs) :
    ∀ b ∈ bs, (∀ t ∈ b.tokens, t ∈ ts) ∧ ∃ last ∈ ts, EndsBehind b last := by
  induction h with
  | nil => exact fun b hb => absurd hb List.not_mem_nil
  | @cons used rest first bs hfirst _ ih =>
    refine List.forall_mem_cons.mpr ⟨?_, fun b hb => ?_⟩
    · obtain ⟨htokens, last, hlast, hends⟩ := hfirst.tokens
      exact ⟨fun t ht => List.mem_append_left _ (htokens t ht), last,
        List.mem_append_left _ hlast, hends⟩
    · obtain ⟨htokens, last, hlast, hends⟩ := ih b hb
      exact ⟨fun t ht => List.mem_append_right _ (htokens t ht), last,
        List.mem_append_right _ hlast, hends⟩

/-- A block has some of the tokens of its text. It ends with the text, or it is that of an
invocation and ends behind one of these tokens. -/
theorem tokens_of_splitBlocks {list : TokenList} {blocks : List TokenList}
    (h : splitBlocks list.tokens (some list.stop) = .ok blocks) :
    ∀ b ∈ blocks, (∀ t ∈ b.tokens, t ∈ list.tokens) ∧
      (b.stop = list.stop ∨ HasPair list.tokens ∧ ∃ last ∈ list.tokens, EndsBehind b last) := by
  by_cases hpair : HasPair list.tokens
  · have hblocks := (((splitBlocks_partitions list).2 hpair).1 blocks).mp h
    exact fun b hb => (hblocks.tokens b hb).imp_right fun hends => .inr ⟨hpair, hends⟩
  · rw [splitBlocks_bare hpair] at h
    obtain rfl := Except.ok.inj h
    rintro b (- | ⟨-, hb⟩)
    · exact ⟨fun t ht => ht, .inl rfl⟩
    · cases hb

/-- Among the faults of a block of proper tokens, these have no place. -/
theorem Declaration.position_eq_none_iff {block : TokenList} {err : Error}
    (hproper : ∀ t ∈ block.tokens, t.Proper) (h : ofTokens block = .error err) :
    err.position = none ↔
      (∃ digits, err.fault = .shape (.emptyLiteral digits)) ∨
        ∃ variant, err.fault = .shape (.initializer variant .missing) := by
  obtain ⟨⟨fault, hfault⟩, hreported⟩ := ofTokens_refuses hproper err h
  rw [← Option.isNone_iff_eq_none, ofTokens_placed block err h]
  rw [hfault] at hreported ⊢
  constructor
  · intro hunplaced
    unfold Fault.isUnplaced at hunplaced
    split at hunplaced
    · next digits heq => exact .inl ⟨digits, heq⟩
    · next heq =>
      rw [heq] at hreported
      cases hreported
    · next variant heq => exact .inr ⟨variant, heq⟩
    · cases hunplaced
  · rintro (⟨digits, heq⟩ | ⟨variant, heq⟩)
    · rw [heq]
      rfl
    · rw [heq]
      rfl

/-- **Diagnostics.** The fault of a text that cannot be tokenized, or whose tokens cannot be split
into blocks, is reported at a place that points into the text. The fault of a block is reported
without a place exactly if an integer has no digits or a value is missing. Its place points into the
text, unless the text has invocations, the place is the end of the block of one, and the last token
of that block is an attribute that is spelled over several lines. -/
theorem diagnostics_pointInto (text : String) :
    (∀ err, tokenize text = .error err →
      ∃ p, err.position = some p ∧ p.PointsInto text.toList) ∧
    ∀ list, tokenize text = .ok list →
      (∀ err, splitBlocks list.tokens (some list.stop) = .error err →
        ∃ p, err.position = some p ∧ p.PointsInto text.toList) ∧
      ∀ blocks, splitBlocks list.tokens (some list.stop) = .ok blocks →
        ∀ block ∈ blocks, ∀ err, Declaration.ofTokens block = .error err →
          (err.position = none ↔
            (∃ digits, err.fault = .shape (.emptyLiteral digits)) ∨
              ∃ variant, err.fault = .shape (.initializer variant .missing)) ∧
          ∀ p, err.position = some p → p.PointsInto text.toList ∨
            HasPair list.tokens ∧ p = block.stop ∧ ∃ last, block.tokens.getLast? = some last ∧
              p = endOf last ∧ last.SpansLines text.toList := by
  obtain ⟨hok, herror, -⟩ := tokenize_outcome text
  refine ⟨fun err h => ?_, fun list hlist => ?_⟩
  · obtain ⟨front, rest, fault, htext, -, -, -, rfl⟩ := (herror err).mp h
    exact ⟨_, rfl, htext ▸ Position.pointsInto_behind_append front rest⟩
  obtain ⟨htiled, hstop⟩ := hok list hlist
  have hstands : ∀ t ∈ list.tokens, t.StandsIn text.toList := htiled.standsIn
  refine ⟨fun err h => ?_, fun blocks hblocks block hblock err h => ?_⟩
  · obtain ⟨t, ht, hposition⟩ := position_of_splitBlocks h
    exact ⟨_, hposition, (hstands t ht).pointsInto⟩
  obtain ⟨htokens, hends⟩ := tokens_of_splitBlocks hblocks block hblock
  have hproper : ∀ t ∈ block.tokens, t.Proper := fun t ht =>
    tokenize_proper hlist t (htokens t ht)
  refine ⟨Declaration.position_eq_none_iff hproper h, fun p hp => ?_⟩
  rcases Declaration.position_of_ofTokens h hp with rfl | ⟨t, ht, rfl⟩
  · rcases hends with hend | ⟨hpair, last, hlast, hend, hkind⟩
    · rw [hend, hstop]
      exact .inl (by simpa using Position.pointsInto_behind_append text.toList [])
    · rw [hend]
      refine (hstands last hlast).pointsInto_endOf.imp_right fun hspans =>
        ⟨hpair, rfl, last, ?_, rfl, hspans⟩
      -- a mark is spelled on one line
      obtain ⟨said, -, -, -, hattr, -⟩ := hspans
      refine hkind.resolve_right ?_
      rintro ⟨m, hmark⟩
      rw [hattr] at hmark
      cases hmark
  · exact .inl (hstands t (htokens t ht)).pointsInto

/-- An invocation with a keyword in it. -/
def keywordAlone : TokenList where
  tokens := [⟨.ident "encap_enum", ⟨1, 1⟩⟩, ⟨.mark .bang, ⟨1, 11⟩⟩, ⟨.mark .lparen, ⟨1, 12⟩⟩,
    ⟨.ident "enum", ⟨1, 13⟩⟩, ⟨.mark .rparen, ⟨1, 17⟩⟩]
  stop := ⟨1, 18⟩

/-- The name that is missing behind the keyword is reported at the end of the block. -/
theorem diagnostics_pointInto_blockEnd :
    tokenize "encap_enum!(enum)" = .ok keywordAlone ∧
      ∃ block err, splitBlocks keywordAlone.tokens (some keywordAlone.stop) = .ok [block] ∧
        Declaration.ofTokens block = .error err ∧ err.position = some block.stop ∧
        block.stop.PointsInto "encap_enum!(enum)".toList := by
  have hlist : tokenize "encap_enum!(enum)" = .ok keywordAlone := eq_ok (by decide +kernel)
  have hsplit : splitBlocks keywordAlone.tokens (some keywordAlone.stop) =
      .ok [⟨[⟨.ident "enum", ⟨1, 13⟩⟩], ⟨1, 17⟩⟩] := eq_ok (by decide +kernel)
  have hfault : Declaration.ofTokens ⟨[⟨.ident "enum", ⟨1, 13⟩⟩], ⟨1, 17⟩⟩ =
      .error ⟨.shape (.expected "enumeration name" none), some ⟨1, 17⟩⟩ :=
    eq_error (by decide +kernel)
  have hplaces := (((diagnostics_pointInto _).2 _ hlist).2 _ hsplit _ (List.mem_singleton_self _)
    _ hfault).2 _ rfl
  refine ⟨hlist, _, _, hsplit, hfault, rfl, hplaces.resolve_right ?_⟩
  rintro ⟨-, -, last, hlast, -, said, -, -, -, hattr, -⟩
  obtain rfl := Option.some.inj hlast
  cases hattr

/-- A value that is missing in front of a comma is reported without a place, and so is an integer
that is only a radix mark. -/
theorem diagnostics_unplaced :
    declarationsOf "enum A: u8 \x7b X = , Y = 1 \x7d" =
        .error ⟨.shape (.initializer "X" .missing), none⟩ ∧
      declarationsOf "enum A: u8 \x7b X = 0x_ \x7d" = .error ⟨.shape (.emptyLiteral "0x_"), none⟩ :=
  ⟨eq_error (by decide +kernel), eq_error (by decide +kernel)⟩

/-- The block of an invocation ends with an attribute over two lines, of which the first has 17
characters. The fault at the end of the block is reported at a column of that line that it has
not. -/
theorem diagnostics_beyond :
    let text := "encap_enum! \x7b #[a\nbbbbbbbbbbbbbbbbbbbbbb] \x7d"
    declarationsOf text =
        .error ⟨.shape (.expectedKeyword "enum"), some ⟨1, 39⟩⟩ ∧
      ¬ Position.PointsInto text.toList ⟨1, 39⟩ := by
  refine ⟨eq_error (by decide +kernel), ?_⟩
  rintro ⟨n, line, hline, hn, -, hcolumn⟩
  obtain rfl : n = 0 := by simpa using hn.symm
  have hfirst : ("encap_enum! \x7b #[a\nbbbbbbbbbbbbbbbbbbbbbb] \x7d".toList.splitOn '\n')[0]? =
      some "encap_enum! \x7b #[a".toList := by decide +kernel
  obtain rfl := Option.some.inj (hfirst.symm.trans hline)
  exact absurd hcolumn (by decide)

end MaskEnum
