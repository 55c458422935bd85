import MaskEnum.Declaration.Blocks
import MaskEnum.Generated.Program
import MaskEnum.Proofs.Result
import MaskEnum.Token.Lexer
set_option autoImplicit false

/-!
# Names in a text are identifiers

Whatever holds of every lexeme that is cut out of a text holds of the lexemes of its tokens, and
the blocks of a text have no other tokens. In particular every name is a letter or an underscore
with letters, digits and underscores after it, so that a program can use it unless it is a keyword.

## Main results

* `MaskEnum.forall_lexeme_of_tokenize` — what holds of each lexeme cut out holds of all tokens.
* `MaskEnum.tokenize_isNamed` — names are identifiers.
* `MaskEnum.mem_of_splitBlocks` — a block has tokens of its text.
-/

namespace MaskEnum

/-- An identifier holds letters, digits and underscores only. -/
theorem Generated.not_mem_of_isIdentifier {c : Char} (hc : (c.isAlphanum || c == '_') = false)
    {name : String} (h : isIdentifier name = true) : c ∉ name.toList := by
  unfold isIdentifier at h
  split at h
  · cases h
  · next first rest heq =>
    rw [heq]
    obtain ⟨hfirst, hrest⟩ := Bool.and_eq_true_iff.mp h
    rintro hmem
    rcases List.mem_cons.mp hmem with rfl | hmem
    · rw [Char.isAlphanum] at hc
      simp_all
    · rw [List.all_eq_true.mp hrest _ hmem] at hc
      cases hc

/-- What a name starts with is no digit. -/
theorem Lexer.isDigit_of_isNameStart {c : Char} (h : isNameStart c = true) : c.isDigit = false := by
  cases hdigit : c.isDigit with
  | false => rfl
  | true =>
    -- digits are ASCII characters, so there are few to look at
    have hall : ∀ n < 128, (Char.ofNat n).isDigit = true → isNameStart (Char.ofNat n) = false := by
      decide +kernel
    have hlt : c.toNat < 128 := by
      simp only [Char.isDigit, Bool.and_eq_true, decide_eq_true_eq] at hdigit
      exact Nat.lt_of_le_of_lt hdigit.2 (by decide)
    have hchar := hall c.toNat hlt
    rw [Char.ofNat_toNat] at hchar
    rw [hchar hdigit] at h
    cases h

/-- A letter or an underscore may stand anywhere in a name. -/
theorem Lexer.isNamePart_of_isNameStart {c : Char} (h : isNameStart c = true) :
    isNamePart c = true := by
  rcases Bool.or_eq_true_iff.mp h with h | h
  · rw [isNamePart, Char.isAlphanum, h, Bool.true_or, Bool.true_or]
  · rw [isNamePart, h, Bool.or_true]

/-- A digit may stand in a name, though not at its start. -/
theorem Lexer.isNamePart_of_isDigit {c : Char} (h : c.isDigit = true) : isNamePart c = true := by
  rw [isNamePart, Char.isAlphanum, h, Bool.or_true, Bool.true_or]

/-! ## Tokens of a text -/

/-- What holds of each lexeme that is cut out of a text holds of the lexemes of its tokens. -/
theorem forall_lexeme_of_tokenize {P : Lexeme → Prop}
    (hscan : ∀ c more lexeme cut, Lexer.scan c more = .ok (some lexeme, cut) → P lexeme)
    {text : String} {list : TokenList} (h : tokenize text = .ok list) :
    ∀ t ∈ list.tokens, P t.lexeme := by
  have hall : ∀ (p : Position) (cs : List Char) (list : TokenList),
      tokensFrom p cs = .ok list → ∀ t ∈ list.tokens, P t.lexeme := by
    intro p cs
    fun_induction tokensFrom p cs with
    | case1 p =>
      intro list h
      obtain rfl := Except.ok.inj h
      exact List.forall_mem_nil _
    | case2 => exact nofun
    | case3 => exact nofun
    | case4 p c more scanned hcut hlen list' hrest hnone ih =>
      intro list h
      obtain rfl := Except.ok.inj h
      exact ih _ hrest
    | case5 p c more scanned hcut hlen list' hrest lexeme hsome ih =>
      intro list h
      obtain rfl := Except.ok.inj h
      obtain ⟨o, cut⟩ := scanned
      dsimp only at hsome
      subst hsome
      exact List.forall_mem_cons.mpr ⟨hscan c more lexeme cut hcut, ih _ hrest⟩
  exact hall _ _ list h

namespace Lexer

/-- A number, a name or a mark: if it is a name, it is an identifier. -/
theorem isIdentifier_of_plainLexeme {c : Char} {more : List Char} {name : String} {cut : Cut}
    (h : plainLexeme c more = .ok (some (.ident name), cut)) :
    Generated.isIdentifier name = true := by
  unfold plainLexeme at h
  split at h
  · split_ifs at h
    cases h
  · split_ifs at h with hstart
    · obtain ⟨hlexeme, -⟩ := Prod.mk.inj (Except.ok.inj h)
      obtain rfl := Lexeme.ident.inj (Option.some.inj hlexeme)
      rw [Generated.isIdentifier, String.toList_ofList, Bool.and_eq_true]
      exact ⟨hstart, List.all_takeWhile⟩
    · split at h <;> cases h

/-- A spelling that is a name is an identifier. -/
theorem isIdentifier_of_scan {c : Char} {more : List Char} {name : String} {cut : Cut}
    (h : scan c more = .ok (some (.ident name), cut)) : Generated.isIdentifier name = true := by
  have hattr : ∀ opener rest, attr opener rest ≠ .ok (some (.ident name), cut) := by
    intro opener rest hattr
    unfold attr at hattr
    split at hattr <;> cases hattr
  unfold scan at h
  split_ifs at h
  · cases h
  · split at h
    · cases h
    · cases h
    · cases h
    · split at h <;> cases h
    · exact absurd h (hattr _ _)
    · exact absurd h (hattr _ _)
    · exact isIdentifier_of_plainLexeme h

end Lexer

/-- A token that is a name holds an identifier. -/
def Token.IsNamed (t : Token) : Prop :=
  ∀ name, t.lexeme = .ident name → Generated.isIdentifier name = true

/-- **Names are identifiers.** Every name in a text can be written in a program. -/
theorem tokenize_isNamed {text : String} {list : TokenList} (h : tokenize text = .ok list) :
    ∀ t ∈ list.tokens, t.IsNamed :=
  forall_lexeme_of_tokenize
    (P := fun lexeme => ∀ name, lexeme = .ident name → Generated.isIdentifier name = true)
    (fun _ _ _ _ hcut _ hname => Lexer.isIdentifier_of_scan (hname ▸ hcut)) h

/-! ## Blocks of a text -/

/-- What is left behind a semicolon belongs to the text. -/
theorem mem_of_dropSemicolon {t : Token} {ts : List Token} (h : t ∈ dropSemicolon ts) :
    t ∈ ts := by
  unfold dropSemicolon at h
  split at h
  · exact List.mem_cons_of_mem _ h
  · exact h

/-- The blocks of invocations have tokens of the text. -/
theorem mem_of_invocations {ts : List Token} {blocks : List TokenList}
    (h : invocations ts = .ok blocks) : ∀ b ∈ blocks, ∀ t ∈ b.tokens, t ∈ ts := by
  fun_induction invocations ts generalizing blocks with
  | case1 =>
    obtain rfl := Except.ok.inj h
    exact List.forall_mem_nil _
  | case6 start rest hstart opener body hd m hm close hclose inner closer after hcut hlen more
      hmore ih =>
    obtain rfl := Except.ok.inj h
    have hbody : ∀ t ∈ body, t ∈ start :: rest := by
      intro t ht
      have hrest : t ∈ rest.drop 1 := hd ▸ List.mem_cons_of_mem opener ht
      exact List.mem_cons_of_mem start (List.mem_of_mem_drop hrest)
    have happend := cutAtCloser_append hcut
    refine List.forall_mem_cons.mpr ⟨fun t ht => hbody t ?_, fun b hb t ht => hbody t ?_⟩
    · rw [← happend]
      exact List.mem_append_left _ ht
    · rw [← happend]
      exact List.mem_append_right _
        (List.mem_cons_of_mem closer (mem_of_dropSemicolon (ih hmore b hb t ht)))
  | _ => cases h

/-- **Blocks.** The blocks of a text have no tokens but its own. -/
theorem mem_of_splitBlocks {ts : List Token} {stop : Option Position} {blocks : List TokenList}
    (h : splitBlocks ts stop = .ok blocks) : ∀ b ∈ blocks, ∀ t ∈ b.tokens, t ∈ ts := by
  unfold splitBlocks at h
  split_ifs at h
  · exact mem_of_invocations h
  · obtain rfl := Except.ok.inj h
    intro b hb
    obtain rfl := List.mem_singleton.mp hb
    exact fun t ht => ht

end MaskEnum
