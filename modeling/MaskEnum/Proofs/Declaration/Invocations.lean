import MaskEnum.Proofs.Declaration.Blocks
set_option autoImplicit false

/-!
# Token lists as sequences of invocations

A token list with an invocation anywhere in it has blocks exactly if it is one invocation after the
other. Where an invocation ends is said by counting: at the first token at which as many brackets
of its opener's kind are closed as are opened, brackets of the other kinds counting for nothing.

## Main definitions

* `MaskEnum.excess` — how many more opening than closing brackets of a kind a list has.
* `MaskEnum.ReturnsAt` — where the count of open brackets is zero for the first time.
* `MaskEnum.Invocation`, `MaskEnum.Invocations` — the tokens of invocations, with their blocks.
* `MaskEnum.Unsplit` — why no invocation starts at the front of a list.

## Main results

* `MaskEnum.cutAtCloser_eq_some_iff`, `MaskEnum.cutAtCloser_eq_none_iff` — the bracket found is the
  one at which the count returns to zero.
* `MaskEnum.splitBlocks_partitions` — the blocks of a token list are those of its invocations.
-/

namespace MaskEnum

/-! ## Counting brackets -/

/-- How many more tokens of a list are the mark `opener` than are the mark `close`. -/
def excess (opener close : Mark) (ts : List Token) : Int :=
  (ts.countP fun t => t.lexeme = .mark opener : Nat) -
    (ts.countP fun t => t.lexeme = .mark close : Nat)

/-- With `depth` brackets open before a list, their count is zero for the first time after the
token `last` that follows the list. -/
structure ReturnsAt (opener close : Mark) (depth : Int) (ts : List Token) (last : Token) :
    Prop where
  zero : depth + excess opener close (ts ++ [last]) = 0
  first : ∀ l, l <+: ts → depth + excess opener close l ≠ 0

section Counting

variable {opener close : Mark} {depth : Int} {t last : Token} {ts us : List Token}

@[simp] theorem excess_nil : excess opener close [] = 0 := rfl

theorem excess_append :
    excess opener close (ts ++ us) = excess opener close ts + excess opener close us := by
  simp only [excess, List.countP_append]
  omega

theorem excess_cons :
    excess opener close (t :: ts) = excess opener close [t] + excess opener close ts := by
  rw [← excess_append, List.singleton_append]

/-- An opening bracket counts up. -/
theorem excess_opener (hne : opener ≠ close) (h : t.lexeme = .mark opener) :
    excess opener close [t] = 1 := by
  simp [excess, h, hne]

/-- A closing bracket counts down. -/
theorem excess_closer (hne : opener ≠ close) (h : t.lexeme = .mark close) :
    excess opener close [t] = -1 := by
  simp [excess, h, hne.symm]

/-- Any other token leaves the count. -/
theorem excess_other (hopener : t.lexeme ≠ .mark opener) (hclose : t.lexeme ≠ .mark close) :
    excess opener close [t] = 0 := by
  simp [excess, hopener, hclose]

/-- The prefixes of a list are the empty one and those that start with its head. -/
theorem forall_prefix_cons {p : List Token → Prop} :
    (∀ l, l <+: t :: ts → p l) ↔ p [] ∧ ∀ l, l <+: ts → p (t :: l) := by
  constructor
  · intro h
    exact ⟨h [] List.nil_prefix, fun l hl => h _ (List.cons_prefix_cons.mpr ⟨rfl, hl⟩)⟩
  · rintro ⟨hnil, hcons⟩ l hl
    rcases List.prefix_cons_iff.mp hl with rfl | ⟨tail, rfl, htail⟩
    · exact hnil
    · exact hcons tail htail

theorem returnsAt_nil :
    ReturnsAt opener close depth [] last ↔
      depth ≠ 0 ∧ depth + excess opener close [last] = 0 := by
  constructor
  · rintro ⟨hzero, hfirst⟩
    exact ⟨by simpa using hfirst [] List.nil_prefix, hzero⟩
  · rintro ⟨hne, hzero⟩
    refine ⟨hzero, fun l hl => ?_⟩
    obtain rfl := List.prefix_nil.mp hl
    simpa using hne

theorem returnsAt_cons :
    ReturnsAt opener close depth (t :: ts) last ↔
      depth ≠ 0 ∧ ReturnsAt opener close (depth + excess opener close [t]) ts last := by
  have hassoc : ∀ l, depth + excess opener close (t :: l) =
      depth + excess opener close [t] + excess opener close l := fun l => by
    rw [excess_cons, Int.add_assoc]
  constructor
  · rintro ⟨hzero, hfirst⟩
    obtain ⟨hnil, hcons⟩ := forall_prefix_cons.mp hfirst
    exact ⟨by simpa using hnil, (hassoc _).symm.trans hzero, fun l hl => hassoc l ▸ hcons l hl⟩
  · rintro ⟨hne, hzero, hfirst⟩
    refine ⟨(hassoc _).trans hzero, forall_prefix_cons.mpr ⟨by simpa using hne, fun l hl => ?_⟩⟩
    exact (hassoc l).symm ▸ hfirst l hl

/-- Counting decides where the count returns to zero. -/
instance decidableReturnsAt (opener close : Mark) (last : Token) :
    (depth : Int) → (ts : List Token) → Decidable (ReturnsAt opener close depth ts last)
  | _, [] => decidable_of_iff _ returnsAt_nil.symm
  | depth, t :: ts =>
    have := decidableReturnsAt opener close last (depth + excess opener close [t]) ts
    decidable_of_iff _ returnsAt_cons.symm

end Counting

/-! ## Cutting -/

section Cutting

variable {opener close : Mark} (hne : opener ≠ close)

/-- A token that does not bring the count to zero stays with the list before it. -/
theorem eq_append_and_returnsAt_cons {depth : Int} {t closer : Token}
    {ts inner rest : List Token} (hdepth : depth ≠ 0)
    (ht : depth + excess opener close [t] ≠ 0) :
    t :: ts = inner ++ closer :: rest ∧ ReturnsAt opener close depth inner closer ↔
      ∃ l, inner = t :: l ∧ ts = l ++ closer :: rest ∧
        ReturnsAt opener close (depth + excess opener close [t]) l closer := by
  constructor
  · rintro ⟨happend, hreturns⟩
    rcases inner with - | ⟨u, l⟩
    · obtain ⟨rfl, rfl⟩ := List.cons.inj happend
      exact absurd (returnsAt_nil.mp hreturns).2 ht
    · obtain ⟨rfl, rfl⟩ := List.cons.inj happend
      exact ⟨l, rfl, rfl, (returnsAt_cons.mp hreturns).2⟩
  · rintro ⟨l, rfl, rfl, hreturns⟩
    exact ⟨rfl, returnsAt_cons.mpr ⟨hdepth, hreturns⟩⟩

/-- A cut behind a token is a cut of what follows the token. -/
theorem map_cons_eq_some_iff {t closer : Token} {inner rest : List Token}
    {cut : Option (List Token × Token × List Token)} :
    cut.map (fun (inner, rest) => (t :: inner, rest)) = some (inner, closer, rest) ↔
      ∃ l, inner = t :: l ∧ cut = some (l, closer, rest) := by
  constructor
  · intro h
    obtain ⟨⟨l, _⟩, hcut, h⟩ := Option.map_eq_some_iff.mp h
    obtain ⟨rfl, rfl⟩ := Prod.mk.inj h
    exact ⟨l, rfl, hcut⟩
  · rintro ⟨l, rfl, rfl⟩
    rfl

include hne in
/-- **The matching bracket.** A list is cut at the token at which the count of open brackets is
zero for the first time. -/
theorem cutAtCloser_eq_some_iff {depth : Nat} {ts inner rest : List Token} {closer : Token} :
    cutAtCloser opener close depth ts = some (inner, closer, rest) ↔
      ts = inner ++ closer :: rest ∧ ReturnsAt opener close (depth + 1) inner closer := by
  have hdepth : ∀ n : Nat, (n : Int) + 1 ≠ 0 := fun n => by omega
  induction ts generalizing depth inner with
  | nil => simp [cutAtCloser]
  | cons t ts ih =>
    rw [cutAtCloser.eq_def]
    dsimp only
    split_ifs with hopener hclose
    · have ht := excess_opener hne hopener
      rw [map_cons_eq_some_iff, eq_append_and_returnsAt_cons (hdepth _) (by omega), ht]
      simp only [ih, Int.natCast_add, Int.natCast_one]
    · have ht := excess_closer hne hclose
      cases depth with
      | zero =>
        constructor
        · intro h
          obtain ⟨rfl, hrest⟩ := Prod.mk.inj (Option.some.inj h)
          obtain ⟨rfl, rfl⟩ := Prod.mk.inj hrest
          exact ⟨rfl, returnsAt_nil.mpr ⟨hdepth 0, by rw [ht]; rfl⟩⟩
        · rintro ⟨happend, hreturns⟩
          rcases inner with - | ⟨u, l⟩
          · obtain ⟨rfl, rfl⟩ := List.cons.inj happend
            rfl
          · -- behind this token the count is zero already
            obtain ⟨rfl, -⟩ := List.cons.inj happend
            have hzero := (returnsAt_cons.mp hreturns).2.first [] List.nil_prefix
            rw [ht] at hzero
            exact absurd rfl hzero
      | succ depth =>
        dsimp only
        rw [map_cons_eq_some_iff, eq_append_and_returnsAt_cons (hdepth _) (by omega), ht]
        simp only [ih, Int.natCast_add, Int.natCast_one, Int.add_neg_cancel_right]
    · have ht := excess_other hopener hclose
      rw [map_cons_eq_some_iff, eq_append_and_returnsAt_cons (hdepth _) (by omega), ht]
      simp only [ih, Int.add_zero]

include hne in
/-- No token is found exactly if the count is zero nowhere. -/
theorem cutAtCloser_eq_none_iff {depth : Nat} {ts : List Token} :
    cutAtCloser opener close depth ts = none ↔
      ∀ l, l <+: ts → (depth + 1 : Int) + excess opener close l ≠ 0 := by
  have hdepth : ∀ n : Nat, (n : Int) + 1 ≠ 0 := fun n => by omega
  induction ts generalizing depth with
  | nil =>
    refine iff_of_true rfl fun l hl => ?_
    obtain rfl := List.prefix_nil.mp hl
    simpa using hdepth depth
  | cons t ts ih =>
    have hcons : (∀ l, l <+: t :: ts → (depth + 1 : Int) + excess opener close l ≠ 0) ↔
        ∀ l, l <+: ts →
          (depth + 1 : Int) + excess opener close [t] + excess opener close l ≠ 0 := by
      rw [forall_prefix_cons]
      simp only [excess_nil, Int.add_zero, Int.add_assoc, ne_eq, hdepth, not_false_eq_true,
        true_and]
      refine forall₂_congr fun l _ => ?_
      rw [excess_cons]
    rw [hcons, cutAtCloser.eq_def]
    dsimp only
    split_ifs with hopener hclose
    · simp only [Option.map_eq_none_iff, ih, excess_opener hne hopener, Int.natCast_add,
        Int.natCast_one]
    · rw [excess_closer hne hclose]
      cases depth with
      | zero =>
        refine iff_of_false (Option.some_ne_none _) fun h => h [] List.nil_prefix ?_
        simp
      | succ depth =>
        simp only [Option.map_eq_none_iff, ih, Int.natCast_add, Int.natCast_one,
          Int.add_neg_cancel_right]
    · simp only [Option.map_eq_none_iff, ih, excess_other hopener hclose, Int.add_zero]

end Cutting

/-! ## Invocations -/

/-- The name of an invocation directly before an exclamation mark, at the front of a list. -/
def StartsWithPair (ts : List Token) : Prop :=
  ∃ p q back, ts = ⟨.ident invocationName, p⟩ :: ⟨.mark .bang, q⟩ :: back

/-- The same anywhere in a list. -/
def HasPair (ts : List Token) : Prop :=
  ∃ front p q back, ts = front ++ ⟨.ident invocationName, p⟩ :: ⟨.mark .bang, q⟩ :: back

/-- The tokens of one invocation with the block inside it. Its opening bracket counts as open. -/
inductive Invocation : List Token → TokenList → Prop
  | mk {p q r : Position} {opener close : Mark} {inner semi : List Token} {closer : Token} :
      opener.closer? = some close → ReturnsAt opener close 1 inner closer →
        (semi = [] ∨ ∃ s, semi = [⟨.mark .semi, s⟩]) →
          Invocation
            (⟨.ident invocationName, p⟩ :: ⟨.mark .bang, q⟩ :: ⟨.mark opener, r⟩ ::
              (inner ++ closer :: semi))
            ⟨inner, endOf (inner.getLast?.getD closer)⟩

/-- The tokens of one invocation after the other, with their blocks. -/
inductive Invocations : List Token → List TokenList → Prop
  | nil : Invocations [] []
  | cons {ts rest : List Token} {b : TokenList} {bs : List TokenList} :
      Invocation ts b → Invocations rest bs → Invocations (ts ++ rest) (b :: bs)

/-- Why no invocation can be cut off the front of a list: another token stands there, or no
bracket follows the exclamation mark, or nothing closes the bracket. -/
inductive Unsplit : List Token → Error → Prop
  | stray {t : Token} {ts : List Token} :
      ¬ StartsWithPair (t :: ts) →
        Unsplit (t :: ts) ⟨.shape (.strayToken t.lexeme.text), some t.position⟩
  | unopened {p q : Position} {ts : List Token} :
      (∀ opener r, ⟨.mark opener, r⟩ ∈ ts.head? → opener.closer? = none) →
        Unsplit (⟨.ident invocationName, p⟩ :: ⟨.mark .bang, q⟩ :: ts)
          ⟨.shape .missingOpener, some p⟩
  | unclosed {p q r : Position} {opener close : Mark} {ts : List Token} :
      opener.closer? = some close → (∀ l, l <+: ts → 1 + excess opener close l ≠ 0) →
        Unsplit (⟨.ident invocationName, p⟩ :: ⟨.mark .bang, q⟩ :: ⟨.mark opener, r⟩ :: ts)
          ⟨.shape (.unclosedBlock (Lexeme.mark opener).text), some r⟩

/-- A bracket is not closed by its own kind. -/
theorem Mark.ne_of_closer?_eq_some {opener close : Mark} (h : opener.closer? = some close) :
    opener ≠ close := by
  rintro rfl
  cases opener <;> cases h

/-- An invocation starts where its name stands before an exclamation mark. -/
theorem startsInvocation_iff {ts : List Token} :
    startsInvocation ts = true ↔ StartsWithPair ts := by
  unfold startsInvocation
  split
  · next name p q ts =>
    rw [beq_iff_eq]
    constructor
    · rintro rfl
      exact ⟨p, q, ts, rfl⟩
    · rintro ⟨_, _, _, h⟩
      obtain ⟨hname, -⟩ := Token.mk.inj (List.cons.inj h).1
      exact Lexeme.ident.inj hname
  · next hother =>
    refine iff_of_false Bool.false_ne_true ?_
    rintro ⟨p, q, ts, rfl⟩
    exact hother _ _ _ _ rfl

/-- The blocks are looked for exactly if a pair stands somewhere. -/
theorem hasInvocation_iff {ts : List Token} : hasInvocation ts = true ↔ HasPair ts := by
  induction ts with
  | nil =>
    refine iff_of_false Bool.false_ne_true ?_
    rintro ⟨front, p, q, back, h⟩
    simp at h
  | cons t ts ih =>
    rw [hasInvocation, Bool.or_eq_true, startsInvocation_iff, ih]
    constructor
    · rintro (⟨p, q, back, h⟩ | ⟨front, p, q, back, rfl⟩)
      · exact ⟨[], p, q, back, h⟩
      · exact ⟨t :: front, p, q, back, rfl⟩
    · rintro ⟨_ | ⟨u, front⟩, p, q, back, h⟩
      · exact .inl ⟨p, q, back, h⟩
      · exact .inr ⟨front, p, q, back, (List.cons.inj h).2⟩

/-- No list of invocations starts with a semicolon. -/
theorem Invocations.dropSemicolon {ts : List Token} {bs : List TokenList}
    (h : Invocations ts bs) : dropSemicolon ts = ts := by
  cases h with
  | nil => rfl
  | cons h _ =>
    cases h
    rfl

/-- One semicolon is dropped, or there is none. -/
theorem exists_semi_append (ts : List Token) :
    ∃ semi, (semi = [] ∨ ∃ s, semi = [⟨.mark .semi, s⟩]) ∧ ts = semi ++ dropSemicolon ts := by
  unfold dropSemicolon
  split
  · next s ts => exact ⟨_, .inr ⟨s, rfl⟩, rfl⟩
  · exact ⟨[], .inl rfl, rfl⟩

theorem invocations_nil : invocations [] = .ok [] := by
  rw [invocations]

/-- **One round.** Either an invocation is cut off the front of a list, or nothing is. -/
theorem invocations_round {ts : List Token} (hne : ts ≠ []) :
    (∃ used b left, used ≠ [] ∧ ts = used ++ left ∧ Invocation used b ∧
      invocations ts = invocations left >>= fun bs => .ok (b :: bs)) ∨
    ∃ e, Unsplit ts e ∧ invocations ts = .error e := by
  obtain ⟨start, rest, rfl⟩ := List.exists_cons_of_ne_nil hne
  rw [invocations_cons]
  split_ifs with hstarts
  · obtain ⟨p, q, body, hbody⟩ := startsInvocation_iff.mp hstarts
    obtain ⟨rfl, rfl⟩ := List.cons.inj hbody
    rw [List.drop_succ_cons, List.drop_zero]
    rcases body with - | ⟨⟨lexeme, r⟩, body⟩
    · exact .inr ⟨_, .unopened (by simp), rfl⟩
    cases lexeme with
    | mark opener =>
      dsimp only
      cases hcloser : opener.closer? with
      | none =>
        refine .inr ⟨_, .unopened fun m s hm => ?_, rfl⟩
        obtain ⟨hm, -⟩ := Token.mk.inj (Option.some.inj hm)
        exact Lexeme.mark.inj hm ▸ hcloser
      | some close =>
        dsimp only
        have hmarks := Mark.ne_of_closer?_eq_some hcloser
        cases hcut : cutAtCloser opener close 0 body with
        | none =>
          refine .inr ⟨_, .unclosed hcloser fun l hl => ?_, rfl⟩
          simpa using (cutAtCloser_eq_none_iff hmarks).mp hcut l hl
        | some cut =>
          obtain ⟨inner, closer, after⟩ := cut
          obtain ⟨rfl, hreturns⟩ := (cutAtCloser_eq_some_iff hmarks).mp hcut
          obtain ⟨semi, hsemi, hafter⟩ := exists_semi_append after
          refine .inl ⟨_, _, dropSemicolon after, List.cons_ne_nil _ _, ?_,
            .mk (p := p) (q := q) (r := r) hcloser (by simpa using hreturns) hsemi, rfl⟩
          simp [← hafter]
    | _ => exact .inr ⟨_, .unopened fun m s hm => by simp at hm, rfl⟩
  · exact .inr ⟨_, .stray fun h => hstarts (startsInvocation_iff.mpr h), rfl⟩

/-- **What is split.** Blocks are those of invocations that make up the list; otherwise the list
is unsplit behind some invocations. -/
theorem invocations_sound (ts : List Token) :
    match invocations ts with
    | .ok bs => Invocations ts bs
    | .error e => ∃ done bs left, ts = done ++ left ∧ Invocations done bs ∧ Unsplit left e := by
  induction hn : ts.length using Nat.strongRecOn generalizing ts with
  | _ n ih =>
  by_cases hne : ts = []
  · subst hne
    rw [invocations_nil]
    exact .nil
  rcases invocations_round hne with ⟨used, b, left, hused, rfl, hb, h⟩ | ⟨e, he, h⟩
  · have hlt : left.length < n := by
      have := List.length_pos_iff.mpr hused
      rw [List.length_append] at hn
      omega
    have hleft := ih _ hlt left rfl
    rw [h]
    cases hrest : invocations left with
    | ok bs =>
      rw [hrest] at hleft
      exact .cons hb hleft
    | error e =>
      rw [hrest] at hleft
      obtain ⟨done, bs, tail, rfl, hdone, htail⟩ := hleft
      exact ⟨used ++ done, b :: bs, tail, by simp, .cons hb hdone, htail⟩
  · rw [h]
    exact ⟨[], [], ts, rfl, .nil, he⟩

/-- An invocation is cut off a list whose rest does not start with a semicolon. -/
theorem Invocation.invocations_append {ts rest : List Token} {b : TokenList}
    (h : Invocation ts b) (hrest : MaskEnum.dropSemicolon rest = rest) :
    invocations (ts ++ rest) = invocations rest >>= fun bs => .ok (b :: bs) := by
  obtain @⟨p, q, r, opener, close, inner, semi, closer, hcloser, hreturns, hsemi⟩ := h
  have hcut : cutAtCloser opener close 0 (inner ++ closer :: (semi ++ rest)) =
      some (inner, closer, semi ++ rest) :=
    (cutAtCloser_eq_some_iff (Mark.ne_of_closer?_eq_some hcloser)).mpr
      ⟨rfl, by simpa using hreturns⟩
  have hdrop : MaskEnum.dropSemicolon (semi ++ rest) = rest := by
    rcases hsemi with rfl | ⟨s, rfl⟩
    · exact hrest
    · rfl
  simp only [List.cons_append, List.append_assoc]
  rw [invocations_cons, if_pos (startsInvocation_iff.mpr ⟨p, q, _, rfl⟩)]
  simp only [List.drop_succ_cons, List.drop_zero, hcloser, hcut, hdrop]
  rfl

/-- What is made up of invocations is split into their blocks. -/
theorem Invocations.invocations_eq_ok {ts : List Token} {bs : List TokenList}
    (h : Invocations ts bs) : invocations ts = .ok bs := by
  induction h with
  | nil => exact invocations_nil
  | cons hb hrest ih => rw [hb.invocations_append hrest.dropSemicolon, ih]; rfl

/-- So are blocks of a whole list, if it is not empty. -/
theorem Invocations.splitBlocks_eq_ok {ts : List Token} {bs : List TokenList}
    (h : Invocations ts bs) (hne : ts ≠ []) (stop : Option Position) :
    splitBlocks ts stop = .ok bs := by
  have hpair : HasPair ts := by
    cases h with
    | nil => exact absurd rfl hne
    | cons hb _ =>
      cases hb
      exact ⟨[], _, _, _, rfl⟩
  rw [splitBlocks, if_pos (hasInvocation_iff.mpr hpair), h.invocations_eq_ok]

/-- A list without the pair is its own block. -/
theorem splitBlocks_bare {ts : TokenList} (hpair : ¬ HasPair ts.tokens) :
    splitBlocks ts.tokens (some ts.stop) = .ok [ts] := by
  rw [splitBlocks, if_neg (hasInvocation_iff.not.mpr hpair)]
  rfl

/-- **Splitting.** A list without the pair that starts an invocation is its own block. Any other
list has blocks exactly if it is one invocation after the other, and they are what is inside these;
otherwise the fault is that of the first token behind which no invocation goes on. -/
theorem splitBlocks_partitions (ts : TokenList) :
    (¬ HasPair ts.tokens → splitBlocks ts.tokens (some ts.stop) = .ok [ts]) ∧
    (HasPair ts.tokens →
      (∀ bs, splitBlocks ts.tokens (some ts.stop) = .ok bs ↔ Invocations ts.tokens bs) ∧
      ∀ e, splitBlocks ts.tokens (some ts.stop) = .error e →
        ∃ done bs left, ts.tokens = done ++ left ∧ Invocations done bs ∧ Unsplit left e) := by
  refine ⟨splitBlocks_bare, fun hpair => ?_⟩
  rw [splitBlocks, if_pos (hasInvocation_iff.mpr hpair)]
  have hsound := invocations_sound ts.tokens
  refine ⟨fun bs => ⟨fun h => ?_, Invocations.invocations_eq_ok⟩, fun e h => ?_⟩
  · rw [h] at hsound
    exact hsound
  · rw [h] at hsound
    exact hsound

/-- A name is a block. Two invocations with a semicolon between them are two blocks, where a brace
inside the first one does not close it and a parenthesis does not count. A third one that is not
closed is left unsplit. -/
theorem splitBlocks_partitions_nested :
    let place := List.map fun x : Lexeme => (⟨x, .start⟩ : Token)
    let invoked : List Lexeme := [.ident invocationName, .mark .bang]
    let inner : List Lexeme := [.mark .lparen, .mark .lbrace, .mark .rbrace]
    let first := place (invoked ++ .mark .lbrace :: inner ++ [.mark .rbrace, .mark .semi])
    let second := place (invoked ++ [.mark .lparen, .mark .rparen])
    let third := place (invoked ++ [.mark .lbracket, .mark .rbrace])
    let blocks : List TokenList := [⟨place inner, ⟨1, 2⟩⟩, ⟨[], ⟨1, 2⟩⟩]
    splitBlocks (place [.ident "A"]) (some .start) = .ok [⟨place [.ident "A"], .start⟩] ∧
    splitBlocks (first ++ (second ++ [])) (some .start) = .ok blocks ∧
    ∀ e, splitBlocks (first ++ (second ++ third)) (some .start) = .error e →
      ∃ done bs left,
        first ++ (second ++ third) = done ++ left ∧ Invocations done bs ∧ Unsplit left e := by
  intro place invoked inner first second third blocks
  have hname : ¬ HasPair (place [.ident "A"]) := by
    rw [← hasInvocation_iff]
    decide
  have hbrace : endOf ⟨.mark .rbrace, .start⟩ = ⟨1, 2⟩ := by decide
  have hparen : endOf ⟨.mark .rparen, .start⟩ = ⟨1, 2⟩ := by decide
  have hfirst : Invocation first ⟨place inner, ⟨1, 2⟩⟩ := hbrace ▸
    @Invocation.mk .start .start .start .lbrace .rbrace (place inner) [⟨.mark .semi, .start⟩]
      ⟨.mark .rbrace, .start⟩ rfl (by decide) (.inr ⟨_, rfl⟩)
  have hsecond : Invocation second ⟨[], ⟨1, 2⟩⟩ := hparen ▸
    @Invocation.mk .start .start .start .lparen .rparen [] [] ⟨.mark .rparen, .start⟩ rfl
      (by decide) (.inl rfl)
  have hpair : ∀ ts, HasPair (first ++ ts) := fun ts => ⟨[], .start, .start, _, rfl⟩
  exact ⟨(splitBlocks_partitions ⟨_, .start⟩).1 hname,
    (((splitBlocks_partitions ⟨_, .start⟩).2 (hpair _)).1 blocks).mpr
      (.cons hfirst (.cons hsecond .nil)),
    ((splitBlocks_partitions ⟨_, .start⟩).2 (hpair _)).2⟩

end MaskEnum
