import MaskEnum.Token
set_option autoImplicit false

/-!
# Declaration blocks of a token list

A text either is one declaration block, or consists of invocations that each hold one:

    invocation := "encap_enum" "!" open inner close [";"]

where the brackets are of one of three kinds and only brackets of that kind are counted to find
the one that closes. A block ends where its last token's text ends, or after the bracket that
closes it when it is empty.

## Main definitions

* `MaskEnum.endOf` — the place after the text of a token.
* `MaskEnum.splitBlocks` — the blocks of a token list.
-/

namespace MaskEnum

/-- The place after a token, as far as the length of its text tells. -/
def endOf (t : Token) : Position := ⟨t.position.line, t.position.column + t.lexeme.text.length⟩

/-- Whether an invocation starts at the front of a token list. -/
def startsInvocation : List Token → Bool
  | ⟨.ident name, _⟩ :: ⟨.mark .bang, _⟩ :: _ => name == invocationName
  | _ => false

/-- Whether an invocation starts anywhere in a token list. -/
def hasInvocation : List Token → Bool
  | [] => false
  | t :: ts => startsInvocation (t :: ts) || hasInvocation ts

/-- Cuts a token list at the bracket `close` that matches an `opener` before it, inside which
`depth` further ones are open. -/
def cutAtCloser (opener close : Mark) : Nat → List Token → Option (List Token × Token × List Token)
  | _, [] => none
  | depth, t :: ts =>
    if t.lexeme = .mark opener then
      (cutAtCloser opener close (depth + 1) ts).map fun (inner, rest) => (t :: inner, rest)
    else if t.lexeme = .mark close then
      match depth with
      | 0 => some ([], t, ts)
      | depth + 1 =>
        (cutAtCloser opener close depth ts).map fun (inner, rest) => (t :: inner, rest)
    else (cutAtCloser opener close depth ts).map fun (inner, rest) => (t :: inner, rest)

theorem cutAtCloser_append {opener close : Mark} {depth : Nat} {ts inner rest : List Token}
    {closer : Token} (h : cutAtCloser opener close depth ts = some (inner, closer, rest)) :
    inner ++ closer :: rest = ts := by
  fun_induction cutAtCloser opener close depth ts generalizing inner with
  | case1 => cases h
  | case2 depth t ts _ ih =>
    obtain ⟨⟨i, r⟩, hi, he⟩ := Option.map_eq_some_iff.1 h
    cases he
    simp [ih hi]
  | case3 t ts _ _ => cases h; rfl
  | case4 t ts _ _ depth ih =>
    obtain ⟨⟨i, r⟩, hi, he⟩ := Option.map_eq_some_iff.1 h
    cases he
    simp [ih hi]
  | case5 depth t ts _ _ ih =>
    obtain ⟨⟨i, r⟩, hi, he⟩ := Option.map_eq_some_iff.1 h
    cases he
    simp [ih hi]

/-- Drops one semicolon. -/
def dropSemicolon : List Token → List Token
  | ⟨.mark .semi, _⟩ :: ts => ts
  | ts => ts

theorem dropSemicolon_length (ts : List Token) : (dropSemicolon ts).length ≤ ts.length := by
  unfold dropSemicolon
  split
  · simp
  · exact Nat.le_refl _

/-- The block that consists of `inner` and ends after its last token, or else after `closer`. -/
def blockOf (inner : List Token) (closer : Token) : TokenList :=
  ⟨inner, endOf (inner.getLast?.getD closer)⟩

/-- The blocks of a token list that consists of invocations. -/
def invocations (ts : List Token) : Except Error (List TokenList) :=
  match ts with
  | [] => .ok []
  | start :: rest =>
    if startsInvocation (start :: rest) then
      match hd : rest.drop 1 with
      | [] => .error ⟨.shape .missingOpener, some start.position⟩
      | opener :: body =>
        match opener.lexeme with
        | .mark m =>
          match m.closer? with
          | none => .error ⟨.shape .missingOpener, some start.position⟩
          | some close =>
            match h : cutAtCloser m close 0 body with
            | none =>
              .error ⟨.shape (.unclosedBlock opener.lexeme.text), some opener.position⟩
            | some (inner, closer, after) =>
              have : (dropSemicolon after).length < (start :: rest).length := by
                have h₁ := congrArg List.length (cutAtCloser_append h)
                have h₂ := dropSemicolon_length after
                have h₃ := congrArg List.length hd
                simp only [List.length_append, List.length_cons, List.length_drop] at h₁ h₃ ⊢
                omega
              match invocations (dropSemicolon after) with
              | .error e => .error e
              | .ok blocks => .ok (blockOf inner closer :: blocks)
        | _ => .error ⟨.shape .missingOpener, some start.position⟩
    else .error ⟨.shape (.strayToken start.lexeme.text), some start.position⟩
termination_by ts.length
decreasing_by assumption

/-- The blocks of a token list. `stop` is the end of the text; without it a single block ends
after its last token. -/
def splitBlocks (ts : List Token) (stop : Option Position) : Except Error (List TokenList) :=
  if hasInvocation ts then invocations ts
  else .ok [⟨ts, stop.getD ((ts.getLast?.map endOf).getD .start)⟩]

end MaskEnum
