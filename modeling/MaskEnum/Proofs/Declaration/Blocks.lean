import MaskEnum.Declaration.Blocks
import MaskEnum.Proofs.Declaration.Places
set_option autoImplicit false

/-!
# Blocks at other places

The blocks of a text are found from what its tokens say. The end of a block is made up from the
length of its last token, so it does not move with the tokens; but it decides nothing.

## Main definitions

* `MaskEnum.erased` — all places taken for the first one.

## Main results

* `MaskEnum.splitBlocks_erased` — the blocks of a text are the same at any places, up to places.
-/

namespace MaskEnum

/-- All places taken for the first one. -/
def erased (_ : Position) : Position := .start

section Cutting

variable {f : Position → Position} {ts : List Token}

/-- An invocation starts at any place. -/
theorem startsInvocation_move : startsInvocation (ts.map (Token.move f)) = startsInvocation ts := by
  rcases ts with - | ⟨⟨lexeme, p⟩, ts⟩
  · rfl
  cases lexeme with
  | ident name =>
    rcases ts with - | ⟨⟨lexeme, q⟩, ts⟩
    · rfl
    · cases lexeme with
      | mark m => cases m <;> rfl
      | _ => rfl
  | _ => rfl

/-- So it does anywhere. -/
theorem hasInvocation_move : hasInvocation (ts.map (Token.move f)) = hasInvocation ts := by
  induction ts with
  | nil => rfl
  | cons t ts ih =>
    rw [List.map_cons, hasInvocation, hasInvocation, ih, ← List.map_cons, startsInvocation_move]

/-- Cutting at a closing bracket. -/
theorem cutAtCloser_move (opener close : Mark) (depth : Nat) :
    cutAtCloser opener close depth (ts.map (Token.move f)) =
      (cutAtCloser opener close depth ts).map fun a =>
        (a.1.map (Token.move f), a.2.1.move f, a.2.2.map (Token.move f)) := by
  induction ts generalizing depth with
  | nil => rfl
  | cons t ts ih =>
    have hlexeme : (t.move f).lexeme = t.lexeme := rfl
    rw [List.map_cons, cutAtCloser.eq_def, cutAtCloser.eq_def opener close depth (t :: ts)]
    dsimp only
    rw [hlexeme]
    split_ifs
    · rw [ih, Option.map_map, Option.map_map]
      rfl
    · cases depth with
      | zero => rfl
      | succ depth =>
        dsimp only
        rw [ih, Option.map_map, Option.map_map]
        rfl
    · rw [ih, Option.map_map, Option.map_map]
      rfl

/-- Dropping a semicolon. -/
theorem dropSemicolon_move :
    dropSemicolon (ts.map (Token.move f)) = (dropSemicolon ts).map (Token.move f) := by
  rcases ts with - | ⟨⟨lexeme, p⟩, ts⟩
  · rfl
  · cases lexeme with
    | mark m => cases m <;> rfl
    | _ => rfl

end Cutting

/-- One round of cutting a text into invocations. -/
theorem invocations_cons (start : Token) (rest : List Token) :
    invocations (start :: rest) =
      if startsInvocation (start :: rest) then
        match rest.drop 1 with
        | [] => .error ⟨.shape .missingOpener, some start.position⟩
        | opener :: body =>
          match opener.lexeme with
          | .mark m =>
            match m.closer? with
            | none => .error ⟨.shape .missingOpener, some start.position⟩
            | some close =>
              match cutAtCloser m close 0 body with
              | none => .error ⟨.shape (.unclosedBlock opener.lexeme.text), some opener.position⟩
              | some (inner, closer, after) => do
                let blocks ← invocations (dropSemicolon after)
                .ok (blockOf inner closer :: blocks)
          | _ => .error ⟨.shape .missingOpener, some start.position⟩
      else .error ⟨.shape (.strayToken start.lexeme.text), some start.position⟩ := by
  rw [invocations]
  split_ifs
  · rcases rest with - | ⟨bang, - | ⟨⟨lexeme, p⟩, body⟩⟩
    · rfl
    · rfl
    cases lexeme with
    | mark m =>
      dsimp only [List.drop]
      cases m.closer? with
      | none => rfl
      | some close =>
        dsimp only
        split
        · next hcut => simp only [hcut]
        · next inner closer after hcut =>
          simp only [hcut]
          cases invocations (dropSemicolon after) <;> rfl
    | _ => rfl
  · rfl

/-- Blocks without their places. -/
def erasedBlocks (r : Except Error (List TokenList)) : Except Error (List TokenList) :=
  moved erased (List.map (TokenList.move erased)) r

/-- A block does not depend on places but for its end. -/
theorem blockOf_erased (inner : List Token) (closer : Token) :
    (blockOf (inner.map (Token.move erased)) (closer.move erased)).move erased =
      (blockOf inner closer).move erased := by
  simp only [TokenList.move, blockOf, List.map_map]
  rfl

/-- A block in front of others. -/
theorem erasedBlocks_cons (b : TokenList) (r : Except Error (List TokenList)) :
    erasedBlocks (r >>= fun bs => .ok (b :: bs)) =
      (erasedBlocks r).map (b.move erased :: ·) := by
  cases r <;> rfl

/-- The invocations of a text are the same at any places, up to places. -/
theorem invocations_erased (ts : List Token) :
    erasedBlocks (invocations (ts.map (Token.move erased))) = erasedBlocks (invocations ts) := by
  induction hn : ts.length using Nat.strongRecOn generalizing ts with
  | _ n ih =>
  rcases ts with - | ⟨start, rest⟩
  · rfl
  rw [List.map_cons, invocations_cons, invocations_cons, ← List.map_cons, startsInvocation_move]
  split_ifs
  · rcases rest with - | ⟨bang, - | ⟨⟨lexeme, p⟩, body⟩⟩
    · rfl
    · rfl
    cases lexeme with
    | mark m =>
      simp only [List.map_cons, List.drop_succ_cons, List.drop_zero, Token.move]
      cases m.closer? with
      | none => rfl
      | some close =>
        dsimp only
        rw [cutAtCloser_move]
        cases hcut : cutAtCloser m close 0 body with
        | none => rfl
        | some cut =>
          obtain ⟨inner, closer, after⟩ := cut
          have hlt : (dropSemicolon after).length < n := by
            have happend := congrArg List.length (cutAtCloser_append hcut)
            have hdrop := dropSemicolon_length after
            simp only [List.length_append, List.length_cons] at happend hn
            omega
          simp only [Option.map_some, erasedBlocks_cons, dropSemicolon_move, blockOf_erased,
            ih _ hlt _ rfl]
    | _ => rfl
  · rfl

/-- **Blocks.** The blocks of a text are the same at any places, up to places. -/
theorem splitBlocks_erased (ts : List Token) (stop stop' : Option Position) :
    erasedBlocks (splitBlocks (ts.map (Token.move erased)) stop) =
      erasedBlocks (splitBlocks ts stop') := by
  unfold splitBlocks
  rw [hasInvocation_move]
  split_ifs
  · exact invocations_erased ts
  · simp only [erasedBlocks, moved_ok, List.map_cons, List.map_nil, TokenList.move, List.map_map]
    rfl

end MaskEnum
