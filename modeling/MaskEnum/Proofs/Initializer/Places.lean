import MaskEnum.Proofs.Initializer.Grammar
import MaskEnum.Proofs.Relabeling
set_option autoImplicit false

/-!
# Initializers at other places

An initializer is read from what its tokens say. Where they stand decides nothing but the place of a
fault.

## Main results

* `MaskEnum.Initializer.ofTokens_move` — reading commutes with a change of places.
-/

namespace MaskEnum

/-- A result with the tokens that are left at other places. -/
def leftMoved {α : Type} (f : Position → Position) (a : α × List Token) : α × List Token :=
  (a.1, a.2.map (Token.move f))

namespace Initializer

variable {f : Position → Position} {site : Site} {ts : List Token}

/-- A site whose end is at another place. -/
def Site.move (f : Position → Position) (site : Site) : Site := ⟨site.variant, site.stop.map f⟩

/-- A fault is reported at the place of the same token. -/
theorem fail_move {α β : Type} (ts : List Token) (g : α → β) (fault : InitializerFault) :
    fail (site.move f) (ts.map (Token.move f)) fault = moved f g (fail site ts fault) := by
  cases ts <;> rfl

/-- Reading a name. -/
theorem readName_move (what : String) :
    readName (site.move f) what (ts.map (Token.move f)) =
      moved f (leftMoved f) (readName site what ts) := by
  rcases ts with - | ⟨⟨lexeme, p⟩, ts⟩
  · rfl
  · cases lexeme <;> rfl

/-- Reading a closing parenthesis. -/
theorem readClosing_move :
    readClosing (site.move f) (ts.map (Token.move f)) =
      moved f (List.map (Token.move f)) (readClosing site ts) := by
  rcases ts with - | ⟨⟨lexeme, p⟩, ts⟩
  · rfl
  · cases lexeme with
    | mark m => cases m <;> rfl
    | _ => rfl

/-- Reading the rest of a path. -/
theorem readSegments_move :
    readSegments (site.move f) (ts.map (Token.move f)) =
      moved f (leftMoved f) (readSegments site ts) := by
  fun_induction readSegments site ts with
  | case1 p name q left ih =>
    simp only [List.map_cons, Token.move, readSegments]
    exact moved_map ih fun _ => rfl
  | case2 p left hne =>
    rcases left with - | ⟨⟨lexeme, q⟩, left⟩
    · rfl
    · cases lexeme with
      | ident name => exact (hne name q left rfl).elim
      | _ => rfl
  | case3 left _ hne =>
    rcases left with - | ⟨⟨lexeme, q⟩, left⟩
    · rfl
    · cases lexeme with
      | mark m =>
        cases m with
        | pathsep => exact (hne q left rfl).elim
        | _ => rfl
      | _ => rfl

/-- Reading a literal, whose fault has no place. -/
theorem readLiteral_move (digits : String) :
    readLiteral digits = moved f id (readLiteral digits) := by
  unfold readLiteral
  cases Literal.read digits <;> rfl

/-- Reading an operand behind a parenthesis. -/
theorem readParenthesized_move (opener : Token) :
    readParenthesized (site.move f) (opener.move f) (ts.map (Token.move f)) =
      moved f (leftMoved f) (readParenthesized site opener ts) := by
  unfold readParenthesized
  split
  · next p left hts =>
    obtain ⟨⟨lexeme, q⟩, left, rfl, ht, rfl⟩ := List.map_eq_cons_iff.mp hts
    obtain ⟨rfl, rfl⟩ := Token.mk.inj ht
    dsimp only
    split
    · next digits p more hleft =>
      obtain ⟨⟨lexeme, r⟩, more, rfl, ht, rfl⟩ := List.map_eq_cons_iff.mp hleft
      obtain ⟨rfl, rfl⟩ := Token.mk.inj ht
      rfl
    · next hne =>
      split
      · exact (hne _ _ _ rfl).elim
      · refine moved_bind (readName_move _) fun _ _ => ?_
        exact moved_bind readClosing_move fun _ _ => rfl
  · next hne =>
    split
    · exact (hne _ _ rfl).elim
    · refine moved_bind (readName_move _) fun a _ => ?_
      dsimp only [leftMoved]
      split_ifs
      · refine moved_bind (readName_move _) fun _ _ => ?_
        refine moved_bind readSegments_move fun _ _ => ?_
        refine moved_bind readClosing_move fun _ _ => ?_
        exact moved_bind (readName_move _) fun _ _ => rfl
      · exact fail_move _ _ _
      · cases IntType.ofName? a.1 with
        | none => exact fail_move [opener] _ _
        | some type =>
          refine moved_bind readClosing_move fun _ _ => ?_
          exact moved_bind (readName_move _) fun _ _ => rfl

/-- Reading an operand. -/
theorem readOperand_move :
    readOperand (site.move f) (ts.map (Token.move f)) =
      moved f (leftMoved f) (readOperand site ts) := by
  rcases ts with - | ⟨⟨lexeme, p⟩, left⟩
  · rfl
  cases lexeme with
  | int digits => exact moved_map (readLiteral_move digits) fun _ => rfl
  | ident name => rfl
  | attr text => rfl
  | doc text => rfl
  | mark m =>
    cases m with
    | minus =>
      rcases left with - | ⟨⟨lexeme, q⟩, left⟩
      · rfl
      · cases lexeme with
        | int digits => exact moved_map (readLiteral_move digits) fun _ => rfl
        | _ => rfl
    | lparen => exact readParenthesized_move ⟨.mark .lparen, p⟩
    | _ => rfl

/-- The operator of a token does not depend on its place. -/
theorem operator?_move (t : Token) : (t.move f).operator? = t.operator? := rfl

/-- Reading the operands behind an operator. -/
theorem readTerms_move {op : Operator} :
    readTerms (site.move f) op (ts.map (Token.move f)) =
      moved f (leftMoved f) (readTerms site op ts) := by
  fun_induction readTerms site op ts with
  | case1 =>
    rw [List.map_nil, readTerms]
    rfl
  | case2 t left hop e he =>
    rw [List.map_cons, readTerms_cons, operator?_move, if_pos hop, readOperand_move, he]
    rfl
  | case3 t left hop o after ho hlt e he ih =>
    rw [List.map_cons, readTerms_cons, operator?_move, if_pos hop, readOperand_move, ho]
    show (readTerms _ _ (after.map _) >>= _) = _
    rw [ih, he]
    rfl
  | case4 t left hop o after ho hlt os rest hos ih =>
    rw [List.map_cons, readTerms_cons, operator?_move, if_pos hop, readOperand_move, ho]
    show (readTerms _ _ (after.map _) >>= _) = _
    rw [ih, hos]
    rfl
  | case5 t left hop =>
    rw [List.map_cons, readTerms_cons, operator?_move, if_neg hop]
    rfl

/-- Reading the groups of an initializer. -/
theorem readGroups_move (order : List Operator) (first : Initializer) :
    readGroups (site.move f) order first (ts.map (Token.move f)) =
      moved f id (readGroups site order first ts) := by
  induction order generalizing first ts with
  | nil =>
    rcases ts with - | ⟨t, left⟩
    · rfl
    · exact fail_move (t :: left) _ _
  | cons op order ih =>
    show (readTerms _ op _ >>= _) = moved f id (readTerms site op ts >>= _)
    exact moved_bind readTerms_move fun a _ => ih _

/-- **Initializers.** Reading commutes with a change of places. -/
theorem ofTokens_move (variant : String) :
    ofTokens variant (ts.map (Token.move f)) = moved f id (ofTokens variant ts) := by
  have hsite : Site.mk variant ((ts.map (Token.move f)).getLast?.map Token.position) =
      Site.move f ⟨variant, ts.getLast?.map Token.position⟩ := by
    rw [List.getLast?_map, Option.map_map, Site.move, Option.map_map]
    rfl
  unfold ofTokens
  rw [hsite]
  dsimp only
  generalize Site.mk variant (ts.getLast?.map Token.position) = site
  split
  · next hnil =>
    obtain rfl := List.map_eq_nil_iff.mp hnil
    rfl
  · next p left hts =>
    obtain ⟨⟨lexeme, q⟩, left, rfl, ht, rfl⟩ := List.map_eq_cons_iff.mp hts
    obtain ⟨rfl, rfl⟩ := Token.mk.inj ht
    refine moved_bind (readName_move _) fun a _ => ?_
    rcases a with ⟨constant, - | ⟨t, left⟩⟩
    · rfl
    · exact fail_move (t :: left) _ _
  · next hnil hpath =>
    split
    · exact (hnil rfl).elim
    · exact (hpath _ _ rfl).elim
    · refine moved_bind readOperand_move fun _ _ => ?_
      refine moved_bind readTerms_move fun _ _ => ?_
      exact readGroups_move _ _

end Initializer

end MaskEnum
