import MaskEnum.Declaration.Parser
import MaskEnum.Proofs.Initializer.Places
set_option autoImplicit false

/-!
# Declarations at other places

A block is read from what its tokens say. Where they stand decides nothing but the places that the
declaration holds, and the place of a fault.

## Main results

* `MaskEnum.Declaration.ofTokens_move` — reading commutes with a change of places.
-/

namespace MaskEnum

namespace Declaration

variable {f : Position → Position} {stop : Position} {ts : List Token}

/-- A fault is reported at the place of the same token. -/
theorem fail_move {α β : Type} (ts : List Token) (g : α → β) (fault : ShapeFault) :
    fail (f stop) (ts.map (Token.move f)) fault = moved f g (fail stop ts fault) := by
  cases ts <;> rfl

/-- Reading a name. -/
theorem readIdent_move (what : String) :
    readIdent (f stop) what (ts.map (Token.move f)) =
      moved f (fun a => ((a.1.1, f a.1.2), a.2.map (Token.move f))) (readIdent stop what ts) := by
  rcases ts with - | ⟨⟨lexeme, p⟩, ts⟩
  · rfl
  · cases lexeme <;> rfl

/-- Skipping a mark. -/
theorem readMark_move (m : Mark) :
    readMark (f stop) m (ts.map (Token.move f)) =
      moved f (List.map (Token.move f)) (readMark stop m ts) := by
  rcases ts with - | ⟨⟨lexeme, p⟩, ts⟩
  · rfl
  · cases lexeme with
    | mark m' =>
      simp only [List.map_cons, Token.move, readMark]
      split_ifs
      · rfl
      · rfl
    | _ => rfl

/-- Skipping a keyword. -/
theorem readKeyword_move (word : String) :
    readKeyword (f stop) word (ts.map (Token.move f)) =
      moved f (fun a => (f a.1, a.2.map (Token.move f))) (readKeyword stop word ts) := by
  rcases ts with - | ⟨⟨lexeme, p⟩, ts⟩
  · rfl
  · cases lexeme with
    | ident name =>
      simp only [List.map_cons, Token.move, readKeyword]
      split_ifs
      · rfl
      · rfl
    | _ => rfl

/-- Reading attributes. -/
theorem readMetadata_move :
    readMetadata (ts.map (Token.move f)) = leftMoved f (readMetadata ts) := by
  fun_induction readMetadata ts with
  | case1 text p left more rest h ih => 
    simp only [List.map_cons, Token.move, readMetadata]
    rw [ih, h]
    rfl
  | case2 text p left more rest h ih =>
    simp only [List.map_cons, Token.move, readMetadata]
    rw [ih, h]
    rfl
  | case3 left hattr hdoc =>
    rcases left with - | ⟨⟨lexeme, p⟩, left⟩
    · rfl
    · cases lexeme with
      | attr text => exact (hattr text p left rfl).elim
      | doc text => exact (hdoc text p left rfl).elim
      | _ => rfl

/-- Reading the rest of a module path. -/
theorem readModulePath_move :
    readModulePath (f stop) (ts.map (Token.move f)) =
      moved f (leftMoved f) (readModulePath stop ts) := by
  fun_induction readModulePath stop ts with
  | case1 p name q left ih =>
    simp only [List.map_cons, Token.move, readModulePath]
    exact moved_map ih fun _ => rfl
  | case2 p left hne =>
    rcases left with - | ⟨⟨lexeme, q⟩, left⟩
    · rfl
    · cases lexeme with
      | ident name => exact (hne name q left rfl).elim
      | _ => rfl
  | case3 left _ hne =>
    rcases left with - | ⟨⟨lexeme, q⟩, left⟩
    · rfl
    · cases lexeme with
      | mark m =>
        cases m with
        | pathsep => exact (hne q left rfl).elim
        | _ => rfl
      | _ => rfl

/-- Reading the scope of an access. -/
theorem readScope_move :
    readScope (f stop) (ts.map (Token.move f)) = moved f (leftMoved f) (readScope stop ts) := by
  refine moved_bind (readIdent_move _) fun a _ => ?_
  dsimp only
  split_ifs
  · rfl
  · rfl
  · rfl
  · refine moved_bind (readIdent_move _) fun _ _ => ?_
    exact moved_bind readModulePath_move fun _ _ => rfl
  · exact fail_move _ _ _

/-- Reading an access. -/
theorem readAccess_move :
    readAccess (f stop) (ts.map (Token.move f)) = moved f (leftMoved f) (readAccess stop ts) := by
  rcases ts with - | ⟨⟨lexeme, p⟩, ts⟩
  · rfl
  cases lexeme with
  | ident name =>
    by_cases hcrate : name = "crate"
    · subst hcrate
      rcases ts with - | ⟨⟨lexeme, q⟩, ts⟩
      · rfl
      · cases lexeme with
        | mark m => cases m <;> rfl
        | _ => rfl
    by_cases hpub : name = "pub"
    · subst hpub
      rcases ts with - | ⟨⟨lexeme, q⟩, ts⟩
      · rfl
      · cases lexeme with
        | mark m =>
          cases m with
          | lparen =>
            refine moved_bind readScope_move fun _ _ => ?_
            exact moved_bind (readMark_move _) fun _ _ => rfl
          | _ => rfl
        | _ => rfl
    · simp [readAccess, hcrate, hpub, Token.move, leftMoved]
  | _ => rfl

/-- Reading an integer type. -/
theorem readType_move :
    readType (f stop) (ts.map (Token.move f)) = moved f (leftMoved f) (readType stop ts) := by
  refine moved_bind (readIdent_move _) fun a _ => ?_
  dsimp only
  split_ifs
  · exact fail_move _ _ _
  · cases IntType.ofName? a.1.1 with
    | none => exact fail_move _ _ _
    | some type => rfl

/-- Reading the wrapped type. -/
theorem readUnderlying_move :
    readUnderlying (f stop) (ts.map (Token.move f)) =
      moved f (leftMoved f) (readUnderlying stop ts) := by
  rcases ts with - | ⟨⟨lexeme, p⟩, ts⟩
  · rfl
  cases lexeme with
  | mark m =>
    cases m with
    | colon =>
      refine moved_bind readAccess_move fun _ _ => ?_
      exact moved_bind readType_move fun _ _ => rfl
    | _ => rfl
  | _ => rfl

/-- Cutting off an initializer. -/
theorem cutValue_move (depth : Int) :
    cutValue depth (ts.map (Token.move f)) =
      Prod.map (List.map (Token.move f)) (List.map (Token.move f)) (cutValue depth ts) := by
  induction ts generalizing depth with
  | nil => rfl
  | cons t left ih =>
    rw [List.map_cons, cutValue, cutValue]
    have hlexeme : (t.move f).lexeme = t.lexeme := rfl
    rw [hlexeme]
    split_ifs
    · rfl
    all_goals simp [ih]

/-- Reading the initializer of a variant. -/
theorem readValue_move (variant : String) :
    readValue variant (ts.map (Token.move f)) = moved f (leftMoved f) (readValue variant ts) := by
  rcases ts with - | ⟨⟨lexeme, p⟩, ts⟩
  · rfl
  cases lexeme with
  | mark m =>
    cases m with
    | eq =>
      simp only [List.map_cons, Token.move, readValue]
      rw [cutValue_move]
      exact moved_map (Initializer.ofTokens_move variant) fun _ => rfl
    | _ => rfl
  | _ => rfl

/-- Reading what stands behind a variant. -/
theorem readVariantEnd_move (variant : String) :
    readVariantEnd (f stop) variant (ts.map (Token.move f)) =
      moved f (leftMoved f) (readVariantEnd stop variant ts) := by
  rcases ts with - | ⟨⟨lexeme, p⟩, ts⟩
  · rfl
  cases lexeme with
  | mark m =>
    cases m with
    | comma => exact congrArg Except.ok readMetadata_move
    | _ => rfl
  | _ => rfl

/-- Reading a variant. -/
theorem readVariant_move :
    readVariant (f stop) (ts.map (Token.move f)) =
      moved f (fun a => (a.1.relabel (.ofPlaces f), a.2.map (Token.move f)))
        (readVariant stop ts) := by
  refine moved_bind (readIdent_move _) fun _ _ => ?_
  refine moved_bind (readValue_move _) fun _ _ => ?_
  exact moved_bind (readVariantEnd_move _) fun _ _ => rfl

/-! ## Enumerations and blocks -/

/-- The closing brace is next at any place. -/
theorem atBrace_move : atBrace (ts.map (Token.move f)) = atBrace ts := by
  rcases ts with - | ⟨⟨lexeme, p⟩, ts⟩
  · rfl
  · cases lexeme with
    | mark m => cases m <;> rfl
    | _ => rfl

/-- One round of reading variants. -/
theorem readVariants_eq (stop : Position) (ts : List Token) :
    readVariants stop ts =
      if atBrace ts then .ok ([], ts)
      else (do
        let (v, left) ← readVariant stop ts
        let (vs, left) ← readVariants stop left
        .ok (v :: vs, left)) := by
  rw [readVariants]
  split_ifs
  · rfl
  · split
    · next h => simp [h, bind, Except.bind]
    · next v left h =>
      dsimp only
      cases h' : readVariants stop left <;> simp [h, h', bind, Except.bind]

/-- Reading variants. -/
theorem readVariants_move :
    readVariants (f stop) (ts.map (Token.move f)) =
      moved f (fun a => (a.1.map (·.relabel (.ofPlaces f)), a.2.map (Token.move f)))
        (readVariants stop ts) := by
  fun_induction readVariants stop ts with
  | case1 ts hbrace =>
    rw [readVariants_eq, atBrace_move, if_pos hbrace]
    rfl
  | case2 ts hbrace e he =>
    rw [readVariants_eq, atBrace_move, if_neg hbrace, readVariant_move, he]
    rfl
  | case3 ts hbrace v left hv hlt e he ih =>
    rw [readVariants_eq, atBrace_move, if_neg hbrace, readVariant_move, hv]
    show (readVariants _ (left.map _) >>= _) = _
    rw [ih, he]
    rfl
  | case4 ts hbrace v left hv hlt vs rest hvs ih =>
    rw [readVariants_eq, atBrace_move, if_neg hbrace, readVariant_move, hv]
    show (readVariants _ (left.map _) >>= _) = _
    rw [ih, hvs]
    rfl

/-- Whether a list is mixed does not depend on places. -/
theorem isMixed_relabel (r : Relabeling) (vs : List VariantDecl) :
    isMixed (vs.map (·.relabel r)) = isMixed vs := by
  simp only [isMixed, List.any_map, List.all_map]
  rfl

/-- Reading the body of an enumeration. -/
theorem readBody_move (name : String) :
    readBody (f stop) name (ts.map (Token.move f)) =
      moved f (fun a => (a.1.map (·.relabel (.ofPlaces f)), a.2.map (Token.move f)))
        (readBody stop name ts) := by
  unfold readBody
  split
  · next text p left hts =>
    obtain ⟨⟨lexeme, q⟩, left, rfl, ht, rfl⟩ := List.map_eq_cons_iff.mp hts
    obtain ⟨rfl, rfl⟩ := Token.mk.inj ht
    rfl
  · next text p left hts =>
    obtain ⟨⟨lexeme, q⟩, left, rfl, ht, rfl⟩ := List.map_eq_cons_iff.mp hts
    obtain ⟨rfl, rfl⟩ := Token.mk.inj ht
    rfl
  · next hattr hdoc =>
    split
    · exact (hattr _ _ _ rfl).elim
    · exact (hdoc _ _ _ rfl).elim
    · refine moved_bind readVariants_move fun a _ => ?_
      simp only [List.isEmpty_map]
      split_ifs
      · exact fail_move _ _ _
      · rfl

/-- Reading an enumeration. -/
theorem readEnum_move (group : Option String) :
    readEnum (f stop) group (ts.map (Token.move f)) =
      moved f (fun a => (a.1.relabel (.ofPlaces f), a.2.map (Token.move f)))
        (readEnum stop group ts) := by
  unfold readEnum
  rw [readMetadata_move]
  refine moved_bind readAccess_move fun _ _ => ?_
  refine moved_bind (readKeyword_move _) fun _ _ => ?_
  refine moved_bind (readIdent_move _) fun _ _ => ?_
  refine moved_bind readUnderlying_move fun _ _ => ?_
  refine moved_bind (readMark_move _) fun _ _ => ?_
  refine moved_bind (readBody_move _) fun _ _ => ?_
  refine moved_bind (readMark_move _) fun _ _ => ?_
  simp only [isMixed_relabel]
  split_ifs
  · rfl
  · rfl

/-- One round of reading the members of a module. -/
theorem readMembers_cons (stop : Position) (name : String) (t : Token) (rest : List Token) :
    readMembers stop name (t :: rest) =
      if atBrace (t :: rest) then .ok ([], rest)
      else (do
        let (e, left) ← readEnum stop (some name) (t :: rest)
        let (es, left) ← readMembers stop name left
        .ok (e :: es, left)) := by
  rw [readMembers]
  split_ifs
  · rfl
  · split
    · next h => simp [h, bind, Except.bind]
    · next e left h =>
      dsimp only
      cases h' : readMembers stop name left <;> simp [h, h', bind, Except.bind]

/-- Reading the members of a module. -/
theorem readMembers_move (name : String) :
    readMembers (f stop) name (ts.map (Token.move f)) =
      moved f (fun a => (a.1.map (·.relabel (.ofPlaces f)), a.2.map (Token.move f)))
        (readMembers stop name ts) := by
  fun_induction readMembers stop name ts with
  | case1 =>
    rw [List.map_nil, readMembers]
    rfl
  | case2 t rest h =>
    rw [List.map_cons, readMembers_cons, ← List.map_cons, atBrace_move, if_pos h]
    rfl
  | case3 t rest h e he =>
    rw [List.map_cons, readMembers_cons, ← List.map_cons, atBrace_move, if_neg h, readEnum_move, he]
    rfl
  | case4 t rest h e left he hlt e' he' ih =>
    rw [List.map_cons, readMembers_cons, ← List.map_cons, atBrace_move, if_neg h, readEnum_move, he]
    show (readMembers _ name (left.map _) >>= _) = _
    rw [ih, he']
    rfl
  | case5 t rest h e left he hlt es rest' hes ih =>
    rw [List.map_cons, readMembers_cons, ← List.map_cons, atBrace_move, if_neg h, readEnum_move, he]
    show (readMembers _ name (left.map _) >>= _) = _
    rw [ih, hes]
    rfl

/-- One round of reading enumerations side by side. -/
theorem readSiblings_cons (stop : Position) (t : Token) (rest : List Token) :
    readSiblings stop (t :: rest) = (do
      let (e, left) ← readEnum stop none (t :: rest)
      if e.isFieldless then .error ⟨.shape .bareOrdinals, some e.position⟩
      else do
        let es ← readSiblings stop left
        .ok (e :: es)) := by
  rw [readSiblings]
  split
  · next h => simp [h, bind, Except.bind]
  · next e left h =>
    dsimp only
    cases h' : readSiblings stop left <;> simp [h, h', bind, Except.bind]

/-- Reading enumerations side by side. -/
theorem readSiblings_move :
    readSiblings (f stop) (ts.map (Token.move f)) =
      moved f (List.map (·.relabel (.ofPlaces f))) (readSiblings stop ts) := by
  fun_induction readSiblings stop ts with
  | case1 =>
    rw [List.map_nil, readSiblings]
    rfl
  | case2 t rest e he =>
    rw [List.map_cons, readSiblings_cons, ← List.map_cons, readEnum_move, he]
    rfl
  | case3 t rest e left he hlt h =>
    rw [List.map_cons, readSiblings_cons, ← List.map_cons, readEnum_move, he]
    show ite _ _ _ = _
    rw [EnumDecl.isFieldless_relabel, if_pos h]
    rfl
  | case4 t rest e left he hlt h e' he' ih =>
    rw [List.map_cons, readSiblings_cons, ← List.map_cons, readEnum_move, he]
    show ite _ _ _ = _
    rw [EnumDecl.isFieldless_relabel, if_neg h, ih, he']
    rfl
  | case5 t rest e left he hlt h es hes ih =>
    rw [List.map_cons, readSiblings_cons, ← List.map_cons, readEnum_move, he]
    show ite _ _ _ = _
    rw [EnumDecl.isFieldless_relabel, if_neg h, ih, hes]
    rfl

/-- Skipping a semicolon. -/
theorem skipSemicolon_move :
    skipSemicolon (ts.map (Token.move f)) = (skipSemicolon ts).map (Token.move f) := by
  rcases ts with - | ⟨⟨lexeme, p⟩, ts⟩
  · rfl
  · cases lexeme with
    | mark m => cases m <;> rfl
    | _ => rfl

/-- Reading a module. -/
theorem readModule_move (attributes : List String) (access : Access) :
    readModule (f stop) attributes access (ts.map (Token.move f)) =
      moved f (·.relabel (.ofPlaces f)) (readModule stop attributes access ts) := by
  refine moved_bind (readIdent_move _) fun _ _ => ?_
  refine moved_bind (readMark_move _) fun _ _ => ?_
  refine moved_bind (readMembers_move _) fun a _ => ?_
  simp only [List.isEmpty_map, skipSemicolon_move]
  split_ifs
  · rfl
  · cases h : skipSemicolon a.2 with
    | nil => rfl
    | cons t left => exact fail_move (t :: left) _ _

/-- **Declarations.** Reading commutes with a change of places. -/
theorem ofTokens_move (block : TokenList) :
    ofTokens (block.move f) = moved f (·.relabel (.ofPlaces f)) (ofTokens block) := by
  obtain ⟨ts, stop⟩ := block
  unfold ofTokens
  simp only [TokenList.move, List.isEmpty_map, readMetadata_move]
  split_ifs
  · rfl
  · refine moved_bind readAccess_move fun a _ => ?_
    dsimp only [leftMoved]
    split
    · next p left hmoved =>
      obtain ⟨⟨lexeme, q⟩, left, hleft, ht, rfl⟩ := List.map_eq_cons_iff.mp hmoved
      obtain ⟨rfl, rfl⟩ := Token.mk.inj ht
      rw [hleft]
      exact readModule_move _ _
    · next hmod =>
      split
      · next hleft =>
        rw [hleft] at hmod
        exact (hmod _ _ rfl).elim
      · exact moved_map readSiblings_move fun _ => rfl

end Declaration

end MaskEnum
