import MaskEnum.Formula
import MaskEnum.Proofs.Token.Identifier
set_option autoImplicit false

/-!
# Bare names of an expression

A generated expression is read from left to right. A bare name in it is a word that starts like a
name, outside of string literals, with no dot before it or behind: those belong to the arithmetic
that the expression calls. The text of a formula has the names of the formula as bare names.

## Main definitions

* `MaskEnum.Reading` — the state of reading an expression, with the bare names so far.
* `MaskEnum.bareNames` — the bare names of an expression, in order.

## Main results

* `MaskEnum.Formula.bareNames_text` — the bare names of a formula as generated code writes it.
-/

namespace MaskEnum

/-- What has been read of an expression: the bare names so far, the characters of the word at its
end, whether a dot stands before that word, and whether a string literal is open. -/
structure Reading where
  found : List String := []
  word : List Char := []
  behindDot : Bool := false
  quoted : Bool := false
  deriving DecidableEq

namespace Reading

/-- The bare name that the word at the end is, if it is one, with `next` behind it. -/
def ended (s : Reading) (next : Char) : List String :=
  match s.word with
  | [] => []
  | first :: _ =>
    if first.isDigit || s.behindDot || next == '.' then [] else [String.ofList s.word]

/-- Reads one more character. -/
def step (s : Reading) (c : Char) : Reading :=
  if s.quoted then { s with quoted := c != '\'' }
  else if c.isAlphanum || c == '_' then { s with word := s.word ++ [c] }
  else
    { found := s.found ++ s.ended c
      word := []
      behindDot := c == '.'
      quoted := c == '\'' }

end Reading

/-- The bare names of an expression, in order. A blank ends the last word. -/
def bareNames (text : String) : List String :=
  ((text.toList ++ [' ']).foldl Reading.step {}).found

namespace Reading

variable {found : List String} {word : List Char}

/-- What is found before stays, and has no influence on what is found after. -/
theorem foldl_step_found (found : List String) (s : Reading) (cs : List Char) :
    cs.foldl step { s with found := found ++ s.found } =
      { cs.foldl step s with found := found ++ (cs.foldl step s).found } := by
  induction cs generalizing s with
  | nil => rfl
  | cons c cs ih =>
    have hstep : step { s with found := found ++ s.found } c =
        { step s c with found := found ++ (step s c).found } := by
      unfold step
      split_ifs
      · rfl
      · rfl
      · simp only [List.append_assoc]
        rfl
    rw [List.foldl_cons, List.foldl_cons, hstep, ih]

/-- A part that ends outside of words and literals, and has no bare names, can be passed over. -/
theorem foldl_step_silent {cs : List Char} (h : cs.foldl step {} = {}) (more : List Char) :
    (cs ++ more).foldl step { found := found } = more.foldl step { found := found } := by
  have hfound := foldl_step_found found {} cs
  rw [h, List.append_nil] at hfound
  rw [List.foldl_append, hfound]

/-- The characters of a word are put together. -/
theorem foldl_step_word {w : List Char} (hw : ∀ c ∈ w, (c.isAlphanum || c == '_') = true) :
    w.foldl step { found := found, word := word } = { found := found, word := word ++ w } := by
  induction w generalizing word with
  | nil => rw [List.foldl_nil, List.append_nil]
  | cons c w ih =>
    obtain ⟨hc, hw⟩ := List.forall_mem_cons.mp hw
    rw [List.foldl_cons]
    have hstep : step { found := found, word := word } c =
        { found := found, word := word ++ [c] } := by
      rw [step, if_neg Bool.false_ne_true, if_pos hc]
    rw [hstep, ih hw, List.append_assoc, List.singleton_append]

/-- The characters that stand behind the parts of a formula. -/
def isDelimiter (c : Char) : Bool := c == ',' || c == ' '

/-- A delimiter ends a word. -/
theorem step_delimiter {c : Char} (hc : isDelimiter c = true) :
    step { found := found, word := word } c =
      { found := found ++ ended { word := word } ' ' } := by
  obtain rfl | rfl : c = ',' ∨ c = ' ' := by
    simpa [isDelimiter] using hc
  · cases word <;> rfl
  · rfl

end Reading

open Reading

/-- A natural number is no bare name. -/
theorem foldl_step_repr (n : Nat) {found : List String} {c : Char} (hc : isDelimiter c = true) :
    (n.repr.toList ++ [c]).foldl step { found := found } = { found := found } := by
  have hdigits : ∀ d ∈ n.repr.toList, d.isDigit = true := by
    intro d hd
    rw [Nat.repr, String.toList_ofList] at hd
    exact Nat.isDigit_of_mem_toDigits (by decide) (by decide) hd
  have hended : ended { word := n.repr.toList } ' ' = [] := by
    cases hrepr : n.repr.toList with
    | nil => rfl
    | cons d ds => simp [ended, hdigits d (hrepr ▸ List.mem_cons_self)]
  rw [List.foldl_append, foldl_step_word fun d hd => Lexer.isNamePart_of_isDigit (hdigits d hd),
    List.foldl_cons, List.foldl_nil, step_delimiter hc, List.nil_append, hended, List.append_nil]

/-- An integer is no bare name: its sign ends no word. -/
theorem foldl_step_toString (n : Int) {found : List String} {c : Char}
    (hc : isDelimiter c = true) :
    ((toString n).toList ++ [c]).foldl step { found := found } = { found := found } := by
  cases n with
  | ofNat m => exact foldl_step_repr m hc
  | negSucc m =>
    show (("-" ++ m.succ.repr).toList ++ [c]).foldl step { found := found } = _
    rw [String.toList_append, List.append_assoc, foldl_step_silent (by decide)]
    exact foldl_step_repr m.succ hc

/-- An identifier is a bare name. -/
theorem foldl_step_identifier {name : String} (h : Generated.isIdentifier name = true)
    {found : List String} {c : Char} (hc : isDelimiter c = true) :
    (name.toList ++ [c]).foldl step { found := found } = { found := found ++ [name] } := by
  unfold Generated.isIdentifier at h
  split at h
  · cases h
  · next first rest hname =>
    obtain ⟨hfirst, hrest⟩ := Bool.and_eq_true_iff.mp h
    have hword : ∀ d ∈ first :: rest, (d.isAlphanum || d == '_') = true :=
      List.forall_mem_cons.mpr
        ⟨Lexer.isNamePart_of_isNameStart hfirst, List.all_eq_true.mp hrest⟩
    have hended : ended { word := first :: rest } ' ' = [name] := by
      have hdigit : first.isDigit = false := Lexer.isDigit_of_isNameStart hfirst
      simp [ended, hdigit, ← hname]
    rw [List.foldl_append, hname, foldl_step_word hword, List.foldl_cons, List.foldl_nil,
      step_delimiter hc, List.nil_append, hended]

namespace Formula

/-- What stands before the operands of an operator. -/
theorem foldl_step_operator (op : Operator) :
    (arithmeticName ++ ".const_op(" ++ Text.quoted op.symbol ++ ", ").toList.foldl step {} =
      {} := by
  cases op <;> decide +kernel

/-- An integer type, between a blank and a comma or a closing bracket. -/
theorem foldl_step_type (t : IntType) :
    (' ' :: t.reference.toList ++ [',']).foldl step {} = {} ∧
      (' ' :: t.reference.toList ++ [')']).foldl step {} = {} := by
  cases t <;> decide +kernel

/-- A formula with a delimiter behind it is read to its end, and its names are found. -/
theorem foldl_step_text {f : Formula} (h : ∀ name ∈ f.names, Generated.isIdentifier name = true)
    {found : List String} {c : Char} (hc : isDelimiter c = true) :
    (f.text.toList ++ [c]).foldl step { found := found } = { found := found ++ f.names } := by
  have hlast : ∀ (found : List String) {c : Char}, isDelimiter c = true →
      [c].foldl step { found := found } = { found := found } := by
    intro found c hc
    rw [List.foldl_cons, List.foldl_nil, step_delimiter hc]
    simp [ended]
  induction f generalizing found c with
  | int n =>
    rw [names, List.append_nil]
    exact foldl_step_toString n hc
  | constant name => exact foldl_step_identifier (h name (List.mem_singleton_self name)) hc
  | apply op left right t ihleft ihright =>
    obtain ⟨hleft, hright⟩ := List.forall_mem_append.mp h
    have htext : (apply op left right t).text.toList ++ [c] =
        (arithmeticName ++ ".const_op(" ++ Text.quoted op.symbol ++ ", ").toList ++
          ((left.text.toList ++ [',']) ++ ([' '] ++ ((right.text.toList ++ [',']) ++
            ((' ' :: t.reference.toList ++ [')']) ++ [c])))) := by
      simp [text]
    rw [htext, foldl_step_silent (foldl_step_operator op), List.foldl_append,
      ihleft hleft rfl, foldl_step_silent rfl, List.foldl_append, ihright hright rfl,
      foldl_step_silent (foldl_step_type t).2, hlast _ hc, names, List.append_assoc]
  | cast inner source target ih =>
    have htext : (cast inner source target).text.toList ++ [c] =
        (arithmeticName ++ ".const_cast(").toList ++ ((inner.text.toList ++ [',']) ++
          ((' ' :: source.reference.toList ++ [',']) ++
            ((' ' :: target.reference.toList ++ [')']) ++ [c]))) := by
      simp [text]
    rw [htext, foldl_step_silent (by decide +kernel), List.foldl_append, ih h rfl,
      foldl_step_silent (foldl_step_type source).1,
      foldl_step_silent (foldl_step_type target).2, hlast _ hc, names]

/-- **Bare names.** The bare names of a formula, as generated code writes it, are its names. -/
theorem bareNames_text {f : Formula} (h : ∀ name ∈ f.names, Generated.isIdentifier name = true) :
    bareNames f.text = f.names := by
  rw [bareNames, foldl_step_text h rfl, List.nil_append]

end Formula

end MaskEnum
