import MaskEnum.Proofs.Outline.Scalars
set_option autoImplicit false

/-!
# Outlines are told

The first character of a text tells which kind of outline it was written for. So a format tells all
outlines if it tells its scalars, and its lists and records whenever it tells what they consist of.

## Main definitions

* `MaskEnum.Outline.kind`, `MaskEnum.Outline.kindAt` — the kind of an outline, and of the outline
  that a text was written for.

## Main results

* `MaskEnum.Outline.induct` — induction over items and fields.
* `MaskEnum.Outline.tells_of_parts` — a format tells all outlines.
-/

namespace MaskEnum.Outline

open Text

/-- **Induction.** What holds of a list if it holds of all items, of a record if it holds of all
fields, and of all scalars, holds of every outline. -/
theorem induct {P : Outline → Prop} (hnull : P null) (hflag : ∀ value, P (flag value))
    (hinteger : ∀ value, P (integer value)) (htext : ∀ value, P (text value))
    (hlist : ∀ items, (∀ o ∈ items, P o) → P (list items))
    (hrecord : ∀ fields : List (String × Outline), (∀ e ∈ fields, P e.2) → P (record fields))
    (o : Outline) : P o := by
  refine @Outline.rec P (fun items => ∀ o ∈ items, P o) (fun fields => ∀ e ∈ fields, P e.2)
    (fun e => P e.2) hnull hflag hinteger htext hlist hrecord ?_ ?_ ?_ ?_ ?_ o
  · exact fun o ho => absurd ho List.not_mem_nil
  · exact fun o items ho hitems => List.forall_mem_cons.mpr ⟨ho, hitems⟩
  · exact fun e he => absurd he List.not_mem_nil
  · exact fun e fields he hfields => List.forall_mem_cons.mpr ⟨he, hfields⟩
  · exact fun _ _ ho => ho

/-! ## Kinds -/

/-- The kinds of outlines. -/
inductive Kind where
  | null | flag | integer | text | list | record
  deriving DecidableEq

/-- The kind of an outline. -/
def kind : Outline → Kind
  | null => .null
  | flag _ => .flag
  | integer _ => .integer
  | text _ => .text
  | list _ => .list
  | record _ => .record

/-- The kind of outline that a text was written for, by its first character. Nothing may have been
written for a missing value. -/
def kindAt : List Char → Kind
  | [] => .null
  | c :: _ =>
    if c = '-' ∨ c.isDigit = true then .integer
    else match c with
      | 't' | 'f' => .flag
      | '"' => .text
      | '[' => .list
      | '\x7b' => .record
      | _ => .null

/-- Flags start with a letter. -/
theorem kindAt_flagChars (value : Bool) (r : List Char) :
    kindAt (flagChars value ++ r) = .flag := by
  cases value <;> rfl

/-- Integers start with a digit or a minus sign. -/
theorem kindAt_integerChars (n : Int) (r : List Char) :
    kindAt (integerChars n ++ r) = .integer := by
  cases h : integerChars n with
  | nil =>
    cases n with
    | ofNat m => exact absurd (integerChars_ofNat m ▸ h) Nat.toDigits_ne_nil
    | negSucc m =>
      rw [integerChars_negSucc] at h
      cases h
  | cons c cs =>
    have hc : c = '-' ∨ c.isDigit = true := of_mem_integerChars (h ▸ List.mem_cons_self)
    rw [List.cons_append]
    exact if_pos hc

/-! ## Formats -/

section Formats

variable {write : Nat → Outline → List Char}

/-- **Formats.** A format tells all outlines, if its texts start with a character of their kind, it
tells the scalars, and it tells the lists and records whose items and values it tells. -/
theorem tells_of_parts
    (hkindAt : ∀ depth o r, Stops r → kindAt (write depth o ++ r) = o.kind)
    (hflag : ∀ depth value, Tells (fun _ => True) (fun b => write depth (flag b)) id value)
    (hinteger : ∀ depth value, Tells Stops (fun n => write depth (integer n)) id value)
    (htext : ∀ depth value, Tells (fun _ => True) (fun s => write depth (text s)) id value)
    (hlist : ∀ depth items, (∀ o ∈ items, ∀ depth, Tells Stops (write depth) id o) →
      ∀ {items' r r'}, write depth (list items) ++ r = write depth (list items') ++ r' →
        items = items' ∧ r = r')
    (hrecord : ∀ depth fields, (∀ e ∈ fields, ∀ depth, Tells Stops (write depth) id e.2) →
      ∀ {fields' r r'}, write depth (record fields) ++ r = write depth (record fields') ++ r' →
        fields = fields' ∧ r = r')
    (o : Outline) (depth : Nat) : Tells Stops (write depth) id o := by
  have hkind : ∀ {o o' : Outline} {depth : Nat} {r r' : List Char}, Stops r → Stops r' →
      write depth o ++ r = write depth o' ++ r' → o.kind = o'.kind := by
    intro o o' depth r r' hr hr' h
    rw [← hkindAt depth o r hr, h, hkindAt depth o' r' hr']
  induction o using induct generalizing depth with
  | hnull =>
    intro o' r r' hr hr' h
    cases o' <;> cases hkind hr hr' h
    exact ⟨rfl, List.append_cancel_left h⟩
  | hflag value =>
    intro o' r r' hr hr' h
    cases o' <;> cases hkind hr hr' h
    obtain ⟨rfl, hrest⟩ := hflag depth value _ r r' trivial trivial h
    exact ⟨rfl, hrest⟩
  | hinteger value =>
    intro o' r r' hr hr' h
    cases o' <;> cases hkind hr hr' h
    obtain ⟨rfl, hrest⟩ := hinteger depth value _ r r' hr hr' h
    exact ⟨rfl, hrest⟩
  | htext value =>
    intro o' r r' hr hr' h
    cases o' <;> cases hkind hr hr' h
    obtain ⟨rfl, hrest⟩ := htext depth value _ r r' trivial trivial h
    exact ⟨rfl, hrest⟩
  | hlist items ih =>
    intro o' r r' hr hr' h
    cases o' <;> cases hkind hr hr' h
    obtain ⟨rfl, hrest⟩ := hlist depth items ih h
    exact ⟨rfl, hrest⟩
  | hrecord fields ih =>
    intro o' r r' hr hr' h
    cases o' <;> cases hkind hr hr' h
    obtain ⟨rfl, hrest⟩ := hrecord depth fields ih h
    exact ⟨rfl, hrest⟩

end Formats

end MaskEnum.Outline
