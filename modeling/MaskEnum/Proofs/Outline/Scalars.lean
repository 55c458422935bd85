import MaskEnum.Outline.Json
import MaskEnum.Outline.Toml
import MaskEnum.Proofs.Text.Quoted
import MaskEnum.Proofs.Text.Telling
set_option autoImplicit false

/-!
# Scalars are told

The texts of flags, integers and strings, and the keys of a table, tell what they are written for.
A string ends at the first quote that no backslash escapes, and each character of it is read back
from one character or one escape. An integer ends where no digit follows.

## Main definitions

* `MaskEnum.Outline.unescape` — reads one character of a string.
* `MaskEnum.Outline.Stops` — what may stand behind a value.

## Main results

* `MaskEnum.Outline.jsonString_tells`, `MaskEnum.Outline.tomlString_tells` — strings.
* `MaskEnum.Outline.integerChars_tells`, `MaskEnum.Outline.flagChars_tells` — integers and flags.
* `MaskEnum.Outline.tomlKey_tells` — keys.
-/

namespace MaskEnum.Outline

open Text

/-! ## Strings -/

/-- The first character that an escaped text stands for, and the rest of the text. -/
def unescape : List Char → Option (Char × List Char)
  | '\\' :: 'n' :: rest => some ('\n', rest)
  | '\\' :: 'r' :: rest => some ('\r', rest)
  | '\\' :: 't' :: rest => some ('\t', rest)
  | '\\' :: 'b' :: rest => some (Char.ofNat 8, rest)
  | '\\' :: 'f' :: rest => some (Char.ofNat 12, rest)
  | '\\' :: 'u' :: rest => (readHex 4 rest).map fun n => (Char.ofNat n, rest.drop 4)
  | '\\' :: c :: rest => some (c, rest)
  | c :: rest => some (c, rest)
  | [] => none

/-- Four digits are read back. -/
theorem unescape_hexDigits {c : Char} (hc : c.toNat < 128) (rest : List Char) :
    unescape ('\\' :: 'u' :: hexDigits 4 c.toNat ++ rest) = some (c, rest) := by
  have hsmall : c.toNat < 16 ^ 4 := hc.trans (by decide)
  rw [List.cons_append, List.cons_append, unescape, readHex_hexDigits hsmall,
    List.drop_left' (length_hexDigits 4 c.toNat), Option.map_some, Char.ofNat_toNat]

/-- A character that stands for itself is read back. -/
theorem unescape_cons {c : Char} (hc : c ≠ '\\') (rest : List Char) :
    unescape (c :: rest) = some (c, rest) := by
  unfold unescape
  split <;> simp_all

/-- Every character of a JSON string is read back. -/
theorem unescape_jsonEscape (c : Char) (rest : List Char) :
    unescape (jsonEscape c ++ rest) = some (c, rest) := by
  unfold jsonEscape
  split_ifs with hself hn hr ht hb hf hcontrol
  · rcases hself with rfl | rfl <;> rfl
  · rw [hn]
    rfl
  · rw [hr]
    rfl
  · rw [ht]
    rfl
  · rw [← Char.ofNat_toNat c, hb]
    rfl
  · rw [← Char.ofNat_toNat c, hf]
    rfl
  · exact unescape_hexDigits (hcontrol.trans (by decide)) rest
  · exact unescape_cons (fun h => hself (.inr h)) rest

/-- Every character of a TOML string is read back. -/
theorem unescape_tomlEscape (c : Char) (rest : List Char) :
    unescape (tomlEscape c ++ rest) = some (c, rest) := by
  unfold tomlEscape
  split_ifs with hself hn hr hb hf hcontrol
  · rcases hself with rfl | rfl <;> rfl
  · rw [hn]
    rfl
  · rw [hr]
    rfl
  · rw [← Char.ofNat_toNat c, hb]
    rfl
  · rw [← Char.ofNat_toNat c, hf]
    rfl
  · refine unescape_hexDigits ?_ rest
    rcases hcontrol with ⟨-, h⟩ | h <;> omega
  · exact unescape_cons (fun h => hself (.inr h)) rest

/-- No character of a JSON string is written like the quote at its end. -/
theorem jsonEscape_append_ne (c : Char) (rest r : List Char) : '"' :: r ≠ jsonEscape c ++ rest := by
  unfold jsonEscape
  split_ifs with hself
  any_goals simp
  rintro rfl
  exact absurd (.inl rfl) hself

/-- No character of a TOML string is written like the quote at its end. -/
theorem tomlEscape_append_ne (c : Char) (rest r : List Char) : '"' :: r ≠ tomlEscape c ++ rest := by
  unfold tomlEscape
  split_ifs with hself
  any_goals simp
  rintro rfl
  exact absurd (.inl rfl) hself

/-- **Strings.** A text between quotes is told if its characters are read back, and none of them is
written like the quote at the end. -/
theorem tells_of_unescape {escape : Char → List Char}
    (hread : ∀ c rest, unescape (escape c ++ rest) = some (c, rest))
    (hquote : ∀ c rest r, '"' :: r ≠ escape c ++ rest) (s : String) :
    Tells (fun _ => True) (fun s : String => '"' :: s.toList.flatMap escape ++ ['"']) id s := by
  intro t r r' _ _ h
  dsimp only at h
  rw [List.cons_append, List.cons_append, List.cons_append, List.cons_append, List.append_assoc,
    List.append_assoc] at h
  have hchars : ∀ c ∈ s.toList, Tells (fun _ => True) escape id c := by
    intro c _ d r r' _ _ heq
    have hpair := congrArg unescape heq
    rw [hread, hread] at hpair
    exact Prod.mk.inj (Option.some.inj hpair)
  obtain ⟨hs, hrest⟩ := eq_of_flatMap hchars (fun _ _ => trivial) trivial trivial
    (fun c rest => hquote c rest _) (fun c rest => hquote c rest _) (List.cons.inj h).2
  exact ⟨String.toList_inj.mp hs, (List.cons.inj hrest).2⟩

/-- Strings of JSON texts. -/
theorem jsonString_tells (s : String) : Tells (fun _ => True) jsonString id s :=
  tells_of_unescape unescape_jsonEscape jsonEscape_append_ne s

/-- Strings of TOML texts. -/
theorem tomlString_tells (s : String) : Tells (fun _ => True) tomlString id s :=
  tells_of_unescape unescape_tomlEscape tomlEscape_append_ne s

/-! ## Integers and flags -/

/-- What may stand behind a value. -/
def Stops (r : List Char) : Prop := ∀ c ∈ r.head?, c = ',' ∨ c = '\n' ∨ c = ' '

/-- A natural number is written by its digits. -/
theorem integerChars_ofNat (m : Nat) : integerChars (.ofNat m) = Nat.toDigits 10 m :=
  String.toList_ofList

/-- A negative number is written by the digits of its absolute value behind a minus sign. -/
theorem integerChars_negSucc (m : Nat) :
    integerChars (.negSucc m) = '-' :: Nat.toDigits 10 (m + 1) := by
  show ("-" ++ (m + 1).repr).toList = _
  rw [String.toList_append, Nat.toList_repr]
  rfl

/-- An integer consists of digits, and a minus sign. -/
theorem of_mem_integerChars {n : Int} {c : Char} (h : c ∈ integerChars n) :
    c = '-' ∨ c.isDigit = true := by
  have hdigit : ∀ m : Nat, c ∈ Nat.toDigits 10 m → c.isDigit = true := fun m hm =>
    Nat.isDigit_of_mem_toDigits (by decide) (by decide) hm
  cases n with
  | ofNat m =>
    rw [integerChars_ofNat] at h
    exact .inr (hdigit m h)
  | negSucc m =>
    rw [integerChars_negSucc, List.mem_cons] at h
    exact h.imp_right (hdigit _)

/-- Different integers are written differently. -/
theorem integerChars_inj {n m : Int} (h : integerChars n = integerChars m) : n = m := by
  have hdigits : ∀ {a b : Nat}, Nat.toDigits 10 a = Nat.toDigits 10 b → a = b := by
    intro a b hab
    rw [← @Nat.ofDigitChars_ten_toDigits a, hab, Nat.ofDigitChars_ten_toDigits]
  have hsign : ∀ {a : Nat} {cs : List Char}, Nat.toDigits 10 a ≠ '-' :: cs := by
    intro a cs hab
    have hmem : '-' ∈ Nat.toDigits 10 a := hab ▸ List.mem_cons_self
    cases Nat.isDigit_of_mem_toDigits (by decide) (by decide) hmem
  cases n <;> cases m <;> simp only [integerChars_ofNat, integerChars_negSucc] at h
  · rw [hdigits h]
  · exact absurd h hsign
  · exact absurd h.symm hsign
  · rw [Nat.succ_injective (hdigits (List.cons.inj h).2)]

/-- **Integers.** -/
theorem integerChars_tells (n : Int) : Tells Stops integerChars id n := by
  intro m r r' hr hr' h
  have hchars : ∀ n, ∀ c ∈ integerChars n, (c == '-' || c.isDigit) = true := by
    intro n c hc
    rcases of_mem_integerChars hc with rfl | hdigit
    · rfl
    · rw [hdigit, Bool.or_true]
  have hstop : ∀ r, Stops r → ∀ c ∈ r.head?, (c == '-' || c.isDigit) = false := by
    intro r hr c hc
    rcases hr c hc with rfl | rfl | rfl <;> rfl
  obtain ⟨heq, hrest⟩ := eq_of_append_eq (hchars n) (hchars m) (hstop r hr) (hstop r' hr') h
  exact ⟨integerChars_inj heq, hrest⟩

/-- **Flags.** -/
theorem flagChars_tells (value : Bool) : Tells (fun _ => True) flagChars id value := by
  intro value' r r' _ _ h
  cases value <;> cases value' <;> simp_all [flagChars]

/-! ## Keys -/

/-- **Keys.** A space behind a key ends it, if it stands there as it is. -/
theorem tomlKey_tells (name : String) :
    Tells (fun r => r.head? = some ' ') tomlKey id name := by
  intro name' r r' hr hr' h
  have hends : ∀ {r : List Char}, r.head? = some ' ' → ∀ c ∈ r.head?,
      (c.isAlphanum || c == '-' || c == '_') = false := by
    intro r hr c hc
    obtain rfl := Option.some.inj (hr.symm.trans hc)
    rfl
  have hquote : ∀ {s t : String} {r r' : List Char}, (! s.isEmpty && s.toList.all fun c =>
      c.isAlphanum || c == '-' || c == '_') = true → s.toList ++ r ≠ tomlString t ++ r' := by
    intro s t r r' hs heq
    rw [Bool.and_eq_true, List.all_eq_true] at hs
    cases hchars : s.toList with
    | nil => simp [String.toList_eq_nil_iff.mp hchars] at hs
    | cons c cs =>
      rw [hchars] at hs heq
      obtain ⟨rfl, -⟩ := List.cons.inj heq
      cases hs.2 _ List.mem_cons_self
  unfold tomlKey at h
  split_ifs at h with hplain hplain' hplain'
  · rw [Bool.and_eq_true, List.all_eq_true] at hplain hplain'
    obtain ⟨heq, hrest⟩ := eq_of_append_eq hplain.2 hplain'.2 (hends hr) (hends hr') h
    exact ⟨String.toList_inj.mp heq, hrest⟩
  · exact absurd h (hquote hplain)
  · exact absurd h.symm (hquote hplain')
  · exact tomlString_tells name name' r r' trivial trivial h

end MaskEnum.Outline
