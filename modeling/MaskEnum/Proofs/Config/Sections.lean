import Mathlib.Data.Set.List
import MaskEnum.Config
import MaskEnum.Proofs.Lists
import MaskEnum.Proofs.Result
set_option autoImplicit false

/-!
# What configurations documents hold

A document without a section holds the configuration that says nothing. A section that is a table
holds a configuration if all its keys are known and each value is of the kind that its key asks for;
otherwise a fault names a key that is wrong. What is no table where a table should stand is refused
or, as long as nobody asks whether it is one, met by a fault that is not reported.

## Main definitions

* `MaskEnum.Toml.Fields.Gives` — what a field with a default gives.
* `MaskEnum.Config.Written` — the configuration that a section writes.
* `MaskEnum.Config.Wrong` — what is wrong with a section.
* `MaskEnum.Config.Holds`, `MaskEnum.Config.Refuses`, `MaskEnum.Config.Escapes` — the configuration
  of a document, and the faults of one that are reported and that are not.

## Main results

* `MaskEnum.Config.ofSection_eq_ok`, `MaskEnum.Config.wrong_of_ofSection` — sections.
* `MaskEnum.Config.sectioned` — sections of documents.
* `MaskEnum.Config.ofFields_outcome` — documents.
-/

namespace MaskEnum

/-! ## Toml.Fields -/

namespace Toml

/-- A list of texts as a value. -/
def Value.ofTexts (texts : List String) : Value := .array (texts.map .text)

/-- A table of integers as a value. -/
def Value.ofIntegers (entries : List (String × Int)) : Value :=
  .table (entries.map fun (name, n) => (name, .integer n))

/-- A field gives a default if there is none. Otherwise its value has to be of a kind, which is
written by `write`, and it gives what `read` makes of it. -/
inductive Fields.Gives {α β : Type} (fields : Fields) (key : String) (write : α → Value)
    (read : α → β) (missing : β) : β → Prop
  | absent (h : fields.get? key = none) : fields.Gives key write read missing missing
  | present (a : α) (h : fields.get? key = some (write a)) :
    fields.Gives key write read missing (read a)

/-- The text of a value. -/
theorem Value.text?_eq_some {v : Value} {s : String} : v.text? = some s ↔ v = .text s := by
  cases v <;> simp [Value.text?]

/-- The items of an array are texts exactly if it is a list of texts. -/
theorem mapM_text?_eq_some {items : List Value} {texts : List String} :
    items.mapM Value.text? = some texts ↔ items = texts.map .text := by
  simp only [mapM_eq_some, Value.text?_eq_some]
  rw [← List.forall₂_eq_eq_eq, List.forall₂_map_right_iff]

/-- The texts of a value. -/
theorem Value.texts?_eq_some {v : Value} {texts : List String} :
    v.texts? = some texts ↔ v = .ofTexts texts := by
  cases v with
  | array items => simpa [Value.texts?, Value.ofTexts] using mapM_text?_eq_some
  | text | integer | float | boolean | moment | table => simp [Value.texts?, Value.ofTexts]

end Toml

namespace Config

variable {root : Path} {fields : Toml.Fields} {key : String}

/-- A reader of a field with a default reads what the field gives if it accepts exactly the values
of the kind that is written by `write`. -/
theorem eq_ok_iff_gives {α β : Type} {write : α → Toml.Value} {read : α → β} {missing b : β}
    {reader : Except ConfigFault β} (habsent : fields.get? key = none → reader = .ok missing)
    (hpresent : ∀ v, fields.get? key = some v →
      ∀ b, reader = .ok b ↔ ∃ a, v = write a ∧ read a = b) :
    reader = .ok b ↔ fields.Gives key write read missing b := by
  constructor
  · intro h
    cases hkey : fields.get? key with
    | none =>
      obtain rfl := Except.ok.inj ((habsent hkey).symm.trans h)
      exact .absent hkey
    | some v =>
      obtain ⟨a, rfl, rfl⟩ := (hpresent v hkey b).mp h
      exact .present a hkey
  · rintro (hkey | ⟨a, hkey⟩)
    · exact habsent hkey
    · exact (hpresent _ hkey _).mpr ⟨a, rfl, rfl⟩

/-- A field with texts. -/
theorem textsField_eq_ok {texts : List String} :
    textsField fields key = .ok texts ↔ fields.Gives key Toml.Value.ofTexts id [] texts := by
  refine eq_ok_iff_gives (fun hkey => ?_) fun v hkey texts => ?_
  · rw [textsField, hkey]
  · simp only [textsField, hkey, ← Toml.Value.texts?_eq_some]
    cases v.texts? <;> simp

/-- A field without texts is refused by its key. -/
theorem textsField_eq_error {f : ConfigFault} (h : textsField fields key = .error f) :
    f = .expectedTexts key ∧ ∃ v, fields.get? key = some v ∧ ∀ texts, v ≠ .ofTexts texts := by
  unfold textsField at h
  split at h
  · cases h
  · next v hkey =>
    split at h
    · cases h
    · next hnone =>
      refine ⟨(Except.error.inj h).symm, v, hkey, fun texts hv => ?_⟩
      rw [Toml.Value.texts?_eq_some.mpr hv] at hnone
      cases hnone

/-- A field with a path, which is seen from the root directory. -/
theorem pathField_eq_ok {path : Option Path} :
    pathField root fields key = .ok path ↔
      fields.Gives key Toml.Value.text (fun s => some (root.join (.ofText s))) none path := by
  refine eq_ok_iff_gives (fun hkey => ?_) fun v hkey path => ?_
  · rw [pathField, hkey]
  · rw [pathField, hkey]
    cases v <;> simp [pathOf, Except.map]

/-- A field without a path is refused by its key. -/
theorem pathField_eq_error {f : ConfigFault} (h : pathField root fields key = .error f) :
    f = .expectedPath key ∧ ∃ v, fields.get? key = some v ∧ ∀ s, v ≠ .text s := by
  unfold pathField at h
  split at h
  · cases h
  · next v hkey =>
    cases v with
    | text s => cases h
    | integer | float | boolean | moment | array | table =>
      exact ⟨(Except.error.inj h).symm, _, hkey, fun _ => nofun⟩

/-- A field with a truth value. -/
theorem flagField_eq_ok {b : Bool} :
    flagField fields key = .ok b ↔ fields.Gives key Toml.Value.boolean id false b := by
  refine eq_ok_iff_gives (fun hkey => ?_) fun v hkey b => ?_
  · rw [flagField, hkey]
  · rw [flagField, hkey]
    cases v <;> simp

/-- A field without a truth value is refused by its key. -/
theorem flagField_eq_error {f : ConfigFault} (h : flagField fields key = .error f) :
    f = .expectedBoolean key ∧ ∃ v, fields.get? key = some v ∧ ∀ b, v ≠ .boolean b := by
  unfold flagField at h
  split at h
  · cases h
  · cases h
  · next v hno hkey =>
    exact ⟨(Except.error.inj h).symm, v, hkey, fun b hb => hno b hb⟩

/-- The constants of a table of integers. -/
theorem constants_eq_ok {inner : Toml.Fields} {entries : List (String × Int)} :
    constants inner = .ok entries ↔ inner = entries.map fun (name, n) => (name, .integer n) := by
  induction inner generalizing entries with
  | nil => cases entries <;> simp [constants]
  | cons field inner ih =>
    obtain ⟨name, v⟩ := field
    cases v with
    | integer n =>
      rw [constants, bind_eq_ok]
      simp only [ih, Except.ok.injEq]
      constructor
      · rintro ⟨rest, rfl, rfl⟩
        rfl
      · intro h
        cases entries with
        | nil => cases h
        | cons entry entries =>
          obtain ⟨⟨rfl, hn⟩, hrest⟩ := by simpa only [List.map_cons, List.cons.injEq,
            Prod.mk.injEq, Toml.Value.integer.injEq] using h
          exact ⟨entries, hrest, by rw [hn]⟩
    | text | float | boolean | moment | array | table => cases entries <;> simp [constants]

/-- Any other table is refused by the name of a value that is no integer. -/
theorem constants_eq_error {inner : Toml.Fields} {f : ConfigFault}
    (h : constants inner = .error f) :
    ∃ name, f = .expectedInteger name ∧ ∃ v, (name, v) ∈ inner ∧ ∀ n, v ≠ .integer n := by
  induction inner with
  | nil => cases h
  | cons field inner ih =>
    obtain ⟨name, v⟩ := field
    cases v with
    | integer n =>
      rw [constants, bind_eq_error] at h
      rcases h with h | ⟨rest, -, h⟩
      · obtain ⟨name', hf, v', hmem, hv⟩ := ih h
        exact ⟨name', hf, v', List.mem_cons_of_mem _ hmem, hv⟩
      · cases h
    | text | float | boolean | moment | array | table =>
      exact ⟨name, (Except.error.inj h).symm, _, List.mem_cons_self, fun _ => nofun⟩

/-- The field with the constants. -/
theorem constantsField_eq_ok {t : Table String Int} :
    constantsField fields = .ok t ↔
      fields.Gives "externals" Toml.Value.ofIntegers Table.ofList .empty t := by
  refine eq_ok_iff_gives (fun hkey => ?_) fun v hkey t => ?_
  · rw [constantsField, hkey]
  · rw [constantsField, hkey]
    cases v with
    | table inner =>
      simp only [Toml.Value.ofIntegers, Toml.Value.table.injEq, ← constants_eq_ok]
      cases constants inner <;> simp [Except.map]
    | text | integer | float | boolean | moment | array => simp [Toml.Value.ofIntegers]

/-- A field without constants is refused as a whole, or by the name of a constant. -/
theorem constantsField_eq_error {f : ConfigFault} (h : constantsField fields = .error f) :
    (f = .expectedTable ∧ ∃ v, fields.get? "externals" = some v ∧ ∀ inner, v ≠ .table inner) ∨
      ∃ inner, fields.get? "externals" = some (.table inner) ∧
        ∃ name, f = .expectedInteger name ∧ ∃ v, (name, v) ∈ inner ∧ ∀ n, v ≠ .integer n := by
  unfold constantsField at h
  split at h
  · cases h
  · next inner hkey => exact .inr ⟨inner, hkey, constants_eq_error (map_eq_error.mp h)⟩
  · next v hno hkey =>
    exact .inl ⟨(Except.error.inj h).symm, v, hkey, fun inner hinner => hno inner hinner⟩

/-! ## Keys -/

/-- Some keys are unknown: these, sorted and each once. -/
structure Unknown (keys unknown : List String) : Prop where
  ne_nil : unknown ≠ []
  sorted : unknown.Pairwise (· < ·)
  mem_iff : ∀ key, key ∈ unknown ↔ key ∈ keys ∧ key ∉ knownKeys

/-- Keys pass if all are known. -/
theorem checkKeys_eq_ok {keys : List String} :
    checkKeys keys = .ok () ↔ ∀ key ∈ keys, key ∈ knownKeys := by
  have hnil : (keys.filter (! knownKeys.contains ·)) = [] ↔ ∀ key ∈ keys, key ∈ knownKeys := by
    simp
  rw [← hnil, checkKeys]
  split
  · next h => exact iff_of_true rfl h
  · next h => exact iff_of_false nofun h

/-- Otherwise the unknown ones are named. -/
theorem checkKeys_eq_error {keys : List String} {f : ConfigFault} (h : checkKeys keys = .error f) :
    ∃ unknown, f = .unknownKeys unknown ∧ Unknown keys unknown := by
  unfold checkKeys at h
  split at h
  · cases h
  · next hfound =>
    have hmem : ∀ key, key ∈ ((keys.filter (! knownKeys.contains ·)).eraseDups.mergeSort
        fun a b => decide (a ≤ b)) ↔ key ∈ keys ∧ key ∉ knownKeys := fun key => by simp
    refine ⟨_, (Except.error.inj h).symm, fun hnil => ?_, pairwise_mergeSort_eraseDups _, hmem⟩
    obtain ⟨key, hkey⟩ := List.exists_mem_of_ne_nil _ hfound
    have hunknown := (hmem key).mpr (by simpa using hkey)
    rw [hnil] at hunknown
    cases hunknown

/-! ## Sections -/

/-- What a section writes: its keys are known, and each field gives its part of the configuration.
Paths are seen from the root directory. -/
structure Written (root : Path) (fields : Toml.Fields) (c : Config) : Prop where
  keys : ∀ field ∈ fields, field.1 ∈ knownKeys
  sources : ∃ texts, fields.Gives "sources" Toml.Value.ofTexts id [] texts ∧
    c.sources = texts.map fun s => root.join (.ofText s)
  outputDirectory : fields.Gives "output_dir" Toml.Value.text
    (fun s => some (root.join (.ofText s))) none c.outputDirectory
  externals : fields.Gives "externals" Toml.Value.ofIntegers Table.ofList .empty c.externals
  externalsFile : fields.Gives "externals_file" Toml.Value.text
    (fun s => some (root.join (.ofText s))) none c.externalsFile
  strict : fields.Gives "strict_externals" Toml.Value.boolean id false c.strict
  preamble : fields.Gives "preamble" Toml.Value.ofTexts id [] c.preamble
  root : c.root = some root

/-- **Sections.** A section is read as what it writes. -/
theorem ofSection_eq_ok {c : Config} : ofSection root fields = .ok c ↔ Written root fields c := by
  have hkeys : checkKeys (fields.map Prod.fst) = .ok () ↔ ∀ field ∈ fields, field.1 ∈ knownKeys :=
    checkKeys_eq_ok.trans List.forall_mem_map
  simp only [ofSection, bind_eq_ok, textsField_eq_ok, pathField_eq_ok, flagField_eq_ok,
    constantsField_eq_ok, Except.ok.injEq]
  constructor
  · rintro ⟨⟨⟩, hknown, texts, htexts, directory, hdirectory, file, hfile, strict, hstrict,
      externals, hexternals, preamble, hpreamble, rfl⟩
    exact ⟨hkeys.mp hknown, ⟨texts, htexts, rfl⟩, hdirectory, hexternals, hfile, hstrict, hpreamble,
      rfl⟩
  · intro h
    obtain ⟨texts, htexts, hsources⟩ := h.sources
    refine ⟨(), hkeys.mpr h.keys, texts, htexts, _, h.outputDirectory, _, h.externalsFile, _,
      h.strict, _, h.externals, _, h.preamble, ?_⟩
    rw [← hsources, ← h.root]

/-- What is wrong with a section; the fault names the keys or the field, or the constant in it. -/
inductive Wrong (fields : Toml.Fields) : ConfigFault → Prop
  | keys {unknown : List String} (h : Unknown (fields.map Prod.fst) unknown) :
    Wrong fields (.unknownKeys unknown)
  | texts {key : String} {v : Toml.Value} (hkey : key = "sources" ∨ key = "preamble")
    (h : fields.get? key = some v) (hv : ∀ texts, v ≠ .ofTexts texts) :
    Wrong fields (.expectedTexts key)
  | path {key : String} {v : Toml.Value} (hkey : key = "output_dir" ∨ key = "externals_file")
    (h : fields.get? key = some v) (hv : ∀ s, v ≠ .text s) : Wrong fields (.expectedPath key)
  | flag {v : Toml.Value} (h : fields.get? "strict_externals" = some v) (hv : ∀ b, v ≠ .boolean b) :
    Wrong fields (.expectedBoolean "strict_externals")
  | table {v : Toml.Value} (h : fields.get? "externals" = some v) (hv : ∀ inner, v ≠ .table inner) :
    Wrong fields .expectedTable
  | constant {inner : Toml.Fields} {name : String} {v : Toml.Value}
    (h : fields.get? "externals" = some (.table inner)) (hmem : (name, v) ∈ inner)
    (hv : ∀ n, v ≠ .integer n) : Wrong fields (.expectedInteger name)

/-- What is wrong with a section is reported. -/
theorem Wrong.isReported {f : ConfigFault} (h : Wrong fields f) : f.isReported = true := by
  cases h <;> rfl

/-- **Faults of sections.** A section that cannot be read is refused for something that is wrong
with it. -/
theorem wrong_of_ofSection {f : ConfigFault} (h : ofSection root fields = .error f) :
    Wrong fields f := by
  have htexts : ∀ {key : String}, key = "sources" ∨ key = "preamble" →
      textsField fields key = .error f → Wrong fields f := by
    intro key hkey h
    obtain ⟨rfl, v, hget, hv⟩ := textsField_eq_error h
    exact .texts hkey hget hv
  have hpath : ∀ {key : String}, key = "output_dir" ∨ key = "externals_file" →
      pathField root fields key = .error f → Wrong fields f := by
    intro key hkey h
    obtain ⟨rfl, v, hget, hv⟩ := pathField_eq_error h
    exact .path hkey hget hv
  simp only [ofSection, bind_eq_error, reduceCtorEq, and_false, exists_false, or_false] at h
  rcases h with h | ⟨-, -, h | ⟨-, -, h | ⟨-, -, h | ⟨-, -, h | ⟨-, -, h | ⟨-, -, h⟩⟩⟩⟩⟩⟩
  · obtain ⟨unknown, rfl, hunknown⟩ := checkKeys_eq_error h
    exact .keys hunknown
  · exact htexts (.inl rfl) h
  · exact hpath (.inl rfl) h
  · exact hpath (.inr rfl) h
  · obtain ⟨rfl, v, hget, hv⟩ := flagField_eq_error h
    exact .flag hget hv
  · rcases constantsField_eq_error h with ⟨rfl, v, hget, hv⟩ | ⟨inner, hget, name, rfl, v, hmem, hv⟩
    · exact .table hget hv
    · exact .constant hget hmem hv
  · exact htexts (.inr rfl) h

/-! ## Documents -/

variable {document : Toml.Fields}

/-- A value stands in a document where its section should. -/
def AtSection (document : Toml.Fields) (v : Toml.Value) : Prop :=
  ∃ tool, document.get? "tool" = some (.table tool) ∧ Toml.Fields.get? tool "encapenum" = some v

/-- A document has no section, or what stands there counts as nothing. -/
def Sectionless (document : Toml.Fields) : Prop :=
  document.get? "tool" = none ∨
    ∃ tool, document.get? "tool" = some (.table tool) ∧
      ∀ v, Toml.Fields.get? tool "encapenum" = some v → v.isEmpty = true

/-- The configuration that a document holds. -/
inductive Holds (root : Path) (document : Toml.Fields) : Config → Prop
  | nothing (h : Sectionless document) : Holds root document { root := some root }
  | written {fields : Toml.Fields} {c : Config} (h : AtSection document (.table fields))
    (hfields : fields ≠ []) (hc : Written root fields c) : Holds root document c

/-- Why a document is refused: something is wrong with its section, or what stands there is a text
or a list of texts, the parts of which are taken for keys. -/
inductive Refuses (document : Toml.Fields) : ConfigFault → Prop
  | wrong {fields : Toml.Fields} {f : ConfigFault} (h : AtSection document (.table fields))
    (hf : Wrong fields f) : Refuses document f
  | text {s : String} {unknown : List String} (h : AtSection document (.text s))
    (hunknown : Unknown (s.toList.map fun c => String.ofList [c]) unknown) :
    Refuses document (.unknownKeys unknown)
  | texts {keys unknown : List String} (h : AtSection document (.ofTexts keys))
    (hunknown : Unknown keys unknown) : Refuses document (.unknownKeys unknown)

/-- Faults of a document that are not reported: a table is needed but something else stands there,
for the whole of the tools or for the section. -/
inductive Escapes (document : Toml.Fields) : ConfigFault → Prop
  | tool {v : Toml.Value} (h : document.get? "tool" = some v) (hv : ∀ tool, v ≠ .table tool) :
    Escapes document .sectionless
  | scalar {v : Toml.Value} (h : AtSection document v) (hfull : v.isEmpty = false)
    (htext : ∀ s, v ≠ .text s) (hitems : ∀ items, v ≠ .array items)
    (htable : ∀ fields, v ≠ .table fields) : Escapes document .keyless
  | items {items : List Toml.Value} (h : AtSection document (.array items)) {item : Toml.Value}
    (hitem : item ∈ items) (htext : ∀ s, item ≠ .text s) : Escapes document .keyless
  | known {keys : List String} (h : AtSection document (.ofTexts keys)) (hkeys : keys ≠ [])
    (hknown : ∀ key ∈ keys, key ∈ knownKeys) : Escapes document .valueless

/-- What has a section has tools. -/
theorem AtSection.sectionless_iff {v : Toml.Value} (h : AtSection document v) :
    Sectionless document ↔ v.isEmpty = true := by
  obtain ⟨tool, htool, hv⟩ := h
  constructor
  · rintro (hnone | ⟨tool', htool', hempty⟩)
    · cases htool.symm.trans hnone
    · obtain rfl := Toml.Value.table.inj (Option.some.inj (htool.symm.trans htool'))
      exact hempty v hv
  · intro hempty
    refine .inr ⟨tool, htool, fun v' hv' => ?_⟩
    obtain rfl := Option.some.inj (hv.symm.trans hv')
    exact hempty

/-- The fault of a list of texts: the unknown ones are named, unless all are known. -/
theorem listFault_ofTexts (keys : List String) :
    (∃ unknown, listFault (keys.map .text) = .unknownKeys unknown ∧ Unknown keys unknown) ∨
      (listFault (keys.map .text) = .valueless ∧ ∀ key ∈ keys, key ∈ knownKeys) := by
  have hkeys : (keys.map Toml.Value.text).all isKey = true := by simp [isKey]
  have hfilter :
      (keys.map Toml.Value.text).filter (fun item => ! item.text?.any knownKeys.contains) =
        (keys.filter fun key => ! knownKeys.contains key).map .text := by
    rw [List.filter_map]
    rfl
  simp only [listFault, hkeys, hfilter, Toml.mapM_text?_eq_some.mpr rfl]
  cases hcheck : checkKeys (keys.filter fun key => ! knownKeys.contains key) with
  | ok _ =>
    refine .inr ⟨rfl, fun key hkey => ?_⟩
    by_contra hunknown
    exact hunknown (checkKeys_eq_ok.mp hcheck key (by simpa [hkey] using hunknown))
  | error fault =>
    obtain ⟨unknown, rfl, hne, hsorted, hmem⟩ := checkKeys_eq_error hcheck
    exact .inl ⟨unknown, rfl, hne, hsorted, fun key => by simp [hmem]⟩

/-- The fault of any other list. -/
theorem listFault_of_ne_text {items : List Toml.Value} {item : Toml.Value} (hitem : item ∈ items)
    (htext : ∀ s, item ≠ .text s) : listFault items = .keyless := by
  have hnone : item.text? = none := by
    cases hs : item.text? with
    | none => rfl
    | some s => exact absurd (Toml.Value.text?_eq_some.mp hs) (htext s)
  have hunknown : item ∈ items.filter fun item => ! item.text?.any knownKeys.contains :=
    List.mem_filter.mpr ⟨hitem, by rw [hnone]; rfl⟩
  unfold listFault
  split_ifs
  · rfl
  · cases hkeys : (items.filter fun item => ! item.text?.any knownKeys.contains).mapM
        Toml.Value.text? with
    | none => simp only [hkeys]
    | some keys =>
      rw [Toml.mapM_text?_eq_some.mp hkeys] at hunknown
      obtain ⟨key, -, rfl⟩ := List.mem_map.mp hunknown
      exact absurd rfl (htext key)

/-- No letter of a text is a key. -/
theorem exists_unknown_of_letters {s : String} (hs : s ≠ "") :
    ∃ unknown, checkKeys (s.toList.map fun c => String.ofList [c]) = .error (.unknownKeys unknown) ∧
      Unknown (s.toList.map fun c => String.ofList [c]) unknown := by
  cases hcheck : checkKeys (s.toList.map fun c => String.ofList [c]) with
  | error fault =>
    obtain ⟨unknown, rfl, hunknown⟩ := checkKeys_eq_error hcheck
    exact ⟨unknown, rfl, hunknown⟩
  | ok _ =>
    obtain ⟨c, hc⟩ := List.exists_mem_of_ne_nil s.toList (by simpa using hs)
    have hknown := checkKeys_eq_ok.mp hcheck _ (List.mem_map_of_mem hc)
    have hlength : ∀ key ∈ knownKeys, key.length ≠ 1 := by decide
    exact absurd (by simp) (hlength _ hknown)

/-- The fields of a section that a value is, which does not count as nothing. -/
def fieldsOf : Toml.Value → Except ConfigFault Toml.Fields
  | .table fields => .ok fields
  | .array items => .error (listFault items)
  | .text s =>
    match checkKeys (s.toList.map fun c => String.ofList [c]) with
    | .ok () => .error .valueless
    | .error fault => .error fault
  | _ => .error .keyless

/-- The section of a document by the value that stands there. -/
theorem section?_of_full {v : Toml.Value} (h : AtSection document v) (hfull : v.isEmpty = false) :
    Config.section? document = fieldsOf v := by
  obtain ⟨tool, htool, hv⟩ := h
  rw [section?, htool]
  simp only [hv, hfull]
  rfl

/-- A document without a section gives no fields. -/
theorem section?_of_sectionless (h : Sectionless document) : section? document = .ok [] := by
  rcases h with htool | ⟨tool, htool, hempty⟩
  · rw [section?, htool]
  · rw [section?, htool]
    cases hv : Toml.Fields.get? tool "encapenum" with
    | none => simp only [hv]
    | some v => simp only [hv, hempty v hv, if_true]

/-- What looking for the section of a document comes to. -/
inductive Sectioned (document : Toml.Fields) : Except ConfigFault Toml.Fields → Prop
  | nothing (h : Sectionless document) : Sectioned document (.ok [])
  | fields {fields : Toml.Fields} (h : AtSection document (.table fields)) (hfields : fields ≠ []) :
    Sectioned document (.ok fields)
  | refused {unknown : List String} (h : Refuses document (.unknownKeys unknown)) :
    Sectioned document (.error (.unknownKeys unknown))
  | escaped {f : ConfigFault} (h : Escapes document f) : Sectioned document (.error f)

/-- A list that stands at the section. -/
theorem sectioned_listFault {items : List Toml.Value} (h : AtSection document (.array items))
    (hitems : items ≠ []) : Sectioned document (.error (listFault items)) := by
  by_cases htexts : ∃ keys : List String, keys.map Toml.Value.text = items
  · obtain ⟨keys, rfl⟩ := htexts
    rcases listFault_ofTexts keys with ⟨unknown, hfault, hunknown⟩ | ⟨hfault, hknown⟩
    · rw [hfault]
      exact .refused (.texts h hunknown)
    · rw [hfault]
      exact .escaped (.known h (by simpa using hitems) hknown)
  · have hitem : ∃ item ∈ items, ∀ s, item ≠ .text s := by
      rw [← Set.mem_range, Set.range_list_map] at htexts
      simpa [eq_comm] using htexts
    obtain ⟨item, hitem, htext⟩ := hitem
    rw [listFault_of_ne_text hitem htext]
    exact .escaped (.items h hitem htext)

/-- A value that stands at the section. -/
theorem sectioned_of_atSection {v : Toml.Value} (h : AtSection document v) :
    Sectioned document (section? document) := by
  cases hempty : v.isEmpty with
  | true =>
    have hnone := h.sectionless_iff.mpr hempty
    rw [section?_of_sectionless hnone]
    exact .nothing hnone
  | false =>
    rw [section?_of_full h hempty]
    cases v with
    | table fields =>
      refine .fields h ?_
      rintro rfl
      cases hempty
    | array items =>
      refine sectioned_listFault h ?_
      rintro rfl
      cases hempty
    | text s =>
      have hs : s ≠ "" := by
        rintro rfl
        cases hempty
      obtain ⟨unknown, hcheck, hunknown⟩ := exists_unknown_of_letters hs
      simp only [fieldsOf, hcheck]
      exact .refused (.text h hunknown)
    | integer | float | boolean | moment =>
      exact .escaped (.scalar h hempty (fun _ => nofun) (fun _ => nofun) fun _ => nofun)

/-- **Sections of documents.** Looking for the section gives the fields of a table, or none if there
is no section; or it is refused for keys that are none; or a fault is met that is not reported. -/
theorem sectioned (document : Toml.Fields) : Sectioned document (section? document) := by
  cases htool : document.get? "tool" with
  | none =>
    rw [section?, htool]
    exact .nothing (.inl htool)
  | some v =>
    cases v with
    | table tool =>
      cases hv : Toml.Fields.get? tool "encapenum" with
      | none =>
        rw [section?, htool]
        simp only [hv]
        exact .nothing (.inr ⟨tool, htool, fun v hsome => nomatch hv.symm.trans hsome⟩)
      | some v => exact sectioned_of_atSection ⟨tool, htool, hv⟩
    | text | integer | float | boolean | moment | array =>
      rw [section?, htool]
      exact .escaped (.tool htool fun _ => nofun)

/-- A fault that is not reported is met where the section is looked for. -/
theorem Escapes.section?_eq {f : ConfigFault} (h : Escapes document f) : section? document =
    .error f := by
  cases h with
  | @tool v htool hv =>
    rw [section?, htool]
    cases v with
    | table tool => exact absurd rfl (hv tool)
    | text | integer | float | boolean | moment | array => rfl
  | @scalar v hat hfull htext hitems htable =>
    rw [section?_of_full hat hfull]
    cases v with
    | text s => exact absurd rfl (htext s)
    | array items => exact absurd rfl (hitems items)
    | table fields => exact absurd rfl (htable fields)
    | integer | float | boolean | moment => rfl
  | @items items hat item hitem htext =>
    have hfull : (Toml.Value.array items).isEmpty = false := by
      simpa [Toml.Value.isEmpty] using List.ne_nil_of_mem hitem
    rw [section?_of_full hat hfull]
    exact congrArg Except.error (listFault_of_ne_text hitem htext)
  | @known keys hat hkeys hknown =>
    have hfull : (Toml.Value.ofTexts keys).isEmpty = false := by
      simpa [Toml.Value.ofTexts, Toml.Value.isEmpty] using hkeys
    rw [section?_of_full hat hfull]
    refine congrArg Except.error ?_
    rcases listFault_ofTexts keys with ⟨unknown, -, hunknown⟩ | ⟨hfault, -⟩
    · obtain ⟨key, hkey⟩ := List.exists_mem_of_ne_nil _ hunknown.ne_nil
      obtain ⟨hmem, hnot⟩ := (hunknown.mem_iff key).mp hkey
      exact absurd (hknown key hmem) hnot
    · exact hfault

/-- A fault that escapes is not reported. -/
theorem Escapes.isReported {f : ConfigFault} (h : Escapes document f) : f.isReported = false := by
  cases h <;> rfl

/-- What a document holds, by the fields of its section. -/
theorem ofFields_eq_ok {c : Config} : ofFields root document = .ok c ↔
    (section? document = .ok [] ∧ c = { root := some root }) ∨
      ∃ fields, fields ≠ [] ∧ section? document = .ok fields ∧ ofSection root fields = .ok c := by
  rw [ofFields, bind_eq_ok]
  constructor
  · rintro ⟨fields, hsection, h⟩
    cases fields with
    | nil => exact .inl ⟨hsection, (Except.ok.inj h).symm⟩
    | cons field fields => exact .inr ⟨field :: fields, by simp, hsection, h⟩
  · rintro (⟨hsection, rfl⟩ | ⟨fields, hfields, hsection, h⟩)
    · exact ⟨[], hsection, rfl⟩
    · refine ⟨fields, hsection, ?_⟩
      cases fields with
      | nil => exact absurd rfl hfields
      | cons field fields => exact h

/-- The table at the section of a document. -/
theorem section?_of_table {fields : Toml.Fields} (h : AtSection document (.table fields)) : section?
    document = .ok fields := by
  cases fields with
  | nil => exact section?_of_sectionless (h.sectionless_iff.mpr rfl)
  | cons field fields => exact section?_of_full h rfl

/-- A document is refused, or meets a fault that is not reported. -/
theorem refuses_or_escapes {f : ConfigFault} (h : ofFields root document = .error f) :
    (Refuses document f ∧ f.isReported = true) ∨ Escapes document f := by
  have hsectioned := sectioned document
  rw [ofFields, bind_eq_error] at h
  rcases h with h | ⟨fields, hsection, h⟩
  · rw [h] at hsectioned
    cases hsectioned with
    | refused hrefuses => exact .inl ⟨hrefuses, rfl⟩
    | escaped hescapes => exact .inr hescapes
  · rw [hsection] at hsectioned
    cases hsectioned with
    | nothing => cases h
    | fields hat hfields =>
      cases fields with
      | nil => exact absurd rfl hfields
      | cons field fields =>
        have hwrong := wrong_of_ofSection h
        exact .inl ⟨.wrong hat hwrong, hwrong.isReported⟩

/-- **Documents.** A document is read as the configuration that it holds: that of its section, or
the one that says nothing if it has none. Every other document is refused with a fault that is
reported, and names what is wrong, or meets one that is not reported. The latter happens exactly if
something stands where a table has to stand and is neither a table nor taken for unknown keys; so a
document whose tools and whose section are tables is never met by it. -/
theorem ofFields_outcome (root : Path) (document : Toml.Fields) :
    (∀ c, ofFields root document = .ok c ↔ Holds root document c) ∧
    (∀ f, ofFields root document = .error f → f.isReported = true → Refuses document f) ∧
    (∀ f, ofFields root document = .error f ∧ f.isReported = false ↔ Escapes document f) ∧
    ((∀ v, document.get? "tool" = some v → ∃ tool, v = .table tool) →
      (∀ v, AtSection document v → ∃ fields, v = .table fields) →
      ∀ f, ofFields root document = .error f → f.isReported = true) := by
  refine ⟨fun c => ofFields_eq_ok.trans ?_, fun f h hreported => ?_, fun f => ?_,
    fun htools htable f h => ?_⟩
  · constructor
    · have hsectioned := sectioned document
      rintro (⟨hsection, rfl⟩ | ⟨fields, hfields, hsection, hc⟩)
      · rw [hsection] at hsectioned
        cases hsectioned with
        | nothing hnone => exact .nothing hnone
        | fields _ hfields => exact absurd rfl hfields
      · rw [hsection] at hsectioned
        cases hsectioned with
        | nothing => exact absurd rfl hfields
        | fields hat => exact .written hat hfields (ofSection_eq_ok.mp hc)
    · rintro (hnone | ⟨hat, hfields, hc⟩)
      · exact .inl ⟨section?_of_sectionless hnone, rfl⟩
      · exact .inr ⟨_, hfields, section?_of_table hat, ofSection_eq_ok.mpr hc⟩
  · rcases refuses_or_escapes h with ⟨hrefuses, -⟩ | hescapes
    · exact hrefuses
    · cases hreported.symm.trans hescapes.isReported
  · constructor
    · rintro ⟨h, hsilent⟩
      rcases refuses_or_escapes h with ⟨-, hreported⟩ | hescapes
      · cases hreported.symm.trans hsilent
      · exact hescapes
    · intro h
      exact ⟨by rw [ofFields, h.section?_eq]; rfl, h.isReported⟩
  · rcases refuses_or_escapes h with ⟨-, hreported⟩ | hescapes
    · exact hreported
    · -- each of these faults is met at something that is no table
      exfalso
      cases hescapes with
      | tool htool hv =>
        obtain ⟨tool, rfl⟩ := htools _ htool
        exact hv tool rfl
      | scalar hat _ _ _ hv =>
        obtain ⟨fields, rfl⟩ := htable _ hat
        exact hv fields rfl
      | items hat => exact nomatch htable _ hat
      | known hat => exact nomatch htable _ hat

/-- Faults that are not reported: an integer in the place of the tools, and a list of integers in
that of the section. A `false` in its place is no fault at all. -/
theorem parse_untabled :
    parse ⟨"/", ["pyproject.toml"]⟩ "tool = 1" = .error .sectionless ∧
      ConfigFault.sectionless.isReported = false ∧
      parse ⟨"/", ["pyproject.toml"]⟩ "[tool]\nencapenum = [1]" = .error .keyless ∧
      ConfigFault.keyless.isReported = false ∧
      parse ⟨"/", ["pyproject.toml"]⟩ "[tool]\nencapenum = false" =
        .ok { root := some ⟨"/", []⟩ } := by
  decide +kernel

end Config
end MaskEnum
