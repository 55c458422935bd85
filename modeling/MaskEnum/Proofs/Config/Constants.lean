import MaskEnum.Externals
import MaskEnum.Proofs.Config.Sections
set_option autoImplicit false

/-!
# Constants from a configuration and from a file

The constants of a configuration have to be integers. Those of an externals file need only mean one:
besides integers, truth values, floats without a fraction and texts that write an integer are taken.
So the same table is not always accepted in both places; where it is, it gives the same constants.

## Main definitions

* `MaskEnum.Toml.Fields.Adds` — a table with one field more.
* `MaskEnum.Externals.Means` — the integers that the fields of a table mean.

## Main results

* `MaskEnum.Config.ofFields_of_adds` — a section with and without its constants.
* `MaskEnum.Externals.ofFields_of_adds` — a file with and without its constants.
* `MaskEnum.constants_by_both_ways` — one table of constants given in both places.
-/

namespace MaskEnum

/-! ## One field more -/

namespace Toml.Fields

variable {fields rest : Fields} {name key : String} {v : Value}

/-- A table has the fields of another and one more, with a name that is not there. -/
def Adds (fields : Fields) (name : String) (v : Value) (rest : Fields) : Prop :=
  ∃ before after, fields = before ++ (name, v) :: after ∧ rest = before ++ after ∧
    rest.get? name = none

/-- A field in front of others. -/
theorem adds_cons (h : rest.get? name = none) : Adds ((name, v) :: rest) name v rest :=
  ⟨[], rest, rfl, rfl, h⟩

/-- The name was not there. -/
theorem Adds.get?_rest (h : fields.Adds name v rest) : rest.get? name = none := by
  obtain ⟨-, -, -, -, hnone⟩ := h
  exact hnone

/-- A table with one field more is not empty. -/
theorem Adds.ne_nil (h : fields.Adds name v rest) : fields ≠ [] := by
  obtain ⟨before, after, rfl, -, -⟩ := h
  exact List.append_ne_nil_of_right_ne_nil _ (List.cons_ne_nil _ _)

/-- The value of the added field. -/
theorem Adds.get?_self (h : fields.Adds name v rest) : fields.get? name = some v := by
  obtain ⟨before, after, rfl, rfl, hnone⟩ := h
  have hbefore : before.find? (·.1 == name) = none := by
    simp only [get?, List.find?_append, Option.map_eq_none_iff, Option.or_eq_none_iff] at hnone
    exact hnone.1
  simp [get?, List.find?_append, hbefore]

/-- Other names are looked up as if it were not there. -/
theorem Adds.get?_of_ne (h : fields.Adds name v rest) (hne : name ≠ key) :
    fields.get? key = rest.get? key := by
  obtain ⟨before, after, rfl, rfl, -⟩ := h
  simp [get?, List.find?_append, hne]

/-- What holds of all fields. -/
theorem Adds.forall_iff (h : fields.Adds name v rest) {P : String × Value → Prop} :
    (∀ field ∈ fields, P field) ↔ P (name, v) ∧ ∀ field ∈ rest, P field := by
  obtain ⟨before, after, rfl, rfl, -⟩ := h
  rw [List.forall_mem_append, List.forall_mem_cons, List.forall_mem_append]
  exact and_left_comm

variable {α β : Type} {write : α → Value} {read : α → β} {missing b : β}

/-- Other fields give what they do without it. -/
theorem Adds.gives_iff (h : fields.Adds name v rest) (hne : name ≠ key) :
    fields.Gives key write read missing b ↔ rest.Gives key write read missing b := by
  have hget := h.get?_of_ne hne
  constructor
  · rintro (hkey | ⟨a, hkey⟩)
    · exact .absent (hget.symm.trans hkey)
    · exact .present a (hget.symm.trans hkey)
  · rintro (hkey | ⟨a, hkey⟩)
    · exact .absent (hget.trans hkey)
    · exact .present a (hget.trans hkey)

/-- A field that is there gives what its value does. -/
theorem gives_of_eq_some (hkey : fields.get? key = some v) :
    fields.Gives key write read missing b ↔ ∃ a, v = write a ∧ b = read a := by
  constructor
  · rintro (hnone | ⟨a, hsome⟩)
    · cases hkey.symm.trans hnone
    · exact ⟨a, Option.some.inj (hkey.symm.trans hsome), rfl⟩
  · rintro ⟨a, rfl, rfl⟩
    exact .present a hkey

/-- A field that is not there gives the default. -/
theorem gives_of_eq_none (hkey : fields.get? key = none) :
    fields.Gives key write read missing b ↔ b = missing := by
  constructor
  · rintro (- | ⟨a, hsome⟩)
    · rfl
    · cases hkey.symm.trans hsome
  · rintro rfl
    exact .absent hkey

end Toml.Fields

/-! ## Constants of a configuration -/

namespace Config

variable {root : Path} {document fields rest : Toml.Fields} {c : Config}

/-- A section writes one configuration only. -/
theorem Written.unique {c' : Config} (h : Written root fields c) (h' : Written root fields c') :
    c = c' :=
  Except.ok.inj ((ofSection_eq_ok.mpr h).symm.trans (ofSection_eq_ok.mpr h'))

/-- Constants decide the constants of the configuration and nothing else. -/
theorem written_of_adds {v : Toml.Value} (h : fields.Adds "externals" v rest) :
    Written root fields c ↔ Written root rest { c with externals := .empty } ∧
      ∃ entries, v = .ofIntegers entries ∧ c.externals = .ofList entries := by
  have hkey : "externals" ∈ knownKeys := by decide
  constructor
  · intro hw
    obtain ⟨texts, htexts, hsources⟩ := hw.sources
    refine ⟨⟨(h.forall_iff.mp hw.keys).2,
      ⟨texts, (h.gives_iff (by decide)).mp htexts, hsources⟩,
      (h.gives_iff (by decide)).mp hw.outputDirectory, .absent h.get?_rest,
      (h.gives_iff (by decide)).mp hw.externalsFile,
      (h.gives_iff (by decide)).mp hw.strict,
      (h.gives_iff (by decide)).mp hw.preamble, hw.root⟩, ?_⟩
    exact (Toml.Fields.gives_of_eq_some h.get?_self).mp hw.externals
  · rintro ⟨hw, hexternals⟩
    obtain ⟨texts, htexts, hsources⟩ := hw.sources
    exact ⟨h.forall_iff.mpr ⟨hkey, hw.keys⟩,
      ⟨texts, (h.gives_iff (by decide)).mpr htexts, hsources⟩,
      (h.gives_iff (by decide)).mpr hw.outputDirectory,
      (Toml.Fields.gives_of_eq_some h.get?_self).mpr hexternals,
      (h.gives_iff (by decide)).mpr hw.externalsFile,
      (h.gives_iff (by decide)).mpr hw.strict,
      (h.gives_iff (by decide)).mpr hw.preamble, hw.root⟩

/-- **Constants of a configuration.** With constants in its section, a document holds what is
written without them, and the constants, which have to be integers. -/
theorem ofFields_of_adds {inner : Toml.Fields} {c' : Config}
    (hat : AtSection document (.table fields))
    (hadds : fields.Adds "externals" (.table inner) rest) (h : ofSection root rest = .ok c) :
    ofFields root document = .ok c' ↔
      ∃ entries, .table inner = Toml.Value.ofIntegers entries ∧
        c' = { c with externals := .ofList entries } := by
  have hsection : ofFields root document = .ok c' ↔ Written root fields c' := by
    rw [ofFields_eq_ok, section?_of_table hat]
    simp [hadds.ne_nil, ofSection_eq_ok]
  rw [ofSection_eq_ok] at h
  rw [hsection, written_of_adds hadds]
  constructor
  · rintro ⟨h', entries, hinner, hexternals⟩
    obtain rfl := h.unique h'
    exact ⟨entries, hinner, by rw [← hexternals]⟩
  · rintro ⟨entries, hinner, rfl⟩
    have hempty : c.externals = .empty :=
      (Toml.Fields.gives_of_eq_none hadds.get?_rest).mp h.externals
    refine ⟨?_, entries, hinner, rfl⟩
    rw [← hempty]
    exact h

end Config

/-! ## Constants of a file -/

namespace Externals

variable {fields : Toml.Fields}

/-- Each field of a table means an integer, and the entries have these. -/
def Means (fields : Toml.Fields) (entries : List (String × Int)) : Prop :=
  List.Forall₂ (fun field entry => field.1 = entry.1 ∧ integer? field.2 = some entry.2)
    fields entries

/-- The table of integers that a table means. -/
theorem table?_table {t : Table String Int} :
    table? (.table fields) = some t ↔ ∃ entries, Means fields entries ∧ t = .ofList entries := by
  have hfield : ∀ (field : String × Toml.Value) (entry : String × Int),
      ((integer? field.2).bind fun n => some (field.1, n)) = some entry ↔
        field.1 = entry.1 ∧ integer? field.2 = some entry.2 := by
    rintro ⟨name, v⟩ ⟨name', n⟩
    cases integer? v <;> simp
  show (fields.mapM fun field => (integer? field.2).bind fun n => some (field.1, n)).bind
    (fun entries => some (Table.ofList entries)) = some t ↔ _
  simp only [Option.bind_eq_some_iff, mapM_eq_some, hfield, Option.some.injEq]
  exact exists_congr fun entries => and_congr_right fun _ => eq_comm

/-- The integers are found exactly if each field means one. -/
theorem exists_means : (∃ entries, Means fields entries) ↔
    ∀ field ∈ fields, ∃ n, integer? field.2 = some n :=
  exists_forall₂.trans (forall₂_congr fun field _ =>
    ⟨fun ⟨entry, h⟩ => ⟨entry.2, h.2⟩, fun ⟨n, hn⟩ => ⟨(field.1, n), rfl, hn⟩⟩)

/-- A table of integers means these. -/
theorem means_of_integers (entries : List (String × Int)) :
    Means (entries.map fun (name, n) => (name, .integer n)) entries := by
  rw [Means, List.forall₂_map_left_iff, List.forall₂_same]
  exact fun entry _ => ⟨rfl, rfl⟩

/-- What means an integer is one, or is a truth value, a float or a text. -/
theorem cases_of_integer? {v : Toml.Value} {n : Int} (h : integer? v = some n) :
    v = .integer n ∨ (∃ b, v = .boolean b) ∨ (∃ x, v = .float x) ∨ ∃ s, v = .text s := by
  cases v with
  | integer m => exact .inl (congrArg _ (Option.some.inj h))
  | boolean b => exact .inr (.inl ⟨b, rfl⟩)
  | float x => exact .inr (.inr (.inl ⟨x, rfl⟩))
  | text s => exact .inr (.inr (.inr ⟨s, rfl⟩))
  | moment | array | table => cases h

/-- The contents of a document, which has no other keys than those of a file. -/
theorem ofFields_eq_some {e : Externals} : ofFields fields = some e ↔
    (∀ field ∈ fields, field.1 = "constants" ∨ field.1 = "enums") ∧
      field table? fields "constants" = some e.constants ∧
      field tables? fields "enums" = some e.enums := by
  have hkeys : (fields.all fun field => field.1 == "constants" || field.1 == "enums") = true ↔
      ∀ field ∈ fields, field.1 = "constants" ∨ field.1 = "enums" := by simp
  show (if fields.all fun field => field.1 == "constants" || field.1 == "enums" then
    (field table? fields "constants").bind fun constants =>
      (field tables? fields "enums").bind fun enums => some ⟨constants, enums⟩
    else none) = some e ↔ _
  rw [← hkeys]
  split_ifs with h
  · obtain ⟨constants, enums⟩ := e
    simp [Option.bind_eq_some_iff, h]
  · simp [h]

/-- **Constants of a file.** With constants, a document holds what it does without them, and the
constants, each of which has to mean an integer. -/
theorem ofFields_of_adds {inner rest : Toml.Fields} {e e' : Externals}
    (hadds : fields.Adds "constants" (.table inner) rest) (h : ofFields rest = some e) :
    ofFields fields = some e' ↔
      ∃ entries, Means inner entries ∧ e' = { e with constants := .ofList entries } := by
  obtain ⟨hkeys, -, henums⟩ := ofFields_eq_some.mp h
  have hconstants : field table? fields "constants" = table? (.table inner) := by
    rw [field, hadds.get?_self]
  have hothers : field tables? fields "enums" = some e.enums := by
    rw [field, hadds.get?_of_ne (by decide)]
    exact henums
  rw [ofFields_eq_some, hconstants, hothers, table?_table, hadds.forall_iff]
  constructor
  · rintro ⟨-, ⟨entries, hmeans, hentries⟩, henums⟩
    refine ⟨entries, hmeans, ?_⟩
    rw [Option.some.inj henums, ← hentries]
  · rintro ⟨entries, hmeans, rfl⟩
    exact ⟨⟨.inl rfl, hkeys⟩, ⟨entries, hmeans, rfl⟩, rfl⟩

end Externals

/-! ## Both ways -/

section

variable {root : Path} {document fields rest file others t : Toml.Fields} {c : Config}
  {e : Externals}

/-- A table is one of integers if its values are. -/
theorem exists_ofIntegers : (∃ entries, .table t = Toml.Value.ofIntegers entries) ↔
    ∀ field ∈ t, ∃ n, field.2 = .integer n := by
  constructor
  · rintro ⟨entries, h⟩ field hfield
    obtain rfl := Toml.Value.table.inj h
    obtain ⟨entry, -, rfl⟩ := List.mem_map.mp hfield
    exact ⟨entry.2, rfl⟩
  · intro h
    choose! n hn using h
    refine ⟨t.map fun field => (field.1, n field), ?_⟩
    rw [Toml.Value.ofIntegers, List.map_map, Toml.Value.table.injEq]
    refine (List.map_id t).symm.trans (List.map_congr_left fun field hfield => ?_)
    exact Prod.ext rfl (hn field hfield)

/-- **One table of constants in both places.** A table stands as the constants of a section, and
as those of a file, both of which are accepted without it. The section takes it if its values are
integers; the file takes it if each of its values means an integer. What the section takes, the file
takes too, and both have the same constants. So both take the table or both refuse it exactly if its
values are integers or some value means no integer; besides integers, it is truth values, floats and
texts that may mean one. -/
theorem constants_by_both_ways (hat : Config.AtSection document (.table fields))
    (hfields : fields.Adds "externals" (.table t) rest) (hc : Config.ofSection root rest = .ok c)
    (hfile : file.Adds "constants" (.table t) others) (he : Externals.ofFields others = some e) :
    (∀ c', Config.ofFields root document = .ok c' ↔
      ∃ entries, .table t = Toml.Value.ofIntegers entries ∧
        c' = { c with externals := .ofList entries }) ∧
    (∀ e', Externals.ofFields file = some e' ↔
      ∃ entries, Externals.Means t entries ∧ e' = { e with constants := .ofList entries }) ∧
    (∀ c', Config.ofFields root document = .ok c' →
      ∃ e', Externals.ofFields file = some e' ∧ e'.constants = c'.externals) ∧
    (((∃ c', Config.ofFields root document = .ok c') ↔ ∃ e', Externals.ofFields file = some e') ↔
      (∀ field ∈ t, ∃ n, field.2 = .integer n) ∨
        ∃ field ∈ t, ∀ n, Externals.integer? field.2 ≠ some n) ∧
    ∀ v n, Externals.integer? v = some n →
      v = .integer n ∨ (∃ b, v = .boolean b) ∨ (∃ x, v = .float x) ∨ ∃ s, v = .text s := by
  have hconfig : ∀ c', Config.ofFields root document = .ok c' ↔ _ := fun c' =>
    Config.ofFields_of_adds hat hfields hc
  have hexternals : ∀ e', Externals.ofFields file = some e' ↔ _ := fun e' =>
    Externals.ofFields_of_adds hfile he
  refine ⟨hconfig, hexternals, fun c' h => ?_, ?_, fun v n => Externals.cases_of_integer?⟩
  · obtain ⟨entries, ht, rfl⟩ := (hconfig c').mp h
    obtain rfl := Toml.Value.table.inj ht
    exact ⟨_, (hexternals _).mpr ⟨entries, Externals.means_of_integers entries, rfl⟩, rfl⟩
  · have hsection : (∃ c', Config.ofFields root document = .ok c') ↔
        ∀ field ∈ t, ∃ n, field.2 = .integer n := by
      rw [← exists_ofIntegers]
      exact ⟨fun ⟨c', h⟩ => ((hconfig c').mp h).imp fun _ h => h.1,
        fun ⟨entries, h⟩ => ⟨_, (hconfig _).mpr ⟨entries, h, rfl⟩⟩⟩
    have hmeans : (∃ e', Externals.ofFields file = some e') ↔
        ∀ field ∈ t, ∃ n, Externals.integer? field.2 = some n := by
      rw [← Externals.exists_means]
      exact ⟨fun ⟨e', h⟩ => ((hexternals e').mp h).imp fun _ h => h.1,
        fun ⟨entries, h⟩ => ⟨_, (hexternals _).mpr ⟨entries, h, rfl⟩⟩⟩
    have hinteger : (∀ field ∈ t, ∃ n, field.2 = .integer n) →
        ∀ field ∈ t, ∃ n, Externals.integer? field.2 = some n := by
      rintro h field hfield
      obtain ⟨n, hn⟩ := h field hfield
      exact ⟨n, congrArg Externals.integer? hn⟩
    have hnone : (∃ field ∈ t, ∀ n, Externals.integer? field.2 ≠ some n) ↔
        ¬ ∀ field ∈ t, ∃ n, Externals.integer? field.2 = some n := by
      push Not
      rfl
    rw [hsection, hmeans, hnone]
    constructor
    · intro hboth
      exact (em _).imp_right fun h hmeant => h (hboth.mpr hmeant)
    · rintro (h | h)
      · exact iff_of_true h (hinteger h)
      · exact iff_of_false (fun hall => h (hinteger hall)) h

/-- A table with a text that writes an integer: the file takes it, the section does not. -/
theorem constants_by_both_ways_numeral :
    Externals.ofFields [("constants", .table [("LOW", .integer 1), ("HIGH", .text "12")])] =
      some { constants := .ofList [("LOW", 1), ("HIGH", 12)] } ∧
    ∀ c, Config.ofFields ⟨"/", []⟩ [("tool", .table [("encapenum", .table [("externals",
      .table [("LOW", .integer 1), ("HIGH", .text "12")])])])] ≠ .ok c := by
  have hat : Config.AtSection [("tool", .table [("encapenum", .table [("externals",
      .table [("LOW", .integer 1), ("HIGH", .text "12")])])])]
      (.table [("externals", .table [("LOW", .integer 1), ("HIGH", .text "12")])]) := ⟨_, rfl, rfl⟩
  have hsection : Config.ofSection ⟨"/", []⟩ [] = .ok { root := some ⟨"/", []⟩ } := rfl
  have hnothing : Externals.ofFields [] = some {} := rfl
  obtain ⟨hconfig, hfile, -⟩ := constants_by_both_ways hat (Toml.Fields.adds_cons rfl) hsection
    (Toml.Fields.adds_cons rfl) hnothing
  refine ⟨(hfile _).mpr ⟨_, .cons ⟨rfl, rfl⟩ (.cons ⟨rfl, by decide +kernel⟩ .nil), rfl⟩,
    fun c hc => ?_⟩
  obtain ⟨entries, ht, -⟩ := (hconfig c).mp hc
  obtain ⟨n, hn⟩ := exists_ofIntegers.mp ⟨entries, ht⟩ ("HIGH", .text "12") (by simp)
  cases hn

/-- The same table in both places: a section does not take a truth value, but a file does, and also
a text and a float. -/
theorem boolean_by_both_ways :
    Config.parse ⟨"/", ["pyproject.toml"]⟩ "[tool.encapenum.externals]\nX = true" =
      .error (.expectedInteger "X") ∧
    Externals.parse ⟨"/", ["externals.toml"]⟩ "[constants]\nX = true" =
      .ok { constants := .ofList [("X", 1)] } ∧
    Externals.parse ⟨"/", ["externals.toml"]⟩ "[constants]\nY = '12'\nZ = 5.0" =
      .ok { constants := .ofList [("Y", 12), ("Z", 5)] } := by
  decide +kernel

end

end MaskEnum
