import MaskEnum.Proofs.Loaded.Outcomes
import MaskEnum.Proofs.Table
import MaskEnum.Registry
set_option autoImplicit false

/-!
# What loading leaves in the table of modules

A module stands in the table of loaded modules while its program runs. Loading may fail before
that, because its text is no program, or wherever the program does. However it ends, all other
entries stay as the program leaves them, and what stood under the name of the module is put back
unless the module has been loaded and is to be registered. Only an entry that holds no module is
lost.

## Main definitions

* `MaskEnum.Generated.Module.FailsWith` — where loading a module fails, and with which fault.
* `MaskEnum.Registry.isBlocked` — an entry without a module.

## Main results

* `MaskEnum.Generated.Module.load_eq_error_iff` — loading fails at the first place with a fault.
* `MaskEnum.Registry.load_program`, `MaskEnum.Registry.load_program_eq_error_iff` — a module without
  preamble loads as it does by itself.
* `MaskEnum.Registry.load_restores` — the outcome of loading, and the table afterwards.
* `MaskEnum.Registry.load_blocked` — an entry that is lost.
-/

namespace MaskEnum

/-! ## Places where loading fails -/

namespace Generated

variable {supplied : Table String Int}

/-- A class fails to load with the fault of its first constant that gets no value. -/
theorem Setting.load_eq_error_iff {s : Setting} {fault : LoadFault} :
    s.load supplied = .error fault ↔ ∃ before site after, s.sites = before ++ site :: after ∧
      (∀ earlier ∈ before, ∃ n, earlier.eval supplied = .ok n) ∧
        site.eval supplied = .error fault := by
  have hok : ∀ site : Site, (∃ entry, (site.eval supplied >>= fun value =>
      (.ok (site.constant.name, value) : Except LoadFault (String × Int))) = .ok entry) ↔
      ∃ n, site.eval supplied = .ok n := by
    intro site
    simp only [bind_eq_ok]
    exact ⟨fun ⟨_, n, hn, _⟩ => ⟨n, hn⟩, fun ⟨n, hn⟩ => ⟨_, n, hn, rfl⟩⟩
  have herror : ∀ site : Site, (site.eval supplied >>= fun value =>
      (.ok (site.constant.name, value) : Except LoadFault (String × Int))) = .error fault ↔
      site.eval supplied = .error fault := fun site => bind_eq_error.trans (or_iff_left (by simp))
  rw [Setting.load, bind_eq_error, or_iff_left (by simp), mapM_eq_error_iff]
  simp only [hok, herror]

/-- Loading a module fails with a fault: because its text is no program, because one of its names
takes the place of another, or at a constant of a class, where the classes before it have been
loaded and the constants before it in its class have got their values. -/
inductive Module.FailsWith (m : Module) (supplied : Table String Int) : LoadFault → Prop
  | text {fault : LoadFault} (h : m.textFault? = some fault) : m.FailsWith supplied fault
  | names (htext : m.textFault? = none) (h : m.isFree = false) : m.FailsWith supplied .captured
  | constant {fault : LoadFault} {earlier later : List Setting} {s : Setting}
      {before after : List Site} {site : Site} (htext : m.textFault? = none)
      (hfree : m.isFree = true) (hsettings : m.settings = earlier ++ s :: later)
      (hearlier : ∀ s' ∈ earlier, ∃ c, s'.load supplied = .ok c)
      (hsites : s.sites = before ++ site :: after)
      (hbefore : ∀ site' ∈ before, ∃ n, site'.eval supplied = .ok n)
      (h : site.eval supplied = .error fault) : m.FailsWith supplied fault

/-- **Faults of a load.** Loading fails exactly at the first place that has a fault. -/
theorem Module.load_eq_error_iff {m : Module} {fault : LoadFault} :
    m.load supplied = .error fault ↔ m.FailsWith supplied fault := by
  cases htext : m.textFault? with
  | some textFault =>
    rw [Module.load, htext]
    constructor
    · rintro ⟨⟩
      exact .text htext
    · rintro (h | ⟨h, -⟩ | ⟨h, -⟩)
      · exact congrArg Except.error (Option.some.inj (htext.symm.trans h))
      · cases htext.symm.trans h
      · cases htext.symm.trans h
  | none =>
    cases hfree : m.isFree with
    | false =>
      rw [Module.load, htext]
      simp only [hfree, Bool.false_eq_true, if_false, Except.error.injEq]
      constructor
      · rintro rfl
        exact .names htext hfree
      · rintro (h | - | ⟨-, h⟩)
        · cases htext.symm.trans h
        · rfl
        · cases hfree.symm.trans h
    | true =>
      rw [Module.load, htext]
      simp only [hfree, if_true, bind_eq_error, reduceCtorEq, and_false, exists_false, or_false,
        mapM_eq_error_iff, Setting.load_eq_error_iff]
      constructor
      · rintro ⟨earlier, s, later, hsettings, hearlier, before, site, after, hsites, hbefore, h⟩
        exact .constant htext hfree hsettings hearlier hsites hbefore h
      · rintro (h | ⟨-, h⟩ | ⟨-, -, hsettings, hearlier, hsites, hbefore, h⟩)
        · cases htext.symm.trans h
        · cases hfree.symm.trans h
        · exact ⟨_, _, _, hsettings, hearlier, _, _, _, hsites, hbefore, h⟩

end Generated

/-! ## Entries that are set and put back -/

namespace Table

variable {κ α : Type} [DecidableEq κ]

/-- Of two values set in turn for one key, the second one counts. -/
theorem insert_insert (t : Table κ α) (k : κ) (a b : α) :
    (t.insert k a).insert k b = t.insert k b := by
  have hentries : ∀ es, insertEntry k b (insertEntry k a es) = insertEntry k b es := by
    intro es
    induction es with
    | nil => simp [insertEntry]
    | cons e es ih => by_cases he : e.1 = k <;> simp [insertEntry, he, ih]
  exact congrArg Table.mk (hentries t.entries)

/-- Setting the value that a key has changes nothing. -/
theorem insert_of_get? {t : Table κ α} {k : κ} {a : α} (h : t.get? k = some a) :
    t.insert k a = t := by
  obtain ⟨es⟩ := t
  refine congrArg Table.mk ?_
  show insertEntry k a es = es
  induction es with
  | nil => cases h
  | cons e es ih =>
    by_cases he : e.1 = k
    · obtain rfl : e.2 = a := by simpa [get?, he] using h
      simp [insertEntry, ← he]
    · have hrest : (⟨es⟩ : Table κ α).get? k = some a := by simpa [get?, he] using h
      simp [insertEntry, he, ih hrest]

/-- Without a key, the value that was set for it does not matter. -/
theorem erase_insert (t : Table κ α) (k : κ) (a : α) : (t.insert k a).erase k = t.erase k := by
  have hentries : ∀ es : List (κ × α),
      (insertEntry k a es).filter (·.1 ≠ k) = es.filter (·.1 ≠ k) := by
    intro es
    induction es with
    | nil => simp [insertEntry]
    | cons e es ih => by_cases he : e.1 = k <;> simp_all [insertEntry]
  exact congrArg Table.mk (hentries t.entries)

/-- Erasing what is no key changes nothing. -/
theorem erase_of_get?_eq_none {t : Table κ α} {k : κ} (h : t.get? k = none) : t.erase k = t := by
  refine congrArg Table.mk (List.filter_eq_self.mpr fun e he => decide_eq_true fun hk => ?_)
  exact get?_eq_none_iff.mp h (hk ▸ List.mem_map_of_mem he)

/-- What has been erased is no key. -/
theorem get?_erase (t : Table κ α) (k : κ) : (t.erase k).get? k = none := by
  refine get?_eq_none_iff.mpr fun h => ?_
  obtain ⟨e, he, hk⟩ := List.mem_map.mp h
  exact of_decide_eq_true (List.mem_filter.mp he).2 hk

/-- Erasing a key twice is erasing it once. -/
theorem erase_erase (t : Table κ α) (k : κ) : (t.erase k).erase k = t.erase k :=
  erase_of_get?_eq_none (t.get?_erase k)

end Table

namespace Registry

variable {α ε β : Type}

/-- The module that has been put back stands under its name. -/
theorem get?_restore (r : Registry α) (name : String) (before : Option α) :
    Table.get? (r.restore name before) name = before.map some := by
  cases before with
  | none => exact Table.get?_erase r name
  | some module => exact (Table.get?_insert ..).trans (if_pos rfl)

/-- Putting a module back changes no other entry. -/
theorem erase_restore (r : Registry α) (name : String) (before : Option α) :
    Table.erase (r.restore name before) name = Table.erase r name := by
  cases before with
  | none => exact Table.erase_erase r name
  | some module => exact Table.erase_insert r name (some module)

/-- Whether the entry of a name holds no module. -/
def isBlocked (r : Registry α) (name : String) : Bool := (Table.get? r name).any Option.isNone

/-- Putting back what stood under a name undoes any change of it, unless that was no module. -/
theorem restore_insert (r : Registry α) (name : String) (entry : Option α) :
    restore (Table.insert r name entry) name (r.previous name) =
      if r.isBlocked name then Table.erase r name else r := by
  unfold previous isBlocked
  cases hbefore : Table.get? r name with
  | none => exact (Table.erase_insert ..).trans (Table.erase_of_get?_eq_none hbefore)
  | some before =>
    cases before with
    | none => exact Table.erase_insert ..
    | some module => exact (Table.insert_insert ..).trans (Table.insert_of_get? hbefore)

/-- What a program leaves is kept if the program ends without a fault and the module is to be
registered; otherwise the module that stood there before is put back. -/
theorem load_ok (r : Registry α) (name : String) (module : α) (run : Execution α ε β)
    (register : Bool) :
    r.load name module (.ok run) register =
      let (outcome, after) := run (Table.insert r name (some module))
      (outcome, if outcome.toBool && register then after
        else restore after name (r.previous name)) := by
  rw [load]
  rcases run (Table.insert r name (some module)) with ⟨outcome, after⟩
  cases outcome with
  | error fault => rfl
  | ok result => rfl

/-- **Modules without preamble.** Such a module loads as it does by itself: the table has no part in
it. -/
theorem load_program (r : Registry α) (name : String) (module : α) (m : Generated.Module)
    (supplied : Table String Int) (register : Bool) :
    (r.load name module (m.program supplied) register).1 = m.load supplied := by
  cases htext : m.textFault? with
  | some fault =>
    rw [Generated.Module.program, Generated.Module.load, htext]
    rfl
  | none =>
    rw [Generated.Module.program, htext]
    dsimp only
    rw [load_ok]

/-- It fails exactly at its first place with a fault. -/
theorem load_program_eq_error_iff {r : Registry α} {name : String} {module : α}
    {m : Generated.Module} {supplied : Table String Int} {register : Bool} {fault : LoadFault} :
    (r.load name module (m.program supplied) register).1 = .error fault ↔
      m.FailsWith supplied fault := by
  rw [load_program]
  exact Generated.Module.load_eq_error_iff

/-- **The table of modules.** A text that is refused leaves the table as it was. Any other is a
program, whatever its preamble and the constants that it reads; it finds the module under its name
and all other entries as they were. Loading ends as the program does, and all other entries stay as
the program leaves them, their order included. If the program ends without a fault and the module is
to be registered, so does the entry of its name. Otherwise, wherever the program has failed, the
module that stood there before stands there again, or nothing if there was none.

So if the program itself leaves the table alone, then afterwards the table has the module under its
name, a new name last, and is otherwise as it was; or it is as it was altogether, but for an entry
of that name that held no module: that one is lost. -/
theorem load_restores (r : Registry α) (name : String) (module : α)
    (program : Except ε (Execution α ε β)) (register : Bool) :
    let (outcome, after) := r.load name module program register
    match program with
    | .error fault => outcome = .error fault ∧ after = r
    | .ok run =>
      let found := Table.insert r name (some module)
      let (result, left) := run found
      let kept := result.toBool && register
      outcome = result ∧
      Table.erase after name = Table.erase left name ∧
      Table.get? after name = (if kept then Table.get? left name
        else (r.previous name).map some) ∧
      (left = found →
        (kept = true → Table.get? after name = some (some module) ∧
          Table.erase after name = Table.erase r name ∧
          after.keys = if name ∈ r.keys then r.keys else r.keys ++ [name]) ∧
        (kept = false → after = if r.isBlocked name then Table.erase r name else r)) := by
  cases program with
  | error fault => exact ⟨rfl, rfl⟩
  | ok run =>
    rw [load_ok]
    dsimp only
    generalize run (Table.insert r name (some module)) = ended
    obtain ⟨result, left⟩ := ended
    dsimp only
    cases result.toBool && register with
    | true =>
      refine ⟨rfl, rfl, rfl, fun hleft => ⟨fun _ => ?_, fun h => (nomatch h)⟩⟩
      rw [if_pos rfl, hleft]
      exact ⟨(Table.get?_insert ..).trans (if_pos rfl), Table.erase_insert .., Table.keys_insert ..⟩
    | false =>
      refine ⟨rfl, erase_restore .., get?_restore .., fun hleft => ⟨fun h => (nomatch h), ?_⟩⟩
      intro
      rw [if_neg Bool.false_ne_true, hleft, restore_insert]

/-- A unit is loaded under a name whose entry holds no module, and is not to be registered. Loading
succeeds, and afterwards the entry is gone. -/
theorem load_blocked :
    ∃ u l, compile "pub enum A: u8 { X = 1 }" {} = .ok u ∧
      let before : Registry Unit := .ofList [("m", none)]
      before.load "m" () (u.module.program .empty) false = (.ok l, .empty) ∧
        before.isBlocked "m" = true ∧ before ≠ .empty := by
  obtain ⟨u, l, hu, hload, -⟩ := CompiledUnit.exists_loaded "pub enum A: u8 { X = 1 }" {} .empty rfl
    (p := fun _ => True) (by decide +kernel)
  refine ⟨u, l, hu, ?_, rfl, by decide⟩
  rw [Generated.Module.program, (Generated.Module.load_eq_ok.mp hload).1]
  dsimp only
  rw [load_ok, hload]
  rfl

end Registry

end MaskEnum
