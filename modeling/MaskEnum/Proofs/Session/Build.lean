import MaskEnum.Proofs.Files.Tree
import MaskEnum.Proofs.Generated.Unit
import MaskEnum.Proofs.Session.Compile
import MaskEnum.Proofs.Table
set_option autoImplicit false

/-!
# Builds

A build compiles all sources and then writes their modules, all to one directory and each under the
stem of its source. So a source that does not compile leaves everything as it was. But modules whose
sources have one stem are written to one place, whatever directories the sources stand in, and only
the last of them stays.

## Main definitions

* `MaskEnum.Session.moduleName` — the name of the module for a source.
* `MaskEnum.Session.UnitsOf` — the units of the sources of a configuration.
* `MaskEnum.Session.Built` — what a build leaves.

## Main results

* `MaskEnum.Session.comesTo_writeModules`, `MaskEnum.Session.built_of_isOpen` — the modules are set
  one after the other.
* `MaskEnum.Session.Compiles.text_ne` — modules of sources with different names are different.
* `MaskEnum.Session.run_build` — how a build ends, and what it leaves.
-/

namespace MaskEnum

/-! ## First lines -/

namespace Generated

/-- The first line of a module. -/
theorem Module.takeWhile_text {m : Module} (h : '\n' ∉ (headline m.source).toList) :
    m.text.toList.takeWhile (· ≠ '\n') = (headline m.source).toList := by
  obtain ⟨rest, hlines⟩ : ∃ rest, m.lines = headline m.source :: "" :: rest := ⟨_, rfl⟩
  have hall : ∀ a ∈ (headline m.source).toList, decide (a ≠ '\n') = true :=
    fun a ha => decide_eq_true fun heq => h (heq ▸ ha)
  rw [Module.text, hlines, String.toList_append, String.toList_intercalate, List.map_cons,
    List.map_cons, List.intercalate_cons_cons, List.append_assoc, List.append_assoc,
    List.takeWhile_append_of_pos hall]
  simp

/-- The letters of a headline. -/
theorem toList_headline {name : String} (h : name ≠ "") :
    (headline (some name)).toList =
      "\"\"\"Generated by encapenum".toList ++ " from ".toList ++ name.toList ++
        ". Do not edit.\"\"\"".toList := by
  have horigin : headline (some name) =
      "\"\"\"Generated by encapenum" ++ (" from " ++ name) ++ ". Do not edit.\"\"\"" := by
    unfold headline
    split
    · next hnone => cases hnone
    · next hempty => exact absurd (Option.some.inj hempty) h
    · next name' _ hname =>
      rw [Option.some.inj hname]
  simp only [horigin, String.toList_append, List.append_assoc]

end Generated

namespace FileTree

/-- A file can be written at a path once its directory has been made. -/
def Writable (t : FileTree) (p : Path) : Prop :=
  ∃ t', (do (← t.makeDirectory p.parent).write p "") = .ok t'

end FileTree

namespace Session

variable {t t' t'' : FileTree} {c : Config} {d source : Path} {base : List String}
  {units : List (Path × CompiledUnit)}

/-! ## Targets -/

/-- The name of the module for a source. -/
def moduleName (source : Path) : String := source.stem ++ ".py"

theorem toList_moduleName (source : Path) :
    (moduleName source).toList = source.stem.toList ++ ['.', 'p', 'y'] := by
  rw [moduleName, String.toList_append]
  rfl

/-- Modules have the same name if their sources have the same stem. -/
theorem moduleName_inj {source' : Path} :
    moduleName source = moduleName source' ↔ source.stem = source'.stem := by
  refine ⟨fun h => String.toList_injective ?_, fun h => by rw [moduleName, h, moduleName]⟩
  have hlists := congrArg String.toList h
  rw [toList_moduleName, toList_moduleName] at hlists
  exact List.append_cancel_right hlists

/-- The name is long enough to be no dots. -/
theorem moduleName_ne {name : String} (h : name.length ≤ 2) (source : Path) :
    moduleName source ≠ name := by
  rintro rfl
  have hlength : (moduleName source).length = source.stem.length + 3 := by
    rw [← String.length_toList, toList_moduleName, List.length_append, String.length_toList]
    rfl
  omega

/-- The target of a source is an entry of the directory. -/
theorem target_eq (d : Path) (h : source.Slashless) :
    target d source = ⟨d.anchor, d.names ++ [moduleName source]⟩ := by
  refine Path.entry_of_notMem d ?_ (moduleName_ne (by decide) source)
    (moduleName_ne (by decide) source)
  show '/' ∉ (moduleName source).toList
  rw [toList_moduleName, List.mem_append, not_or]
  exact ⟨h.notMem_stem, by decide⟩

theorem parent_target (d : Path) (h : source.Slashless) : (target d source).parent = d := by
  rw [target_eq d h, Path.parent, List.dropLast_concat]

/-! ## Writing -/

/-- A change of the tree that succeeds. -/
theorem comesTo_changeFiles {f : FileTree → Except FileFault FileTree} (h : f t = .ok t') :
    ComesTo (changeFiles (FileTree.change f)) t (.ok ()) t' := by
  have hchange : (FileTree.change f).run t = (.ok (), t') := by
    simp only [FileTree.change, StateT.run, h]
  exact (comesTo_lift hchange).bind_ok (comesTo_pure () t')

/-- Writing a file, the directory of which is made first. -/
theorem comesTo_writeFile {p : Path} {place : List String} (text : String)
    (hmake : t.makeDirectory p.parent = .ok t') (hopen : t'.IsOpen p place) :
    ComesTo (writeFile FileTree.fileSystem p (pure text)) t (.ok ())
      { t' with files := t'.files.insert place text } := by
  have hwrite : t'.write p text = .ok { t' with files := t'.files.insert place text } :=
    FileTree.write_eq_ok.mpr ⟨place, hopen, rfl⟩
  exact (comesTo_changeFiles hmake).bind_ok
    ((comesTo_pure text t').bind_ok (comesTo_changeFiles (f := (·.write p text)) hwrite))

/-- What the modules of some units are as entries of a table of files. -/
def moduleEntries (base : List String) (units : List (Path × CompiledUnit)) :
    List (List String × String) :=
  units.map fun unit => (base ++ [moduleName unit.1], unit.2.text)

/-- **Writing modules.** Once their directory is made, the modules are set one after the other.

**Proof sketch.** Induction on the units. Writing the first module makes the directory and sets one
entry. The directory is then there and the other targets are open as before, so the rest is written
from that tree. -/
theorem comesTo_writeModules (hunits : units ≠ []) (hmake : t.makeDirectory d = .ok t')
    (hopen : ∀ unit ∈ units, unit.1.Slashless ∧
      t'.IsOpen (target d unit.1) (base ++ [moduleName unit.1])) :
    ComesTo (writeModules FileTree.fileSystem d units) t (.ok ())
      { t' with files := t'.files.insertAll (moduleEntries base units) } := by
  induction units generalizing t t' with
  | nil => exact absurd rfl hunits
  | cons unit rest ih =>
    obtain ⟨⟨hslash, hfirst⟩, hrest⟩ := List.forall_mem_cons.mp hopen
    rw [← parent_target d hslash] at hmake
    have hwrite := comesTo_writeFile unit.2.text hmake hfirst
    have hmade := (FileTree.makes_of_makeDirectory hmake).isMade
    rw [parent_target d hslash] at hmade
    refine hwrite.bind_ok ((comesTo_report _ _).bind_ok ?_)
    cases rest with
    | nil => exact comesTo_pure () _
    | cons next rest =>
      -- the directory is there now, so making it again changes nothing
      refine ih (by simp) (hmade.of_grows (FileTree.grows_files t' _)).makeDirectory ?_
      exact fun other hother => ⟨(hrest other hother).1, (hrest other hother).2.of_files _⟩

/-- The targets of sources are open in one place once their directory has been made. -/
theorem exists_isOpen {sources : List Path} (hsources : sources ≠ [])
    (hslash : ∀ source ∈ sources, source.Slashless)
    (hwritable : ∀ source ∈ sources, t.Writable (target d source)) :
    ∃ t' base, t.makeDirectory d = .ok t' ∧
      ∀ source ∈ sources, t'.IsOpen (target d source) (base ++ [moduleName source]) := by
  have hopen : ∀ source ∈ sources, ∃ t' base, t.makeDirectory d = .ok t' ∧
      t'.locate ⟨d.anchor, d.names⟩ = .ok base ∧
      t'.IsOpen (target d source) (base ++ [moduleName source]) := by
    intro source hsource
    obtain ⟨t'', hchanges⟩ := hwritable source hsource
    obtain ⟨t', hmake, hwrite⟩ := bind_eq_ok.mp hchanges
    rw [parent_target d (hslash source hsource)] at hmake
    obtain ⟨place, hopen, -⟩ := FileTree.write_eq_ok.mp hwrite
    have hlocate := hopen.locate
    rw [target_eq d (hslash source hsource)] at hlocate
    obtain ⟨base, hbase, rfl⟩ :=
      FileTree.exists_of_locate_concat (moduleName_ne (by decide) source) hlocate
    exact ⟨t', base, hmake, hbase, hopen⟩
  obtain ⟨first, hfirst⟩ := List.exists_mem_of_ne_nil sources hsources
  obtain ⟨t', base, hmake, hbase, -⟩ := hopen first hfirst
  refine ⟨t', base, hmake, fun source hsource => ?_⟩
  obtain ⟨t'', base', hmake', hbase', h⟩ := hopen source hsource
  obtain rfl := Except.ok.inj (hmake.symm.trans hmake')
  obtain rfl := Except.ok.inj (hbase.symm.trans hbase')
  exact h

/-- What writing the modules of some units leaves: at the target of a source stands the module of
the last source that has the same stem, and all other files are as they were. -/
structure Built (t : FileTree) (d : Path) (units : List (Path × CompiledUnit)) (t' : FileTree) :
    Prop where
  last : ∀ before unit after, units = before ++ unit :: after →
    (∀ later ∈ after, later.1.stem ≠ unit.1.stem) →
    t'.read (target d unit.1) = .ok unit.2.text
  others : ∀ place, (∀ unit ∈ units, t'.locate (target d unit.1) ≠ .ok place) →
    t'.files.get? place = t.files.get? place

/-- The tree after writing the modules. -/
theorem built_of_isOpen (hmake : t.makeDirectory d = .ok t')
    (hopen : ∀ unit ∈ units, t'.IsOpen (target d unit.1) (base ++ [moduleName unit.1])) :
    Built t d units { t' with files := t'.files.insertAll (moduleEntries base units) } := by
  have hplace : ∀ unit ∈ units, FileTree.IsOpen
      { t' with files := t'.files.insertAll (moduleEntries base units) } (target d unit.1)
      (base ++ [moduleName unit.1]) := fun unit hunit => (hopen unit hunit).of_files _
  constructor
  · rintro before unit after rfl hlast
    have hunit := hplace unit (by simp)
    refine FileTree.read_eq_ok.mpr ⟨_, hunit.locate, hunit.free, ?_⟩
    have hafter : base ++ [moduleName unit.1] ∉ (moduleEntries base after).map Prod.fst := by
      simp only [moduleEntries, List.map_map, List.mem_map, Function.comp_apply, not_exists,
        not_and]
      intro later hlater heq
      have hname : moduleName later.1 = moduleName unit.1 := by simpa using heq
      exact hlast later hlater (moduleName_inj.mp hname)
    rw [moduleEntries, List.map_append, List.map_cons, Table.insertAll_append,
      Table.insertAll_cons]
    refine (Table.get?_insertAll_of_notMem hafter).trans ?_
    rw [Table.get?_insert, if_pos rfl]
  · intro place hnone
    have hkeys : place ∉ (moduleEntries base units).map Prod.fst := by
      simp only [moduleEntries, List.map_map, List.mem_map, Function.comp_apply, not_exists,
        not_and]
      rintro unit hunit rfl
      exact hnone unit hunit (hplace unit hunit).locate
    rw [← (FileTree.makes_of_makeDirectory hmake).files]
    exact Table.get?_insertAll_of_notMem hkeys

/-- All modules are there if those for sources of one stem are the same. -/
theorem Built.forall_read_iff (h : Built t d units t') :
    (∀ unit ∈ units, t'.read (target d unit.1) = .ok unit.2.text) ↔
      ∀ p ∈ units, ∀ q ∈ units, p.1.stem = q.1.stem → p.2.text = q.2.text := by
  have htarget : ∀ {p q : Path × CompiledUnit}, p.1.stem = q.1.stem →
      target d p.1 = target d q.1 := by
    intro p q hstem
    rw [target, target, hstem]
  constructor
  · intro hread p hp q hq hstem
    have hsame := hread p hp
    rw [htarget hstem, hread q hq] at hsame
    exact (Except.ok.inj hsame).symm
  · intro hsame unit hunit
    obtain ⟨before, last, after, heq, hstem, hafter⟩ :=
      exists_last (p := fun other => other.1.stem = unit.1.stem) ⟨unit, hunit, rfl⟩
    have hlast : last ∈ units := by
      rw [heq]
      simp
    rw [← htarget hstem, ← hsame last hlast unit hunit hstem]
    exact h.last before last after heq fun later hlater => hstem ▸ hafter later hlater

/-! ## Builds -/

/-- The directory that a build writes to. -/
def directoryOf (t : FileTree) (c : Config) : Path :=
  (c.outputDirectory.or c.root).getD ⟨"/", t.current⟩

/-- The units of the sources of a configuration. -/
def UnitsOf (t : FileTree) (c : Config) (units : List (Path × CompiledUnit)) : Prop :=
  List.Forall₂ (fun source unit => unit.1 = source ∧ Compiles t c source unit.2) c.sources units

/-- Compiling all sources. -/
theorem decides_units (t : FileTree) (c : Config) :
    Decides (c.sources.mapM fun source => do
      return (source, ← compileFile FileTree.fileSystem c source none false)) t (UnitsOf t c) := by
  refine decides_mapM fun source _ => ?_
  rcases decides_compileFile t c source with ⟨u, hu, hcompile⟩ | ⟨hnone, e, he, hcompile⟩
  · exact .ok ⟨rfl, hu⟩ (hcompile.bind_ok (comesTo_pure _ t))
  · exact .error (fun unit hunit => hnone unit.2 hunit.2) he hcompile.bind_error

/-- There are units if every source compiles. -/
theorem exists_unitsOf :
    (∃ units, UnitsOf t c units) ↔ ∀ source ∈ c.sources, ∃ u, Compiles t c source u :=
  exists_forall₂.trans (forall₂_congr fun source _ =>
    ⟨fun ⟨unit, h⟩ => ⟨unit.2, h.2⟩, fun ⟨u, hu⟩ => ⟨(source, u), rfl, hu⟩⟩)

/-- A build of some sources compiles them and then writes their modules. -/
theorem comesTo_build {r : Except Ending Unit} (hc : t.config = .ok c) (hsources : c.sources ≠ [])
    (h : ComesTo (do
      let units ← c.sources.mapM fun source => do
        return (source, ← compileFile FileTree.fileSystem c source none false)
      writeModules FileTree.fileSystem (directoryOf t c) units
      report (.finished units.length)) t r t') :
    ComesTo (perform FileTree.fileSystem .build) t r t' := by
  refine (comesTo_config hc).bind_ok ?_
  have hcurrent : FileTree.fileSystem.workingDirectory.run t = (⟨"/", t.current⟩, t) := rfl
  have hempty : ¬ c.sources.isEmpty = true := by simpa using hsources
  show ComesTo (build FileTree.fileSystem c) t r t'
  rw [build, if_neg hempty]
  exact (comesTo_lift hcurrent).bind_ok h

/-- A build whose sources all compile, and whose modules can be written, writes them. -/
theorem exists_built (hc : t.config = .ok c) (hcurrent : ∀ name ∈ t.current, '/' ∉ name.toList)
    (hsources : c.sources ≠ []) (hcompile : ∀ source ∈ c.sources, ∃ u, Compiles t c source u)
    (hwritable : ∀ source ∈ c.sources, t.Writable (target (directoryOf t c) source)) :
    ∃ transcript units t', (run FileTree.fileSystem .build).run t = ((.success, transcript), t') ∧
      UnitsOf t c units ∧ Built t (directoryOf t c) units t' := by
  rcases decides_units t c with ⟨units, hunits, hall⟩ | ⟨hnone, -⟩
  · have hslash := FileTree.slashless_of_config hc hcurrent
    obtain ⟨t', base, hmake, hopen⟩ := exists_isOpen hsources hslash hwritable
    have hmem : ∀ unit ∈ units, unit.1 ∈ c.sources := by
      intro unit hunit
      obtain ⟨source, hsource, rfl, -⟩ := exists_left_of_forall₂ hunits hunit
      exact hsource
    have hne : units ≠ [] := by
      rintro rfl
      exact hsources (List.forall₂_nil_right_iff.mp hunits)
    have hwrite := comesTo_writeModules hne hmake fun unit hunit =>
      ⟨hslash unit.1 (hmem unit hunit), hopen unit.1 (hmem unit hunit)⟩
    obtain ⟨transcript, hrun⟩ := run_of_comesTo (comesTo_build hc hsources
      (hall.bind_ok (hwrite.bind_ok (comesTo_report _ _))))
    exact ⟨transcript, units, _, hrun, hunits,
      built_of_isOpen hmake fun unit hunit => hopen unit.1 (hmem unit hunit)⟩
  · obtain ⟨units, hunits⟩ := exists_unitsOf.mpr hcompile
    exact absurd hunits (hnone units)

/-- A build with a source that does not compile ends with a failure and leaves the tree alone. -/
theorem run_build_of_not_compiles (hc : t.config = .ok c)
    (hsource : ∃ source ∈ c.sources, ∀ u, ¬ Compiles t c source u) :
    ∃ ending transcript, ending.exitCode = 1 ∧
      (run FileTree.fileSystem .build).run t = ((ending, transcript), t) := by
  obtain ⟨source, hmem, hnone⟩ := hsource
  rcases decides_units t c with ⟨units, hunits, -⟩ | ⟨-, e, he, hall⟩
  · obtain ⟨u, hu⟩ := exists_unitsOf.mp ⟨units, hunits⟩ source hmem
    exact absurd hu (hnone u)
  · obtain ⟨transcript, hrun⟩ :=
      run_of_comesTo (comesTo_build hc (List.ne_nil_of_mem hmem) hall.bind_error)
    exact ⟨e, transcript, he, hrun⟩

/-! ## Sources with different names -/

/-- A module names its source. -/
theorem Compiles.source_eq {u : CompiledUnit} (h : Compiles t c source u) :
    u.module.source = some source.name := by
  obtain ⟨e, text, -, -, hcompile⟩ := h
  obtain ⟨items, -, hmodule⟩ := bind_eq_ok.mp (compile_of hcompile).ofUnit
  rw [← Except.ok.inj hmodule]
  rfl

/-- The modules of sources with different names are different. -/
theorem Compiles.text_ne {source' : Path} {u u' : CompiledUnit} (h : Compiles t c source u)
    (h' : Compiles t c source' u') (hname : source.name ≠ source'.name)
    (hproper : ∀ name ∈ [source.name, source'.name], name ≠ "" ∧ '\n' ∉ name.toList) :
    u.text ≠ u'.text := by
  have hline : ∀ name ∈ [source.name, source'.name], '\n' ∉
      (Generated.headline (some name)).toList := by
    intro name hmem
    simp only [Generated.toList_headline (hproper name hmem).1, List.mem_append, not_or]
    exact ⟨⟨⟨by decide, by decide⟩, (hproper name hmem).2⟩, by decide⟩
  have hfirst := Generated.Module.takeWhile_text (h.source_eq ▸ hline source.name (by simp))
  have hsecond := Generated.Module.takeWhile_text (h'.source_eq ▸ hline source'.name (by simp))
  intro htext
  have hheads : (Generated.headline (some source.name)).toList =
      (Generated.headline (some source'.name)).toList := by
    rw [← h.source_eq, ← h'.source_eq, ← hfirst, ← hsecond]
    exact congrArg (fun text : String => text.toList.takeWhile (· ≠ '\n')) htext
  rw [Generated.toList_headline (hproper _ (by simp)).1,
    Generated.toList_headline (hproper _ (by simp)).1] at hheads
  exact hname (String.toList_injective
    (List.append_cancel_left (List.append_cancel_right hheads)))

/-! ## A project with two sources -/

/-- The tree of a project with a source in each of two directories. -/
def project (first second : String) : FileTree where
  current := ["p"]
  directories := [["p"], ["p", "a"], ["p", "b"]]
  files := .ofList
    [(["p", "pyproject.toml"],
      "[tool.encapenum]\nsources = ['a/" ++ first ++ "', 'b/" ++ second ++ "']"),
    (["p", "a", first], "pub enum A: u8 \x7b X = 1 \x7d"),
    (["p", "b", second], "pub enum B: u8 \x7b X = 1 \x7d")]

/-- Its configuration. -/
def projectConfig (first second : String) : Config where
  sources := [⟨"/", ["p", "a", first]⟩, ⟨"/", ["p", "b", second]⟩]
  root := some ⟨"/", ["p"]⟩

/-- What holds of both its sources. -/
theorem forall_sources {first second : String} {p : Path → Prop} (h : p ⟨"/", ["p", "a", first]⟩)
    (h' : p ⟨"/", ["p", "b", second]⟩) :
    ∀ source ∈ (projectConfig first second).sources, p source :=
  List.forall_mem_cons.mpr ⟨h, List.forall_mem_singleton.mpr h'⟩

/-- The directory that its modules are written to. -/
theorem directoryOf_projectConfig (t : FileTree) (first second : String) :
    directoryOf t (projectConfig first second) = ⟨"/", ["p"]⟩ := rfl

/-- The units of its sources. -/
theorem exists_pair {first second : String}
    (h : UnitsOf t (projectConfig first second) units) :
    ∃ u u', units = [(⟨"/", ["p", "a", first]⟩, u), (⟨"/", ["p", "b", second]⟩, u')] ∧
      Compiles t (projectConfig first second) ⟨"/", ["p", "a", first]⟩ u ∧
      Compiles t (projectConfig first second) ⟨"/", ["p", "b", second]⟩ u' := by
  obtain ⟨⟨_, u⟩, rest, ⟨rfl, hu⟩, hrest, rfl⟩ := List.forall₂_cons_left_iff.mp h
  obtain ⟨⟨_, u'⟩, rest, ⟨rfl, hu'⟩, hnil, rfl⟩ := List.forall₂_cons_left_iff.mp hrest
  obtain rfl := List.forall₂_nil_left_iff.mp hnil
  exact ⟨u, u', rfl, hu, hu'⟩

/-- **Builds.** If some source does not compile, the exit code is 1 and the tree is as it was. If
all compile and their modules can be written, the exit code is 0; then at the target of a source
stands the module of the last source that has the same stem, and all other files are as they were.
So no module is lost exactly if those for sources of one stem are the same. -/
theorem run_build (hc : t.config = .ok c) (hcurrent : ∀ name ∈ t.current, '/' ∉ name.toList)
    (hsources : c.sources ≠ []) :
    ∃ ending transcript t', (run FileTree.fileSystem .build).run t = ((ending, transcript), t') ∧
      ((∀ source ∈ c.sources, ∃ u, Compiles t c source u) →
        (∀ source ∈ c.sources, t.Writable (target (directoryOf t c) source)) →
        ending.exitCode = 0 ∧ ∃ units, UnitsOf t c units ∧ Built t (directoryOf t c) units t' ∧
          ((∀ unit ∈ units, t'.read (target (directoryOf t c) unit.1) = .ok unit.2.text) ↔
            ∀ p ∈ units, ∀ q ∈ units, p.1.stem = q.1.stem → p.2.text = q.2.text)) ∧
      ((∃ source ∈ c.sources, ∀ u, ¬ Compiles t c source u) → ending.exitCode = 1 ∧ t' = t) := by
  rcases hrun : (run FileTree.fileSystem .build).run t with ⟨⟨ending, transcript⟩, t'⟩
  refine ⟨ending, transcript, t', rfl, fun hcompile hwritable => ?_, fun hsource => ?_⟩
  · obtain ⟨transcript', units, t'', hsuccess, hunits, hbuilt⟩ :=
      exists_built hc hcurrent hsources hcompile hwritable
    obtain ⟨⟨rfl, -⟩, rfl⟩ := by simpa only [hrun, Prod.mk.injEq] using hsuccess
    exact ⟨rfl, units, hunits, hbuilt, hbuilt.forall_read_iff⟩
  · obtain ⟨ending', transcript', hcode, hfailure⟩ := run_build_of_not_compiles hc hsource
    obtain ⟨⟨rfl, -⟩, rfl⟩ := by simpa only [hrun, Prod.mk.injEq] using hfailure
    exact ⟨hcode, rfl⟩

/-- Sources with different stems: each module is there. -/
theorem run_build_project :
    ∃ ending transcript t' units,
      (run FileTree.fileSystem .build).run (project "one.encap" "two.encap") =
        ((ending, transcript), t') ∧ ending.exitCode = 0 ∧
      UnitsOf (project "one.encap" "two.encap") (projectConfig "one.encap" "two.encap") units ∧
      ∀ unit ∈ units, t'.read (target ⟨"/", ["p"]⟩ unit.1) = .ok unit.2.text := by
  have hc : (project "one.encap" "two.encap").config =
      .ok (projectConfig "one.encap" "two.encap") := by decide +kernel
  have hone : (project "one.encap" "two.encap").read ⟨"/", ["p", "a", "one.encap"]⟩ =
      .ok "pub enum A: u8 \x7b X = 1 \x7d" := by decide +kernel
  have htwo : (project "one.encap" "two.encap").read ⟨"/", ["p", "b", "two.encap"]⟩ =
      .ok "pub enum B: u8 \x7b X = 1 \x7d" := by decide +kernel
  obtain ⟨ending, transcript, t', hrun, hsuccess, -⟩ :=
    run_build hc (by decide) (by simp [projectConfig])
  rw [directoryOf_projectConfig] at hsuccess
  obtain ⟨hcode, units, hunits, -, hall⟩ := hsuccess
    (forall_sources (exists_compiles rfl hone (by decide +kernel))
      (exists_compiles rfl htwo (by decide +kernel)))
    (forall_sources (exists_eq_ok (by decide +kernel)) (exists_eq_ok (by decide +kernel)))
  refine ⟨ending, transcript, t', units, hrun, hcode, hunits, hall.mpr ?_⟩
  obtain ⟨u, u', rfl, -, -⟩ := exists_pair hunits
  have hstems : (⟨"/", ["p", "a", "one.encap"]⟩ : Path).stem ≠
      (⟨"/", ["p", "b", "two.encap"]⟩ : Path).stem := by decide +kernel
  simp [hstems, hstems.symm]

/-- Sources with one stem: the first of them compiles, and the build ends well, but the module at
its target is that of the second. -/
theorem run_build_twins :
    ∃ u u' transcript t',
      Compiles (project "flags.encap" "flags.rs") (projectConfig "flags.encap" "flags.rs")
        ⟨"/", ["p", "a", "flags.encap"]⟩ u ∧
      Compiles (project "flags.encap" "flags.rs") (projectConfig "flags.encap" "flags.rs")
        ⟨"/", ["p", "b", "flags.rs"]⟩ u' ∧
      (run FileTree.fileSystem .build).run (project "flags.encap" "flags.rs") =
        ((.success, transcript), t') ∧
      t'.read (target ⟨"/", ["p"]⟩ ⟨"/", ["p", "a", "flags.encap"]⟩) = .ok u'.text ∧
      u.text ≠ u'.text := by
  have hc : (project "flags.encap" "flags.rs").config =
      .ok (projectConfig "flags.encap" "flags.rs") := by decide +kernel
  have hfirst : (project "flags.encap" "flags.rs").read ⟨"/", ["p", "a", "flags.encap"]⟩ =
      .ok "pub enum A: u8 \x7b X = 1 \x7d" := by decide +kernel
  have hsecond : (project "flags.encap" "flags.rs").read ⟨"/", ["p", "b", "flags.rs"]⟩ =
      .ok "pub enum B: u8 \x7b X = 1 \x7d" := by decide +kernel
  have hwritable : ∀ source ∈ (projectConfig "flags.encap" "flags.rs").sources,
      (project "flags.encap" "flags.rs").Writable (target ⟨"/", ["p"]⟩ source) :=
    forall_sources (exists_eq_ok (by decide +kernel)) (exists_eq_ok (by decide +kernel))
  obtain ⟨transcript, units, t', hrun, hunits, hbuilt⟩ :=
    exists_built hc (by decide) (by simp [projectConfig])
      (forall_sources (exists_compiles rfl hfirst (by decide +kernel))
        (exists_compiles rfl hsecond (by decide +kernel))) hwritable
  obtain ⟨u, u', rfl, hu, hu'⟩ := exists_pair hunits
  rw [directoryOf_projectConfig] at hbuilt
  have htarget : target ⟨"/", ["p"]⟩ ⟨"/", ["p", "a", "flags.encap"]⟩ =
      target ⟨"/", ["p"]⟩ ⟨"/", ["p", "b", "flags.rs"]⟩ := by decide +kernel
  have hread := hbuilt.last [(⟨"/", ["p", "a", "flags.encap"]⟩, u)]
    (⟨"/", ["p", "b", "flags.rs"]⟩, u') [] rfl (List.forall_mem_nil _)
  rw [← htarget] at hread
  exact ⟨u, u', transcript, t', hu, hu', hrun, hread,
    hu.text_ne hu' (by decide +kernel) (by decide +kernel)⟩

end Session
end MaskEnum
