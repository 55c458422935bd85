import MaskEnum.Proofs.Config.Sections
import MaskEnum.Proofs.Path
import MaskEnum.Proofs.Session.Run
set_option autoImplicit false

/-!
# Configurations and compiled files in a session

On a file tree, reading the configuration and compiling a file leave the tree alone. A file compiles
if the values from elsewhere can be loaded, it can be read, and its text compiles with the options
of the configuration.

## Main definitions

* `MaskEnum.FileTree.config`, `MaskEnum.FileTree.externals` — the configuration for the working
  directory, and the values from elsewhere that it asks for.
* `MaskEnum.Session.optionsFor`, `MaskEnum.Session.Compiles` — the options of a configuration, and a
  file that compiles to a unit.

## Main results

* `MaskEnum.FileTree.slashless_of_config` — the paths of sources have proper names.
* `MaskEnum.Session.comesTo_config`, `MaskEnum.Session.decides_compileFile` — parts of sessions.
-/

namespace MaskEnum

/-! ## Configurations -/

namespace FileTree

/-- The configuration for the working directory. -/
def config (t : FileTree) : Except ConfigFault Config :=
  ((Config.load fileSystem ⟨"/", t.current⟩).run t).1

/-- The values from elsewhere that a configuration asks for. -/
def externals (t : FileTree) (c : Config) : Except ExternalsFault Externals :=
  match c.externalsFile with
  | none => .ok (({} : Externals).merge c.externals)
  | some path => ((Externals.load fileSystem path).run t).1.map (·.merge c.externals)

variable {t : FileTree} {c : Config}

/-- The first of some paths that is a file. -/
theorem run_firstFile (t : FileTree) (ps : List Path) :
    (fileSystem.firstFile ps).run t = (ps.find? t.isFile, t) := by
  induction ps with
  | nil => rfl
  | cons p ps ih =>
    rw [FileSystem.firstFile, StateT.run_bind]
    show (if t.isFile p then pure (some p) else fileSystem.firstFile ps).run t = _
    split_ifs with h
    · rw [List.find?_cons_of_pos h]
      rfl
    · rw [List.find?_cons_of_neg h, ih]

/-- The configuration is what the nearest file holds. -/
theorem run_load (t : FileTree) (start : Path) :
    (Config.load fileSystem start).run t =
      (match (start.ancestors.map (·.entry Config.fileName)).find? t.isFile with
        | none => .ok {}
        | some path =>
          match t.read path with
          | .ok text => Config.parse path text
          | .error fault => .error (.unreadable path fault), t) := by
  rw [Config.load, Config.find, StateT.run_bind, run_firstFile]
  cases hfind : (start.ancestors.map (·.entry Config.fileName)).find? t.isFile with
  | none => rfl
  | some path =>
    show (do
      match ← fileSystem.read path with
      | .ok text => pure (Config.parse path text)
      | .error fault => pure (.error (.unreadable path fault)) : StateM FileTree _).run t = _
    rw [StateT.run_bind]
    show (match t.read path with
      | .ok text => pure (Config.parse path text)
      | .error fault => pure (.error (.unreadable path fault)) : StateM FileTree _).run t = _
    cases hread : t.read path <;> simp only [hread] <;> rfl

/-- The values from elsewhere are what their file holds. -/
theorem run_loadExternals (t : FileTree) (path : Path) :
    (Externals.load fileSystem path).run t =
      (match t.read path with
        | .error fault => .error (.unreadable path fault)
        | .ok text => Externals.parse path text, t) := by
  rw [Externals.load, StateT.run_bind]
  show (match t.read path with
    | .error fault => pure (.error (.unreadable path fault))
    | .ok text => pure (Externals.parse path text) : StateM FileTree _).run t = _
  cases t.read path <;> rfl

/-- A configuration is empty, or it is that of a document in a directory above. -/
theorem parse_of_config (h : t.config = .ok c) :
    c = {} ∨ ∃ directory ∈ (⟨"/", t.current⟩ : Path).ancestors, ∃ text,
      Config.parse (directory.entry Config.fileName) text = .ok c := by
  rw [config, run_load] at h
  cases hfind : ((⟨"/", t.current⟩ : Path).ancestors.map (·.entry Config.fileName)).find?
      t.isFile with
  | none =>
    rw [hfind] at h
    exact .inl (Except.ok.inj h).symm
  | some path =>
    simp only [hfind] at h
    obtain ⟨directory, hdirectory, rfl⟩ := List.mem_map.mp (List.mem_of_find?_eq_some hfind)
    cases hread : t.read (directory.entry Config.fileName) with
    | error fault =>
      simp only [hread] at h
      cases h
    | ok text =>
      simp only [hread] at h
      exact .inr ⟨directory, hdirectory, text, h⟩

/-- The paths of sources have no slash in their names, unless the working directory has. -/
theorem slashless_of_config (h : t.config = .ok c)
    (hcurrent : ∀ name ∈ t.current, '/' ∉ name.toList) :
    ∀ source ∈ c.sources, source.Slashless := by
  rcases parse_of_config h with rfl | ⟨directory, hdirectory, text, hparse⟩
  · exact List.forall_mem_nil _
  · have hstart : (⟨"/", t.current⟩ : Path).Slashless := hcurrent
    have hroot : (directory.entry Config.fileName).parent.Slashless :=
      ((hstart.ancestors directory hdirectory).join (Path.slashless_ofText _)).parent
    rw [Config.parse] at hparse
    split at hparse
    · cases hparse
    · next document hdocument =>
      rcases Config.ofFields_eq_ok.mp hparse with ⟨-, rfl⟩ | ⟨fields, -, -, hsection⟩
      · exact List.forall_mem_nil _
      · obtain ⟨texts, -, hsources⟩ := (Config.ofSection_eq_ok.mp hsection).sources
        rw [hsources, List.forall_mem_map]
        exact fun s _ => hroot.join (Path.slashless_ofText s)

end FileTree

namespace Session

variable {t : FileTree} {c : Config} {source : Path}

/-- Reading the configuration. -/
theorem comesTo_config (h : t.config = .ok c) :
    ComesTo (config FileTree.fileSystem) t (.ok c) t := by
  have hload : (Config.load FileTree.fileSystem ⟨"/", t.current⟩).run t = (.ok c, t) := by
    rw [FileTree.config, FileTree.run_load] at h
    rw [FileTree.run_load]
    exact congrArg (fun outcome => (outcome, t)) h
  have hcurrent : FileTree.fileSystem.workingDirectory.run t = (⟨"/", t.current⟩, t) := rfl
  exact (comesTo_lift hcurrent).bind_ok ((comesTo_lift hload).bind_ok (comesTo_pure c t))

/-- Loading the values from elsewhere. -/
theorem decides_externals (t : FileTree) (c : Config) :
    Decides (externals FileTree.fileSystem c none) t fun e => t.externals c = .ok e := by
  rw [FileTree.externals, externals, Option.none_or]
  cases c.externalsFile with
  | none => exact .ok rfl (comesTo_pure _ t)
  | some path =>
    have hload : (Externals.load FileTree.fileSystem path).run t =
        (((Externals.load FileTree.fileSystem path).run t).1, t) := by
      rw [FileTree.run_loadExternals]
    dsimp only
    cases houtcome : ((Externals.load FileTree.fileSystem path).run t).1 with
    | ok e =>
      rw [houtcome] at hload
      exact .ok rfl ((comesTo_report _ t).bind_ok ((comesTo_lift hload).bind_ok (comesTo_pure _ t)))
    | error f =>
      rw [houtcome] at hload
      exact .error (fun _ => nofun) rfl
        ((comesTo_report _ t).bind_ok ((comesTo_lift hload).bind_ok (comesTo_fail _ t)))

/-! ## Compiled files -/

/-- The options of a configuration, with the values from elsewhere. -/
def optionsFor (c : Config) (e : Externals) (source : Path) : Options where
  environment := ⟨e.constants, e.enums, c.strict⟩
  source := some source.name
  preamble := c.preamble

/-- A file compiles to a unit with the options of a configuration. -/
def Compiles (t : FileTree) (c : Config) (source : Path) (u : CompiledUnit) : Prop :=
  ∃ e text, t.externals c = .ok e ∧ t.read source = .ok text ∧
    compile (Text.onChars Text.unifyBreaks text) (optionsFor c e source) = .ok u

/-- A file compiles, as evaluating the model shows. -/
theorem exists_compiles {e : Externals} {text : String} (he : t.externals c = .ok e)
    (htext : t.read source = .ok text)
    (h : (compile (Text.onChars Text.unifyBreaks text)
      (optionsFor c e source)).toOption.isSome = true) : ∃ u, Compiles t c source u := by
  obtain ⟨u, hu⟩ := exists_eq_ok h
  exact ⟨u, e, text, he, htext, hu⟩

/-- **Compiling a file** gives the unit that it compiles to, or else ends the session. -/
theorem decides_compileFile (t : FileTree) (c : Config) (source : Path) :
    Decides (compileFile FileTree.fileSystem c source none false) t (Compiles t c source) := by
  rw [compileFile]
  rcases decides_externals t c with ⟨e, he, hexternals⟩ | ⟨hnone, ending, hending, hexternals⟩
  · have hread : (FileTree.fileSystem.read source).run t = (t.read source, t) := rfl
    refine .bind hexternals (.bind (comesTo_report _ t) (.bind (comesTo_lift hread) ?_))
    cases htext : t.read source with
    | error f =>
      refine .error ?_ rfl (comesTo_fail _ t)
      rintro u ⟨e', text, -, htext', -⟩
      cases htext.symm.trans htext'
    | ok text =>
      simp only [Bool.false_or]
      generalize hcompile : compile (Text.onChars Text.unifyBreaks text) _ = outcome
      cases outcome with
      | ok u => exact .ok ⟨e, text, he, htext, hcompile⟩ (comesTo_pure u t)
      | error error =>
        have hnone : ∀ u, ¬ Compiles t c source u := by
          rintro u ⟨e', text', he', htext', hcompile'⟩
          obtain rfl := Except.ok.inj (he.symm.trans he')
          obtain rfl := Except.ok.inj (htext.symm.trans htext')
          cases hcompile.symm.trans hcompile'
        dsimp only
        split_ifs
        · exact .error hnone rfl (comesTo_fail _ t)
        · exact .error hnone rfl (comesTo_throw _ t)
  · refine .error ?_ hending hexternals.bind_error
    rintro u ⟨e, text, he, -⟩
    exact hnone e he

end Session
end MaskEnum
